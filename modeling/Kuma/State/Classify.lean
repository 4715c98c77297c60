import Kuma.State.Printed

/-! The state that bare `kuma` says a machine and its declaration are in, and the commands it
offers out of it. Conditions are checked one after another: the first that holds names the state,
and each that holds offers its commands. -/
namespace Kuma.State
open Kuma.Lib Kuma.Lib.Text

/-- What a command that is offered is for. -/
inductive Rel
  | install | edit | reboot | build | switch | watch | sync | diff | vm | iso | update | doctor
  | init
  deriving DecidableEq

structure Action where
  rel : Rel
  cmd : List Char
  why : String

inductive ConfigFact
  | missing
  | invalid (why : String)
  | loaded (rpm flatpak brew : ℕ)
  /-- the declaration that the image carries speaks for the machine -/
  | baked (rpm flatpak brew : ℕ)

structure ImageFact where
  id : String
  ageSecs : ℕ
  editedAfter : Bool
  /-- the kuma that built it, where it says so -/
  builder : Option String

inductive MachineFact
  | notBootc
  | bootcForeign
  | kuma (staged : Bool) (drift : List String) (deployedId : Option String)

structure Observed where
  configPath : String
  config : ConfigFact
  image : Option ImageFact
  machine : MachineFact
  live : Bool
  liveSource : Option String
  /-- the convergence units that are running -/
  converging : List String

inductive Named
  | live | configInvalid | staged | notBuilt | edited | staleBuild | builtAhead | converging
  | drifted | built | inSync | noConfig
  deriving DecidableEq

structure Snapshot where
  state : Named
  headline : String
  facts : List (String × String)
  actions : List Action

def DEFAULT_TAG : String := "localhost/kuma:latest"
def PUBLISHED_IMAGE : String := "ghcr.io/letdown2491/kuma:niri"
def BAKED_CONFIG : String := "/usr/lib/kuma/kuma.toml"

def joined (sep : String) (parts : List String) : String := sep.intercalate parts

/-! ### The facts -/

def humanAge (secs : ℕ) : String :=
  if secs < 60 then s!"{secs}s"
  else if secs < 3600 then s!"{secs / 60}m"
  else if secs < 86400 then s!"{secs / 3600}h"
  else s!"{secs / 86400}d"

/-- The image that a bare `kuma install` writes from installer media. -/
def imageForMedia (recorded : Option String) : String :=
  match (recorded.map fun r => trim r.toList).filter (· ≠ []) with
  | none => PUBLISHED_IMAGE
  | some recorded =>
    if (stripPrefix "localhost/".toList recorded).isSome then PUBLISHED_IMAGE
    else String.ofList recorded

def liveFacts (obs : Observed) : List (String × String) :=
  [("config",
      match obs.config with
      | .loaded rpm flatpak brew | .baked rpm flatpak brew =>
        s!"{rpm} rpm, {flatpak} flatpak, {brew} brew; what this media would install"
      | _ => "none carried"),
    ("image", "this media's own filesystem, read-only; edits live in RAM"),
    ("machine",
      let image := imageForMedia obs.liveSource
      s!"none yet; `kuma install` writes one from {image}")]

section
variable (version : String)

def factsOf (obs : Observed) : List (String × String) :=
  let path := obs.configPath
  [("config",
      match obs.config with
      | .missing => s!"none ({path} not found)"
      | .invalid _ => s!"{path} (invalid)"
      | .loaded rpm flatpak brew => s!"{path}: {rpm} rpm, {flatpak} flatpak, {brew} brew declared"
      | .baked rpm flatpak brew =>
        s!"{BAKED_CONFIG} (this machine's baked declaration): " ++
          s!"{rpm} rpm, {flatpak} flatpak, {brew} brew"),
    ("image",
      match obs.image with
      | none => s!"none built ({DEFAULT_TAG} not in podman storage)"
      | some image =>
        let age := humanAge image.ageSecs
        let edited := if image.editedAfter then ", before the last config edit" else ""
        let builtBy := match image.builder with
          | some other => if other = version then "" else s!", by kuma {other}"
          | none => ", by an unrecorded kuma"
        s!"{DEFAULT_TAG}, built {age} ago{edited}{builtBy}"),
    ("machine",
      match obs.machine with
      | .notBootc => "not a bootc machine (build/test workspace)"
      | .bootcForeign => "bootc machine, not running a kuma image"
      | .kuma staged drift _ =>
        let drifted := joined ", " drift
        joined "; " (["running a kuma image"] ++
          (if staged then ["staged deployment pending reboot"] else []) ++
          [if drift = [] then "converged" else s!"drifted ({drifted})"]))]

/-! ### The conditions, in their order -/

/-- What has been claimed and offered so far. -/
structure Draft where
  state : Option (Named × String)
  actions : List Action

/-- `claim`: only the first one counts. -/
def Draft.claim (d : Draft) (state : Named) (headline : String) (more : List Action) : Draft :=
  ⟨d.state.or (some (state, headline)), d.actions ++ more⟩

-- the flag that `Action::new` appends
variable (flag : Option (List Char))

def action (rel : Rel) (cmd why : String) : Action := ⟨rel, applyConfigFlag cmd.toList flag, why⟩

def rebootAction : Action :=
  action flag .reboot "sudo systemctl reboot"
    "boot the staged deployment; kuma rollback returns to the previous one"

def edgeInvalid (obs : Observed) (d : Draft) : Draft :=
  match obs.config with
  | .invalid why =>
    d.claim .configInvalid s!"{obs.configPath} is invalid; nothing can build from it"
      [action flag .edit ("$EDITOR " ++ obs.configPath) why]
  | _ => d

def edgeStaged (obs : Observed) (d : Draft) : Draft :=
  match obs.machine with
  | .kuma true _ _ =>
    d.claim .staged "a new deployment is staged; reboot to apply" [rebootAction flag]
  | _ => d

def edgeNotBuilt (obs : Observed) (d : Draft) : Draft :=
  match obs.config, obs.image with
  | .loaded .., none =>
    d.claim .notBuilt s!"{obs.configPath} has never been built here"
      [action flag .build "kuma build" "build the system image from the declaration"]
  | _, _ => d

def edgeEdited (obs : Observed) (d : Draft) : Draft :=
  match obs.config, obs.image with
  | .loaded .., some image =>
    if image.editedAfter then
      d.claim .edited s!"{obs.configPath} changed after the last image build"
        [action flag .build "kuma build" "rebuild the image to pick up the edit"]
    else d
  | _, _ => d

def edgeStale (obs : Observed) (d : Draft) : Draft :=
  match obs.image with
  | some image =>
    if image.builder ≠ some version then
      let builtBy := match image.builder with
        | some other => s!"kuma {other}"
        | none => "a kuma older than the label"
      d.claim .staleBuild s!"the image was built by {builtBy}, not the one running"
        [action flag .build "kuma build" "rebuild with the kuma you are running"]
    else d
  | none => d

def edgeAhead (obs : Observed) (d : Draft) : Draft :=
  match obs.image, obs.machine with
  | some image, .kuma _ _ (some deployed) =>
    if deployed ≠ image.id then
      d.claim .builtAhead "the built image is newer than the deployment"
        [action flag .switch "kuma switch" "stage the newer build (applies on reboot)"]
    else d
  | _, _ => d

def edgeConverging (obs : Observed) (d : Draft) : Draft :=
  if obs.converging = [] then d
  else
    let units := joined " and " obs.converging
    d.claim .converging
      s!"{units} convergence is running now; this is what the machine is doing, not drift"
      [action flag .watch "journalctl -fu kuma-flatpak-sync"
        "follow it (brew and user sync have their own units)"]

def edgeDrifted (obs : Observed) (d : Draft) : Draft :=
  match obs.machine with
  | .kuma _ drift _ =>
    if drift = [] then d
    else
      let drifted := joined ", " drift
      d.claim .drifted s!"machine drifted from its declaration: {drifted}"
        ((if obs.converging = [] then
            [action flag .sync "kuma sync" "converge now (also runs at boot and daily)"]
          else []) ++ [action flag .diff "kuma diff" "see the drift in detail"])
  | _ => d

def edgeBuilt (obs : Observed) (d : Draft) : Draft :=
  if obs.image.isSome ∧ d.actions = [] then
    match obs.machine with
    | .bootcForeign =>
      d.claim .built "image built; this bootc machine could switch to it"
        [action flag .switch "kuma switch"
          "adopt: point this machine at the kuma image (applies on reboot)",
        action flag .vm "kuma vm" "boot the image in a disposable VM instead"]
    | .notBootc =>
      d.claim .built "image built; this machine can't run it directly"
        [action flag .vm "kuma vm" "boot the image in a QEMU VM",
        action flag .iso "kuma iso" "build an installer ISO for real hardware"]
    | .kuma .. => d
  else d

def edgeInSync (obs : Observed) (d : Draft) : Draft :=
  match obs.machine with
  | .kuma .. =>
    if d.actions = [] then
      d.claim .inSync "machine matches its declaration; nothing pending"
        [action flag .update "kuma update" "pull the latest base image and rebuild",
        action flag .doctor "kuma doctor" "deeper machine health checks"]
    else d
  | _ => d

def edgeNoConfig (obs : Observed) (d : Draft) : Draft :=
  match obs.config with
  | .missing =>
    d.claim .noConfig s!"no {obs.configPath} here; nothing declared yet"
      [action flag .init "kuma init" "start a system definition in this directory"]
  | .baked .. =>
    ⟨d.state, d.actions ++
      [action flag .init "kuma init" "copy this machine's baked declaration here to edit it"]⟩
  | _ => d

/-- The conditions, in the order in which they are checked. -/
def EDGES : List (Observed → Draft → Draft) :=
  [edgeInvalid flag, edgeStaged flag, edgeNotBuilt flag, edgeEdited flag,
    edgeStale version flag, edgeAhead flag, edgeConverging flag, edgeDrifted flag,
    edgeBuilt flag, edgeInSync flag, edgeNoConfig flag]

def drafted (obs : Observed) : Draft :=
  (EDGES version flag).foldl (fun d edge => edge obs d) ⟨none, []⟩

def classify (obs : Observed) : Snapshot :=
  if obs.live then
    ⟨.live, "running from installer media; nothing here persists", liveFacts obs,
      [action flag .install "kuma install"
        "write this system to a disk (it asks which, and shows the plan first)"]⟩
  else
    let d := drafted version flag obs
    let (state, headline) := d.state.getD (.inSync, "nothing pending")
    ⟨state, headline, factsOf version obs, d.actions⟩

end

variable {version : String} {flag : Option (List Char)} {obs obs' : Observed} {d d' : Draft}

/-! ### The first condition that holds -/

/-- A claim and a first offer, once made, stand. -/
structure Leads (d d' : Draft) : Prop where
  state : d.state.isSome = true → d'.state = d.state
  head : d.actions ≠ [] → d'.actions.head? = d.actions.head?

theorem leads_refl (d : Draft) : Leads d d := ⟨fun _ => rfl, fun _ => rfl⟩

theorem head?_append_of_ne {l : List Action} (h : l ≠ []) (more : List Action) :
    (l ++ more).head? = l.head? := by
  cases l with
  | nil => exact absurd rfl h
  | cons a rest => rfl

theorem leads_claim (d : Draft) (state : Named) (headline : String) (more : List Action) :
    Leads d (d.claim state headline more) := by
  refine ⟨fun h => ?_, fun h => head?_append_of_ne h more⟩
  obtain ⟨claimed, hclaimed⟩ := Option.isSome_iff_exists.mp h
  show d.state.or _ = d.state
  rw [hclaimed]
  rfl

theorem leads_edge (edge : Observed → Draft → Draft) (h : edge ∈ EDGES version flag) (d : Draft) :
    Leads d (edge obs d) := by
  simp only [EDGES, List.mem_cons, List.not_mem_nil, or_false] at h
  rcases h with rfl | rfl | rfl | rfl | rfl | rfl | rfl | rfl | rfl | rfl | rfl
  · unfold edgeInvalid
    split
    · exact leads_claim ..
    · exact leads_refl d
  · unfold edgeStaged
    split
    · exact leads_claim ..
    · exact leads_refl d
  · unfold edgeNotBuilt
    split
    · exact leads_claim ..
    · exact leads_refl d
  · unfold edgeEdited
    split
    · split_ifs
      · exact leads_claim ..
      · exact leads_refl d
    · exact leads_refl d
  · unfold edgeStale
    split
    · split_ifs
      · exact leads_claim ..
      · exact leads_refl d
    · exact leads_refl d
  · unfold edgeAhead
    split
    · split_ifs
      · exact leads_claim ..
      · exact leads_refl d
    · exact leads_refl d
  · unfold edgeConverging
    split_ifs
    · exact leads_refl d
    · exact leads_claim ..
  · unfold edgeDrifted
    split
    · split_ifs
      · exact leads_refl d
      · exact leads_claim ..
      · exact leads_claim ..
    · exact leads_refl d
  · unfold edgeBuilt
    split_ifs
    · split
      · exact leads_claim ..
      · exact leads_claim ..
      · exact leads_refl d
    · exact leads_refl d
  · unfold edgeInSync
    split
    · split_ifs
      · exact leads_claim ..
      · exact leads_refl d
    · exact leads_refl d
  · unfold edgeNoConfig
    split
    · exact leads_claim ..
    · exact ⟨fun _ => rfl, fun h => head?_append_of_ne h _⟩
    · exact leads_refl d

theorem leads_foldl {edges : List (Observed → Draft → Draft)}
    (h : ∀ edge ∈ edges, edge ∈ EDGES version flag) (d : Draft) :
    Leads d (edges.foldl (fun d edge => edge obs d) d) := by
  induction edges generalizing d with
  | nil => exact leads_refl d
  | cons edge edges ih =>
    have hedge : Leads d (edge obs d) := leads_edge edge (h edge List.mem_cons_self) d
    have hrest := ih (fun e he => h e (List.mem_cons_of_mem edge he)) (edge obs d)
    refine ⟨fun hstate => ?_, fun hactions => ?_⟩
    · have hkept := hedge.state hstate
      rw [List.foldl_cons, hrest.state (hkept ▸ hstate), hkept]
    · have hkept := hedge.head hactions
      have hne : (edge obs d).actions ≠ [] := by
        intro hnil
        rw [hnil] at hkept
        exact hactions (List.head?_eq_none_iff.mp hkept.symm)
      rw [List.foldl_cons, hrest.head hne, hkept]

/-- The first condition that holds names the state, and what it offers comes first. -/
theorem drafted_of_first {before after : List (Observed → Draft → Draft)}
    {edge : Observed → Draft → Draft} {state : Named} {headline : String} {a : Action}
    {more : List Action} (hedges : EDGES version flag = before ++ edge :: after)
    (hbefore : ∀ e ∈ before, e obs ⟨none, []⟩ = ⟨none, []⟩)
    (hedge : edge obs ⟨none, []⟩ = (Draft.mk none []).claim state headline (a :: more)) :
    (drafted version flag obs).state = some (state, headline) ∧
      (drafted version flag obs).actions.head? = some a := by
  have hidle : before.foldl (fun d edge => edge obs d) ⟨none, []⟩ = ⟨none, []⟩ := by
    clear hedges
    induction before with
    | nil => rfl
    | cons e before ih =>
      rw [List.foldl_cons, hbefore e List.mem_cons_self]
      exact ih fun e' he' => hbefore e' (List.mem_cons_of_mem e he')
  have hafter : ∀ e ∈ after, e ∈ EDGES version flag := by
    intro e he
    rw [hedges]
    exact List.mem_append_right _ (List.mem_cons_of_mem _ he)
  have hleads : Leads (edge obs ⟨none, []⟩)
      (after.foldl (fun d edge => edge obs d) (edge obs ⟨none, []⟩)) := leads_foldl hafter _
  unfold drafted
  rw [hedges, List.foldl_append, hidle, List.foldl_cons]
  rw [hedge] at hleads ⊢
  exact ⟨hleads.state rfl, hleads.head (List.cons_ne_nil a more)⟩

/-! ### Following what is offered first -/

/-- A kuma machine with a declaration in front of it. -/
structure Declared (obs : Observed) : Prop where
  live : obs.live = false
  kuma : ∃ staged drift deployedId, obs.machine = .kuma staged drift deployedId
  config : (∃ why, obs.config = .invalid why) ∨
    ∃ rpm flatpak brew, obs.config = .loaded rpm flatpak brew

namespace Observed

def isInvalid (obs : Observed) : Bool :=
  match obs.config with
  | .invalid _ => true
  | _ => false

def isStaged (obs : Observed) : Bool :=
  match obs.machine with
  | .kuma staged _ _ => staged
  | _ => false

def drift (obs : Observed) : List String :=
  match obs.machine with
  | .kuma _ drift _ => drift
  | _ => []

/-- There is no image of the declaration as it is, by this kuma. -/
def needsBuild (version : String) (obs : Observed) : Bool :=
  match obs.image with
  | none => true
  | some image => image.editedAfter || image.builder != some version

/-- The image is not the one that was deployed last. -/
def isAhead (obs : Observed) : Bool :=
  match obs.image, obs.machine with
  | some image, .kuma _ _ (some deployed) => deployed != image.id
  | _, _ => false

end Observed

/-- What is pending, as far as it bears on what comes first. -/
structure Pending where
  invalid : Bool
  staged : Bool
  needsBuild : Bool
  ahead : Bool
  running : Bool
  drifted : Bool

def Observed.pending (version : String) (obs : Observed) : Pending where
  invalid := obs.isInvalid
  staged := obs.isStaged
  needsBuild := obs.needsBuild version
  ahead := obs.isAhead
  running := obs.converging ≠ []
  drifted := obs.drift ≠ []

/-- What is due first, where anything is. -/
def Pending.next (p : Pending) : Option Rel :=
  if p.invalid then some .edit
  else if p.staged then some .reboot
  else if p.needsBuild then some .build
  else if p.ahead then some .switch
  else if p.running then some .watch
  else if p.drifted then some .sync
  else none

def Observed.next (version : String) (obs : Observed) : Option Rel := (obs.pending version).next

/-- What stands first in a draft: its state and the command to follow. -/
structure Leading (d : Draft) (state : Named) (rel : Rel) : Prop where
  state : ∃ headline, d.state = some (state, headline)
  head : ∃ a, d.actions.head? = some a ∧ a.rel = rel

theorem leading_of_first (before : List (Observed → Draft → Draft))
    {after : List (Observed → Draft → Draft)} {edge : Observed → Draft → Draft} {state : Named}
    {headline : String} {a : Action} {more : List Action} {rel : Rel}
    (hedges : EDGES version flag = before ++ edge :: after)
    (hbefore : ∀ e ∈ before, e obs ⟨none, []⟩ = ⟨none, []⟩)
    (hedge : edge obs ⟨none, []⟩ = (Draft.mk none []).claim state headline (a :: more))
    (hrel : a.rel = rel) : Leading (drafted version flag obs) state rel := by
  obtain ⟨hstate, hhead⟩ := drafted_of_first hedges hbefore hedge
  exact ⟨⟨headline, hstate⟩, a, hhead, hrel⟩

section
variable {path : String} {rpm flatpak brew : ℕ} {image : Option ImageFact} {fact : ImageFact}
  {staged : Bool} {drift converging : List String} {deployedId source : Option String}

theorem leading_invalid {machine : MachineFact} {why : String} :
    Leading (drafted version flag ⟨path, .invalid why, image, machine, false, source, converging⟩)
      .configInvalid .edit :=
  leading_of_first [] rfl (fun _ he => nomatch he) rfl rfl

theorem leading_staged : Leading (drafted version flag
    ⟨path, .loaded rpm flatpak brew, image, .kuma true drift deployedId, false, source,
      converging⟩) .staged .reboot := by
  refine leading_of_first [edgeInvalid flag] rfl ?_ rfl rfl
  exact List.forall_mem_singleton.mpr rfl

theorem leading_notBuilt : Leading (drafted version flag
    ⟨path, .loaded rpm flatpak brew, none, .kuma false drift deployedId, false, source,
      converging⟩) .notBuilt .build := by
  refine leading_of_first [edgeInvalid flag, edgeStaged flag] rfl ?_ rfl rfl
  simp only [List.forall_mem_cons, List.not_mem_nil, false_implies, implies_true, and_true]
  exact ⟨rfl, rfl⟩

theorem leading_edited (h : fact.editedAfter = true) : Leading (drafted version flag
    ⟨path, .loaded rpm flatpak brew, some fact, .kuma false drift deployedId, false, source,
      converging⟩) .edited .build := by
  refine leading_of_first [edgeInvalid flag, edgeStaged flag, edgeNotBuilt flag] rfl
    ?_ (if_pos h) rfl
  simp only [List.forall_mem_cons, List.not_mem_nil, false_implies, implies_true, and_true]
  exact ⟨rfl, rfl, rfl⟩

theorem leading_stale (h : fact.editedAfter = false) (hbuilder : fact.builder ≠ some version) :
    Leading (drafted version flag
      ⟨path, .loaded rpm flatpak brew, some fact, .kuma false drift deployedId, false, source,
        converging⟩) .staleBuild .build := by
  refine leading_of_first
    [edgeInvalid flag, edgeStaged flag, edgeNotBuilt flag, edgeEdited flag] rfl
    ?_ (if_pos hbuilder) rfl
  simp only [List.forall_mem_cons, List.not_mem_nil, false_implies, implies_true, and_true]
  exact ⟨rfl, rfl, rfl, if_neg (by simp [h])⟩

theorem leading_ahead {deployed : String} (h : fact.editedAfter = false)
    (hbuilder : fact.builder = some version) (hid : deployed ≠ fact.id) :
    Leading (drafted version flag
      ⟨path, .loaded rpm flatpak brew, some fact, .kuma false drift (some deployed), false, source,
        converging⟩) .builtAhead .switch := by
  refine leading_of_first [edgeInvalid flag, edgeStaged flag, edgeNotBuilt flag,
    edgeEdited flag, edgeStale version flag] rfl ?_ (if_pos hid) rfl
  simp only [List.forall_mem_cons, List.not_mem_nil, false_implies, implies_true, and_true]
  exact ⟨rfl, rfl, rfl, if_neg (by simp [h]), if_neg (by simp [hbuilder])⟩

/-- Nothing is to be built or switched to. -/
structure Settled (version : String) (fact : ImageFact) (deployedId : Option String) : Prop where
  edited : fact.editedAfter = false
  builder : fact.builder = some version
  id : ∀ deployed ∈ deployedId, deployed = fact.id

theorem Settled.idle (h : Settled version fact deployedId) :
    ∀ e ∈ [edgeInvalid flag, edgeStaged flag, edgeNotBuilt flag, edgeEdited flag,
      edgeStale version flag, edgeAhead flag],
      e ⟨path, .loaded rpm flatpak brew, some fact, .kuma false drift deployedId, false, source,
        converging⟩ ⟨none, []⟩ = ⟨none, []⟩ := by
  simp only [List.forall_mem_cons, List.not_mem_nil, false_implies, implies_true, and_true]
  refine ⟨rfl, rfl, rfl, if_neg (by simp [h.edited]), if_neg (by simp [h.builder]), ?_⟩
  cases hid : deployedId with
  | none => rfl
  | some deployed => exact if_neg (by simp [h.id deployed hid])

theorem leading_converging (h : Settled version fact deployedId) (hrunning : converging ≠ []) :
    Leading (drafted version flag
      ⟨path, .loaded rpm flatpak brew, some fact, .kuma false drift deployedId, false, source,
        converging⟩) .converging .watch :=
  leading_of_first _ rfl h.idle (if_neg hrunning) rfl

theorem leading_drifted (h : Settled version fact deployedId) (hdrift : drift ≠ []) :
    Leading (drafted version flag
      ⟨path, .loaded rpm flatpak brew, some fact, .kuma false drift deployedId, false, source,
        []⟩) .drifted .sync := by
  refine leading_of_first
    ([edgeInvalid flag, edgeStaged flag, edgeNotBuilt flag, edgeEdited flag,
      edgeStale version flag, edgeAhead flag] ++ [edgeConverging flag]) rfl ?_ (if_neg hdrift) rfl
  exact List.forall_mem_append.mpr ⟨h.idle, List.forall_mem_singleton.mpr rfl⟩

theorem leading_inSync (h : Settled version fact deployedId) :
    Leading (drafted version flag
      ⟨path, .loaded rpm flatpak brew, some fact, .kuma false [] deployedId, false, source,
        []⟩) .inSync .update := by
  refine leading_of_first
    ([edgeInvalid flag, edgeStaged flag, edgeNotBuilt flag, edgeEdited flag,
      edgeStale version flag, edgeAhead flag] ++
        [edgeConverging flag, edgeDrifted flag, edgeBuilt flag]) rfl ?_ rfl rfl
  refine List.forall_mem_append.mpr ⟨h.idle, ?_⟩
  simp only [List.forall_mem_cons, List.not_mem_nil, false_implies, implies_true, and_true]
  exact ⟨rfl, rfl, rfl⟩

end

theorem due {rel : Rel} (h : ∃ state, Leading d state rel) :
    (∀ rel' ∈ some rel, ∃ state, Leading d state rel') ∧
      (some rel = none → Leading d .inSync .update) := by
  refine ⟨fun rel' hrel' => ?_, fun hnone => nomatch hnone⟩
  obtain rfl : rel = rel' := Option.mem_some_iff.mp hrel'
  exact h

/-- What is due of a machine whose declaration reads and that awaits no reboot. -/
theorem leading_built {path : String} {rpm flatpak brew : ℕ} {fact : ImageFact}
    {drift converging : List String} {deployedId source : Option String}
    (h : obs = ⟨path, .loaded rpm flatpak brew, some fact, .kuma false drift deployedId, false,
      source, converging⟩) :
    (∀ rel ∈ obs.next version, ∃ state, Leading (drafted version flag obs) state rel) ∧
      (obs.next version = none → Leading (drafted version flag obs) .inSync .update) := by
  have hnext : obs.next version =
      if (fact.editedAfter || fact.builder != some version) = true then some .build
      else if obs.isAhead = true then some .switch
      else if decide (converging ≠ []) = true then some .watch
      else if decide (drift ≠ []) = true then some .sync else none := by
    rw [h]
    rfl
  rw [hnext]
  by_cases hedited : fact.editedAfter = true
  · rw [if_pos (by rw [hedited, Bool.true_or])]
    exact due ⟨_, h ▸ leading_edited hedited⟩
  have hfresh : fact.editedAfter = false := Bool.not_eq_true _ ▸ hedited
  by_cases hbuilder : fact.builder = some version
  swap
  · rw [if_pos (by simp [hbuilder])]
    exact due ⟨_, h ▸ leading_stale hfresh hbuilder⟩
  rw [if_neg (by simp [hfresh, hbuilder])]
  by_cases hahead : obs.isAhead = true
  · rw [if_pos hahead]
    cases hid : deployedId with
    | none =>
      rw [h, hid] at hahead
      cases hahead
    | some deployed =>
      rw [h, hid] at hahead
      have hne : deployed ≠ fact.id := bne_iff_ne.mp hahead
      rw [hid] at h
      exact due ⟨_, h ▸ leading_ahead hfresh hbuilder hne⟩
  have hsettled : Settled version fact deployedId := by
    refine ⟨hfresh, hbuilder, fun deployed hdeployed => ?_⟩
    obtain rfl : deployedId = some deployed := hdeployed
    rw [h] at hahead
    simpa [Observed.isAhead] using hahead
  rw [if_neg hahead]
  by_cases hrunning : converging = []
  swap
  · rw [if_pos (decide_eq_true hrunning)]
    exact due ⟨_, h ▸ leading_converging hsettled hrunning⟩
  subst hrunning
  have hempty : ¬ decide (([] : List String) ≠ []) = true := by decide
  rw [if_neg hempty]
  by_cases hdrift : drift = []
  · subst hdrift
    rw [if_neg hempty]
    exact ⟨(fun rel hrel => nomatch hrel), fun _ => h ▸ leading_inSync hsettled⟩
  · rw [if_pos (decide_eq_true hdrift)]
    exact due ⟨_, h ▸ leading_drifted hsettled hdrift⟩

/-- What stands first is what is due first, and a machine for which nothing is due is in sync. -/
theorem leading_next (version : String) (flag : Option (List Char)) (h : Declared obs) :
    (∀ rel ∈ obs.next version, ∃ state, Leading (drafted version flag obs) state rel) ∧
      (obs.next version = none → Leading (drafted version flag obs) .inSync .update) := by
  obtain ⟨path, config, image, machine, live, source, converging⟩ := obs
  obtain ⟨hlive, hkuma, hconfig⟩ := h
  obtain rfl : live = false := hlive
  obtain ⟨staged, drift, deployedId, rfl⟩ : ∃ staged drift deployedId,
    machine = .kuma staged drift deployedId := hkuma
  obtain ⟨why, rfl⟩ | ⟨rpm, flatpak, brew, rfl⟩ : (∃ why, config = .invalid why) ∨
    ∃ rpm flatpak brew, config = .loaded rpm flatpak brew := hconfig
  · exact due ⟨_, leading_invalid⟩
  cases staged with
  | true => exact due ⟨_, leading_staged⟩
  | false =>
    cases image with
    | none => exact due ⟨_, leading_notBuilt⟩
    | some fact => exact leading_built rfl

/-- What the command that was offered has done once it has gone through. What a boot or a
convergence leaves to converge may be anything. -/
inductive Effect (version : String) (obs : Observed) : Rel → Observed → Prop
  | edit (rpm flatpak brew : ℕ) (editedAfter : Bool) :
    Effect version obs .edit { obs with
      config := .loaded rpm flatpak brew
      image := obs.image.map fun image => { image with editedAfter } }
  | reboot {staged : Bool} {drift : List String} {deployedId : Option String}
      (h : obs.machine = .kuma staged drift deployedId) (drift' converging : List String) :
    Effect version obs .reboot { obs with machine := .kuma false drift' deployedId, converging }
  | build (id : String) (ageSecs : ℕ) :
    Effect version obs .build { obs with image := some ⟨id, ageSecs, false, some version⟩ }
  | switch {staged : Bool} {drift : List String} {deployedId : Option String} {fact : ImageFact}
      (h : obs.machine = .kuma staged drift deployedId) (himage : obs.image = some fact)
      (staged' : Bool) :
    Effect version obs .switch { obs with machine := .kuma staged' drift (some fact.id) }
  | watch {staged : Bool} {drift : List String} {deployedId : Option String}
      (h : obs.machine = .kuma staged drift deployedId) (drift' : List String) :
    Effect version obs .watch { obs with
      machine := .kuma staged drift' deployedId
      converging := [] }
  | sync {staged : Bool} {drift : List String} {deployedId : Option String}
      (h : obs.machine = .kuma staged drift deployedId) :
    Effect version obs .sync { obs with machine := .kuma staged [] deployedId }

/-! ### When a switch is offered -/

def Draft.Offers (d : Draft) (rel : Rel) : Prop := ∃ a ∈ d.actions, a.rel = rel

theorem offers_claim {rel : Rel} {state : Named} {headline : String} {more : List Action} :
    (d.claim state headline more).Offers rel ↔ d.Offers rel ∨ ∃ a ∈ more, a.rel = rel := by
  unfold Draft.Offers Draft.claim
  simp only [List.mem_append, or_and_right, exists_or]

theorem offers_claim_of_ne {rel rel' : Rel} {state : Named} {headline cmd why : String}
    (h : rel' ≠ rel) :
    (d.claim state headline [action flag rel' cmd why]).Offers rel ↔ d.Offers rel := by
  rw [offers_claim]
  simp only [List.mem_singleton, exists_eq_left]
  exact or_iff_left h

/-- The conditions that offer no switch to a machine that runs kuma. -/
def QUIET (version : String) (flag : Option (List Char)) : List (Observed → Draft → Draft) :=
  [edgeInvalid flag, edgeStaged flag, edgeNotBuilt flag, edgeEdited flag, edgeStale version flag,
    edgeConverging flag, edgeDrifted flag, edgeBuilt flag, edgeInSync flag, edgeNoConfig flag]

theorem offers_switch_edge {staged : Bool} {drift : List String} {deployedId : Option String}
    (h : obs.machine = .kuma staged drift deployedId) {edge : Observed → Draft → Draft}
    (hedge : edge ∈ QUIET version flag) (d : Draft) :
    (edge obs d).Offers .switch ↔ d.Offers .switch := by
  simp only [QUIET, List.mem_cons, List.not_mem_nil, or_false] at hedge
  rcases hedge with rfl | rfl | rfl | rfl | rfl | rfl | rfl | rfl | rfl | rfl
  · unfold edgeInvalid
    split
    · exact offers_claim_of_ne (by decide)
    · rfl
  · unfold edgeStaged
    split
    · exact offers_claim_of_ne (by decide)
    · rfl
  · unfold edgeNotBuilt
    split
    · exact offers_claim_of_ne (by decide)
    · rfl
  · unfold edgeEdited
    split
    · split_ifs
      · exact offers_claim_of_ne (by decide)
      · rfl
    · rfl
  · unfold edgeStale
    split
    · split_ifs
      · exact offers_claim_of_ne (by decide)
      · rfl
    · rfl
  · unfold edgeConverging
    split_ifs
    · rfl
    · exact offers_claim_of_ne (by decide)
  · unfold edgeDrifted
    split
    · split_ifs
      · rfl
      · rw [offers_claim]
        simp [action]
      · rw [offers_claim]
        simp [action]
    · rfl
  · unfold edgeBuilt
    rw [h]
    split_ifs <;> rfl
  · unfold edgeInSync
    split
    · split_ifs
      · rw [offers_claim]
        simp [action]
      · rfl
    · rfl
  · unfold edgeNoConfig
    split
    · exact offers_claim_of_ne (by decide)
    · simp [Draft.Offers, action, or_and_right, exists_or]
    · rfl

theorem offers_switch_ahead :
    (edgeAhead flag obs d).Offers .switch ↔ d.Offers .switch ∨ obs.isAhead = true := by
  unfold edgeAhead Observed.isAhead
  split
  · split_ifs with hne
    · rw [offers_claim]
      simp only [List.mem_singleton, exists_eq_left]
      exact or_congr_right (iff_of_true rfl (bne_iff_ne.mpr hne))
    · rw [not_not.mp hne]
      simp
  · simp

theorem offers_switch_foldl {staged : Bool} {drift : List String} {deployedId : Option String}
    (h : obs.machine = .kuma staged drift deployedId)
    {edges : List (Observed → Draft → Draft)} (hedges : ∀ edge ∈ edges, edge ∈ QUIET version flag)
    (d : Draft) :
    (edges.foldl (fun d edge => edge obs d) d).Offers .switch ↔ d.Offers .switch := by
  induction edges generalizing d with
  | nil => rfl
  | cons edge edges ih =>
    rw [List.foldl_cons, ih fun e he => hedges e (List.mem_cons_of_mem edge he)]
    exact offers_switch_edge h (hedges edge List.mem_cons_self) d

/-- Bare `kuma` offers a switch to a machine that runs kuma exactly when the image is not the one
that was deployed last. -/
theorem offers_switch_iff {staged : Bool} {drift : List String} {deployedId : Option String}
    (hlive : obs.live = false) (h : obs.machine = .kuma staged drift deployedId) :
    (∃ a ∈ (classify version flag obs).actions, a.rel = .switch) ↔ obs.isAhead = true := by
  have hactions : (classify version flag obs).actions = (drafted version flag obs).actions := by
    unfold classify
    rw [if_neg (hlive ▸ Bool.false_ne_true)]
  have hbefore : ∀ edge ∈ (QUIET version flag).take 5, edge ∈ QUIET version flag :=
    fun _ => List.mem_of_mem_take
  have hafter : ∀ edge ∈ (QUIET version flag).drop 5, edge ∈ QUIET version flag :=
    fun _ => List.mem_of_mem_drop
  have hsplit : EDGES version flag =
      (QUIET version flag).take 5 ++ edgeAhead flag :: (QUIET version flag).drop 5 := rfl
  rw [hactions]
  show (drafted version flag obs).Offers .switch ↔ _
  unfold drafted
  rw [hsplit, List.foldl_append, List.foldl_cons, offers_switch_foldl h hafter,
    offers_switch_ahead, offers_switch_foldl h hbefore]
  exact or_iff_right fun hnone => by simp [Draft.Offers] at hnone

/-- The first of the offers was followed, and time has passed. -/
def Followed (version : String) (flag : Option (List Char)) (obs obs' : Observed) : Prop :=
  ∃ a, (classify version flag obs).actions.head? = some a ∧
    ∃ after ageSecs, Effect version obs a.rel after ∧
      obs' = { after with image := after.image.map fun image => { image with ageSecs } }

/-- What stands first in what is printed, of a machine with its declaration. -/
theorem classify_next (version : String) (flag : Option (List Char)) (h : Declared obs) :
    (∀ rel ∈ obs.next version, ∃ a, (classify version flag obs).actions.head? = some a ∧
      a.rel = rel) ∧
    (obs.next version = none → (classify version flag obs).state = .inSync ∧
      ∃ a, (classify version flag obs).actions.head? = some a ∧ a.rel = .update) := by
  have hlive : ¬ obs.live = true := h.live ▸ Bool.false_ne_true
  obtain ⟨hdue, hnone⟩ := leading_next version flag h
  have hactions : (classify version flag obs).actions = (drafted version flag obs).actions := by
    unfold classify
    rw [if_neg hlive]
  rw [hactions]
  refine ⟨fun rel hrel => ?_, fun hidle => ⟨?_, (hnone hidle).head⟩⟩
  · obtain ⟨state, hleading⟩ := hdue rel hrel
    exact hleading.head
  · obtain ⟨headline, hstate⟩ := (hnone hidle).state
    have hclassified : (classify version flag obs).state =
        ((drafted version flag obs).state.getD (.inSync, "nothing pending")).1 := by
      unfold classify
      rw [if_neg hlive]
    rw [hclassified, hstate]
    rfl

/-- The commands that it may still take: a build may ask for a switch, a switch for a reboot, a
reboot for a convergence, and that may leave something to converge. -/
def Pending.rank (p : Pending) : ℕ :=
  if p.invalid then 7
  else if p.needsBuild then if p.staged then 6 else 5
  else if p.ahead then if p.staged then 5 else 4
  else if p.staged then 3
  else if p.running then 2
  else if p.drifted then 1
  else 0

theorem rank_le (p : Pending) : p.rank ≤ 7 := by
  unfold Pending.rank
  split_ifs <;> omega

theorem next_eq_none_iff (p : Pending) : p.next = none ↔ p.rank = 0 := by
  unfold Pending.next Pending.rank
  split_ifs <;> simp

theorem rank_edit : ∀ i s n a r d n' a', Pending.next ⟨i, s, n, a, r, d⟩ = some .edit →
    Pending.rank ⟨false, s, n', a', r, d⟩ < Pending.rank ⟨i, s, n, a, r, d⟩ := by decide

theorem rank_reboot : ∀ i s n a r d r' d', Pending.next ⟨i, s, n, a, r, d⟩ = some .reboot →
    Pending.rank ⟨i, false, n, a, r', d'⟩ < Pending.rank ⟨i, s, n, a, r, d⟩ := by decide

theorem rank_build : ∀ i s n a r d a', Pending.next ⟨i, s, n, a, r, d⟩ = some .build →
    Pending.rank ⟨i, s, false, a', r, d⟩ < Pending.rank ⟨i, s, n, a, r, d⟩ := by decide

theorem rank_switch : ∀ i s n a r d s', Pending.next ⟨i, s, n, a, r, d⟩ = some .switch →
    Pending.rank ⟨i, s', n, false, r, d⟩ < Pending.rank ⟨i, s, n, a, r, d⟩ := by decide

theorem rank_watch : ∀ i s n a r d d', Pending.next ⟨i, s, n, a, r, d⟩ = some .watch →
    Pending.rank ⟨i, s, n, a, false, d'⟩ < Pending.rank ⟨i, s, n, a, r, d⟩ := by decide

theorem rank_sync : ∀ i s n a r d, Pending.next ⟨i, s, n, a, r, d⟩ = some .sync →
    Pending.rank ⟨i, s, n, a, r, false⟩ < Pending.rank ⟨i, s, n, a, r, d⟩ := by decide

theorem pending_aged (ageSecs : ℕ) (obs : Observed) :
    ({ obs with image := obs.image.map fun image => { image with ageSecs } } : Observed).pending
      version = obs.pending version := by
  obtain ⟨path, config, image, machine, live, source, converging⟩ := obs
  cases image with
  | none => rfl
  | some fact =>
    cases machine with
    | kuma staged drift deployedId => cases deployedId <;> rfl
    | notBootc => rfl
    | bootcForeign => rfl

theorem Declared.aged (h : Declared obs) (ageSecs : ℕ) :
    Declared { obs with image := obs.image.map fun image => { image with ageSecs } } :=
  ⟨h.live, h.kuma, h.config⟩

section
variable {staged : Bool} {drift : List String} {deployedId : Option String} {fact : ImageFact}

theorem isAhead_of_machine {staged' : Bool} {drift' : List String} {converging : List String}
    (h : obs.machine = .kuma staged drift deployedId) :
    Observed.isAhead { obs with machine := .kuma staged' drift' deployedId, converging } =
      obs.isAhead := by
  unfold Observed.isAhead
  rw [h]
  cases obs.image <;> cases deployedId <;> rfl

theorem pending_reboot (h : obs.machine = .kuma staged drift deployedId)
    (drift' converging : List String) :
    Observed.pending version { obs with machine := .kuma false drift' deployedId, converging } =
      { obs.pending version with
        staged := false
        running := converging ≠ []
        drifted := drift' ≠ [] } := by
  show Pending.mk _ _ _ _ _ _ = Pending.mk _ _ _ _ _ _
  rw [isAhead_of_machine h]
  rfl

theorem pending_build (id : String) (ageSecs : ℕ) (obs : Observed) :
    Observed.pending version { obs with image := some ⟨id, ageSecs, false, some version⟩ } =
      { obs.pending version with
        needsBuild := false
        ahead := Observed.isAhead
          { obs with image := some ⟨id, ageSecs, false, some version⟩ } } := by
  have hbuilt : (false || some version != some version) = false := by simp
  show Pending.mk _ _ (false || some version != some version) _ _ _ = Pending.mk _ _ _ _ _ _
  rw [hbuilt]
  rfl

theorem pending_switch (h : obs.machine = .kuma staged drift deployedId)
    (himage : obs.image = some fact) (staged' : Bool) :
    Observed.pending version { obs with machine := .kuma staged' drift (some fact.id) } =
      { obs.pending version with staged := staged', ahead := false } := by
  have hahead : Observed.isAhead { obs with machine := .kuma staged' drift (some fact.id) } =
      false := by
    unfold Observed.isAhead
    rw [himage]
    exact bne_self_eq_false fact.id
  have hdrift : obs.drift = drift := by
    unfold Observed.drift
    rw [h]
  show Pending.mk _ _ _ _ _ _ = Pending.mk _ _ _ _ _ (decide (obs.drift ≠ []))
  rw [hahead, hdrift]
  rfl

theorem pending_watch (h : obs.machine = .kuma staged drift deployedId) (drift' : List String) :
    Observed.pending version
        { obs with machine := .kuma staged drift' deployedId, converging := [] } =
      { obs.pending version with running := false, drifted := drift' ≠ [] } := by
  have hstaged : obs.isStaged = staged := by
    unfold Observed.isStaged
    rw [h]
  show Pending.mk _ _ _ _ _ _ = Pending.mk _ obs.isStaged _ _ _ _
  rw [isAhead_of_machine h, hstaged]
  rfl

theorem pending_sync (h : obs.machine = .kuma staged drift deployedId) :
    Observed.pending version { obs with machine := .kuma staged [] deployedId } =
      { obs.pending version with drifted := false } := by
  have hstaged : obs.isStaged = staged := by
    unfold Observed.isStaged
    rw [h]
  have hahead : Observed.isAhead { obs with machine := .kuma staged [] deployedId } =
      obs.isAhead := isAhead_of_machine h
  show Pending.mk _ _ _ _ _ _ = Pending.mk _ obs.isStaged _ _ _ _
  rw [hahead, hstaged]
  rfl

end

/-- One command followed leaves less to do. -/
theorem followed_step (h : Declared obs) (hstep : Followed version flag obs obs') :
    Declared obs' ∧ (obs'.pending version).rank < (obs.pending version).rank := by
  obtain ⟨a, hhead, after, ageSecs, heffect, rfl⟩ := hstep
  rw [pending_aged]
  obtain ⟨hdue, hidle⟩ := classify_next version flag h
  have hrel : a.rel = (obs.next version).getD .update := by
    cases hnext : obs.next version with
    | none =>
      obtain ⟨-, a', ha', hrel⟩ := hidle hnext
      rw [hhead] at ha'
      exact Option.some.inj ha' ▸ hrel
    | some rel =>
      obtain ⟨a', ha', hrel⟩ := hdue rel hnext
      rw [hhead] at ha'
      exact Option.some.inj ha' ▸ hrel
  generalize hdue : a.rel = rel at hrel heffect
  have hnext : ∀ rel', rel = rel' → rel' ≠ .update → (obs.pending version).next = some rel' := by
    rintro rel' rfl hne
    cases hn : obs.next version with
    | none =>
      rw [hn] at hrel
      exact absurd hrel hne
    | some rel'' =>
      rw [hn] at hrel
      exact hrel ▸ hn
  obtain ⟨hlive, hkuma, hconfig⟩ := h
  cases heffect with
  | edit rpm flatpak brew editedAfter =>
    refine ⟨⟨hlive, hkuma, .inr ⟨_, _, _, rfl⟩⟩, ?_⟩
    exact rank_edit _ _ _ _ _ _ _ _ (hnext _ rfl (by decide))
  | reboot hmachine drift' converging =>
    refine ⟨⟨hlive, ⟨_, _, _, rfl⟩, hconfig⟩, ?_⟩
    rw [pending_reboot hmachine]
    exact rank_reboot _ _ _ _ _ _ _ _ (hnext _ rfl (by decide))
  | build id ageSecs =>
    refine ⟨⟨hlive, hkuma, hconfig⟩, ?_⟩
    rw [pending_build]
    exact rank_build _ _ _ _ _ _ _ (hnext _ rfl (by decide))
  | switch hmachine himage staged' =>
    refine ⟨⟨hlive, ⟨_, _, _, rfl⟩, hconfig⟩, ?_⟩
    rw [pending_switch hmachine himage]
    exact rank_switch _ _ _ _ _ _ _ (hnext _ rfl (by decide))
  | watch hmachine drift' =>
    refine ⟨⟨hlive, ⟨_, _, _, rfl⟩, hconfig⟩, ?_⟩
    rw [pending_watch hmachine]
    exact rank_watch _ _ _ _ _ _ _ (hnext _ rfl (by decide))
  | sync hmachine =>
    refine ⟨⟨hlive, ⟨_, _, _, rfl⟩, hconfig⟩, ?_⟩
    rw [pending_sync hmachine]
    exact rank_sync _ _ _ _ _ _ (hnext _ rfl (by decide))

/-- A machine that is not in sync is offered something that can be followed. -/
theorem exists_followed (h : Declared obs) (hnext : obs.next version ≠ none) :
    ∃ obs', Followed version flag obs obs' := by
  obtain ⟨hdue, -⟩ := classify_next version flag h
  obtain ⟨rel, hrel⟩ := Option.ne_none_iff_exists'.mp hnext
  obtain ⟨a, hhead, ha⟩ := hdue rel hrel
  obtain ⟨staged, drift, deployedId, hmachine⟩ := h.kuma
  have hafter : ∃ after, Effect version obs rel after := by
    unfold Observed.next Pending.next at hrel
    split_ifs at hrel with hinvalid hstaged hbuild hahead hrunning hdrifted
    all_goals obtain rfl := Option.some.inj hrel
    · exact ⟨_, .edit 0 0 0 false⟩
    · exact ⟨_, .reboot hmachine [] []⟩
    · exact ⟨_, .build "" 0⟩
    · cases himage : obs.image with
      | none =>
        have hneeds : obs.needsBuild version = true := by
          unfold Observed.needsBuild
          rw [himage]
        exact absurd hneeds hbuild
      | some fact => exact ⟨_, .switch hmachine himage true⟩
    · exact ⟨_, .watch hmachine []⟩
    · exact ⟨_, .sync hmachine⟩
  obtain ⟨after, heffect⟩ := hafter
  exact ⟨_, a, hhead, after, 0, ha ▸ heffect, rfl⟩

/-- A machine as it was installed, beside a declaration that was never built. -/
def Observed.fresh : Observed where
  configPath := "kuma.toml"
  config := .loaded 3 1 0
  image := none
  machine := .kuma false [] none
  live := false
  liveSource := none
  converging := []

end Kuma.State
