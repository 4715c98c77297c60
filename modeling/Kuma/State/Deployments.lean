import Kuma.Lib.Run
import Kuma.Lib.Script
import Kuma.State.Classify

/-! The image that a machine deploys, over builds, switches, rollbacks and boots, and the stamp
from which bare `kuma` knows of it without root. Any command may fail, and a run may die after
any of them. -/
namespace Kuma.State
open Kuma.Lib Kuma.Lib.Text

/-- An image's id, as podman prints it: one word. -/
structure ImageId where
  text : List Char
  ne_nil : text ≠ []
  word : ∀ c ∈ text, isWhiteSpace c = false

theorem ImageId.ext_text {id id' : ImageId} (h : id.text = id'.text) : id = id' := by
  cases id
  cases id'
  cases h
  rfl

instance : DecidableEq ImageId := fun id id' =>
  decidable_of_iff (id.text = id'.text) ⟨ImageId.ext_text, congrArg ImageId.text⟩

def ImageId.shown (id : ImageId) : String := String.ofList id.text

/-- bootc's slots, each by the image that it was made of. -/
structure Deployments where
  booted : ImageId
  staged : Option ImageId
  rollback : Option ImageId
  /-- a rollback awaits its boot -/
  queued : Bool
  deriving DecidableEq

namespace Deployments

/-- What the next boot brings up. -/
def next (d : Deployments) : ImageId :=
  if d.queued then d.rollback.getD d.booted else d.staged.getD d.booted

def reboot (d : Deployments) : Deployments :=
  ⟨d.next, none, if d.queued ∨ d.staged.isSome then some d.booted else d.rollback, false⟩

end Deployments

/-- What `bootc` makes of the slots, for the image that root's storage has under the tag. -/
structure Bootc where
  switch : ImageId → Deployments → Deployments
  upgrade : ImageId → Deployments → Deployments
  rollback : Deployments → Deployments

/-- `bootc switch` sets the origin, and `bootc upgrade` stages what the origin has, unless the
machine runs it. -/
def Bootc.Follows (bootc : Bootc) : Prop :=
  ∀ id d, (bootc.upgrade id (bootc.switch id d)).next = id

/-- An image of the rootless storage. -/
structure Built where
  id : ImageId
  ageSecs : ℕ
  editedAfter : Bool
  builder : Option String

def Built.fact (b : Built) : ImageFact := ⟨b.id.shown, b.ageSecs, b.editedAfter, b.builder⟩

structure Machine where
  configPath : String
  config : ConfigFact
  /-- the tag in the storage that builds, and in root's -/
  image : Option Built
  rootImage : Option ImageId
  deployments : Deployments
  /-- `DEPLOYED_ID_FILE` -/
  stamp : Option (List Char)
  drift : List String
  converging : List String

namespace Machine

/-- What `observe_machine` reads of the stamp. -/
def deployedId (m : Machine) : Option String :=
  ((m.stamp.map trim).filter (· ≠ [])).map String.ofList

/-- `observe`, of a machine that runs a kuma image. -/
def observe (m : Machine) : Observed where
  configPath := m.configPath
  config := m.config
  image := m.image.map Built.fact
  machine := .kuma m.deployments.staged.isSome m.drift m.deployedId
  live := false
  liveSource := none
  converging := m.converging

end Machine

/-- The commands that may fail. -/
inductive Command
  | sync | switch | upgrade | stamp | status | rollback | unstamp | heal
  deriving DecidableEq

/-- The line that the stamp holds. -/
def stampText (id : ImageId) : List Char := id.text ++ ['\n']

section
variable (bootc : Bootc) (works : Command → Bool)

def command (c : Command) (act : Machine → Machine) : Script Machine :=
  .guarded (works c) (fun _ => true) act

/-- bootc is made to follow the tag, and the stamp, where it can be written, says which image
that was. -/
def staging (image : Built) : Script Machine :=
  .block [
    command works .switch fun m =>
      { m with deployments := bootc.switch image.id m.deployments },
    command works .upgrade fun m =>
      { m with deployments := bootc.upgrade image.id m.deployments },
    .tolerate (command works .stamp fun m => { m with stamp := some (stampText image.id) }),
    command works .status id]

/-- `stage`: root's storage is given the image first, where it has another. -/
def stage : Script Machine :=
  .look fun m =>
    match m.image with
    | none => .fail
    | some image =>
      (if m.rootImage = some image.id then .done
        else command works .sync fun m => { m with rootImage := some image.id }).seq
          (staging bootc works image)

/-- `kuma switch --yes` gives up when nothing was staged. -/
def switch : Script Machine :=
  (stage bootc works).seq (.look fun m =>
    if m.deployments.staged.isSome then .done else .fail)

/-- `rollback` with `--yes`. -/
def rollback : Script Machine :=
  .block [
    command works .status id,
    .look fun m => if m.deployments.rollback.isSome then .done else .fail,
    command works .rollback fun m => { m with deployments := bootc.rollback m.deployments },
    .tolerate (command works .unstamp fun m => { m with stamp := none })]

/-- `deployment_current`: a slot has what root's storage has under the tag. -/
def deploymentCurrent (m : Machine) : Bool :=
  m.rootImage.isSome && (m.rootImage == some m.deployments.booted ||
    m.rootImage == m.deployments.staged)

/-- What doctor makes of the stamp, where the tag is in the storage that builds. -/
def heal : Script Machine :=
  .look fun m =>
    match m.image, m.rootImage with
    | some _, some root =>
      if deploymentCurrent m then
        if m.stamp.map trim = some root.text then .done
        else .tolerate (command works .heal fun m => { m with stamp := some (stampText root) })
      else if m.stamp.isSome then .tolerate (command works .heal fun m => { m with stamp := none })
      else .done
    | some _, none =>
      if m.stamp.isSome then .tolerate (command works .heal fun m => { m with stamp := none })
      else .done
    | none, _ => .done

end

/-- One thing that happens to a machine. -/
inductive Event
  /-- podman's storage, or the declaration, is not what it was -/
  | build (image : Option Built)
  | edit (config : ConfigFact)
  /-- `kuma switch --yes`, or the end of `kuma update` -/
  | stage (works : Command → Bool) (died : Option ℕ)
  | rollback (works : Command → Bool) (died : Option ℕ)
  | doctor (works : Command → Bool)
  | reboot (drift converging : List String)
  /-- bootc and root's podman, by hand -/
  | raw (deployments : Deployments) (rootImage : Option ImageId)

def Event.step (bootc : Bootc) (m : Machine) : Event → Machine
  | .build image => { m with image }
  | .edit config => { m with config }
  | .stage works died => (State.stage bootc works).after died m
  | .rollback works died => (State.rollback bootc works).after died m
  | .doctor works => (heal works).final m
  | .reboot drift converging =>
    { m with deployments := m.deployments.reboot, drift, converging }
  | .raw deployments rootImage => { m with deployments, rootImage }

/-- The stamp, where there is one, names the image of the next boot. -/
def Truthful (m : Machine) : Prop := ∀ text ∈ m.stamp, trim text = m.deployments.next.text

/-- A stage or a rollback that bootc has followed also says so, and a doctor does not take what
is booted for what boots next. -/
def Calm (m : Machine) : Event → Prop
  | .build _ | .edit _ | .reboot .. => True
  | .stage works died =>
    works .switch = true → died = none ∧ works .upgrade = true ∧ works .stamp = true
  | .rollback works died => works .rollback = true → died = none ∧ works .unstamp = true
  | .doctor _ => deploymentCurrent m = true → m.rootImage = some m.deployments.next
  | .raw .. => False

/-- An event after which the stamp is right, whatever it was. -/
def Heals (m : Machine) : Event → Prop
  | .stage works died => died = none ∧ m.image.isSome = true ∧
      ∀ c ∈ [Command.sync, .switch, .upgrade, .stamp], works c = true
  | .rollback works died => died = none ∧ m.deployments.rollback.isSome = true ∧
      ∀ c ∈ [Command.status, .rollback, .unstamp], works c = true
  | .doctor works => m.image.isSome = true ∧ works .heal = true ∧
      (deploymentCurrent m = true → m.rootImage = some m.deployments.next)
  | _ => False

variable {bootc : Bootc} {works : Command → Bool} {died : Option ℕ} {m m' : Machine} {e : Event}
  {C Q F : Machine → Prop} {c : Command} {act : Machine → Machine}

/-! ### The stamp after one event -/

theorem trim_stampText (id : ImageId) : trim (stampText id) = id.text := by
  have hdrop : (id.text ++ ['\n']).dropWhile isWhiteSpace = id.text ++ ['\n'] := by
    cases htext : id.text with
    | nil => exact absurd htext id.ne_nil
    | cons c text =>
      have hc : isWhiteSpace c = false := id.word c (by rw [htext]; exact List.mem_cons_self)
      simp [hc]
  have htrim := trim_of_not_whiteSpace id.word
  have hkept : id.text.dropWhile isWhiteSpace = id.text := by
    rw [List.dropWhile_eq_self_iff]
    intro hlength
    rw [id.word _ (List.getElem_mem hlength)]
    exact Bool.false_ne_true
  rw [trim_eq, hkept] at htrim
  rw [trim_eq, stampText, hdrop, trimEnd, List.rdropWhile_concat_pos _ _ _ (by decide)]
  exact htrim

theorem Truthful.of_eq (h : Truthful m) (hdeployments : m'.deployments = m.deployments)
    (hstamp : m'.stamp = m.stamp) : Truthful m' := by
  unfold Truthful
  rw [hdeployments, hstamp]
  exact h

theorem truthful_of_none (h : m.stamp = none) : Truthful m := by
  intro text htext
  rw [h] at htext
  cases htext

theorem truthful_of_stampText (h : m.stamp = some (stampText m.deployments.next)) : Truthful m := by
  intro text htext
  rw [h] at htext
  obtain rfl := Option.mem_some_iff.mp htext
  exact trim_stampText _

theorem wp_works (h : works c = true) (hQ : C (act m) ∧ Q (act m)) :
    (command works c act).wp C Q F m := Script.wp_guarded_of_able h rfl hQ

theorem wp_fails (h : works c = false) (hF : C m ∧ F m) : (command works c act).wp C Q F m :=
  Script.wp_guarded hF fun hworks => nomatch h.symm.trans hworks

theorem wp_either (hF : C m ∧ F m) (hQ : C (act m) ∧ Q (act m)) :
    (command works c act).wp C Q F m := Script.wp_guarded hF fun _ _ => hQ

theorem wp_stage_of_none (himage : m.image = none) (hF : C m ∧ F m) :
    (stage bootc works).wp C Q F m := by
  show Script.wp C (match m.image with | none => .fail | some image => _ : Script Machine) _ _ _
  rw [himage]
  exact Script.wp_fail hF.1 hF.2

theorem wp_stage_of_some {image : Built} (himage : m.image = some image)
    (hF : works .sync = false → C m ∧ F m) (hC : ∀ root, C { m with rootImage := root })
    (hrest : ∀ root, (staging bootc works image).wp C Q F { m with rootImage := root }) :
    (stage bootc works).wp C Q F m := by
  show Script.wp C (match m.image with | none => .fail | some image => _ : Script Machine) _ _ _
  rw [himage]
  apply Script.wp_seq
  split_ifs
  · exact hrest m.rootImage
  · cases hsync : works .sync with
    | true => exact wp_works hsync ⟨hC _, hrest (some image.id)⟩
    | false => exact wp_fails hsync (hF hsync)

/-- bootc is not asked, or it does not follow: nothing that the stamp speaks of has changed. -/
theorem wp_stage_of_fails (h : works .switch = false) :
    (stage bootc works).wp
      (fun m' => m'.deployments = m.deployments ∧ m'.stamp = m.stamp)
      (fun m' => m'.deployments = m.deployments ∧ m'.stamp = m.stamp)
      (fun m' => m'.deployments = m.deployments ∧ m'.stamp = m.stamp) m := by
  cases himage : m.image with
  | none => exact wp_stage_of_none himage ⟨⟨rfl, rfl⟩, rfl, rfl⟩
  | some image =>
    refine wp_stage_of_some himage (fun _ => ⟨⟨rfl, rfl⟩, rfl, rfl⟩) (fun _ => ⟨rfl, rfl⟩) ?_
    exact fun root => Script.wp_block_cons (wp_fails h ⟨⟨rfl, rfl⟩, rfl, rfl⟩)

/-- What bootc has followed, the stamp says. -/
theorem wp_stage (hb : bootc.Follows) (hupgrade : works .upgrade = true)
    (hstamp : works .stamp = true) (hswitch : works .switch = true)
    (hstart : Truthful m ∨ m.image.isSome = true ∧ works .sync = true) :
    (stage bootc works).wp (fun _ => True) Truthful Truthful m := by
  cases himage : m.image with
  | none =>
    refine wp_stage_of_none himage ⟨trivial, hstart.resolve_right ?_⟩
    rintro ⟨hsome, -⟩
    rw [himage] at hsome
    cases hsome
  | some image =>
    refine wp_stage_of_some himage (fun hsync => ⟨trivial, hstart.resolve_right ?_⟩)
      (fun _ => trivial) fun root => ?_
    · rintro ⟨-, hworks⟩
      exact nomatch hsync.symm.trans hworks
    · refine Script.wp_block_cons (wp_works hswitch ⟨trivial, ?_⟩)
      refine Script.wp_block_cons (wp_works hupgrade ⟨trivial, ?_⟩)
      refine Script.wp_block_cons (Script.wp_tolerate (wp_works hstamp ⟨trivial, ?_⟩))
      have htold : Truthful { m with
          rootImage := root
          deployments := bootc.upgrade image.id (bootc.switch image.id m.deployments)
          stamp := some (stampText image.id) } := by
        refine truthful_of_stampText ?_
        rw [hb image.id m.deployments]
      exact Script.wp_block_cons (wp_either ⟨trivial, htold⟩ ⟨trivial, htold⟩)

theorem wp_rollback_of_fails (h : works .rollback = false) :
    (rollback bootc works).wp (· = m) (· = m) (· = m) m := by
  refine Script.wp_block_cons (wp_either ⟨rfl, rfl⟩ ⟨rfl, Script.wp_block_cons ?_⟩)
  change Script.wp _ (if m.deployments.rollback.isSome then .done else .fail) _ _ _
  split_ifs
  · exact Script.wp_block_cons (wp_fails h ⟨rfl, rfl⟩)
  · exact Script.wp_fail rfl rfl

/-- What bootc has rolled back, the stamp no longer speaks of. -/
theorem wp_rollback (hrollback : works .rollback = true) (hunstamp : works .unstamp = true)
    (hstart : Truthful m ∨ m.deployments.rollback.isSome = true ∧ works .status = true) :
    (rollback bootc works).wp (fun _ => True) Truthful Truthful m := by
  have hrest : (Script.block [
      .look fun m => if m.deployments.rollback.isSome then .done else .fail,
      command works .rollback fun m => { m with deployments := bootc.rollback m.deployments },
      .tolerate (command works .unstamp fun m => { m with stamp := none })]).wp
        (fun _ => True) Truthful Truthful m := by
    apply Script.wp_block_cons
    change Script.wp _ (if m.deployments.rollback.isSome then .done else .fail) _ _ _
    split_ifs with hslot
    · refine Script.wp_block_cons (wp_works hrollback ⟨trivial, ?_⟩)
      refine Script.wp_block_cons (Script.wp_tolerate (wp_works hunstamp ⟨trivial, ?_⟩))
      exact truthful_of_none rfl
    · exact Script.wp_fail trivial (hstart.resolve_right fun h => hslot h.1)
  apply Script.wp_block_cons
  cases hstatus : works .status with
  | true => exact wp_works hstatus ⟨trivial, hrest⟩
  | false =>
    refine wp_fails hstatus ⟨trivial, hstart.resolve_right ?_⟩
    rintro ⟨-, hworks⟩
    exact nomatch hstatus.symm.trans hworks

/-- Doctor writes what root's storage has under the tag, where a slot has it too, and else takes
the stamp away. -/
theorem wp_heal (hcalm : deploymentCurrent m = true → m.rootImage = some m.deployments.next)
    (hstart : Truthful m ∨ m.image.isSome = true ∧ works .heal = true) :
    (heal works).wp (fun _ => True) Truthful Truthful m := by
  have hwrite : ∀ stamp, Truthful { m with stamp } →
      (Script.tolerate (command works .heal fun m => { m with stamp })).wp
        (fun _ => True) Truthful Truthful m := by
    intro stamp htold
    cases hworks : works .heal with
    | true => exact Script.wp_tolerate (wp_works hworks ⟨trivial, htold⟩)
    | false =>
      refine Script.wp_tolerate (wp_fails hworks ⟨trivial, hstart.resolve_right ?_⟩)
      rintro ⟨-, hheal⟩
      exact nomatch hworks.symm.trans hheal
  have hdrop : (if m.stamp.isSome then
      Script.tolerate (command works .heal fun m => { m with stamp := none }) else .done).wp
        (fun _ => True) Truthful Truthful m := by
    split_ifs with hstamp
    · exact hwrite none (truthful_of_none rfl)
    · exact truthful_of_none (Option.not_isSome_iff_eq_none.mp hstamp)
  unfold heal
  show Script.wp _ (match m.image, m.rootImage with
    | some _, some root => _
    | some _, none => _
    | none, _ => .done : Script Machine) _ _ _
  cases himage : m.image with
  | none =>
    refine hstart.resolve_right ?_
    rintro ⟨hsome, -⟩
    rw [himage] at hsome
    cases hsome
  | some image =>
    cases hroot : m.rootImage with
    | none => exact hdrop
    | some root =>
      show Script.wp _ (if deploymentCurrent m then _ else _ : Script Machine) _ _ _
      split_ifs with hcurrent hsame
      · have hnext : root = m.deployments.next := by
          have hnext := hcalm hcurrent
          rw [hroot] at hnext
          exact Option.some.inj hnext
        intro text htext
        have hstamp : m.stamp = some text := htext
        rw [hstamp, Option.map_some] at hsame
        rw [← hnext]
        exact Option.some.inj hsame
      · have hnext := hcalm hcurrent
        rw [hroot] at hnext
        refine hwrite _ (truthful_of_stampText ?_)
        rw [Option.some.inj hnext]
      · exact hwrite none (truthful_of_none rfl)
      · exact truthful_of_none (Option.not_isSome_iff_eq_none.mp ‹_›)

/-! ### The stamp over a history -/

theorem truthful_stage (hb : bootc.Follows) (hcalm : Calm m (.stage works died))
    (hstart : Truthful m ∨ Heals m (.stage works died)) :
    Truthful (Event.step bootc m (.stage works died)) := by
  cases hswitch : works .switch with
  | false =>
    have htruthful : Truthful m := by
      refine hstart.resolve_right ?_
      rintro ⟨-, -, hworks⟩
      exact nomatch hswitch.symm.trans (hworks .switch (by decide))
    have hwp : (stage bootc works).wp _ _ _ m := wp_stage_of_fails hswitch
    have hkept := Script.after_of_wp hwp ⟨rfl, rfl⟩ died
    exact htruthful.of_eq hkept.1 hkept.2
  | true =>
    obtain ⟨rfl, hupgrade, hstamp⟩ := hcalm hswitch
    refine Script.final_of_wp_wp (wp_stage hb hupgrade hstamp hswitch (hstart.imp_right ?_))
    rintro ⟨-, hsome, hworks⟩
    exact ⟨hsome, hworks .sync (by decide)⟩

theorem truthful_rollback (hcalm : Calm m (.rollback works died))
    (hstart : Truthful m ∨ Heals m (.rollback works died)) :
    Truthful (Event.step bootc m (.rollback works died)) := by
  cases hrollback : works .rollback with
  | false =>
    have htruthful : Truthful m := by
      refine hstart.resolve_right ?_
      rintro ⟨-, -, hworks⟩
      exact nomatch hrollback.symm.trans (hworks .rollback (by decide))
    have hkept : Event.step bootc m (.rollback works died) = m :=
      Script.after_of_wp (wp_rollback_of_fails (m := m) hrollback) rfl died
    exact hkept.symm ▸ htruthful
  | true =>
    obtain ⟨rfl, hunstamp⟩ := hcalm hrollback
    refine Script.final_of_wp_wp (wp_rollback hrollback hunstamp (hstart.imp_right ?_))
    rintro ⟨-, hslot, hworks⟩
    exact ⟨hslot, hworks .status (by decide)⟩

/-- A calm event keeps the stamp right, and one that heals makes it right. -/
theorem truthful_step (hb : bootc.Follows) (hcalm : Calm m e) (hstart : Truthful m ∨ Heals m e) :
    Truthful (e.step bootc m) := by
  cases e with
  | build image => exact (hstart.resolve_right id).of_eq rfl rfl
  | edit config => exact (hstart.resolve_right id).of_eq rfl rfl
  | stage works died => exact truthful_stage hb hcalm hstart
  | rollback works died => exact truthful_rollback hcalm hstart
  | doctor works =>
    refine Script.final_of_wp_wp (wp_heal hcalm (hstart.imp_right ?_))
    exact fun hheals => ⟨hheals.1, hheals.2.1⟩
  | reboot drift converging =>
    have hkept := hstart.resolve_right id
    intro text htext
    exact hkept text htext
  | raw deployments rootImage => exact hcalm.elim

theorem truthful_visits (hb : bootc.Follows) {events : List Event}
    (hcalm : Along (Event.step bootc) Calm m events)
    (hstart : Truthful m ∨ ∃ x ∈ visits (Event.step bootc) m events, Heals x.1 x.2) :
    Truthful (run (Event.step bootc) m events) := by
  induction events generalizing m with
  | nil =>
    refine hstart.resolve_right ?_
    rintro ⟨x, hx, -⟩
    cases hx
  | cons e events ih =>
    obtain ⟨he, hrest⟩ := along_cons.mp hcalm
    refine ih hrest ?_
    rcases hstart with htruthful | ⟨x, hx, hheals⟩
    · exact .inl (truthful_step hb he (.inl htruthful))
    · rcases List.mem_cons.mp hx with rfl | hx
      · exact .inl (truthful_step hb he (.inr hheals))
      · exact .inr ⟨x, hx, hheals⟩

theorem shown_injective {id id' : ImageId} (h : id.shown = id'.shown) : id = id' :=
  ImageId.ext_text (String.ofList_injective h)

/-- What bare `kuma` makes of a stamp that is right: it says that the build is ahead exactly when
the next boot does not bring it up. -/
theorem isAhead_iff {image : Built} {text : List Char} (h : Truthful m)
    (himage : m.image = some image) (hstamp : m.stamp = some text) :
    m.observe.isAhead = true ↔ image.id ≠ m.deployments.next := by
  have htext := h text hstamp
  have hdeployed : m.deployedId = some m.deployments.next.shown := by
    unfold Machine.deployedId
    rw [hstamp, Option.map_some, htext]
    have hne := m.deployments.next.ne_nil
    simp [Option.filter, hne, ImageId.shown]
  unfold Observed.isAhead Machine.observe
  rw [himage, hdeployed]
  show (m.deployments.next.shown != image.id.shown) = true ↔ _
  rw [bne_iff_ne]
  constructor
  · intro hne heq
    exact hne (heq ▸ rfl)
  · intro hne heq
    exact hne (shown_injective heq).symm

theorem not_isAhead_of_none (h : m.stamp = none) : m.observe.isAhead = false := by
  unfold Observed.isAhead Machine.observe Machine.deployedId
  rw [h]
  cases m.image <;> rfl

/-! ### What bare `kuma` makes of it -/

/-- A bootc with one image that it runs: it stages what the origin has, unless that is it. -/
def Bootc.slotted : Bootc where
  switch _ d := d
  upgrade id d := { d with staged := if id = d.booted then none else some id, queued := false }
  rollback d := { d with staged := none, queued := !d.queued }

theorem follows_slotted : Bootc.slotted.Follows := by
  intro id d
  by_cases hbooted : id = d.booted
  · simp [Bootc.slotted, Deployments.next, hbooted]
  · simp [Bootc.slotted, Deployments.next, hbooted]

def Built.second : Built :=
  ⟨⟨['b'], by decide, List.all_iff_forall_prop.mp (by decide)⟩, 0, false, some "45.0.0"⟩

/-- A machine that runs one image, beside the build of a second. -/
def Machine.beside : Machine where
  configPath := "kuma.toml"
  config := .loaded 3 1 0
  image := some Built.second
  rootImage := none
  deployments := ⟨⟨['a'], by decide, List.all_iff_forall_prop.mp (by decide)⟩, none, none, false⟩
  stamp := none
  drift := []
  converging := []

/-- Between a rollback and its boot a doctor takes what runs for what boots next, and the stamp
it writes hides the build that the boot then leaves. -/
example :
    let stale := run (Event.step .slotted) .beside
      [.stage (fun _ => true) none, .reboot [] [], .rollback (fun _ => true) none,
        .doctor fun _ => true, .reboot [] []]
    stale.image.map Built.id ≠ some stale.deployments.next ∧ stale.observe.isAhead = false := by
  decide

/-! ### The effects that following relies on -/

theorem effect_build (m : Machine) (id : ImageId) (ageSecs : ℕ) (version : String) :
    Effect version m.observe .build
      (Event.step bootc m (.build (some ⟨id, ageSecs, false, some version⟩))).observe :=
  .build id.shown ageSecs

theorem effect_reboot (m : Machine) (drift converging : List String) (version : String) :
    Effect version m.observe .reboot (Event.step bootc m (.reboot drift converging)).observe :=
  .reboot rfl drift converging

/-- What a stage that has gone through leaves. -/
theorem wp_stage_done (hstamp : works .stamp = true) :
    (stage bootc works).wp (fun _ => True)
      (fun m' => ∃ image root deployments, m.image = some image ∧
        m' = { m with rootImage := root, deployments, stamp := some (stampText image.id) })
      (fun _ => True) m := by
  rcases Option.eq_none_or_eq_some m.image with himage | ⟨image, himage⟩
  · exact wp_stage_of_none himage ⟨trivial, trivial⟩
  · refine wp_stage_of_some himage (fun _ => ⟨trivial, trivial⟩) (fun _ => trivial) fun root => ?_
    refine Script.wp_block_cons (wp_either ⟨trivial, trivial⟩ ⟨trivial, ?_⟩)
    refine Script.wp_block_cons (wp_either ⟨trivial, trivial⟩ ⟨trivial, ?_⟩)
    refine Script.wp_block_cons (Script.wp_tolerate (wp_works hstamp ⟨trivial, ?_⟩))
    refine Script.wp_block_cons (wp_either ⟨trivial, trivial⟩ ⟨trivial, ?_⟩)
    exact ⟨image, root, bootc.upgrade image.id (bootc.switch image.id m.deployments), himage, rfl⟩

/-- That something is staged is asked of a machine that has all of it already. -/
theorem wp_switch_done (hstamp : works .stamp = true) :
    (switch bootc works).wp (fun _ => True)
      (fun m' => ∃ image root deployments, m.image = some image ∧
        m' = { m with rootImage := root, deployments, stamp := some (stampText image.id) })
      (fun _ => True) m := by
  refine Script.wp_seq (Script.wp_mono (fun m' hdone => ?_) (fun _ => id) (wp_stage_done hstamp))
  change Script.wp _ (if m'.deployments.staged.isSome then .done else .fail) _ _ _
  split_ifs
  · exact hdone
  · exact Script.wp_fail trivial trivial

theorem effect_switch (hstamp : works .stamp = true)
    (hok : ((switch bootc works).exec m).2 = true) (version : String) :
    Effect version m.observe .switch ((switch bootc works).final m).observe := by
  obtain ⟨image, root, deployments, himage, hfinal⟩ :=
    (Script.wp_sound (wp_switch_done hstamp)).2.1 hok
  have hne := image.id.ne_nil
  have hid : Machine.deployedId { m with
      rootImage := root, deployments, stamp := some (stampText image.id) } =
        some image.id.shown := by
    simp [Machine.deployedId, trim_stampText, Option.filter, hne, ImageId.shown]
  have hfact : m.observe.image = some image.fact := congrArg (Option.map Built.fact) himage
  have hafter : Machine.observe { m with
      rootImage := root, deployments, stamp := some (stampText image.id) } =
        { m.observe with
          machine := .kuma deployments.staged.isSome m.drift (some image.fact.id) } := by
    rw [Machine.observe, hid]
    rfl
  rw [hfinal, hafter]
  exact .switch rfl hfact deployments.staged.isSome

end Kuma.State
