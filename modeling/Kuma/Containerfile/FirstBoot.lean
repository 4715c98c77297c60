import Kuma.Install.Account
import Kuma.Lib.Run
import Kuma.Lib.Script
import Mathlib.Data.Finset.Lattice.Basic

/-! The units that make an installed machine its owner's: `kuma-home-subvol`, `kuma-user-sync` and
`kuma-restore`, in the order of every boot. Any of their commands may fail, and a boot may die
after any of them. -/
namespace Kuma.Containerfile
open Kuma.Lib Kuma.Lib.Shell Kuma.Install

abbrev Name := List Char

/-- `/var/home`, and what it holds. -/
inductive Home
  | missing
  | plain (held : Finset Name)
  | subvolume (held : Finset Name)
  deriving DecidableEq

namespace Home

def held : Home → Finset Name
  | missing => ∅
  | plain held => held
  | subvolume held => held

/-- What is put there is put into a directory, made where there is none. -/
def put (names : Finset Name) : Home → Home
  | missing => plain names
  | plain held => plain (held ∪ names)
  | subvolume held => subvolume (held ∪ names)

/-- Somebody's files changed, and not the directory itself. -/
def withHeld (names : Finset Name) : Home → Home
  | missing => missing
  | plain _ => plain names
  | subvolume _ => subvolume names

end Home

/-- A user; without a password there is no way in. -/
structure Login where
  password : Option (List Char)
  shell : Option (List Char)
  groups : Finset Name

structure Host where
  home : Home
  accounts : Name → Option Login
  /-- `/etc/hostname` -/
  hostname : Option (List Char)
  /-- the files in `/etc/kuma/keys` -/
  keys : Name → Option (List Char)
  /-- `/var/lib/kuma/restore-request` -/
  request : Bool

inductive Step
  | tmpfiles | rmdir | create | chmod | chcon
  | hostname | mkdirKeys | writeKey | useradd | chpasswd | chsh
  | installCache | removeRequest
  deriving DecidableEq

/-- What the units of one boot meet. -/
structure Boot where
  btrfs : Bool
  selinux : Bool
  /-- `/var/lib/kuma/hostname` -/
  wanted : Option (List Char)
  /-- what sourcing the two files leaves -/
  vars : Variables
  works : Step → Bool
  joins : Name → Bool
  /-- whether `restore.env` can be read, and says where the repository is -/
  secret : Bool
  repository : Bool
  /-- what the latest snapshot holds of the home, and how much of it restic got to -/
  snapshot : Finset Name
  reached : Finset Name
  restic : Bool
  partly : reached ⊆ snapshot

/-- A machine that an install has just written, with a request. -/
def Host.fresh : Host where
  home := .missing
  accounts _ := none
  hostname := none
  keys _ := none
  request := true

/-- A boot that nothing gets in the way of, for a user of this name. -/
def Boot.smooth (user : Name) : Boot where
  btrfs := true
  selinux := false
  wanted := some "kuma".toList
  vars := {
    value name := if name = KUMA_USER then some user else none
    exported _ := false
    named name hsome := by
      by_cases hname : name = KUMA_USER
      · rw [hname]
        decide
      · simp [hname] at hsome }
  works _ := true
  joins _ := true
  secret := true
  repository := true
  snapshot := {user}
  reached := ∅
  restic := true
  partly := Finset.empty_subset _

section
variable (b : Boot)

def Boot.step (c : Step) (able : Host → Bool) (act : Host → Host) : Script Host :=
  .guarded (b.works c) able act

def Boot.plain (c : Step) : Script Host := b.step c (fun _ => true) id

/-- `"${NAME:-}"` -/
def Boot.value (name : List Char) : List Char := (b.vars.value name).getD []

/-! ### The three scripts -/

/-- What `rpm-ostree-0-integration.conf` has `systemd-tmpfiles` do. -/
def tmpfiles : Script Host :=
  b.step .tmpfiles (·.home == .missing) fun h => { h with home := .plain ∅ }

/-- `HOME_SUBVOL_SCRIPT` -/
def homeSubvol : Script Host :=
  .look fun h =>
    match h.home with
    | .missing => .done
    | .subvolume _ => .done
    | .plain held =>
      if !b.btrfs then .done
      else if held ≠ ∅ then .done
      else .block [
        b.step .rmdir (·.home == .plain ∅) fun h => { h with home := .missing },
        b.step .create (·.home == .missing) fun h => { h with home := .subvolume ∅ },
        b.plain .chmod,
        if b.selinux then b.plain .chcon else .done]

/-- The words of `${KUMA_GROUPS:-}`. -/
def Boot.groups : List Name :=
  ((b.value KUMA_GROUPS).splitOnP fun c => c == ' ' || c == '\t' || c == '\n').filter (· ≠ [])

def syncHostname : Script Host :=
  .look fun h =>
    let want := b.wanted.getD []
    if want ≠ [] ∧ h.hostname ≠ some want then
      b.step .hostname (fun _ => true) fun h => { h with hostname := some want }
    else .done

def syncKey (user : Name) : Script Host :=
  if b.value KUMA_SSH_KEY ≠ [] then
    .block [
      b.plain .mkdirKeys,
      b.step .writeKey (fun _ => true) fun h =>
        { h with keys := Function.update h.keys user (some (b.value KUMA_SSH_KEY)) }]
  else .done

/-- The login shell, and none where none is declared. -/
def Boot.shell : Option (List Char) :=
  if b.value KUMA_SHELL = [] then none else some (b.value KUMA_SHELL)

def setLogin (user : Name) (f : Login → Login) (h : Host) : Host :=
  { h with accounts := Function.update h.accounts user ((h.accounts user).map f) }

/-- `useradd` makes the home directory too. -/
def useradd (user : Name) : Script Host :=
  b.step .useradd (fun h => (h.accounts user).isNone) fun h =>
    { h with
      accounts := Function.update h.accounts user (some ⟨none, b.shell, ∅⟩)
      home := h.home.put {user} }

/-- The password is set where the account is made, and nowhere else. -/
def syncAccount (user : Name) : Script Host :=
  .look fun h =>
    if (h.accounts user).isNone then
      (useradd b user).seq
        (if b.value KUMA_PASSWORD_HASH = [] then .done
        else b.step .chpasswd (fun h => (h.accounts user).isSome)
          (setLogin user ({ · with password := some (b.value KUMA_PASSWORD_HASH) })))
    else .done

def syncShell (user : Name) : Script Host :=
  if b.shell.isSome then
    b.step .chsh (fun h => (h.accounts user).isSome) (setLogin user ({ · with shell := b.shell }))
  else .done

def syncGroup (user group : Name) : Script Host :=
  .guarded (b.joins group) (fun h => (h.accounts user).isSome)
    (setLogin user fun e => { e with groups := insert group e.groups })

/-- `USER_SYNC_SCRIPT`, after the two files are sourced. -/
def userSyncScript : Script Host :=
  (syncHostname b).seq
    (if b.value KUMA_USER = [] then .done
    else .block [
      syncKey b (b.value KUMA_USER),
      syncAccount b (b.value KUMA_USER),
      syncShell b (b.value KUMA_USER),
      .each (syncGroup b (b.value KUMA_USER)) b.groups])

/-- `rm -f "$request"` -/
def removeRequest : Script Host :=
  b.step .removeRequest (fun _ => true) fun h => { h with request := false }

/-- `restic restore latest`: everything, or what it got to. -/
def resticRestore : Script Host :=
  .command fun h =>
    if b.restic then ({ h with home := h.home.put b.snapshot }, true)
    else ({ h with home := h.home.put b.reached }, false)

/-- `RESTORE_SCRIPT` -/
def restore : Script Host :=
  .look fun h =>
    if !h.request then .done
    else if !b.secret then (removeRequest b).seq .fail
    else if !b.repository then (removeRequest b).seq .fail
    else .block [b.plain .installCache, resticRestore b, removeRequest b]

/-- One boot: a unit that fails keeps no other from starting. -/
def units : Script Host :=
  .block [
    .tolerate (tmpfiles b),
    .tolerate (homeSubvol b),
    .tolerate (userSyncScript b),
    .tolerate (restore b)]

end

/-! ### What no unit takes away -/

namespace Home

def isSubvolume : Home → Bool
  | subvolume _ => true
  | _ => false

/-- Nothing is lost, and a directory becomes a subvolume only while it is empty. -/
structure Extends (a b : Home) : Prop where
  held : a.held ⊆ b.held
  kind : a.isSubvolume = true ∨ a.held ≠ ∅ → b.isSubvolume = a.isSubvolume

variable {a b c : Home} {names : Finset Name}

theorem Extends.refl (a : Home) : Extends a a := ⟨subset_refl _, fun _ => rfl⟩

theorem Extends.trans (hab : Extends a b) (hbc : Extends b c) : Extends a c := by
  refine ⟨hab.held.trans hbc.held, fun h => ?_⟩
  have hb := hab.kind h
  have hsettled : b.isSubvolume = true ∨ b.held ≠ ∅ :=
    h.imp (fun ha => hb.trans ha) fun ha hempty => ha (Finset.subset_empty.mp (hempty ▸ hab.held))
  rw [hbc.kind hsettled, hb]

theorem extends_put (a : Home) (names : Finset Name) : Extends a (a.put names) := by
  cases a with
  | missing => exact ⟨Finset.empty_subset _, fun h => by simp [isSubvolume, held] at h⟩
  | plain held => exact ⟨Finset.subset_union_left, fun _ => rfl⟩
  | subvolume held => exact ⟨Finset.subset_union_left, fun _ => rfl⟩

theorem subset_held_put (a : Home) (names : Finset Name) : names ⊆ (a.put names).held := by
  cases a with
  | missing => exact subset_refl names
  | plain held => exact Finset.subset_union_right
  | subvolume held => exact Finset.subset_union_right

@[simp] theorem isSubvolume_withHeld (a : Home) (names : Finset Name) :
    (a.withHeld names).isSubvolume = a.isSubvolume := by
  cases a <;> rfl

theorem held_withHeld (h : a ≠ missing) : (a.withHeld names).held = names := by
  cases a with
  | missing => exact absurd rfl h
  | plain held => rfl
  | subvolume held => rfl

/-- An empty directory may be replaced by anything. -/
theorem extends_of_empty (h : a.held = ∅) (hplain : a.isSubvolume = false) : Extends a b := by
  refine ⟨h ▸ Finset.empty_subset _, fun hsettled => ?_⟩
  rcases hsettled with hsub | hheld
  · exact nomatch hplain.symm.trans hsub
  · exact absurd h hheld

end Home

/-- What may become of an account: its password stays, and its groups grow. -/
def Login.Keeps (e e' : Login) : Prop := e'.password = e.password ∧ e.groups ⊆ e'.groups

/-- What a unit may make of a host: homes and accounts are extended, never cut back. -/
structure Extends (h h' : Host) : Prop where
  home : Home.Extends h.home h'.home
  accounts : ∀ n e, h.accounts n = some e → ∃ e', h'.accounts n = some e' ∧ e.Keeps e'

/-- What a unit may make of it that is not to answer the request. -/
structure Adds (h h' : Host) : Prop extends Extends h h' where
  request : h'.request = h.request

variable {b : Boot} {h h' h'' s : Host} {user : Name}

theorem Extends.refl (h : Host) : Extends h h :=
  ⟨.refl _, fun _ e he => ⟨e, he, rfl, subset_refl _⟩⟩

theorem Extends.trans (hab : Extends h h') (hbc : Extends h' h'') : Extends h h'' := by
  refine ⟨hab.home.trans hbc.home, fun n e he => ?_⟩
  obtain ⟨e', he', hpassword, hgroups⟩ := hab.accounts n e he
  obtain ⟨e'', he'', hpassword', hgroups'⟩ := hbc.accounts n e' he'
  exact ⟨e'', he'', hpassword'.trans hpassword, hgroups.trans hgroups'⟩

theorem Adds.refl (h : Host) : Adds h h := ⟨.refl h, rfl⟩

theorem Adds.trans (hab : Adds h h') (hbc : Adds h' h'') : Adds h h'' :=
  ⟨hab.toExtends.trans hbc.toExtends, hbc.request.trans hab.request⟩

/-- Where only the home changes. -/
theorem adds_home {home : Home} (hhome : Home.Extends h.home home) :
    Adds h { h with home := home } :=
  ⟨⟨hhome, fun _ e he => ⟨e, he, rfl, subset_refl _⟩⟩, rfl⟩

theorem adds_setLogin {f : Login → Login} (hf : ∀ e : Login, e.Keeps (f e)) :
    Adds h (setLogin user f h) := by
  refine ⟨⟨.refl _, fun n e he => ?_⟩, rfl⟩
  by_cases hn : n = user
  · subst hn
    exact ⟨f e, by simp [setLogin, he], hf e⟩
  · exact ⟨e, by simp [setLogin, Function.update_of_ne hn, he], rfl, subset_refl _⟩

theorem keeps_step {c : Step} {able : Host → Bool} {act : Host → Host}
    (hact : ∀ s, able s = true → Adds s (act s)) : Script.Keeps (Adds h) (b.step c able act) := by
  exact Script.keeps_guarded fun s hs hable => hs.trans (hact s hable)

theorem keeps_plain {c : Step} : Script.Keeps (Adds h) (b.plain c) :=
  keeps_step fun s _ => .refl s

theorem keeps_tmpfiles : Script.Keeps (Adds h) (tmpfiles b) := by
  refine keeps_step fun s hmissing => adds_home ?_
  rw [beq_iff_eq.mp hmissing]
  exact Home.extends_of_empty rfl rfl

theorem keeps_homeSubvol : Script.Keeps (Adds h) (homeSubvol b) := by
  refine Script.keeps_look fun s => ?_
  cases s.home with
  | missing => exact Script.keeps_done
  | subvolume held => exact Script.keeps_done
  | plain held =>
    show Script.Keeps _ (if _ then .done else if _ then .done else _)
    split_ifs
    · exact Script.keeps_done
    · exact Script.keeps_done
    all_goals
      refine Script.keeps_block ?_
      simp only [List.forall_mem_cons]
      refine ⟨keeps_step fun s hempty => adds_home ?_, keeps_step fun s hmissing => adds_home ?_,
        keeps_plain, ?_, fun _ hnone => absurd hnone List.not_mem_nil⟩
      · rw [beq_iff_eq.mp hempty]
        exact Home.extends_of_empty rfl rfl
      · rw [beq_iff_eq.mp hmissing]
        exact Home.extends_of_empty rfl rfl
      · first | exact keeps_plain | exact Script.keeps_done

theorem keeps_syncKey : Script.Keeps (Adds h) (syncKey b user) := by
  unfold syncKey
  split_ifs
  · refine Script.keeps_block ?_
    simp only [List.forall_mem_cons]
    refine ⟨keeps_plain, keeps_step fun s _ => ?_, fun _ hnone => absurd hnone List.not_mem_nil⟩
    exact ⟨⟨.refl _, fun _ e he => ⟨e, he, rfl, subset_refl _⟩⟩, rfl⟩
  · exact Script.keeps_done

/-- The account that is made was not there. -/
theorem extends_created (hnone : h.accounts user = none) {home : Home}
    (hhome : Home.Extends h.home home) (e : Login) :
    Adds h { h with accounts := Function.update h.accounts user (some e), home := home } := by
  refine ⟨⟨hhome, fun n e' he' => ?_⟩, rfl⟩
  have hn : n ≠ user := by
    rintro rfl
    rw [hnone] at he'
    cases he'
  exact ⟨e', by simp [Function.update_of_ne hn, he'], rfl, subset_refl _⟩

/-- A password is set only on an account that was not there before. -/
theorem keeps_syncAccount : Script.Keeps (Adds h) (syncAccount b user) := by
  intro s hs
  show Script.wp _ (if (s.accounts user).isNone then _ else .done) _ _ _
  by_cases hnone : (s.accounts user).isNone = true
  · rw [if_pos hnone]
    have hmade : ∀ password, Adds h { s with
        accounts := Function.update s.accounts user (some ⟨password, b.shell, ∅⟩)
        home := s.home.put {user} } := fun password =>
      hs.trans (extends_created (Option.isNone_iff_eq_none.mp hnone) (Home.extends_put _ _) _)
    refine Script.wp_seq (Script.wp_guarded ⟨hs, hs⟩ fun _ _ => ⟨hmade none, ?_⟩)
    split_ifs
    · exact hmade none
    · refine Script.wp_guarded ⟨hmade none, hmade none⟩ fun _ _ => ?_
      have hset := hmade (some (b.value KUMA_PASSWORD_HASH))
      simpa [setLogin] using hset
  · rw [if_neg hnone]
    exact hs

theorem keeps_userSync : Script.Keeps (Adds h) (userSyncScript b) := by
  refine Script.Keeps.seq ?_ ?_
  · refine Script.keeps_look fun s => ?_
    show Script.Keeps _ (if _ then _ else .done)
    split_ifs
    · refine keeps_step fun s _ => ?_
      exact ⟨⟨.refl _, fun _ e he => ⟨e, he, rfl, subset_refl _⟩⟩, rfl⟩
    · exact Script.keeps_done
  · split_ifs
    · exact Script.keeps_done
    · refine Script.keeps_block ?_
      simp only [List.forall_mem_cons]
      refine ⟨keeps_syncKey, keeps_syncAccount, ?_, ?_, fun _ hnone =>
        absurd hnone List.not_mem_nil⟩
      · unfold syncShell
        split_ifs
        · exact keeps_step fun s _ => adds_setLogin fun e => ⟨rfl, subset_refl _⟩
        · exact Script.keeps_done
      · refine Script.keeps_each (fun group => ?_) _
        exact Script.keeps_guarded fun s hs _ =>
          hs.trans (adds_setLogin fun e => ⟨rfl, Finset.subset_insert _ _⟩)

theorem keeps_restore : Script.Keeps (Extends h) (restore b) := by
  have hremove : Script.Keeps (Extends h) (removeRequest b) :=
    Script.keeps_guarded fun s hs _ => ⟨hs.home, hs.accounts⟩
  have hput : ∀ s names, Extends h s → Extends h { s with home := s.home.put names } :=
    fun s names hs => hs.trans (adds_home (Home.extends_put s.home names)).toExtends
  refine Script.keeps_look fun s => ?_
  show Script.Keeps _ (if _ then .done else if _ then _ else if _ then _ else _)
  split_ifs
  · exact Script.keeps_done
  · exact hremove.seq Script.keeps_fail
  · exact hremove.seq Script.keeps_fail
  · refine Script.keeps_block ?_
    simp only [List.forall_mem_cons]
    refine ⟨Script.keeps_guarded fun s hs _ => hs, Script.keeps_command fun s hs => ?_, hremove,
      fun _ hnone => absurd hnone List.not_mem_nil⟩
    split_ifs
    · exact hput s _ hs
    · exact hput s _ hs

theorem extends_of_adds {S : Script Host} (hS : ∀ s, Script.Keeps (Adds s) S) :
    Script.Keeps (Extends h) S :=
  Script.Keeps.of_rel hS Adds.refl fun _ _ hs hadds => hs.trans hadds.toExtends

/-- No unit takes a file, a password or a group away, and none makes a subvolume of a home that
holds something, wherever the boot fails or dies. -/
theorem keeps_units : Script.Keeps (Extends h) (units b) := by
  refine Script.keeps_block ?_
  simp only [List.forall_mem_cons]
  exact ⟨extends_of_adds fun _ => keeps_tmpfiles.tolerate,
    extends_of_adds fun _ => keeps_homeSubvol.tolerate,
    extends_of_adds fun _ => keeps_userSync.tolerate, keeps_restore.tolerate,
    fun _ hnone => absurd hnone List.not_mem_nil⟩

/-! ### Boot after boot -/

/-- A boot, that may have died after some of its commands, or something the owner did. -/
inductive Event
  | boot (b : Boot) (died : Option ℕ)
  | files (held : Finset Name)
  | passwd (user : Name) (password : List Char)
  | regroup (user : Name) (groups : Finset Name)

def Event.step (h : Host) : Event → Host
  | .boot b died => (units b).after died h
  | .files held => { h with home := h.home.withHeld held }
  | .passwd user password => setLogin user ({ · with password := some password }) h
  | .regroup user groups => setLogin user ({ · with groups := groups }) h

theorem extends_boot (b : Boot) (died : Option ℕ) (h : Host) :
    Extends h (Event.step h (.boot b died)) :=
  keeps_units.after (.refl h) died

/-- What settles the kind of a home: it is a subvolume, or it holds something. -/
def Home.Settled (home : Home) : Prop := home.isSubvolume = true ∨ home.held ≠ ∅

theorem settled_step (hs : h.home.Settled) (e : Event)
    (he : ∀ held, e = .files held → held ≠ ∅) :
    (e.step h).home.isSubvolume = h.home.isSubvolume ∧ (e.step h).home.Settled := by
  cases e with
  | boot b died =>
    have hext := (extends_boot b died h).home
    have hsame := hext.kind hs
    refine ⟨hsame, hs.imp (fun hsub => hsame.trans hsub) fun hheld hempty => ?_⟩
    exact hheld (Finset.subset_empty.mp (hempty ▸ hext.held))
  | files held =>
    have hthere : h.home ≠ .missing := by
      rintro hmissing
      simp [hmissing, Home.Settled, Home.held, Home.isSubvolume] at hs
    refine ⟨Home.isSubvolume_withHeld h.home held, .inr ?_⟩
    show (h.home.withHeld held).held ≠ ∅
    rw [Home.held_withHeld hthere]
    exact he held rfl
  | passwd user password => exact ⟨rfl, hs⟩
  | regroup user groups => exact ⟨rfl, hs⟩

theorem settled_run {events : List Event} (hs : h.home.Settled)
    (hfiles : ∀ held, .files held ∈ events → held ≠ ∅) :
    (run Event.step h events).home.isSubvolume = h.home.isSubvolume := by
  have hguard : Along Event.step (fun _ e => ∀ held, e = .files held → held ≠ ∅) h events :=
    along_of_forall fun e he held hheld => hfiles held (hheld ▸ he)
  refine (run_invariant (I := fun h' => h'.home.isSubvolume = h.home.isSubvolume ∧
    h'.home.Settled) (fun s e hI he => ?_) ⟨rfl, hs⟩ hguard).1
  obtain ⟨hsame, hnext⟩ := settled_step hI.2 e he
  exact ⟨hsame.trans hI.1, hnext⟩

/-- A home that is a subvolume, or holds something, is what it is for good. -/
theorem home_kind_run {events : List Event}
    (hsettled : h.home.isSubvolume = true ∨ h.home.held ≠ ∅)
    (hfiles : ∀ held, .files held ∈ events → held ≠ ∅) :
    (run Event.step h events).home.isSubvolume = h.home.isSubvolume :=
  settled_run hsettled hfiles

theorem home_kind_run_plain :
    let h : Host := { Host.fresh with home := .plain {"ada".toList} }
    (run Event.step h
      [.boot (.smooth "ada".toList) (some 3), .files {"ada".toList}]).home.isSubvolume =
        h.home.isSubvolume := by
  refine home_kind_run (.inr (Finset.singleton_ne_empty _)) fun held hheld => ?_
  have hsame : held = {"ada".toList} := by simpa using hheld
  rw [hsame]
  exact Finset.singleton_ne_empty _

/-- What the owner set last. -/
def lastPassword (user : Name) (password : Option (List Char)) : Event → Option (List Char)
  | .passwd user' password' => if user' = user then some password' else password
  | _ => password

/-- Only its owner changes the password of an account that is there, so that one without a
password never gets one from a later boot. -/
theorem password_run {events : List Event} {user : Name} {e : Login}
    (hold : h.accounts user = some e) :
    ∃ e', (run Event.step h events).accounts user = some e' ∧
      e'.password = events.foldl (lastPassword user) e.password := by
  induction events generalizing h e with
  | nil => exact ⟨e, hold, rfl⟩
  | cons event events ih =>
    have hset : ∀ user' (f : Login → Login), ∃ e', (setLogin user' f h).accounts user = some e' ∧
        e'.password = if user' = user then (f e).password else e.password := by
      intro user' f
      by_cases hsame : user' = user
      · subst hsame
        exact ⟨f e, by simp [setLogin, hold], by simp⟩
      · exact ⟨e, by simp [setLogin, Function.update_of_ne (Ne.symm hsame), hold], by simp [hsame]⟩
    have hnext : ∃ e', (event.step h).accounts user = some e' ∧
        e'.password = lastPassword user e.password event := by
      cases event with
      | boot b died =>
        obtain ⟨e', he', hpassword, -⟩ := (extends_boot b died h).accounts user e hold
        exact ⟨e', he', hpassword⟩
      | files held => exact ⟨e, hold, rfl⟩
      | passwd user' password => exact hset user' _
      | regroup user' groups =>
        obtain ⟨e', he', hsame⟩ := hset user' ({ · with groups := groups })
        exact ⟨e', he', hsame.trans (ite_self _)⟩
    obtain ⟨e', he', hpassword⟩ := hnext
    obtain ⟨e'', he'', hlast⟩ := ih he'
    exact ⟨e'', he'', by rw [hlast, hpassword]; rfl⟩

/-! ### What a boot achieves -/

theorem password_run_locked :
    ∃ e', (run Event.step
        { Host.fresh with accounts := fun _ => some ⟨none, none, ∅⟩ }
        [.boot (.smooth "ada".toList) none]).accounts "ada".toList = some e' ∧
      e'.password = none :=
  password_run (e := ⟨none, none, ∅⟩) rfl

/-- Every boot finds a directory. -/
theorem wp_tmpfiles {Q F : Host → Prop} (hheld : h.home.held = ∅)
    (hworks : b.works .tmpfiles = true)
    (hQ : ∀ s, s.home = .plain ∅ ∨ s.home.isSubvolume = true → Q s) :
    (Script.tolerate (tmpfiles b)).wp (fun _ => True) Q F h := by
  apply Script.wp_tolerate
  cases hhome : h.home with
  | missing =>
    refine Script.wp_guarded_of_able hworks (beq_iff_eq.mpr hhome) ⟨trivial, hQ _ (.inl rfl)⟩
  | plain held =>
    have hfound : h.home = .plain ∅ := by
      rw [hhome] at hheld ⊢
      exact congrArg Home.plain hheld
    have hable : (h.home == .missing) = false := by
      rw [hfound]
      decide
    exact Script.wp_guarded_of_not_able hable ⟨trivial, hQ h (.inl hfound)⟩
  | subvolume held =>
    have hsub : h.home.isSubvolume = true := by
      rw [hhome]
      rfl
    have hable : (h.home == .missing) = false := by
      rw [hhome]
      exact beq_eq_false_iff_ne.mpr fun hne => Home.noConfusion hne
    exact Script.wp_guarded_of_not_able hable ⟨trivial, hQ h (.inr hsub)⟩

theorem wp_homeSubvol {Q F : Host → Prop} (hs : s.home = .plain ∅ ∨ s.home.isSubvolume = true)
    (hb : b.btrfs = true) (hrmdir : b.works .rmdir = true) (hcreate : b.works .create = true)
    (hQ : ∀ s, s.home.isSubvolume = true → Q s) :
    (Script.tolerate (homeSubvol b)).wp (fun _ => True) Q F s := by
  apply Script.wp_tolerate
  unfold homeSubvol
  show Script.wp _ (match s.home with
    | .missing => .done
    | .subvolume _ => .done
    | .plain held => if !b.btrfs then .done else if held ≠ ∅ then .done else _ : Script Host) _ _ _
  rcases hs with hempty | hsub
  · rw [hempty]
    simp only [hb, Bool.not_true, Bool.false_eq_true, if_false, ne_eq, not_true_eq_false]
    refine Script.wp_block_cons
      (Script.wp_guarded_of_able hrmdir (beq_iff_eq.mpr hempty) ⟨trivial, ?_⟩)
    refine Script.wp_block_cons (Script.wp_guarded_of_able hcreate (by rfl) ⟨trivial, ?_⟩)
    have hmade : Q { s with home := .subvolume ∅ } := hQ _ rfl
    have hlabel : (Script.block [if b.selinux then b.plain .chcon else .done]).wp
        (fun _ => True) Q Q { s with home := .subvolume ∅ } := by
      apply Script.wp_block_cons
      split_ifs
      · exact Script.wp_guarded ⟨trivial, hmade⟩ fun _ _ => ⟨trivial, hmade⟩
      · exact hmade
    exact Script.wp_block_cons (Script.wp_guarded ⟨trivial, hmade⟩ fun _ _ => ⟨trivial, hlabel⟩)
  · cases hhome : s.home with
    | missing => exact nomatch (hhome ▸ hsub)
    | plain held => exact nomatch (hhome ▸ hsub)
    | subvolume held => exact hQ s hsub

/-- A boot that gets through the two commands makes a subvolume of an empty home, and it is one
ever after. -/
theorem home_subvolume_run {events : List Event} (hempty : h.home.held = ∅)
    (hb : b.btrfs = true) (hworks : ∀ c ∈ [Step.tmpfiles, .rmdir, .create], b.works c = true)
    (hfiles : ∀ held, .files held ∈ events → held ≠ ∅) :
    (run Event.step h (.boot b none :: events)).home.isSubvolume = true := by
  let Sub (s : Host) : Prop := s.home.isSubvolume = true
  have hrest : Script.Keeps Sub (.block [
      .tolerate (userSyncScript b), .tolerate (restore b)]) := by
    have hrel : ∀ s, Script.Keeps (Extends s) (.block [
        .tolerate (userSyncScript b), .tolerate (restore b)]) := fun s =>
      (extends_of_adds fun _ => keeps_userSync.tolerate).seq
        (keeps_restore.tolerate.seq Script.keeps_done)
    exact Script.Keeps.of_rel hrel .refl fun s s' hsub hext =>
      (hext.home.kind (.inl hsub)).trans hsub
  have hfirst : (units b).wp (fun _ => True) Sub Sub h := by
    obtain ⟨htmpfiles, hrmdir, hcreate⟩ : b.works .tmpfiles = true ∧ b.works .rmdir = true ∧
      b.works .create = true := by simpa using hworks
    refine Script.wp_block_cons (wp_tmpfiles hempty htmpfiles fun s hs => ?_)
    refine Script.wp_block_cons (wp_homeSubvol hs hb hrmdir hcreate fun s hsub => ?_)
    exact Script.wp_of_le (fun _ _ => trivial) (hrest s hsub)
  have hsub : Sub (Event.step h (.boot b none)) := Script.final_of_wp_wp hfirst
  exact (settled_run (.inl hsub) hfiles).trans hsub

theorem home_subvolume_fresh :
    (run Event.step Host.fresh [.boot (.smooth "ada".toList) none]).home.isSubvolume = true :=
  home_subvolume_run rfl rfl (fun _ _ => rfl) fun _ hheld => nomatch hheld

/-- The password of the account: its own, or the declared one where the account is new. -/
def Boot.password (b : Boot) : Option Login → Option (List Char)
  | some old => old.password
  | none =>
    if b.value KUMA_PASSWORD_HASH = [] then none else some (b.value KUMA_PASSWORD_HASH)

/-- What the account converger leaves when it goes through, but for the groups that it has not
come to. -/
structure Synced (left : List Name) (b : Boot) (h h' : Host) : Prop where
  hostname : b.wanted.getD [] ≠ [] → h'.hostname = b.wanted
  key : b.value KUMA_SSH_KEY ≠ [] →
    h'.keys (b.value KUMA_USER) = some (b.value KUMA_SSH_KEY)
  account : ∃ e, h'.accounts (b.value KUMA_USER) = some e ∧
    (b.shell.isSome = true → e.shell = b.shell) ∧ (∀ g ∈ b.groups, g ∈ left ∨ g ∈ e.groups) ∧
    e.password = b.password (h.accounts (b.value KUMA_USER))
  others : ∀ n ≠ b.value KUMA_USER, h'.accounts n = h.accounts n ∧ h'.keys n = h.keys n

variable {left : List Name}

theorem wp_syncGroup {group : Name} (hs : Synced (group :: left) b h s) :
    (syncGroup b (b.value KUMA_USER) group).wp (fun _ => True) (Synced left b h)
      (fun _ => True) s := by
  refine Script.wp_guarded ⟨trivial, trivial⟩ fun _ _ => ⟨trivial, hs.hostname, hs.key, ?_, ?_⟩
  · obtain ⟨e, he, hshell, hgroups, hpassword⟩ := hs.account
    refine ⟨{ e with groups := insert group e.groups }, ?_, hshell, fun g hg => ?_, hpassword⟩
    · simp [setLogin, he]
    · rcases hgroups g hg with hleft | hin
      · rcases List.mem_cons.mp hleft with rfl | hleft
        · exact .inr (Finset.mem_insert_self _ _)
        · exact .inl hleft
      · exact .inr (Finset.mem_insert_of_mem hin)
  · intro n hn
    exact ⟨by simp [setLogin, Function.update_of_ne hn, (hs.others n hn).1], (hs.others n hn).2⟩

/-- The hostname and the key are done, and no account is touched. -/
structure Named (b : Boot) (h s : Host) : Prop where
  hostname : b.wanted.getD [] ≠ [] → s.hostname = b.wanted
  key : b.value KUMA_SSH_KEY ≠ [] → s.keys (b.value KUMA_USER) = some (b.value KUMA_SSH_KEY)
  accounts : s.accounts = h.accounts
  others : ∀ n ≠ b.value KUMA_USER, s.keys n = h.keys n

theorem wp_syncHostname {Q : Host → Prop}
    (hQ : ∀ s, (b.wanted.getD [] ≠ [] → s.hostname = b.wanted) → s.accounts = h.accounts →
      s.keys = h.keys → Q s) :
    (syncHostname b).wp (fun _ => True) Q (fun _ => True) h := by
  show Script.wp _ (if _ then _ else .done) _ _ _
  have hsome : b.wanted.getD [] ≠ [] → some (b.wanted.getD []) = b.wanted := by
    intro hwanted
    cases hw : b.wanted with
    | none => exact absurd (by rw [hw]; rfl) hwanted
    | some want => rfl
  split_ifs with hwrite
  · exact Script.wp_guarded ⟨trivial, trivial⟩ fun _ _ => ⟨trivial, hQ _ hsome rfl rfl⟩
  · refine hQ h (fun hwanted => ?_) rfl rfl
    have hsame : h.hostname = some (b.wanted.getD []) := by
      by_contra hne
      exact hwrite ⟨hwanted, hne⟩
    exact hsame.trans (hsome hwanted)

theorem wp_syncKey {Q : Host → Prop} (hhost : b.wanted.getD [] ≠ [] → s.hostname = b.wanted)
    (haccounts : s.accounts = h.accounts) (hkeys : s.keys = h.keys)
    (hQ : ∀ s, Named b h s → Q s) :
    (syncKey b (b.value KUMA_USER)).wp (fun _ => True) Q (fun _ => True) s := by
  unfold syncKey
  split_ifs with hkey
  · refine Script.wp_block_cons (Script.wp_guarded ⟨trivial, trivial⟩ fun _ _ => ⟨trivial, ?_⟩)
    refine Script.wp_block_cons (Script.wp_guarded ⟨trivial, trivial⟩ fun _ _ => ⟨trivial, ?_⟩)
    refine hQ _ ⟨hhost, fun _ => ?_, haccounts, fun n hn => ?_⟩
    · simp
    · simp [Function.update_of_ne hn, hkeys]
  · exact hQ s ⟨hhost, fun hne => absurd hne hkey, haccounts, fun n _ => congrFun hkeys n⟩

/-- The account is there, with its password, and its shell is declared or to come. -/
structure Owned (b : Boot) (h s : Host) : Prop where
  hostname : b.wanted.getD [] ≠ [] → s.hostname = b.wanted
  key : b.value KUMA_SSH_KEY ≠ [] → s.keys (b.value KUMA_USER) = some (b.value KUMA_SSH_KEY)
  account : ∃ e, s.accounts (b.value KUMA_USER) = some e ∧
    e.password = b.password (h.accounts (b.value KUMA_USER))
  others : ∀ n ≠ b.value KUMA_USER, s.accounts n = h.accounts n ∧ s.keys n = h.keys n

theorem wp_syncAccount {Q : Host → Prop} (hs : Named b h s) (hQ : ∀ s, Owned b h s → Q s) :
    (syncAccount b (b.value KUMA_USER)).wp (fun _ => True) Q (fun _ => True) s := by
  show Script.wp _ (if (s.accounts (b.value KUMA_USER)).isNone then _ else .done) _ _ _
  have hother : ∀ n ≠ b.value KUMA_USER, ∀ e : Option Login,
      Function.update s.accounts (b.value KUMA_USER) e n = h.accounts n ∧ s.keys n = h.keys n := by
    intro n hn e
    exact ⟨by rw [Function.update_of_ne hn, hs.accounts], hs.others n hn⟩
  by_cases hnone : (s.accounts (b.value KUMA_USER)).isNone = true
  · rw [if_pos hnone]
    have hgone : h.accounts (b.value KUMA_USER) = none :=
      hs.accounts ▸ Option.isNone_iff_eq_none.mp hnone
    refine Script.wp_seq (Script.wp_guarded ⟨trivial, trivial⟩ fun _ _ => ⟨trivial, ?_⟩)
    split_ifs with hhash
    · refine hQ _ ⟨hs.hostname, hs.key, ⟨⟨none, b.shell, ∅⟩, ?_, ?_⟩, fun n hn => hother n hn _⟩
      · simp
      · simp [hgone, Boot.password, hhash]
    · refine Script.wp_guarded ⟨trivial, trivial⟩ fun _ _ => ⟨trivial, hQ _ ?_⟩
      refine ⟨hs.hostname, hs.key, ⟨⟨some (b.value KUMA_PASSWORD_HASH), b.shell, ∅⟩, ?_, ?_⟩, ?_⟩
      · simp [setLogin]
      · simp [hgone, Boot.password, hhash]
      · intro n hn
        simpa [setLogin] using hother n hn _
  · rw [if_neg hnone]
    obtain ⟨e, he⟩ := Option.ne_none_iff_exists'.mp (mt Option.isNone_iff_eq_none.mpr hnone)
    have hold : h.accounts (b.value KUMA_USER) = some e := hs.accounts ▸ he
    refine hQ s ⟨hs.hostname, hs.key, ⟨e, he, ?_⟩, fun n hn => ?_⟩
    · rw [hold]
      rfl
    · exact ⟨congrFun hs.accounts n, hs.others n hn⟩

theorem wp_syncShell {Q : Host → Prop} (hs : Owned b h s)
    (hQ : ∀ s, Synced b.groups b h s → Q s) :
    (syncShell b (b.value KUMA_USER)).wp (fun _ => True) Q (fun _ => True) s := by
  obtain ⟨e, he, hpassword⟩ := hs.account
  unfold syncShell
  split_ifs with hshell
  · refine Script.wp_guarded ⟨trivial, trivial⟩ fun _ _ => ⟨trivial, hQ _ ?_⟩
    refine ⟨hs.hostname, hs.key, ⟨{ e with shell := b.shell }, ?_, ?_⟩, fun n hn => ?_⟩
    · simp [setLogin, he]
    · exact ⟨fun _ => rfl, fun g hg => .inl hg, hpassword⟩
    · exact ⟨by simp [setLogin, Function.update_of_ne hn, (hs.others n hn).1], (hs.others n hn).2⟩
  · refine hQ s ⟨hs.hostname, hs.key, ⟨e, he, ?_⟩, hs.others⟩
    exact ⟨fun h => absurd h hshell, fun g hg => .inl hg, hpassword⟩

/-- A run of the converger that goes through leaves the declared account, hostname and key,
whatever it found; it sets the password of a new account only, and touches no other account. -/
theorem userSync_converges (huser : b.value KUMA_USER ≠ [])
    (hok : ((userSyncScript b).exec h).2 = true) :
    Synced [] b h ((userSyncScript b).final h) := by
  have hrun : (userSyncScript b).wp (fun _ => True) (Synced [] b h) (fun _ => True) h := by
    refine Script.wp_seq (wp_syncHostname fun s hhost haccounts hkeys => ?_)
    rw [if_neg huser]
    refine Script.wp_block_cons (wp_syncKey hhost haccounts hkeys fun s hs => ?_)
    refine Script.wp_block_cons (wp_syncAccount hs fun s hs => ?_)
    refine Script.wp_block_cons (wp_syncShell hs fun s hs => ?_)
    exact Script.wp_block_cons (Script.wp_each (I := fun left s => Synced left b h s)
      (fun _ _ _ hs => wp_syncGroup hs) hs)
  exact (Script.wp_sound hrun).2.1 hok

theorem userSync_fresh : Synced [] (.smooth "ada".toList) Host.fresh
    ((userSyncScript (.smooth "ada".toList)).final Host.fresh) :=
  userSync_converges (by decide) (by decide)

/-! ### The request -/

/-- The request can be met no better: nothing says where the snapshot is, or it is all there. -/
def Served (b : Boot) (s : Host) : Prop :=
  b.secret = false ∨ b.repository = false ∨ b.snapshot ⊆ s.home.held

/-- The request stands, or it is served. -/
def Asked (b : Boot) (s : Host) : Prop := s.request = true ∨ Served b s

theorem Asked.extends {s' : Host} (hs : Asked b s) (hext : Extends s s')
    (hrequest : s'.request = s.request) : Asked b s' := by
  rcases hs with hasked | hsecret | hrepository | hheld
  · exact .inl (hrequest.trans hasked)
  · exact .inr (.inl hsecret)
  · exact .inr (.inr (.inl hrepository))
  · exact .inr (.inr (.inr (hheld.trans hext.home.held)))

theorem wp_removeRequest {Q F : Host → Prop} (hs : Served b s) (hQ : ∀ s, Asked b s → Q s)
    (hF : ∀ s, Asked b s → F s) : (removeRequest b).wp (Asked b) Q F s :=
  Script.wp_guarded ⟨.inr hs, hF s (.inr hs)⟩ fun _ _ => ⟨.inr hs, hQ _ (.inr hs)⟩

theorem keeps_asked_restore : Script.Keeps (Asked b) (restore b) := by
  intro s hs
  show Script.wp _ (if _ then .done else if _ then _ else if _ then _ else _) _ _ _
  split_ifs with hnone hsecret hrepository
  · exact hs
  · exact Script.wp_seq (wp_removeRequest (.inl (by simpa using hsecret))
      (fun s hs => Script.wp_fail hs hs) fun _ => id)
  · exact Script.wp_seq (wp_removeRequest (.inr (.inl (by simpa using hrepository)))
      (fun s hs => Script.wp_fail hs hs) fun _ => id)
  · refine Script.wp_block_cons (Script.wp_guarded ⟨hs, hs⟩ fun _ _ => ⟨hs, ?_⟩)
    have hput : ∀ names, Asked b { s with home := s.home.put names } := fun names =>
      hs.extends (adds_home (Home.extends_put s.home names)).toExtends rfl
    apply Script.wp_block_cons
    show Asked b (if b.restic then _ else _ : Host × Bool).1 ∧
      if (if b.restic then _ else _ : Host × Bool).2 = true then _ else Asked b _
    cases b.restic with
    | false => exact ⟨hput b.reached, hput b.reached⟩
    | true =>
      have hserved : Served b { s with home := s.home.put b.snapshot } :=
        .inr (.inr (Home.subset_held_put s.home b.snapshot))
      exact ⟨hput b.snapshot,
        Script.wp_block_cons (wp_removeRequest hserved (fun _ => id) fun _ => id)⟩

theorem keeps_asked_units : Script.Keeps (Asked b) (units b) := by
  have hcarry : ∀ {S : Script Host}, (∀ s, Script.Keeps (Adds s) S) → Script.Keeps (Asked b) S :=
    fun hS => Script.Keeps.of_rel hS Adds.refl fun _ _ hs hadds =>
      hs.extends hadds.toExtends hadds.request
  refine Script.keeps_block ?_
  simp only [List.forall_mem_cons]
  exact ⟨hcarry fun _ => keeps_tmpfiles.tolerate, hcarry fun _ => keeps_homeSubvol.tolerate,
    hcarry fun _ => keeps_userSync.tolerate, keeps_asked_restore.tolerate,
    fun _ hnone => absurd hnone List.not_mem_nil⟩

/-- A request outlives every boot that fails it: where it is gone, some boot had put all of the
snapshot into the home, or had found nothing that could ever meet it. -/
theorem request_run {events : List Event} (hasked : h.request = true)
    (hgone : (run Event.step h events).request = false) :
    ∃ pre b died post, events = pre ++ .boot b died :: post ∧
      Served b (run Event.step h (pre ++ [.boot b died])) := by
  induction events generalizing h with
  | nil => exact nomatch hasked.symm.trans hgone
  | cons event events ih =>
    cases hnext : (event.step h).request with
    | true =>
      obtain ⟨pre, b, died, post, rfl, hserved⟩ := ih hnext hgone
      exact ⟨event :: pre, b, died, post, rfl, hserved⟩
    | false =>
      cases event with
      | boot b died =>
        have hafter : Asked b (Event.step h (.boot b died)) :=
          keeps_asked_units.after (.inl hasked) died
        rcases hafter with hstill | hserved
        · exact nomatch hnext.symm.trans hstill
        · exact ⟨[], b, died, events, rfl, hserved⟩
      | files held => exact nomatch hasked.symm.trans hnext
      | passwd user password => exact nomatch hasked.symm.trans hnext
      | regroup user groups => exact nomatch hasked.symm.trans hnext

theorem request_run_fresh :
    ∃ pre b died post, [Event.boot (.smooth "ada".toList) none] = pre ++ .boot b died :: post ∧
      Served b (run Event.step Host.fresh (pre ++ [.boot b died])) :=
  request_run rfl (by decide)

end Kuma.Containerfile
