import Kuma.Config.Validate
import Kuma.Lib.Sourcing

/-! The account of an installed machine: what the installer asks for, the file it writes, and
what `kuma-user-sync` makes of that file after the one the image bakes. -/
namespace Kuma.Install
open Kuma.Lib Kuma.Lib.Text Kuma.Lib.Shell Kuma.Sync

def KUMA_USER : List Char := "KUMA_USER".toList
def KUMA_SHELL : List Char := "KUMA_SHELL".toList
def KUMA_GROUPS : List Char := "KUMA_GROUPS".toList
def KUMA_PASSWORD_HASH : List Char := "KUMA_PASSWORD_HASH".toList
def KUMA_SSH_KEY : List Char := "KUMA_SSH_KEY".toList

structure Account where
  name : String
  passwordHash : String
  groups : List String
  shell : Option String

/-- What the installer reads: lines and prompts, where any read may fail. -/
structure Terminal where
  interactive : Bool
  accountName : Except String String
  password : Except String String
  again : Except String String
  line : Except String String

inductive AccountFault
  | io (why : String)
  | name (fault : NameFault)
  | bail (text : String)

def accountNamed (value field : String) : Except AccountFault Unit :=
  (validateName value field ['.', '-', '_']).mapError .name

def askName (terminal : Terminal) : Option String → Except AccountFault String
  | some name => .ok name
  | none =>
    if terminal.interactive then
      (terminal.accountName.mapError .io).map fun line => String.ofList (trim line.toList)
    else .error (.bail "no account name: pass --user, or run this on a terminal")

def askPassword (terminal : Terminal) : Except AccountFault String :=
  if terminal.interactive then do
    let first ← terminal.password.mapError .io
    let again ← terminal.again.mapError .io
    if first ≠ again then .error (.bail "passwords don't match") else .ok first
  else (terminal.line.mapError .io).map fun line =>
    String.ofList (line.toList.rdropWhile ['\r', '\n'].contains)

def refuseEmpty (password : String) : Except AccountFault Unit :=
  if password = "" then
    .error (.bail "empty password: the installed machine would have no way in")
  else .ok ()

def askAccount (hashPassword : String → Except String String) (terminal : Terminal)
    (name : Option String) (groups : List String) (shell : Option String) :
    Except AccountFault Account := do
  let name ← askName terminal name
  accountNamed name "user.name"
  groups.forM fun group => accountNamed group "user.groups"
  let password ← askPassword terminal
  refuseEmpty password
  shell.toList.forM fun shell => accountNamed shell "user.shell"
  let hash ← (hashPassword password).mapError .bail
  .ok ⟨name, hash, groups, shell⟩

def shellPath (shell : String) : List Char := "/usr/bin/".toList ++ shell.toList

def joined (groups : List String) : List Char := [' '].intercalate (groups.map String.toList)

/-- `user_file`: the file that the installer writes. -/
def userFile (account : Account) (sshKey : Option String) : List Char :=
  assignmentLine KUMA_USER account.name.toList ++
    (account.shell.elim [] fun shell => assignmentLine KUMA_SHELL (shellPath shell)) ++
    (if account.groups = [] then [] else assignmentLine KUMA_GROUPS (joined account.groups)) ++
    assignmentLine KUMA_PASSWORD_HASH account.passwordHash.toList ++
    sshKey.elim [] fun key => assignmentLine KUMA_SSH_KEY (quoteEscape (trim key.toList))

/-- The file that an image bakes for the user it declares. -/
def bakedUser (user : Config.User) : List Char :=
  assignmentLine KUMA_USER user.name.toList ++
    (user.shell.elim [] fun shell => assignmentLine KUMA_SHELL (shellPath shell)) ++
    (if user.groups = [] then [] else assignmentLine KUMA_GROUPS (joined user.groups)) ++
    user.passwordHash.elim [] fun hash => assignmentLine KUMA_PASSWORD_HASH hash.toList

/-- The keys of an image's user that are unset before the installer's file is sourced. -/
def CLEARED : List (List Char) := [KUMA_USER, KUMA_PASSWORD_HASH, KUMA_GROUPS]

/-- The sourcing in `kuma-user-sync`: the baked file if there is one, then the installer's over
what is left of it. -/
def userSync (baked installed : Option (List Char)) (vars : Variables) : Option Variables :=
  (baked.elim (some vars) fun script => bash.source script vars).bind fun vars =>
    installed.elim (some vars) fun script => bash.source script (vars.unsetAll CLEARED)

def ACCOUNT_KEYS : List (List Char) :=
  [KUMA_USER, KUMA_SHELL, KUMA_GROUPS, KUMA_PASSWORD_HASH, KUMA_SSH_KEY]

/-- What the unit starts with: nothing in its environment is one of the keys. -/
structure UnitVariables extends Variables where
  clean : ∀ key ∈ ACCOUNT_KEYS, value key = none

/-- The converger's variables on a machine installed from an image. -/
def synced (config : Config) (account : Account) (sshKey : Option String)
    (start : UnitVariables) : Option Variables :=
  userSync (config.user.map bakedUser) (some (userFile account sshKey)) start.toVariables

/-- The installer's account, with no more of the image's than its shell. -/
structure OwnAccount (start after : Variables) (bakedShell : Option String) (account : Account)
    (key : Option String) : Prop where
  user : after.value KUMA_USER = some account.name.toList
  passwordHash : after.value KUMA_PASSWORD_HASH = some account.passwordHash.toList
  groups : after.value KUMA_GROUPS =
    if account.groups = [] then none else some (joined account.groups)
  sshKey : after.value KUMA_SSH_KEY = key.map fun key => trim key.toList
  shell : after.value KUMA_SHELL = (account.shell.or bakedShell).map shellPath
  others : ∀ name ∉ ACCOUNT_KEYS, after.value name = start.value name

/-- The sourcing runs nothing but assignments and ends in the installer's account, and any other
image with the same shell for its user ends in the same. -/
structure BorrowsNothing (config : Config) (account : Account) (key : Option String)
    (start : UnitVariables) : Prop where
  own : ∃ after, synced config account key start = some after ∧
    OwnAccount start.toVariables after (config.user.bind Config.User.shell) account key
  alike : ∀ config' : Config, config'.validate = .ok () →
    config'.user.bind Config.User.shell = config.user.bind Config.User.shell →
    synced config' account key start = synced config account key start

variable {hashPassword : String → Except String String} {terminal : Terminal}
  {asked shellAsked : Option String} {groupsAsked : List String} {account : Account}
  {user : Config.User} {config : Config} {value : String} {key : Option String}

/-! ### What stands between the quotes -/

/-- A text that single quotes and a script's reading leave as it is. -/
def Inert (text : List Char) : Prop := '\'' ∉ text ∧ '\x00' ∉ text

theorem Inert.append {a b : List Char} (ha : Inert a) (hb : Inert b) : Inert (a ++ b) := by
  constructor
  · rw [List.mem_append, not_or]
    exact ⟨ha.1, hb.1⟩
  · rw [List.mem_append, not_or]
    exact ⟨ha.2, hb.2⟩

theorem inert_of_chars {extra : List Char} (hextra : Inert extra)
    (h : ∀ c ∈ value.toList, c.isAlphanum = true ∨ c ∈ extra) : Inert value.toList := by
  constructor
  · intro hmem
    rcases h _ hmem with halnum | hmem
    · cases halnum
    · exact hextra.1 hmem
  · intro hmem
    rcases h _ hmem with halnum | hmem
    · cases halnum
    · exact hextra.2 hmem

theorem inert_shellPath (h : Inert value.toList) : Inert (shellPath value) := by
  have hdir : Inert "/usr/bin/".toList := by
    rw [String.toList_ofList]
    exact ⟨by decide, by decide⟩
  exact hdir.append h

theorem inert_joined {groups : List String} (h : ∀ group ∈ groups, Inert group.toList) :
    Inert (joined groups) := by
  induction groups with
  | nil => exact ⟨List.not_mem_nil, List.not_mem_nil⟩
  | cons group groups ih =>
    cases groups with
    | nil =>
      have hsingle : joined [group] = group.toList := by simp [joined, List.intercalate]
      rw [hsingle]
      exact h group List.mem_cons_self
    | cons next groups =>
      have hjoined : joined (group :: next :: groups) =
          group.toList ++ ([' '] ++ joined (next :: groups)) := by
        simp [joined, List.intercalate]
      have hspace : Inert [' '] := ⟨by decide, by decide⟩
      rw [hjoined]
      have hrest := ih fun other hother => h other (List.mem_cons_of_mem group hother)
      exact (h group List.mem_cons_self).append (hspace.append hrest)

theorem inert_of_accountNamed {field : String} (h : accountNamed value field = .ok ()) :
    Inert value.toList :=
  inert_of_chars ⟨by decide, by decide⟩ (chars_of_validateName (mapError_eq_ok.mp h)).2

/-- What the installer's questions answer with is inert. -/
structure InertAccount (account : Account) : Prop where
  name : Inert account.name.toList
  passwordHash : Inert account.passwordHash.toList
  groups : ∀ group ∈ account.groups, Inert group.toList
  shell : ∀ shell ∈ account.shell, Inert shell.toList

theorem inert_askAccount
    (hcrypt : ∀ password hash, hashPassword password = .ok hash →
      ∀ c ∈ hash.toList, c.isAlphanum = true ∨ c ∈ ['$', '.', '/', '='])
    (h : askAccount hashPassword terminal asked groupsAsked shellAsked = .ok account) :
    InertAccount account := by
  obtain ⟨name, -, h⟩ := bind_eq_ok.mp h
  obtain ⟨⟨⟩, hname, h⟩ := bind_eq_ok.mp h
  obtain ⟨⟨⟩, hgroups, h⟩ := bind_eq_ok.mp h
  obtain ⟨password, -, h⟩ := bind_eq_ok.mp h
  obtain ⟨⟨⟩, -, h⟩ := bind_eq_ok.mp h
  obtain ⟨⟨⟩, hshell, h⟩ := bind_eq_ok.mp h
  obtain ⟨hash, hhash, h⟩ := bind_eq_ok.mp h
  obtain rfl := Except.ok.inj h
  exact {
    name := inert_of_accountNamed hname
    passwordHash := inert_of_chars ⟨by decide, by decide⟩ (hcrypt _ _ (mapError_eq_ok.mp hhash))
    groups := fun group hgroup => inert_of_accountNamed (forM_eq_ok.mp hgroups group hgroup)
    shell := fun shell hmem =>
      inert_of_accountNamed (forM_eq_ok.mp hshell shell (Option.mem_toList.mpr hmem)) }

structure InertUser (user : Config.User) : Prop where
  name : Inert user.name.toList
  shell : ∀ shell ∈ user.shell, Inert shell.toList
  groups : ∀ group ∈ user.groups, Inert group.toList
  passwordHash : ∀ hash ∈ user.passwordHash, Inert hash.toList

/-- A user that a declaration may have is inert. -/
theorem inert_of_validate (h : user.validate = .ok ()) : InertUser user := by
  have hnamed : ∀ {value field : String} {extra : List Char}, Inert extra →
      Config.named value field extra = .ok () → Inert value.toList := by
    intro value field extra hextra hnamed
    exact inert_of_chars hextra (chars_of_validateName (mapError_eq_ok.mp hnamed)).2
  obtain ⟨⟨⟩, hname, h⟩ := bind_eq_ok.mp h
  obtain ⟨⟨⟩, hshell, h⟩ := bind_eq_ok.mp h
  obtain ⟨⟨⟩, hgroups, h⟩ := bind_eq_ok.mp h
  obtain ⟨⟨⟩, hhash, -⟩ := bind_eq_ok.mp h
  refine ⟨hnamed ⟨by decide, by decide⟩ hname, ?shell, ?groups, ?passwordHash⟩
  case shell =>
    intro shell hmem
    exact hnamed ⟨by decide, by decide⟩ (forM_eq_ok.mp hshell shell (Option.mem_toList.mpr hmem))
  case groups =>
    intro group hmem
    exact hnamed ⟨by decide, by decide⟩ (forM_eq_ok.mp hgroups group hmem)
  case passwordHash =>
    intro hash hmem
    obtain ⟨⟨⟩, hspelled, -⟩ :=
      bind_eq_ok.mp (forM_eq_ok.mp hhash hash (Option.mem_toList.mpr hmem))
    exact hnamed ⟨by decide, by decide⟩ hspelled

/-! ### The two files, field by field -/

def groupsField (groups : List String) : Option (List Char) :=
  if groups = [] then none else some (joined groups)

def userFields (user : Config.User) : List (List Char × Option (List Char)) :=
  [(KUMA_USER, some user.name.toList), (KUMA_SHELL, user.shell.map shellPath),
    (KUMA_GROUPS, groupsField user.groups),
    (KUMA_PASSWORD_HASH, user.passwordHash.map String.toList)]

def accountFields (account : Account) (key : Option String) :
    List (List Char × Option (List Char)) :=
  [(KUMA_USER, some account.name.toList), (KUMA_SHELL, account.shell.map shellPath),
    (KUMA_GROUPS, groupsField account.groups),
    (KUMA_PASSWORD_HASH, some account.passwordHash.toList),
    (KUMA_SSH_KEY, key.map fun key => trim key.toList)]

/-- The line for a field that is inert needs no escape. -/
theorem assignments_cons_inert {name : List Char} {field : Option (List Char)}
    (h : ∀ value ∈ field, Inert value) (rest : List (List Char × Option (List Char))) :
    assignments ((name, field) :: rest) =
      (field.elim [] fun value => assignmentLine name value) ++ assignments rest := by
  cases field with
  | none => rfl
  | some value =>
    have hscript : assignments ((name, some value) :: rest) =
        assignmentLine name (quoteEscape value) ++ assignments rest := rfl
    rw [hscript, quoteEscape_of_notMem (h value rfl).1]
    rfl

theorem inert_map_shellPath {shell : Option String} (h : ∀ shell' ∈ shell, Inert shell'.toList) :
    ∀ value ∈ shell.map shellPath, Inert value := by
  intro value hvalue
  obtain ⟨shell', hshell, rfl⟩ := Option.map_eq_some_iff.mp hvalue
  exact inert_shellPath (h shell' hshell)

theorem inert_groupsField {groups : List String} (h : ∀ group ∈ groups, Inert group.toList) :
    ∀ value ∈ groupsField groups, Inert value := by
  intro value hvalue
  unfold groupsField at hvalue
  split_ifs at hvalue
  · cases hvalue
  · obtain rfl := Option.some.inj hvalue
    exact inert_joined h

theorem elim_groupsField (groups : List String) :
    ((groupsField groups).elim [] fun value => assignmentLine KUMA_GROUPS value) =
      if groups = [] then [] else assignmentLine KUMA_GROUPS (joined groups) := by
  unfold groupsField
  split_ifs <;> rfl

theorem elim_map {α β : Type} (f : α → β) (g : β → List Char) (o : Option α) :
    (o.map f).elim [] g = o.elim [] fun a => g (f a) := by
  cases o <;> rfl

theorem map_withoutNul_of_inert {field : Option (List Char)} (h : ∀ value ∈ field, Inert value) :
    field.map withoutNul = field := by
  cases field with
  | none => rfl
  | some value => rw [Option.map_some, withoutNul_eq_self_iff.mpr (h value rfl).2]

theorem userFile_eq (h : InertAccount account) (key : Option String) :
    userFile account key = assignments (accountFields account key) := by
  have hkey : assignments [(KUMA_SSH_KEY, key.map fun key => trim key.toList)] =
      key.elim [] fun key => assignmentLine KUMA_SSH_KEY (quoteEscape (trim key.toList)) := by
    cases key with
    | none => rfl
    | some key => exact List.append_nil _
  unfold accountFields userFile
  rw [assignments_cons_inert fun value hvalue => Option.some.inj hvalue ▸ h.name,
    assignments_cons_inert (inert_map_shellPath h.shell),
    assignments_cons_inert (inert_groupsField h.groups),
    assignments_cons_inert fun value hvalue => Option.some.inj hvalue ▸ h.passwordHash,
    hkey, elim_groupsField, elim_map]
  simp only [List.append_assoc, Option.elim_some]

theorem bakedUser_eq (h : InertUser user) : bakedUser user = assignments (userFields user) := by
  have hhash : ∀ value ∈ user.passwordHash.map String.toList, Inert value := by
    intro value hvalue
    obtain ⟨hash, hmem, rfl⟩ := Option.map_eq_some_iff.mp hvalue
    exact h.passwordHash hash hmem
  unfold userFields bakedUser
  rw [assignments_cons_inert fun value hvalue => Option.some.inj hvalue ▸ h.name,
    assignments_cons_inert (inert_map_shellPath h.shell),
    assignments_cons_inert (inert_groupsField h.groups), assignments_cons_inert hhash,
    elim_groupsField, elim_map, elim_map]
  have hnil : assignments [] = [] := rfl
  simp only [List.append_assoc, Option.elim_some, hnil, List.append_nil]

/-! ### The sourcing -/

/-- A file of the account's keys gives each its value. -/
theorem source_fields {fields : List (List Char × Option (List Char))}
    (h : (fields.map Prod.fst).Sublist ACCOUNT_KEYS) (vars : Variables) :
    ∃ after, bash.source (assignments fields) vars = some after ∧
      after.exported = vars.exported ∧
      ∀ name, after.value name =
        ((fieldValue fields name).map withoutNul).or (vars.value name) := by
  have hkeys : ∀ key ∈ ACCOUNT_KEYS, isName key = true ∧ bash.readonly key = false := by decide
  have hdistinct : ACCOUNT_KEYS.Nodup := by decide
  apply source_assignments
  · intro field hmem
    exact hkeys field.1 (h.subset (List.mem_map_of_mem hmem))
  · exact hdistinct.sublist h

/-- What the baked file leaves: no user is a user without fields. -/
theorem source_baked (h : config.validate = .ok ()) (vars : Variables) :
    ∃ after, ((config.user.map bakedUser).elim (some vars) fun script =>
        bash.source script vars) = some after ∧
      after.exported = vars.exported ∧
      ∀ name, after.value name = ((fieldValue (config.user.elim [] userFields) name).map
        withoutNul).or (vars.value name) := by
  cases huser : config.user with
  | none => exact ⟨vars, rfl, rfl, fun _ => rfl⟩
  | some user =>
    have hinert := inert_of_validate ((Config.validated h).user user huser)
    have hkeys : (userFields user).map Prod.fst = ACCOUNT_KEYS.take 4 := rfl
    rw [Option.map_some, Option.elim_some, bakedUser_eq hinert]
    exact source_fields (hkeys ▸ List.take_sublist 4 ACCOUNT_KEYS) vars

/-- Of the image's fields only the shell is read after the others are unset. -/
theorem fieldValue_baked (h : config.validate = .ok ()) {name : List Char}
    (hname : name ∉ CLEARED) :
    (fieldValue (config.user.elim [] userFields) name).map withoutNul =
      if name = KUMA_SHELL then (config.user.bind Config.User.shell).map shellPath else none := by
  cases huser : config.user with
  | none => simp [fieldValue]
  | some user =>
    have hinert := inert_of_validate ((Config.validated h).user user huser)
    rw [Option.elim_some, Option.bind_some]
    by_cases hshell : name = KUMA_SHELL
    · have hvalue : fieldValue (userFields user) KUMA_SHELL = user.shell.map shellPath := rfl
      rw [if_pos hshell, hshell, hvalue]
      exact map_withoutNul_of_inert (inert_map_shellPath hinert.shell)
    · have hkeys : ∀ key ∈ ACCOUNT_KEYS.take 4, key = KUMA_SHELL ∨ key ∈ CLEARED := by decide
      have hnone : name ∉ (userFields user).map Prod.fst := by
        intro hmem
        rcases hkeys name hmem with hother | hother
        · exact hshell hother
        · exact hname hother
      rw [if_neg hshell, fieldValue_of_notMem hnone]
      rfl

/-- What the converger ends with: the installer's fields, over the image's shell. -/
theorem synced_spec (hvalid : config.validate = .ok ()) (haccount : InertAccount account)
    (key : Option String) (start : UnitVariables) :
    ∃ after, synced config account key start = some after ∧
      after.exported = (start.unsetAll CLEARED).exported ∧
      ∀ name, after.value name = ((fieldValue (accountFields account key) name).map
        withoutNul).or (if name = KUMA_SHELL then
          (config.user.bind Config.User.shell).map shellPath else start.value name) := by
  obtain ⟨baked, hbaked, hbakedExported, hbakedValue⟩ := source_baked hvalid start.toVariables
  have hkeys : (accountFields account key).map Prod.fst = ACCOUNT_KEYS := rfl
  obtain ⟨after, hafter, hexported, hvalue⟩ :=
    source_fields (hkeys ▸ List.Sublist.refl ACCOUNT_KEYS) (baked.unsetAll CLEARED)
  refine ⟨after, ?_, ?_, ?_⟩
  · unfold synced userSync
    rw [hbaked, Option.bind_some, Option.elim_some, userFile_eq haccount]
    exact hafter
  · rw [hexported]
    exact Variables.exported_unsetAll hbakedExported CLEARED
  · intro name
    have hbefore : (baked.unsetAll CLEARED).value name =
        if name = KUMA_SHELL then (config.user.bind Config.User.shell).map shellPath
        else start.value name := by
      rw [Variables.value_unsetAll]
      by_cases hcleared : name ∈ CLEARED
      · have hkey : ∀ key ∈ CLEARED, key ∈ ACCOUNT_KEYS ∧ key ≠ KUMA_SHELL := by decide
        obtain ⟨hmem, hshell⟩ := hkey name hcleared
        rw [if_pos hcleared, if_neg hshell, start.clean name hmem]
      · rw [if_neg hcleared, hbakedValue, fieldValue_baked hvalid hcleared]
        by_cases hshell : name = KUMA_SHELL
        · rw [if_pos hshell, if_pos hshell, hshell, start.clean KUMA_SHELL (by decide),
            Option.or_none]
        · rw [if_neg hshell, if_neg hshell, Option.none_or]
    rw [hvalue, hbefore]

/-! ### The installed account -/

/-- Two images with the same shell end in the same variables. -/
theorem synced_congr {config' : Config} (hvalid : config.validate = .ok ())
    (hvalid' : config'.validate = .ok ()) (haccount : InertAccount account)
    (hshell : config'.user.bind Config.User.shell = config.user.bind Config.User.shell)
    (key : Option String) (start : UnitVariables) :
    synced config' account key start = synced config account key start := by
  obtain ⟨after, hafter, hexported, hvalue⟩ := synced_spec hvalid haccount key start
  obtain ⟨after', hafter', hexported', hvalue'⟩ := synced_spec hvalid' haccount key start
  have hsame : after' = after := by
    apply Variables.ext_of_eq
    · funext name
      rw [hvalue, hvalue', hshell]
    · rw [hexported, hexported']
  rw [hafter, hafter', hsame]

/-- The fields of the account as they are sourced, but for the key. -/
theorem ownAccount_of_synced {start : UnitVariables} {after : Variables}
    {bakedShell : Option String} (haccount : InertAccount account)
    (hkey : after.value KUMA_SSH_KEY = key.map fun key => trim key.toList)
    (hvalue : ∀ name, after.value name = ((fieldValue (accountFields account key) name).map
      withoutNul).or (if name = KUMA_SHELL then bakedShell.map shellPath else start.value name)) :
    OwnAccount start.toVariables after bakedShell account key := by
  have hown : ∀ name ∈ ACCOUNT_KEYS, name ≠ KUMA_SHELL → after.value name =
      (fieldValue (accountFields account key) name).map withoutNul := by
    intro name hmem hshell
    rw [hvalue, if_neg hshell, start.clean name hmem, Option.or_none]
  have hsome : ∀ text, Inert text → (some text).map withoutNul = some text := by
    intro text htext
    apply map_withoutNul_of_inert
    intro value hmem
    exact Option.some.inj hmem ▸ htext
  refine ⟨?user, ?passwordHash, ?groups, hkey, ?shell, ?others⟩
  case user =>
    rw [hown KUMA_USER (by decide) (by decide)]
    exact hsome _ haccount.name
  case passwordHash =>
    rw [hown KUMA_PASSWORD_HASH (by decide) (by decide)]
    exact hsome _ haccount.passwordHash
  case groups =>
    rw [hown KUMA_GROUPS (by decide) (by decide)]
    exact map_withoutNul_of_inert (inert_groupsField haccount.groups)
  case shell =>
    have hfield : fieldValue (accountFields account key) KUMA_SHELL =
        account.shell.map shellPath := rfl
    rw [hvalue, hfield, map_withoutNul_of_inert (inert_map_shellPath haccount.shell),
      if_pos rfl, Option.map_or]
  case others =>
    intro name hname
    have hshell : name ≠ KUMA_SHELL := by
      rintro rfl
      exact hname (by decide)
    have hkeys : (accountFields account key).map Prod.fst = ACCOUNT_KEYS := rfl
    rw [hvalue, fieldValue_of_notMem (hkeys ▸ hname), if_neg hshell]
    rfl

/-- The installed account is the installer's own, and borrows at most a shell, exactly when the
key is one that a script can hold. -/
theorem borrowsNothing_iff (hashPassword : String → Except String String)
    (hcrypt : ∀ password hash, hashPassword password = .ok hash →
      ∀ c ∈ hash.toList, c.isAlphanum = true ∨ c ∈ ['$', '.', '/', '='])
    (config : Config) (hvalid : config.validate = .ok ()) (terminal : Terminal)
    (asked : Option String) (groupsAsked : List String) (shellAsked : Option String)
    (account : Account)
    (hasked : askAccount hashPassword terminal asked groupsAsked shellAsked = .ok account)
    (sshKey : Option String) (start : UnitVariables) :
    BorrowsNothing config account sshKey start ↔
      ∀ key ∈ sshKey, '\x00' ∉ trim key.toList := by
  have haccount := inert_askAccount hcrypt hasked
  obtain ⟨after, hafter, hexported, hvalue⟩ := synced_spec hvalid haccount sshKey start
  have hkey : after.value KUMA_SSH_KEY =
      (sshKey.map fun key => trim key.toList).map withoutNul := by
    have hfield : fieldValue (accountFields account sshKey) KUMA_SSH_KEY =
        sshKey.map fun key => trim key.toList := rfl
    rw [hvalue, hfield, if_neg (by decide), start.clean KUMA_SSH_KEY (by decide), Option.or_none]
  constructor
  · intro hborrows key hmem
    obtain ⟨after', hafter', hown⟩ := hborrows.own
    rw [hafter] at hafter'
    cases hafter'
    have hsame := hown.sshKey
    rw [hkey, hmem] at hsame
    exact withoutNul_eq_self_iff.mp (Option.some.inj hsame)
  · intro hclean
    refine ⟨⟨after, hafter, ownAccount_of_synced haccount ?key hvalue⟩, ?alike⟩
    case key =>
      rw [hkey]
      cases sshKey with
      | none => rfl
      | some key =>
        rw [Option.map_some, Option.map_some, withoutNul_eq_self_iff.mpr (hclean key rfl)]
    case alike =>
      intro config' hvalid' hshell
      exact synced_congr hvalid hvalid' haccount hshell sshKey start

/-- A hash as `kuma passwd` writes them. -/
def shortHash (_ : String) : Except String String := .ok "$6$rounds=656000$ab$cd"

/-- A password that is piped in. -/
def piped : Terminal := ⟨false, .error "", .error "", .error "", .ok "secret\n"⟩

/-- A unit that starts with nothing at all. -/
def emptyUnit : UnitVariables where
  value _ := none
  exported _ := false
  named _ h := by cases h
  clean _ _ := rfl

def fishUser : Config :=
  { Config.default with
    user := some ⟨"mira", some "fish", ["wheel"], some "$6$ef$gh", ["ssh-ed25519 AAAA"]⟩ }

theorem borrowsNothing_fishUser :
    BorrowsNothing fishUser ⟨"ada", "$6$rounds=656000$ab$cd", [], none⟩
      (some "ssh-ed25519 AAAA ada's\n") emptyUnit := by
  have hcrypt : ∀ password hash, shortHash password = .ok hash →
      ∀ c ∈ hash.toList, c.isAlphanum = true ∨ c ∈ ['$', '.', '/', '='] := by
    intro password hash hhash
    obtain rfl := Except.ok.inj hhash
    rw [String.toList_ofList]
    exact List.forall_iff_forall_mem.mp (by decide)
  refine (borrowsNothing_iff shortHash hcrypt fishUser rfl piped (some "ada") [] none _ rfl _
    emptyUnit).mpr ?_
  intro key hkey
  obtain rfl := Option.some.inj hkey
  rw [String.toList_ofList]
  decide

/-- A script's NULs are dropped, so a key with one is another key. -/
theorem not_borrowsNothing_nul :
    Config.default.validate = .ok () ∧
      (∃ account, askAccount shortHash piped (some "ada") [] none = .ok account ∧
        ¬ BorrowsNothing Config.default account (some "ssh-ed25519 AA\x00AA") emptyUnit) := by
  refine ⟨rfl, _, rfl, ?_⟩
  intro hborrows
  obtain ⟨after, hafter, hown⟩ := hborrows.own
  have hvalue := congrArg (Option.map fun vars => vars.value KUMA_SSH_KEY) hafter
  rw [Option.map_some, hown.sshKey] at hvalue
  revert hvalue
  decide

end Kuma.Install
