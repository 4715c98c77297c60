import Mathlib.Data.Bool.AllAny
import Mathlib.Data.Char
import Kuma.Lib.Splitting
import Kuma.Lib.Url

/-! The name a signer reads off the address that a client claims, and the parts of an address that
it does not depend on. -/
namespace Kuma.Nostr
open Kuma.Lib Kuma.Lib.Text

/-- `str::to_lowercase`. Outside ASCII it is Unicode's mapping between letters, which neither
takes nor gives an ASCII character that is no letter. -/
structure Lowercase where
  lower : List Char → List Char
  ascii : ∀ text, (∀ c ∈ text, c.toNat < 128) → lower text = text.map Char.toLower
  keeps : ∀ c, c.toNat < 128 → c.isAlpha = false → ∀ text, (lower text).count c = text.count c

/-- An ASCII label in which every character is a digit. -/
def numeric (label : List Char) : Bool := !label.isEmpty && label.all Char.isDigit

/-- What a URL is taken to name as its host. -/
def hostOf (url : List Char) : Option (List Char) := do
  let rest := ((splitOnceStr "://".toList url).map Prod.snd).getD url
  let host ← (split '/' rest).head?
  let host := Url.hostPort host
  (split ':' host).head?

/-- The last two labels of a host in lower case, none of an IPv4 literal or a single label. -/
def nameFromUrl (lc : Lowercase) (url : List Char) : Option (List Char) := do
  let host ← hostOf url
  let labels := split '.' host
  if labels.length < 2 then none
  else if labels.all numeric then none
  else some (lc.lower (['.'].intercalate (labels.drop (labels.length - 2))))

/-! ### Addresses -/

/-- A dotted name. -/
structure Host where
  labels : List (List Char)
  two : 2 ≤ labels.length
  plain : ∀ label ∈ labels, ∀ c ∈ label, c ∉ ['.', ':', '/', '?', '#', '@']
  named : labels.all numeric = false

def Host.text (host : Host) : List Char := ['.'].intercalate host.labels

def Host.lastTwo (host : Host) : List Char :=
  ['.'].intercalate (host.labels.drop (host.labels.length - 2))

/-- All of an address but its host. -/
structure Surroundings where
  scheme : Option (List Char)
  userinfo : Option (List Char)
  port : Option (List Char)
  path : Option (List Char)
  query : Option (List Char)
  fragment : Option (List Char)
  scheme_plain : ∀ text ∈ scheme, ∀ c ∈ text, c ∉ [':', '/', '?', '#', '@']
  userinfo_plain : ∀ text ∈ userinfo, ∀ c ∈ text, c ∉ ['/', '?', '#']
  port_plain : ∀ text ∈ port, ∀ c ∈ text, c.isDigit = true
  path_plain : ∀ text ∈ path, ∀ c ∈ text, c ∉ ['?', '#']
  query_plain : ∀ text ∈ query, '#' ∉ text

/-- An optional component behind its delimiter. -/
def marked (c : Char) : Option (List Char) → List Char
  | none => []
  | some text => c :: text

namespace Surroundings

def before (s : Surroundings) : List Char := (s.userinfo.map (· ++ ['@'])).getD []

/-- The query and the fragment. -/
def tail (s : Surroundings) : List Char := marked '?' s.query ++ marked '#' s.fragment

/-- What stands behind the host. -/
def after (s : Surroundings) : List Char := marked ':' s.port ++ (marked '/' s.path ++ s.tail)

/-- The address without its scheme. -/
def schemeless (s : Surroundings) (host : Host) : List Char := s.before ++ host.text ++ s.after

/-- The address of a host. -/
def url (s : Surroundings) (host : Host) : List Char :=
  (s.scheme.map (· ++ "://".toList)).getD [] ++ s.schemeless host

/-- Nothing behind the host is taken for a scheme, and where no path ends the authority, a port
keeps the query and the fragment off the host, with no `@` that would take it for a userinfo. -/
structure Delimited (s : Surroundings) : Prop where
  scheme : s.scheme = none → ¬"://".toList <:+: s.after
  authority : s.path = none → s.tail ≠ [] →
    s.port ≠ none ∧ '@' ∉ s.tail.takeWhile (· ≠ '/')

/-- What of the query and the fragment stands before the first slash behind the host. -/
def spill (s : Surroundings) : List Char := (marked '/' s.path ++ s.tail).takeWhile (· ≠ '/')

end Surroundings

variable {lc : Lowercase} {s : Surroundings} {host : Host} {c : Char} {a b name text : List Char}

/-! ### What is read of an address -/

theorem hostOf_eq (url : List Char) : hostOf url = some ((Url.hostPort
    ((((splitOnceStr "://".toList url).map Prod.snd).getD url).takeWhile (· ≠ '/'))).takeWhile
      (· ≠ ':')) := by
  simp only [hostOf, head?_split, Option.bind_eq_bind, Option.bind_some]

/-- A name is the end of what is taken for the host. -/
theorem exists_suffix_of_nameFromUrl (h : nameFromUrl lc text = some name) :
    ∃ taken ending, hostOf text = some taken ∧ ending <:+ taken ∧ name = lc.lower ending := by
  unfold nameFromUrl at h
  obtain ⟨taken, htaken, h⟩ := Option.bind_eq_some_iff.mp h
  dsimp only at h
  split_ifs at h
  refine ⟨taken, _, htaken, ?_, (Option.some.inj h).symm⟩
  have hend := intercalate_drop_suffix '.' (split '.' taken) ((split '.' taken).length - 2)
  rwa [intercalate_split] at hend

namespace Host

theorem labels_ne_nil (host : Host) : host.labels ≠ [] := by
  intro hnil
  have htwo := host.two
  rw [hnil] at htwo
  exact absurd htwo (by decide)

theorem notMem_text (hc : c ∈ [':', '/', '?', '#', '@']) : c ∉ host.text := by
  intro hmem
  rcases mem_intercalate hmem with rfl | ⟨label, hlabel, hmem⟩
  · exact absurd hc (by decide)
  · exact host.plain label hlabel c hmem (List.mem_cons_of_mem '.' hc)

theorem text_ne_nil (host : Host) : host.text ≠ [] := by
  intro hnil
  have hlabels : split '.' host.text = host.labels := split_intercalate host.labels_ne_nil
    fun label hlabel hmem => host.plain label hlabel '.' hmem List.mem_cons_self
  have htwo := host.two
  rw [← hlabels, hnil] at htwo
  exact absurd htwo (by decide)

end Host

/-- The host alone gives its last two labels. -/
theorem nameFromUrl_of_hostOf (h : hostOf text = some host.text) :
    nameFromUrl lc text = some (lc.lower host.lastTwo) := by
  have hlabels : split '.' host.text = host.labels := split_intercalate host.labels_ne_nil
    fun label hlabel hmem => host.plain label hlabel '.' hmem List.mem_cons_self
  have htwo : ¬host.labels.length < 2 := Nat.not_lt.mpr host.two
  simp only [nameFromUrl, h, Option.bind_eq_bind, Option.bind_some, hlabels, if_neg htwo,
    host.named, Bool.false_eq_true, if_false]
  rfl

/-! ### Where the authority ends -/

namespace Surroundings

theorem spill_of_path (h : s.path ≠ none) : s.spill = [] := by
  obtain ⟨path, hpath⟩ := Option.ne_none_iff_exists'.mp h
  rw [spill, hpath]
  rfl

theorem spill_of_tail (h : s.tail = []) : s.spill = [] := by
  rw [spill, h, List.append_nil]
  cases s.path with
  | none => rfl
  | some path => rfl

theorem spill_of_no_path (h : s.path = none) : s.spill = s.tail.takeWhile (· ≠ '/') := by
  rw [spill, h]
  rfl

theorem spill_sublist (s : Surroundings) : s.spill.Sublist s.after :=
  (List.takeWhile_prefix _).sublist.trans (List.suffix_append _ _).sublist

/-- A query or a fragment begins with its delimiter. -/
theorem exists_tail_cons (h : s.tail ≠ []) : ∃ c ∈ ['?', '#'], ∃ text, s.tail = c :: text := by
  cases hquery : s.query with
  | some query => exact ⟨'?', by decide, query ++ marked '#' s.fragment, by rw [tail, hquery]; rfl⟩
  | none =>
    cases hfragment : s.fragment with
    | some fragment => exact ⟨'#', by decide, fragment, by rw [tail, hquery, hfragment]; rfl⟩
    | none => exact absurd (by rw [tail, hquery, hfragment]; rfl) h

/-- A port is no part of a path, nor an end of a userinfo. -/
theorem notMem_port (hc : c ∈ ['/', '@']) : c ∉ marked ':' s.port := by
  cases hport : s.port with
  | none => exact List.not_mem_nil
  | some port =>
    intro hmem
    rcases List.mem_cons.mp hmem with rfl | hmem
    · exact absurd hc (by decide)
    · have hdigit := s.port_plain port hport c hmem
      rcases List.mem_pair.mp hc with rfl | rfl
      · exact absurd hdigit (by decide)
      · exact absurd hdigit (by decide)

theorem notMem_before : '/' ∉ s.before := by
  rw [before]
  cases huserinfo : s.userinfo with
  | none => exact List.not_mem_nil
  | some userinfo =>
    intro hmem
    rcases List.mem_append.mp hmem with hmem | hmem
    · exact s.userinfo_plain userinfo huserinfo '/' hmem (by decide)
    · exact absurd hmem (by decide)

theorem takeWhile_schemeless (s : Surroundings) (host : Host) :
    (s.schemeless host).takeWhile (· ≠ '/') =
      s.before ++ (host.text ++ (marked ':' s.port ++ s.spill)) := by
  have hplain : ∀ {front rest : List Char}, '/' ∉ front →
      (front ++ rest).takeWhile (· ≠ '/') = front ++ rest.takeWhile (· ≠ '/') := by
    intro front rest hfront
    exact List.takeWhile_append_of_pos fun x hx => decide_eq_true fun heq => hfront (heq ▸ hx)
  rw [schemeless, List.append_assoc, hplain notMem_before,
    hplain (Host.notMem_text (by decide)), after, hplain (notMem_port (by decide))]
  rfl

/-- A scheme is found behind the host only, if at all. -/
theorem exists_after_of_schemeless (h : s.schemeless host = a ++ "://".toList ++ b) :
    ∃ front, s.after = front ++ "://".toList ++ b := by
  rw [schemeless, List.append_assoc a] at h
  rcases List.append_eq_append_iff.mp h with ⟨front, -, hafter⟩ | ⟨middle, hstart, hmiddle⟩
  · exact ⟨front, by rw [hafter, List.append_assoc]⟩
  · cases middle with
    | nil => exact ⟨[], by rw [← List.nil_append s.after, ← hmiddle]; rfl⟩
    | cons x middle =>
      exfalso
      obtain ⟨rfl, hslashes⟩ := List.cons.inj hmiddle
      cases middle with
      | nil =>
        -- the host would end in the colon
        have hlast := congrArg List.getLast? hstart
        rw [List.getLast?_append_of_ne_nil _ host.text_ne_nil, List.getLast?_concat] at hlast
        exact Host.notMem_text (by decide) (List.mem_of_getLast? hlast)
      | cons y middle =>
        obtain ⟨rfl, -⟩ := List.cons.inj hslashes
        have hslash : '/' ∈ s.before ++ host.text := by
          rw [hstart]
          exact List.mem_append_right a (List.mem_cons_of_mem _ List.mem_cons_self)
        rcases List.mem_append.mp hslash with hslash | hslash
        · exact notMem_before hslash
        · exact Host.notMem_text (by decide) hslash

/-- What is left of an address behind its scheme. -/
theorem rest_eq (h : s.scheme = none → ¬"://".toList <:+: s.after) (host : Host) :
    ((splitOnceStr "://".toList (s.url host)).map Prod.snd).getD (s.url host) =
      s.schemeless host := by
  cases hscheme : s.scheme with
  | some scheme =>
    have hcolon : ':' ∉ scheme := fun hmem =>
      s.scheme_plain scheme hscheme ':' hmem List.mem_cons_self
    have hurl : s.url host = scheme ++ "://".toList ++ s.schemeless host := by
      rw [url, hscheme]
      rfl
    have hsplit : splitOnceStr "://".toList (scheme ++ "://".toList ++ s.schemeless host) =
        some (scheme, s.schemeless host) := splitOnceStr_append hcolon
    rw [hurl, hsplit]
    rfl
  | none =>
    have hurl : s.url host = s.schemeless host := by
      rw [url, hscheme]
      rfl
    rw [hurl]
    cases hsplit : splitOnceStr "://".toList (s.schemeless host) with
    | none => rfl
    | some p =>
      obtain ⟨front, hafter⟩ := exists_after_of_schemeless (splitOnceStr_eq_some hsplit)
      exact absurd ⟨front, p.2, hafter.symm⟩ (h hscheme)

/-- A scheme that is found behind the host takes all before it away. -/
theorem rest_suffix (hscheme : s.scheme = none) (h : "://".toList <:+: s.after) (host : Host) :
    ((splitOnceStr "://".toList (s.url host)).map Prod.snd).getD (s.url host) <:+ s.after := by
  obtain ⟨front, rest, hafter⟩ := h
  have hurl : s.url host = s.before ++ host.text ++ front ++ "://".toList ++ rest := by
    rw [url, hscheme, schemeless, ← hafter]
    simp only [Option.map_none, Option.getD_none, List.nil_append, List.append_assoc]
  obtain ⟨a, b, hsplit, -⟩ := splitOnceStr_first hurl
  have hschemeless : s.schemeless host = s.url host := by
    rw [url, hscheme]
    rfl
  obtain ⟨front', hafter'⟩ :=
    exists_after_of_schemeless (hschemeless.trans (splitOnceStr_eq_some hsplit))
  rw [hsplit]
  exact ⟨front' ++ "://".toList, hafter'.symm⟩

theorem hostOf_of_spill (h : s.scheme = none → ¬"://".toList <:+: s.after) (hat : '@' ∉ s.spill)
    (host : Host) : hostOf (s.url host) =
      some (host.text ++ (marked ':' s.port ++ s.spill).takeWhile (· ≠ ':')) := by
  have hplain : '@' ∉ host.text ++ (marked ':' s.port ++ s.spill) := by
    intro hmem
    rcases List.mem_append.mp hmem with hmem | hmem
    · exact Host.notMem_text (by decide) hmem
    · rcases List.mem_append.mp hmem with hmem | hmem
      · exact notMem_port (by decide) hmem
      · exact hat hmem
  have hread : Url.hostPort (s.before ++ (host.text ++ (marked ':' s.port ++ s.spill))) =
      host.text ++ (marked ':' s.port ++ s.spill) := by
    rw [before]
    cases s.userinfo with
    | none => exact Url.hostPort_of_notMem hplain
    | some userinfo =>
      show Url.hostPort ((userinfo ++ ['@']) ++ _) = _
      rw [List.append_assoc]
      exact Url.hostPort_append_cons hplain
  have hcolon : ∀ x ∈ host.text, decide (x ≠ ':') = true := by
    intro x hx
    exact decide_eq_true fun heq => Host.notMem_text List.mem_cons_self (heq ▸ hx)
  rw [hostOf_eq, rest_eq h, takeWhile_schemeless, hread, List.takeWhile_append_of_pos hcolon]

/-- An `@` behind the host is read as the end of a userinfo. -/
theorem hostOf_of_at (h : s.scheme = none → ¬"://".toList <:+: s.after) (hat : '@' ∈ s.spill)
    (host : Host) : ∃ taken, hostOf (s.url host) = some taken ∧ taken.Sublist s.after := by
  refine ⟨_, hostOf_eq _, (List.takeWhile_prefix _).sublist.trans ?_⟩
  have happend : s.before ++ (host.text ++ (marked ':' s.port ++ s.spill)) =
      (s.before ++ (host.text ++ marked ':' s.port)) ++ s.spill := by
    simp only [List.append_assoc]
  rw [rest_eq h, takeWhile_schemeless, happend, Url.hostPort_append hat]
  exact (List.rtakeWhile_suffix _ _).sublist.trans s.spill_sublist

theorem hostOf_of_scheme (hscheme : s.scheme = none) (h : "://".toList <:+: s.after)
    (host : Host) : ∃ taken, hostOf (s.url host) = some taken ∧ taken.Sublist s.after := by
  refine ⟨_, hostOf_eq _, (List.takeWhile_prefix _).sublist.trans ?_⟩
  exact (List.rtakeWhile_suffix _ _).sublist.trans
    ((List.takeWhile_prefix _).sublist.trans (rest_suffix hscheme h host).sublist)

end Surroundings

/-! ### The name depends on the host alone -/

/-- A host that is told from anything shorter by its ones. -/
def Host.ofOnes (n : ℕ) : Host where
  labels := ['a' :: List.replicate n '1', ['b']]
  two := le_rfl
  plain := by
    intro label hlabel c hc
    rcases List.mem_pair.mp hlabel with rfl | rfl
    · rcases List.mem_cons.mp hc with rfl | hc
      · decide
      · rw [List.eq_of_mem_replicate hc]
        decide
    · rw [List.mem_singleton.mp hc]
      decide
  named := rfl

namespace Host

theorem lastTwo_ofOnes (n : ℕ) :
    (ofOnes n).lastTwo = 'a' :: (List.replicate n '1' ++ ['.', 'b']) := rfl

theorem count_ofOnes (n : ℕ) : (ofOnes n).lastTwo.count '1' = n := by
  rw [lastTwo_ofOnes, List.count_cons_of_ne (by decide), List.count_append,
    List.count_replicate_self]
  rfl

theorem notMem_ofOnes {n : ℕ} (hc : c ∈ ['?', '#']) : c ∉ (ofOnes n).lastTwo := by
  have htext : (ofOnes n).lastTwo = (ofOnes n).text := rfl
  rw [htext]
  exact notMem_text (List.mem_cons_of_mem _ (List.mem_cons_of_mem _
    (List.mem_append_left ['@'] hc)))

end Host

/-- A name that was read behind the host is not that of every host. -/
theorem ofOnes_ne_of_sublist {n : ℕ} (hn : text.count '1' < n) (h : a.Sublist text) :
    lc.lower a ≠ lc.lower (Host.ofOnes n).lastTwo := by
  intro heq
  have hcount := congrArg (List.count '1') heq
  rw [lc.keeps '1' (by decide) (by decide), lc.keeps '1' (by decide) (by decide)] at hcount
  have hones := Host.count_ofOnes n
  have hle := h.count_le '1'
  omega

namespace Surroundings

theorem not_forall_of_sublist (h : ∀ host, ∃ taken, hostOf (s.url host) = some taken ∧
    taken.Sublist s.after) :
    ¬∀ host : Host, nameFromUrl lc (s.url host) = some (lc.lower host.lastTwo) := by
  intro hnames
  obtain ⟨taken, htaken, hsublist⟩ := h (Host.ofOnes (s.after.count '1' + 1))
  obtain ⟨_, ending, htaken', hending, hname⟩ := exists_suffix_of_nameFromUrl (hnames _)
  obtain rfl := Option.some.inj (htaken.symm.trans htaken')
  exact ofOnes_ne_of_sublist (Nat.lt_succ_self _) (hending.sublist.trans hsublist) hname.symm

/-- Without a port a query or a fragment is read as part of the last label. -/
theorem not_forall_of_no_port (h : s.scheme = none → ¬"://".toList <:+: s.after)
    (hat : '@' ∉ s.spill) (hport : s.port = none) (hpath : s.path = none) (htail : s.tail ≠ []) :
    ¬∀ host : Host, nameFromUrl lc (s.url host) = some (lc.lower host.lastTwo) := by
  intro hnames
  obtain ⟨mark, hmark, rest, htailrest⟩ := exists_tail_cons htail
  obtain ⟨kept, hkept⟩ : ∃ kept, (marked ':' s.port ++ s.spill).takeWhile (· ≠ ':') =
      mark :: kept := by
    rw [hport, spill_of_no_path hpath, htailrest]
    rcases List.mem_pair.mp hmark with rfl | rfl
    · exact ⟨_, rfl⟩
    · exact ⟨_, rfl⟩
  have hsublist : (mark :: kept).Sublist s.after := by
    rw [← hkept, hport]
    exact (List.takeWhile_prefix _).sublist.trans s.spill_sublist
  obtain ⟨_, ending, htaken, hending, hname⟩ :=
    exists_suffix_of_nameFromUrl (hnames (Host.ofOnes (s.after.count '1' + 1)))
  rw [hostOf_of_spill h hat, hkept] at htaken
  obtain rfl := Option.some.inj htaken
  rcases List.suffix_or_suffix_of_suffix hending (List.suffix_append _ _) with
    hbehind | hwhole
  · exact ofOnes_ne_of_sublist (Nat.lt_succ_self _) (hbehind.sublist.trans hsublist) hname.symm
  · -- the name holds the delimiter, which no host does
    have hascii : mark.toNat < 128 ∧ mark.isAlpha = false := by
      rcases List.mem_pair.mp hmark with rfl | rfl <;> decide
    have hcount := congrArg (List.count mark) hname
    rw [lc.keeps mark hascii.1 hascii.2, lc.keeps mark hascii.1 hascii.2,
      List.count_eq_zero_of_not_mem (Host.notMem_ofOnes hmark)] at hcount
    have hmem : mark ∈ ending := hwhole.subset List.mem_cons_self
    exact List.count_eq_zero.mp hcount.symm hmem

end Surroundings

/-- Every host gives its last two labels exactly where the parts around it are delimited. -/
theorem nameFromUrl_iff (lc : Lowercase) (s : Surroundings) :
    (∀ host : Host, nameFromUrl lc (s.url host) = some (lc.lower host.lastTwo)) ↔
      s.Delimited := by
  constructor
  · intro hnames
    have hscheme : s.scheme = none → ¬"://".toList <:+: s.after := by
      intro hnone hinfix
      exact Surroundings.not_forall_of_sublist
        (fun host => Surroundings.hostOf_of_scheme hnone hinfix host) hnames
    refine ⟨hscheme, fun hpath htail => ?_⟩
    have hat : '@' ∉ s.spill := by
      intro hmem
      exact Surroundings.not_forall_of_sublist
        (fun host => Surroundings.hostOf_of_at hscheme hmem host) hnames
    refine ⟨fun hport => ?_, Surroundings.spill_of_no_path hpath ▸ hat⟩
    exact Surroundings.not_forall_of_no_port hscheme hat hport hpath htail hnames
  · intro hdelimited host
    apply nameFromUrl_of_hostOf
    have hspill : s.spill = [] ∨ s.port ≠ none ∧ '@' ∉ s.spill := by
      by_cases hpath : s.path = none
      · by_cases htail : s.tail = []
        · exact .inl (Surroundings.spill_of_tail htail)
        · rw [Surroundings.spill_of_no_path hpath]
          exact .inr (hdelimited.authority hpath htail)
      · exact .inl (Surroundings.spill_of_path hpath)
    have hat : '@' ∉ s.spill := by
      rcases hspill with hnil | ⟨-, hat⟩
      · rw [hnil]
        exact List.not_mem_nil
      · exact hat
    have hends : (marked ':' s.port ++ s.spill).takeWhile (· ≠ ':') = [] := by
      cases hport : s.port with
      | some port => rfl
      | none =>
        rcases hspill with hnil | ⟨hsome, -⟩
        · rw [hnil]
          rfl
        · exact absurd hport hsome
    rw [Surroundings.hostOf_of_spill hdelimited.scheme hat, hends, List.append_nil]

/-! ### A query without a path -/

theorem toLower_of_not_isUpper {x : Char} (h : x.isUpper = false) : x.toLower = x := by
  have hrange : ¬(x.val ≥ 'A'.val ∧ x.val ≤ 'Z'.val) := of_decide_eq_false h
  exact dif_neg hrange

theorem isAlpha_toLower {x : Char} (h : x.isUpper = true) : x.toLower.isAlpha = true := by
  have hrange : x.val ≥ 'A'.val ∧ x.val ≤ 'Z'.val := of_decide_eq_true h
  have hge : 65 ≤ x.val.toNat := UInt32.le_iff_toNat_le.mp hrange.1
  have hle : x.val.toNat ≤ 90 := UInt32.le_iff_toNat_le.mp hrange.2
  have hlower : x.toLower.val = x.val + ('a'.val - 'A'.val) := congrArg Char.val (dif_pos hrange)
  have hval : x.toLower.val.toNat = x.val.toNat + 32 := by
    have hoffset : ('a'.val - 'A'.val).toNat = 32 := rfl
    rw [hlower, UInt32.toNat_add, hoffset]
    exact Nat.mod_eq_of_lt (by omega)
  have hfirst : 'a'.val ≤ x.toLower.val := by
    apply UInt32.le_iff_toNat_le.mpr
    rw [hval]
    show 97 ≤ x.val.toNat + 32
    omega
  have hlast : x.toLower.val ≤ 'z'.val := by
    apply UInt32.le_iff_toNat_le.mpr
    rw [hval]
    show x.val.toNat + 32 ≤ 122
    omega
  have hletter : x.toLower.isLower = true :=
    Bool.and_eq_true_iff.mpr ⟨decide_eq_true hfirst, decide_eq_true hlast⟩
  exact Bool.or_eq_true_iff.mpr (.inr hletter)

/-- A letter goes to a letter, and anything else stays. -/
theorem toLower_eq_iff {x : Char} (hc : c.isAlpha = false) : x.toLower = c ↔ x = c := by
  cases hx : x.isUpper with
  | false => rw [toLower_of_not_isUpper hx]
  | true =>
    constructor
    · rintro rfl
      rw [isAlpha_toLower hx] at hc
      cases hc
    · rintro rfl
      have halpha : x.isAlpha = true := Bool.or_eq_true_iff.mpr (.inl hx)
      rw [halpha] at hc
      cases hc

/-- Lower case where nothing stands outside ASCII. -/
def Lowercase.ofAscii : Lowercase where
  lower := List.map Char.toLower
  ascii _ _ := rfl
  keeps := by
    intro c _ hc text
    rw [List.count_eq_countP, List.count_eq_countP, List.countP_map]
    refine List.countP_congr fun x _ => ?_
    simp [toLower_eq_iff hc]

/-- The address `https://app.example.com?x=1`, but for the host. -/
def Surroundings.ofQuery : Surroundings where
  scheme := some "https".toList
  userinfo := none
  port := none
  path := none
  query := some "x=1".toList
  fragment := none
  scheme_plain := by
    intro text htext
    obtain rfl := Option.some.inj htext
    exact List.all_iff_forall_prop.mp (by decide)
  userinfo_plain := nofun
  port_plain := nofun
  path_plain := nofun
  query_plain := by
    intro text htext
    obtain rfl := Option.some.inj htext
    decide

def Host.ofApp : Host where
  labels := ["app".toList, "example".toList, "com".toList]
  two := by decide
  plain := by
    have hall : (["app".toList, "example".toList, "com".toList].all fun label =>
      label.all fun c => !(['.', ':', '/', '?', '#', '@'].contains c)) = true := by decide
    intro label hlabel c hc
    simpa using List.all_eq_true.mp (List.all_eq_true.mp hall label hlabel) c hc
  named := by decide

/-- The query is read as part of the last label. -/
theorem not_nameFromUrl_query :
    Surroundings.ofQuery.url Host.ofApp = "https://app.example.com?x=1".toList ∧
      nameFromUrl .ofAscii (Surroundings.ofQuery.url Host.ofApp) = some "example.com?x=1".toList ∧
      ¬∀ (lc : Lowercase) (s : Surroundings) (host : Host),
        nameFromUrl lc (s.url host) = some (lc.lower host.lastTwo) := by
  have hread : nameFromUrl .ofAscii (Surroundings.ofQuery.url Host.ofApp) =
      some "example.com?x=1".toList := by decide +kernel
  refine ⟨by decide +kernel, hread, fun h => ?_⟩
  have hname := hread.symm.trans (h .ofAscii .ofQuery .ofApp)
  exact absurd hname (by decide +kernel)

end Kuma.Nostr
