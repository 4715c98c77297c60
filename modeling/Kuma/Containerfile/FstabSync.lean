import Kuma.Lib.Text

/-! The converger that comments out a root entry of `/etc/fstab`, line by line in awk, and the test
by which the doctor decides whether there is one. -/
namespace Kuma.Containerfile.FstabSync
open Kuma.Lib Kuma.Lib.Text

/-- The records of a file: a last line needs no newline. -/
def records (text : List Char) : List (List Char) :=
  let pieces := split '\n' text
  pieces.dropLast ++ (pieces.getLast?.filter (· ≠ [])).toList

def isSeparator (c : Char) : Bool := c == ' ' || c == '\t' || c == '\n'

def fields (record : List Char) : List (List Char) :=
  (record.splitOnP isSeparator).filter (· ≠ [])

/-- `$1` is field 0. A field past the last is empty. -/
def field (record : List Char) (i : ℕ) : List Char := (fields record).getD i []

/-- `$1 !~ /^#/ && $2 == "/"` -/
def isRoot (record : List Char) : Bool :=
  (field record 0).head? != some '#' && field record 1 == ['/']

def NOTE : List (List Char) :=
  ["# Commented out by kuma-fstab-sync: this machine boots a composefs",
    "# overlay, and systemd-remount-fs fails every boot trying to remount",
    "# / with the options below. Uncomment only if / stops being an overlay."].map String.toList

def edit (record : List Char) : List (List Char) :=
  if isRoot record then NOTE ++ ['#' :: record] else [record]

/-- The awk program, whose `print` ends every line. -/
def pass (text : List Char) : List Char := ofLines ((records text).flatMap edit)

/-- `FSTAB_SYNC_SCRIPT`, over the file where there is one and the type of the mounted root. -/
def fstabSync (fstype : String) (fstab : Option (List Char)) : Option (List Char) :=
  match fstab with
  | none => none
  | some text =>
    if fstype ≠ "overlay" then some text
    else if text = pass text then some text
    else some (pass text)

/-- `fstab_declares_root` -/
def fstabDeclaresRoot (text : List Char) : Bool :=
  (lines text).any fun line =>
    match words line with
    | dev :: target :: _ => dev.head? != some '#' && target == ['/']
    | _ => false

/-- A text with no white space but spaces, tabs and newlines. -/
def Plain (text : List Char) : Prop := ∀ c ∈ text, isWhiteSpace c = true → isSeparator c = true

instance (text : List Char) : Decidable (Plain text) :=
  List.decidableBAll _ text

variable {text line : List Char} {ls : List (List Char)}

/-! ### One line in two languages -/

theorem isWhiteSpace_of_isSeparator {c : Char} (h : isSeparator c = true) :
    isWhiteSpace c = true := by
  simp only [isSeparator, Bool.or_eq_true, beq_iff_eq] at h
  rcases h with (rfl | rfl) | rfl <;> decide

theorem splitOnP_congr {p q : Char → Bool} (h : ∀ c ∈ text, p c = q c) :
    text.splitOnP p = text.splitOnP q := by
  induction text with
  | nil => rfl
  | cons c text ih =>
    have hrest := ih fun d hd => h d (List.mem_cons_of_mem c hd)
    rw [List.splitOnP_cons_eq_if_modifyHead, List.splitOnP_cons_eq_if_modifyHead, h c List.mem_cons_self, hrest]

theorem words_eq_fields (h : Plain line) : words line = fields line := by
  unfold words fields
  rw [splitOnP_congr]
  intro c hc
  cases hwhite : isWhiteSpace c with
  | true => exact (h c hc hwhite).symm
  | false =>
    cases hsep : isSeparator c with
    | false => rfl
    | true => exact absurd (isWhiteSpace_of_isSeparator hsep) (by rw [hwhite]; decide)

theorem matches_iff (line : List Char) :
    (match fields line with
      | dev :: target :: _ => dev.head? != some '#' && target == ['/']
      | _ => false) = isRoot line := by
  unfold isRoot field
  cases fields line with
  | nil => rfl
  | cons dev rest =>
    cases rest with
    | nil => simp
    | cons target rest => rfl

/-- A line behind a hash has a first field that starts with one. -/
theorem isRoot_hash (line : List Char) : isRoot ('#' :: line) = false := by
  have hpiece : ∃ rest pieces, ('#' :: line).splitOnP isSeparator = ('#' :: rest) :: pieces := by
    obtain ⟨rest, pieces, hrest⟩ :=
      List.exists_cons_of_ne_nil (List.splitOnP_ne_nil isSeparator line)
    refine ⟨rest, pieces, ?_⟩
    rw [List.splitOnP_cons_eq_if_modifyHead, if_neg (by decide), hrest, List.modifyHead_cons]
  obtain ⟨rest, pieces, hpiece⟩ := hpiece
  have hfield : field ('#' :: line) 0 = '#' :: rest := by
    simp [field, fields, hpiece]
  simp [isRoot, hfield]

theorem isRoot_of_mem_edit {record : List Char} (h : line ∈ edit record) : isRoot line = false := by
  have hnote : ∀ line ∈ NOTE, isRoot line = false := by decide +kernel
  unfold edit at h
  split_ifs at h with hroot
  · rcases List.mem_append.mp h with h | h
    · exact hnote line h
    · obtain rfl := List.mem_singleton.mp h
      exact isRoot_hash record
  · obtain rfl := List.mem_singleton.mp h
    exact Bool.eq_false_iff.mpr hroot

theorem edit_eq_self_iff : edit line = [line] ↔ isRoot line = false := by
  unfold edit
  split_ifs with hroot
  · simp [hroot, NOTE]
  · simp [hroot]

/-! ### The lines of a text -/

theorem newline_notMem_records (h : line ∈ records text) : '\n' ∉ line := by
  rcases List.mem_append.mp h with h | h
  · exact notMem_split (List.dropLast_subset _ h)
  · rw [Option.mem_toList] at h
    exact notMem_split (List.mem_of_getLast? (Option.mem_filter_iff.mp h).1)

theorem newline_notMem_edit {record : List Char} (hrecord : '\n' ∉ record)
    (h : line ∈ edit record) : '\n' ∉ line := by
  have hnote : ∀ line ∈ NOTE, '\n' ∉ line := by decide +kernel
  unfold edit at h
  split_ifs at h
  · rcases List.mem_append.mp h with h | h
    · exact hnote line h
    · obtain rfl := List.mem_singleton.mp h
      simpa using hrecord
  · obtain rfl := List.mem_singleton.mp h
    exact hrecord

theorem records_ofLines (h : ∀ l ∈ ls, '\n' ∉ l) : records (ofLines ls) = ls := by
  unfold records
  rw [split_ofLines h]
  simp

theorem records_pass (text : List Char) :
    records (pass text) = (records text).flatMap edit := by
  refine records_ofLines fun line hline => ?_
  obtain ⟨record, hrecord, hline⟩ := List.mem_flatMap.mp hline
  exact newline_notMem_edit (newline_notMem_records hrecord) hline

/-- Without a carriage return both languages have the same lines. -/
theorem lines_eq_records (h : Plain text) : lines text = records text := by
  have hreturn : ∀ piece ∈ split '\n' text, dropReturn piece = piece := by
    intro piece hpiece
    unfold dropReturn
    refine if_neg fun hlast => ?_
    have hmem := mem_of_mem_split hpiece (List.mem_of_getLast? hlast)
    exact absurd (h _ hmem (by decide)) (by decide)
  have hmap : (split '\n' text).dropLast.map dropReturn = (split '\n' text).dropLast :=
    (List.map_congr_left fun piece hpiece => hreturn piece (List.dropLast_subset _ hpiece)).trans
      (List.map_id' _)
  simp only [lines, records, hmap]

theorem fstabDeclaresRoot_iff (h : Plain text) :
    fstabDeclaresRoot text = true ↔ ∃ line ∈ records text, isRoot line = true := by
  unfold fstabDeclaresRoot
  rw [List.any_eq_true, ← lines_eq_records h]
  refine exists_congr fun line => and_congr_right fun hline => ?_
  have hplain : Plain line := fun c hc => h c (mem_of_mem_lines hline hc)
  rw [words_eq_fields hplain, matches_iff]

/-- What is written is as plain as what was read. -/
theorem plain_pass (h : Plain text) : Plain (pass text) := by
  have hnote : ∀ line ∈ NOTE, Plain line := by decide +kernel
  have hkept : ∀ record ∈ records text, Plain record := by
    intro record hrecord c hc
    rw [← lines_eq_records h] at hrecord
    exact h c (mem_of_mem_lines hrecord hc)
  intro c hc hwhite
  obtain ⟨line, hline, hc⟩ := List.mem_flatMap.mp hc
  obtain ⟨record, hrecord, hline⟩ := List.mem_flatMap.mp hline
  have hline : Plain line := by
    unfold edit at hline
    split_ifs at hline
    · rcases List.mem_append.mp hline with hline | hline
      · exact hnote line hline
      · obtain rfl := List.mem_singleton.mp hline
        intro d hd hblank
        rcases List.mem_cons.mp hd with rfl | hd
        · exact absurd hblank (by decide)
        · exact hkept record hrecord d hd hblank
    · obtain rfl := List.mem_singleton.mp hline
      exact hkept line hrecord
  rcases List.mem_append.mp hc with hc | hc
  · exact hline c hc hwhite
  · obtain rfl := List.mem_singleton.mp hc
    rfl

theorem fstabSync_overlay (text : List Char) :
    fstabSync "overlay" (some text) = some (pass text) := by
  show (if "overlay" ≠ "overlay" then some text
    else if text = pass text then some text else some (pass text)) = some (pass text)
  rw [if_neg (fun hne => hne rfl)]
  split_ifs with hsame
  · rw [← hsame]
  · rfl

theorem isRoot_of_mem_pass (h : line ∈ records (pass text)) : isRoot line = false := by
  rw [records_pass] at h
  obtain ⟨record, -, hline⟩ := List.mem_flatMap.mp h
  exact isRoot_of_mem_edit hline

theorem pass_pass (text : List Char) : pass (pass text) = pass text := by
  have hsame : ∀ line ∈ (records text).flatMap edit, edit line = [line] := fun line hline =>
    edit_eq_self_iff.mpr (isRoot_of_mem_pass (records_pass text ▸ hline))
  show ofLines ((records (pass text)).flatMap edit) = ofLines ((records text).flatMap edit)
  rw [records_pass, List.flatMap_congr hsame, List.flatMap_singleton']

/-- The converger and the doctor see the same lines, and one pass of the one leaves none for the
other. -/
theorem fstabSync_spec (h : Plain text) : ∃ after,
    fstabSync "overlay" (some text) = some after ∧
    (fstabDeclaresRoot text = true ↔ ∃ line ∈ records text, edit line ≠ [line]) ∧
    fstabDeclaresRoot after = false ∧
    fstabSync "overlay" (some after) = some after ∧
    records after = (records text).flatMap edit ∧
    ((records text).map fun line => if isRoot line then '#' :: line else line).Sublist
      (records after) := by
  refine ⟨pass text, fstabSync_overlay text, ?_, ?_, ?_, records_pass text, ?_⟩
  · rw [fstabDeclaresRoot_iff h]
    refine exists_congr fun line => and_congr_right fun _ => ?_
    rw [ne_eq, edit_eq_self_iff, Bool.not_eq_false]
  · refine Bool.eq_false_iff.mpr fun hroot => ?_
    obtain ⟨line, hline, hroot⟩ := (fstabDeclaresRoot_iff (plain_pass h)).mp hroot
    rw [isRoot_of_mem_pass hline] at hroot
    cases hroot
  · rw [fstabSync_overlay, pass_pass]
  · rw [records_pass]
    induction records text with
    | nil => exact List.Sublist.refl []
    | cons line rest ih =>
      rw [List.map_cons, List.flatMap_cons]
      unfold edit
      split_ifs
      · exact (List.sublist_append_right NOTE ['#' :: line]).append ih
      · exact ih.cons_cons line

theorem fstabSync_anaconda : ∃ after,
    fstabSync "overlay" (some "UUID=86bf / btrfs subvol=root 0 0\nUUID=4de4 /boot ext4".toList) =
      some after ∧ fstabDeclaresRoot after = false := by
  have hplain : Plain "UUID=86bf / btrfs subvol=root 0 0\nUUID=4de4 /boot ext4".toList := by
    decide +kernel
  obtain ⟨after, hsync, -, hroot, -⟩ := fstabSync_spec hplain
  exact ⟨after, hsync, hroot⟩

end Kuma.Containerfile.FstabSync
