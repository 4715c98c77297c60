import Mathlib.Data.List.Basic

/-! Scripts under `set -e`, command by command. A run may be cut after any command, so the
weakest precondition carries a condition for every state on the way beside the two for the
end: one for a script that went through, one for a script that failed. -/
namespace Kuma.Lib

/-- A script over a state. A command says what it does and whether it exits zero. -/
inductive Script (σ : Type)
  | done
  | command (act : σ → σ × Bool)
  /-- `first; rest` under `set -e` -/
  | seq (first rest : Script σ)
  /-- `first || second` -/
  | orElse (first second : Script σ)
  /-- a script that depends on what it finds -/
  | look (next : σ → Script σ)

namespace Script

variable {σ α : Type}

/-- The states after each command of a run, and the exit status. -/
def exec : Script σ → σ → List σ × Bool
  | .done, _ => ([], true)
  | .command act, s => ([(act s).1], (act s).2)
  | .seq first rest, s =>
    let ran := first.exec s
    if ran.2 then
      let more := rest.exec (ran.1.getLastD s)
      (ran.1 ++ more.1, more.2)
    else ran
  | .orElse first second, s =>
    let ran := first.exec s
    if ran.2 then ran
    else
      let more := second.exec (ran.1.getLastD s)
      (ran.1 ++ more.1, more.2)
  | .look next, s => (next s).exec s

/-- The state in which a whole run ends. -/
def final (S : Script σ) (s : σ) : σ := (S.exec s).1.getLastD s

/-- The state of a run that died after so many commands. -/
def cut (k : ℕ) (S : Script σ) (s : σ) : σ := ((S.exec s).1.take k).getLastD s

/-- `S || true`. -/
def tolerate (S : Script σ) : Script σ := S.orElse .done

/-- A loop over words that are known when it starts. -/
def each (body : α → Script σ) : List α → Script σ
  | [] => .done
  | x :: xs => (body x).seq (each body xs)

/-- `exit 1`. -/
def fail : Script σ := .command fun s => (s, false)

/-- A command that goes through when nothing outside stops it and the state lets it. -/
def guarded (works : Bool) (able : σ → Bool) (act : σ → σ) : Script σ :=
  .command fun s => if works && able s then (act s, true) else (s, false)

/-- Commands one after another. -/
def block (commands : List (Script σ)) : Script σ := each id commands

/-- `trap cleanup EXIT` over a script, taken back after it. -/
def unwind (S cleanup : Script σ) : Script σ := S.orElse (cleanup.seq fail)

/-- `trap cleanup EXIT` over the rest of a script. -/
def trapped (S cleanup : Script σ) : Script σ := (S.unwind cleanup).seq cleanup

/-- The state that a run leaves, or a run that died after so many commands. -/
def after (died : Option ℕ) (S : Script σ) (s : σ) : σ :=
  match died with
  | none => S.final s
  | some k => S.cut k s

/-- Every state on the way meets `C`, the end meets `Q` after success and `F` after failure. -/
def wp (C : σ → Prop) : Script σ → (σ → Prop) → (σ → Prop) → σ → Prop
  | .done, Q, _, s => Q s
  | .command act, Q, F, s => C (act s).1 ∧ if (act s).2 then Q (act s).1 else F (act s).1
  | .seq first rest, Q, F, s => first.wp C (rest.wp C Q F) F s
  | .orElse first second, Q, F, s => first.wp C Q (second.wp C Q F) s
  | .look next, Q, F, s => (next s).wp C Q F s

variable {C Q Q' F F' : σ → Prop} {S first rest second : Script σ} {s : σ}

theorem getLastD_append (l l' : List σ) : (l ++ l').getLastD s = l'.getLastD (l.getLastD s) := by
  cases l' with
  | nil => simp
  | cons x xs => simp [List.getLastD_eq_getLast?, List.getLast?_append]

theorem wp_mono (hQ : ∀ s, Q s → Q' s) (hF : ∀ s, F s → F' s) (h : S.wp C Q F s) :
    S.wp C Q' F' s := by
  induction S generalizing Q Q' F F' s with
  | done => exact hQ s h
  | command act =>
    refine ⟨h.1, ?_⟩
    have hend := h.2
    split_ifs at hend ⊢
    · exact hQ _ hend
    · exact hF _ hend
  | seq first rest hfirst hrest => exact hfirst (fun s => hrest hQ hF) hF h
  | orElse first second hfirst hsecond => exact hfirst hQ (fun s => hsecond hQ hF) h
  | look next hnext => exact hnext s hQ hF h

/-- The condition on the way may be weakened. -/
theorem wp_of_le {C' : σ → Prop} (hC : ∀ s, C s → C' s) (h : S.wp C Q F s) : S.wp C' Q F s := by
  induction S generalizing Q F s with
  | done => exact h
  | command act => exact ⟨hC _ h.1, h.2⟩
  | seq first rest hfirst hrest =>
    exact hfirst (wp_mono (fun s => hrest) (fun _ => id) h)
  | orElse first second hfirst hsecond =>
    exact hfirst (wp_mono (fun _ => id) (fun s => hsecond) h)
  | look next hnext => exact hnext s h

/-- What two preconditions say of a run, both say together. -/
theorem wp_and {C' : σ → Prop} (h : S.wp C Q F s) (h' : S.wp C' Q' F' s) :
    S.wp (fun s => C s ∧ C' s) (fun s => Q s ∧ Q' s) (fun s => F s ∧ F' s) s := by
  induction S generalizing Q Q' F F' s with
  | done => exact ⟨h, h'⟩
  | command act =>
    refine ⟨⟨h.1, h'.1⟩, ?_⟩
    have hend := h.2
    have hend' := h'.2
    split_ifs at hend hend' ⊢
    · exact ⟨hend, hend'⟩
    · exact ⟨hend, hend'⟩
  | seq first rest hfirst hrest =>
    show first.wp _ (rest.wp _ _ _) _ s
    exact wp_mono (fun s hs => hrest hs.1 hs.2) (fun _ => id) (hfirst h h')
  | orElse first second hfirst hsecond =>
    show first.wp _ _ (second.wp _ _ _) s
    exact wp_mono (fun _ => id) (fun s hs => hsecond hs.1 hs.2) (hfirst h h')
  | look next hnext => exact hnext s h h'

theorem exec_seq_of_ok (h : (first.exec s).2 = true) : (first.seq rest).exec s =
    ((first.exec s).1 ++ (rest.exec (first.final s)).1, (rest.exec (first.final s)).2) := by
  simp only [exec, h, if_true, final]

theorem exec_seq_of_failed (h : (first.exec s).2 = false) :
    (first.seq rest).exec s = first.exec s := by
  simp only [exec, h, Bool.false_eq_true, if_false]

theorem exec_orElse_of_ok (h : (first.exec s).2 = true) :
    (first.orElse second).exec s = first.exec s := by
  simp only [exec, h, if_true]

theorem exec_orElse_of_failed (h : (first.exec s).2 = false) : (first.orElse second).exec s =
    ((first.exec s).1 ++ (second.exec (first.final s)).1, (second.exec (first.final s)).2) := by
  simp only [exec, h, Bool.false_eq_true, if_false, final]

/-- The precondition is sound: it covers every command of a run, and its end. -/
theorem wp_sound (h : S.wp C Q F s) :
    (∀ s' ∈ (S.exec s).1, C s') ∧ ((S.exec s).2 = true → Q (S.final s)) ∧
      ((S.exec s).2 = false → F (S.final s)) := by
  induction S generalizing Q F s with
  | done =>
    exact ⟨fun s' hs' => (List.not_mem_nil hs').elim, fun _ => h, fun hfailed => nomatch hfailed⟩
  | command act =>
    obtain ⟨hstate, hend⟩ := h
    refine ⟨by simpa [exec] using hstate, fun hok => ?_, fun hfailed => ?_⟩
    · change (act s).2 = true at hok
      simpa [final, exec, hok] using hend
    · change (act s).2 = false at hfailed
      simpa [final, exec, hfailed] using hend
  | seq first rest hfirst hrest =>
    obtain ⟨halways, hok, hfailed⟩ := hfirst h
    cases hstatus : (first.exec s).2 with
    | false =>
      rw [final, exec_seq_of_failed hstatus]
      exact ⟨halways, (fun hok => nomatch hstatus.symm.trans hok), hfailed⟩
    | true =>
      obtain ⟨hmore, hlast⟩ := hrest (hok hstatus)
      rw [final, exec_seq_of_ok hstatus, getLastD_append]
      refine ⟨fun s' hs' => ?_, hlast⟩
      exact (List.mem_append.mp hs').elim (halways s') (hmore s')
  | orElse first second hfirst hsecond =>
    obtain ⟨halways, hok, hfailed⟩ := hfirst h
    cases hstatus : (first.exec s).2 with
    | true =>
      rw [final, exec_orElse_of_ok hstatus]
      exact ⟨halways, hok, fun hfailed => nomatch hstatus.symm.trans hfailed⟩
    | false =>
      obtain ⟨hmore, hlast⟩ := hsecond (hfailed hstatus)
      rw [final, exec_orElse_of_failed hstatus, getLastD_append]
      refine ⟨fun s' hs' => ?_, hlast⟩
      exact (List.mem_append.mp hs').elim (halways s') (hmore s')
  | look next hnext => exact hnext s h

/-- A run that dies is in a state on its way, or where it started. -/
theorem cut_of_wp (h : S.wp C Q F s) (hs : C s) (k : ℕ) : C (S.cut k s) := by
  unfold cut
  rcases List.eq_nil_or_concat ((S.exec s).1.take k) with hnil | ⟨init, last, hlast⟩
  · simpa [hnil] using hs
  · have hmem : last ∈ (S.exec s).1.take k := by simp [hlast]
    simpa [hlast, getLastD_append] using (wp_sound h).1 last (List.mem_of_mem_take hmem)

/-- A run ends in what both of its ends have in common. -/
theorem final_of_wp_wp (h : S.wp C Q Q s) : Q (S.final s) := by
  cases hstatus : (S.exec s).2 with
  | true => exact (wp_sound h).2.1 hstatus
  | false => exact (wp_sound h).2.2 hstatus

/-- However a run ends, it ends in a state on its way, or where it started. -/
theorem after_of_wp (h : S.wp C C C s) (hs : C s) (died : Option ℕ) : C (S.after died s) := by
  cases died with
  | some k => exact cut_of_wp h hs k
  | none => exact final_of_wp_wp h

/-- A script whose failures are excluded goes through. -/
theorem ok_of_wp (h : S.wp C Q (fun _ => False) s) : (S.exec s).2 = true := by
  obtain ⟨-, -, hfailed⟩ := wp_sound h
  cases hstatus : (S.exec s).2 with
  | true => rfl
  | false => exact (hfailed hstatus).elim

/-- A script whose failures are excluded ends in its first postcondition. -/
theorem final_of_wp (h : S.wp C Q (fun _ => False) s) : Q (S.final s) :=
  (wp_sound h).2.1 (ok_of_wp h)

theorem wp_seq (h : first.wp C (rest.wp C Q F) F s) : (first.seq rest).wp C Q F s := h

theorem wp_tolerate (h : S.wp C Q Q s) : (tolerate S).wp C Q F s := h

theorem wp_fail (hs : C s) (hF : F s) : (fail : Script σ).wp C Q F s :=
  ⟨hs, by simpa [fail] using hF⟩

theorem wp_guarded {works : Bool} {able : σ → Bool} {act : σ → σ} (hfailed : C s ∧ F s)
    (hdone : works = true → able s = true → C (act s) ∧ Q (act s)) :
    (guarded works able act).wp C Q F s := by
  unfold guarded
  by_cases hgo : (works && able s) = true
  · obtain ⟨hworks, hable⟩ := (Bool.and_eq_true _ _).mp hgo
    simpa [wp, hgo] using hdone hworks hable
  · simpa [wp, hgo] using hfailed

theorem wp_guarded_of_able {works : Bool} {able : σ → Bool} {act : σ → σ} (hworks : works = true)
    (hable : able s = true) (h : C (act s) ∧ Q (act s)) : (guarded works able act).wp C Q F s := by
  unfold guarded
  simpa [wp, hworks, hable] using h

theorem wp_guarded_of_not_able {works : Bool} {able : σ → Bool} {act : σ → σ}
    (hable : able s = false) (h : C s ∧ F s) : (guarded works able act).wp C Q F s := by
  unfold guarded
  simpa [wp, hable] using h

theorem wp_unwind {cleanup : Script σ}
    (h : S.wp C Q (cleanup.wp C (fail.wp C Q F) F) s) : (S.unwind cleanup).wp C Q F s := h

/-- What a script leaves, the trap takes up, however the script ends. -/
theorem wp_trapped {cleanup : Script σ} {G G' : σ → Prop} (h : S.wp C G G' s)
    (hok : ∀ s, G s → cleanup.wp C Q F s)
    (hfailed : ∀ s, G' s → cleanup.wp C (fun s => C s ∧ F s) F s) :
    (S.trapped cleanup).wp C Q F s := by
  refine wp_seq (wp_unwind (wp_mono hok (fun s hs => ?_) h))
  exact wp_mono (fun s hs => wp_fail hs.1 hs.2) (fun _ => id) (hfailed s hs)

theorem wp_block_cons {rest : List (Script σ)} (h : S.wp C ((block rest).wp C Q F) F s) :
    (block (S :: rest)).wp C Q F s := h

/-- The loop rule: what one round makes of the invariant, from the words left to those left
after it. -/
theorem wp_each {body : α → Script σ} {I : List α → σ → Prop} {xs : List α}
    (hbody : ∀ x rest s, I (x :: rest) s → (body x).wp C (I rest) F s) (h : I xs s) :
    (each body xs).wp C (I []) F s := by
  induction xs generalizing s with
  | nil => exact h
  | cons x xs ih =>
    change (body x).wp C ((each body xs).wp C (I []) F) F s
    exact wp_mono (fun s => ih) (fun _ => id) (hbody x xs s h)

/-- Every command of a script keeps `I`, wherever the script starts from it. -/
def Keeps (I : σ → Prop) (S : Script σ) : Prop := ∀ s, I s → S.wp I I I s

section
variable {I : σ → Prop}

theorem keeps_done : Keeps I (.done : Script σ) := fun _ => id

theorem keeps_command {act : σ → σ × Bool} (h : ∀ s, I s → I (act s).1) :
    Keeps I (.command act) := fun s hs => ⟨h s hs, by split_ifs <;> exact h s hs⟩

theorem keeps_guarded {works : Bool} {able : σ → Bool} {act : σ → σ}
    (h : ∀ s, I s → able s = true → I (act s)) : Keeps I (guarded works able act) :=
  fun s hs => wp_guarded ⟨hs, hs⟩ fun _ hable => ⟨h s hs hable, h s hs hable⟩

theorem keeps_fail : Keeps I (.fail : Script σ) := keeps_command fun _ => id

theorem Keeps.seq (hfirst : Keeps I first) (hrest : Keeps I rest) : Keeps I (first.seq rest) :=
  fun s hs => wp_seq (wp_mono hrest (fun _ => id) (hfirst s hs))

theorem Keeps.orElse (hfirst : Keeps I first) (hsecond : Keeps I second) :
    Keeps I (first.orElse second) := by
  intro s hs
  show first.wp I I (second.wp I I I) s
  exact wp_mono (fun _ => id) hsecond (hfirst s hs)

theorem Keeps.tolerate (h : Keeps I S) : Keeps I (tolerate S) := h.orElse keeps_done

theorem keeps_look {next : σ → Script σ} (h : ∀ s, Keeps I (next s)) : Keeps I (.look next) :=
  fun s => h s s

theorem keeps_each {body : α → Script σ} (h : ∀ x, Keeps I (body x)) (xs : List α) :
    Keeps I (each body xs) := by
  induction xs with
  | nil => exact keeps_done
  | cons x xs ih => exact (h x).seq ih

theorem keeps_block {commands : List (Script σ)} (h : ∀ S ∈ commands, Keeps I S) :
    Keeps I (block commands) := by
  induction commands with
  | nil => exact keeps_done
  | cons S rest ih =>
    exact (h S List.mem_cons_self).seq (ih fun S' hS' => h S' (List.mem_cons_of_mem S hS'))

/-- What a script's commands do one by one carries every invariant that this carries. -/
theorem Keeps.of_rel {R : σ → σ → Prop} (h : ∀ s, Keeps (R s) S) (hrefl : ∀ s, R s s)
    (hI : ∀ s s', I s → R s s' → I s') : Keeps I S := by
  intro s hs
  have hR : ∀ s', R s s' → I s' := fun s' => hI s s' hs
  exact wp_of_le hR (wp_mono hR hR (h s s (hrefl s)))

/-- However a run of it ends, the invariant stands. -/
theorem Keeps.after (h : Keeps I S) (hs : I s) (died : Option ℕ) : I (S.after died s) :=
  after_of_wp (h s hs) hs died

end

/-- A loop in which no round runs a command runs none. -/
theorem exec_each_of_idle {body : α → Script σ} {xs : List α}
    (h : ∀ x ∈ xs, (body x).exec s = ([], true)) : (each body xs).exec s = ([], true) := by
  induction xs with
  | nil => rfl
  | cons x xs ih =>
    have hx := h x List.mem_cons_self
    have hrest := ih fun y hy => h y (List.mem_cons_of_mem _ hy)
    have hok : ((body x).exec s).2 = true := by rw [hx]
    have hfinal : (body x).final s = s := by
      rw [final, hx]
      rfl
    rw [each, exec_seq_of_ok hok, hfinal, hx, hrest]
    rfl

/-- Death within the first half leaves the second unbegun. -/
theorem cut_seq_of_le {k : ℕ} (h : k ≤ (first.exec s).1.length) :
    (first.seq rest).cut k s = first.cut k s := by
  cases hok : (first.exec s).2 with
  | false => rw [cut, exec_seq_of_failed hok, cut]
  | true => rw [cut, exec_seq_of_ok hok, cut, List.take_append_of_le_length h]

theorem exec_seq_congr {rest' : Script σ}
    (h : (first.exec s).2 = true → rest.exec (first.final s) = rest'.exec (first.final s)) :
    (first.seq rest).exec s = (first.seq rest').exec s := by
  cases hok : (first.exec s).2 with
  | false => rw [exec_seq_of_failed hok, exec_seq_of_failed hok]
  | true => rw [exec_seq_of_ok hok, exec_seq_of_ok hok, h hok]

theorem exec_seq_first {first' : Script σ} (h : first.exec s = first'.exec s) :
    (first.seq rest).exec s = (first'.seq rest).exec s := by
  have hfinal : first.final s = first'.final s := by rw [final, h, final]
  cases hok : (first.exec s).2 with
  | false => rw [exec_seq_of_failed hok, exec_seq_of_failed (h ▸ hok), h]
  | true => rw [exec_seq_of_ok hok, exec_seq_of_ok (h ▸ hok), h, hfinal]

theorem exec_seq_assoc {a b c : Script σ} :
    ((a.seq b).seq c).exec s = (a.seq (b.seq c)).exec s := by
  cases ha : (a.exec s).2 with
  | false =>
    have hab : ((a.seq b).exec s).2 = false := by rw [exec_seq_of_failed ha, ha]
    rw [exec_seq_of_failed hab, exec_seq_of_failed ha, exec_seq_of_failed ha]
  | true =>
    have hab : (a.seq b).exec s =
        ((a.exec s).1 ++ (b.exec (a.final s)).1, (b.exec (a.final s)).2) := exec_seq_of_ok ha
    have habc : (a.seq (b.seq c)).exec s = ((a.exec s).1 ++ ((b.seq c).exec (a.final s)).1,
        ((b.seq c).exec (a.final s)).2) := exec_seq_of_ok ha
    have hfinal : (a.seq b).final s = b.final (a.final s) := by
      rw [final, hab, getLastD_append]
      rfl
    rw [habc]
    cases hb : (b.exec (a.final s)).2 with
    | false =>
      rw [exec_seq_of_failed (by rw [hab, hb]), hab, exec_seq_of_failed hb]
    | true =>
      rw [exec_seq_of_ok (by rw [hab, hb]), hab, exec_seq_of_ok hb, hfinal, List.append_assoc]

theorem cut_congr {S' : Script σ} (h : S.exec s = S'.exec s) (k : ℕ) :
    S.cut k s = S'.cut k s := by
  rw [cut, h, cut]

theorem final_congr {S' : Script σ} (h : S.exec s = S'.exec s) : S.final s = S'.final s := by
  rw [final, h, final]

end Script
end Kuma.Lib
