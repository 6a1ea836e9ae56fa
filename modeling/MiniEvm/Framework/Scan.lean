import Mathlib.Data.List.Basic
import Mathlib.Data.List.TakeWhile

namespace MiniEvm.Framework

variable {α : Type}

/-! ## The last occurrence of an item -/

section SplitLast

variable [DecidableEq α] {a : α} {l front back : List α}

/-- The list before the last occurrence of an item and the one after it. -/
def splitLast (a : α) : List α → Option (List α × List α)
  | [] => none
  | x :: xs =>
    match splitLast a xs with
    | some (front, back) => some (x :: front, back)
    | none => if x = a then some ([], xs) else none

theorem splitLast_eq_none : splitLast a l = none ↔ a ∉ l := by
  induction l with
  | nil => simp [splitLast]
  | cons x xs ih =>
    unfold splitLast
    cases hsplit : splitLast a xs with
    | some p =>
      have hmem : a ∈ xs := by
        by_contra hnot
        rw [ih.mpr hnot] at hsplit
        cases hsplit
      simp [hmem]
    | none =>
      have hnot := ih.mp hsplit
      simp only [List.mem_cons, hnot, or_false, ite_eq_right_iff, reduceCtorEq, imp_false]
      exact ne_comm

theorem splitLast_append (hback : a ∉ back) :
    splitLast a (front ++ a :: back) = some (front, back) := by
  induction front with
  | nil => simp [splitLast, splitLast_eq_none.mpr hback]
  | cons x xs ih => simp [splitLast, ih]

theorem splitLast_eq_some : splitLast a l = some (front, back) ↔ l = front ++ a :: back ∧ a ∉ back := by
  constructor
  · intro h
    induction l generalizing front with
    | nil => cases h
    | cons x xs ih =>
      unfold splitLast at h
      cases hsplit : splitLast a xs with
      | some p =>
        obtain ⟨f, b⟩ := p
        rw [hsplit] at h
        cases h
        obtain ⟨hxs, hnot⟩ := ih hsplit
        exact ⟨by rw [hxs, List.cons_append], hnot⟩
      | none =>
        rw [hsplit] at h
        simp only at h
        split_ifs at h with hx
        cases h
        exact ⟨by rw [hx, List.nil_append], splitLast_eq_none.mp hsplit⟩
  · rintro ⟨rfl, hback⟩
    exact splitLast_append hback

end SplitLast

/-- The first occurrence of an item separates what stands before it from what follows. -/
theorem append_cons_inj {a : α} {l r l' r' : List α} (hl : a ∉ l) (hl' : a ∉ l')
    (h : l ++ a :: r = l' ++ a :: r') : l = l' ∧ r = r' := by
  induction l generalizing l' with
  | nil =>
    cases l' with
    | nil => exact ⟨rfl, (List.cons.inj h).2⟩
    | cons x xs =>
      obtain ⟨rfl, -⟩ := List.cons.inj h
      exact absurd List.mem_cons_self hl'
  | cons x xs ih =>
    cases l' with
    | nil =>
      obtain ⟨rfl, -⟩ := List.cons.inj h
      exact absurd List.mem_cons_self hl
    | cons y ys =>
      obtain ⟨rfl, hrest⟩ := List.cons.inj h
      obtain ⟨rfl, hr⟩ := ih (List.not_mem_of_not_mem_cons hl) (List.not_mem_of_not_mem_cons hl') hrest
      exact ⟨rfl, hr⟩

/-! ## Runs of items with a property -/

section Runs

variable {p : α → Bool} {l r : List α}

theorem head?_dropWhile (p : α → Bool) (l : List α) : ∀ a ∈ (l.dropWhile p).head?, p a = false := by
  intro a ha
  have hnot := List.head?_dropWhile_not p l
  rw [Option.mem_def.mp ha] at hnot
  exact hnot

/-- A run ends where the property does. -/
theorem takeWhile_append_of_stop (hr : ∀ a ∈ r, p a = true) (hl : ∀ a ∈ l.head?, p a = false) :
    (r ++ l).takeWhile p = r := by
  rw [List.takeWhile_append_of_pos hr]
  cases l with
  | nil => exact List.append_nil r
  | cons a l => rw [List.takeWhile_cons_of_neg (by simp [hl a rfl]), List.append_nil]

theorem dropWhile_append_of_stop (hr : ∀ a ∈ r, p a = true) (hl : ∀ a ∈ l.head?, p a = false) :
    (r ++ l).dropWhile p = l := by
  rw [List.dropWhile_append_of_pos hr]
  cases l with
  | nil => rfl
  | cons a l => rw [List.dropWhile_cons_of_neg (by simp [hl a rfl])]

/-- The longest runs of items with the property, from left to right. -/
def runs (p : α → Bool) (l : List α) : List (List α) :=
  (l.splitOnP fun a => !p a).filter fun r => !r.isEmpty

theorem runs_cons_of_neg {a : α} (ha : p a = false) (l : List α) : runs p (a :: l) = runs p l := by
  simp [runs, List.splitOnP_cons_eq_if_modifyHead, ha]

theorem runs_append_of_neg {front : List α} (hfront : ∀ a ∈ front, p a = false) (l : List α) :
    runs p (front ++ l) = runs p l := by
  induction front with
  | nil => rfl
  | cons a front ih =>
    rw [List.cons_append, runs_cons_of_neg (hfront a List.mem_cons_self)]
    exact ih fun b hb => hfront b (List.mem_cons_of_mem a hb)

theorem runs_of_neg (h : ∀ a ∈ l, p a = false) : runs p l = [] := by
  have happend := runs_append_of_neg h []
  rw [List.append_nil] at happend
  rw [happend]
  rfl

/-- A run and what follows it, which does not start with one more item of the run. -/
theorem runs_append (hne : r ≠ []) (hr : ∀ a ∈ r, p a = true) (hl : ∀ a ∈ l.head?, p a = false) :
    runs p (r ++ l) = r :: runs p l := by
  have hnot : ∀ a ∈ r, (!p a) = false := by
    intro a ha
    rw [hr a ha]
    rfl
  cases l with
  | nil => simp [runs, List.splitOnP_eq_singleton hnot, hne]
  | cons b l =>
    have hb : p b = false := hl b rfl
    rw [runs_cons_of_neg hb, runs, List.splitOnP_append_cons_of_forall_mem hnot b (by simp [hb])]
    simp [runs, hne]

/-- A list with a run in it, up to the end of the first one. -/
theorem exists_first_run (h : ∃ a ∈ l, p a = true) : ∃ front r back, l = front ++ (r ++ back) ∧
    (∀ a ∈ front, p a = false) ∧ r ≠ [] ∧ (∀ a ∈ r, p a = true) ∧ ∀ a ∈ back.head?, p a = false := by
  induction l with
  | nil => simp at h
  | cons a l ih =>
    cases ha : p a with
    | false =>
      have hrest : ∃ b ∈ l, p b = true := by simpa [ha] using h
      obtain ⟨front, r, back, rfl, hfront, hr⟩ := ih hrest
      refine ⟨a :: front, r, back, rfl, ?_, hr⟩
      intro b hb
      rcases List.mem_cons.mp hb with rfl | hb
      · exact ha
      · exact hfront b hb
    | true =>
      refine ⟨[], a :: l.takeWhile p, l.dropWhile p, ?_, by simp, List.cons_ne_nil _ _, ?_,
        head?_dropWhile p l⟩
      · rw [List.nil_append, List.cons_append, List.takeWhile_append_dropWhile]
      · intro b hb
        rcases List.mem_cons.mp hb with rfl | hb
        · exact ha
        · exact List.mem_takeWhile_imp hb

theorem runs_eq_nil : runs p l = [] ↔ ∀ a ∈ l, p a = false := by
  refine ⟨fun h => ?_, runs_of_neg⟩
  by_contra hnot
  simp only [not_forall, Bool.not_eq_false, exists_prop] at hnot
  obtain ⟨front, r, back, rfl, hfront, hne, hr, hback⟩ := exists_first_run hnot
  rw [runs_append_of_neg hfront, runs_append hne hr hback] at h
  cases h

/-- One run, with nothing of its kind before or after it. -/
theorem runs_eq_singleton : runs p l = [r] ↔ ∃ front back, l = front ++ (r ++ back) ∧
    (∀ a ∈ front, p a = false) ∧ r ≠ [] ∧ (∀ a ∈ r, p a = true) ∧ ∀ a ∈ back, p a = false := by
  constructor
  · intro h
    have hexists : ∃ a ∈ l, p a = true := by
      by_contra hnot
      simp only [not_exists, not_and, Bool.not_eq_true] at hnot
      rw [runs_of_neg hnot] at h
      cases h
    obtain ⟨front, r', back, rfl, hfront, hne, hr, hback⟩ := exists_first_run hexists
    rw [runs_append_of_neg hfront, runs_append hne hr hback] at h
    obtain ⟨rfl, hnil⟩ := List.cons.inj h
    exact ⟨front, back, rfl, hfront, hne, hr, runs_eq_nil.mp hnil⟩
  · rintro ⟨front, back, rfl, hfront, hne, hr, hback⟩
    have hhead : ∀ a ∈ back.head?, p a = false := by
      intro a ha
      exact hback a (List.mem_of_mem_head? ha)
    rw [runs_append_of_neg hfront, runs_append hne hr hhead, runs_of_neg hback]

end Runs

end MiniEvm.Framework
