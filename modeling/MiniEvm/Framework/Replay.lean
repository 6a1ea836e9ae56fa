import Mathlib

namespace MiniEvm.Framework

variable {σ ι : Type} {step : σ → ι → σ} {P Q : σ → ι → Prop} {s : σ}

/-- A property of every step of a replay, in the state where the step is taken. -/
def Along (step : σ → ι → σ) (P : σ → ι → Prop) : σ → List ι → Prop
  | _, [] => True
  | s, i :: is => P s i ∧ Along step P (step s i) is

instance Along.decidable [∀ s i, Decidable (P s i)] :
    (s : σ) → (is : List ι) → Decidable (Along step P s is)
  | _, [] => .isTrue trivial
  | s, i :: is => @instDecidableAnd _ _ _ (Along.decidable (step s i) is)

theorem along_append {is js : List ι} :
    Along step P s (is ++ js) ↔ Along step P s is ∧ Along step P (is.foldl step s) js := by
  induction is generalizing s with
  | nil => simp [Along]
  | cons i is ih => simp only [List.cons_append, Along, List.foldl_cons, ih, and_assoc]

/-- The property, stated at every point of the replay. -/
theorem along_iff {is : List ι} :
    Along step P s is ↔ ∀ pre i, pre ++ [i] <+: is → P (pre.foldl step s) i := by
  induction is generalizing s with
  | nil => simp [Along]
  | cons j is ih =>
    simp only [Along, ih]
    constructor
    · rintro ⟨hj, his⟩ pre i hpre
      cases pre with
      | nil =>
        obtain ⟨rfl, -⟩ := List.cons_prefix_cons.mp hpre
        exact hj
      | cons k pre =>
        rw [List.cons_append] at hpre
        obtain ⟨rfl, htail⟩ := List.cons_prefix_cons.mp hpre
        exact his pre i htail
    · intro h
      exact ⟨h [] j (by simp), fun pre i hpre => h (j :: pre) i (List.cons_prefix_cons.mpr ⟨rfl, hpre⟩)⟩

namespace Along

theorem mono {is : List ι} (h : Along step P s is) (hPQ : ∀ s i, P s i → Q s i) :
    Along step Q s is := by
  induction is generalizing s with
  | nil => trivial
  | cons i is ih => exact ⟨hPQ s i h.1, ih h.2⟩

/-- What every step keeps holds at the end, and the steps are taken where it holds. -/
theorem invariant {is : List ι} {I : σ → Prop} (h : Along step P s is) (hs : I s)
    (hstep : ∀ s i, I s → P s i → I (step s i)) :
    I (is.foldl step s) ∧ Along step (fun s i => I s ∧ P s i) s is := by
  induction is generalizing s with
  | nil => exact ⟨hs, trivial⟩
  | cons i is ih =>
    obtain ⟨hend, halong⟩ := ih h.2 (hstep s i hs h.1)
    exact ⟨hend, ⟨hs, h.1⟩, halong⟩

end Along

end MiniEvm.Framework
