import Mathlib.Algebra.BigOperators.Group.List.Basic
import Mathlib.Data.List.Sections

namespace MiniEvm.Framework

variable {α β : Type}

theorem length_sections (ls : List (List α)) : ls.sections.length = (ls.map List.length).prod := by
  induction ls with
  | nil => rfl
  | cons l ls ih =>
    have hrow : ∀ s ∈ ls.sections, ((l.map fun a => a :: s).length) = l.length := by
      intro s _
      exact List.length_map _
    rw [List.sections, List.length_flatMap, List.map_congr_left hrow, List.map_const',
      List.sum_replicate_nat,
      ih, List.map_cons, List.prod_cons, Nat.mul_comm]

/-- A product of lists that are not empty is not empty. -/
theorem exists_mem_sections {ls : List (List α)} (h : ∀ l ∈ ls, l ≠ []) : ∃ f, f ∈ ls.sections := by
  induction ls with
  | nil => exact ⟨[], List.mem_sections.mpr .nil⟩
  | cons l ls ih =>
    obtain ⟨hl, hls⟩ := List.forall_mem_cons.mp h
    obtain ⟨f, hf⟩ := ih hls
    obtain ⟨a, ha⟩ := List.exists_mem_of_ne_nil l hl
    exact ⟨a :: f, List.mem_sections.mpr (.cons ha (List.mem_sections.mp hf))⟩

/-- A relation holds of every tuple of a product exactly if it holds of every choice at every
place. -/
theorem forall_sections_iff {R : β → α → Prop} {js : List β} {ls : List (List α)}
    (h : ∀ l ∈ ls, l ≠ []) :
    (∀ f ∈ ls.sections, List.Forall₂ R js f) ↔ List.Forall₂ (fun j l => ∀ a ∈ l, R j a) js ls := by
  induction ls generalizing js with
  | nil =>
    constructor
    · intro hall
      have hnil := hall [] (List.mem_sections.mpr .nil)
      rw [List.forall₂_nil_right_iff] at hnil ⊢
      exact hnil
    · intro hjs f hf
      rw [List.forall₂_nil_right_iff] at hjs
      cases List.mem_sections.mp hf
      rw [hjs]
      exact .nil
  | cons l ls ih =>
    obtain ⟨hl, hls⟩ := List.forall_mem_cons.mp h
    constructor
    · intro hall
      obtain ⟨f₀, hf₀⟩ := exists_mem_sections hls
      obtain ⟨a₀, ha₀⟩ := List.exists_mem_of_ne_nil l hl
      have hmem : ∀ {a f}, a ∈ l → f ∈ ls.sections → a :: f ∈ (l :: ls).sections := by
        intro a f ha hf
        exact List.mem_sections.mpr (.cons ha (List.mem_sections.mp hf))
      cases js with
      | nil => cases hall _ (hmem ha₀ hf₀)
      | cons j js =>
        refine .cons ?_ ((ih hls).mp ?_)
        · intro a ha
          exact (List.forall₂_cons.mp (hall _ (hmem ha hf₀))).1
        · intro f hf
          exact (List.forall₂_cons.mp (hall _ (hmem ha₀ hf))).2
    · intro hjs f hf
      cases hjs with
      | cons hj hrest =>
        cases List.mem_sections.mp hf with
        | cons ha hf => exact .cons (hj _ ha) ((ih hls).mpr hrest _ (List.mem_sections.mpr hf))

end MiniEvm.Framework
