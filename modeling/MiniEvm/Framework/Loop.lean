import MiniEvm.Framework.Outcome
import Mathlib.Tactic.Ring

namespace MiniEvm.Framework

namespace Outcome

variable {σ τ α : Type}

/-- Changes what is known about the state of a panic. -/
def mapPanic (f : σ → τ) : Outcome σ α → Outcome τ α
  | ok a => ok a
  | panic s => panic (f s)
  | timeout => timeout

@[simp] theorem mapPanic_eq_ok {f : σ → τ} {x : Outcome σ α} {a : α} :
    x.mapPanic f = ok a ↔ x = ok a := by
  cases x <;> simp [mapPanic]

theorem Meets.mapPanic {f : σ → τ} {x : Outcome σ α} {onOk : α → Prop} {onPanic : τ → Prop}
    (h : x.Meets onOk fun s => onPanic (f s)) : (x.mapPanic f).Meets onOk onPanic := by
  cases x with
  | ok a => exact h
  | panic s => exact h
  | timeout => trivial

end Outcome

section ForEach

variable {σ α ι : Type}

/-- A loop over a list. -/
def forEach (body : ι → α → Outcome σ α) : List ι → α → Outcome σ α
  | [], a => .ok a
  | i :: is, a => (body i a).bind fun a => forEach body is a

/-- What every round keeps holds after the loop. -/
theorem forEach_inv {body : ι → α → Outcome σ α} {inv : α → Prop}
    (hbody : ∀ i a a', inv a → body i a = .ok a' → inv a') {is : List ι} {a a' : α} (h : inv a)
    (hrun : forEach body is a = .ok a') : inv a' := by
  induction is generalizing a with
  | nil =>
    cases hrun
    exact h
  | cons i is ih =>
    obtain ⟨b, hb, hrest⟩ := Outcome.bind_eq_ok.mp hrun
    exact ih (hbody i a b h hb) hrest

/-- A quantity that every round raises by the same amount. -/
theorem forEach_raises {body : ι → α → Outcome σ α} {P : α → Prop} {f : α → Int} {k : Int}
    (hbody : ∀ i a a', P a → body i a = .ok a' → P a' ∧ f a' = f a + k) {is : List ι} {a a' : α}
    (h : P a) (hrun : forEach body is a = .ok a') : f a' = f a + k * is.length := by
  induction is generalizing a with
  | nil =>
    cases hrun
    simp
  | cons i is ih =>
    obtain ⟨b, hb, hrest⟩ := Outcome.bind_eq_ok.mp hrun
    obtain ⟨hinv, hraised⟩ := hbody i a b h hb
    rw [ih hinv hrest, hraised, List.length_cons]
    push_cast
    ring

end ForEach

section ForBreak

variable {σ α ι : Type}

/-- A loop over a list of indices whose body says whether to leave it. -/
def forBreak (body : ι → α → Outcome σ (Bool × α)) : List ι → α → Outcome σ (Bool × α)
  | [], a => .ok (false, a)
  | i :: is, a => (body i a).bind fun
    | (true, a) => .ok (true, a)
    | (false, a) => forBreak body is a

variable {body : ι → α → Outcome σ (Bool × α)} {is : List ι} {a : α}

/-- What holds as long as the body goes on, and what holds when it has left the loop. -/
theorem forBreak_meets_post (post : Bool → α → Prop) {onPanic : σ → Prop}
    (hbody : ∀ i ∈ is, ∀ a, post false a → (body i a).Meets (fun r => post r.1 r.2) onPanic)
    (h : post false a) : (forBreak body is a).Meets (fun r => post r.1 r.2) onPanic := by
  induction is generalizing a with
  | nil => exact h
  | cons i is ih =>
    refine (hbody i (List.mem_cons_self ..) a h).bind (fun s hs => hs) ?_
    rintro ⟨stop, a'⟩ ha
    cases stop with
    | true => exact ha
    | false => exact ih (fun j hj => hbody j (List.mem_cons_of_mem _ hj)) ha

/-- What holds before the loop and is kept by its body holds after it. -/
theorem forBreak_meets {inv : α → Prop} {onPanic : σ → Prop}
    (hbody : ∀ i ∈ is, ∀ a, inv a → (body i a).Meets (fun r => inv r.2) onPanic) (h : inv a) :
    (forBreak body is a).Meets (fun r => inv r.2) onPanic :=
  forBreak_meets_post (fun _ => inv) hbody h

theorem forBreak_cons {i : ι} {a' : α} (h : body i a = .ok (false, a')) :
    forBreak body (i :: is) a = forBreak body is a' := by
  rw [forBreak, h]
  rfl

/-- A body that always goes on and keeps the state in a set runs through all indices. -/
theorem forBreak_through {inv : α → Prop}
    (hbody : ∀ i ∈ is, ∀ a, inv a → ∃ a', body i a = .ok (false, a') ∧ inv a') (h : inv a) :
    ∃ a', forBreak body is a = .ok (false, a') ∧ inv a' := by
  induction is generalizing a with
  | nil => exact ⟨a, rfl, h⟩
  | cons i is ih =>
    obtain ⟨a', hrun, ha⟩ := hbody i (List.mem_cons_self ..) a h
    obtain ⟨a'', hrest, ha'⟩ := ih (fun j hj => hbody j (List.mem_cons_of_mem _ hj)) ha
    exact ⟨a'', (forBreak_cons hrun).trans hrest, ha'⟩

end ForBreak

end MiniEvm.Framework
