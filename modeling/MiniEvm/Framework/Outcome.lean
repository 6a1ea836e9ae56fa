import Mathlib

namespace MiniEvm.Framework

/-- What a fuel-bounded computation can do: return, stop in a run-time panic, or run out of fuel. -/
inductive Outcome (σ α : Type) where
  | ok (a : α)
  | panic (s : σ)
  | timeout

namespace Outcome

variable {σ α β γ : Type}

def bind (x : Outcome σ α) (f : α → Outcome σ β) : Outcome σ β :=
  match x with
  | ok a => f a
  | panic s => panic s
  | timeout => timeout

/-- A missing value is a panic in the given state. -/
def ofOption (s : σ) : Option α → Outcome σ α
  | some a => ok a
  | none => panic s

@[simp] theorem bind_ok (a : α) (f : α → Outcome σ β) : (ok a : Outcome σ α).bind f = f a := rfl

@[simp] theorem bind_panic (s : σ) (f : α → Outcome σ β) :
    (panic s : Outcome σ α).bind f = panic s := rfl

@[simp] theorem bind_timeout (f : α → Outcome σ β) :
    (timeout : Outcome σ α).bind f = timeout := rfl

theorem bind_assoc (x : Outcome σ α) (f : α → Outcome σ β) (g : β → Outcome σ γ) :
    (x.bind f).bind g = x.bind fun a => (f a).bind g := by
  cases x <;> rfl

@[simp] theorem ofOption_some (s : σ) (a : α) : ofOption s (some a) = ok a := rfl

@[simp] theorem ofOption_none (s : σ) : (ofOption s none : Outcome σ α) = panic s := rfl

theorem bind_eq_ok {x : Outcome σ α} {f : α → Outcome σ β} {b : β} :
    x.bind f = ok b ↔ ∃ a, x = ok a ∧ f a = ok b := by
  cases x <;> simp

theorem bind_eq_panic {x : Outcome σ α} {f : α → Outcome σ β} {s : σ} :
    x.bind f = panic s ↔ x = panic s ∨ ∃ a, x = ok a ∧ f a = panic s := by
  cases x <;> simp

theorem bind_eq_timeout {x : Outcome σ α} {f : α → Outcome σ β} :
    x.bind f = timeout ↔ x = timeout ∨ ∃ a, x = ok a ∧ f a = timeout := by
  cases x <;> simp

@[simp] theorem ofOption_eq_ok {s : σ} {o : Option α} {a : α} :
    ofOption s o = ok a ↔ o = some a := by
  cases o <;> simp [ofOption]

@[simp] theorem ofOption_ne_timeout {s : σ} {o : Option α} :
    ofOption s o ≠ timeout := by
  cases o <;> simp [ofOption]

/-- `y` is what `x` becomes with more fuel. -/
def Extends (x y : Outcome σ α) : Prop := x = timeout ∨ x = y

theorem Extends.refl (x : Outcome σ α) : x.Extends x := Or.inr rfl

theorem Extends.trans {x y z : Outcome σ α} (h : x.Extends y) (h' : y.Extends z) : x.Extends z := by
  obtain rfl | rfl := h
  · exact Or.inl rfl
  · exact h'

theorem Extends.eq {x y : Outcome σ α} (h : x.Extends y) (hx : x ≠ timeout) : y = x :=
  (h.resolve_left hx).symm

theorem Extends.bind {x y : Outcome σ α} {f g : α → Outcome σ β} (h : x.Extends y)
    (hf : ∀ a, (f a).Extends (g a)) : (x.bind f).Extends (y.bind g) := by
  obtain rfl | rfl := h
  · exact Or.inl rfl
  · cases x with
    | ok a => exact hf a
    | panic s => exact .refl _
    | timeout => exact .refl _

/-- The computation returns and its result has the property. -/
def Returns (x : Outcome σ α) (p : α → Prop) : Prop :=
  match x with
  | ok a => p a
  | _ => False

instance (x : Outcome σ α) (p : α → Prop) [DecidablePred p] : Decidable (x.Returns p) :=
  match x with
  | ok a => inferInstanceAs (Decidable (p a))
  | panic _ => isFalse id
  | timeout => isFalse id

theorem Returns.exists {x : Outcome σ α} {p : α → Prop} (h : x.Returns p) :
    ∃ a, x = ok a ∧ p a := by
  cases x with
  | ok a => exact ⟨a, rfl, h⟩
  | panic => exact h.elim
  | timeout => exact h.elim

theorem Returns.of_ok {x : Outcome σ α} {p : α → Prop} {a : α} (h : x.Returns p) (hx : x = ok a) :
    p a := by
  subst hx
  exact h

/-- A returned result and the state of a panic have the properties; running out of fuel says
nothing. -/
def Meets (x : Outcome σ α) (onOk : α → Prop) (onPanic : σ → Prop) : Prop :=
  match x with
  | ok a => onOk a
  | panic s => onPanic s
  | timeout => True

theorem Meets.mono {x : Outcome σ α} {onOk onOk' : α → Prop} {onPanic onPanic' : σ → Prop}
    (h : x.Meets onOk onPanic) (hok : ∀ a, onOk a → onOk' a) (hp : ∀ s, onPanic s → onPanic' s) :
    x.Meets onOk' onPanic' := by
  cases x with
  | ok a => exact hok a h
  | panic s => exact hp s h
  | timeout => trivial

theorem Meets.of_ok {x : Outcome σ α} {a : α} {onOk : α → Prop} {onPanic : σ → Prop}
    (h : x.Meets onOk onPanic) (hx : x = ok a) : onOk a := by
  subst hx
  exact h

theorem Meets.of_panic {x : Outcome σ α} {s : σ} {onOk : α → Prop} {onPanic : σ → Prop}
    (h : x.Meets onOk onPanic) (hx : x = panic s) : onPanic s := by
  subst hx
  exact h

theorem Meets.bind {x : Outcome σ α} {f : α → Outcome σ β} {onOk : α → Prop} {onOk' : β → Prop}
    {onPanic onPanic' : σ → Prop} (h : x.Meets onOk onPanic)
    (hp : ∀ s, onPanic s → onPanic' s) (hf : ∀ a, onOk a → (f a).Meets onOk' onPanic') :
    (x.bind f).Meets onOk' onPanic' := by
  cases x with
  | ok a => exact hf a h
  | panic s => exact hp s h
  | timeout => trivial

theorem Meets.ofOption {s : σ} {o : Option α} {onOk : α → Prop} {onPanic : σ → Prop}
    (hp : onPanic s) (ho : ∀ a, o = some a → onOk a) : (ofOption s o).Meets onOk onPanic := by
  cases o with
  | none => exact hp
  | some a => exact ho a rfl

def isPanic : Outcome σ α → Bool
  | panic _ => true
  | _ => false

/-- More or less fuel does not make a computation return that panics. -/
theorem not_ok_of_isPanic {x y : Outcome σ α} (h : x.isPanic = true) (hxy : x.Extends y ∨ y.Extends x)
    (a : α) : y ≠ ok a := by
  rintro rfl
  obtain (rfl | rfl) | (hy | rfl) := hxy
  · cases h
  · cases h
  · cases hy
  · cases h

end Outcome

end MiniEvm.Framework
