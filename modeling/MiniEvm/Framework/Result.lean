import Mathlib.Data.List.Forall2

namespace MiniEvm.Framework

/-- The result of a function that returns a value or an error, or panics. -/
inductive Result (ε α : Type) where
  | ok (a : α)
  | error (e : ε)
  | panic
  deriving DecidableEq

namespace Result

variable {ε α β γ : Type}

def bind (x : Result ε α) (f : α → Result ε β) : Result ε β :=
  match x with
  | ok a => f a
  | error e => error e
  | panic => panic

instance : Monad (Result ε) where
  pure := ok
  bind := bind

def toOption : Result ε α → Option α
  | ok a => some a
  | _ => none

/-- An absent value is a panic. -/
def ofOption : Option α → Result ε α
  | some a => ok a
  | none => panic

def isPanic : Result ε α → Bool
  | panic => true
  | _ => false

/-- Wraps the error. -/
def mapError {ε' : Type} (f : ε → ε') : Result ε α → Result ε' α
  | ok a => ok a
  | error e => error (f e)
  | panic => panic

@[simp] theorem pure_eq (a : α) : (pure a : Result ε α) = ok a := rfl

@[simp] theorem ok_bind (a : α) (f : α → Result ε β) : (ok a >>= f) = f a := rfl

@[simp] theorem error_bind (e : ε) (f : α → Result ε β) : (error e >>= f) = error e := rfl

@[simp] theorem panic_bind (f : α → Result ε β) : ((panic : Result ε α) >>= f) = panic := rfl

theorem bind_eq_ok {x : Result ε α} {f : α → Result ε β} {b : β} :
    (x >>= f) = ok b ↔ ∃ a, x = ok a ∧ f a = ok b := by
  cases x with
  | ok a => simp
  | error e => simp
  | panic => simp

theorem bind_ne_panic {x : Result ε α} {f : α → Result ε β} (hx : x ≠ panic)
    (hf : ∀ a, f a ≠ panic) : (x >>= f) ≠ panic := by
  cases x with
  | ok a => exact hf a
  | error e => simp
  | panic => exact absurd rfl hx

@[simp] theorem ofOption_some (a : α) : (ofOption (some a) : Result ε α) = ok a := rfl

theorem ofOption_eq_ok {x : Option α} {a : α} : (ofOption x : Result ε α) = ok a ↔ x = some a := by
  cases x with
  | none => simp [ofOption]
  | some b => simp [ofOption]

/-- Without a panic, what is not returned is refused. -/
theorem exists_error_iff {x : Result ε α} (h : x ≠ panic) : (∃ e, x = error e) ↔ ¬ ∃ a, x = ok a := by
  cases x with
  | ok a => simp
  | error e => simp
  | panic => exact absurd rfl h

/-- Runs `f` on every item in order; the first failure ends it. -/
def mapAll (f : α → Result ε β) : List α → Result ε (List β)
  | [] => ok []
  | a :: as => do
    let b ← f a
    let bs ← mapAll f as
    return b :: bs

theorem mapAll_eq_ok {f : α → Result ε β} {as : List α} {bs : List β} :
    mapAll f as = ok bs ↔ List.Forall₂ (fun a b => f a = ok b) as bs := by
  induction as generalizing bs with
  | nil => simp [mapAll, eq_comm]
  | cons a as ih =>
    rw [mapAll, bind_eq_ok]
    constructor
    · rintro ⟨b, hb, h⟩
      obtain ⟨bs', hbs, h⟩ := bind_eq_ok.mp h
      cases h
      exact .cons hb (ih.mp hbs)
    · intro h
      cases h with
      | cons hb hbs => exact ⟨_, hb, bind_eq_ok.mpr ⟨_, ih.mpr hbs, rfl⟩⟩

/-- No panic, and a returned value has the property. -/
def Settles (x : Result ε α) (p : α → Prop) : Prop :=
  match x with
  | ok a => p a
  | error _ => True
  | panic => False

theorem Settles.bind {x : Result ε α} {f : α → Result ε β} {p : α → Prop} {q : β → Prop}
    (hx : x.Settles p) (hf : ∀ a, p a → (f a).Settles q) : (x >>= f).Settles q := by
  cases x with
  | ok a => exact hf a hx
  | error e => trivial
  | panic => exact hx.elim

theorem Settles.mono {x : Result ε α} {p q : α → Prop} (hx : x.Settles p) (h : ∀ a, p a → q a) :
    x.Settles q := by
  cases x with
  | ok a => exact h a hx
  | error e => trivial
  | panic => exact hx

theorem Settles.ne_panic {x : Result ε α} {p : α → Prop} (hx : x.Settles p) : x ≠ panic := by
  rintro rfl
  exact hx

/-- A run with more checks: it panics, or it is the run without them. -/
def Guards (x y : Result ε α) : Prop := x = panic ∨ x = y

theorem Guards.refl (x : Result ε α) : x.Guards x := .inr rfl

theorem Guards.bind {x y : Result ε α} {f g : α → Result ε β} (hx : x.Guards y)
    (hf : ∀ a, (f a).Guards (g a)) : (x >>= f).Guards (y >>= g) := by
  obtain rfl | rfl := hx
  · exact .inl rfl
  · cases x with
    | ok a => exact hf a
    | error e => exact .inr rfl
    | panic => exact .inl rfl

/-- A guarded value that the other run computes without failing. -/
theorem Guards.bind_ok {x : Result ε α} {a : α} {f : α → Result ε β} {y : Result ε β}
    (hx : x.Guards (ok a)) (hf : (f a).Guards y) : (x >>= f).Guards y := by
  obtain rfl | rfl := hx
  · exact .inl rfl
  · exact hf

/-- A check in front of a run. -/
theorem Guards.check {c : Prop} [Decidable c] {a : α} {f : α → Result ε β} {y : Result ε β}
    (h : c → (f a).Guards y) : ((if c then ok a else panic) >>= f).Guards y := by
  by_cases hc : c
  · rw [if_pos hc]
    exact h hc
  · rw [if_neg hc]
    exact .inl rfl

end Result

end MiniEvm.Framework
