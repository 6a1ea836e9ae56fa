import MiniEvm.Framework.Outcome

namespace MiniEvm.Framework

section Option

variable {α β : Type} {R : β → β → Prop} (o : Option α)

theorem rel_map {f g : α → β} (h : ∀ a, R (f a) (g a)) : Option.Rel R (o.map f) (o.map g) := by
  cases o with
  | none => exact .none
  | some a => exact .some (h a)

theorem rel_bind {f g : α → Option β} (h : ∀ a, Option.Rel R (f a) (g a)) :
    Option.Rel R (o.bind f) (o.bind g) := by
  cases o with
  | none => exact .none
  | some a => exact h a

end Option

namespace Outcome

variable {σ τ α β γ δ : Type} {x : Outcome σ α} {y : Outcome τ β} {P : α → Prop}
  {R : α → β → Prop}

/-- Whenever the first computation returns a good result, the second returns a related one. -/
def Simulates (x : Outcome σ α) (y : Outcome τ β) (P : α → Prop) (R : α → β → Prop) : Prop :=
  ∀ a, x = ok a → P a → ∃ b, y = ok b ∧ R a b

namespace Simulates

theorem of_ok {a : α} {b : β} (h : R a b) :
    (ok a : Outcome σ α).Simulates (ok b : Outcome τ β) P R := by
  rintro _ ⟨⟩ _
  exact ⟨b, rfl, h⟩

theorem timeout : (timeout : Outcome σ α).Simulates y P R := by
  intro a h
  cases h

theorem ofOption {s : σ} {t : τ} {o : Option α} {o' : Option β} (h : Option.Rel R o o') :
    (ofOption s o).Simulates (ofOption t o') P R := by
  intro a ha _
  obtain rfl := ofOption_eq_ok.mp ha
  cases h with
  | some hab => exact ⟨_, rfl, hab⟩

/-- Two sequences: the first results are related, and the first is good because the last one is. -/
theorem bind {f : α → Outcome σ γ} {g : β → Outcome τ δ} {Q : γ → Prop} {S : γ → δ → Prop}
    (h : x.Simulates y P R) (hgood : ∀ a c, f a = ok c → Q c → P a)
    (hf : ∀ a b, x = ok a → R a b → (f a).Simulates (g b) Q S) :
    (x.bind f).Simulates (y.bind g) Q S := by
  intro c hc hgc
  obtain ⟨a, ha, hac⟩ := bind_eq_ok.mp hc
  obtain ⟨b, hb, hab⟩ := h a ha (hgood a c hac hgc)
  obtain ⟨d, hd, hcd⟩ := hf a b ha hab c hac hgc
  exact ⟨d, bind_eq_ok.mpr ⟨b, hb, hd⟩, hcd⟩

end Simulates

/-- The first computation, seen through `v`, is the second one, and what it returns has the
property. -/
structure Mirrors (x : Outcome σ α) (y : Outcome σ β) (v : α → β) (P : α → Prop) : Prop where
  outcome : (x.bind fun a => ok (v a)) = y
  post : ∀ a, x = ok a → P a

namespace Mirrors

variable {x : Outcome σ α} {y : Outcome σ β} {v : α → β} {P : α → Prop}

theorem of_ok {a : α} {b : β} (hv : v a = b) (h : P a) :
    (ok a : Outcome σ α).Mirrors (ok b) v P := by
  refine ⟨congrArg ok hv, ?_⟩
  rintro _ ⟨⟩
  exact h

theorem panic {s : σ} : (Outcome.panic s : Outcome σ α).Mirrors (Outcome.panic s) v P :=
  ⟨rfl, fun _ h => by cases h⟩

theorem timeout : (Outcome.timeout : Outcome σ α).Mirrors Outcome.timeout v P :=
  ⟨rfl, fun _ h => by cases h⟩

theorem bind {f : α → Outcome σ γ} {g : β → Outcome σ δ} {w : γ → δ} {Q : γ → Prop}
    (h : x.Mirrors y v P) (hf : ∀ a, P a → (f a).Mirrors (g (v a)) w Q) :
    (x.bind f).Mirrors (y.bind g) w Q := by
  obtain ⟨rfl, hpost⟩ := h
  cases x with
  | ok a => exact hf a (hpost a rfl)
  | panic s => exact panic
  | timeout => exact timeout

theorem mono {Q : α → Prop} (h : x.Mirrors y v P) (hPQ : ∀ a, P a → Q a) : x.Mirrors y v Q :=
  ⟨h.outcome, fun a ha => hPQ a (h.post a ha)⟩

end Mirrors

end Outcome

end MiniEvm.Framework
