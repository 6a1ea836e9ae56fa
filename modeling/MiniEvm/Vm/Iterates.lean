import MiniEvm.Vm.Step

namespace MiniEvm

open Math Framework

/-- The states that a frame passes through while `cond` holds before every iteration, with what
`log` notes of each of them. -/
inductive Iterates {α : Type} (env : Env) (run : RunFn) (cond : Evm → Frame → Prop)
    (log : Evm → Frame → α) (evm₀ : Evm) (fr₀ : Frame) : List α → Evm → Frame → Prop
  | start : Iterates env run cond log evm₀ fr₀ [] evm₀ fr₀
  | step {xs : List α} {evm evm' : Evm} {fr fr' : Frame}
      (before : Iterates env run cond log evm₀ fr₀ xs evm fr) (holds : cond evm fr)
      (next : step env env.jumpTable run evm fr = .ok (.next evm' fr')) :
      Iterates env run cond log evm₀ fr₀ (xs ++ [log evm fr]) evm' fr'

/-- The state after a number of iterations, as long as none of them ends the frame. -/
def iterate {α : Type} (env : Env) (run : RunFn) (cond : Evm → Frame → Prop)
    [∀ evm fr, Decidable (cond evm fr)] (log : Evm → Frame → α) (evm₀ : Evm) (fr₀ : Frame) :
    Nat → Option (List α × Evm × Frame)
  | 0 => some ([], evm₀, fr₀)
  | k + 1 => (iterate env run cond log evm₀ fr₀ k).bind fun (xs, evm, fr) =>
    if cond evm fr then
      match step env env.jumpTable run evm fr with
      | .ok (.next evm' fr') => some (xs ++ [log evm fr], evm', fr')
      | _ => none
    else none

theorem iterate_iterates {α : Type} {env : Env} {run : RunFn} {cond : Evm → Frame → Prop}
    [∀ evm fr, Decidable (cond evm fr)] {log : Evm → Frame → α} {evm₀ evm : Evm} {fr₀ fr : Frame}
    {xs : List α} {k : Nat} (h : iterate env run cond log evm₀ fr₀ k = some (xs, evm, fr)) :
    Iterates env run cond log evm₀ fr₀ xs evm fr := by
  induction k generalizing xs evm fr with
  | zero =>
    cases h
    exact .start
  | succ k ih =>
    obtain ⟨⟨xs', evm', fr'⟩, hk, h⟩ := Option.bind_eq_some_iff.mp h
    simp only at h
    split_ifs at h with holds
    split at h
    · rename_i next
      cases h
      exact .step (ih hk) holds next
    · cases h

end MiniEvm
