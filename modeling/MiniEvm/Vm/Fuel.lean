import MiniEvm.Vm.Entry
import MiniEvm.Vm.Step

namespace MiniEvm

open Math Framework

/-- One interpreter does what another does, and may go on where that one runs out of fuel. -/
def RunExtends (run run' : RunFn) : Prop :=
  ∀ evm c input, (run evm c input).Extends (run' evm c input)

section Extending

variable {env : Env} {run run' : RunFn}

theorem runContract_extends (h : RunExtends run run') (evm : Evm) (c : Contract) (input : Bytes) :
    (runContract env run evm c input).Extends (runContract env run' evm c input) := by
  unfold runContract
  simp only
  split
  · exact .refl _
  · exact h ..

theorem Entry.invoke_extends (h : RunExtends run run') (evm : Evm) (caller : ContractRef)
    (gas : UInt64) (e : Entry) :
    (e.invoke env run evm caller gas).Extends (e.invoke env run' evm caller gas) := by
  rw [invoke_eq, invoke_eq]
  refine .bind (.refl _) fun x => ?_
  cases x with
  | inl r => exact .refl _
  | inr l => exact .bind (runContract_extends h ..) fun r => .refl _

theorem execute_extends (h : RunExtends run run') (evm : Evm) (fr : Frame) (op : OpCode) :
    ((operation op).execute env run evm fr).Extends ((operation op).execute env run' evm fr) := by
  cases hc : op.isCall with
  | false =>
    obtain ⟨f, hf⟩ := execute_eq_simple hc
    rw [hf]
    exact .refl _
  | true =>
    rw [execute_call _ _ _ _ hc, execute_call _ _ _ _ hc]
    exact .bind (.refl _) fun i => .bind (Entry.invoke_extends h ..) fun r => .refl _

theorem step_extends (h : RunExtends run run') (evm : Evm) (fr : Frame) :
    (step env env.jumpTable run evm fr).Extends (step env env.jumpTable run' evm fr) := by
  unfold step
  cases hf : fetch env env.jumpTable evm fr with
  | none => exact .refl _
  | some x =>
    cases x with
    | error e => exact .refl _
    | ok f =>
      simp only [Outcome.ofOption_some, Outcome.bind_ok, perform, (fetch_ok hf).1]
      refine .bind (.refl _) fun charged => ?_
      cases charged.1
      · exact .refl _
      · exact .bind (execute_extends h ..) fun res => .refl _

theorem loop_extends (h : RunExtends run run') (n : Nat) (evm : Evm) (fr : Frame) :
    (loop env env.jumpTable run n evm fr).Extends (loop env env.jumpTable run' (n + 1) evm fr) := by
  induction n generalizing evm fr with
  | zero => exact Or.inl rfl
  | succ n ih =>
    rw [loop, loop]
    split_ifs
    · exact .refl _
    · refine .bind (step_extends h ..) fun s => ?_
      cases s with
      | next evm' fr' => exact ih evm' fr'
      | done r => exact .refl _

end Extending

theorem interpreterRun_extends (env : Env) (n : Nat) :
    RunExtends (interpreterRun env env.jumpTable n) (interpreterRun env env.jumpTable (n + 1)) := by
  induction n with
  | zero =>
    intro evm c input
    exact Or.inl rfl
  | succ n ih =>
    intro evm c input
    refine .bind ?_ fun r => .refl _
    split_ifs
    · exact .refl _
    · exact loop_extends ih ..

/-- The fuel only bounds a run: what it does with some fuel it does with any larger amount. -/
theorem Entry.start_extends {env : Env} {evm : Evm} {caller : ContractRef} {gas : UInt64}
    {e : Entry} {n m : Nat} (hnm : n ≤ m) :
    (e.start env n evm caller gas).Extends (e.start env m evm caller gas) := by
  induction hnm with
  | refl => exact .refl _
  | step _ ih => exact ih.trans (invoke_extends (interpreterRun_extends env _) ..)

end MiniEvm
