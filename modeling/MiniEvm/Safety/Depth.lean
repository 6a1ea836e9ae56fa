import MiniEvm.Detectors.ContractUtils
import MiniEvm.Vm.History
import MiniEvm.Vm.Visits

namespace MiniEvm

open Math Framework

theorem Launch.begun_depth (l : Launch) : l.begun.depth = l.evm.depth + 1 := rfl

/-- Inside a frame the depth is that of its start. -/
theorem Entry.Enters.depth {env : Env} {evm evm' : Evm} {caller : ContractRef} {gas : UInt64}
    {e : Entry} {l : Launch} {k : Nat} {fr : Frame} (enters : e.Enters env evm caller gas l)
    (within : Reaches env (interpreterRun env env.jumpTable k) l.begun
      (Frame.start l.contract l.input) evm' fr) : evm'.depth = evm.depth + 1 := by
  have hev := (Reaches.evolves (Frame.start_begun _ _) within).2.2
  rw [hev.mode.1, l.begun_depth, (Entry.prepare_passes enters.prepared).2]

/-- An instruction is executed at the depth at which it was fetched. -/
theorem charge_depth {env : Env} {op : OpCode} {evm evm' : Evm} {fr fr' : Frame} {n : UInt64}
    {paid : Bool} (h : charge env (operation op) (evm.attempting fr op) fr n = some (paid, evm', fr')) :
    (evm'.executing (fr'.expand n) op).depth = evm.depth := by
  have hworld := (charge_spec h).world
  have hdepth : evm'.depth = (evm.attempting fr op).depth := by rw [hworld]
  exact hdepth

/-- The depth counts the active frames, of which there are at most 1025; without recursion there is
one. -/
theorem Visits.depth {env : Env} {evm₀ evm : Evm} {caller : ContractRef} {gas : UInt64} {e : Entry}
    {acts : List Activation} {fr : Frame} (h : Visits env evm₀ caller gas e acts evm fr)
    (hstart : evm₀.depth = 0) :
    evm.depth = acts.length ∧ acts.length ≤ callCreateDepth + 1 ∧
      (env.noRecursion = true → acts.length = 1) := by
  induction h with
  | root enters within =>
    refine ⟨?_, by simp, fun _ => rfl⟩
    rw [enters.depth within, hstart]
    rfl
  | @nested acts' _ _ _ _ _ _ _ _ _ _ _ outer ready hc charged invocation enters within ih =>
    obtain ⟨hdepth, hle, hone⟩ := ih
    obtain ⟨hno, hlimit⟩ := (Entry.prepare_passes enters.prepared).1
    rw [charge_depth charged] at hno hlimit
    have hpos : acts'.length > 0 := by
      cases outer <;> simp
    refine ⟨?_, ?_, ?_⟩
    · rw [enters.depth within, charge_depth charged, hdepth]
      rfl
    · simp only [List.length_cons]
      omega
    · intro hrec
      exact absurd ⟨hrec, by omega⟩ hno

/-- Past the limit every entry point refuses and touches nothing. -/
theorem Entry.invoke_depth {env : Env} (run : RunFn) {evm : Evm} (caller : ContractRef) (gas : UInt64)
    (e : Entry) (hrec : env.noRecursion = false) (hdepth : evm.depth > callCreateDepth) :
    e.invoke env run evm caller gas = .ok (stopped evm caller gas (some .depth) 0) := by
  have hrefuse : Entry.refuse env evm caller gas = some (stopped evm caller gas (some .depth) 0) := by
    simp [refuse, hrec, hdepth]
  have hprepare : e.prepare env evm caller gas =
      some (.inl (stopped evm caller gas (some .depth) 0)) := by
    cases e with
    | create code value => simp only [prepare, if_pos hdepth]
    | _ => simp only [prepare, hrefuse]
  rw [Entry.invoke_eq, hprepare]
  rfl

/-- The depth is bounded in every frame, past the bound calls and creations are refused without an
effect, and every entry point returns at the depth it was called at. -/
theorem depth_bounded_and_restored (env : Env) (evm₀ : Evm) (caller : ContractRef) (gas : UInt64)
    (e : Entry) :
    (evm₀.depth = 0 → ∀ acts evm fr, Visits env evm₀ caller gas e acts evm fr →
      evm.depth ≤ callCreateDepth + 1 ∧
      ∀ op n evm' fr' i run, evm.depth = callCreateDepth + 1 → Ready env evm fr op n →
        charge env (operation op) (evm.attempting fr op) fr n = some (true, evm', fr') →
        op.invocation env (evm'.executing (fr'.expand n) op) (fr'.expand n) = some i →
          i.entry.invoke env run (evm'.executing (fr'.expand n) op) (.contract i.caller) i.gas =
            .ok (stopped (evm'.executing (fr'.expand n) op) (.contract i.caller) i.gas
              (some .depth) 0)) ∧
    ∀ fuel r, e.start env fuel evm₀ caller gas = .ok r → r.evm.depth = evm₀.depth := by
  constructor
  · intro hstart acts evm fr h
    obtain ⟨hdepth, hle, hone⟩ := h.depth hstart
    refine ⟨by omega, ?_⟩
    intro op n evm' fr' i run hlimit ready charged invocation
    have hrec : env.noRecursion = false := by
      by_contra hno
      have h1 := hone (Bool.eq_true_of_not_eq_false hno)
      rw [hdepth, h1] at hlimit
      exact absurd hlimit (by decide)
    apply Entry.invoke_depth run _ _ _ hrec
    rw [charge_depth charged, hlimit]
    exact Nat.lt_succ_self _
  · intro fuel r hr
    exact (Entry.start_evolves hr).mode.1

end MiniEvm
