import MiniEvm.Vm.Evolution
import MiniEvm.Vm.Iterates

namespace MiniEvm

open Math Framework

/-- The states that a frame passes through. -/
abbrev Reaches (env : Env) (run : RunFn) (evm₀ : Evm) (fr₀ : Frame) : Evm → Frame → Prop :=
  fun evm fr => ∃ xs, Iterates env run (fun _ _ => True) (fun _ _ => ()) evm₀ fr₀ xs evm fr

/-- The machine in which the loop of a launched contract starts. -/
def Launch.begun (l : Launch) : Evm :=
  { l.evm.emit (.enter l.evm.depth l.contract l.input) with
    depth := l.evm.depth + 1, returnData := [] }

/-- An entry point that gets to interpret code. -/
structure Entry.Enters (env : Env) (evm : Evm) (caller : ContractRef) (gas : UInt64) (e : Entry)
    (l : Launch) : Prop where
  prepared : e.prepare env evm caller gas = some (.inr l)
  interpreted : l.contract.codeAddr.bind env.precompiles = none
  code : l.contract.code ≠ []

/-- A frame that has not ended: how it was entered, with which contract, and the operands of the
instruction that entered it (none for the outermost frame). -/
structure Activation where
  entry : Entry
  contract : Contract
  operands : Stack

/-- Every state at the start of an iteration of every frame that an entry point leads to, with the
frames that are active there, the running one first. Runs that never end are covered too. -/
inductive Visits (env : Env) (evm₀ : Evm) (caller : ContractRef) (gas : UInt64) (e : Entry) :
    List Activation → Evm → Frame → Prop
  | root {l : Launch} {k : Nat} {evm : Evm} {fr : Frame} (enters : e.Enters env evm₀ caller gas l)
      (within : Reaches env (interpreterRun env env.jumpTable k) l.begun
        (Frame.start l.contract l.input) evm fr) :
      Visits env evm₀ caller gas e [⟨e, l.contract, []⟩] evm fr
  | nested {acts : List Activation} {evm evm' evm'' : Evm} {fr fr' fr'' : Frame} {op : OpCode}
      {n : UInt64} {i : Invocation} {l : Launch} {k : Nat}
      (outer : Visits env evm₀ caller gas e acts evm fr) (ready : Ready env evm fr op n)
      (hc : op.isCall = true)
      (charged : charge env (operation op) (evm.attempting fr op) fr n = some (true, evm', fr'))
      (invocation : op.invocation env (evm'.executing (fr'.expand n) op) (fr'.expand n) = some i)
      (enters : i.entry.Enters env (evm'.executing (fr'.expand n) op) (.contract i.caller) i.gas l)
      (within : Reaches env (interpreterRun env env.jumpTable k) l.begun
        (Frame.start l.contract l.input) evm'' fr'') :
      Visits env evm₀ caller gas e (⟨i.entry, l.contract, fr.stack⟩ :: acts) evm'' fr''

/-- The launch of an entry point that gets to interpret code. -/
def Entry.launch (env : Env) (evm : Evm) (caller : ContractRef) (gas : UInt64) (e : Entry) :
    Option Launch :=
  match e.prepare env evm caller gas with
  | some (.inr l) =>
    if (l.contract.codeAddr.bind env.precompiles).isNone ∧ l.contract.code ≠ [] then some l else none
  | _ => none

theorem Entry.launch_enters {env : Env} {evm : Evm} {caller : ContractRef} {gas : UInt64} {e : Entry}
    {l : Launch} (h : e.launch env evm caller gas = some l) : e.Enters env evm caller gas l := by
  unfold launch at h
  split at h
  · rename_i l' prepared
    split_ifs at h with hl
    cases h
    exact ⟨prepared, Option.isNone_iff_eq_none.mp hl.1, hl.2⟩
  · cases h

/-- The invocation that the next instruction of a frame makes, and the machine it is made in. -/
def invoking (env : Env) (evm : Evm) (fr : Frame) : Option (Invocation × Evm) :=
  match fetch env env.jumpTable evm fr with
  | some (.ok f) =>
    if f.op.isCall then
      match charge env f.operation (evm.attempting fr f.op) fr f.memorySize with
      | some (true, evm', fr') =>
        let fr' := fr'.expand f.memorySize
        (f.op.invocation env (evm'.executing fr' f.op) fr').map (·, evm'.executing fr' f.op)
      | _ => none
    else none
  | _ => none

theorem Ready.invoking_none {env : Env} {evm : Evm} {fr : Frame} {op : OpCode} {n : UInt64}
    (ready : Ready env evm fr op n) (hc : op.isCall = false) : invoking env evm fr = none := by
  simp only [invoking, ready.fetched, hc, Bool.false_eq_true, if_false]

theorem Ready.invoking_some {env : Env} {evm evm' : Evm} {fr fr' : Frame} {op : OpCode} {n : UInt64}
    (ready : Ready env evm fr op n) (hc : op.isCall = true)
    (charged : charge env (operation op) (evm.attempting fr op) fr n = some (true, evm', fr')) :
    invoking env evm fr = (op.invocation env (evm'.executing (fr'.expand n) op) (fr'.expand n)).map
      (·, evm'.executing (fr'.expand n) op) := by
  simp only [invoking, ready.fetched, hc, if_true, charged]

/-- The frame that the next instruction of a frame enters. -/
def descend (env : Env) (evm : Evm) (fr : Frame) : Option (Invocation × Launch) :=
  (invoking env evm fr).bind fun (i, evm') =>
    (i.entry.launch env evm' (.contract i.caller) i.gas).map (i, ·)

theorem Visits.descends {env : Env} {evm₀ evm : Evm} {caller : ContractRef} {gas : UInt64} {e : Entry}
    {acts : List Activation} {fr : Frame} {i : Invocation} {l : Launch}
    (h : Visits env evm₀ caller gas e acts evm fr) (hd : descend env evm fr = some (i, l)) :
    Visits env evm₀ caller gas e (⟨i.entry, l.contract, fr.stack⟩ :: acts) l.begun
      (Frame.start l.contract l.input) := by
  obtain ⟨⟨i', evm'⟩, hinvoking, hd⟩ := Option.bind_eq_some_iff.mp hd
  obtain ⟨l', hl, heq⟩ := Option.map_eq_some_iff.mp hd
  cases heq
  unfold invoking at hinvoking
  split at hinvoking
  · rename_i f hf
    obtain ⟨hop, ready⟩ := fetch_ok hf
    rw [hop] at hinvoking
    split_ifs at hinvoking with hc
    split at hinvoking
    · rename_i evm1 fr1 charged
      obtain ⟨i1, invocation, heq⟩ := Option.map_eq_some_iff.mp hinvoking
      cases heq
      exact h.nested (k := 0) ready hc charged invocation (Entry.launch_enters hl) ⟨[], .start⟩
    · cases hinvoking
  · cases hinvoking

/-- A frame stays itself, and what its iterations did to the machine a call tree may do. -/
theorem Reaches.evolves {env : Env} {k : Nat} {evm₀ evm : Evm} {fr₀ fr : Frame} (begun : fr₀.Begun)
    (h : Reaches env (interpreterRun env env.jumpTable k) evm₀ fr₀ evm fr) :
    fr.Begun ∧ fr.contract.fixed = fr₀.contract.fixed ∧
      Evolves env (.frame fr₀.contract.fixed) evm₀ evm := by
  obtain ⟨xs, h⟩ := h
  induction h with
  | start => exact ⟨begun, rfl, .refl ..⟩
  | step before holds next ih =>
    obtain ⟨hbegun, hfixed, hev⟩ := ih
    obtain ⟨hbegun', hfixed'⟩ := step_next next
    have hstep := step_evolves (interpreterRun_evolves env k) hbegun next
    rw [hfixed] at hstep
    exact ⟨hbegun', hfixed'.trans hfixed, hev.trans hstep⟩

theorem Frame.start_begun (c : Contract) (input : Bytes) : (Frame.start c input).Begun :=
  fun _ => .inl rfl

/-- Only an entry point that passes the checks gets to run anything. -/
theorem Entry.prepare_passes {env : Env} {evm : Evm} {caller : ContractRef} {gas : UInt64} {e : Entry}
    {l : Launch} (h : e.prepare env evm caller gas = some (.inr l)) :
    Passes env evm ∧ l.evm.depth = evm.depth := by
  have hrefuse : Entry.refuse env evm caller gas = none → Passes env evm := by
    intro hr
    unfold refuse at hr
    split_ifs at hr with hno hdepth
    exact ⟨hno, Nat.le_of_not_lt hdepth⟩
  cases e with
  | call addr input value | callCode addr input value =>
    simp only [prepare] at h
    split at h
    · cases h
    · rename_i hr
      split_ifs at h
      · cases h
        exact ⟨hrefuse hr, rfl⟩
      · cases h
  | delegateCall addr input =>
    simp only [prepare] at h
    split at h
    · cases h
    · rename_i hr
      obtain ⟨c, -, h⟩ := Option.map_eq_some_iff.mp h
      cases h
      exact ⟨hrefuse hr, rfl⟩
  | staticCall addr input =>
    simp only [prepare] at h
    split at h
    · cases h
    · rename_i hr
      cases h
      exact ⟨hrefuse hr, rfl⟩
  | create code value =>
    simp only [prepare] at h
    split_ifs at h with hdepth hcan hcollide hno <;> cases h
    exact ⟨⟨hno, Nat.le_of_not_lt hdepth⟩, rfl⟩

end MiniEvm
