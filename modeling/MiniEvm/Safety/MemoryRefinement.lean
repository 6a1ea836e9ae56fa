import MiniEvm.Detectors.ContractUtils
import MiniEvm.Vm.Evolution
import MiniEvm.Vm.Iterates
import MiniEvm.Vm.MemoryEffects

namespace MiniEvm

open Math Framework

/-- What the next instruction of a frame writes to memory. A call writes what its callee returned. -/
def memoryWrites (env : Env) (run : RunFn) (evm : Evm) (fr : Frame) : List (Nat × Bytes) :=
  match fetch env env.jumpTable evm fr with
  | some (.ok f) =>
    match charge env f.operation (evm.attempting fr f.op) fr f.memorySize with
    | some (true, evm, fr) =>
      let fr := fr.expand f.memorySize
      let evm := evm.executing fr f.op
      if f.op.isCall then
        match f.op.invocation env evm fr with
        | some i =>
          match i.entry.invoke env run evm (.contract i.caller) i.gas with
          | .ok r => f.op.output fr.stack r.toCallResult
          | _ => []
        | none => []
      else f.op.writes evm fr
    | _ => []
  | _ => []

section Writes

variable {env : Env} {run : RunFn} {evm evm' : Evm} {fr fr' : Frame} {op : OpCode} {n : UInt64}

theorem memoryWrites_simple (ready : Ready env evm fr op n) (hc : op.isCall = false)
    (charged : charge env (operation op) (evm.attempting fr op) fr n = some (true, evm', fr')) :
    memoryWrites env run evm fr = op.writes (evm'.executing (fr'.expand n) op) (fr'.expand n) := by
  unfold memoryWrites
  simp only [ready.fetched, charged, hc]
  rfl

theorem memoryWrites_call {i : Invocation} {r : CreateResult} (ready : Ready env evm fr op n)
    (hc : op.isCall = true)
    (charged : charge env (operation op) (evm.attempting fr op) fr n = some (true, evm', fr'))
    (invocation : op.invocation env (evm'.executing (fr'.expand n) op) (fr'.expand n) = some i)
    (invoked : i.entry.invoke env run (evm'.executing (fr'.expand n) op) (.contract i.caller) i.gas =
      .ok r) :
    memoryWrites env run evm fr = op.output (fr'.expand n).stack r.toCallResult := by
  unfold memoryWrites
  simp only [ready.fetched, charged, hc, if_true, invocation, invoked]

theorem OpCode.writes_jump (hj : op.isJump = true) : op.writes evm fr = [] := by
  cases op
  case JUMP | JUMPI => rfl
  all_goals cases hj

/-- Paying and expanding do not change what the memory stands for. -/
theorem charged_image {m : Evm} (charged : charge env (operation op) m fr n =
    some (true, evm', fr')) : (fr'.expand n).mem.image = fr.mem.image := by
  rw [Frame.expand_image, Memory.image, Memory.image, (charge_spec charged).store]

theorem charged_len {m : Evm} (charged : charge env (operation op) m fr n =
    some (true, evm', fr')) : (fr'.expand n).mem.len = max fr.mem.len n.toNat := by
  rw [Frame.expand_len, Memory.len, (charge_spec charged).store]
  rfl

theorem charged_stack {m : Evm} (charged : charge env (operation op) m fr n =
    some (true, evm', fr')) : (fr'.expand n).stack = fr.stack := by
  rw [Frame.expand_stack, (charge_spec charged).stack]

end Writes

/-- An iteration of the loop changes the memory as its writes say, in whole words. -/
structure MemoryStep (env : Env) (run : RunFn) (evm : Evm) (fr fr' : Frame) : Prop where
  image : fr'.mem.image = fr.mem.image.writeAll (memoryWrites env run evm fr)
  grows : fr.mem.len ≤ fr'.mem.len
  aligned : fr.mem.len % 32 = 0 → fr'.mem.len % 32 = 0

theorem step_memory {env : Env} {run : RunFn} {evm evm' : Evm} {fr fr' : Frame}
    (hm : env.disableGasMetering = false) (hr : fr.stack.InRange)
    (h : step env env.jumpTable run evm fr = .ok (.next evm' fr')) :
    MemoryStep env run evm fr fr' := by
  generalize hs : StepResult.next evm' fr' = s at h
  cases step_cases h with
  | rejected => cases hs
  | unpaid => cases hs
  | @simple op n evm1 fr1 res ready hc charged executed =>
    obtain ⟨-, rfl⟩ := finish_eq_next hs.symm
    have hlen := charged_len charged
    have hmod := memorySizeFor_mod ready.size
    have hstack := charged_stack charged
    have hpop := Stack.length_of_validate ready.valid
    have hcov := charged_covers hm ready.size hr.nonneg charged
    have hspec := execute_simple hc executed
    rw [← hstack] at hr hpop
    have hmem : res.frame.mem.len = (fr1.expand n).mem.len ∧
        res.frame.mem.image = (fr1.expand n).mem.image.writeAll (memoryWrites env run evm fr) := by
      rw [memoryWrites_simple ready hc charged]
      cases hj : op.isJump with
      | true =>
        rw [hspec.mem hj]
        rw [OpCode.writes_jump hj]
        exact ⟨rfl, rfl⟩
      | false =>
        obtain ⟨res', hres, hrefines⟩ := execute_memory run hc hj hpop hr.nonneg hcov
        rw [executed] at hres
        cases hres
        exact ⟨(hspec.kept hj).len, (hrefines hr).image⟩
    refine ⟨?_, ?_, fun h32 => ?_⟩
    · rw [← charged_image charged]
      exact hmem.2
    · change _ ≤ res.frame.mem.len
      omega
    · change res.frame.mem.len % 32 = 0
      omega
  | @call op n evm1 fr1 i r res ready hc charged invocation invoked resumed =>
    obtain ⟨-, rfl⟩ := finish_eq_next hs.symm
    have hlen := charged_len charged
    have hmod := memorySizeFor_mod ready.size
    have hpop := Stack.length_of_validate ready.valid
    have hcov := charged_covers hm ready.size hr.nonneg charged
    have hkept := (OpCode.resume_spec resumed).len
    rw [← charged_stack charged] at hpop
    obtain ⟨x, hx, himage⟩ := resume_memory env hc hpop hcov r
    rw [resumed] at hx
    cases hx
    refine ⟨?_, ?_, fun h32 => ?_⟩
    · rw [memoryWrites_call ready hc charged invocation invoked, ← charged_image charged]
      exact himage
    · change _ ≤ res.frame.mem.len
      omega
    · change res.frame.mem.len % 32 = 0
      omega

instance (st : Stack) : Decidable st.InRange := inferInstanceAs (Decidable (∀ w ∈ st, _))

/-- All stack words of the frame are in range. -/
def WordsInRange (_ : Evm) (fr : Frame) : Prop := fr.stack.InRange

instance (evm : Evm) (fr : Frame) : Decidable (WordsInRange evm fr) :=
  inferInstanceAs (Decidable fr.stack.InRange)

/-- An empty region, or one inside the store whose bounds no conversion changes. -/
def Memory.Holds (m : Memory) (r : Int × Int) : Prop :=
  r.2 = 0 ∨ 0 ≤ r.1 ∧ 0 < r.2 ∧ r.1 + r.2 ≤ m.len ∧ int64 r.1 = r.1 ∧ int64 r.2 = r.2 ∧
    ((uint64 r.1).toNat : Int) = r.1 ∧ ((uint64 r.2).toNat : Int) = r.2

theorem Memory.Covers.holds {m : Memory} {r : Int × Int} (h : m.Covers r) : m.Holds r := by
  rcases h with h | ⟨h0, h1, h2⟩
  · exact Or.inl h
  · refine Or.inr ⟨h0, h1, by omega, int64_small h0 (by omega), int64_small (by omega) (by omega),
      ?_, ?_⟩
    all_goals
      rw [toNat_uint64]
      omega

/-- The memory of a frame agrees with an infinite array at its next instruction `op`, which is
executed in the state `evm`, `fr`: the regions are inside the store, nothing panics, and what is
read is what the array holds. -/
structure Agrees (env : Env) (run : RunFn) (op : OpCode) (evm : Evm) (fr : Frame)
    (array : Image UInt8) : Prop where
  regions : ∀ r ∈ op.regions fr.stack, fr.mem.Holds r
  simple : op.isCall = false → op.isJump = false → ∃ res,
    (operation op).execute env run evm fr = .ok res ∧
      op.Produces env evm fr res (op.operand fr.stack array)
  call : op.isCall = true → ∃ i, op.invocation env evm fr = some i ∧
    i.entry.data = op.operand fr.stack array
  resume : op.isCall = true → ∀ r, ∃ x, op.resume env fr r = .ok x

section Runs

variable {env : Env} {run : RunFn} {evm₀ evm : Evm} {fr₀ fr : Frame} {ws : List (List (Nat × Bytes))}

theorem iterates_image (hm : env.disableGasMetering = false)
    (h : Iterates env run WordsInRange (memoryWrites env run) evm₀ fr₀ ws evm fr) :
    fr.mem.image = fr₀.mem.image.writeAll ws.flatten := by
  induction h with
  | start => rfl
  | step _ words next ih =>
    rw [(step_memory hm words next).image, ih, List.flatten_append, Image.writeAll_append]
    simp

theorem iterates_aligned (hm : env.disableGasMetering = false) (h₀ : fr₀.mem.len % 32 = 0)
    (h : Iterates env run WordsInRange (memoryWrites env run) evm₀ fr₀ ws evm fr) :
    fr.mem.len % 32 = 0 := by
  induction h with
  | start => exact h₀
  | step _ words next ih => exact (step_memory hm words next).aligned ih

end Runs

/-- Memory is an infinite zero-initialised byte array: at every point of a run of a frame it holds
what the writes so far put there, its length is a whole number of words that never shrinks, and the
next instruction reads and hands over what the array holds. -/
theorem memory_refines_zeroArray {env : Env} {run : RunFn} {evm₀ evm : Evm} {c : Contract}
    {input : Bytes} {fr : Frame} {ws : List (List (Nat × Bytes))}
    (hm : env.disableGasMetering = false)
    (h : Iterates env run WordsInRange (memoryWrites env run) evm₀ (Frame.start c input) ws evm fr)
    (words : fr.stack.InRange) :
    fr.mem.image = Image.writeAll (fun _ => 0) ws.flatten ∧ fr.mem.len % 32 = 0 ∧
      (∀ evm' fr', step env env.jumpTable run evm fr = .ok (.next evm' fr') →
        fr.mem.len ≤ fr'.mem.len) ∧
      ∀ op n evm' fr', Ready env evm fr op n →
        charge env (operation op) (evm.attempting fr op) fr n = some (true, evm', fr') →
        Agrees env run op (evm'.executing (fr'.expand n) op) (fr'.expand n)
          (Image.writeAll (fun _ => 0) ws.flatten) := by
  have himage : fr.mem.image = Image.writeAll (fun _ => 0) ws.flatten := iterates_image hm h
  refine ⟨himage, iterates_aligned hm rfl h, fun evm' fr' next => (step_memory hm words next).grows, ?_⟩
  intro op n evm' fr' ready charged
  have hcov := charged_covers hm ready.size words.nonneg charged
  have hpop := Stack.length_of_validate ready.valid
  rw [← charged_stack charged] at words hpop
  rw [← himage, ← charged_image charged]
  exact {
    regions := fun r hr => (hcov r hr).holds
    simple := fun hc hj => by
      obtain ⟨res, hres, hspec⟩ := execute_memory run hc hj hpop words.nonneg hcov
      exact ⟨res, hres, (hspec words).data⟩
    call := fun hc => invocation_memory env _ hc hpop hcov
    resume := fun hc r => by
      obtain ⟨x, hx, -⟩ := resume_memory env hc hpop hcov r
      exact ⟨x, hx⟩ }

/-- `CALLDATASIZE PC MSTORE PC MLOAD`, called with three bytes. -/
def storeAndLoad : Contract :=
  { (Contract.new (.account 7) 0x100 0 1000).setCallCode 0x100 0 [0x36, 0x58, 0x52, 0x58, 0x51] with
    input := [1, 2, 3] }

/-- Before its `MLOAD` the memory has grown to two words and holds the stored one at offset 1. -/
theorem memory_refines_zeroArray_storeAndLoad : ∃ ws evm fr,
    Iterates sampleEnv (interpreterRun sampleEnv sampleEnv.jumpTable 0) WordsInRange
      (memoryWrites sampleEnv (interpreterRun sampleEnv sampleEnv.jumpTable 0))
      (Evm.new StateDB.new) (Frame.start storeAndLoad [1, 2, 3]) ws evm fr ∧
    fr.mem.len = 64 ∧ fr.pc = 4 ∧
    fr.mem.image = Image.writeAll (fun _ => 0) [(1, toBytes 32 3)] := by
  have hrun : ((iterate sampleEnv (interpreterRun sampleEnv sampleEnv.jumpTable 0) WordsInRange
      (memoryWrites sampleEnv (interpreterRun sampleEnv sampleEnv.jumpTable 0))
      (Evm.new StateDB.new) (Frame.start storeAndLoad [1, 2, 3]) 4).any fun x =>
        x.1.flatten = [(1, toBytes 32 3)] ∧ x.2.2.mem.len = 64 ∧ x.2.2.pc = 4 ∧
          x.2.2.stack.InRange) = true := by
    decide +kernel
  obtain ⟨⟨ws, evm, fr⟩, hx, hp⟩ := Option.any_eq_true .. |>.mp hrun
  obtain ⟨hws, hlen, hpc, words⟩ := of_decide_eq_true hp
  have h := iterate_iterates hx
  refine ⟨ws, evm, fr, h, hlen, hpc, ?_⟩
  simp only at hws
  rw [← hws]
  exact (memory_refines_zeroArray rfl h words).1

end MiniEvm
