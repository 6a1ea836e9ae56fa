import MiniEvm.Detectors.ContractUtils
import MiniEvm.Framework.Simulation
import MiniEvm.Vm.Evolution
import MiniEvm.Vm.IntMoves

namespace MiniEvm

open Math Framework IntProg

/-! ## What a run keeps -/

/-- The most integers that an instruction gives back at once. -/
def maxPut : Nat := 6

/-- No reference is in use twice. -/
def InUse.Separate (b : InUse) : Prop := (b.stack ++ b.pool ++ b.held).Nodup

/-- The pool exceeds its limit by one `put` at most. -/
def SmallPool (pool : List Nat) : Prop := pool.length ≤ poolLimit + maxPut

/-- The references in use are separate and the integers that suspended frames hold are unchanged; at
every iteration no reference was in use twice; and the pool was small at every iteration, and is, if
it was so at the start. -/
structure Ints.Keeps (a : Ints) (held : List Nat) (w : Work Nat) (a' : Ints) : Prop where
  separate : a'.Separate w held
  values : ∀ c ∈ held, a'.value c = a.value c
  boundaries : ∃ bs, a'.boundaries = a.boundaries ++ bs ∧
    ∀ b ∈ bs, b.Separate ∧ (SmallPool a.pool → SmallPool b.pool)
  pool : SmallPool a.pool → SmallPool a'.pool

namespace Ints.Keeps

variable {a a' a'' : Ints} {held : List Nat} {w w' : Work Nat}

theorem refl (h : a.Separate w held) : a.Keeps held w a :=
  ⟨h, fun _ _ => rfl, ⟨[], (List.append_nil _).symm, fun _ hb => by cases hb⟩, id⟩

theorem trans (h : a.Keeps held w a') (h' : a'.Keeps held w' a'') : a.Keeps held w' a'' := by
  obtain ⟨bs, hbs, hall⟩ := h.boundaries
  obtain ⟨bs', hbs', hall'⟩ := h'.boundaries
  refine ⟨h'.separate, fun c hc => (h'.values c hc).trans (h.values c hc), ⟨bs ++ bs', ?_, ?_⟩,
    fun hle => h'.pool (h.pool hle)⟩
  · rw [hbs', hbs, List.append_assoc]
  · intro b hb
    rcases List.mem_append.mp hb with hb | hb
    · exact hall b hb
    · obtain ⟨hseparate, hsmall⟩ := hall' b hb
      exact ⟨hseparate, fun hle => hsmall (h.pool hle)⟩

/-- Some references are not used any more. -/
theorem drop (h : a.Keeps held w a') (hsub : w'.live.Sublist w.live) : a.Keeps held w' a' := by
  refine ⟨h.separate.of_subperm (Nat.le_refl _) ?_, h.values, h.boundaries, h.pool⟩
  exact ((hsub.append_right _).append_right _).subperm

end Ints.Keeps

theorem live_stack (st : List Nat) : (⟨[], st⟩ : Work Nat).live = st := List.append_nil st

theorem stack_sublist (w : Work Nat) : (⟨[], w.stack⟩ : Work Nat).live.Sublist w.live := by
  rw [live_stack]
  exact List.sublist_append_left ..

theorem pops_putsAtMost (n m : Nat) (k : CellProg Int) : (pops n k).putsAtMost m = k.putsAtMost m := by
  induction n with
  | zero => rfl
  | succ n ih => exact ih

theorem OpCode.cells_putsAtMost (op : OpCode) (env : Env) (out : Int) (ok : Bool) :
    (op.cells env out ok).putsAtMost maxPut = true := by
  cases op
  case LOG n => exact pops_putsAtMost (n + 2) maxPut _
  case JUMP | JUMPI => cases ok <;> rfl
  all_goals rfl

theorem OpCode.opening_putsAtMost (op : OpCode) : op.opening.putsAtMost maxPut = true := by
  cases op <;> rfl

theorem OpCode.closing_putsAtMost (op : OpCode) (out : Int) :
    (op.closing out).putsAtMost maxPut = true := by
  cases op <;> rfl

/-- A program on the integers of a frame. -/
theorem cells_run {p : CellProg Int} {a : Ints} {held : List Nat} {w : Work Nat} {ext : Nat}
    {w' : Work Int} (hputs : p.putsAtMost maxPut = true) (h : a.Separate w held) (hext : ext ∈ held)
    (hp : p.eval (a.value ext) (w.map a.value) = some w') :
    ∃ s, p.run poolLimit ext a.toCells w = some s ∧ s.2.map s.1.value = w' ∧
      a.Keeps held s.2 { a with toCells := s.1 } := by
  have hsound := CellProg.sound poolLimit hext p a.toCells w h
  have hout := hsound.outcome
  rw [hp] at hout
  obtain ⟨⟨c, v⟩, hs, hmap⟩ := Option.map_eq_some_iff.mp hout.symm
  refine ⟨(c, v), hs, hmap, hsound.separate c v hs, hsound.kept c v hs, ?_, ?_⟩
  · exact ⟨[], (List.append_nil _).symm, fun _ hb => by cases hb⟩
  · exact CellProg.run_pool_length_le hputs hs

/-! ## Instructions -/

def PtrResult.view (r : PtrResult) : ExecResult := ⟨r.ret, r.err, r.evm, r.frame.view r.ints.toCells⟩

/-- What an instruction leaves of the integers. -/
structure PtrResult.Keeps (a : Ints) (f : PtrFrame) (held : List Nat) (r : PtrResult) : Prop where
  ints : a.Keeps held ⟨[], r.frame.stack⟩ r.ints
  value : r.frame.value = f.value

/-- The value of a contract is read through its reference. -/
theorem contract_view {c : Contract} {v : Int} (h : c.value = v) : { c with value := v } = c := by
  rw [← h]

theorem ExecResult.withCells_view {res : ExecResult} {a : Ints} {value : Nat} {s : Cells Int × Work Nat}
    (hstack : s.2.stack.map s.1.value = res.frame.stack)
    (hvalue : res.frame.contract.value = s.1.value value) : (res.withCells a value s).view = res := by
  obtain ⟨ret, err, evm, pc, stack, mem, contract⟩ := res
  simp only [withCells, PtrResult.view, PtrFrame.view, hstack, contract_view hvalue]

theorem executeCells_mirrors {op : OpCode} (hc : op.isCall = false) (env : Env) (run : RunFn)
    (evm : Evm)
    {a : Ints} {f : PtrFrame} {held : List Nat} (h : a.Separate ⟨[], f.stack⟩ held)
    (hvalue : f.value ∈ held) :
    (op.executeCells env evm a f).Mirrors ((operation op).execute env run evm (f.view a.toCells))
      PtrResult.view (PtrResult.Keeps a f held) := by
  obtain ⟨g, hg, hmoves⟩ := execute_moves hc
  unfold OpCode.executeCells
  rw [hg]
  unfold simple
  cases hres : g env evm (f.view a.toCells) with
  | none => exact .panic
  | some res =>
    obtain ⟨vars, heval⟩ := hmoves env evm (f.view a.toCells) res hres
    obtain ⟨s, hs, hmap, hkeeps⟩ := cells_run (op.cells_putsAtMost ..) h hvalue heval
    have hstack : s.2.stack.map s.1.value = res.frame.stack := congrArg Work.stack hmap
    have hexec : (operation op).execute env run evm (f.view a.toCells) = .ok res := by
      rw [hg]
      exact simple_eq_ok.mpr hres
    have hcontract : res.frame.contract.value = s.1.value f.value := by
      rw [(execute_simple hc hexec).contract]
      exact (hkeeps.values f.value hvalue).symm
    simp only [Outcome.ofOption_some, Outcome.bind_ok, hs]
    exact .of_ok (ExecResult.withCells_view hstack hcontract) ⟨hkeeps.drop (stack_sublist _), rfl⟩

/-! ## Entry points -/

/-- The interpreter on references runs as the one on values, and keeps what others hold. -/
def RunMirrors (run : RunFn) (runPtr : PtrRunFn) : Prop :=
  ∀ evm a contract value input held, Cells.Separate (Ints.toCells a) ⟨[], []⟩ held → value ∈ held →
    contract.value = a.value value →
    (runPtr evm a contract value input held).Mirrors (run evm contract input) Prod.fst
      fun r => a.Keeps held ⟨[], []⟩ r.2

/-- What is in use and what is held can be told apart or taken together. -/
theorem separate_live {a : Cells Int} {w : Work Nat} {held : List Nat} :
    a.Separate ⟨[], []⟩ (w.live ++ held) ↔ a.Separate w held := by
  have hperm : ((⟨[], []⟩ : Work Nat).live ++ a.pool ++ (w.live ++ held)).Perm (w.live ++ a.pool ++ held) := by
    simp only [live_stack, List.nil_append, ← List.append_assoc]
    exact List.perm_append_comm.append_right _
  constructor
  · intro h
    exact ⟨hperm.nodup_iff.mp h.nodup, fun c hc => h.used c (hperm.mem_iff.mpr hc)⟩
  · intro h
    exact ⟨hperm.nodup_iff.mpr h.nodup, fun c hc => h.used c (hperm.mem_iff.mp hc)⟩

theorem Ints.Keeps.live {a a' : Ints} {w : Work Nat} {held : List Nat}
    (h : a.Keeps (w.live ++ held) ⟨[], []⟩ a') : a.Keeps held w a' :=
  ⟨separate_live.mp h.separate, fun c hc => h.values c (List.mem_append_right _ hc), h.boundaries,
    h.pool⟩

/-- A new integer that the callee holds. -/
theorem newInt_separate {a : Ints} {held : List Nat} (h : a.Separate ⟨[], []⟩ held) :
    a.newInt.2.Separate ⟨[], []⟩ (a.newInt.1 :: held) := by
  have hnew : a.newInt.2.Separate ((⟨[], []⟩ : Work Nat).bind a.newInt.1) held :=
    h.alloc.of_perm rfl rfl (List.Perm.refl _)
  exact separate_live.mpr hnew

theorem newInt_value (a : Ints) : a.newInt.2.value a.newInt.1 = 0 := by
  simp [Ints.newInt, Cells.write]

theorem Ints.Keeps.newInt {a a' : Ints} {held : List Nat} (h : a.Separate ⟨[], []⟩ held)
    (hkeeps : a.newInt.2.Keeps (a.newInt.1 :: held) ⟨[], []⟩ a') : a.Keeps held ⟨[], []⟩ a' := by
  have hbound : a.newInt.2.Keeps held ((⟨[], []⟩ : Work Nat).bind a.newInt.1) a' := hkeeps.live
  have hfresh : a.newInt.1 ∉ held := by
    intro hmem
    exact h.fresh (List.mem_append_right _ hmem)
  have hempty : (⟨[], []⟩ : Work Nat).live.Sublist ((⟨[], []⟩ : Work Nat).bind a.newInt.1).live :=
    List.nil_sublist _
  refine ⟨(hbound.drop hempty).separate, ?_, hkeeps.boundaries, hkeeps.pool⟩
  intro c hc
  rw [hbound.values c hc]
  exact Function.update_of_ne (ne_of_mem_of_not_mem hc hfresh) _ _

theorem runContract_mirrors {run : RunFn} {runPtr : PtrRunFn} (hrun : RunMirrors run runPtr) (env : Env)
    (evm : Evm) {a : Ints} {contract : Contract} {value : Nat} (input : Bytes) {held : List Nat}
    (h : a.Separate ⟨[], []⟩ held) (hvalue : value ∈ held) (hc : contract.value = a.value value) :
    (runContractPtr env runPtr evm a contract value input held).Mirrors
      (runContract env run evm contract input) Prod.fst fun r => a.Keeps held ⟨[], []⟩ r.2 := by
  unfold runContractPtr runContract
  cases hp : contract.codeAddr.bind env.precompiles with
  | none => exact hrun _ a contract value input held h hvalue hc
  | some p =>
    simp only
    cases runPrecompiledContract env.crypto p input contract with
    | none => exact .panic
    | some r => exact .of_ok rfl (Ints.Keeps.refl h)

/-- The value of the contract that an entry point runs. -/
def Entry.sent (caller : ContractRef) : Entry → Int
  | call _ _ value | callCode _ _ value | create _ value => value
  | delegateCall _ _ =>
    match caller with
    | .account _ => 0
    | .contract c => c.value
  | staticCall _ _ => 0

theorem Entry.prepare_value {env : Env} {evm : Evm} {caller : ContractRef} {gas : UInt64} {e : Entry}
    {l : Launch} (h : e.prepare env evm caller gas = some (.inr l)) :
    l.contract.value = e.sent caller := by
  cases e with
  | call addr input value | callCode addr input value =>
    simp only [prepare] at h
    split at h
    · cases h
    · split_ifs at h
      · cases h
        rfl
      · cases h
  | delegateCall addr input =>
    simp only [prepare] at h
    split at h
    · cases h
    · obtain ⟨c, hc, h⟩ := Option.map_eq_some_iff.mp h
      cases h
      cases caller with
      | account a => cases hc
      | contract parent =>
        cases hc
        rfl
  | staticCall addr input =>
    simp only [prepare] at h
    split at h
    · cases h
    · cases h
      rfl
  | create code value =>
    simp only [prepare] at h
    split_ifs at h <;> cases h
    rfl

/-- The reference that an entry point is given for its value, if it makes none. -/
def ValueCell (a : Ints) (held : List Nat) (v : Int) : Option Nat → Prop
  | some c => c ∈ held ∧ v = a.value c
  | none => v = 0

theorem invoke_mirrors {run : RunFn} {runPtr : PtrRunFn} (hrun : RunMirrors run runPtr) (env : Env)
    (evm : Evm) {a : Ints} {caller : ContractRef} (gas : UInt64) {value : Option Nat}
    {held : List Nat} {e : Entry} (h : a.Separate ⟨[], []⟩ held)
    (hvalue : ValueCell a held (e.sent caller) value) :
    (e.invokePtr env runPtr evm a caller gas value held).Mirrors (e.invoke env run evm caller gas)
      Prod.fst fun r => a.Keeps held ⟨[], []⟩ r.2 := by
  rw [Entry.invoke_eq, Entry.invokePtr]
  cases hprep : e.prepare env evm caller gas with
  | none => exact .panic
  | some x =>
    cases x with
    | inl r => exact .of_ok rfl (Ints.Keeps.refl h)
    | inr l =>
      have hsent := Entry.prepare_value hprep
      simp only [Outcome.ofOption_some, Outcome.bind_ok]
      refine Outcome.Mirrors.bind (v := Prod.fst) (P := fun r => a.Keeps held ⟨[], []⟩ r.2) ?_ ?_
      · cases value with
        | some c => exact runContract_mirrors hrun env _ _ h hvalue.1 (hsent.trans hvalue.2)
        | none =>
          have hzero : l.contract.value = a.newInt.2.value a.newInt.1 :=
            (hsent.trans hvalue).trans (newInt_value a).symm
          have hnew := runContract_mirrors hrun env l.evm l.input (newInt_separate h)
            List.mem_cons_self hzero
          exact hnew.mono fun r hkeeps => Ints.Keeps.newInt h hkeeps
      · rintro ⟨r, a'⟩ hkeeps
        exact .of_ok rfl hkeeps

/-! ## Instructions that enter a frame -/

/-- What an instruction has taken from the stack when it invokes an entry point. -/
structure Opened (op : OpCode) (env : Env) (fr : Frame) (i : Invocation) (w : Work Int) : Prop where
  opening : ∀ v, op.opening.eval v ⟨[], fr.stack⟩ = some w
  resume : ∀ r, op.resume env { fr with stack := w.vars.map (fun v => v.getD 0) ++ w.stack } r =
    op.resume env fr r
  closing : ∀ r x v, op.resume env fr r = .ok x →
    (op.closing (x.frame.stack.headD 0)).Leaves v w x.frame.stack
  value : match op with
    | .CREATE => w.var 0 = some (i.entry.sent (.contract i.caller))
    | .CALL | .CALLCODE => w.var 2 = some (i.entry.sent (.contract i.caller))
    | .DELEGATECALL => i.entry.sent (.contract i.caller) = fr.contract.value
    | _ => i.entry.sent (.contract i.caller) = 0

theorem finishCall_stack {fr : Frame} {st : Stack} {retOffset retSize : Int} {r : CallResult}
    {x : ExecResult} (h : finishCall fr st retOffset retSize r = .ok x) :
    ∃ v, x.frame.stack = v :: st := by
  obtain ⟨mem, -, h⟩ := Outcome.bind_eq_ok.mp h
  cases h
  exact ⟨_, rfl⟩

theorem opened {op : OpCode} {env : Env} {evm : Evm} {fr : Frame} {i : Invocation}
    (h : op.invocation env evm fr = some i) : ∃ w, Opened op env fr i w := by
  unfold OpCode.invocation at h
  split at h
  case h_1 value offset size st hst =>
    obtain ⟨input, -, rfl⟩ := Option.map_eq_some_iff.mp h
    refine ⟨⟨[some value, some offset, some size], st⟩, ?_, ?_, ?_, rfl⟩
    · intro v
      rw [hst]
      rfl
    · intro r
      simp only [OpCode.resume, hst]
      rfl
    · intro r x v hx
      simp only [OpCode.resume, hst] at hx
      cases hx
      exact ⟨_, rfl⟩
  case h_2 addr value inOffset inSize retOffset retSize st hst
      | h_3 addr value inOffset inSize retOffset retSize st hst =>
    obtain ⟨input, -, rfl⟩ := Option.map_eq_some_iff.mp h
    refine ⟨⟨[none, some addr, some (u256 value), some inOffset, some inSize, some retOffset,
      some retSize], st⟩, ?_, ?_, ?_, rfl⟩
    · intro v
      rw [hst]
      rfl
    · intro r
      simp only [OpCode.resume, hst]
      rfl
    · intro r x v hx
      simp only [OpCode.resume, hst] at hx
      obtain ⟨b, hb⟩ := finishCall_stack hx
      rw [hb]
      exact ⟨_, rfl⟩
  case h_4 addr inOffset inSize retOffset retSize st hst
      | h_5 addr inOffset inSize retOffset retSize st hst =>
    obtain ⟨input, -, rfl⟩ := Option.map_eq_some_iff.mp h
    refine ⟨⟨[none, some addr, some inOffset, some inSize, some retOffset, some retSize], st⟩,
      ?_, ?_, ?_, rfl⟩
    · intro v
      rw [hst]
      rfl
    · intro r
      simp only [OpCode.resume, hst]
      rfl
    · intro r x v hx
      simp only [OpCode.resume, hst] at hx
      obtain ⟨b, hb⟩ := finishCall_stack hx
      rw [hb]
      exact ⟨_, rfl⟩
  case h_6 => cases h

/-- The callee's value is the operand's reference, the caller's, or a new one. -/
theorem Opened.valueCell {op : OpCode} {env : Env} {fr : Frame} {i : Invocation} {w' : Work Int}
    (h : Opened op env fr i w') {a : Ints} {f : PtrFrame} {w : Work Nat} {held : List Nat}
    (hw : w.map a.value = w') (hf : fr.contract.value = a.value f.value) (hvalue : f.value ∈ held) :
    ValueCell a (w.live ++ held) (i.entry.sent (.contract i.caller)) (op.valueCell f w) := by
  have hvar : ∀ r, w'.var r = some (i.entry.sent (.contract i.caller)) →
      ValueCell a (w.live ++ held) (i.entry.sent (.contract i.caller)) (w.var r) := by
    intro r hr
    rw [← hw, Work.var_map] at hr
    obtain ⟨c, hc, hv⟩ := Option.map_eq_some_iff.mp hr
    rw [hc]
    exact ⟨List.mem_append_left _ (Work.var_mem hc), hv.symm⟩
  have hv := h.value
  cases op
  case CREATE => exact hvar 0 hv
  case CALL | CALLCODE => exact hvar 2 hv
  case DELEGATECALL => exact ⟨List.mem_append_right _ hvalue, hv.trans hf⟩
  all_goals exact hv

/-- After a call the operands and the rest of the stack read as before. -/
theorem reread_eq {w : Work Nat} {a : Cells Int} {w' : Work Int} (h : w.map a.value = w') :
    reread w a = w'.vars.map (fun v => v.getD 0) ++ w'.stack := by
  rw [← h]
  simp [reread, Work.map, Function.comp_def]

/-- The end of an instruction that entered a frame, on references. -/
theorem closing_mirrors {op : OpCode} {env : Env} {evm : Evm} {fr : Frame} {i : Invocation}
    {w' : Work Int}
    (hopen : Opened op env fr i w') {r : CreateResult} {a : Ints} {f : PtrFrame} {w : Work Nat}
    {held : List Nat} (hw : w.map a.value = w') (h : a.Separate w held) (hvalue : f.value ∈ held)
    (hf : fr.contract.value = a.value f.value) :
    ((op.resume env { fr with stack := reread w a.toCells } r).bind fun res =>
      (Outcome.ofOption evm ((op.closing (res.frame.stack.headD 0)).run poolLimit f.value
        a.toCells w)).bind fun s => .ok (res.withCells a f.value s)).Mirrors
      (op.resume env fr r) PtrResult.view (PtrResult.Keeps a f held) := by
  rw [reread_eq hw, hopen.resume r]
  cases hres : op.resume env fr r with
  | panic s => exact .panic
  | timeout => exact .timeout
  | ok res =>
    obtain ⟨vars, heval⟩ := hopen.closing r res (a.value f.value) hres
    rw [← hw] at heval
    obtain ⟨s, hs, hmap, hkeeps⟩ := cells_run (op.closing_putsAtMost _) h hvalue heval
    have hstack : s.2.stack.map s.1.value = res.frame.stack := congrArg Work.stack hmap
    have hfixed : res.frame.contract.value = fr.contract.value := by
      have hhanded := congrArg Contract.value (op.handedOver_fixed env fr.contract)
      rw [(OpCode.resume_spec hres).contract]
      exact hhanded
    have hcontract : res.frame.contract.value = s.1.value f.value :=
      (hfixed.trans hf).trans (hkeeps.values f.value hvalue).symm
    simp only [Outcome.ofOption_some, Outcome.bind_ok, hs]
    exact .of_ok (ExecResult.withCells_view hstack hcontract) ⟨hkeeps.drop (stack_sublist _), rfl⟩

theorem executeCall_mirrors {run : RunFn} {runPtr : PtrRunFn} (hrun : RunMirrors run runPtr)
    {op : OpCode}
    (hc : op.isCall = true) (env : Env) (evm : Evm) {a : Ints} {f : PtrFrame} {held : List Nat}
    (h : a.Separate ⟨[], f.stack⟩ held) (hvalue : f.value ∈ held) :
    (op.executeCall env runPtr evm a f held).Mirrors
      ((operation op).execute env run evm (f.view a.toCells)) PtrResult.view
      (PtrResult.Keeps a f held) := by
  rw [execute_call env run evm (f.view a.toCells) hc, OpCode.executeCall]
  cases hi : op.invocation env evm (f.view a.toCells) with
  | none => exact .panic
  | some i =>
    obtain ⟨w', hopen⟩ := opened hi
    obtain ⟨s, hs, hmap, hkeeps⟩ := cells_run op.opening_putsAtMost h hvalue
      (hopen.opening (a.value f.value))
    simp only [hs, Outcome.ofOption_some, Outcome.bind_ok]
    have hcell := hopen.valueCell (a := { a with toCells := s.1 }) (f := f) hmap
      (hkeeps.values f.value hvalue).symm hvalue
    refine (invoke_mirrors hrun env evm i.gas (separate_live.mpr hkeeps.separate) hcell).bind ?_
    rintro ⟨r, a'⟩ hcallee
    -- the callee has changed none of the operands, nor the caller's value
    have hread : s.2.map a'.value = w' := by
      rw [← hmap]
      exact Work.map_congr fun c hc => hcallee.values c (List.mem_append_left _ hc)
    have hback := hcallee.live
    have hview : (f.view a.toCells).contract.value = a'.value f.value :=
      ((hback.values f.value hvalue).trans (hkeeps.values f.value hvalue)).symm
    refine (closing_mirrors hopen hread hback.separate hvalue hview).mono ?_
    intro x hx
    exact ⟨(hkeeps.trans hback).trans hx.ints, hx.value⟩

theorem executePtr_mirrors {run : RunFn} {runPtr : PtrRunFn} (hrun : RunMirrors run runPtr)
    (op : OpCode)
    (env : Env) (evm : Evm) {a : Ints} {f : PtrFrame} {held : List Nat}
    (h : a.Separate ⟨[], f.stack⟩ held) (hvalue : f.value ∈ held) :
    (op.executePtr env runPtr evm a f held).Mirrors
      ((operation op).execute env run evm (f.view a.toCells)) PtrResult.view
      (PtrResult.Keeps a f held) := by
  unfold OpCode.executePtr
  split_ifs with hc
  · exact executeCall_mirrors hrun hc env evm h hvalue
  · exact executeCells_mirrors (Bool.eq_false_iff.mpr hc) env run evm h hvalue

/-! ## The loop -/

def PtrStep.view : PtrStep → StepResult
  | next evm f a => .next evm (f.view a.toCells)
  | done r _ => .done r

/-- What an iteration leaves of the integers: a frame that ends drops its stack. -/
def PtrStep.Keeps (a : Ints) (value : Nat) (held : List Nat) : PtrStep → Prop
  | next _ f a' => a.Keeps held ⟨[], f.stack⟩ a' ∧ f.value = value
  | done _ a' => a.Keeps held ⟨[], []⟩ a'

theorem empty_sublist (w : Work Nat) : (⟨[], []⟩ : Work Nat).live.Sublist w.live :=
  List.nil_sublist _

theorem finishPtr_view (o : Operation) (res : PtrResult) :
    (finishPtr o res).view = finish o res.view := by
  unfold finishPtr finish
  cases herr : res.err with
  | some e => simp only [PtrResult.view, herr, PtrStep.view]
  | none =>
    simp only [PtrResult.view, herr]
    split_ifs <;> rfl

theorem finishPtr_keeps {a : Ints} {f : PtrFrame} {held : List Nat} (o : Operation) {res : PtrResult}
    (h : res.Keeps a f held) : (finishPtr o res).Keeps a f.value held := by
  have hdone := h.ints.drop (empty_sublist _)
  unfold finishPtr
  cases res.err with
  | some e => exact hdone
  | none =>
    cases o.reverts with
    | true => exact hdone
    | false =>
      cases o.halts with
      | true => exact hdone
      | false =>
        cases o.jumps with
        | true => exact ⟨h.ints, h.value⟩
        | false => exact ⟨h.ints, h.value⟩

/-- Paying for an instruction and making room for it concern no integer. -/
theorem charged_view {op : OpCode} {env : Env} {evm evm' : Evm} {f : PtrFrame} {a : Cells Int}
    {fr : Frame}
    (n : UInt64) (h : ChargeSpec op env evm (f.view a) evm' fr) :
    { f with mem := (fr.expand n).mem, contract := fr.contract }.view a = fr.expand n := by
  have hstack : fr.stack = f.stack.map a.value := h.stack
  have hpc : fr.pc = f.pc := by rw [h.frame]; rfl
  have hvalue : fr.contract.value = a.value f.value := by rw [h.frame]; rfl
  unfold Frame.expand PtrFrame.view
  split_ifs <;> simp only [contract_view hvalue, ← hstack, ← hpc]

theorem performPtr_mirrors {run : RunFn} {runPtr : PtrRunFn} (hrun : RunMirrors run runPtr) (env : Env)
    (evm : Evm) {a : Ints} {f : PtrFrame} {held : List Nat} {ft : Fetched}
    (hft : ft.operation = operation ft.op) (h : a.Separate ⟨[], f.stack⟩ held)
    (hvalue : f.value ∈ held) :
    (performPtr env runPtr evm a f held ft).Mirrors (perform env run evm (f.view a.toCells) ft)
      PtrStep.view (PtrStep.Keeps a f.value held) := by
  unfold performPtr perform
  simp only [hft]
  cases hcharge : charge env (operation ft.op) (evm.attempting (f.view a.toCells) ft.op)
      (f.view a.toCells) ft.memorySize with
  | none =>
    rw [Evm.attempting] at hcharge
    simp only [hcharge, Evm.attempting]
    exact .panic
  | some c =>
    obtain ⟨paid, evm', fr⟩ := c
    have hview := charged_view ft.memorySize (charge_spec hcharge)
    rw [Evm.attempting] at hcharge
    simp only [hcharge, Evm.attempting, Outcome.ofOption_some, Outcome.bind_ok, hview]
    cases paid with
    | false => exact .of_ok rfl ((Ints.Keeps.refl h).drop (empty_sublist _))
    | true =>
      have hexec := executePtr_mirrors hrun ft.op env (evm'.executing (fr.expand ft.memorySize) ft.op)
        (f := { f with mem := (fr.expand ft.memorySize).mem, contract := fr.contract }) h hvalue
      rw [hview] at hexec
      refine hexec.bind fun res hres => ?_
      have hkeeps : res.Keeps a f held := ⟨hres.ints, hres.value⟩
      exact .of_ok (finishPtr_view _ res) (finishPtr_keeps _ hkeeps)

/-- An iteration first looks at the references in use. -/
theorem recorded_keeps {a : Ints} {st held : List Nat} (h : a.Separate ⟨[], st⟩ held) :
    a.Keeps held ⟨[], st⟩ { a with boundaries := a.boundaries ++ [⟨st, a.pool, held⟩] } := by
  refine ⟨h, fun _ _ => rfl, ⟨_, rfl, ?_⟩, id⟩
  intro b hb
  rw [List.mem_singleton.mp hb]
  have hnodup := h.nodup
  rw [live_stack] at hnodup
  exact ⟨hnodup, id⟩

theorem PtrStep.Keeps.after {a a' : Ints} {value : Nat} {held : List Nat} {w : Work Nat} {s : PtrStep}
    (h : a.Keeps held w a') (hs : s.Keeps a' value held) : s.Keeps a value held := by
  cases s with
  | next evm f a'' => exact ⟨h.trans hs.1, hs.2⟩
  | done r a'' => exact h.trans hs

theorem stepPtr_mirrors {run : RunFn} {runPtr : PtrRunFn} (hrun : RunMirrors run runPtr) (env : Env)
    (evm : Evm) {a : Ints} {f : PtrFrame} {held : List Nat} (h : a.Separate ⟨[], f.stack⟩ held)
    (hvalue : f.value ∈ held) :
    (stepPtr env runPtr evm a f held).Mirrors (step env env.jumpTable run evm (f.view a.toCells))
      PtrStep.view (PtrStep.Keeps a f.value held) := by
  have hrec := recorded_keeps h
  unfold stepPtr step
  cases hfetch : fetch env env.jumpTable evm (f.view a.toCells) with
  | none =>
    simp only [hfetch]
    exact .panic
  | some x =>
    simp only [hfetch, Outcome.ofOption_some, Outcome.bind_ok]
    cases x with
    | error e => exact .of_ok rfl (hrec.drop (empty_sublist _))
    | ok ft =>
      exact (performPtr_mirrors hrun env evm (fetch_ok hfetch).1 hrec.separate hvalue).mono
        fun s hs => hs.after hrec

theorem loopPtr_mirrors {run : RunFn} {runPtr : PtrRunFn} (hrun : RunMirrors run runPtr) (env : Env)
    {held : List Nat} (n : Nat) (evm : Evm) {a : Ints} {f : PtrFrame}
    (h : a.Separate ⟨[], f.stack⟩ held) (hvalue : f.value ∈ held) :
    (loopPtr env runPtr held n evm a f).Mirrors (loop env env.jumpTable run n evm (f.view a.toCells))
      Prod.fst fun r => a.Keeps held ⟨[], []⟩ r.2 := by
  induction n generalizing evm a f with
  | zero => exact .timeout
  | succ n ih =>
    unfold loopPtr loop
    split_ifs
    · exact .of_ok rfl ((Ints.Keeps.refl h).drop (empty_sublist _))
    · refine (stepPtr_mirrors hrun env evm h hvalue).bind fun s hs => ?_
      cases s with
      | done r a' => exact .of_ok rfl hs
      | next evm' f' a' =>
        have hin : f'.value ∈ held := hs.2 ▸ hvalue
        exact (ih evm' hs.1.separate hin).mono fun r hr => hs.1.trans hr

theorem interpreterRunPtr_mirrors (env : Env) (n : Nat) :
    RunMirrors (interpreterRun env env.jumpTable n) (interpreterRunPtr env n) := by
  induction n with
  | zero =>
    intro evm a contract value input held h hvalue hc
    exact .timeout
  | succ n ih =>
    intro evm a contract value input held h hvalue hc
    refine Outcome.Mirrors.bind (v := Prod.fst) (P := fun r => a.Keeps held ⟨[], []⟩ r.2) ?_ ?_
    · split_ifs
      · exact .of_ok rfl (Ints.Keeps.refl h)
      · have hloop := loopPtr_mirrors ih env n { evm with depth := evm.depth + 1, returnData := [] }
          (f := ⟨0, [], Memory.new, { contract with input := input }, value⟩) h hvalue
        have hview :
            PtrFrame.view ⟨0, [], Memory.new, { contract with input := input }, value⟩ a.toCells =
            Frame.start contract input := by
          simp only [PtrFrame.view, Frame.start, List.map_nil, ← hc]
        rw [hview] at hloop
        exact hloop
    · rintro ⟨r, a'⟩ hkeeps
      exact .of_ok rfl hkeeps

/-- A whole run on references that are reused computes what the run on values does. If it returns, it
has changed no integer that its caller holds and gives back references that are separate as before;
at every iteration of every frame the references on the live stacks, in the pool and of the values of
the live contracts were pairwise distinct, where a delegate has the value of its parent; and the pool
never was past its limit by more than one `put`. -/
theorem Entry.startPtr_refines (env : Env) (fuel : Nat) (evm : Evm) (a : Ints) (caller : ContractRef)
    (gas : UInt64) (value : Option Nat) (held : List Nat) (e : Entry) (h : a.Separate ⟨[], []⟩ held)
    (hvalue : ValueCell a held (e.sent caller) value) :
    ((e.startPtr env fuel evm a caller gas value held).bind fun r => .ok r.1) =
        e.start env fuel evm caller gas ∧
      ∀ r a', e.startPtr env fuel evm a caller gas value held = .ok (r, a') →
        (∀ c ∈ held, a'.value c = a.value c) ∧ a'.Separate ⟨[], []⟩ held ∧
        (∃ bs, a'.boundaries = a.boundaries ++ bs ∧
          ∀ b ∈ bs, b.Separate ∧ (SmallPool a.pool → SmallPool b.pool)) ∧
        (SmallPool a.pool → SmallPool a'.pool) := by
  have hrun := invoke_mirrors (interpreterRunPtr_mirrors env fuel) env evm gas h hvalue
  refine ⟨hrun.outcome, fun r a' hr => ?_⟩
  have hkeeps := hrun.post (r, a') hr
  exact ⟨hkeeps.values, hkeeps.separate, hkeeps.boundaries, hkeeps.pool⟩

/-- Calls 0x200 with a value of one and adds one to the status. -/
def callAndAdd : Bytes :=
  [0x60, 0, 0x60, 0, 0x60, 0, 0x60, 0, 0x60, 1, 0x61, 2, 0, 0x5a, 0xf1, 0x60, 1, 0x01, 0x00]

/-- Squares the value it is called with. -/
def squareValue : Bytes := [0x34, 0x80, 0x02, 0x00]

def callAndAddEvm : Evm := Evm.new ((StateDB.new.setCode 0x100 callAndAdd).setCode 0x200 squareValue)

/-- One integer, the value zero of the outermost call, and an empty pool. -/
def freshInts : Ints := ⟨⟨fun _ => 0, 1, []⟩, []⟩

theorem callAndAdd_returns : ((Entry.call 0x100 [] 0).start recursiveEnv 20 callAndAddEvm (.account 7)
    100000).Returns fun r => r.err = none ∧ r.evm.trace.length = 32 := by
  decide +kernel

/-- Two frames and fifteen instructions. -/
theorem Entry.startPtr_refines_nested : ∃ r a',
    (Entry.call 0x100 [] 0).startPtr recursiveEnv 20 callAndAddEvm freshInts (.account 7) 100000
      (some 0) [0] = .ok (r, a') ∧
    r.err = none ∧ r.evm.trace.length = 32 ∧ a'.value 0 = 0 ∧ a'.Separate ⟨[], []⟩ [0] ∧
    ∀ b ∈ a'.boundaries, b.Separate ∧ SmallPool b.pool := by
  obtain ⟨r, hr, herr, hevents⟩ := callAndAdd_returns.exists
  have hseparate : freshInts.Separate ⟨[], []⟩ [0] := ⟨by decide, by decide⟩
  obtain ⟨hstart, hpost⟩ := Entry.startPtr_refines recursiveEnv 20 callAndAddEvm freshInts
    (.account 7) 100000 (some 0) [0] (.call 0x100 [] 0) hseparate ⟨by decide, rfl⟩
  obtain ⟨⟨r', a'⟩, hptr, hsame⟩ := Outcome.bind_eq_ok.mp (hstart.trans hr)
  obtain rfl : r' = r := Outcome.ok.inj hsame
  obtain ⟨hvalues, hafter, ⟨bs, hbs, hall⟩, -⟩ := hpost r' a' hptr
  refine ⟨r', a', hptr, herr, hevents, hvalues 0 (by decide), hafter, ?_⟩
  rw [hbs]
  intro b hb
  obtain ⟨hboundary, hsmall⟩ := hall b hb
  exact ⟨hboundary, hsmall (Nat.zero_le _)⟩

end MiniEvm
