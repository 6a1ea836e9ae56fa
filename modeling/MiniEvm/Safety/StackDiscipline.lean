import MiniEvm.Vm.Evolution
import MiniEvm.Vm.Iterates
import MiniEvm.Vm.StackShape

namespace MiniEvm

open Math Framework

namespace Stack

theorem eq_six {st : Stack} (h : st.length = 6) : ∃ a b c d e f, st = [a, b, c, d, e, f] := by
  obtain ⟨a, b, c, d, e, f, rest, rfl⟩ := exists_six (Nat.le_of_eq h.symm)
  obtain rfl : rest = [] := by simpa using h
  exact ⟨a, b, c, d, e, f, rfl⟩

theorem eq_seven {st : Stack} (h : st.length = 7) :
    ∃ a b c d e f g, st = [a, b, c, d, e, f, g] := by
  obtain ⟨a, b, c, d, e, f, g, rest, rfl⟩ := exists_seven (Nat.le_of_eq h.symm)
  obtain rfl : rest = [] := by simpa using h
  exact ⟨a, b, c, d, e, f, g, rfl⟩

end Stack

section Calls

variable {op : OpCode}

/-- A call instruction finds its operands in the items it pops. -/
theorem OpCode.invocation_reads (hc : op.isCall = true) (env : Env) (evm : Evm) (fr : Frame)
    {args : Stack} (st : Stack) (hlen : args.length = (operation op).pop) :
    op.invocation env evm (fr.withStack (args ++ st)) = op.invocation env evm (fr.withStack args) := by
  cases op
  case CREATE =>
    obtain ⟨a, b, c, rfl⟩ := List.length_eq_three.mp hlen
    rfl
  case CALL | CALLCODE =>
    obtain ⟨a, b, c, d, e, f, g, rfl⟩ := Stack.eq_seven hlen
    rfl
  case DELEGATECALL | STATICCALL =>
    obtain ⟨a, b, c, d, e, f, rfl⟩ := Stack.eq_six hlen
    rfl
  all_goals cases hc

theorem finishCall_above (fr : Frame) (st st' : Stack) (retOffset retSize : Int) (r : CallResult) :
    finishCall (fr.withStack st') st retOffset retSize r =
      (finishCall fr [] retOffset retSize r).bind fun x => .ok (x.above st) := by
  simp only [finishCall, Frame.withStack_mem, Frame.withStack_contract, Outcome.bind_assoc]
  congr 1

theorem finishCall_leaves {fr : Frame} {retOffset retSize : Int} {r : CallResult} {x : ExecResult}
    (h : finishCall fr [] retOffset retSize r = .ok x) : x.frame.stack.length = 1 := by
  obtain ⟨mem, -, h⟩ := Outcome.bind_eq_ok.mp h
  cases h
  rfl

theorem OpCode.resume_reads (hc : op.isCall = true) (env : Env) (fr : Frame) (r : CreateResult)
    {args : Stack} (st : Stack) (hlen : args.length = (operation op).pop) :
    op.resume env (fr.withStack (args ++ st)) r =
      (op.resume env (fr.withStack args) r).bind fun x => .ok (x.above st) := by
  have habove : ∀ (args : Stack) retOffset retSize,
      finishCall (fr.withStack (args ++ st)) st retOffset retSize r.toCallResult =
        (finishCall (fr.withStack args) [] retOffset retSize r.toCallResult).bind
          fun x => .ok (x.above st) := by
    intro args retOffset retSize
    exact finishCall_above (fr.withStack args) st (args ++ st) retOffset retSize r.toCallResult
  cases op
  case CREATE =>
    obtain ⟨a, b, c, rfl⟩ := List.length_eq_three.mp hlen
    rfl
  case CALL | CALLCODE =>
    obtain ⟨a, b, c, d, e, f, g, rfl⟩ := Stack.eq_seven hlen
    exact habove [a, b, c, d, e, f, g] f g
  case DELEGATECALL | STATICCALL =>
    obtain ⟨a, b, c, d, e, f, rfl⟩ := Stack.eq_six hlen
    exact habove [a, b, c, d, e, f] e f
  all_goals cases hc

theorem OpCode.resume_leaves (hc : op.isCall = true) {env : Env} {fr : Frame} {r : CreateResult}
    {args : Stack} {x : ExecResult} (hlen : args.length = (operation op).pop)
    (h : op.resume env (fr.withStack args) r = .ok x) :
    x.frame.stack.length = (operation op).push := by
  cases op
  case CREATE =>
    obtain ⟨a, b, c, rfl⟩ := List.length_eq_three.mp hlen
    cases h
    rfl
  case CALL | CALLCODE =>
    obtain ⟨a, b, c, d, e, f, g, rfl⟩ := Stack.eq_seven hlen
    exact finishCall_leaves h
  case DELEGATECALL | STATICCALL =>
    obtain ⟨a, b, c, d, e, f, rfl⟩ := Stack.eq_six hlen
    exact finishCall_leaves h
  all_goals cases hc

end Calls

/-- Executing reads the declared operands only, and what lies below stays below. -/
theorem execute_reads (op : OpCode) (env : Env) (run : RunFn) (evm : Evm) (fr : Frame)
    {args : Stack} (st : Stack) (hlen : args.length = (operation op).pop) :
    (operation op).execute env run evm (fr.withStack (args ++ st)) =
      ((operation op).execute env run evm (fr.withStack args)).bind fun r => .ok (r.above st) := by
  cases hc : op.isCall with
  | false =>
    obtain ⟨f, hf, hshape⟩ := execute_shaped hc
    rw [hf]
    simp only [simple, hshape.reads env evm fr args st hlen]
    cases f env evm (fr.withStack args) <;> rfl
  | true =>
    rw [execute_call _ _ _ _ hc, execute_call _ _ _ _ hc, op.invocation_reads hc env evm fr st hlen]
    cases op.invocation env evm (fr.withStack args) with
    | none => rfl
    | some i =>
      simp only [Outcome.ofOption_some, Outcome.bind_ok, Outcome.bind_assoc]
      congr 1
      funext r
      exact op.resume_reads hc env fr r st hlen

/-- The declared number of results replaces the declared number of operands. -/
theorem execute_leaves {op : OpCode} {env : Env} {run : RunFn} {evm : Evm} {fr : Frame}
    {args : Stack} {r : ExecResult} (hlen : args.length = (operation op).pop)
    (h : (operation op).execute env run evm (fr.withStack args) = .ok r) (herr : r.err = none) :
    r.frame.stack.length = (operation op).push := by
  cases hc : op.isCall with
  | false =>
    obtain ⟨f, hf, hshape⟩ := execute_shaped hc
    rw [hf] at h
    exact (hshape.leaves env evm fr args r hlen (simple_eq_ok.mp h)).length herr
  | true =>
    rw [execute_call _ _ _ _ hc] at h
    obtain ⟨i, -, h⟩ := Outcome.bind_eq_ok.mp h
    obtain ⟨x, -, h⟩ := Outcome.bind_eq_ok.mp h
    exact op.resume_leaves hc hlen h

theorem memorySize_reads {op : OpCode} {f : MemorySizeFn} (hf : (operation op).memorySize = some f)
    {args : Stack} (st : Stack) (hlen : args.length = (operation op).pop) :
    f (args ++ st) = f args ∧ (f args).isSome = true := by
  cases op
  case SHA3 | MSTORE | MSTORE8 | RETURN | REVERT =>
    obtain ⟨x, y, rfl⟩ := List.length_eq_two.mp hlen
    cases hf
    exact ⟨rfl, rfl⟩
  case MLOAD =>
    obtain ⟨x, rfl⟩ := List.length_eq_one_iff.mp hlen
    cases hf
    exact ⟨rfl, rfl⟩
  case CALLDATACOPY | CODECOPY | RETURNDATACOPY | CREATE =>
    obtain ⟨x, y, z, rfl⟩ := List.length_eq_three.mp hlen
    cases hf
    exact ⟨rfl, rfl⟩
  case EXTCODECOPY =>
    obtain ⟨a, args, rfl⟩ := List.exists_cons_of_length_eq_add_one hlen
    obtain ⟨x, y, z, rfl⟩ := List.length_eq_three.mp (Nat.succ.inj hlen)
    cases hf
    exact ⟨rfl, rfl⟩
  case LOG n =>
    obtain ⟨x, y, topics, rfl⟩ := Stack.exists_two (hlen ▸ Nat.le_add_left 2 n : 2 ≤ args.length)
    cases hf
    exact ⟨rfl, rfl⟩
  case CALL | CALLCODE =>
    obtain ⟨a, b, c, d, e, f, g, rfl⟩ := Stack.eq_seven hlen
    cases hf
    exact ⟨rfl, rfl⟩
  case DELEGATECALL | STATICCALL =>
    obtain ⟨a, b, c, d, e, f, rfl⟩ := Stack.eq_six hlen
    cases hf
    exact ⟨rfl, rfl⟩
  all_goals cases hf

theorem gasCost_reads {op : OpCode} (env : Env) (evm : Evm) (fr : Frame) (n : UInt64)
    {args : Stack} (st : Stack) (hlen : args.length = (operation op).pop) :
    (operation op).gasCost env evm (fr.withStack (args ++ st)) n =
      (operation op).gasCost env evm (fr.withStack args) n ∧
    ((operation op).gasCost env evm (fr.withStack args) n).isSome = true := by
  cases op
  case SHA3 | EXP | SSTORE =>
    obtain ⟨x, y, rfl⟩ := List.length_eq_two.mp hlen
    exact ⟨rfl, rfl⟩
  case CALLDATACOPY | CODECOPY | RETURNDATACOPY =>
    obtain ⟨x, y, z, rfl⟩ := List.length_eq_three.mp hlen
    exact ⟨rfl, rfl⟩
  case EXTCODECOPY =>
    obtain ⟨a, args, rfl⟩ := List.exists_cons_of_length_eq_add_one hlen
    obtain ⟨x, y, z, rfl⟩ := List.length_eq_three.mp (Nat.succ.inj hlen)
    exact ⟨rfl, rfl⟩
  case LOG m =>
    obtain ⟨x, y, topics, rfl⟩ := Stack.exists_two (hlen ▸ Nat.le_add_left 2 m : 2 ≤ args.length)
    exact ⟨rfl, rfl⟩
  case SELFDESTRUCT =>
    obtain ⟨x, rfl⟩ := List.length_eq_one_iff.mp hlen
    exact ⟨rfl, rfl⟩
  case CALL | CALLCODE =>
    obtain ⟨a, b, c, d, e, f, g, rfl⟩ := Stack.eq_seven hlen
    exact ⟨rfl, rfl⟩
  case DELEGATECALL | STATICCALL =>
    obtain ⟨a, b, c, d, e, f, rfl⟩ := Stack.eq_six hlen
    exact ⟨rfl, rfl⟩
  all_goals exact ⟨rfl, rfl⟩

theorem enforceRestrictions_reads {op : OpCode} (env : Env) (evm : Evm) {args : Stack} (st : Stack)
    (hlen : args.length = (operation op).pop) :
    enforceRestrictions env evm op (operation op) (args ++ st) =
      enforceRestrictions env evm op (operation op) args ∧
    (op = .CALL → (args.back 2).isSome = true) := by
  by_cases hop : op = .CALL
  · subst hop
    obtain ⟨a, b, c, d, e, f, g, rfl⟩ := Stack.eq_seven hlen
    exact ⟨rfl, fun _ => rfl⟩
  · refine ⟨?_, fun h => absurd h hop⟩
    simp [enforceRestrictions, hop]

/-- What the declared numbers of an entry promise when `args` are its operands and `st` lies below
them: nothing of `st` is read, no operand is missing, and what is left has the declared length. -/
structure Disciplined (env : Env) (op : OpCode) (o : Operation) (evm : Evm) (fr : Frame)
    (args st : Stack) : Prop where
  memorySize : ∀ f, o.memorySize = some f →
    f (args ++ st) = f args ∧ (f args).isSome = true
  restrictions : enforceRestrictions env evm op o (args ++ st) = enforceRestrictions env evm op o args ∧
    (op = .CALL → (args.back 2).isSome = true)
  gasCost : ∀ n, o.gasCost env evm (fr.withStack (args ++ st)) n =
      o.gasCost env evm (fr.withStack args) n ∧
    (o.gasCost env evm (fr.withStack args) n).isSome = true
  execute : ∀ run, o.execute env run evm (fr.withStack (args ++ st)) =
    (o.execute env run evm (fr.withStack args)).bind fun r => .ok (r.above st)
  change : ∀ run r, o.execute env run evm (fr.withStack (args ++ st)) = .ok r → r.err = none →
    r.frame.stack.length + o.pop = (args ++ st).length + o.push

theorem disciplined (env : Env) (op : OpCode) (evm : Evm) (fr : Frame) {args : Stack} (st : Stack)
    (hlen : args.length = (operation op).pop) :
    Disciplined env op (operation op) evm fr args st where
  memorySize _ hf := memorySize_reads hf st hlen
  restrictions := enforceRestrictions_reads env evm st hlen
  gasCost n := gasCost_reads env evm fr n st hlen
  execute run := execute_reads op env run evm fr st hlen
  change run r h herr := by
    rw [execute_reads op env run evm fr st hlen] at h
    obtain ⟨x, hx, h⟩ := Outcome.bind_eq_ok.mp h
    cases h
    have hleft := execute_leaves hlen hx herr
    simp only [ExecResult.above, Frame.withStack_stack, List.length_append]
    omega

theorem Stack.validate_eq_none {st : Stack} {pop push : Nat} (h : st.validate pop push = none) :
    pop ≤ st.length ∧ st.length + push - pop ≤ stackLimit := by
  unfold validate at h
  split_ifs at h
  omega

theorem Stack.take_length {st : Stack} {pop push : Nat} (h : st.validate pop push = none) :
    (st.take pop).length = pop := by
  rw [List.length_take, Nat.min_eq_left (validate_eq_none h).1]

/-- An iteration that goes on leaves at most as many items as the stack may hold. -/
theorem step_stack {env : Env} {run : RunFn} {evm evm' : Evm} {fr fr' : Frame}
    (h : step env env.jumpTable run evm fr = .ok (.next evm' fr')) :
    fr'.stack.length ≤ stackLimit := by
  have hlength : ∀ {op : OpCode} {n : UInt64} {evm1 : Evm} {fr1 : Frame} {res : ExecResult},
      Ready env evm fr op n →
      charge env (operation op) (evm.attempting fr op) fr n = some (true, evm1, fr1) →
      (operation op).execute env run (evm1.executing (fr1.expand n) op) (fr1.expand n) = .ok res →
      res.err = none → res.frame.stack.length ≤ stackLimit := by
    intro op n evm1 fr1 res ready charged executed herr
    have hst : (fr1.expand n).stack = fr.stack := by
      rw [Frame.expand_stack, (charge_spec charged).stack]
    have hvalid := hst ▸ ready.valid
    have hsplit := List.take_append_drop (operation op).pop (fr1.expand n).stack
    have hd := disciplined env op (evm1.executing (fr1.expand n) op) (fr1.expand n)
      ((fr1.expand n).stack.drop (operation op).pop) (Stack.take_length hvalid)
    have hchange := hd.change run res (by rw [hsplit]; exact executed) herr
    rw [hsplit] at hchange
    have hbound := Stack.validate_eq_none hvalid
    omega
  generalize hs : StepResult.next evm' fr' = s at h
  cases step_cases h with
  | rejected | unpaid => cases hs
  | simple ready hc charged executed =>
    obtain ⟨herr, rfl⟩ := finish_eq_next hs.symm
    exact hlength ready charged executed herr
  | @call op n evm1 fr1 i r res ready hc charged invocation invoked resumed =>
    obtain ⟨herr, rfl⟩ := finish_eq_next hs.symm
    refine hlength ready charged ?_ herr
    rw [execute_call _ _ _ _ hc, invocation]
    simp only [Outcome.ofOption_some, Outcome.bind_ok, invoked, resumed]

/-- In every frame of every run the stack holds at most 1024 items, and every instruction of every
fork that passes the check of the stack stays within its declared operands and results. -/
theorem stack_discipline (env : Env) :
    (∀ (run : RunFn) (evm₀ evm : Evm) (c : Contract) (input : Bytes) (xs : List Unit) (fr : Frame),
      Iterates env run (fun _ _ => True) (fun _ _ => ()) evm₀ (Frame.start c input) xs evm fr →
        fr.stack.length ≤ stackLimit) ∧
    ∀ (op : OpCode) (o : Operation) (evm : Evm) (fr : Frame), env.jumpTable op = some o →
      fr.stack.validate o.pop o.push = none →
        o.pop ≤ fr.stack.length ∧
        Disciplined env op o evm fr (fr.stack.take o.pop) (fr.stack.drop o.pop) := by
  constructor
  · intro run evm₀ evm c input xs fr h
    cases h with
    | start => exact Nat.zero_le _
    | step before holds next => exact step_stack next
  · intro op o evm fr hop hvalid
    obtain rfl := Env.jumpTable_eq hop
    exact ⟨(Stack.validate_eq_none hvalid).1,
      disciplined env op evm fr _ (Stack.take_length hvalid)⟩

end MiniEvm
