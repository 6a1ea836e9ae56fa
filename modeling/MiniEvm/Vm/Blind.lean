import MiniEvm.Framework.Simulation
import MiniEvm.Vm.Alike
import MiniEvm.Vm.Entry

namespace MiniEvm

open Math Framework

/-- Whether an instruction is about to read or write a marker slot. -/
def OpCode.touchesMarker : OpCode → Stack → Bool
  | SLOAD, x :: _ | SSTORE, x :: _ => markerSlots.contains (bigToHash x)
  | _, _ => false

/-! ## What instructions see of the machine -/

section Instructions

/-- What an instruction returns beside the machine. -/
def ExecResult.shown (r : ExecResult) : Bytes × Option VmError × Frame := (r.ret, r.err, r.frame)

structure ExecResult.Alike (r r' : ExecResult) : Prop where
  shown : r.shown = r'.shown
  evm : r.evm.Alike r'.evm

/-- An instruction to which alike machines look the same. -/
def SimpleFn.Blind (f : SimpleFn) : Prop :=
  ∀ env evm evm' fr, evm.Alike evm' →
    (f env evm fr).map ExecResult.shown = (f env evm' fr).map ExecResult.shown

theorem pushOp_blind {f : Env → Evm → Frame → Int}
    (hf : ∀ env evm evm' fr, evm.Alike evm' → f env evm fr = f env evm' fr) : (pushOp f).Blind := by
  intro env evm evm' fr h
  simp only [pushOp, hf env evm evm' fr h]
  rfl

theorem unaryOp_blind {f : Env → Evm → Frame → Int → Int}
    (hf : ∀ env evm evm' fr x, evm.Alike evm' → f env evm fr x = f env evm' fr x) :
    (unaryOp f).Blind := by
  intro env evm evm' fr h
  unfold unaryOp
  cases fr.stack with
  | nil => rfl
  | cons x st =>
    simp only [hf env evm evm' fr x h]
    rfl

theorem readOp_blind (f : Frame → Int → Option Bytes) : (readOp f).Blind := by
  intro env evm evm' fr h
  unfold readOp
  cases fr.stack with
  | nil => rfl
  | cons x st =>
    simp only
    cases f fr x <;> rfl

theorem binaryOp_blind (f : Int → Int → Int) : (binaryOp f).Blind := by
  intro env evm evm' fr h
  unfold binaryOp
  obtain _ | ⟨x, _ | ⟨y, st⟩⟩ := fr.stack <;> rfl

theorem ternaryOp_blind (f : Int → Int → Int → Int) : (ternaryOp f).Blind := by
  intro env evm evm' fr h
  unfold ternaryOp
  obtain _ | ⟨x, _ | ⟨y, _ | ⟨z, st⟩⟩⟩ := fr.stack <;> rfl

theorem copyToMemory_blind (data : Bytes) (evm evm' : Evm) (fr : Frame) (memOffset dataOffset l : Int)
    (st : Stack) :
    (copyToMemory data evm fr memOffset dataOffset l st).map ExecResult.shown =
      (copyToMemory data evm' fr memOffset dataOffset l st).map ExecResult.shown := by
  unfold copyToMemory
  cases getDataBig data dataOffset l with
  | none => rfl
  | some b =>
    simp only [Option.bind_some]
    cases fr.mem.set (uint64 memOffset) (uint64 l) b <;> rfl

theorem copyOp_blind (data : Frame → Bytes) : (copyOp data).Blind := by
  intro env evm evm' fr h
  unfold copyOp
  obtain _ | ⟨x, _ | ⟨y, _ | ⟨z, st⟩⟩⟩ := fr.stack
  case cons.cons.cons => exact copyToMemory_blind ..
  all_goals rfl

theorem opExtCodeCopy_blind : opExtCodeCopy.Blind := by
  intro env evm evm' fr h
  unfold opExtCodeCopy
  obtain _ | ⟨a, _ | ⟨x, _ | ⟨y, _ | ⟨z, st⟩⟩⟩⟩ := fr.stack
  case cons.cons.cons.cons =>
    simp only [h.stateDB.code]
    exact copyToMemory_blind ..
  all_goals rfl

theorem opReturnDataCopy_blind : opReturnDataCopy.Blind := by
  intro env evm evm' fr h
  unfold opReturnDataCopy
  obtain _ | ⟨x, _ | ⟨y, _ | ⟨z, st⟩⟩⟩ := fr.stack
  case cons.cons.cons =>
    simp only [h.world.returnData]
    split_ifs
    · rfl
    · cases slice evm'.returnData (uint64 y).toNat (uint64 (y + z)).toNat with
      | none => rfl
      | some b =>
        simp only [Option.bind_some]
        cases fr.mem.set (uint64 x) (uint64 z) b <;> rfl
  all_goals rfl

theorem opSignExtend_blind : opSignExtend.Blind := by
  intro env evm evm' fr h
  unfold opSignExtend
  obtain _ | ⟨x, _ | ⟨y, st⟩⟩ := fr.stack
  · rfl
  all_goals
    simp only
    split_ifs <;> rfl

theorem opSha3_blind : opSha3.Blind := by
  intro env evm evm' fr h
  unfold opSha3
  obtain _ | ⟨x, _ | ⟨y, st⟩⟩ := fr.stack
  case cons.cons =>
    simp only
    cases fr.mem.get (int64 x) (int64 y) <;> rfl
  all_goals rfl

theorem opPop_blind : opPop.Blind := by
  intro env evm evm' fr h
  unfold opPop
  cases fr.stack <;> rfl

theorem opMstore_blind : opMstore.Blind := by
  intro env evm evm' fr h
  unfold opMstore
  obtain _ | ⟨x, _ | ⟨y, st⟩⟩ := fr.stack
  case cons.cons =>
    simp only
    cases fr.mem.set (uint64 x) 32 (paddedBigBytes y 32) <;> rfl
  all_goals rfl

theorem opMstore8_blind : opMstore8.Blind := by
  intro env evm evm' fr h
  unfold opMstore8
  obtain _ | ⟨x, _ | ⟨y, st⟩⟩ := fr.stack
  case cons.cons =>
    simp only
    split_ifs <;> rfl
  all_goals rfl

theorem opReturn_blind : opReturn.Blind := by
  intro env evm evm' fr h
  unfold opReturn
  obtain _ | ⟨x, _ | ⟨y, st⟩⟩ := fr.stack
  case cons.cons =>
    simp only
    cases fr.mem.get (int64 x) (int64 y) <;> rfl
  all_goals rfl

theorem opStop_blind : opStop.Blind := fun _ _ _ _ _ => rfl

theorem jumpTo_blind (evm evm' : Evm) (fr : Frame) (pos : Int) (st : Stack) :
    (jumpTo evm fr pos st).map ExecResult.shown = (jumpTo evm' fr pos st).map ExecResult.shown := by
  unfold jumpTo
  obtain _ | ⟨ok, d⟩ := fr.contract.jumpdests.has fr.contract.codeHash fr.contract.code pos
  · rfl
  · cases ok <;> rfl

theorem opJump_blind : opJump.Blind := by
  intro env evm evm' fr h
  unfold opJump
  cases fr.stack with
  | nil => rfl
  | cons pos st => exact jumpTo_blind ..

theorem opJumpi_blind : opJumpi.Blind := by
  intro env evm evm' fr h
  unfold opJumpi
  obtain _ | ⟨x, _ | ⟨y, st⟩⟩ := fr.stack
  case cons.cons =>
    simp only
    split_ifs
    · exact jumpTo_blind ..
    · rfl
  all_goals rfl

theorem opBalance_blind : opBalance.Blind := by
  intro env evm evm' fr h
  unfold opBalance
  cases fr.stack with
  | nil => rfl
  | cons x st =>
    simp only [(h.stateDB.getBalance (bigToAddress x)).1]
    rfl

theorem opSstore_blind : opSstore.Blind := by
  intro env evm evm' fr h
  unfold opSstore
  obtain _ | ⟨x, _ | ⟨y, st⟩⟩ := fr.stack <;> rfl

theorem opSuicide_blind : opSuicide.Blind := by
  intro env evm evm' fr h
  unfold opSuicide
  cases fr.stack <;> rfl

theorem makeLog_blind (size : Nat) : (makeLog size).Blind := by
  intro env evm evm' fr h
  unfold makeLog
  obtain _ | ⟨x, _ | ⟨y, st⟩⟩ := fr.stack
  case cons.cons =>
    simp only
    split_ifs
    · cases fr.mem.get (int64 x) (int64 y) <;> rfl
    · rfl
  all_goals rfl

theorem makePush_blind (size : Nat) : (makePush size).Blind := by
  intro env evm evm' fr h
  unfold makePush
  simp only [Option.map_map]
  rfl

theorem makeDup_blind (size : Nat) : (makeDup size).Blind := by
  intro env evm evm' fr h
  unfold makeDup
  simp only [Option.map_map]
  rfl

theorem makeSwap_blind (size : Nat) : (makeSwap size).Blind := by
  intro env evm evm' fr h
  unfold makeSwap
  cases fr.stack with
  | nil => rfl
  | cons top st =>
    simp only [Option.map_map]
    rfl

/-- The mark is all that an instrumented instruction does beside the plain one. -/
theorem arithOp_shown (key : String) (f : Int → Int → Int) (env : Env) (evm evm' : Evm) (fr : Frame) :
    (arithOp key f env evm fr).map ExecResult.shown =
      (plainArith f env evm' fr).map ExecResult.shown := by
  unfold arithOp plainArith binaryOp
  obtain _ | ⟨x, _ | ⟨y, st⟩⟩ := fr.stack <;> rfl

theorem opDiv_shown (env : Env) (evm evm' : Evm) (fr : Frame) :
    (opDiv env evm fr).map ExecResult.shown = (plainDiv env evm' fr).map ExecResult.shown := by
  unfold opDiv plainDiv binaryOp
  obtain _ | ⟨x, _ | ⟨y, st⟩⟩ := fr.stack
  case cons.cons =>
    simp only
    split_ifs <;> rfl
  all_goals rfl

/-- A load sees the value of its slot. -/
theorem opSload_shown {evm evm' : Evm} (h : evm.Alike evm') {fr : Frame}
    (hslot : OpCode.SLOAD.touchesMarker fr.stack = false) (env : Env) :
    (opSload env evm fr).map ExecResult.shown = (opSload env evm' fr).map ExecResult.shown := by
  unfold opSload
  cases hst : fr.stack with
  | nil => rfl
  | cons x st =>
    have hk : bigToHash x ∉ markerSlots := by simpa [OpCode.touchesMarker, hst] using hslot
    simp only [StateDB.getState, h.stateDB.storage fr.contract.self hk]
    rfl

theorem arithOp_blind (key : String) (f : Int → Int → Int) : (arithOp key f).Blind := by
  intro env evm evm' fr _
  rw [arithOp_shown key f env evm evm fr, arithOp_shown key f env evm' evm fr]

theorem opDiv_blind : opDiv.Blind := by
  intro env evm evm' fr _
  rw [opDiv_shown env evm evm fr, opDiv_shown env evm' evm fr]

/-- Alike machines look the same to every instruction that enters no frame and loads no slot. -/
theorem execute_blind {op : OpCode} (hc : op.isCall = false) (hload : op ≠ .SLOAD) :
    ∃ f, (operation op).execute = simple f ∧ f.Blind := by
  cases op
  case CREATE | CALL | CALLCODE | DELEGATECALL | STATICCALL => cases hc
  case SLOAD => exact absurd rfl hload
  case ADD | SUB | MUL => exact ⟨_, rfl, arithOp_blind _ _⟩
  case DIV => exact ⟨_, rfl, opDiv_blind⟩
  case JUMP => exact ⟨_, rfl, opJump_blind⟩
  case JUMPI => exact ⟨_, rfl, opJumpi_blind⟩
  case BALANCE => exact ⟨_, rfl, opBalance_blind⟩
  case SSTORE => exact ⟨_, rfl, opSstore_blind⟩
  case SELFDESTRUCT => exact ⟨_, rfl, opSuicide_blind⟩
  case LOG n => exact ⟨_, rfl, makeLog_blind _⟩
  case SDIV | MOD | SMOD | EXP | LT | GT | SLT | SGT | EQ | AND | OR | XOR | BYTE =>
    exact ⟨_, rfl, binaryOp_blind _⟩
  case ADDMOD | MULMOD => exact ⟨_, rfl, ternaryOp_blind _⟩
  case EXTCODESIZE =>
    refine ⟨_, rfl, unaryOp_blind ?_⟩
    intro env evm evm' fr x h
    simp only [StateDB.getCodeSize]
    rw [h.stateDB.field (fun s => s.code.length) (fun _ => rfl)]
  case ISZERO | NOT | BLOCKHASH => exact ⟨_, rfl, unaryOp_blind fun _ _ _ _ _ _ => rfl⟩
  case CALLDATALOAD | MLOAD => exact ⟨_, rfl, readOp_blind _⟩
  case CALLDATACOPY | CODECOPY => exact ⟨_, rfl, copyOp_blind _⟩
  case SIGNEXTEND => exact ⟨_, rfl, opSignExtend_blind⟩
  case SHA3 => exact ⟨_, rfl, opSha3_blind⟩
  case EXTCODECOPY => exact ⟨_, rfl, opExtCodeCopy_blind⟩
  case RETURNDATACOPY => exact ⟨_, rfl, opReturnDataCopy_blind⟩
  case POP => exact ⟨_, rfl, opPop_blind⟩
  case MSTORE => exact ⟨_, rfl, opMstore_blind⟩
  case MSTORE8 => exact ⟨_, rfl, opMstore8_blind⟩
  case RETURN | REVERT => exact ⟨_, rfl, opReturn_blind⟩
  case STOP | JUMPDEST => exact ⟨_, rfl, opStop_blind⟩
  case PUSH n => exact ⟨_, rfl, makePush_blind _⟩
  case DUP n => exact ⟨_, rfl, makeDup_blind _⟩
  case SWAP n => exact ⟨_, rfl, makeSwap_blind _⟩
  case RETURNDATASIZE =>
    refine ⟨_, rfl, pushOp_blind ?_⟩
    intro env evm evm' fr h
    rw [h.world.returnData]
  all_goals exact ⟨_, rfl, pushOp_blind fun _ _ _ _ _ => rfl⟩

/-- An execution with or without the marks shows what the instrumented one shows, and leaves the
machine with or without them. -/
theorem executeWith_simple (marks : Bool) {op : OpCode} (hc : op.isCall = false) :
    ∃ f g, op.executeWith marks = simple f ∧ (operation op).execute = simple g ∧
      (∀ env evm fr, (f env evm fr).map ExecResult.shown = (g env evm fr).map ExecResult.shown) ∧
      ∀ env evm fr r, f env evm fr = some r → r.evm = op.effectWith marks env evm fr := by
  have hmarked : ∀ g, (operation op).execute = simple g → ∀ env evm fr r, g env evm fr = some r →
      r.evm = op.effect env evm fr := by
    intro g hg env evm fr r hr
    have hexec : (operation op).execute env (fun _ _ _ => .timeout) evm fr = .ok r := by
      rw [hg]
      exact simple_eq_ok.mpr hr
    exact (execute_simple hc hexec).evm
  by_cases hplain : marks = false ∧ op.isMarking = true
  · obtain ⟨rfl, hm⟩ := hplain
    have hbinary : ∀ (h : Int → Int → Int) env evm fr r, binaryOp h env evm fr = some r → r.evm = evm :=
      fun h env evm fr r hr => (binaryOp_local h env evm fr r hr).1
    have heffect : ∀ env evm fr, op.effectWith false env evm fr = evm := by
      intro env evm fr
      simp [OpCode.effectWith, hm]
    simp only [heffect]
    cases op
    case ADD | SUB | MUL => exact ⟨_, _, rfl, rfl, fun _ _ _ => (arithOp_shown ..).symm, hbinary _⟩
    case DIV => exact ⟨_, _, rfl, rfl, fun _ _ _ => (opDiv_shown ..).symm, hbinary _⟩
    all_goals cases hm
  · obtain ⟨g, hg⟩ := execute_eq_simple hc
    have hsame : op.executeWith marks = simple g := by
      rw [← hg]
      cases marks with
      | true => exact congrArg Operation.execute (operationWith_true op)
      | false => exact op.executeWith_unmarking false (by simpa using hplain)
    have heffect : ∀ env evm fr, op.effectWith marks env evm fr = op.effect env evm fr := by
      intro env evm fr
      refine if_pos ?_
      cases marks <;> simp_all
    refine ⟨g, g, hsame, hg, fun _ _ _ => rfl, ?_⟩
    intro env evm fr r hr
    rw [heffect]
    exact hmarked g hg env evm fr r hr

theorem simple_injective : Function.Injective simple := by
  intro f g h
  funext env evm fr
  have hrun := congrFun (congrFun (congrFun (congrFun h env) fun _ _ _ => .timeout) evm) fr
  simp only [simple] at hrun
  cases hf : f env evm fr <;> cases hg : g env evm fr <;> simp_all

/-! ## What instructions do to alike machines -/

/-- The instrumented instructions change marker slots only. -/
theorem OpCode.effectWith_marking (marks : Bool) {op : OpCode} (hm : op.isMarking = true) (env : Env)
    (evm : Evm) (fr : Frame) :
    ∃ db, op.effectWith marks env evm fr = { evm with stateDB := db } ∧ db.Alike evm.stateDB := by
  cases marks with
  | false => exact ⟨evm.stateDB, by simp [effectWith, hm], .refl _⟩
  | true =>
    show ∃ db, op.effect env evm fr = _ ∧ _
    cases hres : op.exactResult fr.stack with
    | none =>
      have heffect : op.effect env evm fr = evm := by
        cases op
        case ADD | SUB | MUL | DIV => simp only [effect, hres]
        all_goals cases hm
      exact ⟨_, heffect, .refl _⟩
    | some kv =>
      have heffect : op.effect env evm fr = markOverflow kv.1 kv.2 evm fr := by
        cases op
        case ADD | SUB | MUL | DIV => simp only [effect, hres]
        all_goals cases hm
      rw [heffect, markOverflow]
      split_ifs
      · exact ⟨_, rfl, (StateDB.Alike.refl _).mark _ (exactResult_key hres) _⟩
      · exact ⟨_, rfl, .refl _⟩

theorem OpCode.effect_alike {op : OpCode} (hm : op.isMarking = false) {evm evm' : Evm}
    (h : evm.Alike evm') {fr : Frame} (hslot : op.touchesMarker fr.stack = false) (env : Env) :
    (op.effect env evm fr).Alike (op.effect env evm' fr) := by
  have hload : ∀ x st, fr.stack = x :: st → op = .SLOAD → bigToHash x ∉ markerSlots := by
    rintro x st hst rfl
    simpa [touchesMarker, hst] using hslot
  have hexact : op.exactResult fr.stack = none := by
    cases op
    case ADD | SUB | MUL | DIV => cases hm
    all_goals rfl
  unfold effect
  split
  · exact h.withDB (h.stateDB.getBalance _).2
  · rename_i x st hst
    have hval := h.stateDB.storage fr.contract.self (hload x st hst rfl)
    have hev : Event.Alike
        (.callback .SLOAD (bigToHash x) (Hash.big (evm.stateDB.getState fr.contract.self (bigToHash x)).1))
        (.callback .SLOAD (bigToHash x)
          (Hash.big (evm'.stateDB.getState fr.contract.self (bigToHash x)).1)) := by
      simp only [StateDB.getState, hval]
      exact .refl _
    exact (h.withDB (h.stateDB.enter (.getState _ _) rfl)).emit hev
  · exact (h.withDB (h.stateDB.enter (.setState _ _ _) rfl)).emit (.refl _)
  · obtain ⟨hbalance, hdb⟩ := h.stateDB.getBalance fr.contract.self
    simp only [hbalance]
    exact h.withDB ((hdb.enter (.addBalance _ _) rfl).enter (.suicide _) rfl)
  · exact h.withDB (h.stateDB.perform (.addLog _) (by rintro _ ⟨⟩))
  · simp only [hexact]
    exact h

/-- With or without the marks, an instruction takes alike machines to alike machines. -/
theorem OpCode.effectWith_alike (marks marks' : Bool) {op : OpCode} {evm evm' : Evm}
    (h : evm.Alike evm') {fr : Frame} (hslot : op.touchesMarker fr.stack = false) (env : Env) :
    (op.effectWith marks env evm fr).Alike (op.effectWith marks' env evm' fr) := by
  cases hm : op.isMarking with
  | true =>
    obtain ⟨db, heq, hdb⟩ := op.effectWith_marking marks hm env evm fr
    obtain ⟨db', heq', hdb'⟩ := op.effectWith_marking marks' hm env evm' fr
    rw [heq, heq']
    exact h.withDB (hdb.trans (h.stateDB.trans hdb'.symm))
  | false =>
    have hplain : ∀ m e, op.effectWith m env e fr = op.effect env e fr := by
      intro m e
      simp [effectWith, hm]
    rw [hplain, hplain]
    exact effect_alike hm h hslot env

theorem execute_shown {op : OpCode} (hc : op.isCall = false) {g : SimpleFn}
    (hg : (operation op).execute = simple g) {evm evm' : Evm} (h : evm.Alike evm') {fr : Frame}
    (hslot : op.touchesMarker fr.stack = false) (env : Env) :
    (g env evm fr).map ExecResult.shown = (g env evm' fr).map ExecResult.shown := by
  by_cases hload : op = .SLOAD
  · subst hload
    obtain rfl : g = opSload := simple_injective hg.symm
    exact opSload_shown h hslot env
  · obtain ⟨f, hf, hblind⟩ := execute_blind hc hload
    obtain rfl : g = f := simple_injective (hg.symm.trans hf)
    exact hblind env evm evm' fr h

theorem executeWith_alike (marks marks' : Bool) {op : OpCode} (hc : op.isCall = false)
    {evm evm' : Evm} (h : evm.Alike evm') {fr : Frame} (hslot : op.touchesMarker fr.stack = false)
    (env : Env) (run run' : RunFn) {good : ExecResult → Prop} :
    (op.executeWith marks env run evm fr).Simulates (op.executeWith marks' env run' evm' fr) good
      ExecResult.Alike := by
  obtain ⟨f, g, hf, hg, hfg, hevm⟩ := executeWith_simple marks hc
  obtain ⟨f', g', hf', hg', hfg', hevm'⟩ := executeWith_simple marks' hc
  obtain rfl : g = g' := simple_injective (hg.symm.trans hg')
  have hseen : (f env evm fr).map ExecResult.shown = (f' env evm' fr).map ExecResult.shown := by
    rw [hfg, hfg', execute_shown hc hg h hslot]
  rw [hf, hf']
  apply Outcome.Simulates.ofOption
  cases hr : f env evm fr with
  | none =>
    rw [hr] at hseen
    rw [Option.map_eq_none_iff.mp hseen.symm]
    exact .none
  | some r =>
    rw [hr] at hseen
    obtain ⟨r', hr', hshown⟩ := Option.map_eq_some_iff.mp hseen.symm
    rw [hr']
    refine .some ⟨hshown.symm, ?_⟩
    rw [hevm env evm fr r hr, hevm' env evm' fr r' hr']
    exact op.effectWith_alike marks marks' h hslot env

end Instructions

/-! ## What the gas functions see of the machine -/

section Prices

structure GasResult.Alike (g g' : GasResult) : Prop where
  cost : g.cost = g'.cost
  mem : g.mem = g'.mem
  evm : g.evm.Alike g'.evm

/-- A gas function to which alike machines look the same. -/
def GasFn.Blind (f : GasFn) : Prop :=
  ∀ env evm evm' fr n, evm.Alike evm' → Option.Rel GasResult.Alike (f env evm fr n) (f env evm' fr n)

theorem constGasFunc_blind (gas : UInt64) : (constGasFunc gas).Blind :=
  fun _ _ _ _ _ h => .some ⟨rfl, rfl, h⟩

theorem tableGasFunc_blind (gas : GasTable → UInt64) : (tableGasFunc gas).Blind :=
  fun _ _ _ _ _ h => .some ⟨rfl, rfl, h⟩

theorem memoryGasFunc_blind (base : UInt64) : (memoryGasFunc base).Blind :=
  fun _ _ _ _ _ h => .some ⟨rfl, rfl, h⟩

theorem gasReturn_blind : gasReturn.Blind := fun _ _ _ _ _ h => .some ⟨rfl, rfl, h⟩

theorem wordsGasFunc_blind (base : GasTable → UInt64) (i : Nat) (perWord : UInt64) :
    (wordsGasFunc base i perWord).Blind :=
  fun _ _ _ fr _ h => rel_map (fr.stack.back i) fun _ => ⟨rfl, rfl, h⟩

theorem gasExp_blind : gasExp.Blind :=
  fun _ _ _ fr _ h => rel_map (fr.stack.back 1) fun _ => ⟨rfl, rfl, h⟩

theorem makeGasLog_blind (n : UInt64) : (makeGasLog n).Blind := by
  intro env evm evm' fr memorySize h
  refine rel_map (fr.stack.back 1) ?_
  intro l
  cases checked (bigUint64 l) with
  | error e => exact ⟨rfl, rfl, h⟩
  | ok size => exact ⟨rfl, rfl, h⟩

theorem chargeCall_alike (gt : GasTable) {evm evm' : Evm} (h : evm.Alike evm') (fr : Frame)
    (mem : Memory) (base : Except VmError UInt64) (callCost : Int) :
    (chargeCall gt evm fr mem base callCost).Alike (chargeCall gt evm' fr mem base callCost) := by
  have htemp : ∀ temp, Evm.Alike { evm with callGasTemp := temp } { evm' with callGasTemp := temp } :=
    fun _ => ⟨⟨h.stateDB, h.world.depth, h.world.readOnly, h.world.returnData, rfl, h.world.abort⟩,
      h.trace⟩
  unfold chargeCall
  cases base with
  | error e => exact ⟨rfl, rfl, h⟩
  | ok gas =>
    simp only
    cases callGas gt fr.contract.gas gas callCost with
    | error e => exact ⟨rfl, rfl, htemp 0⟩
    | ok temp => exact ⟨rfl, rfl, htemp temp⟩

theorem gasCall_blind : gasCall.Blind := by
  intro env evm evm' fr n h
  refine rel_bind _ fun value => rel_bind _ fun addr => rel_map _ fun callCost => ?_
  exact chargeCall_alike _ h ..

theorem gasCallCode_blind : gasCallCode.Blind := by
  intro env evm evm' fr n h
  refine rel_bind _ fun value => rel_map _ fun callCost => ?_
  exact chargeCall_alike _ h ..

theorem gasDelegateCall_blind : gasDelegateCall.Blind := by
  intro env evm evm' fr n h
  refine rel_map _ fun callCost => ?_
  exact chargeCall_alike _ h ..

/-- The price of a self-destruction depends on the balance, and not on the storage. -/
theorem gasSuicide_blind : gasSuicide.Blind := by
  intro env evm evm' fr n h
  refine rel_map _ fun addr => ?_
  obtain ⟨hbalance, hdb⟩ := h.stateDB.getBalance fr.contract.self
  simp only [StateDB.empty, StateDB.exist, hbalance]
  split_ifs
  all_goals
    refine ⟨rfl, rfl, h.withDB ?_⟩
    first
      | exact hdb.enter (.hasSuicided _) rfl
      | exact h.stateDB.enter (.hasSuicided _) rfl

/-- The price of a store depends on what the slot holds. -/
theorem gasSStore_alike {evm evm' : Evm} (h : evm.Alike evm') {fr : Frame}
    (hslot : OpCode.SSTORE.touchesMarker fr.stack = false) (env : Env) (n : UInt64) :
    Option.Rel GasResult.Alike (gasSStore env evm fr n) (gasSStore env evm' fr n) := by
  unfold gasSStore
  cases hst : fr.stack with
  | nil => exact .none
  | cons x st =>
    have hk : bigToHash x ∉ markerSlots := by simpa [OpCode.touchesMarker, hst] using hslot
    refine rel_bind _ fun y => .some ?_
    simp only [StateDB.getState, h.stateDB.storage fr.contract.self hk]
    exact ⟨rfl, rfl, h.withDB (h.stateDB.enter (.getState _ _) rfl)⟩

theorem gasCost_alike {op : OpCode} {evm evm' : Evm} (h : evm.Alike evm') {fr : Frame}
    (hslot : op.touchesMarker fr.stack = false) (env : Env) (n : UInt64) :
    Option.Rel GasResult.Alike ((operation op).gasCost env evm fr n)
      ((operation op).gasCost env evm' fr n) := by
  cases op
  case SSTORE => exact gasSStore_alike h hslot env n
  case SELFDESTRUCT => exact gasSuicide_blind env evm evm' fr n h
  case CALL => exact gasCall_blind env evm evm' fr n h
  case CALLCODE => exact gasCallCode_blind env evm evm' fr n h
  case DELEGATECALL | STATICCALL => exact gasDelegateCall_blind env evm evm' fr n h
  case LOG k => exact makeGasLog_blind _ env evm evm' fr n h
  case EXP => exact gasExp_blind env evm evm' fr n h
  case RETURN | REVERT => exact gasReturn_blind env evm evm' fr n h
  case SHA3 => exact wordsGasFunc_blind (fun _ => sha3Gas) 1 sha3WordGas env evm evm' fr n h
  case EXTCODECOPY => exact wordsGasFunc_blind GasTable.extcodeCopy 3 copyGas env evm evm' fr n h
  case CALLDATACOPY | CODECOPY | RETURNDATACOPY =>
    exact wordsGasFunc_blind (fun _ => gasFastestStep) 2 copyGas env evm evm' fr n h
  case MLOAD | MSTORE | MSTORE8 | CREATE => exact memoryGasFunc_blind _ env evm evm' fr n h
  case BALANCE | EXTCODESIZE | SLOAD => exact tableGasFunc_blind _ env evm evm' fr n h
  all_goals exact constGasFunc_blind _ env evm evm' fr n h

/-- What paying leaves. -/
structure Charged.Alike (c c' : Bool × Evm × Frame) : Prop where
  paid : c.1 = c'.1
  evm : c.2.1.Alike c'.2.1
  frame : c.2.2 = c'.2.2

theorem charge_alike {op : OpCode} {evm evm' : Evm} (h : evm.Alike evm') {fr : Frame}
    (hslot : op.touchesMarker fr.stack = false) (env : Env) (n : UInt64) :
    Option.Rel Charged.Alike (charge env (operation op) evm fr n)
      (charge env (operation op) evm' fr n) := by
  unfold charge
  split_ifs
  · exact .some ⟨rfl, h, rfl⟩
  · have hcost := gasCost_alike h hslot env n
    generalize (operation op).gasCost env evm fr n = g at hcost
    generalize (operation op).gasCost env evm' fr n = g' at hcost
    cases hcost with
    | none => exact .none
    | @some a b hab =>
      refine .some ?_
      simp only [hab.cost, hab.mem]
      cases b.cost with
      | error e => exact ⟨rfl, hab.evm, rfl⟩
      | ok cost =>
        simp only
        cases fr.contract.useGas cost with
        | none => exact ⟨rfl, hab.evm, rfl⟩
        | some c => exact ⟨rfl, hab.evm, rfl⟩

end Prices

end MiniEvm
