import MiniEvm.Detectors.FuzzInt
import MiniEvm.Framework.Added
import MiniEvm.Vm.Evolution
import MiniEvm.Vm.Gas

namespace MiniEvm

open Math Framework

/-- An `ADD`, `SUB`, `MUL` or `DIV` whose exact result is not a 256-bit word. -/
def Event.overflows : Event → Bool
  | exec _ fr op => (op.exactResult fr.stack).any fun r => ¬(0 ≤ r.2 ∧ r.2 < tt256)
  | _ => false

/-- An `SSTORE` to one of the marker slots. -/
def Event.storesMarker : Event → Bool
  | exec _ fr op => (op.stored fr.stack).any fun s => s.1 ∈ markerSlots
  | _ => false

def Overflowed (evs : List Event) : Prop := ∃ e ∈ evs, e.overflows = true

/-- Some marker slot of the contract is not empty. -/
def Marked (db : StateDB) (main : Address) : Prop := ∃ k ∈ markerSlots, db.slot main k ≠ 0

theorem Marked.congr {db db' : StateDB} {main : Address} (h : ∀ k, db'.slot main k = db.slot main k) :
    Marked db' main ↔ Marked db main := by
  simp [Marked, h]

theorem overflowed_append (evs evs' : List Event) :
    Overflowed (evs ++ evs') ↔ Overflowed evs ∨ Overflowed evs' := by
  simp [Overflowed, or_and_right, exists_or]

/-- The arithmetic instructions have operands and opcodes of their own. -/
theorem OpCode.exactResult_some {op : OpCode} {st : Stack} {r : String × Int}
    (h : op.exactResult st = some r) : st ≠ [] ∧ op ≠ .STOP ∧ op ≠ .JUMPDEST := by
  unfold exactResult at h
  split at h
  case h_5 => cases h
  all_goals exact ⟨by simp, by decide, by decide⟩

/-- The program counter of an arithmetic instruction is inside the code and not zero: at zero a
frame starts with an empty stack, and a jump leads there only if the code begins with a
`JUMPDEST`. -/
theorem Ready.arith_pc {env : Env} {evm : Evm} {fr : Frame} {op : OpCode} {n : UInt64}
    {r : String × Int} (ready : Ready env evm fr op n) (begun : fr.Begun)
    (h : op.exactResult fr.stack = some r) : 0 < fr.pc ∧ fr.pc < fr.contract.code.length := by
  obtain ⟨hst, hstop, hdest⟩ := OpCode.exactResult_some h
  have hop := ready.opcode
  constructor
  · by_contra hpc
    have hpc : fr.pc = 0 := by omega
    rw [hpc] at hop
    obtain hnil | hbyte := begun hpc
    · exact hst hnil
    · rw [hbyte] at hop
      exact hdest (Option.some.inj (hop.symm.trans (by decide)))
  · by_contra hpc
    have hbyte : fr.contract.getByte fr.pc = 0 := by
      rw [Contract.getByte, List.getD_eq_default _ _ (by omega)]
    rw [hbyte] at hop
    exact hstop (Option.some.inj (hop.symm.trans (by decide)))

/-- So the recorded value is never the empty hash. -/
theorem marker_ne_zero {pc : Nat} (h0 : 0 < pc) (h : pc < 2^63) : bigToHash (int64 pc) ≠ 0 := by
  have hint : int64 pc = pc := by
    rw [int64, Int.bmod_eq_of_le] <;> omega
  have hsmall : pc % 2^256 = pc := Nat.mod_eq_of_lt (by omega)
  intro hz
  have hnat := congrArg BitVec.toNat hz
  rw [bigToHash, hint, Int.natAbs_natCast, BitVec.toNat_ofNat, hsmall] at hnat
  simp at hnat
  omega

theorem setState_marked {db : StateDB} {main : Address} {k v : Hash} (hk : k ∈ markerSlots)
    (hv : v ≠ 0) : Marked (db.setState main k v) main := by
  refine ⟨k, hk, ?_⟩
  rw [StateDB.slot_setState, if_pos ⟨rfl, rfl⟩]
  exact hv

/-- Executing one instruction sets a marker exactly when it overflows, and never clears one. -/
theorem OpCode.effect_marked {env : Env} {evm : Evm} {fr : Frame} {op : OpCode} {n : UInt64}
    (ready : Ready env evm fr op n) (begun : fr.Begun) (hlen : fr.contract.code.length < 2^63)
    (hst : (Event.exec evm.toWorld fr op).storesMarker = false) :
    Marked (op.effect env (evm.executing fr op) fr).stateDB fr.contract.self ↔
      Marked evm.stateDB fr.contract.self ∨ (Event.exec evm.toWorld fr op).overflows = true := by
  have hno : op.exactResult fr.stack = none →
      (Event.exec evm.toWorld fr op).overflows = false := by
    intro h
    simp [Event.overflows, h]
  have hover : ∀ key v, op.exactResult fr.stack = some (key, v) →
      ((Event.exec evm.toWorld fr op).overflows = true ↔ v ≠ u256 v) := by
    intro key v hv
    rw [ne_comm, Ne, u256_eq_self]
    simp only [Event.overflows, hv, Option.any_some, decide_eq_true_eq]
  unfold effect
  split
  case h_1 x st hs =>
    rw [hno rfl]
    simp only [Bool.false_eq_true, or_false]
    exact Marked.congr fun k => StateDB.slot_getBalance ..
  case h_2 x st hs =>
    rw [hno rfl]
    simp only [Bool.false_eq_true, or_false]
    exact Marked.congr ((StateDB.getState_same ..).slot _)
  case h_3 x val st hs =>
    rw [hno rfl]
    simp only [Bool.false_eq_true, or_false]
    have hk : bigToHash x ∉ markerSlots := by
      simpa [Event.storesMarker, stored, hs] using hst
    simp only [Marked]
    refine exists_congr fun k => and_congr_right fun hmem => ?_
    have hne : k ≠ bigToHash x := fun h => hk (h ▸ hmem)
    rw [Evm.emit, StateDB.slot_setState, if_neg (fun h => hne h.2)]
    rfl
  case h_4 x st hs =>
    rw [hno rfl]
    simp only [Bool.false_eq_true, or_false]
    exact Marked.congr fun k => by simp [Evm.executing, Evm.emit]
  case h_5 i mStart mSize st hs =>
    rw [hno rfl]
    simp only [Bool.false_eq_true, or_false]
    exact Marked.congr fun k => rfl
  case h_6 =>
    split
    · rename_i key v hv
      rw [markOverflow, hover key v hv]
      split_ifs with hu
      · obtain ⟨hpos, hlt⟩ := ready.arith_pc begun hv
        exact iff_of_true (setState_marked (exactResult_key hv)
          (marker_ne_zero hpos (hlt.trans hlen))) (.inr hu)
      · simp only [hu, or_false]
        exact Iff.rfl
    · rename_i hv
      rw [hno hv]
      simp only [Bool.false_eq_true, or_false]
      exact Iff.rfl

theorem newAccount_slot {env : Env} {db : StateDB} {creator addr x : Address} {value : Int}
    (h : x ≠ addr) (k : Hash) : (newAccount env db creator addr value).slot x k = db.slot x k := by
  simp only [newAccount, transfer, StateDB.slot_addBalance, StateDB.slot_subBalance]
  split_ifs
  · rw [StateDB.slot_setNonce, StateDB.slot_createAccount h]
  · exact StateDB.slot_createAccount h k

theorem OpCode.gasEffect_slot (op : OpCode) (env : Env) (db : StateDB) (fr : Frame) (a : Address)
    (k : Hash) : (op.gasEffect env db fr).slot a k = db.slot a k := by
  unfold gasEffect
  split
  · exact (db.getState_same ..).slot a k
  · simp only
    split_ifs
    · exact ((StateDB.hasSuicided_same ..).slot a k).trans (db.slot_getBalance ..)
    · exact (StateDB.hasSuicided_same ..).slot a k
  · rfl

/-- A contract whose nonce does not wrap never creates a contract at its own address. -/
theorem create_ne_self {env : Env} {db : StateDB} {self : Address}
    (hfix : createAddress env.crypto self maxUint64 ≠ self)
    (free : collides env (db.raiseNonce self)
      (createAddress env.crypto self (db.getNonce self)) = false) :
    self ≠ createAddress env.crypto self (db.getNonce self) := by
  intro heq
  rw [← heq] at free
  have hnonce : (db.raiseNonce self).getNonce self = db.getNonce self + 1 := by
    simp [StateDB.raiseNonce, StateDB.setNonce, StateDB.getNonce]
  simp only [collides, hnonce, Bool.or_eq_false_iff, decide_eq_false_iff_not, not_not] at free
  have hmax : db.getNonce self = maxUint64 := by
    have h1 := free.1
    have : maxUint64 + 1 = 0 := by decide
    grind
  exact hfix (by rw [← hmax, ← heq])

/-- What a frame that may not recurse does to the storage of its own contract: instructions that
are no calls, and steps that touch none of its slots. -/
inductive RunsAlone (env : Env) (c : Contract) : Evm → Evm → Prop
  | trans {a b d : Evm} (grows : a.trace <+: b.trace) (grows' : b.trace <+: d.trace) :
      RunsAlone env c a b → RunsAlone env c b d → RunsAlone env c a d
  | other {a b : Evm} (evs : List Event) (trace : b.trace = a.trace ++ evs)
      (slot : ∀ k, b.stateDB.slot c.self k = a.stateDB.slot c.self k)
      (calls : ∀ w fr op, Event.exec w fr op ∈ evs → op.isCall = true) : RunsAlone env c a b
  | execute {evm : Evm} {fr : Frame} {op : OpCode} {n : UInt64} (ready : Ready env evm fr op n)
      (begun : fr.Begun) (hc : op.isCall = false) (contract : fr.contract.fixed = c) :
      RunsAlone env c evm (op.effect env (evm.executing fr op) fr)

theorem Evolves.alone {env : Env} {c : Contract} {a b : Evm} (h : Evolves env (.frame c) a b)
    (hno : env.noRecursion = true) (hfix : createAddress env.crypto c.self maxUint64 ≠ c.self)
    (hd : 0 < a.depth) : RunsAlone env c a b := by
  have not_pass : ∀ {evm : Evm}, 0 < evm.depth → ¬ Passes env evm := fun hd pass => pass.1 ⟨hno, hd⟩
  have quiet : ∀ {evm evm' : Evm}, evm'.trace = evm.trace →
      (∀ k, evm'.stateDB.slot c.self k = evm.stateDB.slot c.self k) → RunsAlone env c evm evm' :=
    fun htrace hslot => .other [] (by simp [htrace]) hslot fun _ _ _ he => by simp at he
  generalize hs : Site.frame c = s at h
  induction h with
  | refl => exact quiet rfl fun _ => rfl
  | trans hab hbc ih ih' =>
    exact .trans hab.grows.trace hbc.grows.trace (ih hd hs) (ih' (by rw [hab.mode.1]; exact hd) hs)
  | @attempt evm evm' fr fr' op n ready charged =>
    refine .other [.attempt evm.toWorld fr op] ?_ (fun k => ?_) fun _ _ _ he => by simp at he
    · rw [charged.world]
      rfl
    · rw [charged.stateDB]
      split_ifs
      · rfl
      · exact OpCode.gasEffect_slot ..
  | execute ready begun hc =>
    cases hs
    exact .execute ready begun hc rfl
  | @callInstruction evm fr op n ready begun hc =>
    refine .other [.exec evm.toWorld fr op] rfl (fun _ => rfl) fun w x o he => ?_
    cases List.mem_singleton.mp he
    exact hc
  | output => exact quiet rfl fun _ => rfl
  | checkBalance value pass => exact absurd pass (not_pass hd)
  | pay recipient value pass => exact absurd pass (not_pass hd)
  | failCreate => exact quiet rfl fun k => StateDB.slot_getBalance ..
  | collide => exact quiet rfl fun k => by simp [StateDB.raiseNonce, canTransfer]
  | @create s evm evm' evm'' db addr value depth may can hdb haddr free inner stored ih =>
    cases hs
    obtain rfl | ⟨pass, -⟩ := stored
    · have hne : c.self ≠ addr := by
        rw [haddr]
        refine create_ne_self hfix ?_
        rw [hdb, haddr] at free
        exact free
      refine .trans ?_ inner.grows.trace (quiet ?_ fun k => ?_) (ih hd rfl)
      · exact List.prefix_rfl
      · rfl
      change (newAccount env db c.self addr value).slot c.self k = evm.stateDB.slot c.self k
      rw [newAccount_slot hne, hdb, StateDB.raiseNonce, StateDB.slot_setNonce]
      exact StateDB.slot_getBalance ..
    · exact absurd pass (not_pass hd)
  | enter contract input pass => exact absurd pass (not_pass hd)
  | run pass => exact absurd pass (not_pass hd)
  | static outermost inner ih =>
    have hin := ih hd hs
    refine .trans ?_ inner.grows.trace (quiet ?_ fun _ => ?_) (.trans ?_ ?_ hin ?_)
    case refine_6 => exact quiet rfl fun _ => rfl
    case refine_4 => exact inner.grows.trace
    all_goals rfl

theorem not_overflows_of_isCall {op : OpCode} (h : op.isCall = true) (w : World) (fr : Frame) :
    (Event.exec w fr op).overflows = false := by
  have hnone : op.exactResult fr.stack = none := by
    cases op <;> first | rfl | cases h
  simp [Event.overflows, hnone]

/-- The markers of a contract that runs alone tell exactly whether it has overflowed. -/
theorem RunsAlone.marked {env : Env} {c : Contract} {a b : Evm} (h : RunsAlone env c a b)
    (hlen : c.code.length < 2^63)
    (hst : ∀ e ∈ added a.trace b.trace, e.storesMarker = false) :
    Marked b.stateDB c.self ↔ Marked a.stateDB c.self ∨ Overflowed (added a.trace b.trace) := by
  induction h with
  | trans grows grows' _ _ ih ih' =>
    rw [added_trans grows grows'] at hst ⊢
    have hst' := List.forall_mem_append.mp hst
    rw [overflowed_append, ← or_assoc]
    exact (ih' hst'.2).trans (or_congr_left (ih hst'.1))
  | other evs trace slot calls =>
    rw [trace, added_append, Marked.congr slot]
    refine (or_iff_left ?_).symm
    rintro ⟨e, he, hover⟩
    cases e with
    | exec w fr op =>
      rw [not_overflows_of_isCall (calls w fr op he)] at hover
      cases hover
    | _ => cases hover
  | @execute evm fr op n ready begun hc contract =>
    obtain ⟨evs, htrace, hcall⟩ := op.effect_trace env (evm.executing fr op) fr
    have hadded : added evm.trace (op.effect env (evm.executing fr op) fr).trace =
        .exec evm.toWorld fr op :: evs := by
      rw [htrace, Evm.executing, Evm.emit, List.append_assoc, added_append]
      rfl
    rw [hadded] at hst ⊢
    have hevs : ¬ Overflowed evs := by
      rintro ⟨e, he, hover⟩
      obtain ⟨site, loc, val, rfl⟩ := hcall e he
      cases hover
    have hover : Overflowed (.exec evm.toWorld fr op :: evs) ↔
        (Event.exec evm.toWorld fr op).overflows = true := by
      rw [← List.singleton_append, overflowed_append]
      simp only [hevs, or_false]
      simp [Overflowed]
    rw [hover]
    cases contract
    exact OpCode.effect_marked ready begun hlen (hst _ (List.mem_cons_self ..))

/-- An overflowing instruction is never at the start of the code. -/
theorem Evolves.overflow_pc {env : Env} {s : Site} {a b : Evm} (h : Evolves env s a b) :
    ∀ w fr op, Event.exec w fr op ∈ added a.trace b.trace →
      (Event.exec w fr op).overflows = true → fr.pc ≠ 0 := by
  induction h with
  | trans hab hbc ih ih' =>
    intro w fr op he hover
    rw [added_trans hab.grows.trace hbc.grows.trace, List.mem_append] at he
    obtain he | he := he
    · exact ih w fr op he hover
    · exact ih' w fr op he hover
  | @attempt evm evm' fr fr' op n ready charged =>
    intro w x o he hover
    rw [charged.world] at he
    simp [Evm.attempting, Evm.emit] at he
  | @execute evm fr op n ready begun hc =>
    intro w x o he hover
    obtain ⟨evs, htrace, hcall⟩ := op.effect_trace env (evm.executing fr op) fr
    rw [htrace, Evm.executing, Evm.emit, List.append_assoc, added_append, List.mem_append,
      List.mem_singleton] at he
    obtain he | he := he
    · cases he
      obtain ⟨r, hr, -⟩ := (Option.any_eq_true ..).mp hover
      exact Nat.ne_of_gt (ready.arith_pc begun hr).1
    · obtain ⟨site, loc, val, hcb⟩ := hcall _ he
      cases hcb
  | @callInstruction evm fr op n ready begun hc =>
    intro w x o he hover
    have he' : Event.exec w x o = .exec evm.toWorld fr op := by
      simpa [Evm.executing, Evm.emit] using he
    cases he'
    rw [not_overflows_of_isCall hc] at hover
    cases hover
  | create value depth may can hdb haddr free inner stored ih =>
    obtain rfl | ⟨-, code, rfl⟩ := stored
    · exact ih
    · exact ih
  | run pass code inner ih => exact ih
  | static outermost inner ih => exact ih
  | _ =>
    intro w x o he
    simp [Evm.emit] at he

theorem RunsAlone.grows {env : Env} {c : Contract} {a b : Evm} (h : RunsAlone env c a b) :
    a.trace <+: b.trace := by
  cases h with
  | trans grows grows' => exact grows.trans grows'
  | other evs trace => exact ⟨evs, trace.symm⟩
  | execute ready begun hc contract =>
    exact (Evm.Grows.emit ..).trace.trans (OpCode.effect_grows ..).trace

theorem RunsAlone.quiet {env : Env} {c : Contract} {a b : Evm} (htrace : b.trace = a.trace)
    (hslot : ∀ k, b.stateDB.slot c.self k = a.stateDB.slot c.self k) : RunsAlone env c a b :=
  .other [] (by simp [htrace]) hslot fun _ _ _ he => by simp at he

theorem runContract_alone {env : Env} {n : Nat} {evm : Evm} {c : Contract} {input : Bytes}
    {r : RunResult} (hno : env.noRecursion = true)
    (hfix : createAddress env.crypto c.self maxUint64 ≠ c.self)
    (h : runContract env (interpreterRun env env.jumpTable n) evm c input = .ok r) :
    RunsAlone env { c with input := input }.fixed evm r.evm := by
  have henter : ∀ {evm' : Evm}, evm'.trace = evm.trace ++ [.enter evm.depth c input] →
      evm'.stateDB = evm.stateDB → RunsAlone env { c with input := input }.fixed evm evm' :=
    fun htrace hdb => .other _ htrace (fun k => by rw [hdb]) fun _ _ _ he => by simp at he
  unfold runContract at h
  simp only at h
  split at h
  · rw [Outcome.ofOption_eq_ok] at h
    obtain ⟨⟨ret, err, c'⟩, -, rfl⟩ := Option.map_eq_some_iff.mp h
    exact henter rfl rfl
  · have hr := interpreterRun_evolves env n _ _ _ _ h
    generalize r.evm = evm' at hr
    cases hr with
    | empty => exact henter rfl rfl
    | @code evm' code inner =>
      have hin := inner.alone hno hfix (Nat.succ_pos _)
      refine .trans ?_ ?_ (henter ?_ ?_) (.trans hin.grows ?_ hin (.quiet ?_ fun _ => ?_))
      case refine_1 => exact List.prefix_append ..
      case refine_2 => exact hin.grows
      all_goals rfl

/-- A call that sends no value and may not recurse runs alone. -/
theorem call_alone {env : Env} {n : Nat} {evm : Evm} {caller : ContractRef} {main : Address}
    {input : Bytes} {gas : UInt64} {r : CallResult} (hno : env.noRecursion = true)
    (hfix : createAddress env.crypto main maxUint64 ≠ main)
    (h : evm.call env (interpreterRun env env.jumpTable n) caller main input gas 0 = .ok r) :
    ∃ c : Contract, c.self = main ∧ c.code = evm.stateDB.getCode main ∧
      RunsAlone env c evm r.evm := by
  let c : Contract := (Contract.new caller main 0 gas).setCallCode main 0 (evm.stateDB.getCode main)
  unfold Evm.call at h
  split_ifs at h
  · cases h
    exact ⟨c, rfl, rfl, .quiet rfl fun _ => rfl⟩
  · cases h
    exact ⟨c, rfl, rfl, .quiet rfl fun _ => rfl⟩
  · simp only [StateDB.exist] at h
    cases hcan : (canTransfer evm.stateDB caller.address 0).1 with
    | false =>
      simp only [hcan] at h
      cases h
      exact ⟨c, rfl, rfl, .quiet rfl fun k => StateDB.slot_getBalance ..⟩
    | true =>
      simp only [hcan, Bool.not_true, Bool.false_eq_true, false_and, if_false, if_true] at h
      obtain ⟨rr, hrr, h⟩ := Outcome.bind_eq_ok.mp h
      cases h
      rw [settle_evm]
      have hin := runContract_alone hno (by exact hfix) hrr
      have hcode := evm.stateDB.transfer_zero_code caller.address main main
      refine ⟨_, ?_, ?_, .trans ?_ hin.grows (.quiet ?_ fun k => ?_) hin⟩
      · rfl
      · exact hcode
      · exact List.prefix_rfl
      · rfl
      · simp [transfer, canTransfer, Contract.fixed, Contract.setCallCode, Contract.new]

/-- One call of the fuzzer: gas ends it, and from clear markers `CheckOverflowStorage` reports
exactly the runs that overflowed, none of them at program counter zero. -/
theorem checkOverflowStorage_exact {crypto : Crypto} {now : Int} {evm : Evm} {main caller : Address}
    {calldata : Bytes} (hclear : ∀ k ∈ markerSlots, evm.stateDB.slot main k = 0)
    (hlen : (evm.stateDB.getCode main).length < 2^63)
    (hfix : createAddress crypto main maxUint64 ≠ main) :
    (∀ n, detectorGas.toNat + 2 ≤ n →
      simpleContractCall (deployEnv crypto now) n evm main caller calldata ≠ .timeout) ∧
    ∀ n r, simpleContractCall (deployEnv crypto now) n evm main caller calldata = .ok r →
      (∀ e ∈ added evm.trace r.evm.trace, e.storesMarker = false) →
      ((checkOverflowStorage main r.evm.stateDB).1 = true ↔
        Overflowed (added evm.trace r.evm.trace)) ∧
      ∀ w fr op, Event.exec w fr op ∈ added evm.trace r.evm.trace →
        (Event.exec w fr op).overflows = true → fr.pc ≠ 0 := by
  constructor
  · intro n hn h
    obtain ⟨m, rfl⟩ : ∃ m, n = m + 1 := ⟨n - 1, by omega⟩
    have hends : Ends (interpreterRun (deployEnv crypto now) _ (m + 1)) m := interpreterRun_ends rfl m
    have hinvoke : (Entry.call main calldata 0).invoke (deployEnv crypto now)
        (interpreterRun (deployEnv crypto now) (deployEnv crypto now).jumpTable (m + 1)) evm
        (.account caller) detectorGas = .timeout :=
      Outcome.bind_eq_timeout.mpr (.inl h)
    exact Entry.invoke_ends hends (by omega) hinvoke
  · intro n r h hst
    constructor
    · obtain ⟨c, hself, hcode, halone⟩ := call_alone rfl hfix h
      have hmark := halone.marked (by rw [hcode]; exact hlen) hst
      have hno : ¬ Marked evm.stateDB main := by
        rintro ⟨k, hk, hne⟩
        exact hne (hclear k hk)
      rw [hself] at hmark
      rw [checkOverflowStorage_iff]
      exact hmark.trans (or_iff_right hno)
    · have hin : Evolves (deployEnv crypto now) (.entry (.account caller)) evm r.evm :=
        call_evolves (interpreterRun_evolves _ n) rfl trivial h
      exact hin.overflow_pc

/-- `0 - 1`. -/
def underflow : Bytes := [0x60, 1, 0x60, 0, 0x03, 0x00]

def underflowEvm : Evm := Evm.new (StateDB.new.setCode 0x100 underflow)

theorem checkOverflowStorage_exact_underflow : ∃ r,
    simpleContractCall (deployEnv .zero 0) 9 underflowEvm 0x100 7 [] = .ok r ∧
    (checkOverflowStorage 0x100 r.evm.stateDB).1 = true := by
  have hrun : (simpleContractCall (deployEnv .zero 0) 9 underflowEvm 0x100 7 []).Returns fun r =>
      (∀ e ∈ added underflowEvm.trace r.evm.trace, e.storesMarker = false) ∧
      ∃ e ∈ added underflowEvm.trace r.evm.trace, e.overflows = true := by
    decide +kernel
  obtain ⟨r, hr, hst, hover⟩ := hrun.exists
  have hclear : ∀ k ∈ markerSlots, underflowEvm.stateDB.slot 0x100 k = 0 := fun _ _ => rfl
  have hlen : (underflowEvm.stateDB.getCode 0x100).length < 2^63 := Nat.le_of_ble_eq_true rfl
  have hfix : createAddress .zero 0x100 maxUint64 ≠ 0x100 := by decide
  have hexact := (checkOverflowStorage_exact hclear hlen hfix).2 9 r hr hst
  exact ⟨r, hr, hexact.1.mpr hover⟩

end MiniEvm
