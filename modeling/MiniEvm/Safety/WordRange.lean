import MiniEvm.Detectors.ContractUtils
import MiniEvm.Vm.History
import MiniEvm.Vm.WordRule

namespace MiniEvm

open Math Framework StateDB

/-- A 256-bit word. -/
def IsWord (x : Int) : Prop := 0 ≤ x ∧ x < tt256

theorem isWord_natCast {n : Nat} (h : n < 2 ^ 256) : IsWord n := by
  have htt : tt256 = ((2 ^ 256 : Nat) : Int) := by decide
  exact ⟨Int.natCast_nonneg n, by rw [htt]; exact Int.ofNat_lt.mpr h⟩

/-- A word is a natural number below `2^256`. -/
theorem IsWord.exists_nat {x : Int} (h : IsWord x) : ∃ n : Nat, n < 2 ^ 256 ∧ x = n := by
  have htt : tt256 = ((2 ^ 256 : Nat) : Int) := by decide
  obtain ⟨n, rfl⟩ := Int.eq_ofNat_of_zero_le h.1
  have hlt := h.2
  rw [htt] at hlt
  exact ⟨n, Int.ofNat_lt.mp hlt, rfl⟩

theorem isWord_words : WordSet IsWord where
  small _ h := isWord_natCast h
  nonneg _ h := h.1
  land x y hx hy := by
    obtain ⟨m, hm, rfl⟩ := hx.exists_nat
    obtain ⟨n, hn, rfl⟩ := hy.exists_nat
    exact isWord_natCast (Nat.and_lt_two_pow m hn)
  lor x y hx hy := by
    obtain ⟨m, hm, rfl⟩ := hx.exists_nat
    obtain ⟨n, hn, rfl⟩ := hy.exists_nat
    exact isWord_natCast (Nat.or_lt_two_pow hm hn)
  xor x y hx hy := by
    obtain ⟨m, hm, rfl⟩ := hx.exists_nat
    obtain ⟨n, hn, rfl⟩ := hy.exists_nat
    exact isWord_natCast (Nat.xor_lt_two_pow hm hn)

instance (x : Int) : Decidable (IsWord x) := inferInstanceAs (Decidable (0 ≤ x ∧ x < tt256))

/-- The length of the byte slice that an instruction measures. -/
def OpCode.measured (w : World) (fr : Frame) : OpCode → Nat
  | CALLDATASIZE => fr.contract.input.length
  | CODESIZE | PC => fr.contract.code.length
  | MSIZE => fr.mem.len
  | RETURNDATASIZE => w.returnData.length
  | EXTCODESIZE => ((fr.stack.head?).map fun x => w.stateDB.getCodeSize (bigToAddress x)).getD 0
  | _ => 0

namespace Event

/-- The balance that an instruction reads. -/
def balanceRead : Event → Option Int
  | exec w fr .BALANCE =>
    (fr.stack.head?).map fun x => (w.stateDB.account (bigToAddress x)).balance + 100
  | _ => none

/-- A balance that is read is a word. -/
def ReadsWord (e : Event) : Prop := ∀ b ∈ e.balanceRead, IsWord b

/-- What an instruction measures is a Go slice. -/
def Sized : Event → Prop
  | exec w fr op => op.measured w fr < 2 ^ 63
  | _ => True

instance : DecidablePred Sized
  | exec w fr op => inferInstanceAs (Decidable (op.measured w fr < 2 ^ 63))
  | attempt _ _ _ | callback _ _ _ | enter _ _ _ => isTrue trivial

instance : DecidablePred ReadsWord := fun e =>
  inferInstanceAs (Decidable (∀ b ∈ e.balanceRead, IsWord b))

/-- The stack before an instruction has only words, and so has the one it leaves. -/
def InRange (env : Env) : Event → Prop
  | attempt _ fr _ => fr.stack.All IsWord
  | exec w fr op => fr.stack.All IsWord ∧ ∀ (run : RunFn) (trace : List Event) (res : ExecResult),
      (operation op).execute env run ⟨w, trace⟩ fr = .ok res → res.frame.stack.All IsWord
  | _ => True

end Event

/-- Only inside the code is there an instruction other than `STOP`. -/
theorem Ready.pc_lt {env : Env} {evm : Evm} {fr : Frame} {op : OpCode} {n : UInt64}
    (ready : Ready env evm fr op n) (hop : op ≠ .STOP) : fr.pc < fr.contract.code.length := by
  by_contra hle
  have hbyte : fr.contract.getByte fr.pc = 0 := by
    rw [Contract.getByte, List.getD_eq_default _ _ (Nat.le_of_not_lt hle)]
  have hopcode := ready.opcode
  rw [hbyte] at hopcode
  exact hop (Option.some.inj hopcode).symm

theorem reads_of_sized {env : Env} {evm : Evm} {fr : Frame} {op : OpCode} {n : UInt64}
    (ready : Ready env evm fr op n) (hprice : IsWord env.gasPrice) (hfr : fr.All IsWord)
    (hsized : (Event.exec evm.toWorld fr op).Sized)
    (hreads : (Event.exec evm.toWorld fr op).ReadsWord) (trace : List Event) :
    op.Reads IsWord env ⟨evm.toWorld, trace⟩ fr := by
  have slice : ∀ {k : Nat}, k < 2 ^ 63 → IsWord k := fun hk =>
    isWord_natCast (Nat.lt_trans hk (by decide))
  unfold OpCode.Reads
  split
  · exact fun x st hst => hreads _ (by simp [Event.balanceRead, hst])
  · exact hfr.value
  · exact hprice
  · exact slice hsized
  · exact slice hsized
  · exact fun x st hst => slice (by simpa [Event.Sized, OpCode.measured, hst] using hsized)
  · exact slice hsized
  · exact slice (Nat.lt_trans (ready.pc_lt (by decide)) hsized)
  · exact slice hsized
  · trivial

/-- The events since the start of the run are of Go slices and read words. -/
def ReadsWords (base es : List Event) : Prop := ∀ e ∈ added base es, e.Sized ∧ e.ReadsWord

theorem mem_added_append {base es es' : List Event} {e : Event} (h : e ∈ added base (es ++ es')) :
    e ∈ added base es ∨ e ∈ es' := by
  rw [added, List.drop_append, List.mem_append] at h
  exact h.imp_right List.mem_of_mem_drop

theorem ReadsWords.earlier {base es es' : List Event} (hes : es <+: es') (h : ReadsWords base es') :
    ReadsWords base es := by
  obtain ⟨rest, rfl⟩ := hes
  intro e he
  refine h e ?_
  rw [added, List.drop_append]
  exact List.mem_append_left _ he

/-- An instruction that finds words leaves words. -/
theorem exec_inRange {env : Env} {evm : Evm} {fr : Frame} {op : OpCode} {n : UInt64}
    (ready : Ready env evm fr op n) (hprice : IsWord env.gasPrice) (hfr : fr.All IsWord)
    (hsized : (Event.exec evm.toWorld fr op).Sized)
    (hreads : (Event.exec evm.toWorld fr op).ReadsWord) :
    (Event.exec evm.toWorld fr op).InRange env := by
  refine ⟨hfr.stack, fun run trace res h => ?_⟩
  cases hc : op.isCall with
  | false =>
    exact execute_keeps isWord_words hc hfr.stack
      (reads_of_sized ready hprice hfr hsized hreads trace) h
  | true =>
    rw [execute_call _ _ _ _ hc] at h
    obtain ⟨i, -, h⟩ := Outcome.bind_eq_ok.mp h
    obtain ⟨r, -, h⟩ := Outcome.bind_eq_ok.mp h
    exact OpCode.resume_keeps isWord_words h hfr.stack

/-- All events since the start of the run are in range, if they read words. -/
structure RangeKept (env : Env) (base es : List Event) : Prop where
  begun : base <+: es
  kept : ReadsWords base es → ∀ e ∈ added base es, e.InRange env

theorem RangeKept.append {env : Env} {base es es' : List Event} (h : RangeKept env base es)
    (hes : ReadsWords base (es ++ es') → ∀ e ∈ es', e.InRange env) :
    RangeKept env base (es ++ es') := by
  refine ⟨h.begun.trans (List.prefix_append ..), fun hcond e he => ?_⟩
  obtain he' | he' := mem_added_append he
  · exact h.kept (hcond.earlier (List.prefix_append ..)) e he'
  · exact hes hcond e he'

/-- The last event of a run is one of its events. -/
theorem ReadsWords.last {base es : List Event} {e : Event} (hbegun : base <+: es)
    (h : ReadsWords base (es ++ [e])) : e.Sized ∧ e.ReadsWord := by
  refine h e ?_
  rw [added_trans hbegun (List.prefix_append ..), added_append]
  simp

theorem range_rule {env : Env} (hprice : IsWord env.gasPrice) (base : List Event) :
    WordRule env (ReadsWords base) IsWord (fun _ es => RangeKept env base es) where
  words := isWord_words
  earlier := ReadsWords.earlier
  enter depth input h _ := h.append fun _ e he => by
    rw [List.mem_singleton.mp he]
    trivial
  attempt ready h hfr := h.append fun hcond e he => by
    rw [List.mem_singleton.mp he]
    exact fun x hx => hfr.stack x hx (hcond.earlier (List.prefix_append ..))
  gas _ _ h := h
  exec ready h hfr := h.append fun hcond e he => by
    have hold := hcond.earlier (List.prefix_append ..)
    obtain ⟨hsized, hreads⟩ := hcond.last h.begun
    rw [List.mem_singleton.mp he]
    exact exec_inRange ready hprice ⟨fun x hx => hfr.stack x hx hold, hfr.value hold⟩ hsized hreads
  reads ready h hfr hcond := by
    obtain ⟨hsized, hreads⟩ := hcond.last h.begun
    exact reads_of_sized ready hprice hfr hsized hreads _
  effect := by
    intro evm fr op h _
    obtain ⟨evs, htrace, hevs⟩ := op.effect_trace env evm fr
    rw [htrace]
    refine h.append fun _ e he => ?_
    obtain ⟨site, loc, val, rfl⟩ := hevs e he
    trivial
  ask _ h := h
  pay _ h _ _ := h
  raise _ _ h := h
  create h _ _ _ _ := h
  store _ _ h := h

/-- Reading a balance that is no word leaves it on the stack. -/
theorem readsWord_of_inRange {env : Env} {e : Event} (h : e.InRange env) : e.ReadsWord := by
  intro b hb
  unfold Event.balanceRead at hb
  split at hb
  · rename_i w fr
    obtain ⟨x, hx, rfl⟩ := Option.map_eq_some_iff.mp hb
    obtain ⟨st, hst⟩ := List.head?_eq_some_iff.mp hx
    have hres : (operation .BALANCE).execute env (fun _ _ _ => .timeout) ⟨w, []⟩ fr =
        .ok (stackResult { (⟨w, []⟩ : Evm) with
          stateDB := (w.stateDB.getBalance (bigToAddress x)).2 } fr
          ((w.stateDB.getBalance (bigToAddress x)).1 :: st)) := by
      simp only [operation, entry, simple, opBalance, hst]
      rfl
    exact (h.2 _ _ _ hres).head
  · cases hb

/-- In every run the stacks of all frames hold 256-bit words at every step, exactly if every balance
that an instruction reads is one. -/
theorem words_inRange_iff {env : Env} {fuel : Nat} {evm evm' : Evm} {caller : ContractRef}
    {gas : UInt64} {e : Entry} (hprice : IsWord env.gasPrice) (hvalue : IsWord (e.value caller))
    (h : (∃ r, e.start env fuel evm caller gas = .ok r ∧ evm' = r.evm) ∨
      e.start env fuel evm caller gas = .panic evm')
    (hsized : ∀ ev ∈ added evm.trace evm'.trace, ev.Sized) :
    (∀ ev ∈ added evm.trace evm'.trace, ev.InRange env) ↔
      ∀ ev ∈ added evm.trace evm'.trace, ev.ReadsWord := by
  have hstart : RangeKept env evm.trace evm.trace := ⟨List.prefix_rfl, fun _ ev hev => by simp at hev⟩
  have hrun := (range_rule hprice evm.trace).start_leaves fuel gas hstart fun _ => hvalue
  have hend : RangeKept env evm.trace evm'.trace := by
    obtain ⟨r, hr, rfl⟩ | hpanic := h
    · exact (hrun.of_ok hr).state
    · exact (hrun.of_panic hpanic).state
  constructor
  · exact fun hin ev hev => readsWord_of_inRange (hin ev hev)
  · exact fun hreads => hend.kept fun ev hev => ⟨hsized ev hev, hreads ev hev⟩

/-- Init code that reads the balance of the new contract. -/
def balanceRun : Outcome Evm CreateResult :=
  (Entry.create [0x30, 0x31] 0).start recursiveEnv 10 (Evm.new (StateDB.new.replay [.addBalance 7 100]))
    (.account 7) 100000

theorem balanceRun_returns : balanceRun.Returns fun r =>
    (∃ ev ∈ r.evm.trace, ev.balanceRead = some 100) ∧
    (∀ ev ∈ r.evm.trace, ev.Sized) ∧ ∀ ev ∈ r.evm.trace, ev.ReadsWord := by
  decide +kernel

theorem words_inRange_iff_balanceRun : ∃ r, balanceRun = .ok r ∧
    (∃ ev ∈ r.evm.trace, ev.balanceRead = some 100) ∧
    ∀ ev ∈ r.evm.trace, ev.InRange recursiveEnv := by
  obtain ⟨r, hr, hread, hsized, hreads⟩ := balanceRun_returns.exists
  have hprice : IsWord recursiveEnv.gasPrice := by decide
  have hvalue : IsWord ((Entry.create [0x30, 0x31] 0).value (.account 7)) := by decide
  exact ⟨r, hr, hread, (words_inRange_iff hprice hvalue (.inl ⟨r, hr, rfl⟩) hsized).mpr hreads⟩

/-- A contract that reads its own balance and then destructs itself in its own favour:
`ADDRESS BALANCE ADDRESS SELFDESTRUCT`. -/
def doubler : Bytes := [0x30, 0x31, 0x30, 0xff]

section Doubler

variable (run : RunFn) (db : StateDB) (trace : List Event) (codeHash : Hash)

def doublerEvm (depth : Nat) : Evm := ⟨⟨db, depth, false, [], 0, false⟩, trace⟩

def doublerContract (gas : UInt64) : Contract :=
  (Contract.new (.account 7) 0 0 gas).setCallCode 0 codeHash doubler

def doublerFrame (pc : Nat) (stack : Stack) (gas : UInt64) : Frame :=
  ⟨pc, stack, Memory.new, doublerContract codeHash gas⟩

theorem doubler_address : ∃ trace',
    step recursiveEnv recursiveEnv.jumpTable run (doublerEvm db trace 1)
      (doublerFrame codeHash 0 [] detectorGas) =
    .ok (.next (doublerEvm db trace' 1) (doublerFrame codeHash 1 [0] (detectorGas - 2))) :=
  ⟨_, rfl⟩

theorem doubler_balance : ∃ e,
    step recursiveEnv recursiveEnv.jumpTable run (doublerEvm db trace 1)
      (doublerFrame codeHash 1 [0] (detectorGas - 2)) =
    .ok (.next (doublerEvm (db.getBalance 0).2 (trace ++ [e] ++ [.exec (doublerEvm db trace 1).toWorld
        (doublerFrame codeHash 1 [0] (detectorGas - 2 - 400)) .BALANCE]) 1)
      (doublerFrame codeHash 2 [(db.getBalance 0).1] (detectorGas - 2 - 400))) :=
  ⟨_, rfl⟩

theorem doubler_address' (b : Int) : ∃ trace', trace <+: trace' ∧
    step recursiveEnv recursiveEnv.jumpTable run (doublerEvm db trace 1)
      (doublerFrame codeHash 2 [b] (detectorGas - 2 - 400)) =
    .ok (.next (doublerEvm db trace' 1) (doublerFrame codeHash 3 [0, b] (detectorGas - 2 - 400 - 2))) :=
  ⟨_, (List.prefix_append ..).trans (List.prefix_append ..), rfl⟩

/-- What the gas of `SELFDESTRUCT` does to the store, and then the instruction. -/
def doublerEnd (db : StateDB) : StateDB :=
  let db := db.replay [.getBalance 0, .hasSuicided 0]
  db.replay [.getBalance 0, .addBalance 0 (db.getBalance 0).1, .suicide 0]

theorem doubler_gas (evm : Evm) (fr : Frame) (st : Stack) (hst : fr.stack = 0 :: st)
    (hself : fr.contract.self = 0) (hpos : (evm.stateDB.getBalance 0).1 ≠ 0) :
    gasSuicide recursiveEnv evm fr 0 = some ⟨.ok 30000, { evm with
      stateDB := ((evm.stateDB.getBalance 0).2.hasSuicided 0).2 }, fr.mem⟩ := by
  have hrules : recursiveEnv.isEIP150 = true ∧ recursiveEnv.isEIP158 = true := by decide
  have hcost : recursiveEnv.gasTable.suicide + recursiveEnv.gasTable.createBySuicide = 30000 := by
    decide
  unfold gasSuicide
  simp only [hst, Stack.back, hrules.1, hrules.2, StateDB.empty, hself, if_true, if_pos hpos, hcost,
    List.getElem?_cons_zero, Option.map_some]

theorem doubler_selfdestruct (b : Int) (hpos : (db.getBalance 0).1 ≠ 0) : ∃ trace' c,
    trace <+: trace' ∧ step recursiveEnv recursiveEnv.jumpTable run (doublerEvm db trace 1)
      (doublerFrame codeHash 3 [0, b] (detectorGas - 2 - 400 - 2)) =
    .ok (.done ⟨[], none, doublerEvm (doublerEnd db) trace' 1, c⟩) := by
  have hfetch : fetch recursiveEnv recursiveEnv.jumpTable (doublerEvm db trace 1)
      (doublerFrame codeHash 3 [0, b] (detectorGas - 2 - 400 - 2)) =
      some (.ok ⟨.SELFDESTRUCT, operation .SELFDESTRUCT, 0⟩) := rfl
  have hcharge : ∀ e, charge recursiveEnv (operation .SELFDESTRUCT) ((doublerEvm db trace 1).emit e)
      (doublerFrame codeHash 3 [0, b] (detectorGas - 2 - 400 - 2)) 0 =
      some (true, doublerEvm (db.replay [.getBalance 0, .hasSuicided 0]) (trace ++ [e]) 1,
        doublerFrame codeHash 3 [0, b] (detectorGas - 2 - 400 - 2 - 30000)) := by
    intro e
    have hcost : (operation .SELFDESTRUCT).gasCost = gasSuicide := rfl
    have hmeter : recursiveEnv.disableGasMetering = false := rfl
    unfold charge
    rw [hcost, doubler_gas ((doublerEvm db trace 1).emit e) _ [b] rfl rfl hpos, hmeter]
    rfl
  unfold step
  rw [hfetch]
  simp only [Outcome.ofOption_some, Outcome.bind_ok, perform, hcharge, if_true]
  exact ⟨_, _, (List.prefix_append ..).trans (List.prefix_append ..), rfl⟩

/-- A run of the contract; its second instruction reads the balance. -/
theorem doubler_run (hpos : 0 ≤ (db.account 0).balance) : ∃ trace' c w fr,
    interpreterRun recursiveEnv recursiveEnv.jumpTable 10 (doublerEvm db trace 0)
      (doublerContract codeHash detectorGas) [] =
      .ok ⟨[], none, doublerEvm (doublerEnd (db.getBalance 0).2) trace' 0, c⟩ ∧
    .exec w fr .BALANCE ∈ trace' ∧ fr.stack = [0] ∧ w.stateDB = db := by
  let run := interpreterRun recursiveEnv recursiveEnv.jumpTable 9
  obtain ⟨trace₁, h₁⟩ := doubler_address run db trace codeHash
  obtain ⟨e, h₂⟩ := doubler_balance run db trace₁ codeHash
  obtain ⟨trace₃, hle₃, h₃⟩ := doubler_address' run (db.getBalance 0).2 (trace₁ ++ [e] ++
    [.exec (doublerEvm db trace₁ 1).toWorld (doublerFrame codeHash 1 [0] (detectorGas - 2 - 400))
      .BALANCE]) codeHash (db.getBalance 0).1
  have hread : ((db.getBalance 0).2.getBalance 0).1 ≠ 0 := by
    change ((db.getBalance 0).2.account 0).balance + 100 ≠ 0
    rw [account_getBalance, if_pos rfl]
    change (db.account 0).balance + 100 + 100 ≠ 0
    omega
  obtain ⟨trace₄, c, hle₄, h₄⟩ := doubler_selfdestruct run (db.getBalance 0).2 trace₃ codeHash
    (db.getBalance 0).1 hread
  have hloop : loop recursiveEnv recursiveEnv.jumpTable run 9 (doublerEvm db trace 1)
      (doublerFrame codeHash 0 [] detectorGas) =
      .ok ⟨[], none, doublerEvm (doublerEnd (db.getBalance 0).2) trace₄ 1, c⟩ := by
    rw [loop_next rfl h₁, loop_next rfl h₂, loop_next rfl h₃, loop_done rfl h₄]
  have hcode : (doublerContract codeHash detectorGas).code ≠ [] := by
    change doubler ≠ []
    decide
  refine ⟨trace₄, c, (doublerEvm db trace₁ 1).toWorld, doublerFrame codeHash 1 [0] _, ?_,
    (hle₃.trans hle₄).subset (List.mem_append_right _ (List.mem_singleton_self _)), rfl, rfl⟩
  simp only [interpreterRun, if_neg hcode]
  exact congrArg (Outcome.bind · _) hloop

end Doubler

/-- The contract is deployed, the balance of the account that calls it is not negative, and its own
was doubled `n` times. -/
structure Doubled (db : StateDB) (n : Nat) : Prop where
  code : db.getCode 0 = doubler
  caller : 0 ≤ (db.account 7).balance
  balance : 2 ^ n ≤ (db.account 0).balance + 1

def doublerCall (db : StateDB) : Outcome Evm CreateResult :=
  (Entry.call 0 [] 0).start recursiveEnv 10 (Evm.new db) (.account 7) detectorGas

/-- The store that the contract runs on. -/
def doublerPaid (db : StateDB) : StateDB :=
  db.replay [.getBalance 7, .subBalance 7 0, .addBalance 0 0]

/-- The called code does not run a precompiled contract. -/
theorem doubler_start (db : StateDB) (h : 0 ≤ (db.account 7).balance)
    (hcode : (doublerPaid db).getCode 0 = doubler) : doublerCall db =
      (interpreterRun recursiveEnv recursiveEnv.jumpTable 10 (doublerEvm (doublerPaid db)
        [.enter 0 (doublerContract ((doublerPaid db).getCodeHash 0) detectorGas) []] 0)
        (doublerContract ((doublerPaid db).getCodeHash 0) detectorGas) []).bind
        fun r => .ok ⟨settle 0 r, 0⟩ := by
  have hcan : (canTransfer db 7 0).1 = true := by
    refine decide_eq_true (?_ : (db.account 7).balance + 100 ≥ 0)
    omega
  have hprepare : (Entry.call 0 [] 0).prepare recursiveEnv (Evm.new db) (.account 7) detectorGas =
      some (.inr ⟨doublerEvm (doublerPaid db) [] 0,
        doublerContract ((doublerPaid db).getCodeHash 0) detectorGas, []⟩) := by
    have hpaid : transfer (canTransfer db 7 0).2 7 0 0 = doublerPaid db := rfl
    simp only [Entry.prepare, ContractRef.address, Evm.new, hcan, if_true, hpaid,
      calleeContract, hcode]
    rfl
  rw [doublerCall, Entry.start, Entry.invoke_eq, hprepare]
  rfl

theorem StateDB.doublerEnd_account (db : StateDB) :
    (doublerEnd (db.getBalance 0).2).getCode 0 = db.getCode 0 ∧
    ((doublerEnd (db.getBalance 0).2).account 7).balance = (db.account 7).balance ∧
    ((doublerEnd (db.getBalance 0).2).account 0).balance = 2 * (db.account 0).balance + 600 := by
  have hread : (db.getBalance 0).2 = db.perform (.getBalance 0) := rfl
  have hvalue : ∀ (db : StateDB) a, (db.getBalance a).1 = (db.account a).balance + 100 :=
    fun _ _ => rfl
  rw [hread]
  simp [doublerEnd, replay, getCode, account_perform, StateOp.target, StateOp.update, hvalue]
  omega

theorem Doubled.call {db : StateDB} {n : Nat} (h : Doubled db n) : ∃ r,
    doublerCall db = .ok r ∧ Doubled r.evm.stateDB (n + 1) ∧
    ∃ w fr, .exec w fr .BALANCE ∈ r.evm.trace ∧ fr.stack = [0] ∧
      2 ^ n ≤ (w.stateDB.account 0).balance + 1 := by
  have hcode : (doublerPaid db).getCode 0 = doubler := by
    rw [← h.code]
    simp [doublerPaid, replay, getCode, account_perform, StateOp.target, StateOp.update]
  have hbalance : ((doublerPaid db).account 0).balance = (db.account 0).balance := by
    simp [doublerPaid, replay, account_perform, StateOp.target, StateOp.update]
  have hcaller : ((doublerPaid db).account 7).balance = (db.account 7).balance + 100 := by
    simp [doublerPaid, replay, account_perform, StateOp.target, StateOp.update]
  have hpow : (1 : Int) ≤ 2 ^ n := one_le_pow₀ (by omega)
  have hle := h.balance
  obtain ⟨trace', c, w, fr, hrun, hmem, hst, hw⟩ := doubler_run (doublerPaid db)
    [.enter 0 (doublerContract ((doublerPaid db).getCodeHash 0) detectorGas) []]
    ((doublerPaid db).getCodeHash 0) (by omega)
  obtain ⟨hcode', hcaller', hbalance'⟩ := (doublerPaid db).doublerEnd_account
  refine ⟨_, by rw [doubler_start db h.caller hcode, hrun]; rfl, ⟨?_, ?_, ?_⟩, w, fr, hmem, hst, ?_⟩
  · exact hcode'.trans hcode
  · change 0 ≤ ((doublerEnd ((doublerPaid db).getBalance 0).2).account 7).balance
    have hnonneg := h.caller
    omega
  · change 2 ^ (n + 1) ≤ ((doublerEnd ((doublerPaid db).getBalance 0).2).account 0).balance + 1
    rw [pow_succ]
    omega
  · rw [hw, hbalance]
    exact hle

/-- Calls and creations with words as values, on a new store that was set up. -/
inductive WordRuns : StateDB → Prop
  | setUp {ops : List StateOp} (h : ∀ op ∈ ops, (∃ a, op = .addBalance a 100) ∨
      ∃ a n, op = .setNonce a n) : WordRuns (StateDB.new.replay ops)
  | run {env : Env} {fuel : Nat} {db : StateDB} {caller : ContractRef} {gas : UInt64} {e : Entry}
      {r : CreateResult} (before : WordRuns db) (hprice : IsWord env.gasPrice)
      (he : (∃ addr input value, e = .call addr input value) ∨ ∃ code value, e = .create code value)
      (hvalue : IsWord (e.value caller)) (h : e.start env fuel (Evm.new db) caller gas = .ok r) :
      WordRuns r.evm.stateDB

/-- Init code that returns the contract. -/
def doublerInit : Bytes := [0x63, 0x30, 0x31, 0x30, 0xff, 0x60, 0, 0x52, 0x60, 4, 0x60, 28, 0xf3]

def doublerCreate : Outcome Evm CreateResult :=
  (Entry.create doublerInit 0).start recursiveEnv 10 (Evm.new (StateDB.new.replay [.addBalance 7 100]))
    (.account 7) detectorGas

theorem doublerCreate_returns : doublerCreate.Returns fun r =>
    r.evm.stateDB.getCode 0 = doubler ∧ 0 ≤ (r.evm.stateDB.account 7).balance ∧
    1 ≤ (r.evm.stateDB.account 0).balance + 1 := by
  decide +kernel

/-- Every number of doublings is reached. -/
theorem doubled_reached (n : Nat) : ∃ db, WordRuns db ∧ Doubled db n := by
  induction n with
  | zero =>
    obtain ⟨r, hr, hcode, hcaller, hbalance⟩ := doublerCreate_returns.exists
    have hsetUp : WordRuns (StateDB.new.replay [.addBalance 7 100]) :=
      .setUp fun op hop => .inl ⟨7, List.mem_singleton.mp hop⟩
    exact ⟨r.evm.stateDB, .run hsetUp (by decide) (.inr ⟨_, _, rfl⟩) (by decide) hr, hcode, hcaller,
      hbalance⟩
  | succ n ih =>
    obtain ⟨db, hruns, hdb⟩ := ih
    obtain ⟨r, hr, hnext, -⟩ := hdb.call
    exact ⟨r.evm.stateDB, .run hruns (by decide) (.inl ⟨_, _, _, rfl⟩) (by decide) hr, hnext⟩

/-- A contract that destructs itself in its own favour doubles its balance, so that after enough
calls `BALANCE` leaves a number above all words on the stack. -/
theorem doubled_not_inRange : ∃ db, WordRuns db ∧ ∃ r, doublerCall db = .ok r ∧
    ∃ ev ∈ r.evm.trace, ¬ ev.InRange recursiveEnv := by
  obtain ⟨db, hruns, hdb⟩ := doubled_reached 256
  obtain ⟨r, hr, -, w, fr, hmem, hst, hbalance⟩ := hdb.call
  refine ⟨db, hruns, r, hr, _, hmem, fun hin => ?_⟩
  have hword := readsWord_of_inRange hin ((w.stateDB.account 0).balance + 100) (by
    simp [Event.balanceRead, hst, bigToAddress])
  have hlt := hword.2
  have htt : tt256 = 2 ^ 256 := by decide
  omega

end MiniEvm
