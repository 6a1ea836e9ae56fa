import MiniEvm.Detectors.Handles
import MiniEvm.Vm.Step

namespace MiniEvm

open Math Framework

namespace LogEntry

variable (fi : FuzzInt)

/-- The bytes of a table. -/
def text : LogEntry → Bytes
  | report r => (fi.render r.table).flatten
  | flush => []

def write (w : BufferedWriter UInt8) : LogEntry → BufferedWriter UInt8
  | report r => (fi.render r.table).foldl (BufferedWriter.write bufioSize) w
  | flush => w.flush

/-- How many bytes the writer holds back after the entry if it held back `n` before. -/
def held (n : Nat) : LogEntry → Nat
  | report r => ((fi.render r.table).map List.length).foldl (BufferedWriter.held bufioSize) n
  | flush => 0

theorem write_stream (w : BufferedWriter UInt8) (e : LogEntry) :
    (e.write fi w).stream = w.stream ++ e.text fi := by
  cases e with
  | report r => exact BufferedWriter.foldl_write_stream ..
  | flush => simp [write, text, BufferedWriter.flush_stream]

theorem write_held (w : BufferedWriter UInt8) (e : LogEntry) :
    (e.write fi w).buf.length = e.held fi w.buf.length := by
  cases e with
  | report r => exact BufferedWriter.foldl_write_held ..
  | flush => rfl

end LogEntry

/-- How many bytes of the tables are held back in the end, from the tables and flushes alone. -/
def heldBack (fi : FuzzInt) (log : List LogEntry) : Nat := log.foldl (LogEntry.held fi) 0

/-- All tables in the order in which they were made. -/
def allTables (fi : FuzzInt) (log : List LogEntry) : Bytes := (log.map (LogEntry.text fi)).flatten

section Replay

variable (fi : FuzzInt) (w : BufferedWriter UInt8) (log : List LogEntry)

theorem foldl_write_stream :
    (log.foldl (LogEntry.write fi) w).stream = w.stream ++ allTables fi log := by
  induction log generalizing w with
  | nil => simp [allTables]
  | cons e log ih => simp [ih, LogEntry.write_stream, allTables]

theorem foldl_write_held :
    (log.foldl (LogEntry.write fi) w).buf.length = log.foldl (LogEntry.held fi) w.buf.length := by
  induction log generalizing w with
  | nil => rfl
  | cons e log ih => rw [List.foldl_cons, ih, LogEntry.write_held, List.foldl_cons]

theorem heldBack_of_flush (h : log = [] ∨ log.getLast? = some .flush) : heldBack fi log = 0 := by
  obtain rfl | h := h
  · rfl
  · obtain ⟨l, rfl⟩ := List.getLast?_eq_some_iff.mp h
    simp [heldBack, LogEntry.held]

end Replay

/-- The writer is what the entries of the log made of a new one. -/
theorem fuzzContracts_writer (fi : FuzzInt) (env : Env) (fuel : Nat) (contracts : ContractUtils) :
    (fi.fuzzContracts env fuel contracts).Meets
      (fun s => s.writer = s.log.foldl (LogEntry.write fi) .new)
      (fun s => s.writer = s.log.foldl (LogEntry.write fi) .new) := by
  refine fi.fuzzContracts_meets env fuel (fun _ h => h) (fun _ _ h => h) (fun _ _ h => h) ?_ ?_ rfl
  · intro s hs
    simp [hs, LogEntry.write]
  · intro method calldata s hs
    refine fi.fuzzRun_meets env fuel method calldata s (fun _ => hs) ?_ (fun _ _ => hs)
    intro result _ _ _
    simp [FuzzInt.report, hs, LogEntry.write]

/-! ## The reports of each method -/

/-- The attack vectors of a method: six of them end it. -/
structure OfMethod (method : Method) (reports : List Report) : Prop where
  sig : ∀ r ∈ reports, r.table.method = method.sig
  most : reports.length ≤ 6

/-- What the reports of a method do to the log file: the sixth is followed by a flush. -/
def methodLog (reports : List Report) : List LogEntry :=
  reports.map .report ++ if reports.length > 5 then [.flush] else []

/-- The reports of a method that found the log as `log`, without a flush. -/
def Found (log : List LogEntry) (method : Method) (s : Fuzzing) : Prop :=
  ∃ reports, OfMethod method reports ∧ s.log = log ++ reports.map .report ∧
    s.attackVectorCnt = reports.length

/-- The same between two runs; the method stops with the sixth report. -/
def AfterRuns (log : List LogEntry) (method : Method) (stop : Bool) (s : Fuzzing) : Prop :=
  ∃ reports, OfMethod method reports ∧ s.log = log ++ methodLog reports ∧
    s.attackVectorCnt = reports.length ∧ stop = decide (reports.length > 5)

/-- How many bytes are held back in the end: only the tables after the last flush matter, and of them
only the lengths of the writes. -/
def pending (fi : FuzzInt) (reports : List (List Report)) : Nat :=
  ((reports.rtakeWhile fun rs => rs.length ≤ 5).flatten.flatMap fun r =>
    (fi.render r.table).map List.length).foldl (BufferedWriter.held bufioSize) 0

section Methods

variable (fi : FuzzInt) (env : Env) (fuel : Nat) {log : List LogEntry} {method : Method}

theorem report_log (method : Method) (calldata : Bytes) (before : ContractUtils)
    (result : CallResult) (s : Fuzzing) :
    ∃ r : Report, r.table.method = method.sig ∧
      (fi.report method calldata before result s).log = s.log ++ [.report r] := ⟨_, rfl, rfl⟩

theorem fuzzRun_found (calldata : Bytes) {s : Fuzzing} {reports : List Report}
    (hof : OfMethod method reports) (hfew : reports.length ≤ 5)
    (hlog : s.log = log ++ reports.map .report) (hcount : s.attackVectorCnt = reports.length) :
    (fi.fuzzRun env fuel method calldata s).Meets (Found log method) (Found log method) := by
  have hsame : ∀ cu, Found log method { s with contracts := cu } :=
    fun _ => ⟨reports, hof, hlog, hcount⟩
  refine fi.fuzzRun_meets env fuel method calldata s (fun _ => hsame _) ?_ (fun _ _ => hsame _)
  intro result _ _ _
  obtain ⟨r, hsig, hr⟩ := report_log fi method calldata s.contracts.backupStates result
    { s with contracts := s.contracts.backupStates.afterCall result }
  refine ⟨reports ++ [r], ⟨?_, ?_⟩, ?_, ?_⟩
  · intro r' hr'
    rcases List.mem_append.mp hr' with hold | hnew
    · exact hof.sig r' hold
    · rwa [List.mem_singleton.mp hnew]
  · rw [List.length_append, List.length_singleton]
    omega
  · rw [hr, List.map_append, ← List.append_assoc, ← hlog]
    rfl
  · rw [List.length_append, ← hcount]
    rfl

theorem runBody_after (i j : Nat) {s : Fuzzing} (h : AfterRuns log method false s) :
    (fi.runBody env fuel method i j s).Meets (fun r => AfterRuns log method r.1 r.2) fun _ => True := by
  obtain ⟨reports, hof, hlog, hcount, hstop⟩ := h
  have hfew : ¬ reports.length > 5 := of_decide_eq_false hstop.symm
  rw [methodLog, if_neg hfew, List.append_nil] at hlog
  have hrun := fuzzRun_found fi env fuel (method.calldata i j) hof (Nat.le_of_not_lt hfew) hlog hcount
  refine hrun.bind (fun _ _ => trivial) ?_
  rintro s' ⟨reports', hof', hlog', hcount'⟩
  split_ifs with hmany
  · rw [hcount'] at hmany
    refine ⟨reports', hof', ?_, hcount', (decide_eq_true hmany).symm⟩
    rw [methodLog, if_pos hmany, ← List.append_assoc, ← hlog']
  · rw [hcount'] at hmany
    refine ⟨reports', hof', ?_, hcount', (decide_eq_false hmany).symm⟩
    rw [methodLog, if_neg hmany, List.append_nil, hlog']

/-- A method adds its reports to the log, and a flush if there are six. -/
theorem methodBody_log (hconst : method.const = false) (s : Fuzzing) :
    (fi.methodBody env fuel method s).Meets
      (fun r => r.1 = false ∧ ∃ reports, OfMethod method reports ∧ r.2.log = s.log ++ methodLog reports)
      fun _ => True := by
  have hmutate : ∀ i ∈ List.range storageMutateNum, ∀ s', AfterRuns s.log method false s' →
      (fi.mutateBody env fuel method i s').Meets (fun r => AfterRuns s.log method r.1 r.2)
        fun _ => True := by
    intro i _ s' hs'
    exact forBreak_meets_post (AfterRuns s.log method)
      (fun j _ _ h => runBody_after fi env fuel i j h) hs'
  have hstart : AfterRuns s.log method false { s with attackVectorCnt := 0 } :=
    ⟨[], ⟨by simp, Nat.zero_le _⟩, (List.append_nil _).symm, rfl, rfl⟩
  rw [FuzzInt.methodBody, hconst]
  refine (forBreak_meets_post (AfterRuns s.log method) hmutate hstart).bind (fun _ _ => trivial) ?_
  rintro ⟨stop, s'⟩ ⟨reports, hof, hlog, -⟩
  exact ⟨rfl, reports, hof, hlog⟩

/-- The log, method by method. -/
theorem methods_log (methods : List Method) (s : Fuzzing) :
    (forBreak (fi.methodBody env fuel) methods s).Meets
      (fun r => ∃ reports, List.Forall₂ OfMethod (methods.filter fun m => !m.const) reports ∧
        r.2.log = s.log ++ reports.flatMap methodLog) fun _ => True := by
  induction methods generalizing s with
  | nil => exact ⟨[], .nil, (List.append_nil _).symm⟩
  | cons method methods ih =>
    rw [forBreak]
    cases hconst : method.const with
    | true =>
      rw [FuzzInt.methodBody, hconst, List.filter_cons_of_neg (by simp [hconst])]
      exact ih s
    | false =>
      rw [List.filter_cons_of_pos (by simp [hconst])]
      refine (methodBody_log fi env fuel hconst s).bind (fun _ _ => trivial) ?_
      rintro ⟨stop, s'⟩ ⟨hstop, reports, hof, hlog⟩
      cases hstop
      refine (ih s').mono ?_ fun _ h => h
      rintro r ⟨rest, hrest, hr⟩
      refine ⟨reports :: rest, .cons hof hrest, ?_⟩
      rw [hr, hlog, List.flatMap_cons, List.append_assoc]

theorem held_reports (n : Nat) (reports : List Report) :
    (reports.map LogEntry.report).foldl (LogEntry.held fi) n =
      (reports.flatMap fun r => (fi.render r.table).map List.length).foldl
        (BufferedWriter.held bufioSize) n := by
  induction reports generalizing n with
  | nil => rfl
  | cons r reports ih =>
    rw [List.map_cons, List.foldl_cons, ih, List.flatMap_cons, List.foldl_append]
    rfl

theorem heldBack_methodLog (reports : List (List Report)) :
    heldBack fi (reports.flatMap methodLog) = pending fi reports := by
  induction reports using List.reverseRecOn with
  | nil => rfl
  | append_singleton reports rs ih =>
    rw [List.flatMap_append, List.flatMap_singleton, methodLog, pending, List.rtakeWhile_concat]
    by_cases hmany : rs.length > 5
    · rw [if_pos hmany, if_neg (by simpa using hmany)]
      refine heldBack_of_flush fi _ (.inr ?_)
      rw [← List.append_assoc, List.getLast?_concat]
    · rw [if_neg hmany, if_pos (by simpa using hmany), List.append_nil, heldBack, List.foldl_append,
        held_reports, ← heldBack, ih, pending, List.flatten_append, List.flatten_singleton,
        List.flatMap_append, List.foldl_append]

end Methods

/-- When `FuzzContracts` returns, the log file holds all tables exactly if the writer holds nothing
back, for instance if there are none or the last of them was flushed. How much it holds back depends
on the reports of the methods behind the last one with six, and on the lengths of their tables. -/
theorem logFile_complete_iff {fi : FuzzInt} {env : Env} {fuel : Nat} {contracts : ContractUtils}
    {s : Fuzzing} (h : fi.fuzzContracts env fuel contracts = .ok s) :
    (s.writer.out = allTables fi s.log ↔ heldBack fi s.log = 0) ∧
    (s.log = [] ∨ s.log.getLast? = some .flush → s.writer.out = allTables fi s.log) ∧
    ∃ reports, List.Forall₂ OfMethod (fi.methods.filter fun m => !m.const) reports ∧
      s.log = reports.flatMap methodLog ∧
      (s.writer.out = allTables fi s.log ↔ pending fi reports = 0) := by
  have hwriter := fuzzContracts_writer fi env fuel contracts
  rw [h] at hwriter
  have hstream : s.writer.stream = allTables fi s.log := by
    rw [show s.writer = _ from hwriter, foldl_write_stream]
    rfl
  have hheld : s.writer.buf.length = heldBack fi s.log := by
    rw [show s.writer = _ from hwriter, foldl_write_held]
    rfl
  have hiff : s.writer.out = allTables fi s.log ↔ heldBack fi s.log = 0 := by
    rw [← hstream, BufferedWriter.out_eq_stream_iff, hheld]
  refine ⟨hiff, fun hlast => hiff.mpr (heldBack_of_flush fi s.log hlast), ?_⟩
  obtain ⟨⟨stop, s'⟩, hloop, hs⟩ := Outcome.bind_eq_ok.mp h
  cases hs
  obtain ⟨reports, hof, hlog⟩ := (methods_log fi env fuel fi.methods _).of_ok hloop
  rw [List.nil_append] at hlog
  refine ⟨reports, hof, hlog, ?_⟩
  rw [hiff, hlog, heldBack_methodLog]

/-- A fuzzer of one method without constants, with one byte for a table. -/
def plainFuzzer (calldata : Nat → Nat → Bytes) : FuzzInt where
  constants := []
  render _ := [[0x2b]]
  methods := [⟨"f(bytes)", false, fun _ => [], calldata⟩]

def LogEntry.isFlush : LogEntry → Bool
  | flush => true
  | report _ => false

/-- `0 - 1` in every call: the sixth table ends the method and is flushed. -/
def alwaysUnderflows : Outcome Fuzzing Fuzzing :=
  (plainFuzzer fun _ _ => [1, 2, 3, 4]).fuzzContracts sampleEnv 9
    (.deployed [0x60, 1, 0x60, 0, 0x03, 0x00])

theorem alwaysUnderflows_returns : alwaysUnderflows.Returns fun s =>
    s.log.getLast?.any LogEntry.isFlush = true ∧ s.writer.out.length = 6 := by
  decide +kernel

theorem logFile_complete_iff_flushed : ∃ s, alwaysUnderflows = .ok s ∧ s.writer.out.length = 6 ∧
    s.writer.out = allTables (plainFuzzer fun _ _ => [1, 2, 3, 4]) s.log := by
  obtain ⟨s, hs, hlast, hlen⟩ := alwaysUnderflows_returns.exists
  have hflush : s.log.getLast? = some .flush := by
    obtain ⟨e, he, hf⟩ := (Option.any_eq_true ..).mp hlast
    cases e with
    | flush => exact he
    | report r => cases hf
  exact ⟨s, hs, hlen, (logFile_complete_iff hs).2.1 (.inr hflush)⟩

/-- Jumps to the position that is the size of the calldata; at 68 follows `0 - 1`. -/
def sizeJump : Bytes := [0x36, 0x56] ++ List.replicate 66 0 ++ [0x5b, 0x60, 1, 0x60, 0, 0x03, 0x00]

/-- Calldata of `f(bytes)` with an empty argument: 68 bytes. -/
def emptyArg : Bytes := [1, 2, 3, 4] ++ List.replicate 31 0 ++ [32] ++ List.replicate 32 0

/-- Calldata of `f(bytes)` with an argument of one byte: 100 bytes. -/
def oneByteArg : Bytes :=
  [1, 2, 3, 4] ++ List.replicate 31 0 ++ [32] ++ List.replicate 31 0 ++ [1] ++ List.replicate 32 0

/-- The utilities of a deployed `sizeJump` between two calls. -/
structure SizeJumpReady (cu : ContractUtils) : Prop where
  contractCreater : cu.contractCreater = 7
  mainAddress : cu.mainAddress = 0x100
  depth : cu.evm.depth = 0
  readOnly : cu.evm.readOnly = false
  abort : cu.evm.abort = false
  code : cu.db.getCode 0x100 = sizeJump
  valid : cu.Valid

theorem SizeJumpReady.of_agrees {cu cu' : ContractUtils} (h : SizeJumpReady cu) (ha : cu.Agrees cu') :
    SizeJumpReady cu' where
  contractCreater := ha.contractCreater.trans h.contractCreater
  mainAddress := ha.mainAddress.trans h.mainAddress
  depth := ha.depth.trans h.depth
  readOnly := ha.readOnly.trans h.readOnly
  abort := ha.abort.trans h.abort
  code := (ha.code _).trans h.code
  valid := ha.valid h.valid

section SizeJump

variable (run : RunFn) (db : StateDB) (returnData : Bytes) (callGasTemp : UInt64)
  (trace : List Event) (codeHash : Hash)

/-- The machine at depth one. -/
def innerEvm (depth : Nat) : Evm := ⟨⟨db, depth, false, returnData, callGasTemp, false⟩, trace⟩

def sizeJumpFrame : Frame :=
  Frame.start ((Contract.new (.account 7) 0x100 0 detectorGas).setCallCode 0x100 codeHash sizeJump)
    oneByteArg

/-- The frame after `CALLDATASIZE`. -/
def sizeJumpFrame' : Frame :=
  { sizeJumpFrame codeHash with
    pc := 1
    stack := [100]
    contract := { (sizeJumpFrame codeHash).contract with gas := detectorGas - 2 } }

theorem sizeJump_calldatasize : ∃ trace',
    step sampleEnv sampleEnv.jumpTable run (innerEvm db returnData callGasTemp trace 1)
      (sizeJumpFrame codeHash) =
    .ok (.next (innerEvm db returnData callGasTemp trace' 1) (sizeJumpFrame' codeHash)) :=
  ⟨_, rfl⟩

theorem sizeJump_jump : ∃ trace' c,
    step sampleEnv sampleEnv.jumpTable run (innerEvm db returnData callGasTemp trace 1)
      (sizeJumpFrame' codeHash) =
    .ok (.done ⟨[], some (.invalidJump 0 100), innerEvm db returnData callGasTemp trace' 1, c⟩) :=
  ⟨_, _, rfl⟩

/-- With an argument of one byte the contract jumps past its end. -/
theorem sizeJump_run : ∃ trace' c, interpreterRun sampleEnv sampleEnv.jumpTable 9
      (innerEvm db returnData callGasTemp trace 0)
      ((Contract.new (.account 7) 0x100 0 detectorGas).setCallCode 0x100 codeHash sizeJump)
      oneByteArg =
    .ok ⟨[], some (.invalidJump 0 100), innerEvm db [] callGasTemp trace' 0, c⟩ := by
  obtain ⟨trace₁, h₁⟩ := sizeJump_calldatasize (interpreterRun sampleEnv sampleEnv.jumpTable 8) db []
    callGasTemp trace codeHash
  obtain ⟨trace₂, c, h₂⟩ := sizeJump_jump (interpreterRun sampleEnv sampleEnv.jumpTable 8) db []
    callGasTemp trace₁ codeHash
  have hloop : loop sampleEnv sampleEnv.jumpTable (interpreterRun sampleEnv sampleEnv.jumpTable 8) 8
      (innerEvm db [] callGasTemp trace 1) (sizeJumpFrame codeHash) =
      .ok ⟨[], some (.invalidJump 0 100), innerEvm db [] callGasTemp trace₂ 1, c⟩ := by
    rw [loop_next rfl h₁, loop_done rfl h₂]
  refine ⟨trace₂, c, ?_⟩
  have hcode : ((Contract.new (.account 7) 0x100 0 detectorGas).setCallCode 0x100 codeHash
      sizeJump).code ≠ [] := by
    change sizeJump ≠ []
    decide
  simp only [interpreterRun, if_neg hcode]
  exact congrArg (Outcome.bind · _) hloop

end SizeJump

/-- A call with an argument of one byte fails, whatever the balance of its caller. -/
theorem sizeJump_call (evm : Evm) (hdepth : evm.depth = 0) (hro : evm.readOnly = false)
    (habort : evm.abort = false) (hcode : evm.stateDB.getCode 0x100 = sizeJump) :
    ∃ r, evm.runCall sampleEnv 9 (.account 7) 0x100 oneByteArg detectorGas 0 = .ok r ∧
      r.err ≠ none ∧ r.evm.depth = 0 ∧ r.evm.readOnly = false ∧ r.evm.abort = false ∧
      r.evm.stateDB.getCode 0x100 = sizeJump := by
  obtain ⟨⟨db, depth, ro, returnData, callGasTemp, abort⟩, trace⟩ := evm
  simp only at hdepth hro habort hcode
  subst hdepth hro habort
  have hcode' := (db.transfer_zero_code 7 0x100 0x100).trans hcode
  unfold Evm.runCall Evm.call
  rw [if_neg (by simp), if_neg (by simp)]
  simp only [StateDB.exist, ContractRef.address]
  cases hcan : (canTransfer db 7 0).1 with
  | false =>
    have hbal := (db.canTransfer_code 7 0x100 0).trans hcode
    exact ⟨_, rfl, by simp, rfl, rfl, rfl, hbal⟩
  | true =>
    simp only [Bool.not_true, Bool.false_eq_true, false_and, if_false, if_true, hcode']
    let codeHash := (transfer (canTransfer db 7 0).2 7 0x100 0).getCodeHash 0x100
    let contract := (Contract.new (.account 7) 0x100 0 detectorGas).setCallCode 0x100 codeHash sizeJump
    obtain ⟨trace', c, hrun⟩ := sizeJump_run (transfer (canTransfer db 7 0).2 7 0x100 0) returnData
      callGasTemp (trace ++ [.enter 0 contract oneByteArg]) codeHash
    refine ⟨settle 0 _, congrArg (Outcome.bind · _) hrun, ?_⟩
    exact ⟨by simp [settle], rfl, rfl, rfl, hcode'⟩

/-- A failed call writes no table and leaves the contract ready for the next one. -/
theorem sizeJump_fuzzRun (fi : FuzzInt) (method : Method) {s : Fuzzing}
    (h : SizeJumpReady s.contracts) : ∃ cu, SizeJumpReady cu ∧
      fi.fuzzRun sampleEnv 9 method oneByteArg s = .ok { s with contracts := cu } := by
  have hbefore := h.of_agrees (.backupStates s.contracts)
  obtain ⟨r, hr, herr, hdepth, hro, habort, hcode⟩ :=
    sizeJump_call s.contracts.backupStates.loaded hbefore.depth hbefore.readOnly hbefore.abort
      hbefore.code
  have hstored : SizeJumpReady (s.contracts.backupStates.store r.evm) :=
    { contractCreater := hbefore.contractCreater
      mainAddress := hbefore.mainAddress
      depth := hdepth
      readOnly := hro
      abort := habort
      code := by rw [ContractUtils.store_db hbefore.valid, hcode]
      valid := ContractUtils.store_valid hbefore.valid _ }
  refine ⟨s.contracts.backupStates.afterCall r,
    hstored.of_agrees (ContractUtils.afterCall_agrees ..), ?_⟩
  rw [FuzzInt.fuzzRun_eq]
  simp only [hbefore.contractCreater, hbefore.mainAddress, hr]
  exact if_neg fun hfound => herr hfound.1

/-- Only the very first call has an empty argument. -/
def firstEmpty (i j : Nat) : Bytes := if i = 0 ∧ j = 0 then emptyArg else oneByteArg

def oneTable : FuzzInt := plainFuzzer firstEmpty

def oneTableMethod : Method := ⟨"f(bytes)", false, fun _ => [], firstEmpty⟩

/-- Without constants there is nothing to store or read. -/
theorem oneTable_mutateBody (i : Nat) (s : Fuzzing) :
    oneTable.mutateBody sampleEnv 9 oneTableMethod i s =
      forBreak (oneTable.runBody sampleEnv 9 oneTableMethod i) (List.range maxRuns) s := rfl

def oneTableStart : Fuzzing := ⟨.deployed sizeJump, .new, 0, []⟩

/-- The first call of all, and what it leaves. -/
def firstRun : Outcome Fuzzing (Bool × Fuzzing) :=
  oneTable.runBody sampleEnv 9 oneTableMethod 0 0 oneTableStart

theorem firstRun_returns : firstRun.Returns fun r =>
    r.1 = false ∧ r.2.attackVectorCnt = 1 ∧ r.2.writer.out = [] ∧
    allTables oneTable r.2.log = [0x2b] ∧
    r.2.contracts.contractCreater = 7 ∧ r.2.contracts.mainAddress = 0x100 ∧
    r.2.contracts.evm.depth = 0 ∧ r.2.contracts.evm.readOnly = false ∧
    r.2.contracts.evm.abort = false ∧ r.2.contracts.db.getCode 0x100 = sizeJump ∧
    r.2.contracts.state.stateMap < r.2.contracts.heap.length := by
  decide +kernel

/-- The state while the calls after the first fail. -/
structure OneTable (s₁ s : Fuzzing) : Prop where
  ready : SizeJumpReady s.contracts
  attackVectorCnt : s.attackVectorCnt = 1
  writer : s.writer = s₁.writer
  log : s.log = s₁.log

theorem OneTable.runBody {s₁ s : Fuzzing} (h : OneTable s₁ s) {i j : Nat} (hij : ¬ (i = 0 ∧ j = 0)) :
    ∃ s', oneTable.runBody sampleEnv 9 oneTableMethod i j s = .ok (false, s') ∧ OneTable s₁ s' := by
  obtain ⟨cu, hcu, hrun⟩ := sizeJump_fuzzRun oneTable oneTableMethod h.ready
  refine ⟨{ s with contracts := cu }, ?_, hcu, h.attackVectorCnt, h.writer, h.log⟩
  have hdata : oneTableMethod.calldata i j = oneByteArg := if_neg hij
  rw [FuzzInt.runBody, hdata, hrun]
  exact if_neg (by simp [h.attackVectorCnt])

theorem mem_range'_one {i n : Nat} (h : i ∈ List.range' 1 n) : i ≠ 0 := by
  have hle := (List.mem_range'_1.mp h).1
  omega

theorem OneTable.mutateBody {s₁ s : Fuzzing} (h : OneTable s₁ s) {i : Nat} (hi : i ≠ 0) :
    ∃ s', oneTable.mutateBody sampleEnv 9 oneTableMethod i s = .ok (false, s') ∧ OneTable s₁ s' := by
  rw [oneTable_mutateBody]
  exact forBreak_through (fun _ _ _ hs => hs.runBody fun hij => hi hij.1) h

/-- The first storage mutation, with the call that succeeds. -/
theorem oneTable_first {s₁ : Fuzzing}
    (hfirst : oneTable.runBody sampleEnv 9 oneTableMethod 0 0 oneTableStart = .ok (false, s₁))
    (h : OneTable s₁ s₁) : ∃ s',
      oneTable.mutateBody sampleEnv 9 oneTableMethod 0 oneTableStart = .ok (false, s') ∧
      OneTable s₁ s' := by
  have hrange : List.range maxRuns = 0 :: List.range' 1 99 := by decide
  rw [oneTable_mutateBody, hrange, forBreak_cons hfirst]
  exact forBreak_through (fun j hj s hs => hs.runBody fun hij => mem_range'_one hj hij.2) h

theorem oneTable_method {s₁ s₂ : Fuzzing}
    (hzero : oneTable.mutateBody sampleEnv 9 oneTableMethod 0 oneTableStart = .ok (false, s₂))
    (h : OneTable s₁ s₂) : ∃ s',
      oneTable.methodBody sampleEnv 9 oneTableMethod oneTableStart = .ok (false, s') ∧
      OneTable s₁ s' := by
  have hrange : List.range storageMutateNum = 0 :: List.range' 1 99 := by decide
  obtain ⟨s₃, hrest, hs₃⟩ := forBreak_through
    (fun i hi s hs => OneTable.mutateBody hs (mem_range'_one hi)) h
  refine ⟨s₃, ?_, hs₃⟩
  have hcount : { oneTableStart with attackVectorCnt := 0 } = oneTableStart := rfl
  have hconst : oneTableMethod.const = false := rfl
  rw [FuzzInt.methodBody, hconst, hcount, hrange, forBreak_cons hzero, hrest]
  rfl

theorem oneTable_fuzzContracts : oneTable.fuzzContracts sampleEnv 9 (.deployed sizeJump) =
    (forBreak (oneTable.methodBody sampleEnv 9) [oneTableMethod] oneTableStart).bind
      fun (_, s) => .ok s := rfl

/-- All calls but the first fail, so that its table is neither followed by another nor flushed. -/
theorem oneTable_lost : ∃ s,
    oneTable.fuzzContracts sampleEnv 9 (.deployed sizeJump) = .ok s ∧ s.writer.out = [] ∧
    s.writer.out ≠ allTables oneTable s.log := by
  obtain ⟨⟨stop, s₁⟩, hfirst, hstop, hcnt, hout, htext, h1, h2, h3, h4, h5, h6, h7⟩ :=
    firstRun_returns.exists
  cases hstop
  obtain ⟨s₂, hzero, hs₂⟩ := oneTable_first hfirst ⟨⟨h1, h2, h3, h4, h5, h6, h7⟩, hcnt, rfl, rfl⟩
  obtain ⟨s₃, hmethod, hs₃⟩ := oneTable_method hzero hs₂
  refine ⟨s₃, ?_, ?_⟩
  · rw [oneTable_fuzzContracts, forBreak_cons hmethod]
    rfl
  · rw [hs₃.writer, hs₃.log, hout, htext]
    simp

end MiniEvm
