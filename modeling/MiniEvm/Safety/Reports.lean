import MiniEvm.Detectors.Handles
import MiniEvm.Safety.Markers

namespace MiniEvm

open Math Framework

/-- An `SSTORE` that changes the slot. -/
def Event.changesSlot (main : Address) (k : Hash) : Event → Bool
  | exec w fr op => (op.stored fr.stack).any fun s => s.1 = k ∧ s.2 ≠ w.stateDB.slot main k
  | _ => false

section Slots

variable {env : Env} {k : Hash}

/-- An instruction that neither stores to the slot nor can mark it. -/
theorem OpCode.effect_slot {evm : Evm} {fr : Frame} {op : OpCode} (hk : k ∉ markerSlots)
    (hst : (Event.exec evm.toWorld fr op).changesSlot fr.contract.self k = false) :
    (op.effect env (evm.executing fr op) fr).stateDB.slot fr.contract.self k =
      evm.stateDB.slot fr.contract.self k := by
  unfold effect
  split
  case h_1 => exact StateDB.slot_getBalance ..
  case h_2 => exact (StateDB.getState_same ..).slot ..
  case h_3 x val st hs =>
    rw [Evm.emit, StateDB.slot_setState]
    split_ifs with hx
    · have hsame : bigToHash x = k → bigToHash val = evm.stateDB.slot fr.contract.self k := by
        simpa [Event.changesSlot, stored, hs] using hst
      exact hsame hx.2.symm
    · rfl
  case h_4 => simp [Evm.executing, Evm.emit]
  case h_5 => rfl
  case h_6 =>
    split
    · rename_i key v hv
      unfold markOverflow
      split_ifs
      · have hne : k ≠ stringToHash key := fun h => hk (h ▸ exactResult_key hv)
        rw [StateDB.slot_setState, if_neg fun h => hne h.2]
        rfl
      · rfl
    · rfl

theorem RunsAlone.slot {c : Contract} {a b : Evm} (h : RunsAlone env c a b) (hk : k ∉ markerSlots)
    (hst : ∀ e ∈ added a.trace b.trace, e.changesSlot c.self k = false) :
    b.stateDB.slot c.self k = a.stateDB.slot c.self k := by
  induction h with
  | trans grows grows' _ _ ih ih' =>
    rw [added_trans grows grows'] at hst
    have hst' := List.forall_mem_append.mp hst
    exact (ih' hst'.2).trans (ih hst'.1)
  | other evs trace slot calls => exact slot k
  | @execute evm fr op n ready begun hc contract =>
    cases contract
    refine OpCode.effect_slot hk (hst _ ?_)
    obtain ⟨evs, htrace, -⟩ := op.effect_trace env (evm.executing fr op) fr
    rw [htrace, Evm.executing, Evm.emit, List.append_assoc, added_append]
    exact List.mem_cons_self ..

end Slots

/-- The reported call, made on the storage that the table shows, returned without an error and
overflowed itself. -/
structure Report.Genuine (fi : FuzzInt) (env : Env) (fuel : Nat) (r : Report) : Prop where
  called : r.before.loaded.runCall env fuel (.account r.before.contractCreater)
    r.before.mainAddress r.table.calldata detectorGas 0 = .ok r.result
  returned : r.result.err = none
  overflowed : Overflowed (added r.before.evm.trace r.result.evm.trace)
  shown : r.table.storage = fi.constants.map fun (name, loc) =>
    (name, r.before.db.slot r.before.mainAddress loc)

/-- The call started with clear markers, stored to none of them and changed no constant. -/
structure Report.Clean (fi : FuzzInt) (r : Report) : Prop where
  clear : ∀ k ∈ markerSlots, r.before.db.slot r.before.mainAddress k = 0
  codeSize : (r.before.db.getCode r.before.mainAddress).length < 2^63
  constants : ∀ c ∈ fi.constants, c.2 ∉ markerSlots
  keepsMarkers : ∀ e ∈ added r.before.evm.trace r.result.evm.trace, e.storesMarker = false
  keepsConstants : ∀ e ∈ added r.before.evm.trace r.result.evm.trace, ∀ c ∈ fi.constants,
    e.changesSlot r.before.mainAddress c.2 = false

section Reports

variable {fi : FuzzInt} {env : Env} {fuel : Nat} {cu : ContractUtils}

/-- A report from a clean call is genuine. -/
theorem report_genuine {method : Method} {calldata : Bytes} {result : CallResult} {s : Fuzzing}
    (hno : env.noRecursion = true)
    (hfix : createAddress env.crypto s.contracts.mainAddress maxUint64 ≠ s.contracts.mainAddress)
    (hvalid : s.contracts.Valid)
    (hcall : s.contracts.backupStates.loaded.runCall env fuel
      (.account s.contracts.contractCreater) s.contracts.mainAddress calldata detectorGas 0 =
        .ok result)
    (herr : result.err = none)
    (hfound : (checkOverflowStorage s.contracts.mainAddress
      (s.contracts.backupStates.store result.evm).db).1 = true)
    {r : Report}
    (hr : .report r ∈ (fi.report method calldata s.contracts.backupStates result
      { s with contracts := s.contracts.backupStates.afterCall result }).log)
    (hlog : ∀ r, .report r ∈ s.log → r.Clean fi → r.Genuine fi env fuel) (hclean : r.Clean fi) :
    r.Genuine fi env fuel := by
  have hbefore : s.contracts.backupStates.Valid :=
    (ContractUtils.Agrees.backupStates s.contracts).valid hvalid
  have hdb := ContractUtils.store_db hbefore result.evm
  obtain hold | hnew := List.mem_append.mp hr
  · exact hlog r hold hclean
  cases List.mem_singleton.mp hnew
  obtain ⟨c, hself, hcode, halone⟩ := call_alone hno hfix hcall
  refine ⟨hcall, herr, ?_, ?_⟩
  · have hmark := halone.marked (by rw [hcode]; exact hclean.codeSize) hclean.keepsMarkers
    rw [hself] at hmark
    rw [hdb, checkOverflowStorage_iff] at hfound
    refine (hmark.mp hfound).resolve_left ?_
    rintro ⟨k, hk, hne⟩
    exact hne (hclean.clear k hk)
  · have hagrees := ContractUtils.afterCall_agrees s.contracts result
    refine (ContractUtils.readConstants_spec _ fi.constants).1.trans (List.map_congr_left ?_)
    rintro ⟨name, loc⟩ hmem
    have hslot := halone.slot (hclean.constants _ hmem) fun e he => by
      rw [hself]
      exact hclean.keepsConstants e he _ hmem
    rw [hself] at hslot
    refine congrArg (name, ·) ?_
    change (s.contracts.backupStates.afterCall result).db.slot
      (s.contracts.backupStates.afterCall result).mainAddress loc = _
    rw [hagrees.slot, hagrees.mainAddress, hdb]
    exact hslot

/-- What holds all the time: the reports so far are genuine if they are clean. -/
structure Reporting (fi : FuzzInt) (env : Env) (fuel : Nat) (main : Address) (s : Fuzzing) : Prop where
  mainAddress : s.contracts.mainAddress = main
  valid : s.contracts.Valid
  genuine : ∀ r, .report r ∈ s.log → r.Clean fi → r.Genuine fi env fuel

theorem Reporting.of_agrees {main : Address} {s : Fuzzing} (h : Reporting fi env fuel main s)
    (ha : s.contracts.Agrees cu) : Reporting fi env fuel main { s with contracts := cu } :=
  ⟨ha.mainAddress.trans h.mainAddress, ha.valid h.valid, h.genuine⟩

theorem Reporting.store {main : Address} {s : Fuzzing} (h : Reporting fi env fuel main s)
    (evm : Evm) :
    Reporting fi env fuel main { s with contracts := s.contracts.backupStates.store evm } :=
  ⟨h.mainAddress, ContractUtils.store_valid
    ((ContractUtils.Agrees.backupStates s.contracts).valid h.valid) evm, h.genuine⟩

theorem fuzzStorage_kept (cu : ContractUtils) (mutations : List (Hash × Int)) :
    (cu.fuzzStorage mutations).mainAddress = cu.mainAddress ∧
      (cu.Valid → (cu.fuzzStorage mutations).Valid) := by
  induction mutations generalizing cu with
  | nil => exact ⟨rfl, id⟩
  | cons m rest ih =>
    obtain ⟨hmain, hvalid⟩ := ih (cu.setStorage m.1 m.2)
    exact ⟨hmain, fun hv => hvalid (ContractUtils.store_valid hv _)⟩

end Reports

/-- In every run of the fuzzer every report of a clean call is genuine, also in one that ends in a
panic. -/
theorem reports_genuine_of_clean {fi : FuzzInt} {crypto : Crypto} {now : Int} {fuel : Nat}
    {cu : ContractUtils} (hvalid : cu.Valid)
    (hfix : createAddress crypto cu.mainAddress maxUint64 ≠ cu.mainAddress) :
    (fi.fuzzContracts (deployEnv crypto now) fuel cu).Meets
      (fun s => ∀ r, .report r ∈ s.log → r.Clean fi → r.Genuine fi (deployEnv crypto now) fuel)
      (fun s => ∀ r, .report r ∈ s.log → r.Clean fi → r.Genuine fi (deployEnv crypto now) fuel) := by
  have hrun : (fi.fuzzContracts (deployEnv crypto now) fuel cu).Meets
      (Reporting fi (deployEnv crypto now) fuel cu.mainAddress)
      (Reporting fi (deployEnv crypto now) fuel cu.mainAddress) := by
    refine fi.fuzzContracts_meets _ fuel ?_ ?_ ?_ ?_ ?_ ?_
    · intro s hs
      exact hs.of_agrees (ContractUtils.readConstants_spec ..).2
    · intro s mutations hs
      obtain ⟨hmain, hv⟩ := fuzzStorage_kept s.contracts mutations
      exact ⟨hmain.trans hs.mainAddress, hv hs.valid, hs.genuine⟩
    · intro s n hs
      exact ⟨hs.mainAddress, hs.valid, hs.genuine⟩
    · intro s hs
      refine ⟨hs.mainAddress, hs.valid, fun r hr => hs.genuine r ?_⟩
      simpa using hr
    · intro method calldata s hs
      have hafter : ∀ result : CallResult, Reporting fi (deployEnv crypto now) fuel cu.mainAddress
          { s with contracts := s.contracts.backupStates.afterCall result } := by
        intro result
        exact (hs.store result.evm).of_agrees (ContractUtils.afterCall_agrees ..)
      refine fi.fuzzRun_meets _ fuel method calldata s hs.store ?_ fun result _ => hafter result
      intro result hcall herr hfound
      have hread := (ContractUtils.readConstants_spec
        (s.contracts.backupStates.afterCall result) fi.constants).2
      refine ⟨hread.mainAddress.trans (hafter result).mainAddress,
        hread.valid (hafter result).valid, fun r hr => ?_⟩
      have hfix' := hfix
      rw [← hs.mainAddress] at hfix'
      exact report_genuine rfl hfix' hs.valid hcall herr hfound hr hs.genuine
    · exact ⟨rfl, hvalid, fun r hr => by cases hr⟩
  exact hrun.mono (fun _ h => h.genuine) fun _ h => h.genuine

/-- The runs below are made of one method without constants. -/
def wordFuzzer (calldata : Nat → Nat → Bytes) : FuzzInt where
  constants := []
  render _ := []
  methods := [⟨"f(uint256)", false, fun _ => [], calldata⟩]

/-- Calldata of `f(uint256)`. -/
def wordArg (b : UInt8) : Bytes := [1, 2, 3, 4] ++ List.replicate 31 0 ++ [b]

/-- The reports of a run that returns. -/
def Fuzzing.reports (s : Fuzzing) : List Report :=
  s.log.filterMap fun
    | .report r => some r
    | .flush => none

theorem Fuzzing.mem_reports {s : Fuzzing} {r : Report} : r ∈ s.reports ↔ .report r ∈ s.log := by
  unfold reports
  rw [List.mem_filterMap]
  constructor
  · rintro ⟨e, he, hr⟩
    cases e with
    | report r' =>
      cases hr
      exact he
    | flush => cases hr
  · intro hr
    exact ⟨_, hr, rfl⟩

/-- `0 - 1` in every call. -/
def underflowRun : Outcome Fuzzing Fuzzing :=
  (wordFuzzer fun _ _ => wordArg 0).fuzzContracts (deployEnv .zero 0) 9 (.deployed underflow)

theorem underflowRun_returns : underflowRun.Returns fun s =>
    s.reports.head?.any (fun r =>
      (checkOverflowStorage r.before.mainAddress r.before.db).1 = false ∧
      r.before.db.getCode r.before.mainAddress = underflow ∧
      ∀ e ∈ added r.before.evm.trace r.result.evm.trace, e.storesMarker = false) = true := by
  decide +kernel

/-- The first report is genuine. -/
theorem reports_genuine_of_clean_first : ∃ s r, underflowRun = .ok s ∧ .report r ∈ s.log ∧
    r.Genuine (wordFuzzer fun _ _ => wordArg 0) (deployEnv .zero 0) 9 := by
  obtain ⟨s, hs, hfirst⟩ := underflowRun_returns.exists
  obtain ⟨r, hr, hclean⟩ := (Option.any_eq_true ..).mp hfirst
  obtain ⟨hcheck, hcode, hkeeps⟩ := of_decide_eq_true hclean
  have hclear : ∀ k ∈ markerSlots, r.before.db.slot r.before.mainAddress k = 0 := by
    intro k hk
    by_contra hne
    rw [(checkOverflowStorage_iff ..).mpr ⟨k, hk, hne⟩] at hcheck
    cases hcheck
  have hmem : .report r ∈ s.log := Fuzzing.mem_reports.mp (List.mem_of_mem_head? hr)
  have hfix : createAddress .zero (ContractUtils.deployed underflow).mainAddress maxUint64 ≠
      (ContractUtils.deployed underflow).mainAddress := by
    decide
  have hvalid : (ContractUtils.deployed underflow).Valid := Nat.zero_lt_one
  have hgenuine := (reports_genuine_of_clean hvalid hfix).of_ok hs
  refine ⟨s, r, hs, hmem, hgenuine r hmem ⟨hclear, ?_, ?_, hkeeps, ?_⟩⟩
  · rw [hcode]
    exact Nat.le_of_ble_eq_true rfl
  · intro c hc
    cases hc
  · intro e _ c hc
    cases hc

/-- `0 - 1` and a revert, if the argument is not zero. -/
def underflowAndRevert : Bytes :=
  [0x60, 4, 0x35, 0x60, 7, 0x57, 0x00, 0x5b, 0x60, 1, 0x60, 0, 0x03, 0x60, 0, 0x60, 0, 0xfd]

/-- Only the first argument is not zero. -/
def staleRun : Outcome Fuzzing Fuzzing :=
  (wordFuzzer fun i j => wordArg (if i = 0 ∧ j = 0 then 1 else 0)).fuzzContracts (deployEnv .zero 0)
    14 (.deployed underflowAndRevert)

instance (evs : List Event) : Decidable (Overflowed evs) :=
  inferInstanceAs (Decidable (∃ e ∈ evs, e.overflows = true))

theorem staleRun_returns : staleRun.Returns fun s =>
    s.reports.head?.any (fun r =>
      ¬ Overflowed (added r.before.evm.trace r.result.evm.trace)) = true := by
  decide +kernel

/-- The marker of the reverted call makes the fuzzer report the next one, which has done no
arithmetic at all. -/
theorem staleRun_not_genuine : ∃ s r, staleRun = .ok s ∧ .report r ∈ s.log ∧
    ¬ r.Genuine (wordFuzzer fun i j => wordArg (if i = 0 ∧ j = 0 then 1 else 0)) (deployEnv .zero 0)
      14 := by
  obtain ⟨s, hs, hfirst⟩ := staleRun_returns.exists
  obtain ⟨r, hr, hno⟩ := (Option.any_eq_true ..).mp hfirst
  refine ⟨s, r, hs, Fuzzing.mem_reports.mp (List.mem_of_mem_head? hr), fun hgenuine => ?_⟩
  exact of_decide_eq_true hno hgenuine.overflowed

end MiniEvm
