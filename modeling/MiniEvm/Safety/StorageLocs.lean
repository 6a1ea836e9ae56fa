import MiniEvm.Detectors.Handles
import MiniEvm.Detectors.StorageLoc
import MiniEvm.Vm.History

namespace MiniEvm

open Math Framework Abi

/-- The location and the contract of an executed `SLOAD`. -/
def Event.sload : Event → Option (Address × Hash)
  | exec _ fr .SLOAD => fr.stack.head?.map fun x => (fr.contract.self, bigToHash x)
  | _ => none

/-- The location that `opSload` hands to the callback. -/
def Event.sloadCallback : Event → Option Hash
  | callback .SLOAD loc _ => some loc
  | _ => none

/-- The slots of all contracts that were loaded, in the order of execution. -/
def loads (evs : List Event) : List (Address × Hash) := evs.filterMap Event.sload

/-- The slots of one contract that were loaded, in the order of execution. -/
def loadsOf (a : Address) (evs : List Event) : List Hash :=
  ((loads evs).filter fun l => l.1 = a).map Prod.snd

/-- A property of stretches of the trace that the events of a call tree build up. -/
structure TraceRule (env : Env) (P : List Event → Prop) : Prop where
  nil : P []
  append : ∀ {evs evs'}, P evs → P evs' → P (evs ++ evs')
  attempt : ∀ w fr op, P [.attempt w fr op]
  execute : ∀ {op : OpCode} (evm : Evm) (fr : Frame), op.isCall = false →
    P (added evm.trace (op.effect env (evm.executing fr op) fr).trace)
  call : ∀ {op : OpCode} (w : World) (fr : Frame), op.isCall = true → P [.exec w fr op]
  enter : ∀ depth contract input, P [.enter depth contract input]

theorem TraceRule.evolves {env : Env} {P : List Event → Prop} (rule : TraceRule env P) {s : Site}
    {a b : Evm} (h : Evolves env s a b) : P (added a.trace b.trace) := by
  have quiet : ∀ {evm evm' : Evm}, evm'.trace = evm.trace → P (added evm.trace evm'.trace) := by
    intro evm evm' htrace
    rw [htrace, added_self]
    exact rule.nil
  have emitted : ∀ {evm : Evm} {e : Event}, P [e] → P (added evm.trace (evm.emit e).trace) := by
    intro evm e he
    rwa [Evm.emit, added_append]
  induction h with
  | trans hab hbc ih ih' =>
    rw [added_trans hab.grows.trace hbc.grows.trace]
    exact rule.append ih ih'
  | attempt ready charged =>
    rw [charged.world]
    exact emitted (rule.attempt ..)
  | execute ready begun hc => exact rule.execute _ _ hc
  | callInstruction ready begun hc => exact emitted (rule.call _ _ hc)
  | create value depth may can hdb haddr free inner stored ih =>
    obtain rfl | ⟨-, code, rfl⟩ := stored
    · exact ih
    · exact ih
  | enter => exact emitted (rule.enter ..)
  | run pass code inner ih => exact ih
  | static outermost inner ih => exact ih
  | refl | output | checkBalance | pay | failCreate | collide => exact quiet rfl

theorem loads_append (evs evs' : List Event) : loads (evs ++ evs') = loads evs ++ loads evs' :=
  List.filterMap_append

theorem Event.sload_of_ne {op : OpCode} (h : op ≠ .SLOAD) (w : World) (fr : Frame) :
    (Event.exec w fr op).sload = none := by
  unfold sload
  split
  · next heq => exact absurd (Event.exec.inj heq).2.2 h
  · rfl

/-- Any other instruction that enters no frame does not report a load. -/
theorem OpCode.effect_noLoad {op : OpCode} (h : op ≠ .SLOAD) (env : Env) (evm : Evm) (fr : Frame) :
    ∃ evs, (op.effect env evm fr).trace = evm.trace ++ evs ∧ loads evs = [] ∧
      evs.filterMap Event.sloadCallback = [] := by
  have quiet : ∀ {evm' : Evm}, evm'.trace = evm.trace →
      ∃ evs, evm'.trace = evm.trace ++ evs ∧ loads evs = [] ∧
        evs.filterMap Event.sloadCallback = [] := by
    intro evm' htrace
    exact ⟨[], by rw [htrace, List.append_nil], rfl, rfl⟩
  unfold effect
  split
  case h_2 => exact absurd rfl h
  case h_3 => exact ⟨[_], rfl, rfl, rfl⟩
  case h_6 =>
    split
    · unfold markOverflow
      split_ifs <;> exact quiet rfl
    · exact quiet rfl
  all_goals exact quiet rfl

theorem Event.sload_self {w : World} {fr : Frame} {op : OpCode} {l : Address × Hash}
    (h : (Event.exec w fr op).sload = some l) : l.1 = fr.contract.self := by
  unfold sload at h
  split at h
  · next heq =>
    obtain ⟨-, rfl, -⟩ := Event.exec.inj heq
    obtain ⟨x, -, rfl⟩ := Option.map_eq_some_iff.mp h
    rfl
  · cases h

/-- An instruction that enters no frame loads what an `SLOAD` names, and reports it. -/
theorem OpCode.effect_loads (op : OpCode) (env : Env) (evm : Evm) (fr : Frame) :
    loads (added evm.trace (op.effect env (evm.executing fr op) fr).trace) =
        (Event.exec evm.toWorld fr op).sload.toList ∧
      (added evm.trace (op.effect env (evm.executing fr op) fr).trace).filterMap Event.sloadCallback =
        ((Event.exec evm.toWorld fr op).sload.map Prod.snd).toList := by
  by_cases hop : op = .SLOAD
  · subst hop
    cases hst : fr.stack with
    | nil =>
      have hnone : (Event.exec evm.toWorld fr .SLOAD).sload = none := by simp [Event.sload, hst]
      simp only [effect, hst, exactResult, Evm.executing, Evm.emit, added_append, loads, hnone,
        List.filterMap_cons_none hnone]
      exact ⟨rfl, rfl⟩
    | cons x st =>
      have hload : (Event.exec evm.toWorld fr .SLOAD).sload = some (fr.contract.self, bigToHash x) := by
        simp [Event.sload, hst]
      simp only [effect, hst, Evm.executing, Evm.emit, List.append_assoc, added_append, loads, hload,
        List.cons_append, List.nil_append, List.filterMap_cons_some hload]
      exact ⟨rfl, rfl⟩
  · obtain ⟨evs, htrace, hloads, hcallbacks⟩ := effect_noLoad hop env (evm.executing fr op) fr
    have hexec := Event.sload_of_ne hop evm.toWorld fr
    rw [htrace, Evm.executing, Evm.emit, List.append_assoc, added_append, List.filterMap_append,
      loads_append, hloads, hcallbacks, loads, List.filterMap_cons_none hexec, hexec]
    exact ⟨rfl, rfl⟩

theorem loads_call {op : OpCode} (h : op.isCall = true) (w : World) (fr : Frame) :
    loads [.exec w fr op] = [] := by
  have hop : op ≠ .SLOAD := by
    rintro rfl
    cases h
  exact List.filterMap_cons_none (Event.sload_of_ne hop w fr)

/-- The callback hears of every load, and of nothing else as a load. -/
theorem callbacks_rule (env : Env) :
    TraceRule env fun evs => evs.filterMap Event.sloadCallback = (loads evs).map Prod.snd where
  nil := rfl
  append h h' := by rw [List.filterMap_append, loads_append, List.map_append, h, h']
  attempt _ _ _ := rfl
  execute {op} evm fr _ := by
    obtain ⟨hloads, hcallbacks⟩ := op.effect_loads env evm fr
    rw [hloads, hcallbacks]
    cases (Event.exec evm.toWorld fr op).sload <;> rfl
  call w fr hc := by
    rw [loads_call hc]
    rfl
  enter _ _ _ := rfl

/-- Where the contracts may not call each other, a frame loads from its own storage only. -/
theorem Evolves.loads_own {env : Env} {c : Contract} {a b : Evm} (h : Evolves env (.frame c) a b)
    (hno : env.noRecursion = true) (hd : 0 < a.depth) :
    ∀ l ∈ loads (added a.trace b.trace), l.1 = c.self := by
  have not_pass : ∀ {evm : Evm}, 0 < evm.depth → ¬ Passes env evm := fun hd pass => pass.1 ⟨hno, hd⟩
  have none : ∀ {evs : List Event}, loads evs = [] → ∀ l ∈ loads evs, l.1 = c.self := by
    intro evs hevs l hl
    rw [hevs] at hl
    cases hl
  generalize hs : Site.frame c = s at h
  induction h with
  | trans hab hbc ih ih' =>
    rw [added_trans hab.grows.trace hbc.grows.trace, loads_append]
    exact List.forall_mem_append.mpr ⟨ih hd hs, ih' (by rw [hab.mode.1]; exact hd) hs⟩
  | attempt ready charged =>
    rw [charged.world]
    exact none (by rw [Evm.attempting, Evm.emit, added_append]; rfl)
  | @execute evm fr op n ready begun hc =>
    cases hs
    intro l hl
    rw [(op.effect_loads env evm fr).1, Option.mem_toList] at hl
    exact Event.sload_self hl
  | callInstruction ready begun hc =>
    exact none (by rw [Evm.executing, Evm.emit, added_append]; exact loads_call hc _ _)
  | create value depth may can hdb haddr free inner stored ih =>
    obtain rfl | ⟨-, code, rfl⟩ := stored
    · exact ih hd hs
    · exact ih hd hs
  | checkBalance value pass => exact absurd pass (not_pass hd)
  | pay recipient value pass => exact absurd pass (not_pass hd)
  | enter contract input pass => exact absurd pass (not_pass hd)
  | run pass => exact absurd pass (not_pass hd)
  | static outermost inner ih => exact ih hd hs
  | refl | output | failCreate | collide => exact none (by rw [added_self]; rfl)

theorem runContract_loads {env : Env} {n : Nat} {evm : Evm} {c : Contract} {input : Bytes}
    {r : RunResult} (hno : env.noRecursion = true)
    (h : runContract env (interpreterRun env env.jumpTable n) evm c input = .ok r) :
    ∀ l ∈ loads (added evm.trace r.evm.trace), l.1 = c.self := by
  have henter : ∀ {evm' : Evm}, evm'.trace = evm.trace ++ [.enter evm.depth c input] →
      ∀ l ∈ loads (added evm.trace evm'.trace), l.1 = c.self := by
    intro evm' htrace l hl
    rw [htrace, added_append] at hl
    cases hl
  unfold runContract at h
  simp only at h
  split at h
  · rw [Outcome.ofOption_eq_ok] at h
    obtain ⟨⟨ret, err, c'⟩, -, rfl⟩ := Option.map_eq_some_iff.mp h
    exact henter rfl
  · have hr := interpreterRun_evolves env n _ _ _ _ h
    generalize r.evm = evm' at hr
    cases hr with
    | empty => exact henter rfl
    | @code evm' code inner =>
      have hin := inner.loads_own hno (Nat.succ_pos _)
      have hgrow : evm.trace <+: (evm.emit (.enter evm.depth c input)).trace :=
        List.prefix_append ..
      rw [added_trans hgrow inner.grows.trace, loads_append]
      exact List.forall_mem_append.mpr ⟨henter rfl, hin⟩

/-- A call from outside loads from the storage of the called contract only. -/
theorem call_loads {env : Env} {n : Nat} {evm : Evm} {caller : ContractRef} {addr : Address}
    {input : Bytes} {gas : UInt64} {value : Int} {r : CallResult} (hno : env.noRecursion = true)
    (h : evm.call env (interpreterRun env env.jumpTable n) caller addr input gas value = .ok r) :
    ∀ l ∈ loads (added evm.trace r.evm.trace), l.1 = addr := by
  have quiet : ∀ {evm' : Evm}, evm'.trace = evm.trace →
      ∀ l ∈ loads (added evm.trace evm'.trace), l.1 = addr := by
    intro evm' htrace l hl
    rw [htrace, added_self] at hl
    cases hl
  unfold Evm.call at h
  simp only at h
  split_ifs at h
  all_goals
    first
    | cases h
      exact quiet rfl
    | obtain ⟨rr, hrr, h⟩ := Outcome.bind_eq_ok.mp h
      cases h
      rw [settle_evm]
      exact runContract_loads hno hrr

theorem foldl_touch_true (evs : List Event) (loc : Hash) :
    evs.foldl touch (true, loc) = (true, loc) := by
  induction evs with
  | nil => rfl
  | cons e evs ih =>
    have hstep : touch (true, loc) e = (true, loc) := by
      cases e <;> rfl
    rw [List.foldl_cons, hstep, ih]

/-- The callback keeps the first location that `opSload` reports. -/
theorem touchedLoc_eq (evs : List Event) :
    touchedLoc evs = (evs.filterMap Event.sloadCallback).head?.getD 0 := by
  unfold touchedLoc
  induction evs with
  | nil => rfl
  | cons e evs ih =>
    rw [List.foldl_cons]
    cases he : e.sloadCallback with
    | none =>
      have hstep : touch (false, 0) e = (false, 0) := by
        cases e with
        | callback site loc val =>
          have hsite : site ≠ .SLOAD := by
            rintro rfl
            cases he
          simp [touch, hsite]
        | _ => rfl
      rw [hstep, ih, List.filterMap_cons_none he]
    | some loc =>
      have hstep : touch (false, 0) e = (true, loc) := by
        unfold Event.sloadCallback at he
        split at he
        · cases he
          rfl
        · cases he
      rw [hstep, foldl_touch_true, List.filterMap_cons_some he]
      rfl

/-- What a getter's call leaves: the first slot it loads, or the zero hash. -/
theorem touchSload_loc {env : Env} {fuel : Nat} {cu cu' : ContractUtils} {main : Address}
    {method : Abi.Method Argument} {loc : Hash} {err : Option VmError} {evs : List Event}
    (hno : env.noRecursion = true)
    (h : touchSload env fuel cu main method = .ok (loc, err, evs, cu')) :
    loc = (loadsOf main evs).head?.getD 0 ∧ cu'.mainAddress = cu.mainAddress := by
  obtain ⟨⟨r, cu₁⟩, hcall, hrest⟩ := Outcome.bind_eq_ok.mp h
  obtain ⟨r', hrun, hr'⟩ := Outcome.bind_eq_ok.mp hcall
  cases hr'
  cases hrest
  refine ⟨?_, rfl⟩
  have hevolves := call_evolves (s := .entry (.account cu.contractCreater))
    (interpreterRun_evolves env fuel) rfl trivial hrun
  have hcallbacks := (callbacks_rule env).evolves hevolves
  have hown := call_loads hno hrun
  change touchedLoc (added cu.loaded.trace r.evm.trace) = _
  rw [touchedLoc_eq, hcallbacks]
  unfold loadsOf
  rw [List.filter_eq_self.mpr fun l hl => by simpa using hown l hl]
  rfl

/-- The loop invariant of `GetStorageLoc`. -/
structure Located (main : Address) (s : StorageLocs) : Prop where
  mainAddress : s.cu.mainAddress = main
  storageLoc : s.storageLoc = s.calls.map fun c => (c.1, (loadsOf main c.2).head?.getD 0)

theorem locate_keeps {env : Env} {fuel : Nat} {skipped : List String} {main : Address}
    (hno : env.noRecursion = true) {method : String × Abi.Method Argument} {s s' : StorageLocs}
    (hs : Located main s) (h : locate env fuel skipped method s = .ok s') :
    Located main s' ∧ s'.calls.map Prod.fst =
      s.calls.map Prod.fst ++ [method.1].filter (· ∉ skipped) := by
  unfold locate at h
  by_cases hskip : method.1 ∈ skipped
  · rw [if_pos hskip] at h
    cases h
    exact ⟨hs, by simp [hskip]⟩
  · rw [if_neg hskip] at h
    obtain ⟨⟨loc, err, evs, cu⟩, htouch, hrest⟩ := Outcome.bind_eq_ok.mp h
    cases hrest
    rw [hs.mainAddress] at htouch
    obtain ⟨hloc, hmain⟩ := touchSload_loc hno htouch
    refine ⟨⟨hmain.trans hs.mainAddress, ?_⟩, by simp [hskip]⟩
    rw [List.map_append, ← hs.storageLoc, hloc]
    rfl

theorem forEach_locate {env : Env} {fuel : Nat} {skipped : List String} {main : Address}
    (hno : env.noRecursion = true) {methods : List (String × Abi.Method Argument)} {s s' : StorageLocs}
    (hs : Located main s) (h : forEach (locate env fuel skipped) methods s = .ok s') :
    Located main s' ∧ s'.calls.map Prod.fst =
      s.calls.map Prod.fst ++ (methods.map Prod.fst).filter (· ∉ skipped) := by
  induction methods generalizing s with
  | nil =>
    cases h
    exact ⟨hs, (List.append_nil _).symm⟩
  | cons method methods ih =>
    obtain ⟨s₁, hlocate, hrest⟩ := Outcome.bind_eq_ok.mp h
    obtain ⟨hs₁, hcalls₁⟩ := locate_keeps hno hs hlocate
    obtain ⟨hs', hcalls⟩ := ih hs₁ hrest
    refine ⟨hs', ?_⟩
    rw [hcalls, hcalls₁, List.append_assoc, ← List.filter_append]
    rfl

/-- The keys of a Go map are distinct, so no getter is called twice. -/
theorem ConstantABI.nodup {abi : ABI Argument} (constantABI : ConstantABI abi) :
    (constantABI.methods.map Prod.fst).Nodup := by
  have hkeys : (abi.methods.entries.map Sigma.fst).Nodup := abi.methods.nodupKeys
  have hsub : ((filterOutConstantNumABI abi).map Prod.fst).Sublist (abi.methods.entries.map Sigma.fst) := by
    have hfilter := (List.filter_sublist (p := fun m : String × Abi.Method Argument => isConstantNum m.2)
      (l := abi.methods.entries.map fun e => (e.1, e.2))).map Prod.fst
    rwa [List.map_map] at hfilter
  exact ((constantABI.perm.map Prod.fst).nodup_iff).mpr (hkeys.sublist hsub)

/-- Storing back a slot that did not change. -/
theorem ContractUtils.store_slot {cu : ContractUtils} {evm : Evm} {a : Address} {k : Hash}
    (h : evm.stateDB.slot a k = cu.db.slot a k) : (cu.store evm).db.slot a k = cu.db.slot a k := by
  by_cases hvalid : cu.Valid
  · rw [store_db hvalid]
    exact h
  · have hheap : cu.heap.set cu.state.stateMap evm.stateDB.stateMap = cu.heap :=
      List.set_eq_of_length_le (Nat.le_of_not_lt hvalid)
    simp only [store, db, hheap]
    rfl

/-- `SetStorage` leaves all other slots alone. -/
theorem ContractUtils.setStorage_slot {cu : ContractUtils} {loc k : Hash} (h : k ≠ loc) (value : Int)
    (a : Address) : (cu.setStorage loc value).db.slot a k = cu.db.slot a k := by
  apply store_slot
  rw [StateDB.slot_setState, if_neg fun hk => h hk.2]
  rfl

/-- `FuzzStorage` overwrites nothing but the locations it is given. -/
theorem ContractUtils.fuzzStorage_slot {muts : List (Hash × Int)} {k : Hash}
    (h : k ∉ muts.map Prod.fst) (cu : ContractUtils) (a : Address) :
    (cu.fuzzStorage muts).db.slot a k = cu.db.slot a k := by
  induction muts generalizing cu with
  | nil => rfl
  | cons m muts ih =>
    rw [List.map_cons, List.mem_cons, not_or] at h
    exact (ih h.2 (cu.setStorage m.1 m.2)).trans (setStorage_slot h.1 m.2 a)

/-- The map holds the first slot that each getter loads, and nothing for a getter that loads none;
fuzzing the locations in it, in any order, changes only slots that some getter loads. -/
structure LocatesGetters (main : Address) (s : StorageLocs) : Prop where
  locs : ∀ name loc, (name, loc) ∈ s.storageLoc ↔
    ∃ evs, (name, evs) ∈ s.calls ∧ (loadsOf main evs).head? = some loc
  fuzz : ∀ muts : List (Hash × Int), (muts.map Prod.fst).Perm (s.storageLoc.map Prod.snd) →
    ∀ k, (s.cu.fuzzStorage muts).db.slot main k ≠ s.cu.db.slot main k →
      ∃ name evs, (name, evs) ∈ s.calls ∧ k ∈ loadsOf main evs

/-- All selected getters are called, and the map is as intended exactly if each of them loads a slot
of the contract. -/
theorem getStorageLoc_iff {crypto : Crypto} {now : Int} {fuel : Nat} {abi : ABI Argument}
    {constantABI : ConstantABI abi} {skipped : List String} {cu : ContractUtils} {s : StorageLocs}
    (h : getStorageLoc (deployEnv crypto now) fuel constantABI skipped cu = .ok s) :
    s.calls.map Prod.fst = (constantABI.methods.map Prod.fst).filter (· ∉ skipped) ∧
      (LocatesGetters cu.mainAddress s ↔ ∀ c ∈ s.calls, loadsOf cu.mainAddress c.2 ≠ []) := by
  have hstart : Located cu.mainAddress ⟨cu, [], []⟩ := ⟨rfl, rfl⟩
  obtain ⟨hlocated, hcalls⟩ := forEach_locate rfl hstart h
  refine ⟨hcalls, ?_⟩
  have hnames : (s.calls.map Prod.fst).Nodup := by
    rw [hcalls]
    exact constantABI.nodup.filter _
  constructor
  · rintro hexact ⟨name, evs⟩ hmem hnone
    have hzero : (name, (0 : Hash)) ∈ s.storageLoc := by
      rw [hlocated.storageLoc]
      exact List.mem_map.mpr ⟨(name, evs), hmem, by rw [hnone]; rfl⟩
    obtain ⟨evs', hmem', hfirst⟩ := (hexact.locs name 0).mp hzero
    have hsame : (name, evs) = (name, evs') := List.inj_on_of_nodup_map hnames hmem hmem' rfl
    cases hsame
    rw [hnone] at hfirst
    cases hfirst
  · intro hloads
    have hlocs : ∀ name loc, (name, loc) ∈ s.storageLoc ↔
        ∃ evs, (name, evs) ∈ s.calls ∧ (loadsOf cu.mainAddress evs).head? = some loc := by
      intro name loc
      rw [hlocated.storageLoc, List.mem_map]
      constructor
      · rintro ⟨⟨name', evs⟩, hmem, heq⟩
        cases heq
        refine ⟨evs, hmem, ?_⟩
        obtain ⟨l, ls, hl⟩ := List.exists_cons_of_ne_nil (hloads _ hmem)
        rw [hl]
        rfl
      · rintro ⟨evs, hmem, hfirst⟩
        exact ⟨(name, evs), hmem, by rw [hfirst]; rfl⟩
    refine ⟨hlocs, ?_⟩
    intro muts hperm k hchanged
    have hk : k ∈ muts.map Prod.fst := by
      by_contra hk
      exact hchanged (ContractUtils.fuzzStorage_slot hk s.cu _)
    obtain ⟨⟨name, loc⟩, hmem, rfl⟩ := List.mem_map.mp (hperm.mem_iff.mp hk)
    obtain ⟨evs, hevs, hfirst⟩ := (hlocs name loc).mp hmem
    exact ⟨name, evs, hevs, List.mem_of_head? hfirst⟩

/-- An interface with one getter `x` of a `uint256`. -/
def oneGetter : ABI Argument where
  constructor := none
  methods := AList.singleton "x" ⟨"x", true, [], [⟨.uint 256, false, "uint256"⟩]⟩
  events := ∅

def visitGetter : ConstantABI oneGetter := ⟨filterOutConstantNumABI oneGetter, .refl _⟩

/-- `PUSH1 5, SLOAD` -/
def loadsSlotFive : Bytes := [0x60, 5, 0x54]

theorem getStorageLoc_iff_slotFive : ∃ s,
    getStorageLoc sampleEnv 20 visitGetter (skippedVars []) (.deployed loadsSlotFive) = .ok s ∧
      LocatesGetters (ContractUtils.deployed loadsSlotFive).mainAddress s := by
  have hrun : (getStorageLoc sampleEnv 20 visitGetter (skippedVars [])
      (.deployed loadsSlotFive)).Returns
      (fun s => ∀ c ∈ s.calls, loadsOf (ContractUtils.deployed loadsSlotFive).mainAddress c.2 ≠ []) := by
    decide +kernel
  obtain ⟨s, hs, hloads⟩ := hrun.exists
  exact ⟨s, hs, (getStorageLoc_iff hs).2.mpr hloads⟩

/-- A getter of a constant loads nothing; it is mapped to slot zero, and fuzzing overwrites that
slot. -/
theorem constant_getter_located : ∃ s,
    getStorageLoc sampleEnv 20 visitGetter (skippedVars []) (.deployed [0]) = .ok s ∧
      s.storageLoc = [("x", 0)] ∧ (∀ c ∈ s.calls, loads c.2 = []) ∧
      s.cu.db.slot s.cu.mainAddress 0 = 0 ∧
      (s.cu.fuzzStorage [(0, 7)]).db.slot s.cu.mainAddress 0 = 7 := by
  have hrun : (getStorageLoc sampleEnv 20 visitGetter (skippedVars []) (.deployed [0])).Returns
      (fun s => s.storageLoc = [("x", 0)] ∧ (∀ c ∈ s.calls, loads c.2 = []) ∧
        s.cu.db.slot s.cu.mainAddress 0 = 0 ∧
        (s.cu.fuzzStorage [(0, 7)]).db.slot s.cu.mainAddress 0 = 7) := by
    decide +kernel
  exact hrun.exists

end MiniEvm
