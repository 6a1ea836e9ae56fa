import MiniEvm.Abi.InPlace
import MiniEvm.Detectors.OverFlowDetector
import MiniEvm.Vm.KeptLogs

namespace MiniEvm

open Math Framework Abi StateDB

/-- The first topic is the overflow topic. -/
def Log.overflows (l : Log) : Bool := l.topics.head? == some overflowTopic

/-- The scan reads every log, and reports an overflow log if there is one. -/
theorem foundOverflow_eq (logs : List Log) :
    foundOverflow logs =
      if ∀ l ∈ logs, l.topics ≠ [] then some (logs.any Log.overflows) else none := by
  have hacc : ∀ found, logs.foldlM
      (fun found log => log.topics.head?.map fun topic => found || topic == overflowTopic) found =
        if ∀ l ∈ logs, l.topics ≠ [] then some (found || logs.any Log.overflows) else none := by
    induction logs with
    | nil => simp
    | cons l logs ih =>
      intro found
      rw [List.foldlM_cons]
      cases ht : l.topics with
      | nil => simp [ht]
      | cons topic topics =>
        have hl : l.overflows = (topic == overflowTopic) := by simp [Log.overflows, ht]
        simp [ht, ih, hl, Bool.or_assoc]
  exact (hacc false).trans (by simp)

/-- A tuple that was packed, and its call. -/
structure Attempt where
  product : List Value
  packed : Bytes
  before : StateDB
  result : CallResult
  kept : List Log

namespace Attempt

/-- The logs that the call appends to the store. -/
def emitted (a : Attempt) : List Log := a.before.logsTo a.result.evm.stateDB

/-- The tuple as `Pack` leaves it. -/
def arguments (a : Attempt) : List Value := a.product.map Value.reduced

/-- The call returned without an error and emitted an overflow log, in a frame that was not reverted
with any of those around it. -/
def overflows (a : Attempt) : Bool := a.result.err = none && a.kept.any Log.overflows

/-- What the detector looks at: all logs of the store. -/
def flagged (a : Attempt) : Bool :=
  a.result.err = none && a.result.evm.stateDB.logs.any Log.overflows

/-- The scan after the call finds a topic in every log. -/
def Readable (a : Attempt) : Prop :=
  a.result.err = none → ∀ l ∈ a.result.evm.stateDB.logs, l.topics ≠ []

instance : DecidablePred Readable := fun a =>
  inferInstanceAs (Decidable (a.result.err = none → ∀ l ∈ a.result.evm.stateDB.logs, l.topics ≠ []))

/-- The three fields of the detector after this tuple was reported. -/
def verdict (a : Attempt) : Bool × Option Bytes × Option (List Value) :=
  (true, some a.packed, some a.arguments)

/-- The last tuple that is flagged. -/
def last (as : List Attempt) : Option Attempt := as.reverse.find? flagged

theorem last_cons (a : Attempt) (as : List Attempt) :
    last (a :: as) = (last as).or (if a.flagged then some a else none) := by
  rw [last, List.reverse_cons, List.find?_append, ← last, List.find?_singleton]

/-- No tuple after the last flagged one is flagged. -/
theorem last_eq_some {as : List Attempt} {a : Attempt} : last as = some a ↔
    ∃ earlier later, as = earlier ++ a :: later ∧ a.flagged = true ∧
      ∀ b ∈ later, b.flagged = false := by
  rw [last, List.find?_eq_some_iff_append]
  constructor
  · rintro ⟨ha, later, earlier, hrev, hlater⟩
    refine ⟨earlier.reverse, later.reverse, ?_, ha, ?_⟩
    · rw [← List.reverse_inj, hrev]
      simp
    · simpa using hlater
  · rintro ⟨earlier, later, rfl, ha, hlater⟩
    refine ⟨ha, later.reverse, earlier.reverse, by simp, ?_⟩
    simpa using hlater

/-- What every attempt of a run satisfies. -/
structure Made (crypto : Crypto) (abi : ABI Argument) (function : String) (a : Attempt) : Prop where
  packs : abi.pack crypto function a.product = .ok a.packed
  replays : a.before.Replays a.result.evm.stateDB
  kept : a.kept.Sublist a.emitted

theorem Made.logs_eq {crypto : Crypto} {abi : ABI Argument} {function : String} {a : Attempt}
    (h : a.Made crypto abi function) : a.result.evm.stateDB.logs = a.before.logs ++ a.emitted :=
  h.replays.logs_eq

/-- Each call starts with the logs that the one before it left. -/
def Chained (logs : List Log) (as : List Attempt) : Prop :=
  ∀ earlier a later, as = earlier ++ a :: later →
    a.result.evm.stateDB.logs = logs ++ (earlier ++ [a]).flatMap emitted

theorem Chained.nil (logs : List Log) : Chained logs [] := by
  intro earlier a later h
  simp at h

theorem Chained.cons {logs : List Log} {a : Attempt} {as : List Attempt}
    (h : a.result.evm.stateDB.logs = logs ++ a.emitted)
    (rest : Chained a.result.evm.stateDB.logs as) : Chained logs (a :: as) := by
  intro earlier b later heq
  cases earlier with
  | nil =>
    cases heq
    rw [h]
    simp
  | cons c earlier =>
    obtain ⟨rfl, htail⟩ := List.cons.inj heq
    rw [rest earlier b later htail, h]
    simp [List.flatMap_cons]

/-- The logs only grow: a later call finds every log that an earlier one left. -/
theorem Chained.logs_subset {logs : List Log} {earlier middle later : List Attempt} {a b : Attempt}
    (h : Chained logs (earlier ++ a :: (middle ++ b :: later))) :
    a.result.evm.stateDB.logs ⊆ b.result.evm.stateDB.logs := by
  rw [h earlier a _ rfl, h (earlier ++ a :: middle) b later (by simp)]
  intro l hl
  simp only [List.mem_append, List.flatMap_append, List.flatMap_cons] at hl ⊢
  tauto

theorem flagged_iff {a : Attempt} :
    a.flagged = true ↔ a.result.err = none ∧ ∃ l ∈ a.result.evm.stateDB.logs, l.overflows = true := by
  rw [flagged, Bool.and_eq_true, decide_eq_true_eq, List.any_eq_true]

theorem Made.flagged_of_overflows {crypto : Crypto} {abi : ABI Argument} {function : String}
    {a : Attempt} (h : a.Made crypto abi function) (ho : a.overflows = true) : a.flagged = true := by
  rw [overflows, Bool.and_eq_true, decide_eq_true_eq, List.any_eq_true] at ho
  obtain ⟨herr, l, hl, hover⟩ := ho
  refine flagged_iff.mpr ⟨herr, l, ?_, hover⟩
  rw [h.logs_eq]
  exact List.mem_append_right _ (h.kept.subset hl)

end Attempt

namespace OverFlowDetector

def verdict (ofd : OverFlowDetector) : Bool × Option Bytes × Option (List Value) :=
  (ofd.detected, ofd.attackvector, ofd.unpackedinput)

section Runs

variable (env : Env) (fuel : Nat) (function : String)

/-- The calls of the loop, without the scans. -/
def attempts (abi : ABI Argument) (attacker contractAddress : Address) :
    List (List Value) → Evm → Outcome Evm (List Attempt)
  | [], _ => .ok []
  | product :: products, evm =>
    match abi.pack env.crypto function product with
    | .panic => .panic evm
    | .error _ => attempts abi attacker contractAddress products evm
    | .ok packed =>
      (evm.runCall env fuel (.account attacker) contractAddress packed detectorGas 0).bind fun r =>
        (attempts abi attacker contractAddress products r.evm).bind fun as =>
          let kept := (Entry.call contractAddress packed 0).startKept env fuel evm (.account attacker)
            detectorGas
          .ok (⟨product, packed, evm.stateDB, r, kept⟩ :: as)

/-- What is done before the loop: the detector then, and the tuples. -/
def prepare (iter : List (List Value) → List (List Value)) (ofd : OverFlowDetector)
    (code : Bytes) (initAttacker initVictims : Bool) :
    Outcome Evm (OverFlowDetector × List (List Value)) :=
  let ofd := { ofd with detected := false, attackvector := none, unpackedinput := none }
  (ofd.createContract env fuel ofd.owner code 0).bind fun (err, ofd) =>
    if err ≠ none then .ok ({ ofd with detected := false }, [])
    else
      (if initAttacker then ofd.initAttackerToken env fuel else .ok ofd).bind fun ofd =>
        (if initVictims then ofd.initVictimsToken env fuel else .ok ofd).bind fun ofd =>
          .ok (ofd, ((generateInputsByABI ofd.abi function).map iter).getD [])

/-- The logs that the constructor and the set-up leave, and all calls that the detector makes with
generated tuples. -/
def attempted (iter : List (List Value) → List (List Value)) (ofd : OverFlowDetector)
    (code : Bytes) (initAttacker initVictims : Bool) : Outcome Evm (List Log × List Attempt) :=
  (ofd.prepare env fuel function iter code initAttacker initVictims).bind fun (ofd, products) =>
    (attempts env fuel function ofd.abi ofd.attacker ofd.contractAddress products ofd.evm).bind
      fun as => .ok (ofd.evm.stateDB.logs, as)

end Runs

variable {env : Env} {fuel : Nat} {function : String}

theorem overFlowDetector_eq (iter : List (List Value) → List (List Value)) (ofd : OverFlowDetector)
    (code : Bytes) (initAttacker initVictims : Bool) :
    ofd.overFlowDetector env fuel iter code function initAttacker initVictims =
      (ofd.prepare env fuel function iter code initAttacker initVictims).bind
        fun (ofd, products) => forEach (tryProduct env fuel function) products ofd := by
  simp only [overFlowDetector, prepare, Outcome.bind_assoc]
  congr 1
  funext x
  obtain ⟨err, ofd₁⟩ := x
  by_cases herr : err = none
  · simp only [herr, ne_eq, not_true_eq_false, if_false, Outcome.bind_assoc, Outcome.bind_ok]
    congr 1
    funext ofd₂
    congr 1
    funext ofd₃
    cases generateInputsByABI ofd₃.abi function <;> rfl
  · simp only [herr, ne_eq, not_false_eq_true, if_true, Outcome.bind_ok, forEach]

theorem erc20Transfer_verdict {caller receiver : Address} {amount : Int} {ofd ofd' : OverFlowDetector}
    (h : erc20Transfer env fuel caller receiver amount ofd = .ok ofd') :
    ofd'.verdict = ofd.verdict := by
  unfold erc20Transfer at h
  split at h
  · cases h
  · cases h
    rfl
  · obtain ⟨x, hcall, h⟩ := Outcome.bind_eq_ok.mp h
    obtain ⟨r, hrun, hx⟩ := Outcome.bind_eq_ok.mp hcall
    cases hx
    cases h
    rfl

theorem transfers_verdict {caller : Address} {amount : Int} {receivers : List Address}
    {ofd ofd' : OverFlowDetector}
    (h : forEach (fun receiver => erc20Transfer env fuel caller receiver amount) receivers ofd =
      .ok ofd') : ofd'.verdict = ofd.verdict := by
  induction receivers generalizing ofd with
  | nil =>
    cases h
    rfl
  | cons receiver receivers ih =>
    obtain ⟨ofd₁, hfirst, hrest⟩ := Outcome.bind_eq_ok.mp h
    exact (ih hrest).trans (erc20Transfer_verdict hfirst)

theorem erc20GetAccountInfo_verdict {instruction : String} {ofd ofd' : OverFlowDetector}
    {info : Option Int} (h : ofd.erc20GetAccountInfo env fuel instruction = .ok (info, ofd')) :
    ofd'.verdict = ofd.verdict := by
  unfold erc20GetAccountInfo at h
  split at h
  · cases h
  · cases h
    rfl
  · obtain ⟨x, hcall, h⟩ := Outcome.bind_eq_ok.mp h
    obtain ⟨r, hrun, hx⟩ := Outcome.bind_eq_ok.mp hcall
    cases hx
    cases h
    rfl

theorem initToken_verdict {receivers : List Address} {ofd ofd' : OverFlowDetector}
    (h : ofd.initToken env fuel receivers = .ok ofd') : ofd'.verdict = ofd.verdict := by
  obtain ⟨⟨info, ofd₁⟩, hinfo, h⟩ := Outcome.bind_eq_ok.mp h
  have hkept := erc20GetAccountInfo_verdict hinfo
  cases info with
  | none =>
    cases h
    exact hkept
  | some totalSupply => exact (transfers_verdict h).trans hkept

/-- The loop starts with the verdict reset. -/
theorem prepare_verdict {iter : List (List Value) → List (List Value)} {ofd ofd' : OverFlowDetector}
    {code : Bytes} {initAttacker initVictims : Bool} {products : List (List Value)}
    (h : ofd.prepare env fuel function iter code initAttacker initVictims = .ok (ofd', products)) :
    ofd'.verdict = (false, none, none) := by
  obtain ⟨⟨err, ofd₁⟩, hcreate, h⟩ := Outcome.bind_eq_ok.mp h
  have hreset : ofd₁.verdict = (false, none, none) := by
    obtain ⟨r, hrun, hx⟩ := Outcome.bind_eq_ok.mp hcreate
    cases hx
    rfl
  have hkept : ∀ {flag : Bool} {receivers : List Address} {ofd ofd' : OverFlowDetector},
      (if flag then ofd.initToken env fuel receivers else .ok ofd) = .ok ofd' →
        ofd'.verdict = ofd.verdict := by
    intro flag receivers ofd ofd' h
    split_ifs at h
    · exact initToken_verdict h
    · cases h
      rfl
  dsimp only at h
  by_cases herr : err = none
  · rw [if_neg (not_not.mpr herr)] at h
    obtain ⟨ofd₂, hattacker, h⟩ := Outcome.bind_eq_ok.mp h
    obtain ⟨ofd₃, hvictims, h⟩ := Outcome.bind_eq_ok.mp h
    cases h
    exact ((hkept hvictims).trans (hkept hattacker)).trans hreset
  · rw [if_pos herr] at h
    cases h
    exact congrArg (fun v => (false, v.2)) hreset

/-- The detector after a tuple whose call it could look at. -/
def after (ofd : OverFlowDetector) (a : Attempt) : OverFlowDetector :=
  let ofd := { ofd with evm := a.result.evm, executionresult := a.result.err }
  if a.flagged then
    { ofd with attackvector := some a.packed, detected := true, unpackedinput := some a.arguments }
  else ofd

theorem after_verdict (ofd : OverFlowDetector) (a : Attempt) :
    (ofd.after a).verdict = if a.flagged then a.verdict else ofd.verdict := by
  unfold after
  split_ifs <;> rfl

theorem after_keeps (ofd : OverFlowDetector) (a : Attempt) :
    (ofd.after a).abi = ofd.abi ∧ (ofd.after a).attacker = ofd.attacker ∧
      (ofd.after a).contractAddress = ofd.contractAddress ∧ (ofd.after a).evm = a.result.evm := by
  unfold after
  split_ifs <;> exact ⟨rfl, rfl, rfl, rfl⟩

theorem tryProduct_eq {ofd : OverFlowDetector} {product : List Value} {packed : Bytes}
    {r : CallResult} (hpack : ofd.abi.pack env.crypto function product = .ok packed)
    (hcall : ofd.evm.runCall env fuel (.account ofd.attacker) ofd.contractAddress packed detectorGas
      0 = .ok r) (kept : List Log) (a : Attempt)
    (ha : a = ⟨product, packed, ofd.evm.stateDB, r, kept⟩) :
    ofd.tryProduct env fuel function product =
      if a.Readable then .ok (ofd.after a) else .panic r.evm := by
  have herr : a.result.err = r.err := by rw [ha]
  have hevm : a.result.evm = r.evm := by rw [ha]
  simp only [tryProduct, hpack, functionCall, hcall, Outcome.bind_ok]
  by_cases hr : r.err = none
  · rw [if_pos hr, foundOverflow_eq]
    by_cases hlogs : ∀ l ∈ r.evm.stateDB.logs, l.topics ≠ []
    · have hread : a.Readable := fun _ => hevm ▸ hlogs
      rw [if_pos hlogs, if_pos hread]
      simp only [Outcome.ofOption_some, Outcome.bind_ok, after, Attempt.flagged, herr, hr, hevm,
        decide_true, Bool.true_and]
      rw [ha]
      rfl
    · have hread : ¬ a.Readable := fun h => hlogs (hevm ▸ h (herr.trans hr))
      rw [if_neg hlogs, if_neg hread]
      rfl
  · have hread : a.Readable := fun h => absurd (herr.symm.trans h) hr
    rw [if_neg hr, if_pos hread]
    simp [after, Attempt.flagged, herr, hr, hevm]

/-- The loop makes the calls, and ends if every scan does. -/
theorem loop_eq {products : List (List Value)} {ofd : OverFlowDetector} {as : List Attempt}
    (h : attempts env fuel function ofd.abi ofd.attacker ofd.contractAddress products ofd.evm =
      .ok as) :
    if ∀ a ∈ as, a.Readable then
      forEach (tryProduct env fuel function) products ofd = .ok (as.foldl after ofd)
    else ∀ ofd', forEach (tryProduct env fuel function) products ofd ≠ .ok ofd' := by
  induction products generalizing ofd as with
  | nil =>
    cases h
    rfl
  | cons product products ih =>
    rw [attempts] at h
    split at h
    case h_1 => cases h
    case h_2 e hpack =>
      have hskip : ofd.tryProduct env fuel function product = .ok ofd := by
        simp only [tryProduct, hpack]
      simp only [forEach, hskip, Outcome.bind_ok]
      exact ih h
    case h_3 packed hpack =>
      obtain ⟨r, hcall, h⟩ := Outcome.bind_eq_ok.mp h
      obtain ⟨rest, hrest, h⟩ := Outcome.bind_eq_ok.mp h
      cases h
      generalize hkept : Entry.startKept .. = kept
      have hfirst := tryProduct_eq hpack hcall kept _ rfl
      simp only [List.forall_mem_cons, forEach]
      by_cases hread : Attempt.Readable ⟨product, packed, ofd.evm.stateDB, r, kept⟩
      · rw [hfirst, if_pos hread]
        simp only [hread, true_and, Outcome.bind_ok, List.foldl_cons]
        obtain ⟨habi, hattacker, haddress, hevm⟩ :=
          ofd.after_keeps ⟨product, packed, ofd.evm.stateDB, r, kept⟩
        refine ih ?_
        rw [habi, hattacker, haddress, hevm]
        exact hrest
      · rw [hfirst, if_neg hread]
        simp [hread]

theorem foldl_after_verdict (as : List Attempt) (ofd : OverFlowDetector) :
    (as.foldl after ofd).verdict = ((Attempt.last as).map Attempt.verdict).getD ofd.verdict := by
  induction as generalizing ofd with
  | nil => rfl
  | cons a as ih =>
    rw [List.foldl_cons, ih, after_verdict, Attempt.last_cons]
    cases Attempt.last as <;> split_ifs <;> rfl

theorem foldl_after_abi (as : List Attempt) (ofd : OverFlowDetector) :
    (as.foldl after ofd).abi = ofd.abi := by
  induction as generalizing ofd with
  | nil => rfl
  | cons a as ih => rw [List.foldl_cons, ih, (ofd.after_keeps a).1]

/-- Every call takes the store from one state to a later one. -/
theorem attempts_made {abi : ABI Argument} {attacker contractAddress : Address}
    {products : List (List Value)} {evm : Evm} {as : List Attempt}
    (h : attempts env fuel function abi attacker contractAddress products evm = .ok as) :
    (∀ a ∈ as, a.Made env.crypto abi function) ∧ Attempt.Chained evm.stateDB.logs as := by
  induction products generalizing evm as with
  | nil =>
    cases h
    exact ⟨by simp, .nil _⟩
  | cons product products ih =>
    rw [attempts] at h
    split at h
    case h_1 => cases h
    case h_2 => exact ih h
    case h_3 packed hpack =>
      obtain ⟨r, hcall, h⟩ := Outcome.bind_eq_ok.mp h
      obtain ⟨rest, hrest, h⟩ := Outcome.bind_eq_ok.mp h
      cases h
      have hstart : (Entry.call contractAddress packed 0).start env fuel evm (.account attacker)
          detectorGas = .ok ⟨r, 0⟩ := Outcome.bind_eq_ok.mpr ⟨r, hcall, rfl⟩
      have hmade : Attempt.Made env.crypto abi function ⟨product, packed, evm.stateDB, r, _⟩ :=
        ⟨hpack, (Entry.start_evolves hstart).replays, keepsSublist env fuel hstart⟩
      obtain ⟨hmades, hchained⟩ := ih hrest
      exact ⟨List.forall_mem_cons.mpr ⟨hmade, hmades⟩, .cons hmade.logs_eq hchained⟩

/-- The verdict is that some tuple overflowed, and shows one that did: the arguments as `Pack` left
them, and the call data that they give. -/
structure Sound (env : Env) (function : String) (as : List Attempt) (ofd : OverFlowDetector) :
    Prop where
  detected : ofd.detected = true ↔ ∃ a ∈ as, a.overflows = true
  vector : ofd.detected = true → ∃ a ∈ as, a.overflows = true ∧
    ofd.attackvector = some a.packed ∧ ofd.unpackedinput = some a.arguments
  packs : ∀ arguments ∈ ofd.unpackedinput, ∀ packed ∈ ofd.attackvector,
    ofd.abi.pack env.crypto function arguments = .ok packed

/-- What must hold of the logs that the constructor and the set-up leave and of those that the calls
emit, reverted or not. Up to a call that succeeds all of them have a topic; and if there is an
overflow log up to the last call that succeeds, a call with its arguments overflowed itself. -/
structure Decides (logs : List Log) (as : List Attempt) : Prop where
  topics : ∀ earlier a later, as = earlier ++ a :: later → a.result.err = none →
    ∀ l ∈ logs ++ (earlier ++ [a]).flatMap Attempt.emitted, l.topics ≠ []
  last : ∀ earlier a later, as = earlier ++ a :: later → a.result.err = none →
    (∀ b ∈ later, b.result.err ≠ none) →
    (∃ l ∈ logs ++ (earlier ++ [a]).flatMap Attempt.emitted, l.overflows = true) →
      ∃ b ∈ as, b.overflows = true ∧ b.packed = a.packed ∧ b.arguments = a.arguments

section Conditions

variable {logs : List Log} {as : List Attempt} {abi : ABI Argument} {ofd : OverFlowDetector}

theorem readable_iff (chained : Attempt.Chained logs as) :
    (∀ a ∈ as, a.Readable) ↔ ∀ earlier a later, as = earlier ++ a :: later → a.result.err = none →
      ∀ l ∈ logs ++ (earlier ++ [a]).flatMap Attempt.emitted, l.topics ≠ [] := by
  constructor
  · intro h earlier a later heq herr
    rw [← chained earlier a later heq]
    exact h a (by simp [heq]) herr
  · intro h a ha herr
    obtain ⟨earlier, later, heq⟩ := List.append_of_mem ha
    rw [chained earlier a later heq]
    exact h earlier a later heq herr

/-- The last flagged tuple is the last one whose call succeeds, if there is an overflow log by then. -/
theorem last_flagged_iff (chained : Attempt.Chained logs as) (a : Attempt) :
    Attempt.last as = some a ↔ ∃ earlier later, as = earlier ++ a :: later ∧ a.result.err = none ∧
      (∀ b ∈ later, b.result.err ≠ none) ∧
      ∃ l ∈ logs ++ (earlier ++ [a]).flatMap Attempt.emitted, l.overflows = true := by
  rw [Attempt.last_eq_some]
  constructor
  · rintro ⟨earlier, later, rfl, hflagged, hlater⟩
    obtain ⟨herr, l, hl, hover⟩ := Attempt.flagged_iff.mp hflagged
    refine ⟨earlier, later, rfl, herr, ?_, l, ?_, hover⟩
    · -- a later call that succeeded would have found the same log
      intro b hb hnone
      obtain ⟨middle, rest, rfl⟩ := List.append_of_mem hb
      have hflag := Attempt.flagged_iff.mpr ⟨hnone, l, chained.logs_subset hl, hover⟩
      rw [hlater b hb] at hflag
      cases hflag
    · rw [← chained earlier a later rfl]
      exact hl
  · rintro ⟨earlier, later, rfl, herr, hlater, l, hl, hover⟩
    rw [← chained earlier a later rfl] at hl
    refine ⟨earlier, later, rfl, Attempt.flagged_iff.mpr ⟨herr, l, hl, hover⟩, ?_⟩
    intro b hb
    rw [Attempt.flagged, decide_eq_false (hlater b hb), Bool.false_and]

theorem last_isSome (made : ∀ a ∈ as, a.Made env.crypto abi function) {a : Attempt} (ha : a ∈ as)
    (ho : a.overflows = true) : ∃ b, Attempt.last as = some b := by
  have hfound : (as.reverse.find? Attempt.flagged).isSome = true := by
    rw [List.find?_isSome]
    exact ⟨a, List.mem_reverse.mpr ha, (made a ha).flagged_of_overflows ho⟩
  exact Option.isSome_iff_exists.mp hfound

/-- A detector that reports the last flagged tuple is right exactly if that tuple overflowed. -/
theorem sound_iff (made : ∀ a ∈ as, a.Made env.crypto ofd.abi function)
    (h : ofd.verdict = ((Attempt.last as).map Attempt.verdict).getD (false, none, none)) :
    Sound env function as ofd ↔ ∀ a, Attempt.last as = some a →
      ∃ b ∈ as, b.overflows = true ∧ b.packed = a.packed ∧ b.arguments = a.arguments := by
  have hdetected : ofd.detected = ofd.verdict.1 := rfl
  have hvector : ofd.attackvector = ofd.verdict.2.1 := rfl
  have hinput : ofd.unpackedinput = ofd.verdict.2.2 := rfl
  cases hlast : Attempt.last as with
  | none =>
    rw [hlast] at h
    have hquiet : ofd.detected = false := hdetected.trans (congrArg Prod.fst h)
    have hempty : ofd.unpackedinput = none := hinput.trans (congrArg (·.2.2) h)
    have hnone : ¬ ∃ a ∈ as, a.overflows = true := by
      rintro ⟨a, ha, ho⟩
      obtain ⟨b, hb⟩ := last_isSome made ha ho
      cases hlast.symm.trans hb
    refine iff_of_true ⟨?_, ?_, ?_⟩ (by simp)
    · simp [hquiet, hnone]
    · simp [hquiet]
    · simp [hempty]
  | some a =>
    rw [hlast] at h
    have htrue : ofd.detected = true := hdetected.trans (congrArg Prod.fst h)
    have hpacked : ofd.attackvector = some a.packed := hvector.trans (congrArg (·.2.1) h)
    have harguments : ofd.unpackedinput = some a.arguments := hinput.trans (congrArg (·.2.2) h)
    obtain ⟨earlier, later, heq, -, -⟩ := Attempt.last_eq_some.mp hlast
    constructor
    · intro hsound a' ha'
      cases ha'
      obtain ⟨b, hb, ho, hp, hu⟩ := hsound.vector htrue
      refine ⟨b, hb, ho, ?_, ?_⟩
      · exact Option.some.inj (hp.symm.trans hpacked)
      · exact Option.some.inj (hu.symm.trans harguments)
    · intro hall
      obtain ⟨b, hb, ho, hp, hu⟩ := hall a rfl
      refine ⟨iff_of_true htrue ⟨b, hb, ho⟩, fun _ => ⟨b, hb, ho, ?_, ?_⟩, ?_⟩
      · rw [hpacked, hp]
      · rw [harguments, hu]
      · intro arguments hargs packed hpack
        rw [harguments, Option.mem_some_iff] at hargs
        rw [hpacked, Option.mem_some_iff] at hpack
        rw [← hargs, ← hpack, Attempt.arguments, ABI.pack_reduced]
        exact (made a (by simp [heq])).packs

theorem decides_iff (chained : Attempt.Chained logs as) : Decides logs as ↔
    (∀ a ∈ as, a.Readable) ∧ ∀ a, Attempt.last as = some a →
      ∃ b ∈ as, b.overflows = true ∧ b.packed = a.packed ∧ b.arguments = a.arguments := by
  rw [readable_iff chained]
  constructor
  · intro h
    refine ⟨h.topics, ?_⟩
    intro a hlast
    obtain ⟨earlier, later, heq, herr, hlater, hover⟩ := (last_flagged_iff chained a).mp hlast
    exact h.last earlier a later heq herr hlater hover
  · rintro ⟨htopics, hlast⟩
    refine ⟨htopics, ?_⟩
    intro earlier a later heq herr hlater hover
    exact hlast a ((last_flagged_iff chained a).mpr ⟨earlier, later, heq, herr, hlater, hover⟩)

end Conditions

/-- The detector is sound and complete for its tuples exactly if its calls return, no log without
topics is in its way, and the last call that succeeds is one that overflowed if any overflow log was
emitted by then. -/
theorem overFlowDetector_sound_iff (env : Env) (fuel : Nat)
    (iter : List (List Value) → List (List Value)) (ofd : OverFlowDetector) (code : Bytes)
    (function : String) (initAttacker initVictims : Bool) :
    (∃ logs as ofd',
      ofd.attempted env fuel function iter code initAttacker initVictims = .ok (logs, as) ∧
      ofd.overFlowDetector env fuel iter code function initAttacker initVictims = .ok ofd' ∧
        Sound env function as ofd') ↔
    ∃ logs as, ofd.attempted env fuel function iter code initAttacker initVictims = .ok (logs, as) ∧
      Decides logs as := by
  refine exists_congr fun logs => exists_congr fun as => ?_
  constructor
  · rintro ⟨ofd', has, hrun, hsound⟩
    refine ⟨has, ?_⟩
    obtain ⟨⟨ofd₁, products⟩, hprepare, hbound⟩ := Outcome.bind_eq_ok.mp has
    obtain ⟨as', hattempts, hpair⟩ := Outcome.bind_eq_ok.mp hbound
    cases hpair
    obtain ⟨hmade, hchained⟩ := attempts_made hattempts
    rw [overFlowDetector_eq, hprepare, Outcome.bind_ok] at hrun
    have hloop := loop_eq hattempts
    split_ifs at hloop with hread
    · have hend : as.foldl after ofd₁ = ofd' := Outcome.ok.inj (hloop.symm.trans hrun)
      have hverdict := foldl_after_verdict as ofd₁
      have habi := foldl_after_abi as ofd₁
      rw [hend] at habi
      rw [hend, prepare_verdict hprepare] at hverdict
      rw [← habi] at hmade
      exact (decides_iff hchained).mpr ⟨hread, (sound_iff hmade hverdict).mp hsound⟩
    · exact absurd hrun (hloop ofd')
  · rintro ⟨has, hdecides⟩
    obtain ⟨⟨ofd₁, products⟩, hprepare, hbound⟩ := Outcome.bind_eq_ok.mp has
    obtain ⟨as', hattempts, hpair⟩ := Outcome.bind_eq_ok.mp hbound
    cases hpair
    obtain ⟨hmade, hchained⟩ := attempts_made hattempts
    obtain ⟨hread, hlast⟩ := (decides_iff hchained).mp hdecides
    have hloop := loop_eq hattempts
    rw [if_pos hread] at hloop
    have hverdict := foldl_after_verdict as ofd₁
    rw [prepare_verdict hprepare] at hverdict
    rw [← foldl_after_abi as ofd₁] at hmade
    refine ⟨as.foldl after ofd₁, has, ?_, ?_⟩
    · rw [overFlowDetector_eq, hprepare, Outcome.bind_ok]
      exact hloop
    · exact (sound_iff hmade hverdict).mpr hlast

/-- An interface with `f(address)`. -/
def oneMethod : ABI Argument where
  constructor := none
  methods := AList.singleton "f" ⟨"f", false, [⟨.address, false, "address"⟩], []⟩
  events := ∅

/-- Emits the overflow log in the constructor and deploys nothing. -/
def logsAtDeployment : Bytes :=
  0x7f :: toBytes 32 overflowTopic.toNat ++ [0x60, 0, 0x60, 0, 0xa1, 0x60, 0, 0x60, 0, 0xf3]

/-- Deploys `LOG0` of nothing. -/
def deploysLog0 : Bytes :=
  [0x64, 0x60, 0, 0x60, 0, 0xa0, 0x60, 0, 0x52, 0x60, 5, 0x60, 27, 0xf3]

/-- Deploys a contract that calls itself without input. That call emits the overflow log and reverts,
and the calling frame then stops without an error. -/
def deploysReverted : Bytes :=
  [0x60, 62, 0x60, 12, 0x60, 0, 0x39, 0x60, 62, 0x60, 0, 0xf3] ++
    [0x36, 0x60, 47, 0x57] ++ 0x7f :: toBytes 32 overflowTopic.toNat ++
    [0x60, 0, 0x60, 0, 0xa1, 0x60, 0, 0x60, 0, 0xfd] ++
    [0x5b, 0x60, 0, 0x60, 0, 0x60, 0, 0x60, 0, 0x60, 0, 0x30, 0x5a, 0xf1, 0]

/-- The contract is created, and the detector does not judge its tuples. -/
def Misjudges (env : Env) (fuel : Nat) (ofd : OverFlowDetector) (code : Bytes) (function : String) :
    Prop :=
  (ofd.createContract env fuel ofd.owner code 0).Returns (fun x => x.1 = none) ∧
  ¬ ∃ logs as ofd', ofd.attempted env fuel function List.sections code false false = .ok (logs, as) ∧
    ofd.overFlowDetector env fuel List.sections code function false false = .ok ofd' ∧
      Sound env function as ofd'

theorem misjudges_of_panic {ofd : OverFlowDetector} {code : Bytes}
    (hcreate : (ofd.createContract env fuel ofd.owner code 0).Returns (fun x => x.1 = none))
    (hpanic : (ofd.overFlowDetector env fuel List.sections code function false false).isPanic = true) :
    Misjudges env fuel ofd code function := by
  refine ⟨hcreate, ?_⟩
  rintro ⟨logs, as, ofd', -, hrun, -⟩
  exact Outcome.not_ok_of_isPanic hpanic (.inl (.refl _)) ofd' hrun

theorem misjudges_of_quiet {ofd : OverFlowDetector} {code : Bytes}
    (hcreate : (ofd.createContract env fuel ofd.owner code 0).Returns (fun x => x.1 = none))
    (hdetected : (ofd.overFlowDetector env fuel List.sections code function false false).Returns
      (fun ofd' => ofd'.detected = true))
    (hquiet : (ofd.attempted env fuel function List.sections code false false).Returns
      (fun x => ∀ a ∈ x.2, a.overflows = false)) : Misjudges env fuel ofd code function := by
  refine ⟨hcreate, ?_⟩
  rintro ⟨logs, as, ofd', has, hrun, hsound⟩
  obtain ⟨a, ha, ho⟩ := hsound.detected.mp (hdetected.of_ok hrun)
  rw [hquiet.of_ok has a ha] at ho
  cases ho

/-- A log without topics stops the scan; a log from before all calls, or of a call that was reverted,
is reported with a tuple that did not overflow. -/
theorem overFlowDetector_misjudges :
    Misjudges recursiveEnv 100 (init oneMethod) deploysLog0 "f" ∧
    Misjudges recursiveEnv 100 (init oneMethod) logsAtDeployment "f" ∧
    Misjudges recursiveEnv 100 (init oneMethod) deploysReverted "f" := by
  refine ⟨?_, ?_, ?_⟩
  · exact misjudges_of_panic (by decide +kernel) (by decide +kernel)
  · exact misjudges_of_quiet (by decide +kernel) (by decide +kernel) (by decide +kernel)
  · exact misjudges_of_quiet (by decide +kernel) (by decide +kernel) (by decide +kernel)

end OverFlowDetector

end MiniEvm
