import MiniEvm.Safety.Verdict

namespace MiniEvm

/-- `FuzzInt.CheckEvent` over `state.Logs`: a log without topics ends the search. -/
def checkEvent : List Log → Bool
  | [] => false
  | logentry :: logs =>
    match logentry.topics with
    | topic :: _ => if topic == overflowTopic then true else checkEvent logs
    | [] => false

/-- The search looks at the logs before the first one without topics. -/
theorem checkEvent_eq (logs : List Log) :
    checkEvent logs = (logs.takeWhile fun l => l.topics ≠ []).any Log.overflows := by
  induction logs with
  | nil => rfl
  | cons l logs ih =>
    cases ht : l.topics with
    | nil => simp [checkEvent, ht]
    | cons topic topics =>
      have hl : l.overflows = (topic == overflowTopic) := by simp [Log.overflows, ht]
      rw [List.takeWhile_cons_of_pos (by simp [ht]), List.any_cons, hl, ← ih]
      simp only [checkEvent, ht]
      cases topic == overflowTopic <;> rfl

theorem checkEvent_of_topics {logs : List Log} (h : ∀ l ∈ logs, l.topics ≠ []) :
    checkEvent logs = logs.any Log.overflows := by
  rw [checkEvent_eq, List.takeWhile_eq_self_iff.mpr fun l hl => by simpa using h l hl]

/-- What an event scan is for: `CheckEvent` finds an overflow log wherever it stands, and the scan of
`OverFlowDetector` does not fail and answers the same. -/
structure ScansAgree (logs : List Log) : Prop where
  found : checkEvent logs = true ↔ ∃ l ∈ logs, l.overflows = true
  order : ∀ logs', logs'.Perm logs → checkEvent logs' = checkEvent logs
  scan : foundOverflow logs = some (checkEvent logs)

/-- The scans do what they are for exactly on the lists in which every log has a topic. -/
theorem scansAgree_iff (logs : List Log) : ScansAgree logs ↔ ∀ l ∈ logs, l.topics ≠ [] := by
  constructor
  · intro h
    have hscan := h.scan
    rw [foundOverflow_eq] at hscan
    split_ifs at hscan with htopics
    exact htopics
  · intro h
    have hcheck := checkEvent_of_topics h
    refine ⟨?_, ?_, ?_⟩
    · rw [hcheck, List.any_eq_true]
    · intro logs' hperm
      have htopics : ∀ l ∈ logs', l.topics ≠ [] := fun l hl => h l (hperm.mem_iff.mp hl)
      rw [checkEvent_of_topics htopics, hcheck, hperm.any_eq]
    · rw [foundOverflow_eq, if_pos h, hcheck]

/-- A log as `LOG0` emits it, followed by an overflow log. -/
def topiclessFirst : List Log := [⟨0, [], [], 0⟩, ⟨0, [overflowTopic], [], 0⟩]

/-- Behind a log without topics `CheckEvent` misses the overflow log and the other scan fails. -/
theorem scans_miss_overflow : (∃ l ∈ topiclessFirst, l.overflows = true) ∧
    checkEvent topiclessFirst = false ∧ foundOverflow topiclessFirst = none ∧
    checkEvent topiclessFirst.reverse = true ∧ ¬ ScansAgree topiclessFirst := by
  have hmiss : checkEvent topiclessFirst = false := by decide
  have hover : ∃ l ∈ topiclessFirst, l.overflows = true := by decide
  refine ⟨hover, hmiss, by decide, by decide, ?_⟩
  intro h
  rw [h.found.mpr hover] at hmiss
  exact Bool.noConfusion hmiss

end MiniEvm
