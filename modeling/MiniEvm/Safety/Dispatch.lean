import MiniEvm.Framework.Pool

namespace MiniEvm

open Framework Pool

/-- What `os.Stat` and `ioutil.ReadDir` say of a path; both can fail. -/
inductive PathInfo where
  | error
  | dir (files : Option (List String))
  | regular
  | other

/-- The arguments of `NewContractFuzzer`. -/
structure FuzzTask where
  solcpath : String
  contractpath : String
  logpath : String
  enableUI : Bool

section Dispatcher

variable (join : String → String → String) (solcpath contractpath logpath : String)

/-- The tasks of the files found, each with the arguments of its `NewContractFuzzer`; `join` is
`path.Join`. -/
def dispatcherTasks : PathInfo → List FuzzTask
  | .dir (some files) => files.map fun f => ⟨solcpath, join contractpath f, logpath, false⟩
  | .regular => [⟨solcpath, contractpath, logpath, true⟩]
  | _ => []

/-- `dispatcher` after it has started its worker. -/
def dispatcher : PathInfo → List (Stmt FuzzTask)
  | .error => []
  | .dir none => [.fatal]
  | info => (dispatcherTasks join solcpath contractpath logpath info).map .send ++ [.wait, .close]

/-- The capacity of `tasks`. -/
def tasksCap : Nat := 16

def dispatcherWorkers : Nat := 1

/-- The states that some interleaving of `dispatcher` and its worker reaches. -/
def Dispatches (info : PathInfo) : Pool FuzzTask → Prop :=
  Reachable tasksCap dispatcherWorkers (dispatcher join solcpath contractpath logpath info)

end Dispatcher

/-- The files that `main2` compiles. -/
def main2Files (contractPath : String) : PathInfo → List String
  | .dir (some files) =>
    (files.filter fun f => !f.toList.tails.any ("itMaps.sol".toList.isPrefixOf ·)).map
      (contractPath ++ ·)
  | .regular => [contractPath]
  | _ => []

/-- `main2`, with the same tasks channel and six workers, each task a run of the compiler. -/
def main2 (contractPath : String) : PathInfo → List (Stmt String)
  | .error => []
  | .dir none => [.fatal]
  | info => (main2Files contractPath info).map .send ++ [.close, .wait]

def main2Workers : Nat := 6

section Scripts

variable (join : String → String → String) (solcpath contractpath logpath contractPath : String)
  (info : PathInfo)

theorem dispatcher_closesOnce : ClosesOnce (dispatcher join solcpath contractpath logpath info) := by
  unfold dispatcher
  split
  · trivial
  · trivial
  · simp [ClosesOnce]

theorem dispatcher_exitsLast : ExitsLast (dispatcher join solcpath contractpath logpath info) := by
  unfold dispatcher
  split
  · trivial
  · exact rfl
  · simp [ExitsLast]

theorem dispatcher_tasks :
    (dispatcher join solcpath contractpath logpath info).filterMap Stmt.task =
      dispatcherTasks join solcpath contractpath logpath info := by
  cases info with
  | error => rfl
  | dir files =>
    cases files with
    | none => rfl
    | some files =>
      rw [dispatcher, sends_tasks]
      · exact List.append_nil _
      · rintro ⟨⟩
      · rintro ⟨⟩
  | regular => rfl
  | other => rfl

/-- Whatever there is to dispatch, `dispatcher` waits first. -/
theorem dispatcher_waitsClosed :
    WaitsClosed (dispatcher join solcpath contractpath logpath info) ↔
      info = .error ∨ info = .dir none := by
  unfold dispatcher
  split
  · simp [WaitsClosed]
  · simp [WaitsClosed]
  · rename_i herror hdir
    simpa [WaitsClosed] using ⟨herror, hdir⟩

theorem dispatched {tasks : List FuzzTask} {p : Pool FuzzTask}
    (h : Reachable tasksCap dispatcherWorkers (tasks.map .send ++ [.wait, .close]) p)
    (hstuck : Stuck tasksCap p) : p.executed.Perm tasks := by
  have hclose : ClosesOnce (tasks.map .send ++ [.wait, .close]) := by simp [ClosesOnce]
  have hend := h.ending_eq_none (by decide) hclose (by simp)
  exact Reachable.executed tasks (by decide) (by decide) (by simp [ClosesOnce]) rfl h hstuck hend

/-- Where `dispatcher` and its worker can go no further, every task is executed. -/
theorem dispatcher_executed {p : Pool FuzzTask}
    (h : Dispatches join solcpath contractpath logpath info p) (hstuck : Stuck tasksCap p) :
    p.executed.Perm (dispatcherTasks join solcpath contractpath logpath info) := by
  have hclose := dispatcher_closesOnce join solcpath contractpath logpath info
  -- without tasks nothing is sent
  have idle : (dispatcher join solcpath contractpath logpath info).filterMap Stmt.task = [] →
      p.executed = [] := by
    intro hnone
    obtain ⟨hsent, hdelivered⟩ := Reachable.sent (by decide) hclose h
    rw [hnone, List.prefix_nil] at hsent
    rw [hsent, List.nil_perm, List.append_assoc, List.append_eq_nil_iff] at hdelivered
    exact hdelivered.1
  unfold Dispatches at h
  cases info with
  | error =>
    rw [idle rfl]
    exact .nil
  | dir files =>
    cases files with
    | none =>
      rw [idle rfl]
      exact .nil
    | some files => exact dispatched h hstuck
  | regular => exact dispatched h hstuck
  | other => exact dispatched h hstuck

/-- In every interleaving every task that is sent is executed exactly once, but `dispatcher` only
returns if there is nothing at the path: otherwise it waits for a worker that waits for the channel
to be closed. -/
theorem dispatcher_returns_iff :
    WellFounded (fun p' p : Pool FuzzTask => Step tasksCap p p') ∧
    (∀ p, Dispatches join solcpath contractpath logpath info p → p.ending ≠ some .panicked ∧
      p.sent <+: dispatcherTasks join solcpath contractpath logpath info ∧
      p.sent.Perm (p.executed ++ p.running ++ p.buffer) ∧ (Stuck tasksCap p →
        p.executed.Perm (dispatcherTasks join solcpath contractpath logpath info))) ∧
    ((∀ p, Dispatches join solcpath contractpath logpath info p → Stuck tasksCap p →
      p.script = [] ∨ p.ending = some .exited) ↔ info = .error ∨ info = .dir none) := by
  have hclose := dispatcher_closesOnce join solcpath contractpath logpath info
  refine ⟨step_wellFounded tasksCap, fun p h => ?_, ?_⟩
  · obtain ⟨hsent, hdelivered⟩ := Reachable.sent (by decide) hclose h
    have htasks := dispatcher_tasks join solcpath contractpath logpath info
    exact ⟨(Reachable.kept (by decide) hclose h).1, htasks ▸ hsent, hdelivered,
      dispatcher_executed join solcpath contractpath logpath info h⟩
  · rw [← dispatcher_waitsClosed join solcpath contractpath logpath]
    exact no_deadlock_iff (by decide) (by decide) hclose (dispatcher_exitsLast ..)

/-- `main2` closes the channel first, and always returns. -/
theorem main2_returns {p : Pool String}
    (h : Reachable tasksCap main2Workers (main2 contractPath info) p) (hstuck : Stuck tasksCap p) :
    p.script = [] ∨ p.ending = some .exited := by
  have hscript : ClosesOnce (main2 contractPath info) ∧ ExitsLast (main2 contractPath info) ∧
      WaitsClosed (main2 contractPath info) := by
    unfold main2
    split
    · exact ⟨trivial, trivial, trivial⟩
    · exact ⟨trivial, rfl, trivial⟩
    · simp [ClosesOnce, ExitsLast, WaitsClosed]
  exact (no_deadlock_iff (by decide) (by decide) hscript.1 hscript.2.1).mpr hscript.2.2 p h hstuck

end Scripts

/-- One file is fuzzed; then both goroutines wait for each other. -/
theorem dispatcher_deadlocks : ∃ p,
    Dispatches (fun _ f => f) "solc" "./" "./fuzz_log" (.dir (some ["a.sol"])) p ∧
    p.executed = [⟨"solc", "a.sol", "./fuzz_log", false⟩] ∧ p.ending = none ∧
    p.script = [.wait, .close] ∧ Stuck tasksCap p := by
  refine ⟨_, .tail (.tail (.tail .refl (.inl rfl)) (.inr ⟨0, rfl⟩)) (.inr ⟨0, rfl⟩), rfl, rfl, rfl, ?_⟩
  rintro p' (h | ⟨i, h⟩)
  · cases h
  · cases i <;> cases h

end MiniEvm
