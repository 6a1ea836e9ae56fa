import Mathlib.Data.List.Basic
import Mathlib.Data.List.Perm.Basic
import Mathlib.Logic.Relation
import Mathlib.Tactic.Common

namespace MiniEvm.Framework

/-- What a goroutine does that feeds a pool of workers. -/
inductive Stmt (τ : Type) where
  | send (task : τ)
  | close
  | wait
  | fatal

def Stmt.task {τ : Type} : Stmt τ → Option τ
  | send t => some t
  | _ => none

/-- Where a worker stands in its loop over the channel, or after it. -/
inductive Worker (τ : Type) where
  | ranging
  | running (task : τ)
  | leaving
  | done

namespace Worker

variable {τ : Type}

def task : Worker τ → Option τ
  | running t => some t
  | _ => none

/-- Whether the worker is still counted by the wait group. -/
def counted : Worker τ → Bool
  | done => false
  | _ => true

/-- Whether the worker has seen the end of the channel. -/
def ended : Worker τ → Bool
  | leaving | done => true
  | _ => false

def weight : Worker τ → Nat
  | ranging => 2
  | running _ => 4
  | leaving => 1
  | done => 0

end Worker

inductive Ending where
  | panicked
  | exited
  deriving DecidableEq

/-- A producer with a script, a buffered channel, workers that range over it, and the wait group that
counts them. `sent` and `executed` record what happened. -/
structure Pool (τ : Type) where
  script : List (Stmt τ)
  buffer : List τ
  closed : Bool
  counter : Nat
  workers : List (Worker τ)
  ending : Option Ending
  sent : List τ
  executed : List τ

namespace Pool

variable {τ : Type}

/-- All workers were started and counted. -/
def start (workers : Nat) (script : List (Stmt τ)) : Pool τ where
  script := script
  buffer := []
  closed := false
  counter := workers
  workers := List.replicate workers .ranging
  ending := none
  sent := []
  executed := []

/-- The next statement of the producer, unless it blocks. Sending on a closed channel and closing it
again panic. -/
def produce (cap : Nat) (p : Pool τ) : Option (Pool τ) :=
  if p.ending ≠ none then none
  else match p.script with
    | [] => none
    | .send t :: script =>
      if p.closed then some { p with ending := some .panicked }
      else if p.buffer.length < cap then
        some { p with script := script, buffer := p.buffer ++ [t], sent := p.sent ++ [t] }
      else none
    | .close :: script =>
      if p.closed then some { p with ending := some .panicked }
      else some { p with script := script, closed := true }
    | .wait :: script => if p.counter = 0 then some { p with script := script } else none
    | .fatal :: _ => some { p with ending := some .exited }

/-- The next action of a worker, unless it blocks: receive a task, execute it, leave the loop when
the channel is closed and empty, and tell the wait group. -/
def work (i : Nat) (p : Pool τ) : Option (Pool τ) :=
  if p.ending ≠ none then none
  else match p.workers[i]? with
    | none | some .done => none
    | some .ranging =>
      match p.buffer with
      | t :: buffer => some { p with buffer := buffer, workers := p.workers.set i (.running t) }
      | [] => if p.closed then some { p with workers := p.workers.set i .leaving } else none
    | some (.running t) =>
      some { p with workers := p.workers.set i .ranging, executed := p.executed ++ [t] }
    | some .leaving =>
      if p.counter = 0 then some { p with ending := some .panicked }
      else some { p with workers := p.workers.set i .done, counter := p.counter - 1 }

/-- Some goroutine takes a step. -/
def Step (cap : Nat) (p p' : Pool τ) : Prop := p.produce cap = some p' ∨ ∃ i, p.work i = some p'

def Reachable (cap workers : Nat) (script : List (Stmt τ)) : Pool τ → Prop :=
  Relation.ReflTransGen (Step cap) (start workers script)

/-- No goroutine can take a step. -/
def Stuck (cap : Nat) (p : Pool τ) : Prop := ∀ p', ¬ Step cap p p'

/-- The tasks that workers have received and not yet executed. -/
def running (p : Pool τ) : List τ := p.workers.filterMap Worker.task

/-- What a step can be. -/
inductive Move (cap : Nat) (p : Pool τ) : Pool τ → Prop
  | send {t : τ} {script : List (Stmt τ)} (head : p.script = .send t :: script)
      (closed : p.closed = false) (room : p.buffer.length < cap) :
      Move cap p { p with script := script, buffer := p.buffer ++ [t], sent := p.sent ++ [t] }
  | close {script : List (Stmt τ)} (head : p.script = .close :: script) (closed : p.closed = false) :
      Move cap p { p with script := script, closed := true }
  | wait {script : List (Stmt τ)} (head : p.script = .wait :: script) (zero : p.counter = 0) :
      Move cap p { p with script := script }
  | fatal {script : List (Stmt τ)} (head : p.script = .fatal :: script) :
      Move cap p { p with ending := some .exited }
  | receive {i : Nat} {t : τ} {buffer : List τ} (worker : p.workers[i]? = some .ranging)
      (head : p.buffer = t :: buffer) :
      Move cap p { p with buffer := buffer, workers := p.workers.set i (.running t) }
  | leave {i : Nat} (worker : p.workers[i]? = some .ranging) (empty : p.buffer = [])
      (closed : p.closed = true) : Move cap p { p with workers := p.workers.set i .leaving }
  | execute {i : Nat} {t : τ} (worker : p.workers[i]? = some (.running t)) :
      Move cap p { p with workers := p.workers.set i .ranging, executed := p.executed ++ [t] }
  | done {i : Nat} (worker : p.workers[i]? = some .leaving) (pos : p.counter ≠ 0) :
      Move cap p { p with workers := p.workers.set i .done, counter := p.counter - 1 }
  | panicSend {t : τ} {script : List (Stmt τ)} (head : p.script = .send t :: script)
      (closed : p.closed = true) : Move cap p { p with ending := some .panicked }
  | panicClose {script : List (Stmt τ)} (head : p.script = .close :: script)
      (closed : p.closed = true) : Move cap p { p with ending := some .panicked }
  | panicDone {i : Nat} (worker : p.workers[i]? = some .leaving) (zero : p.counter = 0) :
      Move cap p { p with ending := some .panicked }

theorem step_cases {cap : Nat} {p p' : Pool τ} (h : Step cap p p') :
    p.ending = none ∧ Move cap p p' := by
  have hend : p.ending = none := by
    by_contra hend
    obtain h | ⟨i, h⟩ := h
    · rw [produce, if_pos hend] at h
      cases h
    · rw [work, if_pos hend] at h
      cases h
  refine ⟨hend, ?_⟩
  obtain h | ⟨i, h⟩ := h
  · rw [produce, if_neg (not_not.mpr hend)] at h
    split at h
    · cases h
    · rename_i t script head
      split_ifs at h with hclosed hroom <;> cases h
      · exact .panicSend head hclosed
      · exact .send head (eq_false_of_ne_true hclosed) hroom
    · rename_i script head
      split_ifs at h with hclosed <;> cases h
      · exact .panicClose head hclosed
      · exact .close head (eq_false_of_ne_true hclosed)
    · rename_i script head
      split_ifs at h with hzero
      cases h
      exact .wait head hzero
    · rename_i script head
      cases h
      exact .fatal head
  · rw [work, if_neg (not_not.mpr hend)] at h
    split at h
    · cases h
    · cases h
    · rename_i worker
      split at h
      · rename_i t buffer head
        cases h
        exact .receive worker head
      · rename_i empty
        split_ifs at h with hclosed
        cases h
        exact .leave worker empty hclosed
    · rename_i t worker
      cases h
      exact .execute worker
    · rename_i worker
      split_ifs at h with hzero <;> cases h
      · exact .panicDone worker hzero
      · exact .done worker hzero

/-- A worker takes another state; the others keep theirs. -/
theorem perm_set {α : Type} {l : List α} {i : Nat} {x : α} (h : l[i]? = some x) :
    ∃ rest, l.Perm (x :: rest) ∧ ∀ y, (l.set i y).Perm (y :: rest) := by
  obtain ⟨hi, rfl⟩ := List.getElem?_eq_some_iff.mp h
  exact ⟨l.eraseIdx i, (List.getElem_cons_eraseIdx_perm hi).symm,
    fun y => List.set_perm_cons_eraseIdx hi y⟩

def weights (ws : List (Worker τ)) : Nat := ws.foldr (fun w n => w.weight + n) 0

theorem weights_perm {ws ws' : List (Worker τ)} (h : ws.Perm ws') : weights ws = weights ws' := by
  induction h with
  | nil => rfl
  | cons w _ ih => exact congrArg (w.weight + ·) ih
  | swap w w' ws => exact Nat.add_left_comm ..
  | trans _ _ ih ih' => exact ih.trans ih'

/-- The number of steps that can still be taken is at most this. -/
def measure (p : Pool τ) : Nat :=
  4 * p.script.length + 3 * p.buffer.length + weights p.workers +
    if p.ending = none then 1 else 0

theorem weight_set {ws : List (Worker τ)} {i : Nat} {w : Worker τ} (h : ws[i]? = some w)
    (w' : Worker τ) : weights (ws.set i w') + w.weight = weights ws + w'.weight := by
  obtain ⟨rest, hold, hnew⟩ := perm_set h
  have hcons : ∀ w : Worker τ, weights (w :: rest) = w.weight + weights rest := fun _ => rfl
  rw [weights_perm hold, weights_perm (hnew w'), hcons, hcons]
  omega

theorem step_measure {cap : Nat} {p p' : Pool τ} (h : Step cap p p') : p'.measure < p.measure := by
  obtain ⟨hend, h⟩ := step_cases h
  unfold measure
  cases h with
  | send head =>
    simp only [head, List.length_cons, List.length_append, List.length_nil]
    omega
  | close head | wait head =>
    simp only [head, List.length_cons]
    omega
  | fatal | panicSend | panicClose | panicDone => simp [hend]
  | @receive i t buffer worker head =>
    have hw := weight_set worker (.running t)
    simp only [Worker.weight] at hw
    simp only [head, List.length_cons]
    omega
  | leave worker =>
    have hw := weight_set worker .leaving
    simp only [Worker.weight] at hw
    simp only
    omega
  | execute worker =>
    have hw := weight_set worker .ranging
    simp only [Worker.weight] at hw
    simp only
    omega
  | done worker =>
    have hw := weight_set worker .done
    simp only [Worker.weight] at hw
    simp only
    omega

theorem step_wellFounded (cap : Nat) : WellFounded fun p' p : Pool τ => Step cap p p' :=
  Subrelation.wf step_measure (InvImage.wf measure Nat.lt_wfRel.wf)

/-- Every run is finite, so that from every state one that is stuck is reached. -/
theorem exists_stuck (cap : Nat) (p : Pool τ) :
    ∃ p', Relation.ReflTransGen (Step cap) p p' ∧ Stuck cap p' := by
  induction p using (step_wellFounded cap).induction with
  | _ p ih =>
    by_cases hstuck : Stuck cap p
    · exact ⟨p, .refl, hstuck⟩
    · simp only [Stuck, not_forall, not_not] at hstuck
      obtain ⟨p₁, hstep⟩ := hstuck
      obtain ⟨p', hrun, hstuck'⟩ := ih p₁ hstep
      exact ⟨p', .head hstep hrun, hstuck'⟩

/-- After the channel is closed nothing is sent and it is not closed again. -/
def ClosesOnce : List (Stmt τ) → Prop
  | [] => True
  | .close :: script => ∀ s ∈ script, s = .wait ∨ s = .fatal
  | _ :: script => ClosesOnce script

/-- The producer waits for the workers only when it has told them that no task is to come. -/
def WaitsClosed : List (Stmt τ) → Prop
  | [] => True
  | .close :: _ => True
  | .wait :: _ => False
  | _ :: script => WaitsClosed script

/-- Only the last statement may end the process. -/
def ExitsLast : List (Stmt τ) → Prop
  | [] => True
  | .fatal :: script => script = []
  | _ :: script => ExitsLast script

theorem ClosesOnce.next {past script : List (Stmt τ)} {s : Stmt τ}
    (h : ClosesOnce (past ++ s :: script)) (hmem : .close ∈ past) : s = .wait ∨ s = .fatal := by
  induction past with
  | nil => cases hmem
  | cons s' past ih =>
    cases s' with
    | close => exact h s (by simp)
    | _ => exact ih h (by simpa using hmem)

theorem WaitsClosed.closed {past script : List (Stmt τ)}
    (h : WaitsClosed (past ++ .wait :: script)) : .close ∈ past := by
  induction past with
  | nil => exact h.elim
  | cons s past ih =>
    cases s with
    | close => exact List.mem_cons_self
    | wait => exact h.elim
    | _ => exact List.mem_cons_of_mem _ (ih h)

theorem waitsClosed_snoc {past : List (Stmt τ)} {s : Stmt τ} (h : WaitsClosed past)
    (hs : s = .wait → .close ∈ past) : WaitsClosed (past ++ [s]) := by
  induction past with
  | nil =>
    cases s with
    | wait => cases hs rfl
    | _ => trivial
  | cons s' past ih =>
    cases s' with
    | close => trivial
    | wait => exact h.elim
    | _ => exact ih h fun heq => by simpa using hs heq

theorem ExitsLast.last {past script : List (Stmt τ)} (h : ExitsLast (past ++ .fatal :: script)) :
    script = [] := by
  induction past with
  | nil => exact h
  | cons s past ih =>
    cases s with
    | fatal =>
      have hnil : past ++ .fatal :: script = [] := h
      simp at hnil
    | _ => exact ih h

/-- What holds of every state that is reached by a script, after the statements `past`. -/
structure Kept (workers : Nat) (past : List (Stmt τ)) (p : Pool τ) : Prop where
  length : p.workers.length = workers
  sent : p.sent = past.filterMap Stmt.task
  delivered : p.sent.Perm (p.executed ++ p.running ++ p.buffer)
  counter : p.counter = p.workers.countP Worker.counted
  closed : p.closed = true ↔ .close ∈ past
  ended : ∀ w ∈ p.workers, w.ended = true → p.closed = true ∧ p.buffer = []
  waited : WaitsClosed past
  exited : p.ending = some .exited → ∃ rest, p.script = .fatal :: rest

theorem counted_set {ws : List (Worker τ)} {i : Nat} {w : Worker τ} (h : ws[i]? = some w)
    (w' : Worker τ) : (ws.set i w').countP Worker.counted + w.counted.toNat =
      ws.countP Worker.counted + w'.counted.toNat := by
  obtain ⟨rest, hold, hnew⟩ := perm_set h
  rw [hold.countP_eq, (hnew w').countP_eq]
  cases hw : w.counted <;> cases hw' : w'.counted <;> simp [hw, hw']

theorem running_set {ws : List (Worker τ)} {i : Nat} {w : Worker τ} (h : ws[i]? = some w)
    (w' : Worker τ) : (w.task.toList ++ (ws.set i w').filterMap Worker.task).Perm
      (w'.task.toList ++ ws.filterMap Worker.task) := by
  obtain ⟨rest, hold, hnew⟩ := perm_set h
  have hcons : ∀ w : Worker τ, (w :: rest).filterMap Worker.task =
      w.task.toList ++ rest.filterMap Worker.task := by
    intro w
    cases w <;> rfl
  have hold' := hold.filterMap Worker.task
  have hnew' := (hnew w').filterMap Worker.task
  rw [hcons] at hold' hnew'
  refine (hnew'.append_left _).trans (List.Perm.trans ?_ (hold'.symm.append_left _))
  rw [← List.append_assoc, ← List.append_assoc]
  exact List.perm_append_comm.append_right _

/-- A worker that goes on keeps its place; one that ends has seen the closed and empty channel. -/
theorem ended_set {p : Pool τ} {i : Nat} {w' : Worker τ}
    (h : ∀ w ∈ p.workers, w.ended = true → p.closed = true ∧ p.buffer = [])
    (hw : w'.ended = true → p.closed = true ∧ p.buffer = []) :
    ∀ w ∈ p.workers.set i w', w.ended = true → p.closed = true ∧ p.buffer = [] := by
  intro w hmem
  obtain hmem | rfl := List.mem_or_eq_of_mem_set hmem
  · exact h w hmem
  · exact hw

theorem Kept.step {cap workers : Nat} {past : List (Stmt τ)} {p p' : Pool τ} (hn : 0 < workers)
    (h : Kept workers past p) (hclose : ClosesOnce (past ++ p.script)) (hstep : Step cap p p') :
    p'.ending ≠ some .panicked ∧
      ∃ past', Kept workers past' p' ∧ past' ++ p'.script = past ++ p.script := by
  obtain ⟨hend, hmove⟩ := step_cases hstep
  -- a statement that the producer executes without the workers
  have goes : ∀ s script, p.script = s :: script → past ++ [s] ++ script = past ++ p.script := by
    intro s script head
    rw [head, List.append_assoc, List.singleton_append]
  cases hmove with
  | @send t script head closed room =>
    refine ⟨by simp [hend], past ++ [.send t], ?_, goes _ _ head⟩
    refine ⟨h.length, ?_, ?_, h.counter, ?_, ?_, waitsClosed_snoc h.waited (by simp),
      by simp [hend]⟩
    · simp [h.sent, Stmt.task]
    · rw [← List.append_assoc]
      exact h.delivered.append_right _
    · simpa using h.closed
    · intro w hw he
      exact absurd (h.ended w hw he).1 (by simp [closed])
  | @close script head closed =>
    refine ⟨by simp [hend], past ++ [.close], ?_, goes _ _ head⟩
    refine ⟨h.length, ?_, h.delivered, h.counter, by simp, ?_, waitsClosed_snoc h.waited (by simp),
      by simp [hend]⟩
    · simp [h.sent, Stmt.task]
    · intro w hw he
      exact absurd (h.ended w hw he).1 (by simp [closed])
  | @wait script head zero =>
    have hdone : .close ∈ past := by
      have hlen := h.length
      obtain ⟨w, ws, hws⟩ := List.exists_cons_of_length_pos (hlen ▸ hn)
      have hcount := h.counter
      rw [zero, eq_comm, List.countP_eq_zero] at hcount
      have hw := hcount w (by simp [hws])
      refine h.closed.mp (h.ended w (by simp [hws]) ?_).1
      cases w <;> simp_all [Worker.counted, Worker.ended]
    refine ⟨by simp [hend], past ++ [.wait], ?_, goes _ _ head⟩
    refine ⟨h.length, ?_, h.delivered, h.counter, ?_, h.ended, waitsClosed_snoc h.waited fun _ => hdone,
      by simp [hend]⟩
    · simp [h.sent, Stmt.task]
    · simpa using h.closed
  | @fatal script head =>
    exact ⟨by simp, past, ⟨h.1, h.2, h.3, h.4, h.5, h.6, h.7, fun _ => ⟨script, head⟩⟩, rfl⟩
  | @receive i t buffer worker head =>
    refine ⟨by simp [hend], past, ?_, rfl⟩
    refine ⟨by simp [h.length], h.sent, ?_, ?_, h.closed, ?_, h.waited, by simp [hend]⟩
    · have hmoved : (p.executed ++ p.running ++ p.buffer).Perm
          (p.executed ++ (t :: p.running) ++ buffer) := by
        rw [head, List.append_assoc, List.append_assoc]
        exact List.perm_middle.append_left _
      have hrun := ((running_set worker (.running t)).append_left p.executed).append_right buffer
      exact h.delivered.trans (hmoved.trans hrun.symm)
    · have hcount := counted_set worker (.running t)
      simpa [h.counter, Worker.counted] using hcount.symm
    · intro w hmem he
      obtain hmem | rfl := List.mem_or_eq_of_mem_set hmem
      · exact absurd (h.ended w hmem he).2 (by simp [head])
      · cases he
  | @leave i worker empty closed =>
    refine ⟨by simp [hend], past, ?_, rfl⟩
    refine ⟨by simp [h.length], h.sent, ?_, ?_, h.closed, ?_, h.waited, by simp [hend]⟩
    · have hrun := ((running_set worker .leaving).append_left p.executed).append_right p.buffer
      exact h.delivered.trans hrun.symm
    · have hcount := counted_set worker .leaving
      simpa [h.counter, Worker.counted] using hcount.symm
    · exact ended_set h.ended fun _ => ⟨closed, empty⟩
  | @execute i t worker =>
    refine ⟨by simp [hend], past, ?_, rfl⟩
    refine ⟨by simp [h.length], h.sent, ?_, ?_, h.closed, ?_, h.waited, by simp [hend]⟩
    · have hrun := ((running_set worker .ranging).append_left p.executed).append_right p.buffer
      refine h.delivered.trans (hrun.symm.trans ?_)
      simp [Worker.task, running]
    · have hcount := counted_set worker .ranging
      simpa [h.counter, Worker.counted] using hcount.symm
    · exact ended_set h.ended fun he => by cases he
  | @done i worker pos =>
    refine ⟨by simp [hend], past, ?_, rfl⟩
    refine ⟨by simp [h.length], h.sent, ?_, ?_, h.closed, ?_, h.waited, by simp [hend]⟩
    · have hrun := ((running_set worker .done).append_left p.executed).append_right p.buffer
      exact h.delivered.trans hrun.symm
    · have hcount := counted_set worker .done
      simp only [Worker.counted, Bool.toNat_true, Bool.toNat_false] at hcount
      have hcounter := h.counter
      simp only
      omega
    · exact ended_set h.ended fun _ => h.ended _ (List.mem_of_getElem? worker) rfl
  | @panicSend t script head closed =>
    rw [head] at hclose
    have hs := hclose.next (h.closed.mp closed)
    simp at hs
  | @panicClose script head closed =>
    rw [head] at hclose
    have hs := hclose.next (h.closed.mp closed)
    simp at hs
  | @panicDone i worker zero =>
    have hcount := h.counter
    rw [zero, eq_comm, List.countP_eq_zero] at hcount
    exact absurd rfl (hcount _ (List.mem_of_getElem? worker))

theorem kept_start (workers : Nat) (script : List (Stmt τ)) :
    Kept workers [] (start workers script) where
  length := by simp [start]
  sent := rfl
  delivered := by
    have hnone : (List.replicate workers (Worker.ranging : Worker τ)).filterMap Worker.task = [] := by
      induction workers with
      | zero => rfl
      | succ n ih => exact ih
    simp [start, running, hnone]
  counter := by simp [start, List.countP_replicate, Worker.counted]
  closed := by simp [start]
  ended w hw he := by
    rw [List.eq_of_mem_replicate hw] at he
    cases he
  waited := trivial
  exited h := by cases h

/-- Whatever the interleaving, nothing is lost or executed twice, and nothing panics. -/
theorem Reachable.kept {cap workers : Nat} {script : List (Stmt τ)} {p : Pool τ} (hn : 0 < workers)
    (hclose : ClosesOnce script) (h : Reachable cap workers script p) :
    p.ending ≠ some .panicked ∧ ∃ past, Kept workers past p ∧ past ++ p.script = script := by
  induction h with
  | refl => exact ⟨by simp [start], [], kept_start workers script, rfl⟩
  | tail _ hstep ih =>
    obtain ⟨-, past, hkept, hscript⟩ := ih
    obtain ⟨hend, past', hkept', hscript'⟩ := hkept.step hn (hscript ▸ hclose) hstep
    exact ⟨hend, past', hkept', hscript'.trans hscript⟩

/-- What is sent is what the script says, in its order, and only that is executed. -/
theorem Reachable.sent {cap workers : Nat} {script : List (Stmt τ)} {p : Pool τ} (hn : 0 < workers)
    (hclose : ClosesOnce script) (h : Reachable cap workers script p) :
    p.sent <+: script.filterMap Stmt.task ∧ p.sent.Perm (p.executed ++ p.running ++ p.buffer) := by
  obtain ⟨-, past, hkept, rfl⟩ := h.kept hn hclose
  rw [hkept.sent, List.filterMap_append]
  exact ⟨List.prefix_append .., hkept.sent ▸ hkept.delivered⟩

theorem Reachable.ending_eq_none {cap workers : Nat} {script : List (Stmt τ)} {p : Pool τ}
    (hn : 0 < workers) (hclose : ClosesOnce script) (hfatal : .fatal ∉ script)
    (h : Reachable cap workers script p) : p.ending = none := by
  obtain ⟨hpanic, past, hkept, rfl⟩ := h.kept hn hclose
  cases hend : p.ending with
  | none => rfl
  | some ending =>
    cases ending with
    | panicked => exact absurd hend hpanic
    | exited =>
      obtain ⟨rest, hrest⟩ := hkept.exited hend
      exact absurd (by simp [hrest]) hfatal

/-- A worker that cannot step has ended, or finds the channel empty and open. -/
theorem Stuck.worker {cap : Nat} {p : Pool τ} (h : Stuck cap p) (hend : p.ending = none)
    {w : Worker τ} (hw : w ∈ p.workers) :
    w = .done ∨ w = .ranging ∧ p.buffer = [] ∧ p.closed = false := by
  obtain ⟨i, hi⟩ := List.getElem?_of_mem hw
  have hnone : p.work i = none := by
    cases hwork : p.work i with
    | none => rfl
    | some p' => exact absurd (.inr ⟨i, hwork⟩) (h p')
  rw [work, if_neg (not_not.mpr hend), hi] at hnone
  cases w with
  | done => exact .inl rfl
  | ranging =>
    refine .inr ⟨rfl, ?_⟩
    simp only at hnone
    split at hnone
    · cases hnone
    · rename_i hempty
      split_ifs at hnone with hclosed
      exact ⟨hempty, eq_false_of_ne_true hclosed⟩
  | running t => cases hnone
  | leaving =>
    simp only at hnone
    split_ifs at hnone

/-- Where a run ends that does not exit: all tasks sent are executed, and the producer has returned
or waits for workers that wait for the channel to be closed. -/
theorem Reachable.stuck {cap workers : Nat} {script : List (Stmt τ)} {p : Pool τ} (hcap : 0 < cap)
    (hn : 0 < workers) (hclose : ClosesOnce script) (h : Reachable cap workers script p)
    (hstuck : Stuck cap p) (hend : p.ending = none) :
    p.executed.Perm p.sent ∧
      (p.script = [] ∨ ∃ rest, p.script = .wait :: rest ∧ p.closed = false) := by
  obtain ⟨-, past, hkept, -⟩ := h.kept hn hclose
  have hlen := hkept.length
  obtain ⟨w₀, ws, hws⟩ := List.exists_cons_of_length_pos (hlen ▸ hn)
  have hfirst : w₀ ∈ p.workers := by simp [hws]
  have hempty : p.buffer = [] := by
    obtain rfl | ⟨-, hempty, -⟩ := hstuck.worker hend hfirst
    · exact (hkept.ended _ hfirst rfl).2
    · exact hempty
  have hidle : p.running = [] := by
    refine List.filterMap_eq_nil_iff.mpr fun w hw => ?_
    obtain rfl | ⟨rfl, -⟩ := hstuck.worker hend hw <;> rfl
  have hdelivered := hkept.delivered
  rw [hidle, hempty, List.append_nil, List.append_nil] at hdelivered
  refine ⟨hdelivered.symm, ?_⟩
  have hproduce : p.produce cap = none := by
    cases hp : p.produce cap with
    | none => rfl
    | some p' => exact absurd (.inl hp) (hstuck p')
  rw [produce, if_neg (not_not.mpr hend)] at hproduce
  split at hproduce
  · rename_i hnil
    exact .inl hnil
  · split_ifs at hproduce with hclosed hroom
    exact absurd (by simp [hempty, hcap]) hroom
  · split_ifs at hproduce
  · rename_i rest head
    refine .inr ⟨rest, head, eq_false_of_ne_true fun hclosed => ?_⟩
    split_ifs at hproduce with hzero
    refine hzero ?_
    rw [hkept.counter, List.countP_eq_zero]
    intro w hw
    obtain rfl | ⟨-, -, hopen⟩ := hstuck.worker hend hw
    · simp [Worker.counted]
    · rw [hclosed] at hopen
      cases hopen
  · cases hproduce

/-- A pool is free of deadlocks exactly if the producer never waits before it has closed the
channel; only its last statement may end the process. -/
theorem no_deadlock_iff {cap workers : Nat} {script : List (Stmt τ)} (hcap : 0 < cap)
    (hn : 0 < workers) (hclose : ClosesOnce script)
    (hexit : ExitsLast script) :
    (∀ p, Reachable cap workers script p → Stuck cap p →
      p.script = [] ∨ p.ending = some .exited) ↔ WaitsClosed script := by
  constructor
  · intro h
    obtain ⟨p, hreach, hstuck⟩ := exists_stuck cap (start workers script)
    obtain ⟨-, past, hkept, hscript⟩ := Reachable.kept hn hclose hreach
    obtain hnil | hended := h p hreach hstuck
    · rw [hnil, List.append_nil] at hscript
      exact hscript ▸ hkept.waited
    · obtain ⟨rest, hrest⟩ := hkept.exited hended
      rw [hrest] at hscript
      rw [← hscript] at hexit
      obtain rfl := hexit.last
      exact hscript ▸ waitsClosed_snoc hkept.waited (by simp)
  · intro h p hreach hstuck
    cases hend : p.ending with
    | none =>
      obtain ⟨-, past, hkept, hscript⟩ := Reachable.kept hn hclose hreach
      obtain ⟨-, hnil | ⟨rest, hhead, hopen⟩⟩ := hreach.stuck hcap hn hclose hstuck hend
      · exact .inl hnil
      · rw [← hscript, hhead] at h
        rw [hkept.closed.mpr h.closed] at hopen
        cases hopen
    | some ending =>
      cases ending with
      | panicked => exact absurd hend (Reachable.kept hn hclose hreach).1
      | exited => exact .inr rfl

section Scripts

variable (tasks : List τ) {tail : List (Stmt τ)}

@[simp] theorem closesOnce_sends : ClosesOnce (tasks.map .send ++ tail) ↔ ClosesOnce tail := by
  induction tasks with
  | nil => rfl
  | cons t tasks ih => exact ih

@[simp] theorem waitsClosed_sends : WaitsClosed (tasks.map .send ++ tail) ↔ WaitsClosed tail := by
  induction tasks with
  | nil => rfl
  | cons t tasks ih => exact ih

@[simp] theorem exitsLast_sends : ExitsLast (tasks.map .send ++ tail) ↔ ExitsLast tail := by
  induction tasks with
  | nil => rfl
  | cons t tasks ih => exact ih

theorem sends_tasks : (tasks.map Stmt.send ++ tail).filterMap Stmt.task =
    tasks ++ tail.filterMap Stmt.task := by
  induction tasks with
  | nil => rfl
  | cons t tasks ih => exact congrArg (t :: ·) ih

/-- A producer that is past its sends has sent all tasks. -/
theorem sent_sends (htail : tail.filterMap Stmt.task = []) {past rest : List (Stmt τ)}
    (heq : past ++ rest = tasks.map .send ++ tail) (hrest : ∀ t rest', rest ≠ .send t :: rest') :
    past.filterMap Stmt.task = tasks := by
  induction tasks generalizing past with
  | nil =>
    have hnil : (past ++ rest).filterMap Stmt.task = [] := by rw [heq]; exact htail
    rw [List.filterMap_append, List.append_eq_nil_iff] at hnil
    exact hnil.1
  | cons t tasks ih =>
    cases past with
    | nil => exact absurd heq (hrest _ _)
    | cons s past =>
      obtain ⟨rfl, heq'⟩ := List.cons.inj heq
      simp [Stmt.task, ih heq']

/-- Where a run of such a script ends that does not exit, all tasks are executed. -/
theorem Reachable.executed {cap workers : Nat} {p : Pool τ} (hcap : 0 < cap) (hn : 0 < workers)
    (hclose : ClosesOnce tail) (htail : tail.filterMap Stmt.task = [])
    (h : Reachable cap workers (tasks.map .send ++ tail) p) (hstuck : Stuck cap p)
    (hend : p.ending = none) : p.executed.Perm tasks := by
  have hscript := (closesOnce_sends tasks).mpr hclose
  obtain ⟨-, past, hkept, hpast⟩ := Reachable.kept hn hscript h
  obtain ⟨hall, hrest⟩ := Reachable.stuck hcap hn hscript h hstuck hend
  rw [hkept.sent, sent_sends tasks htail hpast ?_] at hall
  · exact hall
  · intro t rest' heq
    obtain hnil | ⟨rest, hwait, -⟩ := hrest
    · simp [hnil] at heq
    · simp [hwait] at heq

end Scripts

end Pool

end MiniEvm.Framework
