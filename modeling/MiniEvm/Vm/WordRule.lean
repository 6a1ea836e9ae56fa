import MiniEvm.Vm.Words

namespace MiniEvm

open Math Framework

/-- The words of a frame: its stack and the value it was called with. -/
structure Frame.All (W : Int → Prop) (fr : Frame) : Prop where
  stack : fr.stack.All W
  value : W fr.contract.value

/-- A word that is in the set as long as the events so far meet a condition. -/
def Given (cond : List Event → Prop) (W : Int → Prop) (es : List Event) (x : Int) : Prop :=
  cond es → W x

/-- An invariant of the state and of the words in all frames of a call tree, under a condition on the
events so far: every move of the machine keeps the state. -/
structure WordRule (env : Env) (cond : List Event → Prop) (W : Int → Prop)
    (state : StateDB → List Event → Prop) : Prop where
  words : WordSet W
  earlier {es es' : List Event} : es <+: es' → cond es' → cond es
  enter {db : StateDB} {es : List Event} {c : Contract} (depth : Nat) (input : Bytes) :
    state db es → Given cond W es c.value → state db (es ++ [.enter depth c input])
  attempt {evm : Evm} {fr : Frame} {op : OpCode} {n : UInt64} (ready : Ready env evm fr op n) :
    state evm.stateDB evm.trace → fr.All (Given cond W evm.trace) →
    state evm.stateDB (evm.attempting fr op).trace
  gas {db : StateDB} {es : List Event} (op : OpCode) (fr : Frame) :
    state db es → state (op.gasEffect env db fr) es
  exec {evm : Evm} {fr : Frame} {op : OpCode} {n : UInt64} (ready : Ready env evm fr op n) :
    state evm.stateDB evm.trace → fr.All (Given cond W evm.trace) →
    state evm.stateDB (evm.executing fr op).trace
  reads {evm : Evm} {fr : Frame} {op : OpCode} {n : UInt64} (ready : Ready env evm fr op n) :
    state evm.stateDB evm.trace → fr.All W → cond (evm.executing fr op).trace →
    op.Reads W env (evm.executing fr op) fr
  effect {evm : Evm} {fr : Frame} (op : OpCode) :
    state evm.stateDB evm.trace → fr.All (Given cond W evm.trace) →
    state (op.effect env evm fr).stateDB (op.effect env evm fr).trace
  ask {db : StateDB} {es : List Event} (a : Address) : state db es → state (db.getBalance a).2 es
  pay {db : StateDB} {es : List Event} {a : Address} {v : Int} (b : Address) : state db es →
    Given cond W es v →
    (canTransfer db a v).1 = true → state (transfer (canTransfer db a v).2 a b v) es
  raise {db : StateDB} {es : List Event} (a : Address) (v : Int) : state db es →
    state ((canTransfer db a v).2.raiseNonce a) es
  create {db : StateDB} {es : List Event} {a addr : Address} {v : Int} : state db es →
    Given cond W es v →
    (canTransfer db a v).1 = true →
    addr = createAddress env.crypto a ((canTransfer db a v).2.getNonce a) →
    collides env ((canTransfer db a v).2.raiseNonce a) addr = false →
    state (newAccount env ((canTransfer db a v).2.raiseNonce a) a addr v) es
  store {db : StateDB} {es : List Event} (addr : Address) (code : Bytes) : state db es →
    state (db.setCode addr code) es

/-- The value of the contract that an entry point runs; a delegate takes it from its caller. -/
def Entry.value (caller : ContractRef) : Entry → Int
  | call _ _ v | callCode _ _ v | create _ v => v
  | staticCall _ _ => 0
  | delegateCall _ _ =>
    match caller with
    | .account _ => 0
    | .contract c => c.value

/-- What a run that started at `evm` leaves. -/
structure Leaves (state : StateDB → List Event → Prop) (evm evm' : Evm) : Prop where
  state : state evm'.stateDB evm'.trace
  grows : evm.trace <+: evm'.trace

namespace WordRule

variable {env : Env} {cond : List Event → Prop} {W : Int → Prop}
  {state : StateDB → List Event → Prop}

theorem mono (rule : WordRule env cond W state) {es es' : List Event} {x : Int} (hes : es <+: es')
    (h : Given cond W es x) : Given cond W es' x :=
  fun hcond => h (rule.earlier hes hcond)

/-- The interpreter below keeps the invariant. -/
def RunKeeps (cond : List Event → Prop) (W : Int → Prop) (state : StateDB → List Event → Prop)
    (run : RunFn) : Prop :=
  ∀ evm c input, state evm.stateDB evm.trace → Given cond W evm.trace c.value →
    (run evm c input).Meets (fun r => Leaves state evm r.evm) (Leaves state evm)

section Entries

variable {evm : Evm} {caller : ContractRef} {gas : UInt64} {e : Entry}

theorem value_of_fixed {c c' : Contract} (h : c.fixed = c'.fixed) : c.value = c'.value := by
  change c.fixed.value = c'.fixed.value
  rw [h]

theorem refuse_evm {r : CreateResult} (h : Entry.refuse env evm caller gas = some r) :
    r.evm = evm := by
  unfold Entry.refuse at h
  split_ifs at h <;> cases h <;> rfl

theorem prepare_stops (rule : WordRule env cond W state) {r : CreateResult}
    (hs : state evm.stateDB evm.trace) (hv : Given cond W evm.trace (e.value caller))
    (h : e.prepare env evm caller gas = some (.inl r)) : Leaves state evm r.evm := by
  have here : ∀ {evm' : Evm}, evm' = evm → Leaves state evm evm' := by
    rintro _ rfl
    exact ⟨hs, List.prefix_rfl⟩
  have asked : ∀ a, Leaves state evm { evm with stateDB := (evm.stateDB.getBalance a).2 } :=
    fun a => ⟨rule.ask a hs, List.prefix_rfl⟩
  cases e with
  | call addr input value | callCode addr input value =>
    simp only [Entry.prepare] at h
    split at h
    · rename_i hr
      cases h
      exact here (refuse_evm hr)
    · split_ifs at h <;> cases h
      exact asked _
  | delegateCall addr input =>
    simp only [Entry.prepare] at h
    split at h
    · rename_i hr
      cases h
      exact here (refuse_evm hr)
    · obtain ⟨c, -, h⟩ := Option.map_eq_some_iff.mp h
      cases h
  | staticCall addr input =>
    simp only [Entry.prepare] at h
    split at h
    · rename_i hr
      cases h
      exact here (refuse_evm hr)
    · cases h
  | create code value =>
    simp only [Entry.prepare] at h
    split_ifs at h with hdepth hcan hcollide hno
    · cases h
      exact here rfl
    · cases h
      exact ⟨rule.raise _ _ hs, List.prefix_rfl⟩
    · cases h
      exact ⟨rule.create hs hv hcan rfl (Bool.eq_false_of_not_eq_true hcollide), List.prefix_rfl⟩
    · cases h
    · cases h
      exact asked _

theorem prepare_launches (rule : WordRule env cond W state) {l : Launch}
    (hs : state evm.stateDB evm.trace) (hv : Given cond W evm.trace (e.value caller))
    (h : e.prepare env evm caller gas = some (.inr l)) :
    Leaves state evm l.evm ∧ Given cond W l.evm.trace l.contract.value := by
  cases e with
  | call addr input value =>
    simp only [Entry.prepare] at h
    split at h
    · cases h
    · split_ifs at h with hcan
      · cases h
        exact ⟨⟨rule.pay addr hs hv hcan, List.prefix_rfl⟩, hv⟩
      · cases h
  | callCode addr input value =>
    simp only [Entry.prepare] at h
    split at h
    · cases h
    · split_ifs at h with hcan
      · cases h
        exact ⟨⟨rule.ask _ hs, List.prefix_rfl⟩, hv⟩
      · cases h
  | delegateCall addr input =>
    simp only [Entry.prepare] at h
    split at h
    · cases h
    · obtain ⟨c, hdel, h⟩ := Option.map_eq_some_iff.mp h
      cases h
      cases caller with
      | account a => cases hdel
      | contract parent =>
        cases hdel
        exact ⟨⟨hs, List.prefix_rfl⟩, hv⟩
  | staticCall addr input =>
    simp only [Entry.prepare] at h
    split at h
    · cases h
    · cases h
      exact ⟨⟨hs, List.prefix_rfl⟩, fun _ => rule.words.zero⟩
  | create code value =>
    simp only [Entry.prepare] at h
    split_ifs at h with hdepth hcan hcollide hno <;> cases h
    exact ⟨⟨rule.create hs hv hcan rfl (Bool.eq_false_of_not_eq_true hcollide), List.prefix_rfl⟩, hv⟩

theorem conclude_leaves (rule : WordRule env cond W state) (outermost : Bool) (l : Launch) (e : Entry)
    {r : RunResult} (h : Leaves state evm r.evm) :
    Leaves state evm (e.conclude env outermost l r).evm := by
  have settled : Leaves state evm (settle 0 r).evm := by
    rw [settle_evm]
    exact h
  cases e with
  | call | callCode | delegateCall => exact settled
  | staticCall =>
    cases outermost
    · exact settled
    · exact ⟨settled.state, settled.grows⟩
  | create code value =>
    obtain he | he := settleCreate_evm env 0 l.contract.self r
    · rw [Entry.conclude, he]
      exact h
    · rw [Entry.conclude, he]
      exact ⟨rule.store _ _ h.state, h.grows⟩

theorem Leaves.trans {a b c : Evm} (h : Leaves state a b) (h' : Leaves state b c) :
    Leaves state a c :=
  ⟨h'.state, h.grows.trans h'.grows⟩

theorem runContract_keeps (rule : WordRule env cond W state) {run : RunFn}
    (hrun : RunKeeps cond W state run)
    {c : Contract} (input : Bytes) (hs : state evm.stateDB evm.trace)
    (hv : Given cond W evm.trace c.value) :
    (runContract env run evm c input).Meets (fun r => Leaves state evm r.evm) (Leaves state evm) := by
  have henter : Leaves state evm (evm.emit (.enter evm.depth c input)) :=
    ⟨rule.enter evm.depth input hs hv, List.prefix_append ..⟩
  unfold runContract
  simp only
  split
  · refine .ofOption henter fun r hr => ?_
    obtain ⟨⟨ret, err, c'⟩, -, rfl⟩ := Option.map_eq_some_iff.mp hr
    exact henter
  · refine (hrun _ c input henter.state (rule.mono henter.grows hv)).mono ?_ ?_
    · exact fun r hr => Leaves.trans henter hr
    · exact fun s hs => Leaves.trans henter hs

theorem invoke_keeps (rule : WordRule env cond W state) {run : RunFn} (hrun : RunKeeps cond W state run)
    (hs : state evm.stateDB evm.trace) (hv : Given cond W evm.trace (e.value caller)) :
    (e.invoke env run evm caller gas).Meets (fun r => Leaves state evm r.evm) (Leaves state evm) := by
  rw [Entry.invoke_eq]
  refine Outcome.Meets.bind (.ofOption ⟨hs, List.prefix_rfl⟩ fun x hx => hx) (fun s hs => hs) ?_
  rintro (r | l) hx
  · exact rule.prepare_stops hs hv hx
  · obtain ⟨hl, hvalue⟩ := rule.prepare_launches hs hv hx
    refine Outcome.Meets.bind (rule.runContract_keeps hrun l.input hl.state hvalue)
      (fun s hs => Leaves.trans hl hs) fun r hr => ?_
    exact rule.conclude_leaves _ l e (Leaves.trans hl hr)

end Entries

section Iterations

variable {run : RunFn} {evm : Evm} {fr : Frame}

/-- A call instruction hands on words of its frame. -/
theorem invocation_words (rule : WordRule env cond W state) {op : OpCode} {i : Invocation}
    (h : op.invocation env evm fr = some i) (hfr : fr.All (Given cond W evm.trace)) :
    Given cond W evm.trace (i.entry.value (.contract i.caller)) := by
  unfold OpCode.invocation at h
  split at h
  case h_6 => cases h
  all_goals obtain ⟨input, -, rfl⟩ := Option.map_eq_some_iff.mp h
  case h_1 value offset size st heq => exact hfr.stack value (by simp [heq])
  case h_2 | h_3 => exact fun _ => rule.words.u256 _
  case h_4 => exact hfr.value
  case h_5 => exact fun _ => rule.words.zero

/-- What an iteration leaves. -/
structure StepLeaves (cond : List Event → Prop) (W : Int → Prop)
    (state : StateDB → List Event → Prop) (evm : Evm) (s : StepResult) : Prop where
  machine : Leaves state evm s.evm
  frame : ∀ evm' fr', s = .next evm' fr' → fr'.All (Given cond W evm'.trace)

theorem finish_leaves (o : Operation) {res : ExecResult} (h : Leaves state evm res.evm)
    (hfr : res.frame.All (Given cond W res.evm.trace)) :
    StepLeaves cond W state evm (finish o res) := by
  constructor
  · rw [finish_evm]
    split_ifs
    · exact ⟨h.state, h.grows⟩
    · exact h
  · intro evm' fr' hnext
    have htrace : evm'.trace = res.evm.trace := by
      have hevm := finish_evm o res
      rw [hnext] at hevm
      change evm' = _ at hevm
      rw [hevm]
      split_ifs <;> rfl
    obtain ⟨-, rfl⟩ := finish_eq_next hnext
    rw [htrace]
    exact ⟨hfr.stack, hfr.value⟩

theorem execute_leaves (rule : WordRule env cond W state) (hrun : RunKeeps cond W state run)
    {op : OpCode}
    {n : UInt64} (ready : Ready env evm fr op n) (hs : state evm.stateDB evm.trace)
    (hfr : fr.All (Given cond W evm.trace)) :
    ((operation op).execute env run (evm.executing fr op) fr).Meets
      (fun res => Leaves state evm res.evm ∧ res.frame.All (Given cond W res.evm.trace))
      (Leaves state evm) := by
  have hgrows : evm.trace <+: (evm.executing fr op).trace := List.prefix_append ..
  have hexec := rule.exec ready hs hfr
  have hfr' : fr.All (Given cond W (evm.executing fr op).trace) :=
    ⟨fun x hx => rule.mono hgrows (hfr.stack x hx), rule.mono hgrows hfr.value⟩
  cases hc : op.isCall with
  | false =>
    obtain ⟨f, hf⟩ := execute_eq_simple hc
    rw [hf]
    refine .ofOption ⟨hexec, hgrows⟩ fun res hres => ?_
    have hx : (operation op).execute env run (evm.executing fr op) fr = .ok res := by
      rw [hf]
      exact simple_eq_ok.mpr hres
    have hspec := execute_simple hc hx
    have hstack : res.frame.stack.All (Given cond W (evm.executing fr op).trace) := by
      intro x hmem hcond
      have hwords : fr.All W := ⟨fun y hy => hfr'.stack y hy hcond, hfr'.value hcond⟩
      exact execute_keeps rule.words hc hwords.stack (rule.reads ready hs hwords hcond) hx x hmem
    have heffect := (op.effect_grows env (evm.executing fr op) fr).trace
    rw [← hspec.evm] at heffect
    refine ⟨⟨?_, hgrows.trans heffect⟩, fun x hx => rule.mono heffect (hstack x hx), ?_⟩
    · rw [hspec.evm]
      exact rule.effect op hexec hfr'
    · rw [hspec.contract]
      exact rule.mono heffect hfr'.value
  | true =>
    rw [execute_call _ _ _ _ hc]
    refine Outcome.Meets.bind (.ofOption ⟨hexec, hgrows⟩ fun i hi => hi) (fun s hs => hs) ?_
    intro i hi
    refine Outcome.Meets.bind (rule.invoke_keeps hrun hexec (rule.invocation_words hi hfr'))
      (fun s hs => ⟨hs.state, hgrows.trans hs.grows⟩) ?_
    intro r hr
    cases hres : op.resume env fr r with
    | ok x =>
      have hspec := OpCode.resume_spec hres
      have hstack : x.frame.stack.All (Given cond W (evm.executing fr op).trace) :=
        fun y hy hcond =>
          OpCode.resume_keeps rule.words hres (fun z hz => hfr'.stack z hz hcond) y hy
      have hvalue : x.frame.contract.value = fr.contract.value := by
        rw [hspec.contract]
        exact value_of_fixed (op.handedOver_fixed env fr.contract)
      rw [Outcome.Meets, hspec.evm]
      refine ⟨⟨hr.state, hgrows.trans hr.grows⟩, fun y hy => rule.mono hr.grows (hstack y hy), ?_⟩
      rw [hvalue]
      exact rule.mono hr.grows hfr'.value
    | panic s =>
      rw [OpCode.resume_panic hres]
      exact ⟨hr.state, hgrows.trans hr.grows⟩
    | timeout => trivial

theorem step_leaves (rule : WordRule env cond W state) (hrun : RunKeeps cond W state run)
    (hs : state evm.stateDB evm.trace) (hfr : fr.All (Given cond W evm.trace)) :
    (step env env.jumpTable run evm fr).Meets (StepLeaves cond W state evm) (Leaves state evm) := by
  have here : Leaves state evm evm := ⟨hs, List.prefix_rfl⟩
  have hattempt : ∀ {op n}, Ready env evm fr op n → Leaves state evm (evm.attempting fr op) :=
    fun ready => ⟨rule.attempt ready hs hfr, List.prefix_append ..⟩
  have hcharged : ∀ {op n evm' fr'}, Ready env evm fr op n →
      ChargeSpec op env (evm.attempting fr op) fr evm' fr' → Leaves state evm evm' := by
    intro op n evm' fr' ready spec
    have ha := hattempt ready
    have htrace : evm'.trace = (evm.attempting fr op).trace := by rw [spec.world]
    refine ⟨?_, by rw [htrace]; exact ha.grows⟩
    rw [htrace, spec.stateDB]
    split_ifs
    · exact ha.state
    · exact rule.gas op fr ha.state
  have hshape := step_shape env run evm fr
  generalize step env env.jumpTable run evm fr = x at hshape
  cases hshape with
  | unfetched => exact here
  | rejected => exact ⟨here, fun _ _ h => by cases h⟩
  | @unpriced op n ready h => exact hattempt ready
  | @unpaid op n evm' fr' ready charged =>
    exact ⟨hcharged ready (charge_spec charged), fun _ _ h => by cases h⟩
  | @executed op n evm' fr' ready charged =>
    have spec := charge_spec charged
    have hpaid := hcharged ready spec
    have hvalue : (fr'.expand n).contract.value = fr.contract.value :=
      value_of_fixed (spec.fixed n)
    have hfr' : (fr'.expand n).All (Given cond W evm'.trace) := by
      refine ⟨fun x hx => ?_, ?_⟩
      · rw [Frame.expand_stack, spec.stack] at hx
        exact rule.mono hpaid.grows (hfr.stack x hx)
      · rw [hvalue]
        exact rule.mono hpaid.grows hfr.value
    refine Outcome.Meets.bind (rule.execute_leaves hrun (ready.charged spec) hpaid.state hfr')
      (fun s hs => Leaves.trans hpaid hs) ?_
    rintro res ⟨hres, hframe⟩
    exact finish_leaves (operation op) (Leaves.trans hpaid hres) hframe

theorem loop_leaves (rule : WordRule env cond W state) (hrun : RunKeeps cond W state run) (n : Nat)
    (hs : state evm.stateDB evm.trace) (hfr : fr.All (Given cond W evm.trace)) :
    (loop env env.jumpTable run n evm fr).Meets (fun r => Leaves state evm r.evm)
      (Leaves state evm) := by
  induction n generalizing evm fr with
  | zero => trivial
  | succ n ih =>
    unfold loop
    split_ifs
    · exact ⟨hs, List.prefix_rfl⟩
    · refine Outcome.Meets.bind (rule.step_leaves hrun hs hfr) (fun s hs => hs) ?_
      intro s hstep
      cases s with
      | done r => exact hstep.machine
      | next evm' fr' =>
        refine (ih hstep.machine.state (hstep.frame evm' fr' rfl)).mono ?_ ?_
        · exact fun r hr => Leaves.trans hstep.machine hr
        · exact fun s hs => Leaves.trans hstep.machine hs

end Iterations

/-- The interpreter keeps the invariant for any fuel. -/
theorem interpreterRun_keeps (rule : WordRule env cond W state) (n : Nat) :
    RunKeeps cond W state (interpreterRun env env.jumpTable n) := by
  induction n with
  | zero =>
    intro evm c input hs hv
    trivial
  | succ n ih =>
    intro evm c input hs hv
    unfold interpreterRun
    simp only
    split_ifs
    · exact ⟨hs, List.prefix_rfl⟩
    · have hstart : (Frame.start c input).All (Given cond W evm.trace) :=
        ⟨fun x hx => absurd hx List.not_mem_nil, hv⟩
      refine Outcome.Meets.bind (rule.loop_leaves ih n hs hstart) ?_ ?_
      · exact fun s hs => ⟨hs.state, hs.grows⟩
      · exact fun r hr => ⟨hr.state, hr.grows⟩

/-- What every call or creation leaves. -/
theorem start_leaves (rule : WordRule env cond W state) {e : Entry} (fuel : Nat) {evm : Evm}
    {caller : ContractRef} (gas : UInt64) (hs : state evm.stateDB evm.trace)
    (hv : Given cond W evm.trace (e.value caller)) :
    (e.start env fuel evm caller gas).Meets (fun r => Leaves state evm r.evm) (Leaves state evm) :=
  rule.invoke_keeps (rule.interpreterRun_keeps fuel) hs hv

end WordRule

end MiniEvm
