import MiniEvm.Framework.Added
import MiniEvm.Safety.Termination
import MiniEvm.Vm.Bitmap

namespace MiniEvm

open Math Framework

/-- A frame of the contract's code took a jump. Its code was then analysed, unless the destination was
past the end of the code. -/
def Jumped (es : List Event) (c : Contract) : Prop :=
  ∃ w fr op pos, Event.exec w fr op ∈ es ∧ op.target fr.stack = some pos ∧
    fr.contract.code = c.code ∧ fr.contract.codeHash = c.codeHash

/-- Every cached bitmap is that of a jumping contract with the hash under which it is cached. -/
def Cached (es : List Event) (d : Destinations) : Prop :=
  ∀ h m, d h = some m → ∃ c, Jumped es c ∧ c.codeHash = h ∧ BitmapOf c.code m

section Monotonicity

variable {es es' : List Event}

theorem Jumped.mono {c : Contract} (h : Jumped es c) (hsub : es ⊆ es') : Jumped es' c := by
  obtain ⟨w, fr, op, pos, he, hjump⟩ := h
  exact ⟨w, fr, op, pos, hsub he, hjump⟩

theorem Cached.mono {d : Destinations} (h : Cached es d) (hsub : es ⊆ es') : Cached es' d := by
  intro hash m hm
  obtain ⟨c, hc, hcode⟩ := h hash m hm
  exact ⟨c, hc.mono hsub, hcode⟩

/-- Analysing the code of a jumping contract keeps the cache. -/
theorem Cached.analyse {d d' : Destinations} {c : Contract} {m : Bitvec} (h : Cached es d)
    (hc : Jumped es c) (ha : d.analyse c.codeHash c.code = some (m, d')) : Cached es d' := by
  unfold Destinations.analyse at ha
  cases hd : d c.codeHash with
  | some m' =>
    rw [hd] at ha
    cases ha
    exact h
  | none =>
    obtain ⟨bits, hbits, hof⟩ := codeBitmap_spec c.code
    rw [hd, hbits] at ha
    cases ha
    intro hash m' hm'
    simp only at hm'
    split_ifs at hm' with heq
    · cases hm'
      exact ⟨c, hc, heq.symm, hof⟩
    · exact h hash m' hm'

theorem Cached.has {d d' : Destinations} {c : Contract} {pos : Int} {ok : Bool} (h : Cached es d)
    (hc : Jumped es c) (hh : d.has c.codeHash c.code pos = some (ok, d')) : Cached es d' := by
  unfold Destinations.has at hh
  simp only at hh
  split at hh
  · cases hh
    exact h
  · obtain ⟨⟨m, d₁⟩, ha, hh⟩ := Option.bind_eq_some_iff.mp hh
    have hcached := h.analyse hc ha
    simp only at hh
    split_ifs at hh
    · obtain ⟨b, -, heq⟩ := Option.map_eq_some_iff.mp hh
      cases heq
      exact hcached
    · cases hh
      exact hcached

end Monotonicity

/-- An instruction is executed by a frame with a cache of jumping contracts' bitmaps. -/
def Event.Tracked (es : List Event) : Event → Prop
  | .exec _ fr _ => Cached es fr.contract.jumpdests
  | _ => True

theorem Event.Tracked.mono {es es' : List Event} {e : Event} (h : e.Tracked es) (hsub : es ⊆ es') :
    e.Tracked es' := by
  cases e with
  | exec w fr op => exact Cached.mono h hsub
  | _ => trivial

/-- The run from `a` to `b` executed only tracked instructions; `base` is where the call tree
began. -/
structure Tracks (base : List Event) (a b : Evm) : Prop where
  begun : base <+: a.trace
  grows : a.trace <+: b.trace
  tracked : ∀ e ∈ added a.trace b.trace, e.Tracked (added base b.trace)

namespace Tracks

variable {base : List Event} {a b c : Evm}

theorem refl (h : base <+: a.trace) : Tracks base a a :=
  ⟨h, List.prefix_rfl, fun e he => by simp at he⟩

/-- What was there stays there. -/
theorem subset (h : Tracks base a b) : added base a.trace ⊆ added base b.trace := by
  rw [added_trans h.begun h.grows]
  exact List.subset_append_left ..

theorem trans (h : Tracks base a b) (h' : Tracks base b c) : Tracks base a c := by
  refine ⟨h.begun, h.grows.trans h'.grows, fun e he => ?_⟩
  rw [added_trans h.grows h'.grows, List.mem_append] at he
  obtain he | he := he
  · exact (h.tracked e he).mono h'.subset
  · exact h'.tracked e he

/-- The traces are all that matters. -/
theorem congr {a' b' : Evm} (h : Tracks base a b) (ha : a'.trace = a.trace)
    (hb : b'.trace = b.trace) : Tracks base a' b' := by
  refine ⟨ha ▸ h.begun, ?_, ?_⟩
  · rw [ha, hb]
    exact h.grows
  · rw [ha, hb]
    exact h.tracked

theorem exec {fr : Frame} (h : base <+: a.trace) (op : OpCode)
    (hcached : Cached (added base a.trace) fr.contract.jumpdests) :
    Tracks base a (a.executing fr op) := by
  have hgrows : a.trace <+: (a.executing fr op).trace := List.prefix_append ..
  have hsub : added base a.trace ⊆ added base (a.executing fr op).trace := by
    rw [added_trans h hgrows]
    exact List.subset_append_left ..
  refine ⟨h, hgrows, fun e he => ?_⟩
  have he' : e = .exec a.toWorld fr op := by simpa [Evm.executing, Evm.emit] using he
  rw [he']
  exact hcached.mono hsub

/-- Events that are not instructions. -/
theorem append {evs : List Event} (h : base <+: a.trace) (ht : b.trace = a.trace ++ evs)
    (hevs : ∀ e ∈ evs, ∀ es, e.Tracked es) : Tracks base a b := by
  refine ⟨h, ht ▸ List.prefix_append .., fun e he => ?_⟩
  rw [ht, added_append] at he
  exact hevs e he _

end Tracks

/-- The interpreter below keeps track and leaves a tracked cache. -/
def RunTracks (base : List Event) (run : RunFn) : Prop :=
  ∀ evm c input, base <+: evm.trace → Cached (added base evm.trace) c.jumpdests →
    (run evm c input).Meets
      (fun r => Tracks base evm r.evm ∧ Cached (added base r.evm.trace) r.contract.jumpdests)
      (Tracks base evm)

section Entries

variable {base : List Event} {env : Env} {run : RunFn} {evm : Evm}

theorem runPrecompiledContract_jumpdests {crypto : Crypto} {p : Precompiled} {input ret : Bytes}
    {err : Option VmError} {c c' : Contract}
    (h : runPrecompiledContract crypto p input c = some (ret, err, c')) :
    c'.jumpdests = c.jumpdests := by
  obtain ⟨gas, -, h⟩ := Option.bind_eq_some_iff.mp h
  split at h
  · rename_i c'' hc
    obtain ⟨⟨ret', err'⟩, -, heq⟩ := Option.map_eq_some_iff.mp h
    cases heq
    exact Contract.useGas_jumpdests hc
  · cases h
    rfl

theorem runContract_tracks (env : Env) (hrun : RunTracks base run) {c : Contract} (input : Bytes)
    (hbase : base <+: evm.trace) (hcached : Cached (added base evm.trace) c.jumpdests) :
    (runContract env run evm c input).Meets
      (fun r => Tracks base evm r.evm ∧ Cached (added base r.evm.trace) r.contract.jumpdests)
      (Tracks base evm) := by
  have henter : Tracks base evm (evm.emit (.enter evm.depth c input)) :=
    .append hbase rfl fun e he es => by
      rw [List.mem_singleton.mp he]
      trivial
  have hc := hcached.mono henter.subset
  unfold runContract
  simp only
  split
  · refine .ofOption henter fun r hr => ?_
    obtain ⟨⟨ret, err, c'⟩, hp, rfl⟩ := Option.map_eq_some_iff.mp hr
    refine ⟨henter, ?_⟩
    rw [runPrecompiledContract_jumpdests hp]
    exact hc
  · refine (hrun _ c input (hbase.trans henter.grows) hc).mono ?_ ?_
    · rintro r ⟨ht, hd⟩
      exact ⟨henter.trans ht, hd⟩
    · intro s ht
      exact henter.trans ht

theorem Entry.invoke_tracks (env : Env) (hrun : RunTracks base run) (e : Entry)
    {caller : ContractRef} (gas : UInt64) (hbase : base <+: evm.trace)
    (hcached : Cached (added base evm.trace) caller.jumpdests) :
    (e.invoke env run evm caller gas).Meets
      (fun r => Tracks base evm r.evm ∧ Cached (added base r.evm.trace) r.jumpdests)
      (Tracks base evm) := by
  rw [invoke_eq]
  refine Outcome.Meets.bind (.ofOption (Tracks.refl hbase) fun x hx => hx) (fun s hs => hs) ?_
  rintro (r | l) hx
  · obtain ⟨ht, hd⟩ := prepare_inl hx
    refine ⟨(Tracks.refl hbase).congr rfl ht, ?_⟩
    rw [ht, hd]
    exact hcached
  · have hl := prepare_launch hx
    have hgo := runContract_tracks env hrun l.input (hl.trace ▸ hbase)
      (by rw [hl.trace, hl.jumpdests]; exact hcached)
    refine Outcome.Meets.bind hgo (fun s hs => hs.congr hl.trace.symm rfl) ?_
    rintro r ⟨ht, hd⟩
    obtain ⟨htrace, hjump⟩ := conclude_spec env (!evm.readOnly) l e r
    refine ⟨ht.congr hl.trace.symm htrace, ?_⟩
    rw [htrace, hjump]
    exact hd

end Entries

section Iterations

variable {base : List Event} {env : Env} {run : RunFn} {evm : Evm} {fr : Frame}

/-- Executing an instruction that enters no frame keeps the cache. -/
theorem execute_cached {op : OpCode} {es : List Event} {res : ExecResult} (hc : op.isCall = false)
    (hjumped : ∀ pos, op.target fr.stack = some pos → Jumped es fr.contract)
    (hcached : Cached es fr.contract.jumpdests) (h : (operation op).execute env run evm fr = .ok res) :
    Cached es res.frame.contract.jumpdests := by
  have hjumpTo : ∀ pos st, op.target fr.stack = some pos → jumpTo evm fr pos st = some res →
      Cached es res.frame.contract.jumpdests := by
    intro pos st htarget hj
    obtain ⟨⟨ok, d⟩, hhas, rfl⟩ := Option.map_eq_some_iff.mp hj
    have hd := hcached.has (hjumped pos htarget) hhas
    cases ok <;> exact hd
  cases hj : op.isJump with
  | false =>
    rw [((execute_simple hc h).kept hj).contract]
    exact hcached
  | true =>
    cases op
    case JUMP =>
      simp only [operation, entry] at h
      replace h := simple_eq_ok.mp h
      unfold opJump at h
      split at h
      · rename_i pos st hst
        exact hjumpTo pos st (by rw [hst]; rfl) h
      · cases h
    case JUMPI =>
      simp only [operation, entry] at h
      replace h := simple_eq_ok.mp h
      unfold opJumpi at h
      split at h
      · rename_i pos cond st hst
        split_ifs at h with hcond
        · exact hjumpTo pos st (by rw [hst]; exact if_pos hcond) h
        · cases h
          exact hcached
      · cases h
    all_goals cases hj

theorem OpCode.handedOver_jumpdests (op : OpCode) (env : Env) (c : Contract) :
    (op.handedOver env c).jumpdests = c.jumpdests := by
  unfold handedOver
  split_ifs
  · show ((c.useGas (endow env c).1).getD c).jumpdests = c.jumpdests
    cases hu : c.useGas (endow env c).1 with
    | none => rfl
    | some c' => exact Contract.useGas_jumpdests hu
  · rfl

theorem execute_tracks (hrun : RunTracks base run) {op : OpCode} (hbase : base <+: evm.trace)
    (hjumped : ∀ pos, op.target fr.stack = some pos →
      Jumped (added base evm.trace) fr.contract)
    (hcached : Cached (added base evm.trace) fr.contract.jumpdests) :
    ((operation op).execute env run evm fr).Meets
      (fun res => Tracks base evm res.evm ∧
        Cached (added base res.evm.trace) res.frame.contract.jumpdests)
      (Tracks base evm) := by
  cases hc : op.isCall with
  | false =>
    obtain ⟨f, hf⟩ := execute_eq_simple hc
    rw [hf]
    refine .ofOption (.refl hbase) fun res hres => ?_
    have hx : (operation op).execute env run evm fr = .ok res := by
      rw [hf]
      exact simple_eq_ok.mpr hres
    obtain ⟨evs, htrace, hevs⟩ := op.effect_trace env evm fr
    rw [← (execute_simple hc hx).evm] at htrace
    have ht : Tracks base evm res.evm := .append hbase htrace fun e he es => by
      obtain ⟨site, loc, val, rfl⟩ := hevs e he
      trivial
    exact ⟨ht, (execute_cached hc hjumped hcached hx).mono ht.subset⟩
  | true =>
    rw [execute_call _ _ _ _ hc]
    refine Outcome.Meets.bind (.ofOption (Tracks.refl hbase) fun i hi => hi) (fun s hs => hs) ?_
    intro i hi
    have hcaller : Cached (added base evm.trace) (ContractRef.contract i.caller).jumpdests := by
      rw [OpCode.invocation_caller hi, ContractRef.jumpdests, OpCode.handedOver_jumpdests]
      exact hcached
    refine Outcome.Meets.bind (Entry.invoke_tracks env hrun i.entry i.gas hbase hcaller)
      (fun s hs => hs) ?_
    rintro r ⟨ht, hd⟩
    cases hres : op.resume env fr r with
    | ok x =>
      have hspec := OpCode.resume_spec hres
      refine ⟨ht.congr rfl (by rw [hspec.evm]), ?_⟩
      rw [hspec.evm, hspec.contract]
      exact hd
    | panic s =>
      rw [OpCode.resume_panic hres]
      exact ht
    | timeout => trivial

/-- What an iteration leaves: the run so far and the frame's cache are tracked. -/
def Keeps (base : List Event) (evm : Evm) (s : StepResult) : Prop :=
  Tracks base evm s.evm ∧ Cached (added base s.evm.trace) s.contract.jumpdests

theorem finish_keeps (o : Operation) {res : ExecResult} (ht : Tracks base evm res.evm)
    (hd : Cached (added base res.evm.trace) res.frame.contract.jumpdests) :
    Keeps base evm (finish o res) := by
  have htrace : (finish o res).evm.trace = res.evm.trace := by
    rw [finish_evm]
    split_ifs <;> rfl
  refine ⟨ht.congr rfl htrace, ?_⟩
  rw [htrace, finish_contract]
  exact hd

theorem step_tracks (env : Env) (hrun : RunTracks base run) (hbase : base <+: evm.trace)
    (hcached : Cached (added base evm.trace) fr.contract.jumpdests) :
    (step env env.jumpTable run evm fr).Meets (Keeps base evm) (Tracks base evm) := by
  have hattempt : ∀ op, Tracks base evm (evm.attempting fr op) := fun op =>
    .append hbase rfl fun e he es => by
      rw [List.mem_singleton.mp he]
      trivial
  have hshape := step_shape env run evm fr
  generalize step env env.jumpTable run evm fr = x at hshape
  cases hshape with
  | unfetched => exact .refl hbase
  | rejected => exact ⟨.refl hbase, hcached⟩
  | @unpriced op => exact hattempt op
  | @unpaid op n evm' fr' ready charged =>
    have htrace : evm'.trace = (evm.attempting fr op).trace := by
      rw [(charge_spec charged).world]
    have ht := (hattempt op).congr rfl htrace
    refine ⟨ht, ?_⟩
    change Cached _ fr'.contract.jumpdests
    rw [charge_unpaid charged]
    exact hcached.mono ht.subset
  | @executed op n evm' fr' ready charged =>
    have htrace : evm'.trace = (evm.attempting fr op).trace := by
      rw [(charge_spec charged).world]
    have ht := (hattempt op).congr rfl htrace
    have hcached' : Cached (added base evm'.trace) (fr'.expand n).contract.jumpdests := by
      rw [Frame.expand_contract, (charge_spec charged).contract]
      exact hcached.mono ht.subset
    have hexec : Tracks base evm' (evm'.executing (fr'.expand n) op) :=
      .exec (ht.begun.trans ht.grows) op hcached'
    have hjumped : ∀ pos, op.target (fr'.expand n).stack = some pos →
        Jumped (added base (evm'.executing (fr'.expand n) op).trace) (fr'.expand n).contract := by
      intro pos hpos
      refine ⟨evm'.toWorld, fr'.expand n, op, pos, ?_, hpos, rfl, rfl⟩
      rw [added_trans hexec.begun hexec.grows]
      exact List.mem_append_right _ (by simp [Evm.executing, Evm.emit])
    refine Outcome.Meets.bind (execute_tracks hrun (hexec.begun.trans hexec.grows) hjumped
      (hcached'.mono hexec.subset)) (fun s hs => ht.trans (hexec.trans hs)) ?_
    rintro res ⟨hres, hd⟩
    exact finish_keeps _ (ht.trans (hexec.trans hres)) hd

theorem loop_tracks (env : Env) (hrun : RunTracks base run) (n : Nat) (hbase : base <+: evm.trace)
    (hcached : Cached (added base evm.trace) fr.contract.jumpdests) :
    (loop env env.jumpTable run n evm fr).Meets
      (fun r => Tracks base evm r.evm ∧ Cached (added base r.evm.trace) r.contract.jumpdests)
      (Tracks base evm) := by
  induction n generalizing evm fr with
  | zero => trivial
  | succ n ih =>
    unfold loop
    split_ifs
    · exact ⟨.refl hbase, hcached⟩
    · have hstep := step_tracks env hrun hbase hcached
      cases hs : step env env.jumpTable run evm fr with
      | timeout => trivial
      | panic s =>
        rw [hs] at hstep
        exact hstep
      | ok x =>
        rw [hs] at hstep
        cases x with
        | done r => exact hstep
        | next evm' fr' =>
          obtain ⟨ht, hd⟩ := hstep
          refine (ih (hbase.trans ht.grows) hd).mono ?_ ?_
          · rintro r ⟨ht', hd'⟩
            exact ⟨ht.trans ht', hd'⟩
          · intro s ht'
            exact ht.trans ht'

end Iterations

/-- Every run of the interpreter, for any fuel, keeps track of its jumps. -/
theorem interpreterRun_tracks (base : List Event) (env : Env) (n : Nat) :
    RunTracks base (interpreterRun env env.jumpTable n) := by
  induction n with
  | zero =>
    intro evm c input _ _
    trivial
  | succ n ih =>
    intro evm c input hbase hcached
    unfold interpreterRun
    simp only
    split_ifs
    · exact ⟨(Tracks.refl hbase).congr rfl rfl, hcached⟩
    · refine Outcome.Meets.bind (loop_tracks env ih n hbase hcached)
        (fun s ht => ht.congr rfl rfl) ?_
      rintro r ⟨ht, hd⟩
      exact ⟨ht.congr rfl rfl, hd⟩

/-- Any two frames that jump and whose codes have one hash have one code. -/
def SameCode (es : List Event) : Prop := ∀ c c', Jumped es c → Jumped es c' →
  c.codeHash = c'.codeHash → c.code = c'.code

/-- The jump `op` to `pos` is taken in the frame if `pos` is a destination of the frame's own
code, and is refused with an error otherwise. It never panics. -/
def JumpsLocally (env : Env) (fr : Frame) (op : OpCode) (pos : Int) : Prop :=
  ∀ run evm, ∃ res, (operation op).execute env run evm fr = .ok res ∧
    (ValidDest fr.contract.code pos → res.err = none ∧ res.frame.pc = pos.toNat) ∧
    (¬ ValidDest fr.contract.code pos → ∃ opcode, res.err = some (.invalidJump opcode pos))

theorem execute_jump {op : OpCode} {fr : Frame} {pos : Int} (env : Env) (run : RunFn) (evm : Evm)
    (h : op.target fr.stack = some pos) :
    ∃ st, (operation op).execute env run evm fr = Outcome.ofOption evm (jumpTo evm fr pos st) := by
  cases op
  case JUMP =>
    obtain ⟨st, hst⟩ : ∃ st, fr.stack = pos :: st := by
      cases hs : fr.stack with
      | nil => simp [hs, OpCode.target] at h
      | cons p st =>
        simp only [hs, OpCode.target, Option.some.injEq] at h
        exact ⟨st, by rw [h]⟩
    refine ⟨st, ?_⟩
    simp only [operation, entry, simple, opJump, hst]
  case JUMPI =>
    obtain ⟨cond, st, hst, hcond⟩ : ∃ cond st, fr.stack = pos :: cond :: st ∧ cond ≠ 0 := by
      cases hs : fr.stack with
      | nil => simp [hs, OpCode.target] at h
      | cons p st =>
        cases st with
        | nil => simp [hs, OpCode.target] at h
        | cons cond st =>
          simp only [hs, OpCode.target] at h
          split_ifs at h with hcond
          cases h
          exact ⟨cond, st, rfl, hcond⟩
    refine ⟨st, ?_⟩
    simp only [operation, entry, simple, opJumpi, hst, if_pos hcond]
  all_goals
    simp [OpCode.target] at h

/-- A jump with only its own code's bitmap in the cache is decided by that code. -/
theorem jumpsLocally {env : Env} {fr : Frame} {op : OpCode} {pos : Int}
    (hcache : ∀ m, fr.contract.jumpdests fr.contract.codeHash = some m →
      BitmapOf fr.contract.code m)
    (htarget : op.target fr.stack = some pos) (h0 : 0 ≤ pos)
    (hlen : fr.contract.code.length ≤ 2^62) : JumpsLocally env fr op pos := by
  intro run evm
  obtain ⟨st, hx⟩ := execute_jump env run evm htarget
  obtain ⟨ok, d, hhas, hok⟩ := Destinations.has_eq hcache h0 hlen
  rw [hx, jumpTo, hhas]
  cases ok with
  | true =>
    have hv : ValidDest fr.contract.code pos := hok.mp rfl
    refine ⟨_, rfl, fun _ => ⟨rfl, ?_⟩, fun hn => absurd hv hn⟩
    change (uint64 pos).toNat = pos.toNat
    have hlt := hv.1
    rw [toNat_uint64]
    omega
  | false =>
    have hn : ¬ ValidDest fr.contract.code pos := fun hv => by simpa using hok.mpr hv
    exact ⟨_, rfl, fun hv => absurd hv hn, fun _ => ⟨_, rfl⟩⟩

/-- In a call tree in which no two jumping codes share a hash, every executed jump depends on the
code of its own frame only. -/
theorem jumpsLocally_of_sameCode {env : Env} {n : Nat} {e : Entry} {evm : Evm}
    {caller : ContractRef} {gas : UInt64} (hfresh : caller.jumpdests = Destinations.empty)
    (hsame : SameCode (added evm.trace (endTrace evm (e.start env n evm caller gas)))) :
    ∀ w fr op pos,
      Event.exec w fr op ∈ added evm.trace (endTrace evm (e.start env n evm caller gas)) →
      op.target fr.stack = some pos → 0 ≤ pos → fr.contract.code.length ≤ 2^62 →
      JumpsLocally env fr op pos := by
  intro w fr op pos hexec htarget h0 hlen
  have hcaller : Cached (added evm.trace evm.trace) caller.jumpdests := by
    intro h m hm
    rw [hfresh] at hm
    cases hm
  have hrun := Entry.invoke_tracks env (interpreterRun_tracks evm.trace env n) e gas
    List.prefix_rfl hcaller
  have hcached : Cached (added evm.trace (endTrace evm (e.start env n evm caller gas)))
      fr.contract.jumpdests := by
    unfold Entry.start at hexec ⊢
    cases hx : e.invoke env (interpreterRun env env.jumpTable n) evm caller gas with
    | ok r =>
      rw [hx] at hrun hexec
      exact hrun.1.tracked _ hexec
    | panic s =>
      rw [hx] at hrun hexec
      exact hrun.tracked _ hexec
    | timeout =>
      rw [hx] at hexec
      simp [endTrace] at hexec
  refine jumpsLocally (fun m hm => ?_) htarget h0 hlen
  obtain ⟨c, hc, hhash, hof⟩ := hcached _ m hm
  have hself : Jumped (added evm.trace (endTrace evm (e.start env n evm caller gas))) fr.contract :=
    ⟨w, fr, op, pos, hexec, htarget, rfl, rfl⟩
  rw [← hsame c fr.contract hc hself hhash]
  exact hof

/-- Some frame jumps, with the property. -/
def jumpsWith (p : Frame → Int → Prop) [∀ fr pos, Decidable (p fr pos)] (es : List Event) : Bool :=
  es.any fun
    | .exec _ fr op => (op.target fr.stack).any fun pos => decide (p fr pos)
    | _ => false

theorem jumpsWith_eq_true {p : Frame → Int → Prop} [∀ fr pos, Decidable (p fr pos)]
    {es : List Event} : jumpsWith p es = true ↔
      ∃ w fr op pos, Event.exec w fr op ∈ es ∧ op.target fr.stack = some pos ∧ p fr pos := by
  unfold jumpsWith
  rw [List.any_eq_true]
  constructor
  · rintro ⟨e, he, hp⟩
    cases e with
    | exec w fr op =>
      obtain ⟨pos, hpos, hp⟩ := (Option.any_eq_true ..).mp hp
      exact ⟨w, fr, op, pos, he, hpos, of_decide_eq_true hp⟩
    | _ => cases hp
  · rintro ⟨w, fr, op, pos, he, hpos, hp⟩
    exact ⟨_, he, (Option.any_eq_true ..).mpr ⟨pos, hpos, decide_eq_true hp⟩⟩

theorem sameCode_of_jumpsWith {es : List Event} (code : Bytes)
    (h : jumpsWith (fun fr _ => fr.contract.code ≠ code) es = false) : SameCode es := by
  have hcode : ∀ c, Jumped es c → c.code = code := by
    rintro c ⟨w, fr, op, pos, he, hpos, hc, -⟩
    by_contra hne
    have hany := (jumpsWith_eq_true (p := fun fr _ => fr.contract.code ≠ code)).mpr
      ⟨w, fr, op, pos, he, hpos, hc ▸ hne⟩
    rw [h] at hany
    cases hany
  intro c c' hc hc' _
  rw [hcode c hc, hcode c' hc']

/-- What a call of the contract at `0x100` adds to the trace. -/
def callTrace (db : StateDB) : List Event :=
  added (Evm.new db).trace (endTrace (Evm.new db)
    ((Entry.call 0x100 [] 0).start recursiveEnv 20 (Evm.new db) (.account 7) 100000))

/-- A caller that jumps and a callee that does not. -/
def quietCallee : StateDB := (StateDB.new.setCode 0x100 jumpAndCall).setCode 0x200 [0x60, 0, 0x00]

theorem jumpsLocally_of_sameCode_caller : ∃ w fr op,
    Event.exec w fr op ∈ callTrace quietCallee ∧ fr.contract.code = jumpAndCall ∧
    JumpsLocally recursiveEnv fr op 3 := by
  have hsame : SameCode (callTrace quietCallee) :=
    sameCode_of_jumpsWith jumpAndCall (by decide +kernel)
  have hjump : jumpsWith (fun fr pos => pos = 3 ∧ fr.contract.code = jumpAndCall)
      (callTrace quietCallee) = true := by
    decide +kernel
  obtain ⟨w, fr, op, pos, he, hpos, rfl, hcode⟩ := jumpsWith_eq_true.mp hjump
  refine ⟨w, fr, op, he, hcode, ?_⟩
  have hlen : fr.contract.code.length ≤ 2^62 := by
    rw [hcode]
    exact Nat.le_of_ble_eq_true rfl
  exact jumpsLocally_of_sameCode rfl hsame w fr op 3 he hpos (by decide) hlen

/-- Jumps to its fifth byte, which is the immediate of its second `PUSH1`. -/
def jumpToData : Bytes := [0x60, 4, 0x56, 0x60, 0x5b, 0x00]

def dataCallee : StateDB := (StateDB.new.setCode 0x100 jumpAndCall).setCode 0x200 jumpToData

theorem jumpToData_no_dest : ¬ ValidDest jumpToData 4 := by
  intro hv
  have hempty : ∀ m, Destinations.empty 0 = some m → BitmapOf jumpToData m := fun m hm => by cases hm
  obtain ⟨ok, d, hhas, hok⟩ :=
    Destinations.has_eq hempty (by decide : (0 : Int) ≤ 4) (Nat.le_of_ble_eq_true rfl)
  have hfalse : (Destinations.empty.has 0 jumpToData 4).map Prod.fst = some false := by
    decide +kernel
  rw [hhas, hok.mpr hv] at hfalse
  cases hfalse

/-- The callee's jump into its push data is taken, because it is looked up in the bitmap of the
caller: the repository's `StateDB` reports one and the same hash for both codes. -/
theorem jumpToData_taken : ∃ w fr op, Event.exec w fr op ∈ callTrace dataCallee ∧
    op.target fr.stack = some 4 ∧ ¬ ValidDest fr.contract.code 4 ∧
    (∃ d, fr.contract.jumpdests.has fr.contract.codeHash fr.contract.code 4 = some (true, d)) ∧
    ¬ JumpsLocally recursiveEnv fr op 4 := by
  have hjump : jumpsWith (fun fr pos => pos = 4 ∧ fr.contract.code = jumpToData ∧
      (fr.contract.jumpdests.has fr.contract.codeHash fr.contract.code 4).map Prod.fst = some true)
      (callTrace dataCallee) = true := by
    decide +kernel
  obtain ⟨w, fr, op, pos, he, hpos, rfl, hcode, hok⟩ := jumpsWith_eq_true.mp hjump
  have hinvalid : ¬ ValidDest fr.contract.code 4 := by
    rw [hcode]
    exact jumpToData_no_dest
  obtain ⟨⟨ok, d⟩, hhas, rfl⟩ := Option.map_eq_some_iff.mp hok
  refine ⟨w, fr, op, he, hpos, hinvalid, ⟨d, hhas⟩, fun hlocal => ?_⟩
  obtain ⟨res, hres, -, hrefused⟩ := hlocal (fun _ _ _ => .timeout) (Evm.new StateDB.new)
  obtain ⟨opcode, herr⟩ := hrefused hinvalid
  obtain ⟨st, hx⟩ := execute_jump recursiveEnv (fun _ _ _ => .timeout) (Evm.new StateDB.new) hpos
  rw [hx, jumpTo, hhas] at hres
  cases hres
  cases herr

end MiniEvm
