import MiniEvm.Detectors.ContractUtils
import MiniEvm.Vm.Bitmap
import MiniEvm.Vm.Evolution
import MiniEvm.Vm.Iterates
import MiniEvm.Vm.StackShape

namespace MiniEvm

open Math Framework

/-- The number of data bytes behind the instruction. -/
def OpCode.pushed : OpCode → Nat
  | PUSH n => n + 1
  | _ => 0

/-- The bitmap and the instruction set agree on how much data follows a byte of the code. -/
theorem pushSize_eq_pushed {b : UInt8} {op : OpCode} (h : OpCode.ofByte b = some op) :
    pushSize b = op.pushed := by
  unfold OpCode.ofByte at h
  by_cases hpush : 0x60 ≤ b ∧ b ≤ 0x7f
  · rw [if_pos hpush] at h
    cases h
    obtain ⟨hlo, hhi⟩ := hpush
    rw [UInt8.le_iff_toNat_le] at hlo hhi
    change 96 ≤ b.toNat at hlo
    change b.toNat ≤ 127 at hhi
    have hsub : (b - 0x60).toNat = b.toNat - 96 := UInt8.toNat_sub_of_le b 0x60 hlo
    have hpushed : (OpCode.PUSH (Fin.ofNat 32 (b.toNat - 96))).pushed = b.toNat - 96 + 1 := by
      simp only [OpCode.pushed, Fin.ofNat]
      omega
    have hin : isPush b = true := by
      simp only [isPush, decide_eq_true_eq, UInt8.le_iff_toNat_le]
      exact ⟨hlo, hhi⟩
    rw [pushSize, if_pos hin, UInt8.toNat_add, hsub]
    refine Eq.trans ?_ hpushed.symm
    change (b.toNat - 96 + 1) % 256 = _
    omega
  · have hout : isPush b = false := by simpa [isPush] using hpush
    rw [if_neg hpush] at h
    rw [pushSize, hout, if_neg Bool.false_ne_true]
    split_ifs at h
    · cases h
      rfl
    · cases h
      rfl
    · cases h
      rfl
    · have hsingle : ∀ p ∈ OpCode.singles, p.2.pushed = 0 := by decide
      obtain ⟨l₁, l₂, hl, -⟩ := List.lookup_eq_some_iff.mp h
      have hmem : (b, op) ∈ OpCode.singles := by rw [hl]; simp
      exact (hsingle (b, op) hmem).symm

theorem OpCode.skip_eq_pushed {op : OpCode} {k : Nat} (h : op.skip = some k) : k = op.pushed := by
  cases op <;> cases h <;> rfl

/-- The bitmap under the frame's code hash, if there is one, was computed from its own code. -/
def Frame.OwnEntry (fr : Frame) : Prop :=
  ∀ m, fr.contract.jumpdests fr.contract.codeHash = some m → codeBitmap fr.contract.code = some m

instance (fr : Frame) : Decidable fr.OwnEntry :=
  match h : fr.contract.jumpdests fr.contract.codeHash with
  | none => .isTrue fun m hm => by rw [h] at hm; cases hm
  | some m => decidable_of_iff (codeBitmap fr.contract.code = some m)
      ⟨fun hm m' hm' => by rw [h] at hm'; cases hm'; exact hm, fun own => own m h⟩

/-- A destination accepted with the frame's own bitmap starts an instruction. -/
theorem Frame.OwnEntry.has_boundary {fr : Frame} {pos : Int} {d : Destinations} (own : fr.OwnEntry)
    (h : fr.contract.jumpdests.has fr.contract.codeHash fr.contract.code pos = some (true, d)) :
    Boundary fr.contract.code (uint64 pos).toNat := by
  obtain ⟨bits, hbits, hof⟩ := codeBitmap_spec fr.contract.code
  have hown : ∀ m, fr.contract.jumpdests fr.contract.codeHash = some m →
      BitmapOf fr.contract.code m := by
    intro m hm
    obtain rfl := Option.some.inj ((own m hm).symm.trans hbits)
    exact hof
  obtain ⟨m, d', hm, hmof⟩ := Destinations.analyse_spec hown
  unfold Destinations.has at h
  simp only at h
  by_cases hout : bitLen pos ≥ 63 ∨ (uint64 pos).toNat ≥ fr.contract.code.length
  · rw [if_pos hout] at h
    cases h
  have hin : (uint64 pos).toNat < fr.contract.code.length := by omega
  have hseg : m.codeSegment (uint64 pos).toNat = some (!m.bit (uint64 pos).toNat) :=
    Bitvec.codeSegment_eq (by rw [hmof.length]; omega)
  rw [if_neg hout, hm, Option.bind_some] at h
  by_cases hdest : fr.contract.code[(uint64 pos).toNat]? = some 0x5b
  · simp only [if_pos hdest, hseg, Option.map_some, Option.some.injEq, Prod.mk.injEq,
      Bool.not_eq_true'] at h
    by_contra hno
    rw [(hmof.bit _ hin).mpr hno] at h
    cases h.1
  · simp only [if_neg hdest] at h
    cases h

/-- A jump that is taken lands on an instruction. -/
theorem jumpTo_boundary {evm : Evm} {fr : Frame} {pos : Int} {st : Stack} {r : ExecResult}
    (own : fr.OwnEntry) (h : jumpTo evm fr pos st = some r) (herr : r.err = none) :
    Boundary fr.contract.code r.frame.pc := by
  obtain ⟨⟨ok, d⟩, hhas, rfl⟩ := Option.map_eq_some_iff.mp h
  cases ok with
  | false => cases herr
  | true => exact own.has_boundary hhas

theorem nextPc_eq {fr : Frame} {op : OpCode}
    (hop : OpCode.ofByte (fr.contract.getByte fr.pc) = some op) :
    nextPc fr.contract.code fr.pc = fr.pc + 1 + op.pushed := by
  rw [nextPc, ← pushSize_eq_pushed hop]
  rfl

/-- What executing an instruction does to a program counter at a boundary. -/
theorem execute_boundary {op : OpCode} {env : Env} {run : RunFn} {evm : Evm} {fr : Frame}
    {res : ExecResult} (hc : op.isCall = false) (own : fr.OwnEntry)
    (hop : OpCode.ofByte (fr.contract.getByte fr.pc) = some op)
    (hvalid : (operation op).pop ≤ fr.stack.length) (hb : Boundary fr.contract.code fr.pc)
    (h : (operation op).execute env run evm fr = .ok res) (herr : res.err = none) :
    Boundary fr.contract.code (if (operation op).jumps then res.frame.pc else res.frame.pc + 1) := by
  have hnext := hb.next
  rw [nextPc_eq hop] at hnext
  cases hskip : op.skip with
  | none =>
    cases op
    case JUMP =>
      simp only [operation, entry] at h
      replace h := simple_eq_ok.mp h
      unfold opJump at h
      split at h
      · exact jumpTo_boundary own h herr
      · cases h
    case JUMPI =>
      simp only [operation, entry] at h
      replace h := simple_eq_ok.mp h
      unfold opJumpi at h
      split at h
      · split_ifs at h
        · exact jumpTo_boundary own h herr
        · cases h
          exact hnext
      · cases h
    all_goals cases hskip
  | some k =>
    have hjumps : (operation op).jumps = false := by
      cases op <;> first | rfl | cases hskip
    obtain ⟨f, hf, hshape⟩ := execute_shaped hc
    have hsplit := List.take_append_drop (operation op).pop fr.stack
    have hlen : (fr.stack.take (operation op).pop).length = (operation op).pop := by
      rw [List.length_take, Nat.min_eq_left hvalid]
    have hreads := hshape.reads env evm fr _ (fr.stack.drop (operation op).pop) hlen
    rw [hsplit] at hreads
    rw [hf] at h
    obtain ⟨r, hr, rfl⟩ := Option.map_eq_some_iff.mp (hreads.symm.trans (simple_eq_ok.mp h))
    have hpc : r.frame.pc = fr.pc + k := (hshape.leaves env evm fr _ r hlen hr).pc k hskip
    rw [hjumps, if_neg Bool.false_ne_true]
    change Boundary fr.contract.code (r.frame.pc + 1)
    rw [hpc, OpCode.skip_eq_pushed hskip, Nat.add_right_comm]
    exact hnext

/-- An iteration that goes on moves from a boundary to a boundary. -/
theorem step_boundary {env : Env} {run : RunFn} {evm evm' : Evm} {fr fr' : Frame}
    (own : fr.OwnEntry) (hb : Boundary fr.contract.code fr.pc)
    (h : step env env.jumpTable run evm fr = .ok (.next evm' fr')) :
    fr'.contract.code = fr.contract.code ∧ Boundary fr'.contract.code fr'.pc := by
  have hcode : fr'.contract.code = fr.contract.code := by
    have hfixed := congrArg Contract.code (step_next h).2
    exact hfixed
  rw [hcode]
  refine ⟨rfl, ?_⟩
  generalize hs : StepResult.next evm' fr' = s at h
  cases step_cases h with
  | rejected | unpaid => cases hs
  | @simple op n evm1 fr1 res ready hc charged executed =>
    obtain ⟨herr, rfl⟩ := finish_eq_next hs.symm
    have spec := charge_spec charged
    have ready' := ready.charged spec
    have hcontract : (fr1.expand n).contract =
        { fr.contract with gas := (fr1.expand n).contract.gas } := by
      rw [Frame.expand_contract]
      exact spec.contract
    have hpc : (fr1.expand n).pc = fr.pc := by rw [Frame.expand_pc, spec.pc]
    have hcode1 : (fr1.expand n).contract.code = fr.contract.code := by rw [hcontract]
    have own' : (fr1.expand n).OwnEntry := by
      unfold Frame.OwnEntry
      rw [hcontract]
      exact own
    have hpop : (operation op).pop ≤ (fr1.expand n).stack.length := by
      have hv := ready'.valid
      unfold Stack.validate at hv
      split_ifs at hv
      omega
    rw [← hcode1]
    exact execute_boundary hc own' ready'.opcode hpop (by rw [hcode1, hpc]; exact hb) executed herr
  | @call op n evm1 fr1 i r res ready hc charged invocation invoked resumed =>
    obtain ⟨herr, rfl⟩ := finish_eq_next hs.symm
    have hpc : res.frame.pc = fr.pc := by
      rw [(OpCode.resume_spec resumed).pc, Frame.expand_pc, (charge_spec charged).pc]
    have hjumps : (operation op).jumps = false := by
      cases op <;> first | rfl | cases hc
    have hpushed : op.pushed = 0 := by
      cases op <;> first | rfl | cases hc
    have hnext := hb.next
    rw [nextPc_eq ready.opcode, hpushed] at hnext
    simp only [hjumps, hpc]
    exact hnext

/-- The byte at a boundary inside the code is not marked in the bitmap. -/
theorem Boundary.codeSegment {code : Bytes} {pc : Nat} (hb : Boundary code pc)
    (hpc : pc < code.length) :
    ∃ bits, codeBitmap code = some bits ∧ bits.codeSegment pc = some true := by
  obtain ⟨bits, hbits, hof⟩ := codeBitmap_spec code
  refine ⟨bits, hbits, ?_⟩
  have hbit : bits.bit pc = false := by
    by_contra hset
    exact (hof.bit pc hpc).mp (Bool.eq_true_of_not_eq_false hset) hb
  rw [Bitvec.codeSegment_eq (by rw [hof.length]; omega), hbit]
  rfl

/-- In a frame whose destinations come from its own code the interpreter never executes push data. -/
theorem pc_at_boundary {env : Env} {run : RunFn} {evm₀ evm : Evm} {c : Contract} {input : Bytes}
    {xs : List Unit} {fr : Frame}
    (h : Iterates env run (fun _ fr => fr.OwnEntry) (fun _ _ => ()) evm₀ (Frame.start c input) xs
      evm fr) :
    fr.contract.code = c.code ∧ (c.code.length ≤ fr.pc ∨ Boundary c.code fr.pc ∧
      ∃ bits, codeBitmap c.code = some bits ∧ bits.codeSegment fr.pc = some true) := by
  have hinv : fr.contract.code = c.code ∧ Boundary fr.contract.code fr.pc := by
    induction h with
    | start => exact ⟨rfl, .zero _⟩
    | step before own next ih =>
      obtain ⟨hcode, hb⟩ := step_boundary own ih.2 next
      exact ⟨hcode.trans ih.1, hb⟩
  obtain ⟨hcode, hb⟩ := hinv
  rw [hcode] at hb
  refine ⟨hcode, ?_⟩
  by_cases hpc : fr.pc < c.code.length
  · exact .inr ⟨hb, hb.codeSegment hpc⟩
  · exact .inl (Nat.le_of_not_lt hpc)

/-- Jumps over the data of a push to a destination behind it. -/
def jumpOverData : Contract :=
  (Contract.new (.account 7) 0x100 0 100000).setCallCode 0x100 0 [0x60, 6, 0x56, 0x61, 0x5b, 0x5b,
    0x5b, 0x7f]

theorem pc_at_boundary_jumpOverData : ∃ xs evm fr,
    Iterates sampleEnv (interpreterRun sampleEnv sampleEnv.jumpTable 0) (fun _ fr => fr.OwnEntry)
      (fun _ _ => ()) (Evm.new StateDB.new) (Frame.start jumpOverData []) xs evm fr ∧ fr.pc = 7 ∧
    (jumpOverData.code.length ≤ fr.pc ∨ Boundary jumpOverData.code fr.pc ∧
      ∃ bits, codeBitmap jumpOverData.code = some bits ∧ bits.codeSegment fr.pc = some true) := by
  have hrun : ((iterate sampleEnv (interpreterRun sampleEnv sampleEnv.jumpTable 0)
      (fun _ fr => fr.OwnEntry) (fun _ _ => ()) (Evm.new StateDB.new)
      (Frame.start jumpOverData []) 3).any fun x => x.2.2.pc = 7) = true := by
    decide +kernel
  obtain ⟨⟨xs, evm, fr⟩, hx, hp⟩ := Option.any_eq_true .. |>.mp hrun
  have h := iterate_iterates hx
  exact ⟨xs, evm, fr, h, of_decide_eq_true hp, (pc_at_boundary h).2⟩

end MiniEvm
