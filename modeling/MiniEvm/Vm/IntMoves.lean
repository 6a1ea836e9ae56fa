import MiniEvm.Vm.Effects
import MiniEvm.Vm.IntPool

namespace MiniEvm

open Math Framework IntProg

/-! ## What instructions do to the integers -/

/-- On values, the program of an instruction leaves the stack that the instruction leaves. -/
def SimpleFn.Moves (f : SimpleFn) (p : Env → Int → Bool → CellProg Int) : Prop :=
  ∀ env evm fr res, f env evm fr = some res →
    (p env (res.frame.stack.headD 0) res.err.isNone).Leaves fr.contract.value ⟨[], fr.stack⟩
      res.frame.stack

section Moves

variable {f : SimpleFn}

theorem pushOp_moves (f : Env → Evm → Frame → Int) :
    (pushOp f).Moves (fun _ out _ => pushNew out) ∧
      (pushOp f).Moves (fun _ out _ => pushPooled (const out)) := by
  constructor
  · intro env evm fr res h
    cases h
    exact ⟨_, rfl⟩
  · intro env evm fr res h
    cases h
    exact ⟨_, rfl⟩

theorem opCallValue_moves : opCallValue.Moves fun _ _ _ => pushPooled callValue := by
  intro env evm fr res h
  cases h
  exact ⟨_, rfl⟩

/-- A program that turns every top item into what the instruction leaves. -/
theorem unaryOp_moves {f : Env → Evm → Frame → Int → Int} {p : Env → Int → CellProg Int}
    (h : ∀ env evm fr x st v, (p env (f env evm fr x)).Leaves v ⟨[], x :: st⟩ (f env evm fr x :: st)) :
    (unaryOp f).Moves fun env out _ => p env out := by
  intro env evm fr res hres
  unfold unaryOp at hres
  split at hres
  · rename_i x st hst
    cases hres
    rw [hst]
    exact h env evm fr x st _
  · cases hres

theorem readOp_moves {f : Frame → Int → Option Bytes} {p : Int → CellProg Int}
    (h : ∀ out x st v, (p out).Leaves v ⟨[], x :: st⟩ (out :: st)) :
    (readOp f).Moves fun _ out _ => p out := by
  intro env evm fr res hres
  unfold readOp at hres
  split at hres
  · rename_i x st hst
    obtain ⟨b, -, rfl⟩ := Option.map_eq_some_iff.mp hres
    rw [hst]
    exact h _ x st _
  · cases hres

theorem binaryOp_moves {f : Int → Int → Int} {p : CellProg Int}
    (h : ∀ x y st v, p.Leaves v ⟨[], x :: y :: st⟩ (f x y :: st)) :
    (binaryOp f).Moves fun _ _ _ => p := by
  intro env evm fr res hres
  unfold binaryOp at hres
  split at hres
  · rename_i x y st hst
    cases hres
    rw [hst]
    exact h x y st _
  · cases hres

theorem ternaryOp_moves {f : Int → Int → Int → Int} {p : CellProg Int}
    (h : ∀ x y z st v, p.Leaves v ⟨[], x :: y :: z :: st⟩ (f x y z :: st)) :
    (ternaryOp f).Moves fun _ _ _ => p := by
  intro env evm fr res hres
  unfold ternaryOp at hres
  split at hres
  · rename_i x y z st hst
    cases hres
    rw [hst]
    exact h x y z st _
  · cases hres

theorem arithOp_moves (key : String) (f : Int → Int → Int) :
    (arithOp key f).Moves fun _ _ _ => wrapped f := by
  intro env evm fr res h
  unfold arithOp at h
  split at h
  · rename_i x y st hst
    cases h
    rw [hst]
    exact ⟨_, rfl⟩
  · cases h

theorem opDiv_moves : opDiv.Moves OpCode.DIV.cells := by
  intro env evm fr res h
  unfold opDiv at h
  split at h
  · rename_i x y st hst
    rw [hst]
    have hp : test 1 (fun v => v ≠ 0) fr.contract.value ⟨[some x, some y], st⟩ =
      some (decide (y ≠ 0)) := rfl
    refine CellProg.Leaves.branch hp ?_ ?_
    · intro hy
      rw [if_pos (of_decide_eq_true hy)] at h
      cases h
      exact ⟨_, rfl⟩
    · intro hy
      rw [if_neg (of_decide_eq_false hy)] at h
      cases h
      exact ⟨_, rfl⟩
  · cases h

theorem opMod_moves : opMod.Moves OpCode.MOD.cells := by
  refine binaryOp_moves fun x y st v => ?_
  have hp : test 1 (fun v => v = 0) v ⟨[some x, some y], st⟩ = some (decide (y = 0)) := rfl
  refine CellProg.Leaves.branch hp ?_ ?_
  · intro hy
    rw [if_pos (of_decide_eq_true hy)]
    exact ⟨_, rfl⟩
  · intro hy
    rw [if_neg (of_decide_eq_false hy)]
    exact ⟨_, rfl⟩

/-- `math.S256` of a variable, and what follows for whichever integer it gives. -/
theorem signed_leaves {r n : Nat} {k : Nat → Nat → CellProg Int} {v x : Int} {w : Work Int}
    {st : Stack} (hr : w.var r = some x) (hn : w.vars.length = n)
    (hk : ∀ i m (w' : Work Int), w'.var i = some (s256 x) → w'.vars.length = m → w'.stack = w.stack →
      (∀ j y, j ≠ r → w.var j = some y → j ≠ i ∧ w'.var j = some y) → (k i m).Leaves v w' st) :
    (signed r n k).Leaves v w st := by
  have hp : test r (fun x => x < tt255) v w = some (decide (x < tt255)) := by rw [test, hr]; rfl
  have hnew : arg r s256 v w = some (s256 x) := by rw [arg, hr]; rfl
  refine .branch hp ?_ ?_
  · intro hlow
    have hsame : s256 x = x := if_pos (of_decide_eq_true hlow)
    exact hk r n w (hr.trans (congrArg some hsame.symm)) hn rfl fun j y hj hy => ⟨hj, hy⟩
  · intro _
    subst hn
    refine (CellProg.Leaves.bind hnew ?_).2
    refine hk _ _ _ (w.var_bind_length _) (by simp [Work.bind]) rfl ?_
    intro j y hj hy
    exact ⟨(Work.lt_of_var hy).ne, Work.var_bind_of_some hy⟩

/-- Two operands are popped and read as signed. -/
theorem signedPair_leaves {k : Nat → Nat → Nat → CellProg Int} {v x y : Int} {st st' : Stack}
    (hk : ∀ i j m (w : Work Int), w.var i = some (s256 x) → w.var j = some (s256 y) → i ≠ j →
      w.vars.length = m → w.stack = st → (k i j m).Leaves v w st') :
    (CellProg.pop (signed 0 1 fun i n => .pop (signed n (n + 1) fun j m => k i j m))).Leaves v
      ⟨[], x :: y :: st⟩ st' := by
  refine .pop rfl ?_
  refine signed_leaves rfl rfl ?_
  intro i n w hi hn hst _
  refine .pop hst ?_
  subst hn
  have hy := ({ w with stack := st } : Work Int).var_bind_length y
  have hi' : (({ w with stack := st } : Work Int).bind y).var i = some (s256 x) :=
    Work.var_bind_of_some hi
  refine signed_leaves hy (by simp [Work.bind]) ?_
  intro j m w' hj hm hst' hothers
  obtain ⟨hne, hi''⟩ := hothers i _ (Work.lt_of_var hi).ne hi'
  exact hk i j m w' hi'' hj hne hm hst'

theorem compared_leaves {x y n : Nat} {p : Int → Int → Bool} {v a b : Int} {w : Work Int}
    (hx : w.var x = some a) (hy : w.var y = some b) (hne : x ≠ y) (hn : w.vars.length = n) :
    (compared x y n p).Leaves v w ((if p a b then 1 else 0) :: w.stack) := by
  have hp : test2 x y p v w = some (p a b) := by rw [test2, hx, hy]; rfl
  have hgive : ∀ c : Int, (CellProg.push n (.put [x, y] .done)).Leaves v (w.bind c) (c :: w.stack) := by
    intro c
    subst hn
    refine .push (w.var_bind_length c) (.put (by simpa using hne) ?_ rfl)
    have hmoved : ∀ r d, w.var r = some d → ((w.bind c).move w.vars.length).var r = some d := by
      intro r d hr
      rw [Work.var_move_of_ne (Work.lt_of_var hr).ne]
      exact Work.var_bind_of_some hr
    intro r hr
    rcases List.mem_pair.mp hr with rfl | rfl
    · exact Option.isSome_iff_exists.mpr ⟨a, hmoved _ _ hx⟩
    · exact Option.isSome_iff_exists.mpr ⟨b, hmoved _ _ hy⟩
  refine .branch hp ?_ ?_
  · intro htrue
    rw [htrue]
    exact (CellProg.Leaves.bind rfl (hgive 1)).1
  · intro hfalse
    rw [hfalse]
    exact (CellProg.Leaves.bind rfl (hgive 0)).2

theorem arg_eq {v c : Int} {w : Work Int} {r : Nat} (hr : w.var r = some c) (g : Int → Int) :
    arg r g v w = some (g c) := by
  rw [arg, hr]
  rfl

theorem arg2_eq {v c d : Int} {w : Work Int} {r t : Nat} (hr : w.var r = some c)
    (ht : w.var t = some d) (g : Int → Int → Int) : arg2 r t g v w = some (g c d) := by
  rw [arg2, hr, ht]
  rfl

/-- Three different variables: two operands and a sign. -/
structure Operands (w : Work Int) (x y n : Nat) (a b s : Int) : Prop where
  left : w.var x = some a
  right : w.var y = some b
  sign : w.var n = some s
  ne : x ≠ y ∧ x ≠ n ∧ y ≠ n

namespace Operands

variable {w : Work Int} {x y n : Nat} {a b s : Int}

theorem assignLeft (h : Operands w x y n a b s) (c : Int) : Operands (w.assign x c) x y n c b s :=
  ⟨Work.var_assign h.left, (Work.var_assign_of_ne h.ne.1.symm).trans h.right,
    (Work.var_assign_of_ne h.ne.2.1.symm).trans h.sign, h.ne⟩

theorem assignRight (h : Operands w x y n a b s) (c : Int) : Operands (w.assign y c) x y n a c s :=
  ⟨(Work.var_assign_of_ne h.ne.1).trans h.left, Work.var_assign h.right,
    (Work.var_assign_of_ne h.ne.2.2.symm).trans h.sign, h.ne⟩

theorem assignSign (h : Operands w x y n a b s) (c : Int) : Operands (w.assign n c) x y n a b c :=
  ⟨(Work.var_assign_of_ne h.ne.2.1).trans h.left, (Work.var_assign_of_ne h.ne.2.2).trans h.right,
    Work.var_assign h.sign, h.ne⟩

theorem bind (h : Operands w x y n a b s) (c : Int) : Operands (w.bind c) x y n a b s :=
  ⟨Work.var_bind_of_some h.left, Work.var_bind_of_some h.right, Work.var_bind_of_some h.sign, h.ne⟩

/-- A further variable is the sign. -/
theorem of_vars (hx : w.var x = some a) (hy : w.var y = some b) (hne : x ≠ y) (c : Int) :
    Operands (w.bind c) x y w.vars.length a b c :=
  ⟨Work.var_bind_of_some hx, Work.var_bind_of_some hy, w.var_bind_length c,
    hne, (Work.lt_of_var hx).ne, (Work.lt_of_var hy).ne⟩

/-- The operands become absolute values, and the first one then the result. -/
theorem signedResult (h : Operands w x y n a b s) (f : Int → Int → Int) (v : Int) :
    (signedResult x y n f).Leaves v w (u256 (f a.natAbs b.natAbs * s) :: w.stack) := by
  have h₁ := h.assignLeft a.natAbs
  have h₂ := h₁.assignRight b.natAbs
  have h₃ := h₂.assignLeft (f a.natAbs b.natAbs)
  have h₄ := h₃.assignLeft (f a.natAbs b.natAbs * s)
  have h₅ := h₄.assignLeft (u256 (f a.natAbs b.natAbs * s))
  refine .set h.left (arg_eq h.left _) (.set h₁.right (arg_eq h₁.right _) ?_)
  refine .set h₂.left (arg2_eq h₂.left h₂.right f) (.set h₃.left (arg2_eq h₃.left h₃.sign _) ?_)
  refine .set h₄.left (arg_eq h₄.left _) (.push h₅.left (.put (List.nodup_singleton y) ?_ rfl))
  intro r hr
  obtain rfl := List.mem_singleton.mp hr
  have hr' : (Work.move _ x).var r = some (b.natAbs : Int) :=
    (Work.var_move_of_ne h.ne.1.symm).trans h₅.right
  exact Option.isSome_iff_exists.mpr ⟨_, hr'⟩

/-- The sign is chosen first. -/
theorem chooseSign (h : Operands w x y n a b s) (f : Int → Int → Int) {v : Int} {neg : Bool}
    {p : Int → Work Int → Option Bool} (hp : p v w = some neg) :
    (CellProg.branch p (.set n (const (-1)) (MiniEvm.signedResult x y n f))
      (.set n (const 1) (MiniEvm.signedResult x y n f))).Leaves v w
        (u256 (f a.natAbs b.natAbs * (if neg then -1 else 1)) :: w.stack) := by
  refine .branch hp ?_ ?_
  · rintro rfl
    exact .set h.sign rfl ((h.assignSign (-1)).signedResult f v)
  · rintro rfl
    exact .set h.sign rfl ((h.assignSign 1).signedResult f v)

end Operands

theorem opSdiv_moves : opSdiv.Moves OpCode.SDIV.cells := by
  refine binaryOp_moves fun x y st v => signedPair_leaves ?_
  intro i j m w hi hj hne hm hst
  subst hst hm
  have hp : test j (fun v => v = 0) v w = some (decide (s256 y = 0)) := by rw [test, hj]; rfl
  simp only
  refine .branch hp ?_ ?_
  · intro hy
    rw [if_pos (of_decide_eq_true hy)]
    exact (CellProg.Leaves.bind rfl (.push (w.var_bind_length 0) ⟨_, rfl⟩)).2
  · intro hy
    rw [if_neg (of_decide_eq_false hy)]
    have hops := Operands.of_vars hi hj hne 0
    have hprod := arg2_eq (v := v) hops.left hops.right fun a b => a * b
    have hlast := (w.bind 0).var_bind_length (s256 x * s256 y)
    have hneg : test (w.vars.length + 1) (fun v => v < 0) v ((w.bind 0).bind (s256 x * s256 y)) =
        some (decide (s256 x * s256 y < 0)) := by
      have hlen : (w.bind 0).vars.length = w.vars.length + 1 := by simp [Work.bind]
      rw [hlen] at hlast
      rw [test, hlast]
      rfl
    have hsign := (hops.bind (s256 x * s256 y)).chooseSign (fun a b => a / b) hneg
    simp only [decide_eq_true_eq] at hsign
    exact (CellProg.Leaves.bind rfl (CellProg.Leaves.bind hprod hsign).1).2

theorem opSmod_moves : opSmod.Moves OpCode.SMOD.cells := by
  refine binaryOp_moves fun x y st v => signedPair_leaves ?_
  intro i j m w hi hj hne hm hst
  subst hst hm
  have hp : test j (fun v => v = 0) v w = some (decide (s256 y = 0)) := by rw [test, hj]; rfl
  simp only
  refine .branch hp ?_ ?_
  · intro hy
    rw [if_pos (of_decide_eq_true hy)]
    refine (CellProg.Leaves.bind rfl (.push (w.var_bind_length 0) (.put (List.nodup_singleton j) ?_ rfl))).2
    intro r hr
    obtain rfl := List.mem_singleton.mp hr
    have hr' : ((w.bind 0).move w.vars.length).var r = some (s256 y) :=
      (Work.var_move_of_ne (Work.lt_of_var hj).ne).trans (Work.var_bind_of_some hj)
    exact Option.isSome_iff_exists.mpr ⟨_, hr'⟩
  · intro hy
    rw [if_neg (of_decide_eq_false hy)]
    have hops := Operands.of_vars hi hj hne 0
    have hneg : test i (fun v => v < 0) v (w.bind 0) = some (decide (s256 x < 0)) := by
      rw [test, hops.left]
      rfl
    have hsign := hops.chooseSign (fun a b => a % b) hneg
    simp only [decide_eq_true_eq] at hsign
    exact (CellProg.Leaves.bind rfl hsign).2

theorem compare_moves (p : Int → Int → Prop) [∀ x y, Decidable (p x y)] :
    (binaryOp fun x y => if p x y then 1 else 0).Moves
      fun _ _ _ => .pop (.pop (compared 0 1 2 fun x y => decide (p x y))) := by
  refine binaryOp_moves fun x y st v => .pop rfl (.pop rfl ?_)
  have hk := compared_leaves (p := fun x y => decide (p x y)) (v := v) (w := ⟨[some x, some y], st⟩)
    rfl rfl Nat.zero_ne_one rfl
  simp only [decide_eq_true_eq] at hk
  exact hk

theorem opSlt_moves : opSlt.Moves OpCode.SLT.cells := by
  refine binaryOp_moves fun x y st v => signedPair_leaves ?_
  intro i j m w hi hj hne hm hst
  subst hst
  have hk := compared_leaves (p := fun a b => a < s256 b) (v := v) hi hj hne hm
  simp only [decide_eq_true_eq] at hk
  exact hk

theorem opSgt_moves : opSgt.Moves OpCode.SGT.cells := by
  refine binaryOp_moves fun x y st v => signedPair_leaves ?_
  intro i j m w hi hj hne hm hst
  subst hst
  have hk := compared_leaves (p := fun a b => a > b) (v := v) hi hj hne hm
  simp only [decide_eq_true_eq] at hk
  exact hk

theorem opIszero_moves : opIszero.Moves OpCode.ISZERO.cells := by
  refine unaryOp_moves fun env evm fr x st v => ?_
  have hp : test 0 (fun x => x > 0) v ⟨[some x], st⟩ = some (decide (x > 0)) := rfl
  refine CellProg.Leaves.branch hp ?_ ?_
  · intro hx
    rw [if_pos (of_decide_eq_true hx)]
    exact ⟨_, rfl⟩
  · intro hx
    rw [if_neg (of_decide_eq_false hx)]
    exact ⟨_, rfl⟩

theorem modular_moves (f : Int → Int → Int) :
    (ternaryOp fun x y z => if z > 0 then u256 (f x y % z) else 0).Moves fun _ _ _ => cellsModular f := by
  refine ternaryOp_moves fun x y z st v => ?_
  have hp : test 2 (fun z => z > 0) v ⟨[some x, some y, some z], st⟩ = some (decide (z > 0)) := rfl
  refine CellProg.Leaves.branch hp ?_ ?_
  · intro hz
    rw [if_pos (of_decide_eq_true hz)]
    exact ⟨_, rfl⟩
  · intro hz
    rw [if_neg (of_decide_eq_false hz)]
    exact ⟨_, rfl⟩

theorem opSignExtend_moves : opSignExtend.Moves OpCode.SIGNEXTEND.cells := by
  intro env evm fr res h
  unfold opSignExtend at h
  split at h
  · rename_i back st hst
    rw [hst]
    have hp : test 0 (fun back => back < 31) fr.contract.value ⟨[some back], st⟩ =
        some (decide (back < 31)) := rfl
    refine CellProg.Leaves.branch hp ?_ ?_
    · intro hback
      rw [if_pos (of_decide_eq_true hback)] at h
      split at h
      · rename_i num st
        have hbit : test2 0 1 (fun back num => num.testBit (uint64 back * 8 + 7).toNat) fr.contract.value
            ⟨[some back, some num], st⟩ = some (num.testBit (uint64 back * 8 + 7).toNat) := rfl
        obtain ⟨-, h⟩ := Option.ite_none_right_eq_some.mp h
        cases h
        refine CellProg.Leaves.branch hbit ?_ ?_
        · intro hset
          simp only [stackResult, Frame.withStack, if_pos hset]
          exact ⟨_, rfl⟩
        · intro hclear
          simp only [stackResult, Frame.withStack, hclear, Bool.false_eq_true, if_false]
          exact ⟨_, rfl⟩
      · cases h
    · intro hback
      rw [if_neg (of_decide_eq_false hback)] at h
      cases h
      exact ⟨_, rfl⟩
  · cases h

/-- Several operands are popped. -/
theorem pops_leaves {n : Nat} {k : CellProg Int} {v : Int} {w : Work Int} {st : Stack}
    (hn : n ≤ w.stack.length)
    (hk : k.Leaves v ⟨w.vars ++ (w.stack.take n).map some, w.stack.drop n⟩ st) :
    (pops n k).Leaves v w st := by
  induction n generalizing w with
  | zero => simpa [pops] using hk
  | succ n ih =>
    obtain ⟨x, rest, hst⟩ := List.exists_cons_of_length_pos (Nat.zero_lt_of_lt hn)
    rw [hst] at hn hk
    refine .pop hst (ih (Nat.le_of_succ_le_succ hn) ?_)
    simpa [Work.bind] using hk

theorem copyToMemory_stack {data : Bytes} {evm : Evm} {fr : Frame} {memOffset dataOffset l : Int}
    {st : Stack} {r : ExecResult} (h : copyToMemory data evm fr memOffset dataOffset l st = some r) :
    r.frame.stack = st := by
  obtain ⟨b, -, h⟩ := Option.bind_eq_some_iff.mp h
  obtain ⟨m, -, rfl⟩ := Option.map_eq_some_iff.mp h
  rfl

theorem copyOp_moves (data : Frame → Bytes) :
    (copyOp data).Moves fun _ _ _ => pops 3 (.put [0, 1, 2] .done) := by
  intro env evm fr res h
  unfold copyOp at h
  split at h
  · rename_i hst
    rw [hst, copyToMemory_stack h]
    exact ⟨_, rfl⟩
  · cases h

theorem opExtCodeCopy_moves : opExtCodeCopy.Moves OpCode.EXTCODECOPY.cells := by
  intro env evm fr res h
  unfold opExtCodeCopy at h
  split at h
  · rename_i hst
    rw [hst, copyToMemory_stack h]
    exact ⟨_, rfl⟩
  · cases h

theorem opReturnDataCopy_moves : opReturnDataCopy.Moves OpCode.RETURNDATACOPY.cells := by
  intro env evm fr res h
  unfold opReturnDataCopy at h
  split at h
  · rename_i st hst
    rw [hst]
    simp only at h
    split_ifs at h
    · cases h
      exact ⟨_, rfl⟩
    · obtain ⟨b, -, h⟩ := Option.bind_eq_some_iff.mp h
      obtain ⟨m, -, rfl⟩ := Option.map_eq_some_iff.mp h
      exact ⟨_, rfl⟩
  · cases h

theorem opSha3_moves : opSha3.Moves OpCode.SHA3.cells := by
  intro env evm fr res h
  unfold opSha3 at h
  split at h
  · rename_i hst
    obtain ⟨data, -, rfl⟩ := Option.map_eq_some_iff.mp h
    rw [hst]
    exact ⟨_, rfl⟩
  · cases h

theorem opBalance_moves : opBalance.Moves OpCode.BALANCE.cells := by
  intro env evm fr res h
  unfold opBalance at h
  split at h
  · rename_i hst
    cases h
    rw [hst]
    exact ⟨_, rfl⟩
  · cases h

theorem opSload_moves : opSload.Moves OpCode.SLOAD.cells := by
  intro env evm fr res h
  unfold opSload at h
  split at h
  · rename_i hst
    cases h
    rw [hst]
    exact ⟨_, rfl⟩
  · cases h

theorem opSstore_moves : opSstore.Moves OpCode.SSTORE.cells := by
  intro env evm fr res h
  unfold opSstore at h
  split at h
  · rename_i hst
    cases h
    rw [hst]
    exact ⟨_, rfl⟩
  · cases h

theorem opPop_moves : opPop.Moves OpCode.POP.cells := by
  intro env evm fr res h
  unfold opPop at h
  split at h
  · rename_i hst
    cases h
    rw [hst]
    exact ⟨_, rfl⟩
  · cases h

theorem opMstore_moves : opMstore.Moves OpCode.MSTORE.cells := by
  intro env evm fr res h
  unfold opMstore at h
  split at h
  · rename_i hst
    obtain ⟨m, -, rfl⟩ := Option.map_eq_some_iff.mp h
    rw [hst]
    exact ⟨_, rfl⟩
  · cases h

theorem opMstore8_moves : opMstore8.Moves OpCode.MSTORE8.cells := by
  intro env evm fr res h
  unfold opMstore8 at h
  split at h
  · rename_i hst
    obtain ⟨-, h⟩ := Option.ite_none_right_eq_some.mp h
    cases h
    rw [hst]
    exact ⟨_, rfl⟩
  · cases h

theorem jumpTo_stack {evm : Evm} {fr : Frame} {pos : Int} {st : Stack} {r : ExecResult}
    (h : jumpTo evm fr pos st = some r) : r.frame.stack = st := by
  obtain ⟨⟨ok, d⟩, -, rfl⟩ := Option.map_eq_some_iff.mp h
  cases ok <;> rfl

/-- Whether or not the operands go back to the pool. -/
theorem opJump_moves : opJump.Moves OpCode.JUMP.cells := by
  intro env evm fr res h
  unfold opJump at h
  split at h
  · rename_i hst
    rw [hst, jumpTo_stack h]
    cases res.err <;> exact ⟨_, rfl⟩
  · cases h

theorem opJumpi_moves : opJumpi.Moves OpCode.JUMPI.cells := by
  intro env evm fr res h
  unfold opJumpi at h
  split at h
  · rename_i pos cond st hst
    have hstack : res.frame.stack = st := by
      split_ifs at h
      · exact jumpTo_stack h
      · cases h
        rfl
    rw [hst, hstack]
    cases res.err <;> exact ⟨_, rfl⟩
  · cases h

theorem opReturn_moves : opReturn.Moves fun _ _ _ => pops 2 (.put [0, 1] .done) := by
  intro env evm fr res h
  unfold opReturn at h
  split at h
  · rename_i hst
    obtain ⟨data, -, rfl⟩ := Option.map_eq_some_iff.mp h
    rw [hst]
    exact ⟨_, rfl⟩
  · cases h

theorem opStop_moves : opStop.Moves fun _ _ _ => .done := by
  intro env evm fr res h
  cases h
  exact ⟨_, rfl⟩

theorem opSuicide_moves : opSuicide.Moves OpCode.SELFDESTRUCT.cells := by
  intro env evm fr res h
  unfold opSuicide at h
  split at h
  · rename_i hst
    cases h
    rw [hst]
    exact ⟨_, rfl⟩
  · cases h

theorem makeLog_moves (n : Nat) : (makeLog n).Moves fun _ _ _ => pops (n + 2) (.put [0, 1] .done) := by
  intro env evm fr res h
  unfold makeLog at h
  split at h
  · rename_i mStart mSize st hst
    split_ifs at h with hn
    obtain ⟨data, -, rfl⟩ := Option.map_eq_some_iff.mp h
    rw [hst]
    refine pops_leaves (by simpa using hn) ?_
    exact ⟨_, rfl⟩
  · cases h

theorem makePush_moves (n : Nat) : (makePush n).Moves fun _ out _ => pushPooled (const out) := by
  intro env evm fr res h
  obtain ⟨b, -, rfl⟩ := Option.map_eq_some_iff.mp h
  exact ⟨_, rfl⟩

theorem makeDup_moves (n : Nat) : (makeDup (n + 1)).Moves fun _ _ _ => pushPooled (item n) := by
  intro env evm fr res h
  obtain ⟨x, hx, rfl⟩ := Option.map_eq_some_iff.mp h
  have hitem : item n fr.contract.value ⟨[], fr.stack⟩ = some x := hx
  exact (CellProg.Leaves.bind hitem ⟨_, rfl⟩).1

theorem makeSwap_moves (n : Nat) : (makeSwap n).Moves fun _ _ _ => .swap n .done := by
  intro env evm fr res h
  unfold makeSwap at h
  split at h
  · rename_i top st hst
    obtain ⟨x, hx, rfl⟩ := Option.map_eq_some_iff.mp h
    refine ⟨[], ?_⟩
    rw [CellProg.eval, Work.swap, hst]
    simp only [hx, Option.map_some, Option.bind_some]
    rfl
  · cases h

/-- On values, every instruction that enters no frame leaves the stack that its program leaves. -/
theorem execute_moves {op : OpCode} (hc : op.isCall = false) :
    ∃ f, (operation op).execute = simple f ∧ f.Moves op.cells := by
  cases op
  case CREATE | CALL | CALLCODE | DELEGATECALL | STATICCALL => cases hc
  case STOP | JUMPDEST => exact ⟨_, rfl, opStop_moves⟩
  case ADD | SUB | MUL => exact ⟨_, rfl, arithOp_moves _ _⟩
  case DIV => exact ⟨_, rfl, opDiv_moves⟩
  case SDIV => exact ⟨_, rfl, opSdiv_moves⟩
  case MOD => exact ⟨_, rfl, opMod_moves⟩
  case SMOD => exact ⟨_, rfl, opSmod_moves⟩
  case ADDMOD | MULMOD => exact ⟨_, rfl, modular_moves _⟩
  case EXP => exact ⟨_, rfl, binaryOp_moves fun x y st v => ⟨_, rfl⟩⟩
  case SIGNEXTEND => exact ⟨_, rfl, opSignExtend_moves⟩
  case SLT => exact ⟨_, rfl, opSlt_moves⟩
  case SGT => exact ⟨_, rfl, opSgt_moves⟩
  case ISZERO => exact ⟨_, rfl, opIszero_moves⟩
  case SHA3 => exact ⟨_, rfl, opSha3_moves⟩
  case BALANCE => exact ⟨_, rfl, opBalance_moves⟩
  case CALLVALUE => exact ⟨_, rfl, opCallValue_moves⟩
  case LT | GT | EQ => exact ⟨_, rfl, compare_moves _⟩
  case AND | OR | XOR | BYTE => exact ⟨_, rfl, binaryOp_moves fun x y st v => ⟨_, rfl⟩⟩
  case NOT | EXTCODESIZE | BLOCKHASH => exact ⟨_, rfl, unaryOp_moves fun _ _ _ x st v => ⟨_, rfl⟩⟩
  case CALLDATALOAD | MLOAD => exact ⟨_, rfl, readOp_moves fun out x st v => ⟨_, rfl⟩⟩
  case CALLDATACOPY | CODECOPY => exact ⟨_, rfl, copyOp_moves _⟩
  case EXTCODECOPY => exact ⟨_, rfl, opExtCodeCopy_moves⟩
  case RETURNDATACOPY => exact ⟨_, rfl, opReturnDataCopy_moves⟩
  case POP => exact ⟨_, rfl, opPop_moves⟩
  case MSTORE => exact ⟨_, rfl, opMstore_moves⟩
  case MSTORE8 => exact ⟨_, rfl, opMstore8_moves⟩
  case SLOAD => exact ⟨_, rfl, opSload_moves⟩
  case SSTORE => exact ⟨_, rfl, opSstore_moves⟩
  case JUMP => exact ⟨_, rfl, opJump_moves⟩
  case JUMPI => exact ⟨_, rfl, opJumpi_moves⟩
  case RETURN | REVERT => exact ⟨_, rfl, opReturn_moves⟩
  case SELFDESTRUCT => exact ⟨_, rfl, opSuicide_moves⟩
  case LOG n => exact ⟨_, rfl, makeLog_moves _⟩
  case PUSH n => exact ⟨_, rfl, makePush_moves _⟩
  case DUP n => exact ⟨_, rfl, makeDup_moves _⟩
  case SWAP n => exact ⟨_, rfl, makeSwap_moves _⟩
  case ADDRESS | ORIGIN | CALLER | COINBASE | TIMESTAMP | NUMBER | DIFFICULTY | GASLIMIT =>
    exact ⟨_, rfl, (pushOp_moves _).1⟩
  all_goals exact ⟨_, rfl, (pushOp_moves _).2⟩

end Moves

end MiniEvm
