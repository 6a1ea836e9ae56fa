import Mathlib.Data.List.Nodup
import Mathlib.Data.List.Perm.Basic
import Mathlib.Data.List.Perm.Subperm
import Mathlib.Data.List.ReduceOption
import Mathlib.Logic.Function.Basic

namespace MiniEvm.Framework

variable {α β γ : Type}

/-- Mutable cells that are handed out, given back and used again; the cells from `next` on are new. -/
structure Cells (α : Type) where
  value : Nat → α
  next : Nat
  pool : List Nat

/-- Local variables, of which some were handed on, and an operand stack. -/
structure Work (β : Type) where
  vars : List (Option β)
  stack : List β

namespace Work

def var (w : Work β) (r : Nat) : Option β := w.vars[r]?.join

/-- A further variable. -/
def bind (w : Work β) (b : β) : Work β := { w with vars := w.vars ++ [some b] }

def assign (w : Work β) (r : Nat) (b : β) : Work β := { w with vars := w.vars.set r (some b) }

/-- The variable was handed on and is not used again. -/
def move (w : Work β) (r : Nat) : Work β := { w with vars := w.vars.set r none }

/-- Hands several variables on, in order. -/
def moveAll : Work β → List Nat → Option (List β × Work β)
  | w, [] => some ([], w)
  | w, r :: rs => (w.var r).bind fun b => (moveAll (w.move r) rs).map fun (bs, w) => (b :: bs, w)

def map (f : β → γ) (w : Work β) : Work γ := ⟨w.vars.map (Option.map f), w.stack.map f⟩

/-- Exchanges the top of the stack with item `n`. -/
def swap (w : Work β) (n : Nat) : Option (Work β) :=
  match w.stack with
  | top :: st => st[n - 1]?.map fun b => { w with stack := b :: st.set (n - 1) top }
  | [] => none

/-- Everything that is in use. -/
def live (w : Work β) : List β := w.stack ++ w.vars.reduceOption

end Work

namespace Cells

variable (a : Cells α)

def write (c : Nat) (v : α) : Cells α := { a with value := Function.update a.value c v }

/-- A new cell; whoever takes a cell writes it. -/
def alloc : Nat × Cells α := (a.next, { a with next := a.next + 1 })

/-- A pooled cell, or a new one. -/
def get : Nat × Cells α :=
  match a.pool with
  | c :: cs => (c, { a with pool := cs })
  | [] => a.alloc

/-- Gives cells back; a pool that is over the limit takes none of them. -/
def put (limit : Nat) (cs : List Nat) : Cells α :=
  if a.pool.length > limit then a else { a with pool := cs.reverse ++ a.pool }

end Cells

/-- A straight-line program on cells. Values are computed from the contents of a cell outside of the
program, and of the variables and the stack. -/
inductive CellProg (α : Type) where
  | done
  | pop (k : CellProg α)
  | take (f : α → Work α → Option α) (k : CellProg α)
  | new (f : α → Work α → Option α) (k : CellProg α)
  | set (r : Nat) (f : α → Work α → Option α) (k : CellProg α)
  | poke (f : α → Work α → Option α) (k : CellProg α)
  | push (r : Nat) (k : CellProg α)
  | put (rs : List Nat) (k : CellProg α)
  | swap (n : Nat) (k : CellProg α)
  | branch (p : α → Work α → Option Bool) (t e : CellProg α)

namespace CellProg

/-- The program on cells: variables and stack items are references. A variable that was handed on,
to the stack or to the pool, is gone. -/
def run (limit ext : Nat) :
    CellProg α → Cells α → Work Nat → Option (Cells α × Work Nat)
  | done, a, w => some (a, w)
  | pop k, a, w =>
    match w.stack with
    | c :: st => run limit ext k a ({ w with stack := st }.bind c)
    | [] => none
  | take f k, a, w =>
    let (c, a) := a.get
    (f (a.value ext) (w.map a.value)).bind fun v => run limit ext k (a.write c v) (w.bind c)
  | new f k, a, w =>
    let (c, a) := a.alloc
    (f (a.value ext) (w.map a.value)).bind fun v => run limit ext k (a.write c v) (w.bind c)
  | set r f k, a, w =>
    (w.var r).bind fun c => (f (a.value ext) (w.map a.value)).bind fun v =>
      run limit ext k (a.write c v) w
  | poke f k, a, w =>
    w.stack.head?.bind fun c => (f (a.value ext) (w.map a.value)).bind fun v =>
      run limit ext k (a.write c v) w
  | push r k, a, w =>
    (w.var r).bind fun c => run limit ext k a { w.move r with stack := c :: w.stack }
  | put rs k, a, w => (w.moveAll rs).bind fun (cs, w) => run limit ext k (a.put limit cs) w
  | swap n k, a, w => (w.swap n).bind fun w => run limit ext k a w
  | branch p t e, a, w =>
    (p (a.value ext) (w.map a.value)).bind fun b =>
      if b then run limit ext t a w else run limit ext e a w

/-- The program on values: assignments change one variable, and nothing is shared. -/
def eval (ext : α) : CellProg α → Work α → Option (Work α)
  | done, w => some w
  | pop k, w =>
    match w.stack with
    | v :: st => eval ext k ({ w with stack := st }.bind v)
    | [] => none
  | take f k, w | new f k, w => (f ext w).bind fun v => eval ext k (w.bind v)
  | set r f k, w => (w.var r).bind fun _ => (f ext w).bind fun v => eval ext k (w.assign r v)
  | poke f k, w =>
    match w.stack with
    | _ :: st => (f ext w).bind fun v => eval ext k { w with stack := v :: st }
    | [] => none
  | push r k, w => (w.var r).bind fun v => eval ext k { w.move r with stack := v :: w.stack }
  | put rs k, w => (w.moveAll rs).bind fun (_, w) => eval ext k w
  | swap n k, w => (w.swap n).bind fun w => eval ext k w
  | branch p t e, w => (p ext w).bind fun b => if b then eval ext t w else eval ext e w

end CellProg

namespace Work

variable {f g : β → γ} {w : Work β} {b : β} {r : Nat}

theorem map_congr (h : ∀ b ∈ w.live, f b = g b) : w.map f = w.map g := by
  have hstack : w.stack.map f = w.stack.map g := by
    apply List.map_congr_left
    intro b hb
    exact h b (List.mem_append_left _ hb)
  have hvars : w.vars.map (Option.map f) = w.vars.map (Option.map g) := by
    apply List.map_congr_left
    intro o ho
    cases o with
    | none => rfl
    | some b =>
      have hb : b ∈ w.vars.reduceOption := List.reduceOption_mem_iff.mpr ho
      exact congrArg some (h b (List.mem_append_right _ hb))
  rw [map, hstack, hvars, map]

theorem var_map (f : β → γ) (w : Work β) (r : Nat) : (w.map f).var r = (w.var r).map f := by
  simp only [var, map, List.getElem?_map]
  obtain _ | _ | b := w.vars[r]? <;> rfl

theorem var_eq_some : w.var r = some b ↔ w.vars[r]? = some (some b) := by
  simp [var, Option.join_eq_some_iff]

theorem lt_of_var (h : w.var r = some b) : r < w.vars.length :=
  (List.getElem?_eq_some_iff.mp (var_eq_some.mp h)).1

theorem var_bind_length (w : Work β) (b : β) : (w.bind b).var w.vars.length = some b := by
  simp [var, bind]

theorem var_bind_of_some {c : β} (h : w.var r = some b) : (w.bind c).var r = some b := by
  simp [var, bind, List.getElem?_append_left (lt_of_var h), var_eq_some.mp h]

theorem var_assign {c : β} (h : w.var r = some b) : (w.assign r c).var r = some c := by
  simp [var, assign, lt_of_var h]

theorem var_assign_of_ne {s : Nat} {c : β} (h : s ≠ r) : (w.assign r c).var s = w.var s := by
  simp [var, assign, List.getElem?_set_ne (Ne.symm h)]

theorem var_move_of_ne {s : Nat} (h : s ≠ r) : (w.move r).var s = w.var s := by
  simp [var, move, List.getElem?_set_ne (Ne.symm h)]

theorem map_bind (f : β → γ) (w : Work β) (b : β) : (w.bind b).map f = (w.map f).bind (f b) := by
  simp [map, bind]

theorem map_move (f : β → γ) (w : Work β) (r : Nat) : (w.move r).map f = (w.map f).move r := by
  simp [map, move, List.map_set]

theorem map_swap (f : β → γ) (w : Work β) (n : Nat) : (w.map f).swap n = (w.swap n).map (map f) := by
  unfold swap
  cases hst : w.stack with
  | nil => simp [map, hst]
  | cons top st =>
    simp only [map, hst, List.map_cons, List.getElem?_map, Option.map_map]
    cases st[n - 1]? with
    | none => rfl
    | some b => simp [map, List.map_set]

theorem map_moveAll (f : β → γ) (w : Work β) (rs : List Nat) :
    (w.map f).moveAll rs = (w.moveAll rs).map fun (bs, w) => (bs.map f, w.map f) := by
  induction rs generalizing w with
  | nil => rfl
  | cons r rs ih =>
    simp only [moveAll, var_map, ← map_move, ih]
    cases w.var r with
    | none => rfl
    | some b =>
      simp only [Option.map_some, Option.bind_some]
      cases (w.move r).moveAll rs <;> rfl

theorem live_bind : (w.bind b).live.Perm (b :: w.live) := by
  simp only [live, bind, List.reduceOption_append, List.reduceOption_singleton, Option.toList_some]
  rw [← List.append_assoc]
  exact List.perm_append_singleton b _

theorem var_mem (h : w.var r = some b) : b ∈ w.live := by
  have hr := var_eq_some.mp h
  exact List.mem_append_right _ (List.reduceOption_mem_iff.mpr (List.mem_of_getElem? hr))

/-- Handing a variable on takes it out of what is in use. -/
theorem live_move (h : w.var r = some b) : (b :: (w.move r).live).Perm w.live := by
  have hr := var_eq_some.mp h
  have hvars : (b :: (w.vars.set r none).reduceOption).Perm w.vars.reduceOption := by
    obtain ⟨hlt, hget⟩ := List.getElem?_eq_some_iff.mp hr
    have hsplit : w.vars = w.vars.take r ++ some b :: w.vars.drop (r + 1) := by
      rw [← hget, List.getElem_cons_drop, List.take_append_drop]
    have hset : w.vars.set r none = w.vars.take r ++ none :: w.vars.drop (r + 1) :=
      List.set_eq_take_append_cons_drop .. ▸ if_pos hlt
    rw [hset]
    nth_rewrite 3 [hsplit]
    simp only [List.reduceOption_append, List.reduceOption_cons_of_none,
      List.reduceOption_cons_of_some]
    exact List.perm_middle.symm
  have hmove : (b :: (w.move r).live).Perm (w.stack ++ b :: (w.vars.set r none).reduceOption) :=
    List.perm_middle.symm
  exact hmove.trans (hvars.append_left _)

theorem live_moveAll {rs : List Nat} {bs : List β} {w' : Work β} (h : w.moveAll rs = some (bs, w')) :
    (bs ++ w'.live).Perm w.live := by
  induction rs generalizing w bs with
  | nil =>
    cases h
    exact List.Perm.refl _
  | cons r rs ih =>
    obtain ⟨b, hb, h⟩ := Option.bind_eq_some_iff.mp h
    obtain ⟨⟨bs', w''⟩, hrest, heq⟩ := Option.map_eq_some_iff.mp h
    cases heq
    exact ((ih hrest).cons b).trans (live_move hb)

theorem moveAll_length {rs : List Nat} {bs : List β} {w' : Work β} (h : w.moveAll rs = some (bs, w')) :
    bs.length = rs.length := by
  induction rs generalizing w bs with
  | nil =>
    cases h
    rfl
  | cons r rs ih =>
    obtain ⟨b, -, h⟩ := Option.bind_eq_some_iff.mp h
    obtain ⟨⟨bs', v⟩, hmove, h⟩ := Option.map_eq_some_iff.mp h
    cases h
    exact congrArg Nat.succ (ih hmove)

theorem live_swap {n : Nat} {w' : Work β} (h : w.swap n = some w') : w'.live.Perm w.live := by
  unfold swap at h
  cases hst : w.stack with
  | nil => simp [hst] at h
  | cons top st =>
    simp only [hst] at h
    obtain ⟨b, hb, rfl⟩ := Option.map_eq_some_iff.mp h
    have hperm : (b :: st.set (n - 1) top).Perm (top :: st) := by
      obtain ⟨hlt, hget⟩ := List.getElem?_eq_some_iff.mp hb
      have hsplit : st = st.take (n - 1) ++ b :: st.drop (n - 1 + 1) := by
        rw [← hget, List.getElem_cons_drop, List.take_append_drop]
      have hset : st.set (n - 1) top = st.take (n - 1) ++ top :: st.drop (n - 1 + 1) :=
        List.set_eq_take_append_cons_drop .. ▸ if_pos hlt
      rw [hset]
      nth_rewrite 3 [hsplit]
      generalize st.take (n - 1) = l
      generalize st.drop (n - 1 + 1) = m
      have hleft : (b :: (l ++ top :: m)).Perm (b :: top :: (l ++ m)) := List.perm_middle.cons b
      have hright : (top :: (l ++ b :: m)).Perm (top :: b :: (l ++ m)) := List.perm_middle.cons top
      exact hleft.trans ((List.Perm.swap top b _).trans hright.symm)
    simp only [live, hst]
    exact hperm.append_right _

end Work

/-- No cell is used twice: not by the program at hand, nor by the pool, nor by its surroundings. -/
structure Cells.Separate (a : Cells α) (w : Work Nat) (held : List Nat) : Prop where
  nodup : (w.live ++ a.pool ++ held).Nodup
  used : ∀ c ∈ w.live ++ a.pool ++ held, c < a.next

namespace Cells.Separate

variable {a a' : Cells α} {w w' : Work Nat} {held : List Nat} {c : Nat}

/-- Cells change hands, or are dropped. -/
theorem of_subperm (h : a.Separate w held) (hnext : a.next ≤ a'.next)
    (hsub : (w'.live ++ a'.pool ++ held).Subperm (w.live ++ a.pool ++ held)) :
    a'.Separate w' held := by
  constructor
  · obtain ⟨l, hperm, hsublist⟩ := hsub
    exact hperm.nodup_iff.mp (h.nodup.sublist hsublist)
  · intro c hc
    exact Nat.lt_of_lt_of_le (h.used c (hsub.subset hc)) hnext

theorem of_perm (h : a.Separate w held) (hpool : a'.pool = a.pool) (hnext : a'.next = a.next)
    (hperm : w'.live.Perm w.live) : a'.Separate w' held := by
  refine h.of_subperm (Nat.le_of_eq hnext.symm) ?_
  rw [hpool]
  exact ((hperm.append_right _).append_right _).subperm

theorem fresh (h : a.Separate w held) : a.next ∉ w.live ++ a.pool ++ held := by
  intro hmem
  exact absurd (h.used a.next hmem) (Nat.lt_irrefl _)

/-- A new cell. -/
theorem alloc (h : a.Separate w held) : a.alloc.2.Separate (w.bind a.alloc.1) held := by
  have hperm : ((w.bind a.next).live ++ a.pool ++ held).Perm (a.next :: (w.live ++ a.pool ++ held)) :=
    (Work.live_bind.append_right _).append_right _
  constructor
  · exact hperm.nodup_iff.mpr (List.nodup_cons.mpr ⟨h.fresh, h.nodup⟩)
  · intro c hc
    rcases List.mem_cons.mp (hperm.mem_iff.mp hc) with rfl | hold
    · exact Nat.lt_succ_self _
    · exact Nat.lt_succ_of_lt (h.used c hold)

/-- A cell that is bound is used by nothing else. -/
theorem bound (h : a.Separate (w.bind c) held) : c ∉ w.live ∧ c ∉ a.pool ∧ c ∉ held := by
  have hperm : ((w.bind c).live ++ a.pool ++ held).Perm (c :: (w.live ++ a.pool ++ held)) :=
    (Work.live_bind.append_right _).append_right _
  have hc := (List.nodup_cons.mp (hperm.nodup_iff.mp h.nodup)).1
  simp only [List.mem_append, not_or] at hc
  exact ⟨hc.1.1, hc.1.2, hc.2⟩

theorem get (h : a.Separate w held) : a.get.2.Separate (w.bind a.get.1) held := by
  unfold Cells.get
  cases hpool : a.pool with
  | nil => exact h.alloc
  | cons c cs =>
    refine h.of_subperm (Nat.le_refl _) ?_
    rw [hpool]
    have hmove : ((w.bind c).live ++ cs).Perm (w.live ++ c :: cs) :=
      (Work.live_bind.append_right _).trans List.perm_middle.symm
    exact (hmove.append_right _).subperm

/-- Cells in use are not among those that the surroundings hold. -/
theorem not_held (h : a.Separate w held) (hc : c ∈ w.live) : c ∉ held := by
  have hd := (List.nodup_append.mp h.nodup).2.2
  intro hh
  exact hd c (List.mem_append_left _ hc) c hh rfl

theorem live_nodup (h : a.Separate w held) : w.live.Nodup :=
  (List.nodup_append.mp (List.nodup_append.mp h.nodup).1).1

theorem put (h : a.Separate w held) (limit : Nat) {rs : List Nat} {cs : List Nat}
    (hmove : w.moveAll rs = some (cs, w')) : (a.put limit cs).Separate w' held := by
  have hlive := Work.live_moveAll hmove
  unfold Cells.put
  split_ifs
  · refine h.of_subperm (Nat.le_refl _) ?_
    have hsub : w'.live.Subperm w.live :=
      ((List.sublist_append_right cs w'.live).subperm).trans hlive.subperm
    exact ((hsub.append (List.Subperm.refl _)).append (List.Subperm.refl _))
  · refine h.of_subperm (Nat.le_refl _) ?_
    have hall : (w'.live ++ (cs.reverse ++ a.pool)).Perm (w.live ++ a.pool) := by
      rw [← List.append_assoc]
      refine List.Perm.append_right _ ?_
      have hrev : (w'.live ++ cs.reverse).Perm (cs ++ w'.live) :=
        List.perm_append_comm.trans ((List.reverse_perm cs).append_right _)
      exact hrev.trans hlive
    exact (hall.append_right _).subperm

end Cells.Separate

namespace Work

variable {w : Work Nat} {value : Nat → α} {c r : Nat} {v : α}

/-- Writing a cell that is not in use. -/
theorem map_update_of_notMem (h : c ∉ w.live) :
    w.map (Function.update value c v) = w.map value := by
  apply map_congr
  intro b hb
  refine Function.update_of_ne ?_ v value
  rintro rfl
  exact h hb

theorem assign_move (w : Work α) (r : Nat) (v : α) : (w.move r).assign r v = w.assign r v := by
  simp [assign, move]

theorem assign_var {w : Work β} {b : β} (h : w.var r = some b) : w.assign r b = w := by
  have hr := var_eq_some.mp h
  obtain ⟨hlt, hget⟩ := List.getElem?_eq_some_iff.mp hr
  have hset : w.vars.set r (some b) = w.vars := by
    rw [← hget]
    exact List.set_getElem_self hlt
  rw [assign, hset]

theorem map_assign (f : β → γ) (w : Work β) (r : Nat) (b : β) :
    (w.assign r b).map f = (w.map f).assign r (f b) := by
  simp [map, assign, List.map_set]

/-- Writing a cell that one variable refers to. -/
theorem map_update_var (hn : w.live.Nodup) (h : w.var r = some c) :
    w.map (Function.update value c v) = (w.map value).assign r v := by
  have hc : c ∉ (w.move r).live := (List.nodup_cons.mp ((live_move h).nodup_iff.mpr hn)).1
  calc w.map (Function.update value c v)
      = ((w.move r).assign r c).map (Function.update value c v) := by rw [assign_move, assign_var h]
    _ = ((w.move r).map (Function.update value c v)).assign r v := by
        rw [map_assign, Function.update_self]
    _ = (w.map value).assign r v := by rw [map_update_of_notMem hc, map_move, assign_move]

/-- Writing the cell on top of the stack. -/
theorem map_update_top {st : List Nat} (hn : w.live.Nodup) (h : w.stack = c :: st) :
    w.map (Function.update value c v) = { w.map value with stack := v :: st.map value } := by
  have hc : c ∉ ({ w with stack := st } : Work Nat).live := by
    simp only [live, h, List.cons_append] at hn
    exact (List.nodup_cons.mp hn).1
  have hrest : ({ w with stack := st } : Work Nat).map (Function.update value c v) =
      ({ w with stack := st } : Work Nat).map value := map_update_of_notMem hc
  simp only [map, Work.mk.injEq] at hrest
  simp only [map, h, List.map_cons, Function.update_self, hrest]

end Work

namespace CellProg

variable {limit ext : Nat} {held : List Nat}

/-- The outcome of a program on cells is its outcome on values, the cells are separate, and those
that others hold have their values. -/
structure Agrees (held : List Nat) (value : Nat → α) (o : Option (Work α))
    (x : Option (Cells α × Work Nat)) : Prop where
  outcome : o = x.map fun s => s.2.map s.1.value
  separate : ∀ a w, x = some (a, w) → a.Separate w held
  kept : ∀ a w, x = some (a, w) → ∀ c ∈ held, a.value c = value c

theorem Agrees.stuck {value : Nat → α} : Agrees held value none none := ⟨rfl, by simp, by simp⟩

/-- The program `k` agrees with its evaluation wherever it starts. -/
def Sound (limit ext : Nat) (held : List Nat) (k : CellProg α) : Prop :=
  ∀ a w, Cells.Separate a w held →
    Agrees held a.value (k.eval (a.value ext) (w.map a.value)) (k.run limit ext a w)

namespace Sound

variable {k : CellProg α} {a : Cells α} {w : Work Nat} {c : Nat}

/-- A write to a cell in use, and then the rest. -/
theorem write (ih : Sound limit ext held k) (hext : ext ∈ held) (h : a.Separate w held)
    (hc : c ∈ w.live) (v : α) :
    Agrees held a.value (k.eval (a.value ext) (w.map (Function.update a.value c v)))
      (k.run limit ext (a.write c v) w) := by
  have hkept : ∀ d ∈ held, (a.write c v).value d = a.value d := by
    intro d hd
    exact Function.update_of_ne (ne_of_mem_of_not_mem hd (h.not_held hc)) _ _
  have hk := ih (a.write c v) w (h.of_perm rfl rfl (List.Perm.refl _))
  rw [hkept ext hext] at hk
  exact ⟨hk.outcome, hk.separate, fun a' w' hx d hd => (hk.kept a' w' hx d hd).trans (hkept d hd)⟩

/-- A cell that nobody uses is bound and written. -/
theorem bind (ih : Sound limit ext held k) (hext : ext ∈ held) (h : a.Separate (w.bind c) held)
    (v : α) :
    Agrees held a.value (k.eval (a.value ext) ((w.map a.value).bind v))
      (k.run limit ext (a.write c v) (w.bind c)) := by
  have hk := ih.write hext h (Work.live_bind.mem_iff.mpr List.mem_cons_self) v
  rw [Work.map_bind, Function.update_self, Work.map_update_of_notMem h.bound.1] at hk
  exact hk

end Sound

/-- A program on separate cells computes what it computes on values, keeps the cells separate, and
leaves the cells that others hold alone. -/
theorem sound (limit : Nat) (hext : ext ∈ held) (p : CellProg α) : Sound limit ext held p := by
  induction p with
  | done =>
    intro a w h
    refine ⟨rfl, ?_, ?_⟩
    · intro a' w' heq
      cases heq
      exact h
    · intro a' w' heq
      cases heq
      exact fun _ _ => rfl
  | pop k ih =>
    rintro a ⟨vars, _ | ⟨c, st⟩⟩ h
    · exact .stuck
    · have hperm : ((⟨vars, st⟩ : Work Nat).bind c).live.Perm (Work.mk vars (c :: st)).live :=
        Work.live_bind
      have hk := ih a _ (h.of_perm rfl rfl hperm)
      rw [Work.map_bind] at hk
      exact hk
  | take f k ih =>
    intro a w h
    have hvalue : a.get.2.value = a.value := by
      unfold Cells.get
      cases a.pool <;> rfl
    simp only [eval, run, hvalue]
    cases f (a.value ext) (w.map a.value) with
    | none => exact .stuck
    | some v =>
      have hk := ih.bind hext h.get v
      rw [hvalue] at hk
      exact hk
  | new f k ih =>
    intro a w h
    simp only [eval, run]
    cases hf : f (a.value ext) (w.map a.value) with
    | none =>
      have hstuck : f (a.alloc.2.value ext) (w.map a.alloc.2.value) = none := hf
      rw [hstuck]
      exact .stuck
    | some v =>
      have hgo : f (a.alloc.2.value ext) (w.map a.alloc.2.value) = some v := hf
      rw [hgo]
      exact ih.bind hext h.alloc v
  | set r f k ih =>
    intro a w h
    simp only [eval, run, Work.var_map]
    cases hr : w.var r with
    | none => exact .stuck
    | some c =>
      simp only [Option.map_some, Option.bind_some]
      cases f (a.value ext) (w.map a.value) with
      | none => exact .stuck
      | some v =>
        have hk := ih.write hext h (Work.var_mem hr) v
        rw [Work.map_update_var h.live_nodup hr] at hk
        exact hk
  | poke f k ih =>
    rintro a ⟨vars, _ | ⟨c, st⟩⟩ h
    · exact .stuck
    · simp only [eval, run]
      have hc : c ∈ (Work.mk vars (c :: st)).live := List.mem_append_left _ List.mem_cons_self
      cases hf : f (a.value ext) ((Work.mk vars (c :: st)).map a.value) with
      | none => exact .stuck
      | some v =>
        have hk := ih.write hext h hc v
        rw [Work.map_update_top h.live_nodup rfl] at hk
        exact hk
  | push r k ih =>
    intro a w h
    simp only [eval, run, Work.var_map]
    cases hr : w.var r with
    | none => exact .stuck
    | some c =>
      simp only [Option.map_some, Option.bind_some]
      have hk := ih a { w.move r with stack := c :: w.stack } (h.of_perm rfl rfl (Work.live_move hr))
      have hmove : (w.map a.value).move r = (w.move r).map a.value := (Work.map_move ..).symm
      rw [hmove]
      exact hk
  | put rs k ih =>
    intro a w h
    simp only [eval, run, Work.map_moveAll]
    cases hrs : w.moveAll rs with
    | none => exact .stuck
    | some m =>
      obtain ⟨cs, w'⟩ := m
      have hk := ih _ w' (h.put limit hrs)
      have hvalue : (a.put limit cs).value = a.value := by
        unfold Cells.put
        split_ifs <;> rfl
      rw [hvalue] at hk
      exact hk
  | swap n k ih =>
    intro a w h
    simp only [eval, run, Work.map_swap]
    cases hn : w.swap n with
    | none => exact .stuck
    | some w' => exact ih a w' (h.of_perm rfl rfl (Work.live_swap hn))
  | branch p t e iht ihe =>
    intro a w h
    simp only [eval, run]
    cases p (a.value ext) (w.map a.value) with
    | none => exact .stuck
    | some b =>
      cases b with
      | true => exact iht a w h
      | false => exact ihe a w h

/-! ## The size of the pool -/

/-- No `put` of the program gives back more than `n` cells. -/
def putsAtMost (n : Nat) : CellProg α → Bool
  | done => true
  | pop k | take _ k | new _ k | set _ _ k | poke _ k | push _ k | swap _ k => putsAtMost n k
  | put rs k => rs.length ≤ n && putsAtMost n k
  | branch _ t e => putsAtMost n t && putsAtMost n e

theorem get_pool_length_le (a : Cells α) : a.get.2.pool.length ≤ a.pool.length := by
  unfold Cells.get
  split
  · next c cs hpool => simp [hpool]
  · exact Nat.le_refl _

theorem put_pool_length_le {a : Cells α} {limit n : Nat} {cs : List Nat} (hcs : cs.length ≤ n)
    (h : a.pool.length ≤ limit + n) : (a.put limit cs).pool.length ≤ limit + n := by
  unfold Cells.put
  split_ifs with hlimit
  · exact h
  · simp only [List.length_append, List.length_reverse]
    omega

/-- A pool that takes cells up to its limit exceeds it by one `put` at most. -/
theorem run_pool_length_le {limit ext n : Nat} {p : CellProg α} (hp : p.putsAtMost n = true)
    {a : Cells α}
    {w : Work Nat} {s : Cells α × Work Nat} (hs : p.run limit ext a w = some s)
    (h : a.pool.length ≤ limit + n) : s.1.pool.length ≤ limit + n := by
  induction p generalizing a w with
  | done =>
    cases hs
    exact h
  | pop k ih =>
    simp only [run] at hs
    split at hs
    · exact ih hp hs h
    · cases hs
  | take f k ih =>
    obtain ⟨v, -, hs⟩ := Option.bind_eq_some_iff.mp hs
    exact ih hp hs (Nat.le_trans (get_pool_length_le a) h)
  | new f k ih =>
    obtain ⟨v, -, hs⟩ := Option.bind_eq_some_iff.mp hs
    exact ih hp hs h
  | set r f k ih | poke f k ih =>
    obtain ⟨c, -, hs⟩ := Option.bind_eq_some_iff.mp hs
    obtain ⟨v, -, hs⟩ := Option.bind_eq_some_iff.mp hs
    exact ih hp hs h
  | push r k ih | swap r k ih =>
    obtain ⟨c, -, hs⟩ := Option.bind_eq_some_iff.mp hs
    exact ih hp hs h
  | put rs k ih =>
    simp only [putsAtMost, Bool.and_eq_true, decide_eq_true_eq] at hp
    obtain ⟨⟨cs, w'⟩, hmove, hs⟩ := Option.bind_eq_some_iff.mp hs
    have hcs : cs.length ≤ n := by
      rw [Work.moveAll_length hmove]
      exact hp.1
    exact ih hp.2 hs (put_pool_length_le hcs h)
  | branch p t e iht ihe =>
    simp only [putsAtMost, Bool.and_eq_true] at hp
    obtain ⟨b, -, hs⟩ := Option.bind_eq_some_iff.mp hs
    cases b with
    | true => exact iht hp.1 hs h
    | false => exact ihe hp.2 hs h

/-! ## Rules for the outcome on values -/

section Rules

variable {v : α} {w : Work α} {st : List α} {k : CellProg α} {r : Nat} {f : α → Work α → Option α}

/-- The program ends, on values, with the given stack. -/
def Leaves (p : CellProg α) (v : α) (w : Work α) (st : List α) : Prop :=
  ∃ vars, p.eval v w = some ⟨vars, st⟩

theorem Leaves.pop {b : α} {rest : List α} (hst : w.stack = b :: rest)
    (hk : k.Leaves v ({ w with stack := rest }.bind b) st) : (pop k).Leaves v w st := by
  obtain ⟨vars, hk⟩ := hk
  obtain ⟨_, _⟩ := w
  cases hst
  exact ⟨vars, hk⟩

theorem Leaves.bind {b : α} (hf : f v w = some b) (hk : k.Leaves v (w.bind b) st) :
    (take f k).Leaves v w st ∧ (new f k).Leaves v w st := by
  obtain ⟨vars, hk⟩ := hk
  have hgo : ((f v w).bind fun b => k.eval v (w.bind b)) = some ⟨vars, st⟩ :=
    Option.bind_eq_some_iff.mpr ⟨b, hf, hk⟩
  exact ⟨⟨vars, hgo⟩, ⟨vars, hgo⟩⟩

theorem Leaves.set {b c : α} (hr : w.var r = some c) (hf : f v w = some b)
    (hk : k.Leaves v (w.assign r b) st) : (set r f k).Leaves v w st := by
  obtain ⟨vars, hk⟩ := hk
  exact ⟨vars, Option.bind_eq_some_iff.mpr ⟨c, hr, Option.bind_eq_some_iff.mpr ⟨b, hf, hk⟩⟩⟩

theorem Leaves.push {b : α} (hr : w.var r = some b)
    (hk : k.Leaves v { w.move r with stack := b :: w.stack } st) : (push r k).Leaves v w st := by
  obtain ⟨vars, hk⟩ := hk
  exact ⟨vars, Option.bind_eq_some_iff.mpr ⟨b, hr, hk⟩⟩

theorem Leaves.branch {p : α → Work α → Option Bool} {b : Bool} {t e : CellProg α}
    (hp : p v w = some b) (ht : b = true → t.Leaves v w st) (he : b = false → e.Leaves v w st) :
    (branch p t e).Leaves v w st := by
  cases b with
  | true =>
    obtain ⟨vars, ht⟩ := ht rfl
    exact ⟨vars, Option.bind_eq_some_iff.mpr ⟨true, hp, ht⟩⟩
  | false =>
    obtain ⟨vars, he⟩ := he rfl
    exact ⟨vars, Option.bind_eq_some_iff.mpr ⟨false, hp, he⟩⟩

/-- Giving the last variables back. -/
theorem Leaves.put {rs : List Nat} (hn : rs.Nodup) (hrs : ∀ r ∈ rs, (w.var r).isSome)
    (hst : w.stack = st) : (put rs done).Leaves v w st := by
  have hmove : ∃ bs w', w.moveAll rs = some (bs, w') ∧ w'.stack = st := by
    induction rs generalizing w with
    | nil => exact ⟨[], w, rfl, hst⟩
    | cons r rs ih =>
      obtain ⟨hr, hn⟩ := List.nodup_cons.mp hn
      obtain ⟨b, hb⟩ := Option.isSome_iff_exists.mp (hrs r List.mem_cons_self)
      have hrest : ∀ s ∈ rs, ((w.move r).var s).isSome := by
        intro s hs
        rw [Work.var_move_of_ne (ne_of_mem_of_not_mem hs hr)]
        exact hrs s (List.mem_cons_of_mem r hs)
      obtain ⟨bs, w', hmove, hst'⟩ := ih hn hrest hst
      exact ⟨b :: bs, w', by rw [Work.moveAll, hb, Option.bind_some, hmove]; rfl, hst'⟩
  obtain ⟨bs, w', hmove, hst'⟩ := hmove
  refine ⟨w'.vars, Option.bind_eq_some_iff.mpr ⟨(bs, w'), hmove, ?_⟩⟩
  rw [← hst']
  rfl

end Rules

end CellProg

end MiniEvm.Framework
