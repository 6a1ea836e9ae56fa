import Mathlib.Data.List.AList
import Mathlib.Data.List.Induction
import Mathlib.Order.Basic

namespace MiniEvm.Framework

section Taken

variable {K : Type} (move : K → Nat → K)

/-- The keys in use before entry `i`: the names of the earlier entries, and the keys that values
were moved to because their name was in use. -/
inductive Taken (names : List K) : Nat → K → Prop
  | name {i j : Nat} {s : K} (before : j < i) (entry : names[j]? = some s) : Taken names i s
  | moved {i j : Nat} {s : K} (before : j < i) (entry : names[j]? = some s)
      (taken : Taken names j s) : Taken names i (move s j)

/-- No entry whose name is in use moves a value to a key that is in use. -/
def Unclobbered (names : List K) : Prop :=
  ∀ i s, names[i]? = some s → Taken move names i s → ¬ Taken move names i (move s i)

variable {move} {names : List K} {i : Nat} {s x : K}

/-- Later entries do not matter. -/
theorem taken_append (more : List K) (hi : i ≤ names.length) :
    Taken move (names ++ more) i x ↔ Taken move names i x := by
  have hget : ∀ j, j < i → (names ++ more)[j]? = names[j]? := by
    intro j hj
    exact List.getElem?_append_left (by omega)
  constructor
  · intro h
    induction h with
    | name before entry => exact .name before (hget _ before ▸ entry)
    | @moved i j s before entry taken ih =>
      refine .moved before (hget _ before ▸ entry) (ih (by omega) ?_)
      intro k hk
      exact hget k (by omega)
  · intro h
    induction h with
    | name before entry => exact .name before (hget _ before ▸ entry)
    | @moved i j s before entry taken ih =>
      refine .moved before (hget _ before ▸ entry) (ih (by omega) ?_)
      intro k hk
      exact hget k (by omega)

theorem Taken.mono {j : Nat} (h : Taken move names i x) (hij : i ≤ j) : Taken move names j x := by
  cases h with
  | name before entry => exact .name (by omega) entry
  | moved before entry taken => exact .moved (by omega) entry taken

theorem taken_concat : Taken move (names ++ [s]) (names.length + 1) x ↔
    Taken move names names.length x ∨ x = s ∨ Taken move names names.length s ∧
      x = move s names.length := by
  have hlast : (names ++ [s])[names.length]? = some s := by simp
  constructor
  · intro h
    cases h with
    | @name _ j _ before entry =>
      rcases Nat.lt_succ_iff_lt_or_eq.mp before with hj | rfl
      · exact .inl ((taken_append [s] (le_refl _)).mp (.name hj entry))
      · exact .inr (.inl (Option.some.inj (entry.symm.trans hlast)))
    | @moved _ j y before entry taken =>
      rcases Nat.lt_succ_iff_lt_or_eq.mp before with hj | rfl
      · exact .inl ((taken_append [s] (le_refl _)).mp (.moved hj entry taken))
      · obtain rfl : y = s := Option.some.inj (entry.symm.trans hlast)
        exact .inr (.inr ⟨(taken_append [y] (le_refl _)).mp taken, rfl⟩)
  · rintro (h | rfl | ⟨h, rfl⟩)
    · exact ((taken_append [s] (le_refl _)).mpr h).mono (Nat.le_succ _)
    · exact .name (Nat.lt_succ_self _) hlast
    · exact .moved (Nat.lt_succ_self _) hlast ((taken_append [s] (le_refl _)).mpr h)

theorem unclobbered_concat : Unclobbered move (names ++ [s]) ↔ Unclobbered move names ∧
    (Taken move names names.length s → ¬ Taken move names names.length (move s names.length)) := by
  have hlast : (names ++ [s])[names.length]? = some s := by simp
  constructor
  · intro h
    refine ⟨fun i y hy htaken hmoved => ?_, fun htaken hmoved => ?_⟩
    · have hi : i < names.length := (List.getElem?_eq_some_iff.mp hy).1
      have hle := Nat.le_of_lt hi
      refine h i y ?_ ((taken_append [s] hle).mpr htaken) ((taken_append [s] hle).mpr hmoved)
      rw [List.getElem?_append_left hi, hy]
    · exact h names.length s hlast ((taken_append [s] (le_refl _)).mpr htaken)
        ((taken_append [s] (le_refl _)).mpr hmoved)
  · rintro ⟨h, hnew⟩ i y hy htaken hmoved
    have hi : i < names.length + 1 := by
      have hlt := (List.getElem?_eq_some_iff.mp hy).1
      simpa using hlt
    rcases Nat.lt_succ_iff_lt_or_eq.mp hi with hi | rfl
    · rw [List.getElem?_append_left hi] at hy
      have hle := Nat.le_of_lt hi
      exact h i y hy ((taken_append [s] hle).mp htaken) ((taken_append [s] hle).mp hmoved)
    · obtain rfl : y = s := Option.some.inj (hy.symm.trans hlast)
      exact hnew ((taken_append [y] (le_refl _)).mp htaken) ((taken_append [y] (le_refl _)).mp hmoved)

end Taken

section Register

variable {K V : Type} [DecidableEq K] (move : K → Nat → K)

/-- Enters a value under its name. A value that was there goes to a key made of the name and a
counter, whatever that key holds. -/
def register (m : AList fun _ : K => V) (cnt : Nat) (name : K) (v : V) : AList fun _ : K => V :=
  match m.lookup name with
  | some old => (m.insert (move name cnt) old).insert name v
  | none => m.insert name v

/-- Enters the values one by one, counting them from `cnt` on. -/
def registerAll (m : AList fun _ : K => V) (cnt : Nat) : List (K × V) → AList fun _ : K => V
  | [] => m
  | (name, v) :: rest => registerAll (register move m cnt name v) (cnt + 1) rest

variable {move} {m : AList fun _ : K => V} {cnt : Nat} {name x : K} {v w : V}

theorem registerAll_concat (xs : List (K × V)) :
    registerAll move m cnt (xs ++ [(name, v)]) =
      register move (registerAll move m cnt xs) (cnt + xs.length) name v := by
  induction xs generalizing m cnt with
  | nil => rfl
  | cons p xs ih =>
    simp only [List.cons_append, registerAll, ih, List.length_cons]
    congr 1
    omega

theorem mem_register : x ∈ register move m cnt name v ↔
    x ∈ m ∨ x = name ∨ name ∈ m ∧ x = move name cnt := by
  unfold register
  cases h : m.lookup name with
  | none =>
    have hno : name ∉ m := AList.lookup_eq_none.mp h
    simp only [AList.mem_insert, hno, false_and, or_false]
    exact or_comm
  | some old =>
    have hin : name ∈ m := AList.lookup_isSome.mp (by rw [h]; rfl)
    simp only [AList.mem_insert, hin, true_and]
    tauto

theorem keys_insert_length (m : AList fun _ : K => V) (x : K) (v : V) :
    (m.insert x v).keys.length = m.keys.length + if x ∈ m then 0 else 1 := by
  rw [AList.keys_insert, List.length_cons]
  by_cases hx : x ∈ m
  · have hlen := List.length_erase_of_mem (AList.mem_keys.mp hx)
    have hpos := List.length_pos_of_mem (AList.mem_keys.mp hx)
    rw [if_pos hx, hlen]
    omega
  · rw [if_neg hx, List.erase_of_not_mem (fun h => hx (AList.mem_keys.mpr h))]

/-- An entry adds one key, unless it clobbers one. -/
theorem register_length : (register move m cnt name v).keys.length =
    m.keys.length + if name ∈ m ∧ move name cnt ∈ m then 0 else 1 := by
  unfold register
  cases h : m.lookup name with
  | none =>
    have hno : name ∉ m := AList.lookup_eq_none.mp h
    rw [keys_insert_length]
    simp [hno]
  | some old =>
    have hin : name ∈ m := AList.lookup_isSome.mp (by rw [h]; rfl)
    rw [keys_insert_length, keys_insert_length]
    simp [AList.mem_insert, hin]

/-- Unless a key is clobbered every value stays in the map. -/
theorem register_keeps (hfree : name ∈ m → move name cnt ∉ m) (hx : m.lookup x = some w) :
    ∃ y, (register move m cnt name v).lookup y = some w := by
  have hmem : x ∈ m := AList.lookup_isSome.mp (by rw [hx]; rfl)
  unfold register
  cases h : m.lookup name with
  | none =>
    have hne : x ≠ name := by
      rintro rfl
      exact AList.lookup_eq_none.mp h hmem
    exact ⟨x, by rw [AList.lookup_insert_ne hne, hx]⟩
  | some old =>
    have hin : name ∈ m := AList.lookup_isSome.mp (by rw [h]; rfl)
    have hnew := hfree hin
    by_cases hname : x = name
    · subst hname
      have hne : move x cnt ≠ x := fun e => hnew (e.symm ▸ hin)
      obtain rfl : old = w := Option.some.inj (h.symm.trans hx)
      exact ⟨move x cnt, by rw [AList.lookup_insert_ne hne, AList.lookup_insert]⟩
    · have hne : x ≠ move name cnt := fun e => hnew (e ▸ hmem)
      exact ⟨x, by rw [AList.lookup_insert_ne hname, AList.lookup_insert_ne hne, hx]⟩

theorem lookup_register : (register move m cnt name v).lookup name = some v := by
  unfold register
  split <;> rw [AList.lookup_insert]

theorem mem_registerAll (xs : List (K × V)) :
    x ∈ registerAll move ∅ 0 xs ↔ Taken move (xs.map Prod.fst) xs.length x := by
  induction xs using List.reverseRecOn generalizing x with
  | nil =>
    constructor
    · intro h
      exact absurd h (AList.notMem_empty x)
    · intro h
      cases h with
      | name before _ => exact absurd before (Nat.not_lt_zero _)
      | moved before _ _ => exact absurd before (Nat.not_lt_zero _)
  | append_singleton xs p ih =>
    obtain ⟨name, v⟩ := p
    have hlen : (xs.map Prod.fst).length = xs.length := List.length_map _
    have hconcat := @taken_concat K move (xs.map Prod.fst) name x
    rw [hlen] at hconcat
    rw [registerAll_concat, mem_register, ih, ih, List.map_append, List.length_append]
    simpa using hconcat.symm

/-- The map has as many keys as there were entries exactly if no entry clobbers a key, and never
more. -/
theorem registerAll_length (xs : List (K × V)) :
    (registerAll move ∅ 0 xs).keys.length ≤ xs.length ∧
      ((registerAll move ∅ 0 xs).keys.length = xs.length ↔ Unclobbered move (xs.map Prod.fst)) := by
  induction xs using List.reverseRecOn with
  | nil =>
    refine ⟨le_refl _, fun _ i s hs => ?_, fun _ => rfl⟩
    simp at hs
  | append_singleton xs p ih =>
    obtain ⟨name, v⟩ := p
    have hlen : (xs.map Prod.fst).length = xs.length := List.length_map _
    have hconcat := @unclobbered_concat K move (xs.map Prod.fst) name
    rw [hlen, ← mem_registerAll, ← mem_registerAll] at hconcat
    rw [registerAll_concat, register_length, List.map_append, List.length_append]
    simp only [List.map_cons, List.map_nil, List.length_singleton, hconcat, Nat.zero_add]
    obtain ⟨hle, hiff⟩ := ih
    rw [← hiff]
    by_cases hclob : name ∈ registerAll move ∅ 0 xs ∧ move name xs.length ∈ registerAll move ∅ 0 xs
    · rw [if_pos hclob]
      refine ⟨by omega, by omega, fun h => absurd hclob.2 (h.2 hclob.1)⟩
    · rw [if_neg hclob]
      refine ⟨by omega, fun h => ⟨by omega, fun h1 h2 => hclob ⟨h1, h2⟩⟩, by omega⟩

/-- No entry is lost when no key is clobbered. -/
theorem registerAll_keeps {xs : List (K × V)} (h : Unclobbered move (xs.map Prod.fst)) :
    ∀ p ∈ xs, ∃ y, (registerAll move ∅ 0 xs).lookup y = some p.2 := by
  induction xs using List.reverseRecOn with
  | nil =>
    intro p hp
    cases hp
  | append_singleton xs p ih =>
    obtain ⟨name, v⟩ := p
    have hlen : (xs.map Prod.fst).length = xs.length := List.length_map _
    rw [List.map_append] at h
    obtain ⟨hbefore, hnew⟩ := unclobbered_concat.mp h
    rw [hlen, ← mem_registerAll, ← mem_registerAll] at hnew
    intro q hq
    rw [registerAll_concat, Nat.zero_add]
    rcases List.mem_append.mp hq with hq | hq
    · obtain ⟨y, hy⟩ := ih hbefore q hq
      exact register_keeps hnew hy
    · obtain rfl := List.mem_singleton.mp hq
      exact ⟨name, lookup_register⟩

end Register

end MiniEvm.Framework
