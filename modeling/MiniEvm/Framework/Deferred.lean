import Mathlib.Data.List.Basic

namespace MiniEvm.Framework

/-- A header that is put into a text later: its place, and the size that it tells. -/
structure Mark where
  offset : Nat
  size : Nat

/-- What is written to a text with headers: data, a header whose size is not known yet, or a
finished one. -/
inductive Token (α : Type) where
  | data (b : List α)
  | opened (size : Nat)
  | closed (size : Nat)

variable {α : Type}

/-- The marks are in order and within a text of the given length. -/
def Ordered (length : Nat) : Nat → List Mark → Prop
  | pos, [] => pos ≤ length
  | pos, m :: ms => pos ≤ m.offset ∧ Ordered length m.offset ms

theorem Ordered.le {length pos : Nat} {ms : List Mark} (h : Ordered length pos ms) : pos ≤ length := by
  induction ms generalizing pos with
  | nil => exact h
  | cons m ms ih => exact Nat.le_trans h.1 (ih h.2)

section Weave

variable (header : Nat → List α) (str : List α)

/-- The text from a position on, with the headers put in. -/
def weave : Nat → List Mark → List α
  | pos, [] => str.drop pos
  | pos, m :: ms => (str.drop pos).take (m.offset - pos) ++ header m.size ++ weave m.offset ms

end Weave

namespace Token

/-- The data of the tokens alone. -/
def text : List (Token α) → List α
  | [] => []
  | data b :: ts => b ++ text ts
  | opened _ :: ts | closed _ :: ts => text ts

/-- The headers, where the data before the tokens has the given length. -/
def marks : Nat → List (Token α) → List Mark
  | _, [] => []
  | pos, data b :: ts => marks (pos + b.length) ts
  | pos, opened n :: ts | pos, closed n :: ts => ⟨pos, n⟩ :: marks pos ts

/-- The room that the finished headers take. -/
def room (headsize : Nat → Nat) : List (Token α) → Nat
  | [] => 0
  | data _ :: ts | opened _ :: ts => room headsize ts
  | closed n :: ts => headsize n + room headsize ts

/-- All of the tokens in their places. -/
def flatten (header : Nat → List α) : List (Token α) → List α
  | [] => []
  | data b :: ts => b ++ flatten header ts
  | opened n :: ts | closed n :: ts => header n ++ flatten header ts

def isClosed : Token α → Bool
  | opened _ => false
  | _ => true

variable {ts us : List (Token α)}

@[simp] theorem text_append : text (ts ++ us) = text ts ++ text us := by
  induction ts with
  | nil => rfl
  | cons t ts ih => cases t <;> simp [text, ih]

@[simp] theorem marks_append (pos : Nat) :
    marks pos (ts ++ us) = marks pos ts ++ marks (pos + (text ts).length) us := by
  induction ts generalizing pos with
  | nil => rfl
  | cons t ts ih => cases t <;> simp [marks, text, ih, Nat.add_assoc]

@[simp] theorem room_append (headsize : Nat → Nat) :
    room headsize (ts ++ us) = room headsize ts + room headsize us := by
  induction ts with
  | nil => simp [room]
  | cons t ts ih => cases t <;> simp [room, ih, Nat.add_assoc]

@[simp] theorem flatten_append (header : Nat → List α) :
    flatten header (ts ++ us) = flatten header ts ++ flatten header us := by
  induction ts with
  | nil => rfl
  | cons t ts ih => cases t <;> simp [flatten, ih]

theorem marks_ordered (pos : Nat) (ts : List (Token α)) :
    Ordered (pos + (text ts).length) pos (marks pos ts) := by
  induction ts generalizing pos with
  | nil => exact Nat.le_refl _
  | cons t ts ih =>
    cases t with
    | opened n | closed n => exact ⟨Nat.le_refl _, ih pos⟩
    | data b =>
      have hrest := ih (pos + b.length)
      have hlength : pos + (text (data b :: ts)).length = pos + b.length + (text ts).length := by
        simp [text, Nat.add_assoc]
      rw [hlength, marks]
      cases hmarks : marks (pos + b.length) ts with
      | nil =>
        rw [hmarks] at hrest
        exact Nat.le_trans (Nat.le_add_right _ _) hrest
      | cons m ms =>
        rw [hmarks] at hrest
        exact ⟨Nat.le_trans (Nat.le_add_right _ _) hrest.1, hrest.2⟩

/-- Putting the headers into the data gives the tokens in their places. -/
theorem weave_marks (header : Nat → List α) (front : List α) {pos : Nat} (hpos : pos ≤ front.length)
    (ts : List (Token α)) :
    weave header (front ++ text ts) pos (marks front.length ts) =
      front.drop pos ++ flatten header ts := by
  -- the data before the tokens grows by each piece of data
  induction ts generalizing front pos with
  | nil => simp [weave, marks, text, flatten]
  | cons t ts ih =>
    cases t with
    | data b =>
      have hgrown := ih (front ++ b) (by simp; omega : pos ≤ (front ++ b).length)
      rw [List.length_append] at hgrown
      simp only [text, marks, flatten, ← List.append_assoc]
      rw [hgrown, List.drop_append_of_le_length hpos]
    | opened n | closed n =>
      have hrest := ih front (Nat.le_refl _)
      simp only [text, marks, weave, flatten] at hrest ⊢
      rw [hrest, List.drop_append_of_le_length hpos]
      have htake : (front.drop pos ++ text ts).take (front.length - pos) = front.drop pos := by
        rw [← List.length_drop, List.take_left]
      rw [htake]
      simp

theorem flatten_length {header : Nat → List α} {headsize : Nat → Nat}
    (hsize : ∀ n, closed n ∈ ts → (header n).length = headsize n)
    (hclosed : ∀ t ∈ ts, t.isClosed = true) :
    (flatten header ts).length = (text ts).length + room headsize ts := by
  induction ts with
  | nil => rfl
  | cons t ts ih =>
    have hrest := ih (fun n hn => hsize n (List.mem_cons_of_mem _ hn))
      fun u hu => hclosed u (List.mem_cons_of_mem _ hu)
    cases t with
    | data b =>
      simp only [flatten, text, room, List.length_append, hrest]
      omega
    | opened n =>
      have hopen := hclosed _ List.mem_cons_self
      cases hopen
    | closed n =>
      simp only [flatten, text, room, List.length_append, hrest, hsize n List.mem_cons_self]
      omega

end Token

end MiniEvm.Framework
