import Mathlib

namespace MiniEvm.Framework

/-- A writer that holds back what does not fill its buffer: `out` has reached the file. -/
structure BufferedWriter (β : Type) where
  out : List β
  buf : List β

namespace BufferedWriter

variable {β : Type} (size : Nat)

def new : BufferedWriter β := ⟨[], []⟩

/-- A write that fits is held back. Otherwise the buffer is filled and written out, and what is
left is held back if it fits an empty buffer; a write to an empty buffer that does not fit goes
straight to the file. -/
def write (w : BufferedWriter β) (p : List β) : BufferedWriter β :=
  let available := size - w.buf.length
  if p.length ≤ available then ⟨w.out, w.buf ++ p⟩
  else if w.buf = [] then ⟨w.out ++ p, []⟩
  else
    let out := w.out ++ w.buf ++ p.take available
    let rest := p.drop available
    if rest.length ≤ size then ⟨out, rest⟩ else ⟨out ++ rest, []⟩

def flush (w : BufferedWriter β) : BufferedWriter β := ⟨w.out ++ w.buf, []⟩

/-- Everything that was written so far. -/
def stream (w : BufferedWriter β) : List β := w.out ++ w.buf

theorem write_stream (w : BufferedWriter β) (p : List β) :
    (w.write size p).stream = w.stream ++ p := by
  unfold write stream
  simp only
  split_ifs with hfit hempty hrest
  · simp
  · simp [hempty]
  · simp
  · simp

theorem flush_stream (w : BufferedWriter β) : w.flush.stream = w.stream := by
  simp [flush, stream]

/-- How much a writer that holds back `n` holds back after a write of `k` more. -/
def held (n k : Nat) : Nat :=
  if k ≤ size - n then n + k
  else if n = 0 then 0
  else if k - (size - n) ≤ size then k - (size - n) else 0

theorem write_held (w : BufferedWriter β) (p : List β) :
    (w.write size p).buf.length = held size w.buf.length p.length := by
  unfold write held
  simp only [List.length_eq_zero_iff, List.length_drop]
  split_ifs <;> simp

theorem foldl_write_stream (w : BufferedWriter β) (ps : List (List β)) :
    (ps.foldl (write size) w).stream = w.stream ++ ps.flatten := by
  induction ps generalizing w with
  | nil => simp
  | cons p ps ih => rw [List.foldl_cons, ih, write_stream, List.flatten_cons, List.append_assoc]

theorem foldl_write_held (w : BufferedWriter β) (ps : List (List β)) :
    (ps.foldl (write size) w).buf.length =
      (ps.map List.length).foldl (held size) w.buf.length := by
  induction ps generalizing w with
  | nil => rfl
  | cons p ps ih => rw [List.foldl_cons, ih, write_held, List.map_cons, List.foldl_cons]

/-- The file is complete exactly when nothing is held back. -/
theorem out_eq_stream_iff (w : BufferedWriter β) : w.out = w.stream ↔ w.buf.length = 0 := by
  simp [stream]

end BufferedWriter

end MiniEvm.Framework
