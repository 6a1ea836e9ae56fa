import MiniEvm.Common.Big
import MiniEvm.Framework.Deferred
import MiniEvm.Framework.Result

namespace MiniEvm.Rlp

open Math Framework

/-! ## Headers -/

/-- The number of bytes that a number takes. -/
def intsize (i : Nat) : Nat :=
  if i / 256 = 0 then 1 else intsize (i / 256) + 1

/-- A number of 64 bits in as few bytes as it takes. -/
def putint (i : Nat) : Bytes :=
  if i < 2^8 then toBytes 1 i
  else if i < 2^16 then toBytes 2 i
  else if i < 2^24 then toBytes 3 i
  else if i < 2^32 then toBytes 4 i
  else if i < 2^40 then toBytes 5 i
  else if i < 2^48 then toBytes 6 i
  else if i < 2^56 then toBytes 7 i
  else toBytes 8 i

def headsize (size : Nat) : Nat := if size < 56 then 1 else 1 + intsize size

def puthead (smalltag largetag : UInt8) (size : Nat) : Bytes :=
  if size < 56 then [smalltag + UInt8.ofNat size]
  else (largetag + UInt8.ofNat (putint size).length) :: putint size

/-- `listhead`. -/
abbrev ListHead := Mark

/-- `listhead.encode`. -/
def listHeader (size : Nat) : Bytes := puthead 0xC0 0xF7 size

/-- `len(b) == 1 && b[0] <= 0x7F`. -/
def fitsByte : Bytes → Bool
  | [c] => c ≤ 0x7F
  | _ => false

/-! ## The buffer -/

/-- The string data and, apart from it, the headers of the lists. -/
structure EncBuf where
  str : Bytes
  lheads : List ListHead
  lhsize : Nat

namespace EncBuf

def new : EncBuf := ⟨[], [], 0⟩

variable (w : EncBuf)

def size : Nat := w.str.length + w.lhsize

def append (b : Bytes) : EncBuf := { w with str := w.str ++ b }

def encodeStringHeader (size : Nat) : EncBuf := w.append (puthead 0x80 0xB7 size)

def encodeString (b : Bytes) : EncBuf :=
  if fitsByte b then w.append b else (w.encodeStringHeader b.length).append b

/-- Starts a list. Its header is a pointer, here its place among the headers. -/
def list : Nat × EncBuf :=
  (w.lheads.length, { w with lheads := w.lheads ++ [⟨w.str.length, w.lhsize⟩] })

/-- Ends the list with the given header: until now its size is that of the headers before it. -/
def listEnd (lh : Nat) : EncBuf :=
  match w.lheads[lh]? with
  | none => w
  | some head =>
    let size := w.size - head.offset - head.size
    ⟨w.str, w.lheads.set lh ⟨head.offset, size⟩, w.lhsize + headsize size⟩

end EncBuf

/-! ## Values -/

/-- The values by the writer that their type selects: a byte slice, byte array or string is `bytes`,
and a slice, array or struct is `list`. -/
inductive Value where
  | raw (b : Bytes)
  | uint (i : UInt64)
  | bool (b : Bool)
  | bigInt (i : Int)
  | bytes (b : Bytes)
  | list (vs : List Value)
  | nilInterface
  | nilBytes
  | nilList

mutual

/-- The writers; absent is the error that a negative integer gives. -/
def write : Value → EncBuf → Option EncBuf
  | .raw b, w => some (w.append b)
  | .uint i, w =>
    some (if i = 0 then w.append [0x80]
      else if i < 128 then w.append [i.toUInt8]
      else w.append (UInt8.ofNat (0x80 + (putint i.toNat).length) :: putint i.toNat))
  | .bool b, w => some (w.append [if b then 0x01 else 0x80])
  | .bigInt i, w =>
    if i < 0 then none
    else if i = 0 then some (w.append [0x80])
    else some (w.encodeString (bigBytes i))
  | .bytes b, w => some (w.encodeString b)
  | .list vs, w => (writeAll vs w.list.2).map fun w' => w'.listEnd w.list.1
  | .nilInterface, w => some (w.append [0xC0])
  | .nilBytes, w => some (w.append [0x80])
  | .nilList, w => some (w.list.2.listEnd w.list.1)

def writeAll : List Value → EncBuf → Option EncBuf
  | [], w => some w
  | v :: vs, w => (write v w).bind (writeAll vs)

end

/-! ## The three ways out -/

namespace EncBuf

/-- `copy(out[pos:], b)`, where `out` are the bytes before `pos` of a slice of the given length. -/
def copyTo (length : Nat) (out b : Bytes) : Bytes := out ++ b.take (length - out.length)

/-- The loop of `toBytes`. Writing a header behind the end of the slice panics. -/
def toBytesLoop (w : EncBuf) : List ListHead → Nat → Bytes → Option (Nat × Bytes)
  | [], strpos, out => some (strpos, out)
  | head :: heads, strpos, out =>
    (slice w.str strpos head.offset).bind fun piece =>
      let copied := copyTo w.size out piece
      let enc := listHeader head.size
      if copied.length + enc.length ≤ w.size then
        toBytesLoop w heads (strpos + (copied.length - out.length)) (copied ++ enc)
      else none

def toBytes (w : EncBuf) : Option Bytes :=
  (toBytesLoop w w.lheads 0 []).bind fun (strpos, out) =>
    (slice w.str strpos w.str.length).map fun piece => rightPad (copyTo w.size out piece) w.size

/-- The loop of `toWriter`: what is written to a writer that takes everything. -/
def toWriterLoop (w : EncBuf) : List ListHead → Nat → Option (List Bytes)
  | [], strpos =>
    if strpos < w.str.length then some [w.str.drop strpos] else some []
  | head :: heads, strpos =>
    if strpos < head.offset then
      (slice w.str strpos head.offset).bind fun piece =>
        (toWriterLoop w heads (strpos + piece.length)).map fun rest =>
          piece :: listHeader head.size :: rest
    else (toWriterLoop w heads strpos).map fun rest => listHeader head.size :: rest

def toWriter (w : EncBuf) : Option (List Bytes) := toWriterLoop w w.lheads 0

end EncBuf

/-- `encReader`; the buffer is given back at the end. -/
structure EncReader where
  buf : Option EncBuf
  lhpos : Nat
  strpos : Nat
  piece : Option Bytes

namespace EncReader

/-- The next piece, absent at the end; a slice out of range panics. -/
def next (r : EncReader) : Option (Option Bytes × EncReader) :=
  match r.buf, r.piece with
  | none, _ => some (none, r)
  | some _, some p => some (some p, r)
  | some buf, none =>
    match buf.lheads[r.lhpos]? with
    | some head =>
      if r.strpos < head.offset then
        (slice buf.str r.strpos head.offset).map fun p => (some p, { r with strpos := head.offset })
      else some (some (listHeader head.size), { r with lhpos := r.lhpos + 1 })
    | none =>
      if r.strpos < buf.str.length then
        some (some (buf.str.drop r.strpos), { r with strpos := buf.str.length })
      else some (none, r)

/-- The loop of `Read` into a slice of the given length, of which `out` is filled. Returns what was
read, whether the end was met, and the reader. -/
def readLoop (length : Nat) : Nat → EncReader → Bytes → Option (Bytes × Bool × EncReader)
  | 0, _, _ => none
  | fuel + 1, r, out =>
    r.next.bind fun
      | (none, r) => some (out, true, { r with buf := none, piece := none })
      | (some p, r) =>
        let copied := EncBuf.copyTo length out p
        let nn := copied.length - out.length
        if nn < p.length then some (copied, false, { r with piece := some (p.drop nn) })
        else readLoop length fuel { r with piece := none } copied

/-- The pieces that are left, at most. -/
def work (r : EncReader) : Nat :=
  (r.buf.elim 0 fun buf => buf.lheads.length - r.lhpos + (buf.str.length - r.strpos)) + 2

def read (r : EncReader) (length : Nat) : Option (Bytes × Bool × EncReader) :=
  readLoop length r.work r []

end EncReader

/-! ## The functions of the package -/

/-- The error of a negative `*big.Int`. -/
inductive RlpError where
  | negativeBigInt
  deriving DecidableEq

/-- `encbuf.encode` on an empty buffer. -/
def buffer (v : Value) : Result RlpError EncBuf :=
  match write v .new with
  | some w => .ok w
  | none => .error .negativeBigInt

def encodeToBytes (v : Value) : Result RlpError Bytes :=
  buffer v >>= fun w => .ofOption w.toBytes

/-- `Encode`, to a writer that takes everything. -/
def encode (v : Value) : Result RlpError (List Bytes) :=
  buffer v >>= fun w => .ofOption w.toWriter

/-- The size and the reader. -/
def encodeToReader (v : Value) : Result RlpError (Nat × EncReader) :=
  buffer v >>= fun w => .ok (w.size, ⟨some w, 0, 0, none⟩)

end MiniEvm.Rlp
