import MiniEvm.Rlp.Encode

namespace MiniEvm.Rlp

open Math Framework

inductive Kind where
  | byte
  | string
  | list
  deriving DecidableEq

/-- The errors of the functions that take encoded values apart. -/
inductive RawError where
  | unexpectedEOF
  | canonSize
  | valueTooLarge
  | expectedString
  | expectedList
  deriving DecidableEq

/-- The size of a value of more than 55 bytes, from the `slen` bytes behind the first one. -/
def readSize (b : Bytes) (slen : Nat) : Result RawError Nat :=
  if slen > b.length then .error .unexpectedEOF
  else
    let s := ofBytes (b.take slen)
    if s < 56 ∨ b.head? = some 0 then .error .canonSize else .ok s

/-- `readKind` up to its last check, on an input of at least one byte. -/
def readTag (b : UInt8) (buf : Bytes) : Result RawError (Kind × Nat × Nat) :=
  if b < 0x80 then .ok (.byte, 0, 1)
  else if b < 0xB8 then
    -- strings that should have been single bytes
    if (b - 0x80).toNat = 1 ∧ buf.head?.any (· < 128) then .error .canonSize
    else .ok (.string, 1, (b - 0x80).toNat)
  else if b < 0xC0 then
    readSize buf (b - 0xB7).toNat >>= fun size => .ok (.string, (b - 0xB7).toNat + 1, size)
  else if b < 0xF8 then .ok (.list, 1, (b - 0xC0).toNat)
  else readSize buf (b - 0xF7).toNat >>= fun size => .ok (.list, (b - 0xF7).toNat + 1, size)

/-- The kind, and the sizes of the tag and of the content, of the value that starts the input. -/
def readKind : Bytes → Result RawError (Kind × Nat × Nat)
  | [] => .error .unexpectedEOF
  | b :: buf =>
    readTag b buf >>= fun (k, tagsize, contentsize) =>
      if contentsize > (b :: buf).length - tagsize then .error .valueTooLarge
      else .ok (k, tagsize, contentsize)

/-- The kind and the content of the first value, and the bytes after it. -/
def split (b : Bytes) : Result RawError (Kind × Bytes × Bytes) :=
  readKind b >>= fun (k, ts, cs) =>
    .ofOption (slice b ts (ts + cs)) >>= fun content =>
      .ofOption (slice b (ts + cs) b.length) >>= fun rest => .ok (k, content, rest)

def splitString (b : Bytes) : Result RawError (Bytes × Bytes) :=
  split b >>= fun (k, content, rest) =>
    if k = .list then .error .expectedString else .ok (content, rest)

def splitList (b : Bytes) : Result RawError (Bytes × Bytes) :=
  split b >>= fun (k, content, rest) =>
    if k ≠ .list then .error .expectedList else .ok (content, rest)

/-- The loop of `CountValues`: a value has at least one byte, so that as many rounds as bytes do. -/
def countValuesLoop : Nat → Bytes → Nat → Result RawError Nat
  | _, [], i => .ok i
  | 0, _ :: _, _ => .panic
  | rounds + 1, b :: buf, i =>
    readKind (b :: buf) >>= fun (_, tagsize, size) =>
      .ofOption (slice (b :: buf) (tagsize + size) (b :: buf).length) >>= fun rest =>
        countValuesLoop rounds rest (i + 1)

def countValues (b : Bytes) : Result RawError Nat := countValuesLoop b.length b 0

end MiniEvm.Rlp
