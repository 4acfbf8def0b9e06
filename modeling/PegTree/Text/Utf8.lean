/-!
# Reading UTF-8

`Utf8.decode` reads bytes one at a time.  Between two bytes the reader is either at a boundary or
inside a character that still misses some bytes; the second byte of a character is held to the
narrower range that rules out overlong forms, surrogates and code points above U+10FFFF.  A text is
returned only if the bytes are well-formed to the end, else the first fault: the index at which the
bad sequence starts, and how many bytes of it could have begun a character.
-/

namespace PegTree

namespace Utf8

/-- Why bytes are not a text.  `index` is where the bad sequence starts; `length` is the number of
its bytes that begin some character, at least one, and none if the bytes end inside a character. -/
structure Fault where
  index : Nat
  length : Option Nat
deriving DecidableEq, Repr

/-- The wording of a fault. -/
def Fault.describe (f : Fault) : String :=
  match f.length with
  | some n => s!"invalid utf-8 sequence of {n} bytes from index {f.index}"
  | none => s!"incomplete utf-8 byte sequence from index {f.index}"

/-- A character of which the first bytes have been read. -/
structure Pending where
  /-- Where its first byte stands. -/
  start : Nat
  /-- Bytes still to come, the next one included. -/
  missing : Nat
  /-- Bounds of the next byte. -/
  low : Nat
  high : Nat
  /-- The code point, as far as it has been read. -/
  code : Nat
deriving DecidableEq, Repr

/-- What the first byte of a character of several bytes asks for. -/
def begin? (index : Nat) (b : Nat) : Option Pending :=
  -- the bounds of the next byte rule out overlong forms (E0, F0), surrogates (ED) and more (F4)
  if b < 0xC2 then none
  else if b < 0xE0 then some ⟨index, 1, 0x80, 0xBF, b - 0xC0⟩
  else if b = 0xE0 then some ⟨index, 2, 0xA0, 0xBF, 0⟩
  else if b = 0xED then some ⟨index, 2, 0x80, 0x9F, 0xD⟩
  else if b < 0xF0 then some ⟨index, 2, 0x80, 0xBF, b - 0xE0⟩
  else if b = 0xF0 then some ⟨index, 3, 0x90, 0xBF, 0⟩
  else if b < 0xF4 then some ⟨index, 3, 0x80, 0xBF, b - 0xF0⟩
  else if b = 0xF4 then some ⟨index, 3, 0x80, 0x8F, 4⟩
  else none

/-- Reads on from a boundary (no pending character) or from inside a character. -/
def decodeFrom (index : Nat) : Option Pending → List UInt8 → Except Fault (List Char)
  | none, [] => .ok []
  | some p, [] => .error ⟨p.start, none⟩
  | none, byte :: more =>
    let b := byte.toNat
    if b < 0x80 then (Char.ofNat b :: ·) <$> decodeFrom (index + 1) none more
    else match begin? index b with
      | some p => decodeFrom (index + 1) (some p) more
      | none => .error ⟨index, some 1⟩
  | some p, byte :: more =>
    let b := byte.toNat
    if p.low ≤ b ∧ b ≤ p.high then
      let code := p.code * 64 + (b - 0x80)
      if p.missing = 1 then (Char.ofNat code :: ·) <$> decodeFrom (index + 1) none more
      else
        -- only the second byte has narrower bounds
        decodeFrom (index + 1)
          (some { p with missing := p.missing - 1, low := 0x80, high := 0xBF, code := code }) more
    else .error ⟨p.start, some (index - p.start)⟩

/-- The text that the bytes encode, or the first fault. -/
def decode (bytes : List UInt8) : Except Fault (List Char) :=
  decodeFrom 0 none bytes

/-- The bytes without one byte-order mark in front. -/
def stripMark : List UInt8 → List UInt8
  | 0xEF :: 0xBB :: 0xBF :: rest => rest
  | bytes => bytes

end Utf8

end PegTree
