import PegTree.Proofs.Text.Encoding
import Mathlib.Tactic.SplitIfs

/-!
# The order of bytes

Texts are in the same order whether one compares their characters or the bytes of their encodings
(`encode_lt_encode`).  The first byte of a character grows with its code point and says how many bytes there
are; behind it stand six bits each, the highest first.
-/

namespace PegTree

namespace Utf8

/-- How many bytes a code point needs behind the first one. -/
def moreBytes (code : Nat) : Nat :=
  if code ≤ 0x7F then 0 else if code ≤ 0x7FF then 1 else if code ≤ 0xFFFF then 2 else 3

/-- What the first byte holds besides bits of the code point, by the number of the bytes behind it. -/
def leadMark : Nat → Nat
  | 0 => 0x00
  | 1 => 0xC0
  | 2 => 0xE0
  | _ => 0xF0

/-- What is left of a code point in front of the bits for so many bytes. -/
def frontBits : Nat → Nat → Nat
  | 0, code => code
  | k + 1, code => frontBits k (code / 64)

/-- The first byte of a code point. -/
def leadByte (code : Nat) : Nat :=
  leadMark (moreBytes code) + frontBits (moreBytes code) code

/-- Bytes for the lowest bits of a code point, six bits each. -/
def tailBytes : Nat → Nat → List UInt8
  | 0, _ => []
  | k + 1, code => tailBytes k (code / 64) ++ [UInt8.ofNat (code % 64 + 0x80)]

variable {v w : Nat}

theorem ofNat_lt_ofNat (h : v < w) (hw : w < 256) : UInt8.ofNat v < UInt8.ofNat w :=
  (UInt8.ofNat_lt_iff_lt (Nat.lt_trans h hw) hw).mpr h

theorem toNat_val_lt (c : Char) : c.val.toNat < 0x110000 := by
  rcases c.valid with h | h
  · exact Nat.lt_trans h (by decide)
  · exact h.2

theorem encodeChar_eq_leadByte_cons (c : Char) : String.utf8EncodeChar c =
    UInt8.ofNat (leadByte c.val.toNat) :: tailBytes (moreBytes c.val.toNat) c.val.toNat := by
  have hc := toNat_val_lt c
  rw [String.utf8EncodeChar, leadByte, moreBytes]
  generalize c.val.toNat = v at hc ⊢
  split_ifs
  · simp [leadMark, frontBits, tailBytes]
  · have hlead : v / 64 % 0x20 + 0xC0 = 0xC0 + v / 64 := by omega
    simp [leadMark, frontBits, tailBytes, hlead]
  · have hlead : v / 4096 % 0x10 + 0xE0 = 0xE0 + v / 4096 := by omega
    simp [leadMark, frontBits, tailBytes, hlead, Nat.div_div_eq_div_mul]
  · have hlead : v / 262144 % 8 + 0xF0 = 0xF0 + v / 262144 := by omega
    simp [leadMark, frontBits, tailBytes, hlead, Nat.div_div_eq_div_mul]

theorem leadByte_lt (h : v < 0x110000) : leadByte v < 256 := by
  rw [leadByte, moreBytes]
  split_ifs <;> simp only [leadMark, frontBits] <;> omega

/-- The first byte grows with the code point. -/
theorem leadByte_mono (h : v ≤ w) : leadByte v ≤ leadByte w := by
  rw [leadByte, leadByte, moreBytes, moreBytes]
  split_ifs <;> simp only [leadMark, frontBits] <;> omega

/-- The first byte says how many bytes there are. -/
theorem moreBytes_eq_of_leadByte_eq (hv : v < 0x110000) (hw : w < 0x110000) (h : leadByte v = leadByte w) :
    moreBytes v = moreBytes w := by
  revert h
  rw [leadByte, leadByte, moreBytes, moreBytes]
  split_ifs <;> intro h
  -- what is left are different numbers of bytes, whose first bytes are in different ranges
  all_goals first
    | rfl
    | simp only [leadMark, frontBits] at h; omega

/-- Where the bits in front are the same, the bytes for the bits behind them are in the order of the code
points. -/
theorem tailBytes_lt {k : Nat} (h : v < w) (hfront : frontBits k v = frontBits k w) (s t : List UInt8) :
    tailBytes k v ++ s < tailBytes k w ++ t := by
  induction k generalizing v w s t with
  | zero => exact absurd hfront (Nat.ne_of_lt h)
  | succ k ih =>
    rw [tailBytes, tailBytes, List.append_assoc, List.append_assoc]
    rcases Nat.lt_or_eq_of_le (Nat.div_le_div_right (c := 64) (Nat.le_of_lt h)) with hlt | heq
    · exact ih hlt hfront _ _
    · rw [heq]
      have hbyte : UInt8.ofNat (v % 64 + 0x80) < UInt8.ofNat (w % 64 + 0x80) :=
        ofNat_lt_ofNat (by omega) (by omega)
      exact List.append_left_lt (List.cons_lt_cons_iff.mpr (.inl hbyte))

/-- The bytes of the smaller character come first, whatever follows. -/
theorem encodeChar_append_lt {c d : Char} (h : c < d) (s t : List UInt8) :
    String.utf8EncodeChar c ++ s < String.utf8EncodeChar d ++ t := by
  have hlt : c.val.toNat < d.val.toNat := h
  rw [encodeChar_eq_leadByte_cons, encodeChar_eq_leadByte_cons, List.cons_append, List.cons_append,
    List.cons_lt_cons_iff]
  have hc := toNat_val_lt c
  have hd := toNat_val_lt d
  rcases Nat.lt_or_eq_of_le (leadByte_mono (Nat.le_of_lt hlt)) with hlead | hlead
  · exact .inl (ofNat_lt_ofNat hlead (leadByte_lt hd))
  · have hmore := moreBytes_eq_of_leadByte_eq hc hd hlead
    refine .inr ⟨by rw [hlead], ?_⟩
    have hfront : frontBits (moreBytes d.val.toNat) c.val.toNat = frontBits (moreBytes d.val.toNat) d.val.toNat := by
      rw [leadByte, leadByte, hmore] at hlead
      exact Nat.add_left_cancel hlead
    rw [hmore]
    exact tailBytes_lt hlt hfront s t

/-- The encodings of texts are in the order of the texts. -/
theorem encode_lt_encode {s t : List Char} (h : s < t) : encode s < encode t := by
  induction h with
  | @nil c t =>
    rw [encode_cons, encodeChar_eq_leadByte_cons]
    exact List.nil_lt_cons _ _
  | @cons c s t _ ih =>
    rw [encode_cons, encode_cons]
    exact List.append_left_lt ih
  | @rel c s d t hlt =>
    rw [encode_cons, encode_cons]
    exact encodeChar_append_lt hlt _ _

end Utf8

end PegTree
