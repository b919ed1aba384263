import Enc28j60Udp.Foundations.Bytes
import Mathlib.Data.List.Basic

/-!
# Hexadecimal digits

A byte as its two uppercase hexadecimal digits, the high one first, and the reader of such digits.
The reader undoes the writer (`readHex_flatMap_hexPair`), so that equal digits mean equal bytes.
-/

namespace Enc28j60Udp

/-- The character of the digit `n`. -/
def hexDigit (n : ℕ) : UInt8 := if n < 10 then UInt8.ofNat (n + 0x30) else UInt8.ofNat (n + 0x37)

/-- The two digits of a byte. -/
def hexPair (b : UInt8) : List UInt8 := [hexDigit (b.toNat / 16), hexDigit (b.toNat % 16)]

/-- The value of a digit. -/
def hexValue (c : UInt8) : Option ℕ :=
  if 0x30 ≤ c.toNat ∧ c.toNat ≤ 0x39 then some (c.toNat - 0x30)
  else if 0x41 ≤ c.toNat ∧ c.toNat ≤ 0x46 then some (c.toNat - 0x37)
  else none

/-- Read bytes, two digits each. -/
def readHex : List UInt8 → Option (List UInt8)
  | [] => some []
  | [_] => none
  | c :: d :: cs => do
    let high ← hexValue c
    let low ← hexValue d
    return UInt8.ofNat (16 * high + low) :: (← readHex cs)

theorem hexValue_hexDigit {n : ℕ} (hn : n < 16) : hexValue (hexDigit n) = some n := by
  revert n
  decide

theorem readHex_hexPair_append (b : UInt8) (cs : List UInt8) :
    readHex (hexPair b ++ cs) = (readHex cs).map (b :: ·) := by
  have hb : b.toNat < 256 := b.toNat_lt
  have hsum : UInt8.ofNat (16 * (b.toNat / 16) + b.toNat % 16) = b := by
    rw [Nat.div_add_mod, UInt8.ofNat_toNat]
  rw [hexPair, List.cons_append, List.cons_append, List.nil_append, readHex,
    hexValue_hexDigit (by omega), hexValue_hexDigit (by omega)]
  simp only [Option.bind_eq_bind, Option.bind_some, hsum]
  cases readHex cs <;> rfl

/-- Digits read back as the bytes they were written from. -/
theorem readHex_flatMap_hexPair (bs : List UInt8) : readHex (bs.flatMap hexPair) = some bs := by
  induction bs with
  | nil => rfl
  | cons b bs ih => rw [List.flatMap_cons, readHex_hexPair_append, ih, Option.map_some]

end Enc28j60Udp
