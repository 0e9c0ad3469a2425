import Mathlib.Data.List.Basic

/-!
# Hexadecimal texts

A byte is two digits, the high one first.  Digits are written in small letters and read in either case.
-/

namespace Hex

/-- The digit that stands for a number below 16. -/
def hexDigit (n : ℕ) : Char := if n < 10 then Char.ofNat (48 + n) else Char.ofNat (87 + n)

/-- The value of a hexadecimal digit. -/
def hexValue (c : Char) : ℕ :=
  if '0' ≤ c ∧ c ≤ '9' then c.toNat - 48
  else if 'a' ≤ c ∧ c ≤ 'f' then c.toNat - 87
  else if 'A' ≤ c ∧ c ≤ 'F' then c.toNat - 55
  else 0

def toHex (bytes : List UInt8) : List Char :=
  bytes.flatMap (fun b => [hexDigit (b.toNat / 16), hexDigit (b.toNat % 16)])

/-- The bytes of a text of hexadecimal digits, two digits a byte. -/
def fromHex : List Char → List UInt8
  | a :: b :: rest => UInt8.ofNat (16 * hexValue a + hexValue b) :: fromHex rest
  | [a] => [UInt8.ofNat (hexValue a)]
  | [] => []

theorem hexValue_hexDigit : ∀ n < 16, hexValue (hexDigit n) = n := by decide

theorem toHex_cons (b : UInt8) (bytes : List UInt8) :
  toHex (b :: bytes) = hexDigit (b.toNat / 16) :: hexDigit (b.toNat % 16) :: toHex bytes
  := rfl

theorem fromHex_toHex (bytes : List UInt8) : fromHex (toHex bytes) = bytes
  := by
  induction bytes with
  | nil => rfl
  | cons b bytes ih =>
    have hlt := b.toNat_lt
    rw [toHex_cons, fromHex, ih, hexValue_hexDigit _ (by omega), hexValue_hexDigit _ (by omega),
      Nat.div_add_mod, UInt8.ofNat_toNat]

theorem mem_toHex {bytes : List UInt8} {c : Char} (h : c ∈ toHex bytes) : ∃ n < 16, c = hexDigit n
  := by
  obtain ⟨b, hb, hc⟩ := List.mem_flatMap.mp h
  have hlt := b.toNat_lt
  rw [List.mem_cons, List.mem_singleton] at hc
  rcases hc with hhigh | hlow
  · exact ⟨b.toNat / 16, by omega, hhigh⟩
  · exact ⟨b.toNat % 16, by omega, hlow⟩

end Hex
