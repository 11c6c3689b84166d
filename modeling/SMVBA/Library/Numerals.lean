import Mathlib.Algebra.Order.Group.Int
import Mathlib.Data.UInt

/-!
# Numbers and bytes as text

Decimal numerals with a sign, and bytes as pairs of hexadecimal digits. `decimal?_repr` and
`hexDecode_hexEncode` say that what is written is read back.
-/

namespace Numerals

/-! ## Decimal -/

/-- The number that decimal digits stand for. -/
def digits? (s : List Char) : Option ℕ :=
  if s ≠ [] ∧ s.all Char.isDigit then some (Nat.ofDigitChars 10 s 0) else none

/-- The number of a decimal numeral, which may have a sign of either kind. -/
def decimal? : List Char → Option ℤ
  | '-' :: s => (digits? s).map fun n => -(n : ℤ)
  | '+' :: s => (digits? s).map Int.ofNat
  | s => (digits? s).map Int.ofNat

theorem digits?_toDigits (n : ℕ) : digits? (Nat.toDigits 10 n) = some n := by
  have hdigits : (Nat.toDigits 10 n).all Char.isDigit = true :=
    List.all_eq_true.mpr fun c hc => Nat.isDigit_of_mem_toDigits (by decide) (by decide) hc
  rw [digits?, if_pos ⟨Nat.toDigits_ne_nil, hdigits⟩, Nat.ofDigitChars_ten_toDigits]

/-- A numeral without a sign. -/
theorem decimal?_toDigits (n : ℕ) : decimal? (Nat.toDigits 10 n) = some (n : ℤ) := by
  have hsign : ∀ c s, Nat.toDigits 10 n = c :: s → c.isDigit = true := by
    intro c s heq
    exact Nat.isDigit_of_mem_toDigits (by decide) (by decide) (heq ▸ List.mem_cons_self)
  unfold decimal?
  split
  case h_1 s heq => exact absurd (hsign '-' s heq) (by decide)
  case h_2 s heq => exact absurd (hsign '+' s heq) (by decide)
  case h_3 => rw [digits?_toDigits, Option.map_some, Int.ofNat_eq_natCast]

/-- What is written in decimal is read back. -/
theorem decimal?_repr (x : ℤ) : decimal? x.repr.toList = some x := by
  cases x with
  | ofNat n =>
    rw [Int.repr, Nat.toList_repr, decimal?_toDigits]
    rfl
  | negSucc n =>
    rw [Int.repr, String.toList_append, Nat.toList_repr]
    show (digits? (Nat.toDigits 10 (n + 1))).map (fun n => -(n : ℤ)) = _
    rw [digits?_toDigits]
    rfl

/-! ## Hexadecimal -/

/-- The value of a hexadecimal digit, in either case. -/
def hexValue? (c : Char) : Option ℕ :=
  if '0' ≤ c ∧ c ≤ '9' then some (c.toNat - '0'.toNat)
  else if 'a' ≤ c ∧ c ≤ 'f' then some (c.toNat - 'a'.toNat + 10)
  else if 'A' ≤ c ∧ c ≤ 'F' then some (c.toNat - 'A'.toNat + 10)
  else none

/-- Two digits a byte, the high half first, in lower case. -/
def hexEncode (bytes : List UInt8) : List Char :=
  bytes.flatMap fun b => [Nat.digitChar (b.toNat / 16), Nat.digitChar (b.toNat % 16)]

/-- The bytes of pairs of digits. There are none when a character is not a digit or is left over. -/
def hexDecode : List Char → Option (List UInt8)
  | [] => some []
  | [_] => none
  | high :: low :: rest => do
    let h ← hexValue? high
    let l ← hexValue? low
    let bytes ← hexDecode rest
    return UInt8.ofNat (16 * h + l) :: bytes

theorem hexValue?_digitChar : ∀ n < 16, hexValue? (Nat.digitChar n) = some n := by decide

/-- What is written in hexadecimal is read back. -/
theorem hexDecode_hexEncode (bytes : List UInt8) : hexDecode (hexEncode bytes) = some bytes := by
  induction bytes with
  | nil => rfl
  | cons b rest ih =>
    have hhigh : hexValue? (Nat.digitChar (b.toNat / 16)) = some (b.toNat / 16) :=
      hexValue?_digitChar _ (by have := b.toNat_lt; omega)
    have hlow : hexValue? (Nat.digitChar (b.toNat % 16)) = some (b.toNat % 16) :=
      hexValue?_digitChar _ (by omega)
    have hbyte : 16 * (b.toNat / 16) + b.toNat % 16 = b.toNat := Nat.div_add_mod ..
    show hexDecode (_ :: _ :: hexEncode rest) = _
    rw [hexDecode, hhigh, hlow, ih]
    show some (UInt8.ofNat (16 * (b.toNat / 16) + b.toNat % 16) :: rest) = _
    rw [hbyte, UInt8.ofNat_toNat]

end Numerals
