import Mathlib.Data.Nat.Digits.Defs
import Mathlib.Data.List.Infix
import Mathlib.Data.UInt

/-!
# Strings of UTF-16 code units

The strings of JavaScript: finite sequences of 16-bit code units, with no
condition on surrogates. Literals are written as Lean strings of the basic
multilingual plane (`lit`).

Natural numbers are written in decimal (`decimal`); `toNumber` reads the strings
that consist of decimal digits only, and undoes it (`toNumber_decimal`).
-/

namespace Utf16

/-- A sequence of UTF-16 code units. -/
abbrev Str := List UInt16

/-- The code units of a literal. -/
def lit (s : String) : Str := s.toList.map fun c => c.val.toUInt16

/-! ### Decimal numbers -/

/-- The code unit of a decimal digit. -/
def digit (d : ℕ) : UInt16 := UInt16.ofNat (48 + d)

/-- A decimal digit. -/
def isDigit (c : UInt16) : Bool := 48 ≤ c.toNat && c.toNat ≤ 57

/-- A natural number in decimal, without leading zeros. -/
def decimal (n : ℕ) : Str := if n = 0 then [48] else (Nat.digits 10 n).reverse.map digit

/-- The value of a string of decimal digits. -/
def ofDecimal (s : Str) : ℕ := s.foldl (fun a c => 10 * a + (c.toNat - 48)) 0

/-- The number a nonempty string of decimal digits denotes; `none` for all other
strings. -/
def toNumber (s : Str) : Option ℕ :=
  if s ≠ [] ∧ s.all isDigit then some (ofDecimal s) else none

/-- Digits follow each other from 48 on. -/
theorem toNat_digit {d : ℕ} (h : d < 10) : (digit d).toNat = 48 + d := by
  rw [digit, UInt16.toNat_ofNat']
  omega

/-- They are digits. -/
theorem isDigit_digit {d : ℕ} (h : d < 10) : isDigit (digit d) = true := by
  simp [isDigit, toNat_digit h]
  omega

/-- A decimal number consists of digits. -/
theorem all_isDigit_decimal (n : ℕ) : (decimal n).all isDigit = true := by
  unfold decimal
  split
  · decide
  · rw [List.all_eq_true]
    intro c hc
    obtain ⟨d, hd, rfl⟩ := List.mem_map.mp hc
    exact isDigit_digit (Nat.digits_lt_base (by norm_num) (List.mem_reverse.mp hd))

/-- There is one at least. -/
theorem decimal_ne_nil (n : ℕ) : decimal n ≠ [] := by
  unfold decimal
  split
  · simp
  · next h => simpa using Nat.digits_ne_nil_iff_ne_zero.mpr h

/-- Reading digits, most significant first, computes `Nat.ofDigits`. -/
theorem ofDecimal_reverse_map_digit {ds : List ℕ} (h : ∀ d ∈ ds, d < 10) :
    ofDecimal (ds.reverse.map digit) = Nat.ofDigits 10 ds := by
  induction ds with
  | nil => rfl
  | cons d ds ih =>
    have hd : d < 10 := h d List.mem_cons_self
    have ih' := ih fun e he => h e (List.mem_cons_of_mem _ he)
    rw [ofDecimal] at ih' ⊢
    rw [List.reverse_cons, List.map_append, List.foldl_append, ih', Nat.ofDigits_cons]
    simp only [List.map_cons, List.map_nil, List.foldl_cons, List.foldl_nil, toNat_digit hd]
    norm_num
    omega

/-- The digits of a number denote it. -/
theorem ofDecimal_decimal (n : ℕ) : ofDecimal (decimal n) = n := by
  unfold decimal
  split
  · next h => rw [h]; rfl
  · rw [ofDecimal_reverse_map_digit fun d hd => Nat.digits_lt_base (by norm_num) hd,
      Nat.ofDigits_digits]

/-- **Decimal round trip.** What is written of a number is read as the number. -/
@[simp] theorem toNumber_decimal (n : ℕ) : toNumber (decimal n) = some n := by
  rw [toNumber, if_pos ⟨decimal_ne_nil n, all_isDigit_decimal n⟩, ofDecimal_decimal]

end Utf16
