import Nanoservices.Library.Utf16

/-!
# Texts in UTF-16 and UTF-8

A text of Unicode characters in UTF-16 (`encode`) and in UTF-8 (`utf8`). The well-formed
strings of code units are the encodings of texts (`wellFormed_iff`). `decode` reads all
strings, with U+FFFD for a lone surrogate.

A C string ends at the first zero byte (`cBytes`). In UTF-8 that is the first U+0000
(`cBytes_utf8`).
-/

namespace Utf16

/-! ### Surrogates -/

/-- The first half of a surrogate pair. -/
def isHigh (u : UInt16) : Bool := 0xD800 ≤ u.toNat && u.toNat < 0xDC00

/-- The second half. -/
def isLow (u : UInt16) : Bool := 0xDC00 ≤ u.toNat && u.toNat < 0xE000

/-- Surrogates come in pairs only. -/
inductive WellFormed : Str → Prop
  | nil : WellFormed []
  | unit {u : UInt16} {s : Str} :
      isHigh u = false → isLow u = false → WellFormed s → WellFormed (u :: s)
  | pair {hi lo : UInt16} {s : Str} :
      isHigh hi → isLow lo → WellFormed s → WellFormed (hi :: lo :: s)

/-- As inequalities. -/
theorem isHigh_iff {u : UInt16} : isHigh u ↔ 0xD800 ≤ u.toNat ∧ u.toNat < 0xDC00 := by
  simp [isHigh]

/-- As inequalities. -/
theorem isLow_iff {u : UInt16} : isLow u ↔ 0xDC00 ≤ u.toNat ∧ u.toNat < 0xE000 := by
  simp [isLow]

/-! ### Encoding -/

/-- The code units of a character: one, or a pair of surrogates from `0x10000` on. -/
def encodeChar (c : Char) : Str :=
  if c.toNat < 0x10000 then [UInt16.ofNat c.toNat]
  else [UInt16.ofNat (0xD800 + (c.toNat - 0x10000) / 0x400),
    UInt16.ofNat (0xDC00 + (c.toNat - 0x10000) % 0x400)]

/-- The code units of a text. -/
def encode (s : String) : Str := s.toList.flatMap encodeChar

/-- Characters go up to `0x10FFFF`. -/
theorem toNat_lt (c : Char) : c.toNat < 0x110000 := by
  rcases c.valid with h | ⟨-, h⟩
  · exact h.trans (by decide)
  · exact h

/-- And leave out the surrogates. -/
theorem not_surrogate (c : Char) : c.toNat < 0xD800 ∨ 0xE000 ≤ c.toNat := by
  rcases c.valid with h | ⟨h, -⟩
  · exact .inl h
  · exact .inr h

/-- A character is one code unit, which is no surrogate, or a pair of surrogates, from
which its number can be computed. -/
theorem encodeChar_cases (c : Char) :
    (∃ u : UInt16, encodeChar c = [u] ∧ u.toNat = c.toNat ∧ isHigh u = false ∧
      isLow u = false) ∨
    ∃ hi lo : UInt16, encodeChar c = [hi, lo] ∧ isHigh hi ∧ isLow lo ∧
      c.toNat = 0x10000 + (hi.toNat - 0xD800) * 0x400 + (lo.toNat - 0xDC00) := by
  have hlt := toNat_lt c
  have hnot := not_surrogate c
  unfold encodeChar
  split
  · next h =>
    have hu : (UInt16.ofNat c.toNat).toNat = c.toNat := by
      rw [UInt16.toNat_ofNat']
      omega
    -- a character of the basic plane, which has no surrogates
    refine .inl ⟨_, rfl, hu, ?_, ?_⟩
    · rw [← Bool.not_eq_true, isHigh_iff, hu]
      omega
    · rw [← Bool.not_eq_true, isLow_iff, hu]
      omega
  · next h =>
    have hhi : (UInt16.ofNat (0xD800 + (c.toNat - 0x10000) / 0x400)).toNat =
        0xD800 + (c.toNat - 0x10000) / 0x400 := by
      rw [UInt16.toNat_ofNat']
      omega
    have hlo : (UInt16.ofNat (0xDC00 + (c.toNat - 0x10000) % 0x400)).toNat =
        0xDC00 + (c.toNat - 0x10000) % 0x400 := by
      rw [UInt16.toNat_ofNat']
      omega
    -- any other: ten bits in each half of the pair
    refine .inr ⟨_, _, rfl, ?_, ?_, ?_⟩
    · rw [isHigh_iff, hhi]
      omega
    · rw [isLow_iff, hlo]
      omega
    · rw [hhi, hlo]
      omega

/-! ### Decoding -/

/-- The character of a code unit on its own, U+FFFD for a surrogate. -/
def unitChar (u : UInt16) : Char := if isHigh u || isLow u then '\uFFFD' else Char.ofNat u.toNat

/-- The character of a pair of surrogates. -/
def pairChar (hi lo : UInt16) : Char :=
  Char.ofNat (0x10000 + (hi.toNat - 0xD800) * 0x400 + (lo.toNat - 0xDC00))

/-- The characters of a string: a pair of surrogates is taken together, any other unit
by itself. -/
def decodeChars : Str → List Char
  | [] => []
  | [u] => [unitChar u]
  | hi :: lo :: s =>
    if isHigh hi && isLow lo then pairChar hi lo :: decodeChars s
    else unitChar hi :: decodeChars (lo :: s)

/-- The text of a string. -/
def decode (a : Str) : String := String.ofList (decodeChars a)

/-- A pair makes one character. -/
theorem decodeChars_pair {hi lo : UInt16} (hhi : isHigh hi) (hlo : isLow lo) (s : Str) :
    decodeChars (hi :: lo :: s) = pairChar hi lo :: decodeChars s := by
  rw [decodeChars, if_pos (by simp [hhi, hlo])]

/-- A unit that begins no pair makes one, too. -/
theorem decodeChars_unit {u : UInt16} (hu : isHigh u = false) (s : Str) :
    decodeChars (u :: s) = unitChar u :: decodeChars s := by
  cases s with
  | nil => rfl
  | cons lo s => rw [decodeChars, if_neg (by simp [hu])]

/-- A character that is encoded is decoded to itself. -/
theorem decodeChars_encodeChar (c : Char) (s : Str) :
    decodeChars (encodeChar c ++ s) = c :: decodeChars s := by
  rcases encodeChar_cases c with ⟨u, hc, hu, hhigh, hlow⟩ | ⟨hi, lo, hc, hhi, hlo, hval⟩
  · have hunit : unitChar u = c := by
      rw [unitChar, if_neg (by simp [hhigh, hlow]), hu, Char.ofNat_toNat]
    rw [hc, List.singleton_append, decodeChars_unit hhigh, hunit]
  · have hpair : pairChar hi lo = c := by rw [pairChar, ← hval, Char.ofNat_toNat]
    rw [hc, List.cons_append, List.singleton_append, decodeChars_pair hhi hlo, hpair]

/-- **A text survives UTF-16.** -/
@[simp] theorem decode_encode (s : String) : decode (encode s) = s := by
  have hchars : ∀ l : List Char, decodeChars (l.flatMap encodeChar) = l := by
    intro l
    induction l with
    | nil => rfl
    | cons c l ih => rw [List.flatMap_cons, decodeChars_encodeChar, ih]
  rw [decode, encode, hchars, String.ofList_toList]

/-- So different texts have different encodings. -/
theorem encode_injective : Function.Injective encode :=
  Function.LeftInverse.injective decode_encode

/-! ### Well-formed strings -/

/-- A text is encoded character by character. -/
theorem encode_ofList_cons (c : Char) (l : List Char) :
    encode (String.ofList (c :: l)) = encodeChar c ++ encode (String.ofList l) := by
  simp [encode]

/-- An encoded character is well formed. -/
theorem wellFormed_encodeChar (c : Char) {s : Str} (h : WellFormed s) :
    WellFormed (encodeChar c ++ s) := by
  rcases encodeChar_cases c with ⟨u, hc, -, hhigh, hlow⟩ | ⟨hi, lo, hc, hhi, hlo, -⟩
  · rw [hc]
    exact .unit hhigh hlow h
  · rw [hc]
    exact .pair hhi hlo h

/-- A number that is no surrogate is that of a character. -/
theorem toNat_ofNat {n : ℕ} (h : n < 0xD800 ∨ 0xE000 ≤ n ∧ n < 0x110000) :
    (Char.ofNat n).toNat = n := by
  have hvalid : n.isValidChar := h.imp id fun h => ⟨by omega, h.2⟩
  rw [Char.ofNat, dif_pos hvalid]
  rfl

/-- The character of a code unit that is no surrogate. -/
theorem encodeChar_unitChar {u : UInt16} (hhigh : isHigh u = false) (hlow : isLow u = false) :
    encodeChar (unitChar u) = [u] := by
  have hu : u.toNat < 2 ^ 16 := u.toNat_lt
  rw [← Bool.not_eq_true, isHigh_iff] at hhigh
  rw [← Bool.not_eq_true, isLow_iff] at hlow
  have hval : (unitChar u).toNat = u.toNat := by
    rw [unitChar, if_neg (by rw [Bool.or_eq_true, isHigh_iff, isLow_iff]; omega)]
    exact toNat_ofNat (by omega)
  rw [encodeChar, hval, if_pos (by omega), UInt16.ofNat_toNat]

/-- The character of a pair of surrogates. -/
theorem encodeChar_pairChar {hi lo : UInt16} (hhi : isHigh hi) (hlo : isLow lo) :
    encodeChar (pairChar hi lo) = [hi, lo] := by
  rw [isHigh_iff] at hhi
  rw [isLow_iff] at hlo
  have hval : (pairChar hi lo).toNat =
      0x10000 + (hi.toNat - 0xD800) * 0x400 + (lo.toNat - 0xDC00) := toNat_ofNat (by omega)
  have hfirst : 0xD800 + (0x10000 + (hi.toNat - 0xD800) * 0x400 + (lo.toNat - 0xDC00) -
      0x10000) / 0x400 = hi.toNat := by omega
  have hsecond : 0xDC00 + (0x10000 + (hi.toNat - 0xD800) * 0x400 + (lo.toNat - 0xDC00) -
      0x10000) % 0x400 = lo.toNat := by omega
  rw [encodeChar, hval, if_neg (by omega), hfirst, hsecond, UInt16.ofNat_toNat,
    UInt16.ofNat_toNat]

/-- A well-formed string survives decoding: none of its units is replaced. By induction
on how it is formed. -/
theorem encode_decode {a : Str} (h : WellFormed a) : encode (decode a) = a := by
  induction h with
  | nil => rfl
  | unit hhigh hlow _ ih =>
    rw [decode, decodeChars_unit hhigh, encode_ofList_cons, encodeChar_unitChar hhigh hlow,
      ← decode, ih]
    rfl
  | pair hhi hlo _ ih =>
    rw [decode, decodeChars_pair hhi hlo, encode_ofList_cons, encodeChar_pairChar hhi hlo,
      ← decode, ih]
    rfl

/-- **The well-formed strings** are the encodings of texts. -/
theorem wellFormed_iff (a : Str) : WellFormed a ↔ ∃ s, encode s = a := by
  constructor
  · exact fun h => ⟨decode a, encode_decode h⟩
  · rintro ⟨s, rfl⟩
    unfold encode
    induction s.toList with
    | nil => exact .nil
    | cons c l ih => exact wellFormed_encodeChar c ih

end Utf16

namespace Utf8

open Utf16

/-! ### UTF-8 -/

/-- The bytes of a text. -/
def utf8 (s : String) : List UInt8 := s.toList.flatMap String.utf8EncodeChar

/-- These are the bytes of the string in memory. -/
theorem toByteArray_utf8 (s : String) : (utf8 s).toByteArray = s.toByteArray :=
  String.utf8Encode_toList

/-- Different texts have different bytes. -/
theorem utf8_injective : Function.Injective utf8 := by
  intro s t h
  rw [← String.toByteArray_inj, ← toByteArray_utf8, ← toByteArray_utf8, h]

/-- When a number is the byte 0. -/
theorem zero_eq_ofNat (n : ℕ) : 0 = UInt8.ofNat n ↔ n % 256 = 0 := by
  rw [eq_comm, ← UInt8.toNat_inj, UInt8.toNat_ofNat']
  rfl

/-- U+0000 is the character with the number 0. -/
theorem toNat_eq_zero (c : Char) : c.toNat = 0 ↔ c = '\x00' := by
  constructor
  · intro h
    rw [← Char.ofNat_toNat c, h]
  · rintro rfl
    rfl

/-- A character has the byte 0 exactly if it is U+0000: the bytes of longer encodings
all have the upper bit set. -/
theorem zero_mem_utf8EncodeChar (c : Char) : 0 ∈ String.utf8EncodeChar c ↔ c = '\x00' := by
  have hval : c.val.toNat = c.toNat := rfl
  rw [← toNat_eq_zero]
  unfold String.utf8EncodeChar
  dsimp only
  rw [hval]
  -- one byte, which is the character itself, or several, which are at least 128
  split
  · rw [List.mem_singleton, zero_eq_ofNat]
    omega
  · split
    · simp only [List.mem_cons, List.not_mem_nil, or_false, zero_eq_ofNat]
      omega
    · split <;> simp only [List.mem_cons, List.not_mem_nil, or_false, zero_eq_ofNat] <;> omega

/-- A C string ends at the first zero byte. -/
def cBytes (bytes : List UInt8) : List UInt8 := bytes.takeWhile (· ≠ 0)

/-- **A C string of a text** ends at the first U+0000. By induction on the text. -/
theorem cBytes_utf8 (s : String) :
    cBytes (utf8 s) = utf8 (String.ofList (s.toList.takeWhile (· ≠ '\x00'))) := by
  simp only [utf8, cBytes, String.toList_ofList]
  induction s.toList with
  | nil => rfl
  | cons c l ih =>
    rw [List.flatMap_cons, List.takeWhile_cons]
    -- a character is cut off whole, since none but U+0000 has a byte 0
    by_cases hc : c = '\x00'
    · subst hc
      rw [if_neg (by simp)]
      rfl
    · have hne : ∀ b ∈ String.utf8EncodeChar c, b ≠ 0 := by
        rintro b hb rfl
        exact hc ((zero_mem_utf8EncodeChar c).1 hb)
      rw [if_pos (by simpa using hc), List.flatMap_cons,
        List.takeWhile_append_of_pos (by simpa using hne), ih]

/-- How many bytes a code unit makes in UTF-8; a pair of surrogates makes four. -/
def unitLength (u : UInt16) : ℕ :=
  if u.toNat < 0x80 then 1 else if u.toNat < 0x800 then 2
  else if isHigh u || isLow u then 2 else 3

/-- The length of a well-formed string in UTF-8. -/
def utf8Length (a : Str) : ℕ := (a.map unitLength).sum

/-- A character makes as many bytes in both ways of counting. -/
theorem sum_unitLength_encodeChar (c : Char) :
    ((encodeChar c).map unitLength).sum = c.utf8Size := by
  have hsize : c.utf8Size = if c.toNat ≤ 0x7F then 1 else if c.toNat ≤ 0x7FF then 2
      else if c.toNat ≤ 0xFFFF then 3 else 4 := by
    simp only [Char.utf8Size, UInt32.le_iff_toNat_le]
    rfl
  rw [hsize]
  -- one unit, which is no surrogate, or a pair of them, each counted as two bytes
  rcases encodeChar_cases c with ⟨u, hc, hu, hhigh, hlow⟩ | ⟨hi, lo, hc, hhi, hlo, hval⟩
  · have hlt : u.toNat < 2 ^ 16 := u.toNat_lt
    rw [hc, List.map_singleton, List.sum_singleton, unitLength, hu, hhigh, hlow]
    simp only [Bool.or_false, Bool.false_eq_true, if_false]
    split_ifs <;> omega
  · have hpart : ∀ u : UInt16, 0x800 ≤ u.toNat → (isHigh u || isLow u) → unitLength u = 2 := by
      intro u hu hsurrogate
      rw [unitLength, if_neg (by omega), if_neg (by omega), if_pos hsurrogate]
    have hhi' := isHigh_iff.1 hhi
    have hlo' := isLow_iff.1 hlo
    rw [hc, List.map_cons, List.map_singleton, List.sum_cons, List.sum_singleton,
      hpart hi (by omega) (by simp [hhi]), hpart lo (by omega) (by simp [hlo]), hval,
      if_neg (by omega), if_neg (by omega), if_neg (by omega)]

/-- So does a text. -/
theorem utf8Length_encode (s : String) : utf8Length (encode s) = (utf8 s).length := by
  simp only [utf8Length, encode, utf8]
  induction s.toList with
  | nil => rfl
  | cons c l ih =>
    rw [List.flatMap_cons, List.flatMap_cons, List.map_append, List.sum_append, ih,
      sum_unitLength_encodeChar, List.length_append, String.length_utf8EncodeChar]

/-- A text has the unit 0 exactly if it has U+0000. -/
theorem zero_mem_encode (s : String) : 0 ∈ encode s ↔ '\x00' ∈ s.toList := by
  have hchar : ∀ c, 0 ∈ encodeChar c ↔ '\x00' = c := by
    intro c
    rw [eq_comm, ← toNat_eq_zero]
    -- a single unit is the character, and no half of a surrogate pair is 0
    rcases encodeChar_cases c with ⟨u, hc, hu, -⟩ | ⟨hi, lo, hc, hhi, hlo, hval⟩
    · rw [hc, List.mem_singleton, ← hu, eq_comm, ← UInt16.toNat_inj]
      rfl
    · have hzero : (0 : UInt16) ∉ [hi, lo] := by
        rw [List.mem_cons, List.mem_singleton]
        rintro (rfl | rfl)
        · cases hhi
        · cases hlo
      rw [hc, iff_false_left hzero]
      omega
  simp only [encode, List.mem_flatMap, hchar]
  simp

end Utf8
