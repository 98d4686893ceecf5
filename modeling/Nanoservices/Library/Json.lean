import Mathlib.Data.Nat.Digits.Lemmas
import Mathlib.Tactic.IntervalCases
import Nanoservices.Library.Utf16

/-!
# JSON text

Values, their serialisation (`Value.stringify`) and a parser (`parse`), over strings of
UTF-16 code units. Serialisation follows `JSON.stringify`: no white space, the
short escapes, `\u` escapes for control characters and for surrogates without a
partner. The parser accepts white space, every escape and every literal, and
numbers without fraction and exponent, which is all `Value.num` represents. An
object keeps its fields in order, repeated names included; `Value.field` reads the
last one.

`parse_stringify` is the round trip. It is proved for a value followed by any
text that cannot continue a number, by induction on the value: one lemma for a
quoted string (`unquote_quote`), one for a number, and the mutual induction over
values, elements and fields. The parser's fuel is the length of its input, and
every recursive call has consumed a code unit.
-/

open Utf16

namespace Json

/-- A JSON value. Numbers are integers; the fields of an object are kept as they were
written. -/
inductive Value
  | null
  | bool (b : Bool)
  | num (n : ℤ)
  | str (s : Str)
  | arr (elems : List Value)
  | obj (fields : List (Str × Value))

/-- The value of an object's last field of that name. -/
def Value.field (name : Str) : Value → Option Value
  | .obj fields => (fields.reverse.find? fun f => f.1 == name).map Prod.snd
  | _ => none

/-! ### Quoted strings -/

/-- The first half of a surrogate pair. -/
def isHighSurrogate (c : UInt16) : Bool := 0xD800 ≤ c && c ≤ 0xDBFF

/-- The second half. -/
def isLowSurrogate (c : UInt16) : Bool := 0xDC00 ≤ c && c ≤ 0xDFFF

/-- A hexadecimal digit, in lower case. -/
def hexDigit (d : ℕ) : UInt16 := if d < 10 then UInt16.ofNat (48 + d) else UInt16.ofNat (87 + d)

/-- The value of a hexadecimal digit of either case. -/
def hexValue (c : UInt16) : Option ℕ :=
  if 48 ≤ c.toNat ∧ c.toNat ≤ 57 then some (c.toNat - 48)
  else if 97 ≤ c.toNat ∧ c.toNat ≤ 102 then some (c.toNat - 87)
  else if 65 ≤ c.toNat ∧ c.toNat ≤ 70 then some (c.toNat - 55)
  else none

/-- The escape `\uXXXX`, with four digits. -/
def unicodeEscape (c : UInt16) : Str :=
  [92, 117, hexDigit (c.toNat / 4096), hexDigit (c.toNat / 256 % 16),
    hexDigit (c.toNat / 16 % 16), hexDigit (c.toNat % 16)]

/-- The serialisation of a code unit that is not an unpaired surrogate. -/
def quoteUnit (c : UInt16) : Str :=
  if c = 34 then [92, 34]
  else if c = 92 then [92, 92]
  else if c = 8 then [92, 98]
  else if c = 12 then [92, 102]
  else if c = 10 then [92, 110]
  else if c = 13 then [92, 114]
  else if c = 9 then [92, 116]
  else if c < 32 then unicodeEscape c
  else [c]

/-- The serialisation of a string's code units. The flag says that the first unit is the
second half of a surrogate pair. A surrogate without a partner is escaped, so that the
text is well formed. -/
def quoteFrom : Bool → Str → Str
  | _, [] => []
  | paired, c :: cs =>
    let opens := !paired && isHighSurrogate c && cs.head?.any isLowSurrogate
    let alone := (isHighSurrogate c || isLowSurrogate c) && !paired && !opens
    (if alone then unicodeEscape c else quoteUnit c) ++ quoteFrom opens cs

/-- A string between quotation marks. -/
def quote (s : Str) : Str := 34 :: quoteFrom false s ++ [34]

/-- Where the reader of a quoted string stands: between two characters, behind a
backslash, or behind some digits of a `\u` escape. -/
inductive Escape
  | plain
  | backslash
  | hex (digits : ℕ) (value : ℕ)

/-- The code unit a short escape stands for. -/
def shortEscape (c : UInt16) : Option UInt16 :=
  if c = 34 ∨ c = 92 ∨ c = 47 then some c
  else if c = 98 then some 8
  else if c = 102 then some 12
  else if c = 110 then some 10
  else if c = 114 then some 13
  else if c = 116 then some 9
  else none

/-- Reads up to the closing quotation mark: the string, and the text behind the mark.
Control characters must be escaped; a text that ends inside a string is none. -/
def unquote : Escape → Str → Option (Str × Str)
  | _, [] => none
  | .plain, c :: cs =>
    if c = 34 then some ([], cs)
    else if c = 92 then unquote .backslash cs
    else if c < 32 then none
    else (unquote .plain cs).map fun r => (c :: r.1, r.2)
  | .backslash, c :: cs =>
    if c = 117 then unquote (.hex 0 0) cs
    else (shortEscape c).bind fun d => (unquote .plain cs).map fun r => (d :: r.1, r.2)
  | .hex digits value, c :: cs =>
    (hexValue c).bind fun v =>
      if digits = 3 then
        (unquote .plain cs).map fun r => (UInt16.ofNat (16 * value + v) :: r.1, r.2)
      else unquote (.hex (digits + 1) (16 * value + v)) cs

/-- A digit that is written is read. There are sixteen. -/
theorem hexValue_hexDigit {d : ℕ} (h : d < 16) : hexValue (hexDigit d) = some d := by
  interval_cases d <;> decide

/-- The four digits of an escape are read back as the code unit. -/
theorem unquote_unicodeEscape (c : UInt16) (t : Str) :
    unquote .plain (unicodeEscape c ++ t) =
      (unquote .plain t).map fun r => (c :: r.1, r.2) := by
  have hc : c.toNat < 65536 := c.toNat_lt
  have h3 : c.toNat / 4096 < 16 := by omega
  -- the four digits are those of the unit to the base 16
  have hval : UInt16.ofNat (16 * (16 * (16 * (c.toNat / 4096) + c.toNat / 256 % 16) +
      c.toNat / 16 % 16) + c.toNat % 16) = c := by
    apply UInt16.toNat.inj
    rw [UInt16.toNat_ofNat']
    omega
  have hmod : ∀ n : ℕ, hexValue (hexDigit (n % 16)) = some (n % 16) :=
    fun n => hexValue_hexDigit (Nat.mod_lt n (by decide))
  rw [unicodeEscape]
  simp only [List.cons_append, List.nil_append, unquote, hmod, hexValue_hexDigit h3,
    Option.bind_some, Nat.mul_zero, Nat.zero_add]
  norm_num only [if_true, if_false]
  rw [hval]
  rfl

/-- So is every way in which a unit is written. -/
theorem unquote_quoteUnit (c : UInt16) (t : Str) :
    unquote .plain (quoteUnit c ++ t) =
      (unquote .plain t).map fun r => (c :: r.1, r.2) := by
  unfold quoteUnit
  split_ifs with h34 h92 h8 h12 h10 h13 h9 hlt
  case pos | pos | pos | pos | pos | pos | pos =>
    subst c
    simp [unquote, shortEscape]
  · exact unquote_unicodeEscape c t
  · simp [unquote, h34, h92, hlt]

/-- **A quoted string is read back**, whether or not it begins in the middle of a pair.
By induction on the string. -/
theorem unquote_quote (paired : Bool) (s rest : Str) :
    unquote .plain (quoteFrom paired s ++ 34 :: rest) = some (s, rest) := by
  induction s generalizing paired with
  | nil => simp [quoteFrom, unquote]
  | cons c cs ih =>
    rw [quoteFrom, List.append_assoc]
    split
    · rw [unquote_unicodeEscape, ih, Option.map_some]
    · rw [unquote_quoteUnit, ih, Option.map_some]

/-! ### Serialisation -/

/-- A number in decimal, with its sign. -/
def stringifyNumber (n : ℤ) : Str := (if n < 0 then [45] else []) ++ decimal n.natAbs

mutual

/-- The text of a value, as `JSON.stringify` writes it. -/
def stringify : Value → Str
  | .null => lit "null"
  | .bool true => lit "true"
  | .bool false => lit "false"
  | .num n => stringifyNumber n
  | .str s => quote s
  | .arr elems => 91 :: stringifyElems elems ++ [93]
  | .obj fields => 123 :: stringifyFields fields ++ [125]

/-- The elements of an array, separated by commas. -/
def stringifyElems : List Value → Str
  | [] => []
  | [v] => stringify v
  | v :: w :: vs => stringify v ++ 44 :: stringifyElems (w :: vs)

/-- The fields of an object, separated by commas. -/
def stringifyFields : List (Str × Value) → Str
  | [] => []
  | [(name, v)] => quote name ++ 58 :: stringify v
  | (name, v) :: f :: fs => quote name ++ 58 :: stringify v ++ 44 :: stringifyFields (f :: fs)

end

/-! ### The parser -/

/-- White space between tokens. -/
def isSpace (c : UInt16) : Bool := c = 32 || c = 9 || c = 10 || c = 13

/-- The text without the white space in front. -/
def skipSpace (s : Str) : Str := s.dropWhile isSpace

/-- The text behind a literal it starts with. -/
def dropLiteral (word s : Str) : Option Str :=
  if word <+: s then some (s.drop word.length) else none

/-- What may not follow the digits of a number without fraction and exponent. -/
def continuesNumber (c : UInt16) : Bool := isDigit c || c = 46 || c = 101 || c = 69

/-- The digits at the front of a text, as a number without superfluous leading zeros. A
fraction or an exponent is not read as an integer. -/
def parseDigits (s : Str) : Option (ℕ × Str) :=
  let digits := s.takeWhile isDigit
  let rest := s.dropWhile isDigit
  if digits = [] ∨ (digits.head? = some 48 ∧ digits ≠ [48]) ∨ rest.head?.any continuesNumber then
    none
  else some (ofDecimal digits, rest)

/-- A number at the front of a text: an optional sign, and digits. -/
def parseNumber : Str → Option (Value × Str)
  | [] => none
  | c :: cs =>
    if c = 45 then (parseDigits cs).map fun r => (.num (-r.1), r.2)
    else (parseDigits (c :: cs)).map fun r => (.num r.1, r.2)

/-- A literal at the front of a text. -/
def parseLiteral (s : Str) : Option (Value × Str) :=
  ((dropLiteral (lit "null") s).map fun r => (.null, r)) <|>
  ((dropLiteral (lit "true") s).map fun r => (.bool true, r)) <|>
  ((dropLiteral (lit "false") s).map fun r => (.bool false, r))

/-- A separator: whether it announces another item or is the closing one, and the text
behind it. -/
def parseSeparator (close : UInt16) (s : Str) : Option (Bool × Str) :=
  match skipSpace s with
  | [] => none
  | c :: cs => if c = 44 then some (true, cs) else if c = close then some (false, cs) else none

/-- The text behind a code unit that has to come next. -/
def eat (c : UInt16) (s : Str) : Option Str :=
  match skipSpace s with
  | [] => none
  | d :: cs => if d = c then some cs else none

mutual

/-- A value at the front of a text, and the text behind it. Its first code unit decides
what it is. -/
def parseValue : ℕ → Str → Option (Value × Str)
  | 0, _ => none
  | fuel + 1, s =>
    match skipSpace s with
    | [] => none
    | c :: cs =>
      if c = 34 then (unquote .plain cs).map fun r => (.str r.1, r.2)
      else if c = 91 then
        ((eat 93 cs).map fun r => (.arr [], r)) <|>
          (parseElems fuel cs).map fun r => (.arr r.1, r.2)
      else if c = 123 then
        ((eat 125 cs).map fun r => (.obj [], r)) <|>
          (parseFields fuel cs).map fun r => (.obj r.1, r.2)
      else if c = 45 ∨ isDigit c then parseNumber (c :: cs)
      else parseLiteral (c :: cs)

/-- The elements of a nonempty array up to the closing bracket, and the text behind it. -/
def parseElems : ℕ → Str → Option (List Value × Str)
  | 0, _ => none
  | fuel + 1, s => do
    let (v, s) ← parseValue fuel s
    let (more, s) ← parseSeparator 93 s
    if more then
      let (vs, s) ← parseElems fuel s
      some (v :: vs, s)
    else some ([v], s)

/-- The fields of a nonempty object up to the closing brace, and the text behind it. -/
def parseFields : ℕ → Str → Option (List (Str × Value) × Str)
  | 0, _ => none
  | fuel + 1, s => do
    let s ← eat 34 s
    let (name, s) ← unquote .plain s
    let s ← eat 58 s
    let (v, s) ← parseValue fuel s
    let (more, s) ← parseSeparator 125 s
    if more then
      let (fs, s) ← parseFields fuel s
      some ((name, v) :: fs, s)
    else some ([(name, v)], s)

end

/-- `JSON.parse`; `none` where it throws. Nothing but white space may follow the
value. -/
def parse (s : Str) : Option Value := do
  let (v, rest) ← parseValue (s.length + 1) s
  if skipSpace rest = [] then some v else none

/-! ### The round trip -/

/-- A text that does not continue a number in front of it. -/
def Delimits (rest : Str) : Prop := rest.head?.any continuesNumber = false

/-- There is no white space in front of another unit. -/
theorem skipSpace_cons {c : UInt16} (h : isSpace c = false) (s : Str) :
    skipSpace (c :: s) = c :: s := by
  rw [skipSpace, List.dropWhile_cons, h]
  rfl

/-- The first unit of a number written in decimal is `0` only for zero: the leading
digit of any other number is not 0. -/
theorem head?_decimal (n : ℕ) : (decimal n).head? = some 48 → decimal n = [48] := by
  unfold decimal
  split
  · simp
  · next h =>
    -- the first digit written is the last one of `Nat.digits`, which is not zero
    intro hd
    exfalso
    have hne : Nat.digits 10 n ≠ [] := Nat.digits_ne_nil_iff_ne_zero.mpr h
    have hlast := Nat.getLast_digit_ne_zero 10 h
    rw [List.head?_map, List.head?_reverse, List.getLast?_eq_getLast_of_ne_nil hne] at hd
    simp only [Option.map_some, Option.some.injEq] at hd
    have hlt : (Nat.digits 10 n).getLast hne < 10 :=
      Nat.digits_lt_base (by norm_num) (List.getLast_mem hne)
    have hval := congrArg UInt16.toNat hd
    rw [toNat_digit hlt] at hval
    have h48 : (48 : UInt16).toNat = 48 := rfl
    omega

/-- A number in decimal is read back, if the text behind it does not continue it. -/
theorem parseDigits_decimal (n : ℕ) {rest : Str} (h : Delimits rest) :
    parseDigits (decimal n ++ rest) = some (n, rest) := by
  have hall := List.all_eq_true.mp (all_isDigit_decimal n)
  -- the digits end where the text behind begins
  have hrest : rest.takeWhile isDigit = [] ∧ rest.dropWhile isDigit = rest := by
    cases rest with
    | nil => simp
    | cons c cs =>
      have hc : isDigit c = false := by
        have hcont : continuesNumber c = false := by simpa [Delimits] using h
        simp only [continuesNumber, Bool.or_eq_false_iff] at hcont
        exact hcont.1.1.1
      simp [hc]
  have htake : (decimal n ++ rest).takeWhile isDigit = decimal n := by
    rw [List.takeWhile_append_of_pos hall, hrest.1, List.append_nil]
  have hdrop : (decimal n ++ rest).dropWhile isDigit = rest := by
    rw [List.dropWhile_append_of_pos hall, hrest.2]
  -- and there is no superfluous zero
  have hzero : ¬ ((decimal n).head? = some 48 ∧ decimal n ≠ [48]) :=
    fun hz => hz.2 (head?_decimal n hz.1)
  have hd : rest.head?.any continuesNumber = false := h
  rw [parseDigits]
  simp only [htake, hdrop, ofDecimal_decimal]
  rw [if_neg]
  rw [hd]
  simp [decimal_ne_nil, hzero]

/-- So is one with a sign. -/
theorem parseNumber_stringifyNumber (n : ℤ) {rest : Str} (h : Delimits rest) :
    parseNumber (stringifyNumber n ++ rest) = some (.num n, rest) := by
  unfold stringifyNumber
  split
  · next hn =>
    simp only [List.cons_append, List.nil_append, parseNumber, if_true, parseDigits_decimal _ h,
      Option.map_some, Option.some.injEq, Prod.mk.injEq, Value.num.injEq, and_true]
    omega
  · next hn =>
    obtain ⟨c, cs, hc⟩ := List.exists_cons_of_ne_nil (decimal_ne_nil n.natAbs)
    have hdigit : isDigit c = true :=
      List.all_eq_true.mp (all_isDigit_decimal n.natAbs) c (by rw [hc]; exact List.mem_cons_self)
    -- the text does not begin with a minus, for it begins with a digit
    have hminus : c ≠ 45 := by
      rintro rfl
      exact absurd hdigit (by decide)
    have hparse := parseDigits_decimal n.natAbs h
    rw [hc, List.cons_append] at hparse
    rw [List.nil_append, hc, List.cons_append, parseNumber, if_neg hminus, hparse]
    simp only [Option.map_some, Option.some.injEq, Prod.mk.injEq, Value.num.injEq, and_true]
    omega

/-- How a number starts decides the branch of the parser. -/
theorem stringifyNumber_start (n : ℤ) :
    ∃ c cs, stringifyNumber n = c :: cs ∧ (c = 45 ∨ isDigit c = true) := by
  unfold stringifyNumber
  split
  · exact ⟨45, decimal n.natAbs, rfl, .inl rfl⟩
  · obtain ⟨c, cs, hc⟩ := List.exists_cons_of_ne_nil (decimal_ne_nil n.natAbs)
    have hmem : c ∈ decimal n.natAbs := hc ▸ List.mem_cons_self
    exact ⟨c, cs, by rw [List.nil_append, hc],
      .inr (List.all_eq_true.mp (all_isDigit_decimal n.natAbs) c hmem)⟩

/-- A number does not start like anything else. -/
theorem not_isSpace_of_number {c : UInt16} (h : c = 45 ∨ isDigit c = true) :
    isSpace c = false ∧ c ≠ 34 ∧ c ≠ 91 ∧ c ≠ 123 := by
  rcases h with rfl | h
  · decide
  · refine ⟨?_, ?_, ?_, ?_⟩
    · by_contra hs
      have hs' : isSpace c = true := by simpa using hs
      simp only [isSpace, Bool.or_eq_true, decide_eq_true_eq] at hs'
      rcases hs' with ((rfl | rfl) | rfl) | rfl <;> exact absurd h (by decide)
    all_goals
      rintro rfl
      exact absurd h (by decide)

/-- Most units end a number. -/
theorem delimits_of_cons {c : UInt16} (h : continuesNumber c = false) (s : Str) :
    Delimits (c :: s) := by
  rw [Delimits, List.head?_cons, Option.any_some]
  exact h

/-- A separator at the front of a text. -/
theorem parseSeparator_comma (close : UInt16) (s : Str) :
    parseSeparator close (44 :: s) = some (true, s) := by
  rw [parseSeparator, skipSpace_cons (by decide)]
  rfl

theorem parseSeparator_close {c : UInt16} (hs : isSpace c = false) (hc : c ≠ 44)
    (s : Str) : parseSeparator c (c :: s) = some (false, s) := by
  rw [parseSeparator, skipSpace_cons hs]
  simp [hc]

theorem eat_self {c : UInt16} (h : isSpace c = false) (s : Str) : eat c (c :: s) = some s := by
  rw [eat, skipSpace_cons h]
  simp

theorem eat_ne {c d : UInt16} (hd : isSpace d = false) (h : d ≠ c) (s : Str) :
    eat c (d :: s) = none := by
  rw [eat, skipSpace_cons hd]
  simp [h]

theorem quote_append (s rest : Str) :
    quote s ++ rest = 34 :: (quoteFrom false s ++ 34 :: rest) := by
  simp [quote]

/-- The first unit of a value's text is neither white space nor a closing bracket. -/
theorem stringify_start (v : Value) :
    ∃ c cs, stringify v = c :: cs ∧ isSpace c = false ∧ c ≠ 93 := by
  -- by the form of the value: a literal, a digit or a minus, a quotation mark, a
  -- bracket
  cases v with
  | null => exact ⟨110, lit "ull", by simp only [stringify]; decide⟩
  | bool b =>
    cases b with
    | true => exact ⟨116, lit "rue", by simp only [stringify]; decide⟩
    | false => exact ⟨102, lit "alse", by simp only [stringify]; decide⟩
  | num n =>
    obtain ⟨c, cs, hc, hd⟩ := stringifyNumber_start n
    refine ⟨c, cs, by rw [stringify, hc], (not_isSpace_of_number hd).1, ?_⟩
    rintro rfl
    exact absurd hd (by decide)
  | str s => exact ⟨34, quoteFrom false s ++ [34], by rw [stringify]; rfl, by decide, by decide⟩
  | arr vs => exact ⟨91, stringifyElems vs ++ [93], by rw [stringify]; rfl, by decide, by decide⟩
  | obj fs => exact ⟨123, stringifyFields fs ++ [125], by rw [stringify]; rfl, by decide, by decide⟩

/-- The text of a nonempty array's elements starts as that of its first element does. -/
theorem stringifyElems_cons (v : Value) (vs : List Value) :
    ∃ tail, stringifyElems (v :: vs) = stringify v ++ tail := by
  cases vs with
  | nil => exact ⟨[], by rw [stringifyElems, List.append_nil]⟩
  | cons w vs => exact ⟨44 :: stringifyElems (w :: vs), by rw [stringifyElems]⟩

theorem stringifyFields_cons (name : Str) (v : Value) (fs : List (Str × Value)) :
    ∃ tail, stringifyFields ((name, v) :: fs) = 34 :: tail := by
  cases fs with
  | nil => exact ⟨_, by rw [stringifyFields, quote_append]⟩
  | cons f fs => exact ⟨_, by rw [stringifyFields, List.append_assoc, quote_append]⟩

mutual

/-- **A value's text is read back**, whatever text that does not continue a number
follows. -/
theorem parseValue_stringify (v : Value) {n : ℕ} {t : Str}
    (hfuel : (stringify v).length < n) (h : Delimits t) :
    parseValue n (stringify v ++ t) = some (v, t) := by
  obtain ⟨fuel, rfl⟩ : ∃ fuel, n = fuel + 1 := ⟨n - 1, by omega⟩
  cases v with
  | null =>
    rw [stringify]
    simp [parseValue, lit, skipSpace, isSpace, isDigit, parseLiteral, dropLiteral]
  | bool b =>
    cases b
    all_goals
      rw [stringify]
      simp [parseValue, lit, skipSpace, isSpace, isDigit, parseLiteral, dropLiteral]
  | num k =>
    -- the first character tells a number from the other values
    obtain ⟨c, cs, hc, hd⟩ := stringifyNumber_start k
    obtain ⟨hspace, h34, h91, h123⟩ := not_isSpace_of_number hd
    have hnum := parseNumber_stringifyNumber k h
    rw [stringify]
    rw [hc] at hnum ⊢
    rw [List.cons_append] at hnum ⊢
    rw [parseValue, skipSpace_cons hspace]
    simp only [h34, h91, h123, if_false, if_pos hd]
    exact hnum
  | str s =>
    rw [stringify, quote_append, parseValue, skipSpace_cons (by decide)]
    simp only [if_true, unquote_quote, Option.map_some]
  | arr vs =>
    rw [stringify] at hfuel ⊢
    simp only [List.cons_append, List.append_assoc, List.nil_append] at hfuel ⊢
    rw [parseValue, skipSpace_cons (by decide)]
    simp only [if_true, if_neg (show ¬(91 : UInt16) = 34 by decide)]
    cases vs with
    | nil => simp [stringifyElems, eat_self (c := 93) (by decide)]
    | cons v vs =>
      -- an element follows, so that the bracket does not close at once
      obtain ⟨c, cs, hc, hspace, hne⟩ := stringify_start v
      obtain ⟨tail, htail⟩ := stringifyElems_cons v vs
      have heat : eat 93 (stringifyElems (v :: vs) ++ 93 :: t) = none := by
        rw [htail, hc, List.cons_append, List.cons_append]
        exact eat_ne hspace hne _
      rw [heat, parseElems_stringify v vs (by simp at hfuel; omega)]
      rfl
  | obj fs =>
    rw [stringify] at hfuel ⊢
    simp only [List.cons_append, List.append_assoc, List.nil_append] at hfuel ⊢
    rw [parseValue, skipSpace_cons (by decide)]
    simp only [if_true, if_neg (show ¬(123 : UInt16) = 34 by decide),
      if_neg (show ¬(123 : UInt16) = 91 by decide)]
    cases fs with
    | nil => simp [stringifyFields, eat_self (c := 125) (by decide)]
    | cons f fs =>
      -- a field follows, so that the brace does not close at once
      obtain ⟨name, v⟩ := f
      obtain ⟨tail, htail⟩ := stringifyFields_cons name v fs
      have heat : eat 125 (stringifyFields ((name, v) :: fs) ++ 125 :: t) = none := by
        rw [htail, List.cons_append]
        exact eat_ne (by decide) (by decide) _
      rw [heat, parseFields_stringify name v fs (by simp at hfuel; omega)]
      rfl
termination_by n

/-- The elements of a nonempty array are read back. -/
theorem parseElems_stringify (v : Value) (vs : List Value) {n : ℕ} {t : Str}
    (hfuel : (stringifyElems (v :: vs)).length + 1 < n) :
    parseElems n (stringifyElems (v :: vs) ++ 93 :: t) = some (v :: vs, t) := by
  obtain ⟨fuel, rfl⟩ : ∃ fuel, n = fuel + 1 := ⟨n - 1, by omega⟩
  -- the last element, or one that is followed by a comma
  cases vs with
  | nil =>
    rw [stringifyElems] at hfuel ⊢
    rw [parseElems, parseValue_stringify v (by omega) (delimits_of_cons (by decide) t)]
    simp [parseSeparator_close (c := 93) (by decide) (by decide)]
  | cons w vs =>
    rw [stringifyElems] at hfuel ⊢
    simp only [List.append_assoc, List.cons_append, List.length_append, List.length_cons]
      at hfuel ⊢
    rw [parseElems, parseValue_stringify v (by omega) (delimits_of_cons (by decide) _)]
    simp [parseSeparator_comma, parseElems_stringify w vs (n := fuel) (by omega)]
termination_by n

/-- The fields of a nonempty object are read back. -/
theorem parseFields_stringify (name : Str) (v : Value) (fs : List (Str × Value)) {n : ℕ}
    {t : Str} (hfuel : (stringifyFields ((name, v) :: fs)).length + 1 < n) :
    parseFields n (stringifyFields ((name, v) :: fs) ++ 125 :: t) =
      some ((name, v) :: fs, t) := by
  obtain ⟨fuel, rfl⟩ : ∃ fuel, n = fuel + 1 := ⟨n - 1, by omega⟩
  -- the last field, or one that is followed by a comma
  cases fs with
  | nil =>
    rw [stringifyFields] at hfuel ⊢
    simp only [List.append_assoc, List.cons_append, List.length_append, List.length_cons]
      at hfuel ⊢
    rw [quote_append, parseFields, eat_self (by decide)]
    simp [unquote_quote, eat_self (c := 58) (by decide),
      parseValue_stringify v (n := fuel) (by omega)
        (delimits_of_cons (c := 125) (by decide) t),
      parseSeparator_close (c := 125) (by decide) (by decide)]
  | cons f fs =>
    obtain ⟨name', w⟩ := f
    rw [stringifyFields] at hfuel ⊢
    simp only [List.append_assoc, List.cons_append, List.length_append, List.length_cons]
      at hfuel ⊢
    rw [quote_append, parseFields, eat_self (by decide)]
    simp [unquote_quote, eat_self (c := 58) (by decide),
      parseValue_stringify v (n := fuel) (by omega) (delimits_of_cons (c := 44) (by decide) _),
      parseSeparator_comma, parseFields_stringify name' w fs (n := fuel) (by omega)]
termination_by n

end

/-- **`JSON.parse` undoes `JSON.stringify`.** The fuel is the length of the text, of
which every call has taken some. -/
@[simp] theorem parse_stringify (v : Value) : parse (stringify v) = some v := by
  have h : parseValue ((stringify v).length + 1) (stringify v ++ []) = some (v, []) :=
    parseValue_stringify v (Nat.lt_succ_self _) rfl
  rw [List.append_nil] at h
  rw [parse, h]
  rfl

/-! ### Lengths -/

/-- A code unit makes at least one. -/
theorem one_le_length_quoteUnit (c : UInt16) : 1 ≤ (quoteUnit c).length := by
  unfold quoteUnit
  split_ifs <;> simp [unicodeEscape]

/-- Every code unit of a string is written. -/
theorem length_le_quoteFrom (paired : Bool) (s : Str) : s.length ≤ (quoteFrom paired s).length := by
  induction s generalizing paired with
  | nil => exact Nat.zero_le _
  | cons c cs ih =>
    have hunit := one_le_length_quoteUnit c
    have hescape : 1 ≤ (unicodeEscape c).length := by simp [unicodeEscape]
    have hrest := ih (!paired && isHighSurrogate c && cs.head?.any isLowSurrogate)
    simp only [quoteFrom, List.length_append, List.length_cons]
    split <;> omega

/-- A quoted string is longer than the string. -/
theorem length_le_quote (s : Str) : s.length ≤ (quote s).length := by
  have h := length_le_quoteFrom false s
  simp only [quote, List.length_cons, List.length_append]
  omega

/-- The text of an object is no shorter than its strings. -/
theorem length_le_stringify {fields : List (Str × Value)} {name s : Str}
    (h : (name, .str s) ∈ fields) : s.length ≤ (stringify (.obj fields)).length := by
  have hfields : s.length ≤ (stringifyFields fields).length := by
    induction fields with
    | nil => cases h
    | cons f fs ih =>
      obtain ⟨name', v⟩ := f
      -- the string is the value of the first field, or of a later one
      rcases List.mem_cons.1 h with heq | h
      · obtain rfl := (Prod.mk.inj heq).2
        have hs := length_le_quote s
        cases fs <;> simp only [stringifyFields, stringify, List.length_append,
          List.length_cons] <;> omega
      · have hrest := ih h
        cases fs with
        | nil => cases h
        | cons g gs =>
          simp only [stringifyFields, List.length_append, List.length_cons]
          omega
  simp only [stringify, List.length_cons, List.length_append]
  omega

end Json
