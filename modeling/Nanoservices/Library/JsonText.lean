import Nanoservices.Library.Json
import Nanoservices.Library.Unicode

/-!
# What `JSON.stringify` writes is a text

`stringify` escapes control characters and the surrogates that have no partner. So what
it writes is a well-formed string without U+0000 (`isText_stringify`), whatever the
strings of the value are: it can be made a text in another encoding, or a C string, and
read back.

`Value.setField` is the assignment to a field of an object.
-/

namespace Json

open Utf16

/-- A well-formed string without U+0000. -/
structure IsText (s : Str) : Prop where
  wellFormed : WellFormed s
  zero : 0 ∉ s

/-- A code unit that is a text: neither zero nor a surrogate. -/
def isTextUnit (c : UInt16) : Bool := c ≠ 0 && !isHigh c && !isLow c

namespace IsText

/-- The empty string is one. -/
theorem nil : IsText [] := ⟨.nil, List.not_mem_nil⟩

/-- One more unit. -/
theorem cons {c : UInt16} {s : Str} (hc : isTextUnit c) (hs : IsText s) : IsText (c :: s) := by
  obtain ⟨⟨hzero, hhigh⟩, hlow⟩ : (c ≠ 0 ∧ isHigh c = false) ∧ isLow c = false := by
    simpa [isTextUnit] using hc
  refine ⟨.unit hhigh hlow hs.wellFormed, fun hmem => ?_⟩
  exact (List.mem_cons.1 hmem).elim (fun h => hzero h.symm) hs.zero

/-- A string of such units. -/
theorem of_units {s : Str} (h : s.all isTextUnit) : IsText s := by
  induction s with
  | nil => exact .nil
  | cons c s ih =>
    rw [List.all_cons, Bool.and_eq_true] at h
    exact .cons h.1 (ih h.2)

/-- Texts one behind the other. -/
theorem append {s t : Str} (hs : IsText s) (ht : IsText t) : IsText (s ++ t) := by
  refine ⟨?_, fun hmem => (List.mem_append.1 hmem).elim hs.zero ht.zero⟩
  have hwell := hs.wellFormed
  clear hs
  induction hwell with
  | nil => exact ht.wellFormed
  | unit hhigh hlow _ ih => exact .unit hhigh hlow ih
  | pair hhi hlo _ ih => exact .pair hhi hlo ih

end IsText

/-! ### Units -/

/-- The surrogates of JSON are those of UTF-16. -/
theorem isHighSurrogate_eq (c : UInt16) : isHighSurrogate c = isHigh c := by
  rw [Bool.eq_iff_iff, isHigh_iff]
  simp only [isHighSurrogate, Bool.and_eq_true, decide_eq_true_eq, UInt16.le_iff_toNat_le]
  show 0xD800 ≤ c.toNat ∧ c.toNat ≤ 0xDBFF ↔ _
  omega

/-- So are the second ones. -/
theorem isLowSurrogate_eq (c : UInt16) : isLowSurrogate c = isLow c := by
  rw [Bool.eq_iff_iff, isLow_iff]
  simp only [isLowSurrogate, Bool.and_eq_true, decide_eq_true_eq, UInt16.le_iff_toNat_le]
  show 0xDC00 ≤ c.toNat ∧ c.toNat ≤ 0xDFFF ↔ _
  omega

/-- All units below the surrogates but 0. -/
theorem isTextUnit_of_lt {c : UInt16} (hpos : 0 < c.toNat) (hlt : c.toNat < 0xD800) :
    isTextUnit c := by
  have hzero : c ≠ 0 := by
    rintro rfl
    exact absurd hpos (by decide)
  have hhigh : isHigh c = false := by
    rw [← Bool.not_eq_true, isHigh_iff]
    omega
  have hlow : isLow c = false := by
    rw [← Bool.not_eq_true, isLow_iff]
    omega
  simp [isTextUnit, hzero, hhigh, hlow]

/-- Digits of either base. -/
theorem isTextUnit_hexDigit {d : ℕ} (h : d < 16) : isTextUnit (hexDigit d) := by
  interval_cases d <;> rfl

/-- An escape is written in ASCII. -/
theorem isText_unicodeEscape (c : UInt16) : IsText (unicodeEscape c) := by
  have hlt : c.toNat < 65536 := c.toNat_lt
  have hfirst : c.toNat / 4096 < 16 := by omega
  exact .cons rfl <| .cons rfl <| .cons (isTextUnit_hexDigit hfirst) <|
    .cons (isTextUnit_hexDigit (Nat.mod_lt _ (by decide))) <|
    .cons (isTextUnit_hexDigit (Nat.mod_lt _ (by decide))) <|
    .cons (isTextUnit_hexDigit (Nat.mod_lt _ (by decide))) .nil

/-- So is a number. -/
theorem isText_decimal (k : ℕ) : IsText (decimal k) := by
  refine .of_units (List.all_eq_true.2 fun c hc => ?_)
  have hdigit := List.all_eq_true.1 (all_isDigit_decimal k) c hc
  simp only [isDigit, Bool.and_eq_true, decide_eq_true_eq] at hdigit
  exact isTextUnit_of_lt (by omega) (by omega)

/-- A unit that is no surrogate is written as itself or as an escape, never as 0. -/
theorem isText_quoteUnit {c : UInt16} (hhigh : isHigh c = false) (hlow : isLow c = false) :
    IsText (quoteUnit c) := by
  unfold quoteUnit
  split_ifs with h1 h2 h3 h4 h5 h6 h7 h8
  any_goals exact .of_units rfl
  · exact isText_unicodeEscape c
  · refine .cons ?_ .nil
    have hne : c ≠ 0 := by
      rintro rfl
      exact h8 (by decide)
    simp [isTextUnit, hne, hhigh, hlow]

/-! ### Values -/

/-- Half of a pair is written as it is. -/
theorem quoteUnit_of_le {c : UInt16} (hc : 0xD800 ≤ c.toNat) : quoteUnit c = [c] := by
  have hne : ∀ d : UInt16, d.toNat < 0xD800 → c ≠ d := by
    rintro d hd rfl
    omega
  have hlt : ¬c < 32 := by
    rw [UInt16.lt_iff_toNat_lt]
    show ¬c.toNat < 32
    omega
  simp [quoteUnit, hne 34 (by decide), hne 92 (by decide), hne 8 (by decide), hne 12 (by decide),
    hne 10 (by decide), hne 13 (by decide), hne 9 (by decide), hlt]

/-- **A quoted string is a text**: its pairs stay together, and what is left of the
surrogates is escaped. By strong induction on its length, as a pair takes two units at
once. -/
theorem isText_quoteFrom (s : Str) : IsText (quoteFrom false s) := by
  induction hn : s.length using Nat.strong_induction_on generalizing s with
  | h m ih =>
    subst hn
    cases s with
    | nil => exact .nil
    | cons c cs =>
      rw [quoteFrom]
      simp only [isHighSurrogate_eq, Bool.not_false, Bool.true_and, Bool.and_true]
      by_cases hpair : isHigh c && cs.head?.any isLowSurrogate
      · -- a pair
        obtain ⟨hhigh, hany⟩ := Bool.and_eq_true_iff.1 hpair
        cases cs with
        | nil => cases hany
        | cons lo cs =>
          have hlow : isLow lo := (isLowSurrogate_eq lo).symm.trans hany
          have hrest : IsText (quoteFrom false cs) := ih cs.length (by simp) cs rfl
          have hhi := quoteUnit_of_le (isHigh_iff.1 hhigh).1
          have hlo := quoteUnit_of_le ((by decide : 0xD800 ≤ 0xDC00).trans (isLow_iff.1 hlow).1)
          have hwhole : quoteFrom (isHigh c && (lo :: cs).head?.any isLowSurrogate) (lo :: cs) =
              lo :: quoteFrom false cs := by
            rw [hpair, quoteFrom, hlo]
            simp
          rw [hwhole, hpair, if_neg (by simp), hhi]
          refine ⟨.pair hhigh hlow hrest.wellFormed, fun hmem => ?_⟩
          rcases List.mem_cons.1 hmem with rfl | hmem
          · cases hhigh
          · rcases List.mem_cons.1 hmem with rfl | hmem
            · cases hlow
            · exact hrest.zero hmem
      -- one unit: escaped if it is half of a pair, and otherwise no surrogate
      · rw [Bool.eq_false_iff.2 hpair]
        refine .append ?_ (ih cs.length (by simp) cs rfl)
        split
        · exact isText_unicodeEscape c
        · next halone =>
          rw [isLowSurrogate_eq, Bool.not_false, Bool.and_true, Bool.or_eq_true, not_or,
            Bool.not_eq_true, Bool.not_eq_true] at halone
          exact isText_quoteUnit halone.1 halone.2

/-- With the quotation marks, too. -/
theorem isText_quote (s : Str) : IsText (quote s) :=
  .cons rfl ((isText_quoteFrom s).append (.of_units rfl))

mutual

/-- **What `JSON.stringify` writes is a text**, by induction on the value together with
elements and fields. -/
theorem isText_stringify (v : Value) : IsText (stringify v) := by
  cases v with
  | null => exact .of_units rfl
  | bool b => cases b <;> exact .of_units rfl
  | num k =>
    rw [stringify, stringifyNumber]
    split
    · exact .cons rfl (isText_decimal _)
    · exact isText_decimal _
  | str s => exact isText_quote s
  | arr elems => exact .cons rfl ((isText_stringifyElems elems).append (.of_units rfl))
  | obj fields => exact .cons rfl ((isText_stringifyFields fields).append (.of_units rfl))

/-- The elements of an array. -/
theorem isText_stringifyElems (elems : List Value) : IsText (stringifyElems elems) := by
  cases elems with
  | nil => exact .nil
  | cons v vs =>
    have hrest := isText_stringifyElems vs
    cases vs with
    | nil => exact isText_stringify v
    | cons w ws => exact (isText_stringify v).append (.cons rfl hrest)

/-- The fields of an object. -/
theorem isText_stringifyFields (fields : List (Str × Value)) :
    IsText (stringifyFields fields) := by
  cases fields with
  | nil => exact .nil
  | cons f fs =>
    obtain ⟨name, v⟩ := f
    have hrest := isText_stringifyFields fs
    have hfirst : IsText (quote name ++ 58 :: stringify v) :=
      (isText_quote name).append (.cons rfl (isText_stringify v))
    cases fs with
    | nil => exact hfirst
    | cons g gs => exact hfirst.append (.cons rfl hrest)

end

/-! ### Assignment to a field -/

/-- `object[name] = v`. A field that is there keeps its place, a new one comes at the
end; other values have no fields. -/
def Value.setField (object : Value) (name : Str) (v : Value) : Value :=
  match object with
  | .obj fields =>
    if name ∈ fields.map Prod.fst then
      .obj (fields.map fun f => if f.1 = name then (name, v) else f)
    else .obj (fields ++ [(name, v)])
  | w => w

/-- An assignment to a field changes no names, so that a field of any name is found in
the same place. -/
theorem find?_assigned (name name' : Str) (v : Value) (fields : List (Str × Value)) :
    (fields.map fun f => if f.1 = name then (name, v) else f).reverse.find? (·.1 == name') =
      (fields.reverse.find? (·.1 == name')).map fun f => if f.1 = name then (name, v) else f := by
  have hsame : (fun f : Str × Value => f.1 == name') ∘
      (fun f => if f.1 = name then (name, v) else f) = fun f => f.1 == name' := by
    funext f
    by_cases hf : f.1 = name <;> simp [hf]
  rw [← List.map_reverse, List.find?_map, hsame]

/-- A field has the value that was assigned to it last, whether it was there before or
not. -/
theorem field_setField (name : Str) (v : Value) (fields : List (Str × Value)) :
    ((Value.obj fields).setField name v).field name = some v := by
  rw [Value.setField]
  -- the object has a field of this name, which is replaced, or gets one more
  split
  · next hmem =>
    obtain ⟨f, hf, hname⟩ := List.mem_map.1 hmem
    have hfind : (fields.reverse.find? fun f => f.1 == name).isSome := by
      rw [List.find?_isSome]
      exact ⟨f, List.mem_reverse.2 hf, by simp [hname]⟩
    obtain ⟨g, hg⟩ := Option.isSome_iff_exists.1 hfind
    -- the last field of the name is found, as before, and it has the new value
    have hgname : g.1 = name := by simpa using List.find?_some hg
    rw [Value.field, find?_assigned, hg]
    simp [hgname]
  · simp [Value.field]

end Json
