import Nanoservices.Library.Json

/-!
# Strings that stand for themselves

A string needs no escapes when it has no quotation mark, no backslash and no control
character. A program that puts quotation marks around its strings, commas between them
and brackets around all of them has written JSON exactly when they are of that kind
(`parse_plainArray_iff`): every unit of a string is read from at least one unit of the
text, and from exactly one when it is not escaped.
-/

namespace Json

open Utf16

/-- A unit that stands for itself in a quoted string: no quotation mark, no backslash,
no control character. -/
def isPlain (c : UInt16) : Bool := !(c = 34 || c = 92 || c < 32)

/-- The strings between quotation marks, each with a comma behind it. -/
def commaStrings (ss : List Str) : Str := ss.flatMap fun s => 34 :: s ++ [34, 44]

/-- An array of strings that are not escaped; its last comma makes room for the bracket.
-/
def plainArray (ss : List Str) : Str := (91 :: commaStrings ss).dropLast ++ [93]

/-- The units that strings, quotation marks and separators take. -/
def stringsLength (ss : List Str) : ℕ := (ss.map fun s => s.length + 3).sum

/-- That many units are written. -/
theorem length_commaStrings (ss : List Str) : (commaStrings ss).length = stringsLength ss := by
  rw [commaStrings, stringsLength, List.length_flatMap]
  congr 2
  funext s
  simp

/-- Each string takes one at least. -/
theorem length_le_stringsLength (ss : List Str) : ss.length ≤ stringsLength ss := by
  induction ss with
  | nil => exact Nat.zero_le _
  | cons s ss ih =>
    simp only [stringsLength, List.map_cons, List.sum_cons, List.length_cons] at ih ⊢
    omega

/-! ### Lengths of what is read -/

/-- A quoted string is no longer than its text. By induction on the text, in each state
of the reader: a unit of the string takes one or more of them. -/
theorem length_unquote (s : Str) : ∀ {e : Escape} {t rest : Str},
    unquote e s = some (t, rest) → t.length + 1 + rest.length ≤ s.length := by
  induction s with
  | nil =>
    intro e t rest h
    cases e <;> cases h
  | cons c cs ih =>
    intro e t rest h
    -- a unit of the string, and the rest of it
    have hunit : ∀ {d : UInt16}, ((unquote .plain cs).map fun r => (d :: r.1, r.2)) =
        some (t, rest) → t.length + 1 + rest.length ≤ cs.length + 1 := by
      intro d hd
      obtain ⟨⟨t', rest'⟩, hr, heq⟩ := Option.map_eq_some_iff.1 hd
      obtain ⟨rfl, rfl⟩ := Prod.mk.inj heq
      have hlen := ih hr
      simp only [List.length_cons] at hlen ⊢
      omega
    rw [List.length_cons]
    cases e with
    | plain =>
      rw [unquote] at h
      split at h
      · obtain ⟨rfl, rfl⟩ := Prod.mk.inj (Option.some.inj h)
        simp
        omega
      · split at h
        · exact (ih h).trans (Nat.le_succ _)
        · split at h
          · cases h
          · exact hunit h
    | backslash =>
      rw [unquote] at h
      split at h
      · exact (ih h).trans (Nat.le_succ _)
      · obtain ⟨d, -, hd⟩ := Option.bind_eq_some_iff.1 h
        exact hunit hd
    | hex digits value =>
      rw [unquote] at h
      obtain ⟨v, -, h⟩ := Option.bind_eq_some_iff.1 h
      split at h
      · exact hunit h
      · exact (ih h).trans (Nat.le_succ _)

/-- A string that takes as little text as possible has no escapes: an escape would take
a unit more. By induction on the text. -/
theorem plain_of_unquote (s : Str) : ∀ {t rest : Str}, unquote .plain s = some (t, rest) →
    s.length ≤ t.length + 1 + rest.length → ∀ c ∈ t, isPlain c = true := by
  induction s with
  | nil =>
    intro t rest h
    cases h
  | cons c cs ih =>
    intro t rest h hlen
    rw [unquote] at h
    rw [List.length_cons] at hlen
    split at h
    · obtain ⟨rfl, rfl⟩ := Prod.mk.inj (Option.some.inj h)
      exact List.forall_mem_nil _
    · next h34 =>
      split at h
      -- an escape: behind the backslash there is not enough left
      · have hle := length_unquote cs h
        omega
      · next h92 =>
        split at h
        · cases h
        · next h32 =>
          obtain ⟨⟨t', rest'⟩, hr, heq⟩ := Option.map_eq_some_iff.1 h
          obtain ⟨rfl, rfl⟩ := Prod.mk.inj heq
          simp only [List.length_cons] at hlen
          have hrest := ih hr (by omega)
          refine List.forall_mem_cons.2 ⟨?_, hrest⟩
          simp [isPlain, h34, h92, h32]

/-- Plain units are read as they are. -/
theorem unquote_plain {t : Str} (h : ∀ c ∈ t, isPlain c = true) (rest : Str) :
    unquote .plain (t ++ 34 :: rest) = some (t, rest) := by
  induction t with
  | nil => simp [unquote]
  | cons c t ih =>
    obtain ⟨hc, ht⟩ := List.forall_mem_cons.1 h
    simp only [isPlain, Bool.not_eq_true', Bool.or_eq_false_iff, decide_eq_false_iff_not] at hc
    rw [List.cons_append, unquote, if_neg hc.1.1, if_neg hc.1.2, if_neg hc.2, ih ht]
    rfl

/-- Skipping white space makes no text longer. -/
theorem length_skipSpace_le (s : Str) : (skipSpace s).length ≤ s.length :=
  (List.dropWhile_suffix _).length_le

/-- Where strings and arrays come from: a quotation mark or a bracket, and what is read
behind it. No other branch of the parser makes them. -/
theorem parseValue_cases {fuel : ℕ} {s rest : Str} {v : Value}
    (h : parseValue fuel s = some (v, rest)) : ∃ n c cs, fuel = n + 1 ∧ skipSpace s = c :: cs ∧
      ((∃ t, v = .str t ∧ unquote .plain cs = some (t, rest)) ∨ v = .arr [] ∨
        (∃ vs, v = .arr vs ∧ parseElems n cs = some (vs, rest)) ∨
        (∀ t, v ≠ .str t) ∧ ∀ vs, v ≠ .arr vs) := by
  cases fuel with
  | zero => cases h
  | succ n =>
    rw [parseValue] at h
    cases hs : skipSpace s with
    | nil => simp [hs] at h
    | cons c cs =>
      refine ⟨n, c, cs, rfl, rfl, ?_⟩
      simp only [hs] at h
      split at h
      · obtain ⟨⟨t, rest'⟩, hr, heq⟩ := Option.map_eq_some_iff.1 h
        obtain ⟨rfl, rfl⟩ := Prod.mk.inj heq
        exact .inl ⟨t, rfl, hr⟩
      · split at h
        · cases heat : eat 93 cs with
          | some rest' =>
            rw [heat] at h
            have harr : some (Value.arr [], rest') = some (v, rest) := h
            exact .inr (.inl (Prod.mk.inj (Option.some.inj harr)).1.symm)
          | none =>
            simp only [heat, Option.map_none] at h
            obtain ⟨⟨vs, rest'⟩, helems, heq⟩ := Option.map_eq_some_iff.1 h
            obtain ⟨rfl, rfl⟩ := Prod.mk.inj heq
            exact .inr (.inr (.inl ⟨vs, rfl, helems⟩))
        -- an object, a number or a literal
        · refine .inr (.inr (.inr ?_))
          split at h
          · cases heat : eat 125 cs <;> simp [heat, Option.map_eq_some_iff] at h <;> grind
          · split at h
            · rw [parseNumber] at h
              split at h <;> simp [Option.map_eq_some_iff] at h <;> grind
            · rw [parseLiteral] at h
              cases hnull : dropLiteral (lit "null") (c :: cs) <;>
                cases htrue : dropLiteral (lit "true") (c :: cs) <;>
                  simp [hnull, htrue, Option.map_eq_some_iff] at h <;> grind

/-- A string takes its units and the two quotation marks, and if no more than that, it
is plain. -/
theorem parseValue_str {fuel : ℕ} {s t rest : Str} (h : parseValue fuel s = some (.str t, rest)) :
    t.length + 2 + rest.length ≤ s.length ∧
      (s.length ≤ t.length + 2 + rest.length → ∀ c ∈ t, isPlain c = true) := by
  obtain ⟨n, c, cs, -, hs, ⟨t', ht, hr⟩ | hv | ⟨vs, hv, -⟩ | ⟨hv, -⟩⟩ := parseValue_cases h
  · obtain rfl : t = t' := Value.str.inj ht
    have hskip := length_skipSpace_le s
    rw [hs, List.length_cons] at hskip
    have hlen := length_unquote cs hr
    exact ⟨by omega, fun hle => plain_of_unquote cs hr (by omega)⟩
  · cases hv
  · cases hv
  · exact absurd rfl (hv t)

/-- A separator takes a unit. -/
theorem length_parseSeparator {close : UInt16} {s rest : Str} {more : Bool}
    (h : parseSeparator close s = some (more, rest)) : rest.length + 1 ≤ s.length := by
  have hskip := length_skipSpace_le s
  rw [parseSeparator] at h
  cases hs : skipSpace s with
  | nil => simp [hs] at h
  | cons c cs =>
    rw [hs, List.length_cons] at hskip
    -- what is left is what follows the separator itself
    have hrest : rest = cs := by
      simp only [hs] at h
      split at h
      · exact (Prod.mk.inj (Option.some.inj h)).2.symm
      · split at h
        · exact (Prod.mk.inj (Option.some.inj h)).2.symm
        · cases h
    rw [hrest]
    exact hskip

/-- Strings in an array take their units, the quotation marks and a separator each; if
no more than that, all are plain. By induction on the fuel. -/
theorem parseElems_strings {fuel : ℕ} : ∀ {s rest : Str} {ss : List Str},
    parseElems fuel s = some (ss.map .str, rest) →
    stringsLength ss + rest.length ≤ s.length ∧
      (s.length ≤ stringsLength ss + rest.length → ∀ t ∈ ss, ∀ c ∈ t, isPlain c = true) := by
  induction fuel with
  | zero => nofun
  | succ fuel ih =>
    intro s rest ss h
    rw [parseElems] at h
    obtain ⟨⟨v, s₁⟩, hv, h⟩ := Option.bind_eq_some_iff.1 h
    obtain ⟨⟨more, s₂⟩, hsep, h⟩ := Option.bind_eq_some_iff.1 h
    have hseplen := length_parseSeparator hsep
    -- the first string
    have hfirst : ∀ {t : Str}, v = .str t → t.length + 3 + s₂.length ≤ s.length ∧
        (s.length ≤ t.length + 3 + s₂.length → ∀ c ∈ t, isPlain c = true) := by
      rintro t rfl
      obtain ⟨hlen, hplain⟩ := parseValue_str hv
      exact ⟨by omega, fun hle => hplain (by omega)⟩
    cases more with
    | false =>
      obtain ⟨hvs, rfl⟩ := Prod.mk.inj (Option.some.inj h)
      obtain ⟨t, rfl, ht⟩ := List.map_eq_singleton_iff.1 hvs.symm
      obtain ⟨hlen, hplain⟩ := hfirst ht.symm
      simp only [stringsLength, List.map_cons, List.map_nil, List.sum_cons, List.sum_nil,
        List.mem_singleton, forall_eq]
      exact ⟨by omega, fun hle => hplain (by omega)⟩
    -- another string follows
    | true =>
      obtain ⟨⟨vs, s₃⟩, hvs, h⟩ := Option.bind_eq_some_iff.1 h
      obtain ⟨hcons, rfl⟩ := Prod.mk.inj (Option.some.inj h)
      obtain ⟨t, ts, rfl, ht, rfl⟩ := List.map_eq_cons_iff.1 hcons.symm
      obtain ⟨hlen, hplain⟩ := hfirst ht.symm
      obtain ⟨hlen', hplain'⟩ := ih hvs
      simp only [stringsLength, List.map_cons, List.sum_cons] at hlen' hplain' ⊢
      refine ⟨by omega, fun hle => List.forall_mem_cons.2 ⟨hplain (by omega), hplain' ?_⟩⟩
      omega

/-- **An array of strings is no longer than its text**, and shorter when a string has
escapes. So the text of `plainArray`, which has exactly that length, is read as its
strings only if they are plain. -/
theorem parse_strings {s : Str} {ss : List Str} (h : parse s = some (.arr (ss.map .str)))
    (hne : ss ≠ []) : stringsLength ss + 1 ≤ s.length ∧
      (s.length ≤ stringsLength ss + 1 → ∀ t ∈ ss, ∀ c ∈ t, isPlain c = true) := by
  rw [parse] at h
  obtain ⟨⟨v, rest⟩, hv, h⟩ := Option.bind_eq_some_iff.1 h
  dsimp only at h
  split at h
  · obtain rfl := Option.some.inj h
    -- an array of strings that is not empty is read by the elements' parser, and by no
    -- other case
    obtain ⟨n, c, cs, -, hs, ⟨t, ht, -⟩ | hnil | ⟨vs, hvs, helems⟩ | ⟨-, hv⟩⟩ :=
      parseValue_cases hv
    · cases ht
    · exact absurd (List.map_eq_nil_iff.1 (Value.arr.inj hnil)) hne
    · obtain rfl := Value.arr.inj hvs
      have hskip := length_skipSpace_le s
      rw [hs, List.length_cons] at hskip
      obtain ⟨hlen, hplain⟩ := parseElems_strings helems
      exact ⟨by omega, fun hle => hplain (by omega)⟩
    · exact absurd rfl (hv _)
  · cases h

/-! ### Arrays that are not escaped -/

/-- A plain string in quotation marks is read back. -/
theorem parseValue_plain {n : ℕ} {t : Str} (ht : ∀ c ∈ t, isPlain c = true) (rest : Str) :
    parseValue (n + 1) (34 :: t ++ 34 :: rest) = some (.str t, rest) := by
  rw [List.cons_append, parseValue, skipSpace_cons (by decide)]
  simp only [if_true, unquote_plain ht, Option.map_some]

/-- So are several of them, with commas between. By induction on the strings. -/
theorem parseElems_plain {ss : List Str} : ∀ {n : ℕ} (rest : Str), ss ≠ [] → ss.length < n →
    (∀ t ∈ ss, ∀ c ∈ t, isPlain c = true) →
    parseElems n ((commaStrings ss).dropLast ++ 93 :: rest) = some (ss.map .str, rest) := by
  induction ss with
  | nil => exact fun _ hne => absurd rfl hne
  | cons t ss ih =>
    intro n rest _ hn hplain
    obtain ⟨fuel, rfl⟩ : ∃ fuel, n = fuel + 2 := ⟨n - 2, by simp at hn; omega⟩
    obtain ⟨ht, hss⟩ := List.forall_mem_cons.1 hplain
    cases ss with
    | nil =>
      -- the last string: its comma has made room for the bracket
      have htext : (commaStrings [t]).dropLast ++ 93 :: rest = 34 :: t ++ 34 :: 93 :: rest := by
        have hlast : commaStrings [t] = (34 :: t ++ [34]) ++ [44] := by simp [commaStrings]
        rw [hlast, List.dropLast_concat]
        simp
      rw [htext, parseElems, parseValue_plain ht]
      simp [parseSeparator_close (c := 93) (by decide) (by decide)]
    | cons u ss =>
      have htext : (commaStrings (t :: u :: ss)).dropLast ++ 93 :: rest =
          34 :: t ++ 34 :: 44 :: ((commaStrings (u :: ss)).dropLast ++ 93 :: rest) := by
        have hlast : commaStrings (t :: u :: ss) =
            (34 :: t ++ [34, 44]) ++ commaStrings (u :: ss) := by
          simp [commaStrings]
        rw [hlast, List.dropLast_append_of_ne_nil (by simp [commaStrings])]
        simp
      rw [htext, parseElems, parseValue_plain ht]
      simp only [Option.bind_eq_bind, Option.bind_some, parseSeparator_comma, if_true]
      rw [ih rest (by simp) (by simp at hn ⊢; omega) hss]
      rfl

/-- A bracket in front, and for the last comma the other one. -/
theorem length_plainArray (ss : List Str) :
    (plainArray ss).length = stringsLength ss + 1 := by
  rw [plainArray, List.length_append, List.length_dropLast, List.length_cons,
    length_commaStrings, List.length_singleton]
  rfl

/-- What is neither a mark nor a bracket comes from one of the strings. -/
theorem mem_plainArray_iff {c : UInt16} (hc : c ∉ lit "[\",]") (ss : List Str) :
    c ∈ plainArray ss ↔ ∃ s ∈ ss, c ∈ s := by
  have hmarks : c ≠ 91 ∧ c ≠ 34 ∧ c ≠ 44 ∧ c ≠ 93 := by
    simpa [show lit "[\",]" = [91, 34, 44, 93] from rfl] using hc
  have hcomma : c ∈ commaStrings ss ↔ ∃ s ∈ ss, c ∈ s := by
    simp [commaStrings, hmarks]
  rw [← hcomma, plainArray, List.mem_append, List.mem_singleton, or_iff_left hmarks.2.2.2]
  -- between the strings there are marks only, and `c` is none of them
  rcases List.eq_nil_or_concat' ss with rfl | ⟨ss, s, rfl⟩
  · simp [commaStrings]
  · have hlast : commaStrings (ss ++ [s]) = commaStrings ss ++ 34 :: s ++ [34] ++ [44] := by
      simp [commaStrings]
    rw [hlast, ← List.cons_append, List.dropLast_concat]
    simp [hmarks]

/-- **Strings in quotation marks are JSON** exactly when none needs an escape and there
are any. If it is read as the strings, its length tells that nothing was escaped
(`parse_strings`). -/
theorem parse_plainArray_iff (ss : List Str) :
    parse (plainArray ss) = some (.arr (ss.map .str)) ↔
      ss ≠ [] ∧ ∀ t ∈ ss, ∀ c ∈ t, isPlain c = true := by
  constructor
  · intro h
    -- without strings the opening bracket is taken for the comma
    have hne : ss ≠ [] := by
      rintro rfl
      have hnone : parse (plainArray []) = none := by decide
      rw [hnone] at h
      cases h
    exact ⟨hne, (parse_strings h hne).2 (length_plainArray ss).le⟩
  · rintro ⟨hne, hplain⟩
    have hcomma : commaStrings ss ≠ [] := by
      obtain ⟨t, ss, rfl⟩ := List.exists_cons_of_ne_nil hne
      simp [commaStrings]
    have htext : plainArray ss = 91 :: ((commaStrings ss).dropLast ++ 93 :: []) := by
      rw [plainArray, List.dropLast_cons_of_ne_nil hcomma]
      rfl
    have hlen : ss.length < (plainArray ss).length := by
      rw [length_plainArray]
      exact Nat.lt_succ_of_le (length_le_stringsLength ss)
    -- the first string shows that the array is not empty
    have heat : eat 93 ((commaStrings ss).dropLast ++ 93 :: []) = none := by
      obtain ⟨t, ss, rfl⟩ := List.exists_cons_of_ne_nil hne
      have hfirst : commaStrings (t :: ss) = 34 :: (t ++ ([34, 44] ++ commaStrings ss)) := by
        simp [commaStrings]
      rw [hfirst, List.dropLast_cons_of_ne_nil (by simp), List.cons_append]
      exact eat_ne (by decide) (by decide) _
    have hparse : parseValue ((plainArray ss).length + 1) (plainArray ss) =
        some (.arr (ss.map .str), []) := by
      generalize (plainArray ss).length = fuel at hlen
      rw [htext, parseValue, skipSpace_cons (by decide)]
      simp only [if_true, if_neg (show ¬(91 : UInt16) = 34 by decide), heat,
        parseElems_plain [] hne hlen hplain]
      rfl
    rw [parse, hparse]
    rfl

end Json
