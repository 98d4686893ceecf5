import Nanoservices.Http.Request

/-!
# The query of a URL

`set_query_param` cuts what stands behind the first `?` at `&`, every piece at its first
`=`, and decodes the two parts. Bytes may stand for themselves, as `+` or as `%` and two
hex digits, as long as those with a meaning are escaped; then the parameters are what
was encoded, and of pairs with one name the last counts (`query_decodes`).
-/

namespace Nanoservices

/-! ### The scan -/

/-- `find` from a position on: the position in the whole, not from there. -/
def findFrom (s : Bytes) (c : UInt8) (pos : ℕ) : Option ℕ :=
  if c ∈ s.drop pos then some (pos + (s.drop pos).idxOf c) else none

/-- The loop of `set_query_param`, for at most `n` searches. Each search is for the next
`&`; a piece ends there or, when there is none, at the end. -/
def paramLoop (url : Bytes) : ℕ → ℕ → Fields → Option Fields
  | 0, _, _ => none
  | n + 1, curr, parameters =>
    match findFrom url 38 curr with
    | some end_param =>
      paramLoop url n (end_param + 1)
        (addParam parameters ((url.drop curr).take (end_param - curr)))
    | none => some (addParam parameters (url.drop curr))

/-- `set_query_param` with its loop: what it returns, and the request it leaves. Without
a `?` the URL is returned and nothing changes. -/
def setQueryParamRun (n : ℕ) (req : Request) : Option (Bytes × Request) :=
  match findFrom req.url 63 0 with
  | none => some (req.url, req)
  | some pos =>
    (paramLoop req.url n (pos + 1) req.query_parameters).map fun parameters =>
      (req.url.take pos, { req with query_parameters := parameters })

/-- What `set_query_param` returns: the URL up to its first `?`. -/
def queryPath (req : Request) : Bytes := req.url.takeWhile (· ≠ 63)

/-- The first occurrence of what does not occur before. -/
theorem idxOf_append_cons {s t : Bytes} {c : UInt8} (h : c ∉ s) :
    (s ++ c :: t).idxOf c = s.length := by
  rw [List.idxOf_append_of_notMem h, List.idxOf_cons_self]
  omega

/-- Nothing is cut off where the byte does not occur. -/
theorem takeWhile_ne_self {s : Bytes} {c : UInt8} (h : c ∉ s) : s.takeWhile (· ≠ c) = s := by
  refine List.takeWhile_eq_self_iff.2 fun b hb => ?_
  simp only [decide_eq_true_eq]
  rintro rfl
  exact h hb

/-- What stands in front of the first occurrence. -/
theorem takeWhile_ne_append_cons {s t : Bytes} {c : UInt8} (h : c ∉ s) :
    (s ++ c :: t).takeWhile (· ≠ c) = s := by
  rw [List.takeWhile_append, takeWhile_ne_self h]
  simp

/-- Enough searches go through all pieces: the loop does what cutting at every `&` first
and adding the pieces afterwards does. By induction on the number of searches, each of
which ends further behind. -/
theorem paramLoop_eq (url : Bytes) {n : ℕ} : ∀ {curr : ℕ} (parameters : Fields),
    url.length < curr + n → curr ≤ url.length →
    paramLoop url n curr parameters =
      some (((url.drop curr).splitOn 38).foldl addParam parameters) := by
  induction n with
  | zero => intro curr parameters hn hcurr; omega
  | succ n ih =>
    intro curr parameters hn hcurr
    rw [paramLoop, findFrom]
    by_cases hmem : 38 ∈ url.drop curr
    -- a piece in front of `&`
    · obtain ⟨piece, rest, hrest, hpiece⟩ := List.eq_append_cons_of_mem hmem
      have hlen : piece.length + 1 + rest.length = url.length - curr := by
        rw [← List.length_drop, hrest]
        simp only [List.length_append, List.length_cons]
        omega
      have hdrop : url.drop (curr + piece.length + 1) = rest := by
        rw [Nat.add_assoc, ← List.drop_drop, hrest]
        simp
      have hidx : (url.drop curr).idxOf 38 = piece.length := by
        rw [hrest, idxOf_append_cons hpiece]
      rw [if_pos hmem, hidx]
      show paramLoop url n _ _ = _
      rw [ih _ (by omega) (by omega), hdrop, hrest,
        List.splitOn_append_cons_self_of_not_mem hpiece, List.foldl_cons, Nat.add_sub_cancel_left,
        List.take_left' rfl]
    -- the last piece
    · rw [if_neg hmem, List.splitOn_eq_singleton hmem]
      rfl

/-- **`set_query_param` terminates**, with the parameters of the pieces. A URL has at
most as many pieces as bytes behind the `?`, and one more. -/
theorem setQueryParamRun_eq (req : Request) {n : ℕ} (hn : req.url.length ≤ n) :
    setQueryParamRun n req = some (queryPath req, setQueryParam req) := by
  rw [setQueryParamRun, setQueryParam, queryPath, findFrom, List.drop_zero]
  -- with a `?` the loop runs over what stands behind it, without one the URL is the
  -- path
  by_cases hmem : 63 ∈ req.url
  · obtain ⟨path, query, hurl, hpath⟩ := List.eq_append_cons_of_mem hmem
    have hidx : req.url.idxOf 63 = path.length := by
      rw [hurl, idxOf_append_cons hpath]
    have hlen : path.length + 1 + query.length = req.url.length := by
      rw [hurl, List.length_append, List.length_cons]
      omega
    rw [if_pos hmem, if_pos hmem, hidx, Nat.zero_add]
    show (paramLoop _ _ _ _).map _ = _
    rw [paramLoop_eq _ _ (by omega) (by omega), Option.map_some]
    congr 2
    rw [hurl, List.take_left' rfl, takeWhile_ne_append_cons hpath]
  · rw [if_neg hmem, if_neg hmem]
    rw [takeWhile_ne_self hmem]

/-! ### Encodings -/

/-- `c` is a hex digit, of either case, with the value `x`. -/
def HexDigit (c x : UInt8) : Prop :=
  (bytes "0123456789abcdef")[x.toNat]? = some c ∨ (bytes "0123456789ABCDEF")[x.toNat]? = some c

instance (c x : UInt8) : Decidable (HexDigit c x) := inferInstanceAs (Decidable (_ ∨ _))

/-- An encoding of a byte: itself unless it has a meaning, `+` for a space, or `%` and
two hex digits, whatever the byte. -/
inductive EncodesByte : UInt8 → Bytes → Prop
  | literal {b : UInt8} : b ∉ bytes "%+=&?" → EncodesByte b [b]
  | space : EncodesByte 32 (bytes "+")
  | escape {b high low x y : UInt8} : HexDigit high x → HexDigit low y → b = x * 16 + y →
      EncodesByte b [37, high, low]

/-- An encoding of a name or a value, byte by byte; each may be encoded in a way of its
own. -/
inductive Encodes : Bytes → Bytes → Prop
  | nil : Encodes [] []
  | cons {b : UInt8} {e s es : Bytes} : EncodesByte b e → Encodes s es → Encodes (b :: s) (e ++ es)

/-- An encoding `n=v` of a pair. Both parts may be empty, but the `=` is there. -/
def EncodesPair (pair : Bytes × Bytes) (piece : Bytes) : Prop :=
  ∃ n v, Encodes pair.1 n ∧ Encodes pair.2 v ∧ piece = n ++ 61 :: v

/-- A request as it comes from the parser: the query is still in the URL, and there are
no parameters. -/
def parsedRequest (url : Bytes) (headers : Fields) (content : Bytes) : Request where
  url := url
  headers := headers
  query_parameters := ⟨[], List.nodup_nil⟩
  content := content

/-- `hex_to_byte` reads digits of either case. There are 22 digits, so this is checked
for each. -/
theorem HexDigit.hexToByte_eq {c x : UInt8} (h : HexDigit c x) : hexToByte c = x := by
  have hlower : ∀ n < 16, (bytes "0123456789abcdef")[n]?.map hexToByte = some (UInt8.ofNat n) := by
    decide
  have hupper : ∀ n < 16, (bytes "0123456789ABCDEF")[n]?.map hexToByte = some (UInt8.ofNat n) := by
    decide
  rcases h with h | h
  · have hx := hlower x.toNat (List.getElem?_eq_some_iff.1 h).1
    rw [h] at hx
    simpa using hx
  · have hx := hupper x.toNat (List.getElem?_eq_some_iff.1 h).1
    rw [h] at hx
    simpa using hx

/-- A hex digit has no meaning of its own. -/
theorem HexDigit.notMem {c x : UInt8} (h : HexDigit c x) : c ∉ bytes "%+=&?" := by
  have hlower : ∀ d ∈ bytes "0123456789abcdef", d ∉ bytes "%+=&?" := by decide +kernel
  have hupper : ∀ d ∈ bytes "0123456789ABCDEF", d ∉ bytes "%+=&?" := by decide +kernel
  rcases h with h | h
  · exact hlower c (List.mem_of_getElem? h)
  · exact hupper c (List.mem_of_getElem? h)

/-- No separator occurs in an encoding: those of the text have been escaped. By
induction on the encoding, with one case for each way to encode a byte. -/
theorem Encodes.notMem {s e : Bytes} (h : Encodes s e) : ∀ c ∈ bytes "=&?", c ∉ e := by
  intro c hc
  induction h with
  | nil => exact List.not_mem_nil
  | cons hb _ ih =>
    rw [List.mem_append]
    rintro (hmem | hmem)
    -- `+` and `%` occur in encodings, but are none of the separators
    · have hsub : ∀ c ∈ bytes "=&?", c ∈ bytes "%+=&?" ∧ c ≠ 43 ∧ c ≠ 37 := by decide +kernel
      obtain ⟨hmeaning, hplus, hpercent⟩ := hsub c hc
      cases hb with
      | literal hlit =>
        obtain rfl := List.mem_singleton.1 hmem
        exact hlit hmeaning
      | space => exact hplus (List.mem_singleton.1 hmem)
      | escape hhigh hlow _ =>
        simp only [List.mem_cons, List.not_mem_nil, or_false] at hmem
        obtain rfl | rfl | rfl := hmem
        · exact hpercent rfl
        · exact hhigh.notMem hmeaning
        · exact hlow.notMem hmeaning
    · exact ih hmem

/-- Only the empty text has an empty encoding. -/
theorem Encodes.eq_nil {s : Bytes} (h : Encodes s []) : s = [] := by
  generalize he : ([] : Bytes) = e at h
  cases h with
  | nil => rfl
  | cons hb _ => cases hb <;> simp [bytes] at he

/-! ### Decoding -/

/-- Any byte but `%` stands for itself or for a space, and the rest is decoded by
itself. -/
theorem urlDecode_cons {c : UInt8} (hc : c ≠ 37) (s : Bytes) :
    urlDecode (c :: s) = (urlDecode s).map ((if c = 43 then 32 else c) :: ·) := by
  cases s with
  | nil =>
    rw [urlDecode, urlDecode, if_neg hc]
    split <;> rfl
  | cons a s =>
    rw [urlDecode.eq_def]
    simp only [if_neg hc]

/-- `%` and two digits stand for one byte. -/
theorem urlDecode_escape (a b : UInt8) (s : Bytes) :
    urlDecode (37 :: a :: b :: s) =
      (urlDecode s).map ((hexToByte a * 16 + hexToByte b) :: ·) := by
  simp only [urlDecode, if_true]

/-- A byte is decoded to itself. -/
theorem EncodesByte.urlDecode_append {b : UInt8} {e : Bytes} (h : EncodesByte b e) (s : Bytes) :
    urlDecode (e ++ s) = (urlDecode s).map (b :: ·) := by
  cases h with
  | literal hlit =>
    have hplain : b ≠ 37 ∧ b ≠ 43 := by
      constructor <;> rintro rfl <;> exact hlit (by decide)
    rw [List.singleton_append, urlDecode_cons hplain.1, if_neg hplain.2]
  | space => exact urlDecode_cons (by decide) s
  | escape hhigh hlow hb =>
    rw [hb, ← hhigh.hexToByte_eq, ← hlow.hexToByte_eq]
    exact urlDecode_escape _ _ s

/-- **Decoding undoes encoding**, whichever of its encodings was chosen for each
byte. -/
theorem Encodes.urlDecode_eq {s e : Bytes} (h : Encodes s e) : urlDecode e = some s := by
  induction h with
  | nil => rfl
  | cons hb _ ih => rw [hb.urlDecode_append, ih, Option.map_some]

/-- Nothing in a piece is cut at `&`. -/
theorem EncodesPair.notMem {pair : Bytes × Bytes} {piece : Bytes} (h : EncodesPair pair piece) :
    38 ∉ piece := by
  obtain ⟨n, v, hn, hv, rfl⟩ := h
  simp only [List.mem_append, List.mem_cons, not_or]
  exact ⟨hn.notMem 38 (by decide), by decide, hv.notMem 38 (by decide)⟩

/-- A piece sets its name to its value: its first `=` is the one between the two parts,
and both are decoded. -/
theorem EncodesPair.addParam_eq {pair : Bytes × Bytes} {piece : Bytes} (h : EncodesPair pair piece)
    (parameters : Fields) : addParam parameters piece = parameters.set pair.1 pair.2 := by
  obtain ⟨n, v, hn, hv, rfl⟩ := h
  have hsplit : (n ++ 61 :: v).idxOf 61 = n.length := idxOf_append_cons (hn.notMem 61 (by decide))
  have htake : (n ++ 61 :: v).take n.length = n := List.take_left' rfl
  have hdrop : (n ++ 61 :: v).drop (n.length + 1) = v := by
    rw [← List.drop_drop, List.drop_left' rfl]
    rfl
  simp only [addParam, hsplit, htake, hdrop, hn.urlDecode_eq, hv.urlDecode_eq]
  split
  -- an empty value has no bytes
  · next hlen =>
    rw [List.length_append, List.length_cons] at hlen
    obtain rfl : v = [] := List.length_eq_zero_iff.1 (by omega)
    rw [hv.eq_nil]
  · rfl

/-! ### The parameters -/

/-- The value of a name. The names of the fields are different, so there is at most
one. -/
def Fields.get (f : Fields) (name : Bytes) : Option Bytes := f.entries.lookup name

/-- The first of the entries counts. -/
theorem lookup_cons_pair (n value name : Bytes) (entries : List (Bytes × Bytes)) :
    ((n, value) :: entries).lookup name =
      if name = n then some value else entries.lookup name := by
  rw [List.lookup_cons]
  by_cases hname : name = n
  · simp [hname]
  · rw [beq_eq_false_iff_ne.2 hname, if_neg hname]

/-- Setting a name that is there replaces its value and no other. -/
theorem lookup_replace {entries : List (Bytes × Bytes)} (n name value : Bytes) :
    (entries.map fun e => if e.1 = n then (n, value) else e).lookup name =
      if name = n then (entries.lookup name).map fun _ => value else entries.lookup name := by
  induction entries with
  | nil => simp
  | cons e entries ih =>
    obtain ⟨m, v⟩ := e
    rw [List.map_cons, lookup_cons_pair]
    -- an entry with the name that is set, which is found as the new one, or another
    -- entry, which stays
    by_cases hm : m = n
    · subst hm
      rw [if_pos rfl, lookup_cons_pair, ih]
      by_cases hname : name = m <;> simp [hname]
    · rw [if_neg hm, lookup_cons_pair, ih]
      by_cases hname : name = m
      · subst hname
        simp [hm]
      · simp [hname]

/-- What is set is got, and other names keep their values, whether or not the name was
there before. -/
@[simp] theorem Fields.get_set (f : Fields) (n value name : Bytes) :
    (f.set n value).get name = if name = n then some value else f.get name := by
  unfold Fields.set Fields.get
  split
  -- there already: its entry is replaced
  · next hmem =>
    show (f.entries.map _).lookup name = _
    rw [lookup_replace]
    split
    · next hname =>
      subst hname
      obtain ⟨v, hv⟩ : ∃ v, f.entries.lookup name = some v := by
        rw [← Option.isSome_iff_exists, List.lookup_isSome_iff]
        simpa using hmem
      rw [hv, Option.map_some]
    · rfl
  -- new: the entry is put at the end, where it is the first with the name
  · next hmem =>
    show (f.entries ++ _).lookup name = _
    rw [List.lookup_append]
    split
    · next hname =>
      subst hname
      have hnone : f.entries.lookup name = none := List.lookup_eq_none_iff.2 fun e he => by
        have hne : name ≠ e.1 := fun heq => hmem (heq ▸ List.mem_map_of_mem he)
        simpa using hne
      rw [hnone]
      simp
    · next hname => simp [hname]

/-- Of pairs with one name the last counts. By induction from the first pair on. -/
theorem get_foldl_addParam {pairs : List (Bytes × Bytes)} {pieces : List Bytes}
    (h : List.Forall₂ EncodesPair pairs pieces) (f : Fields) (name : Bytes) :
    (pieces.foldl addParam f).get name = (pairs.reverse.lookup name).or (f.get name) := by
  induction h generalizing f with
  | nil => simp
  | @cons pair piece pairs pieces hpair _ ih =>
    rw [List.foldl_cons, ih, hpair.addParam_eq, Fields.get_set, List.reverse_cons,
      List.lookup_append, Option.or_assoc]
    congr 1
    obtain ⟨n, v⟩ := pair
    by_cases hname : name = n <;> simp [hname]

/-- **The query is decoded to what was encoded.** The path is returned without the
query, and each name has the last of the values that were encoded for it, however the
bytes of the pairs were encoded. The number of searches is bounded by the length of the
URL, so `set_query_param` always returns. -/
theorem query_decodes (path content : Bytes) (headers : Fields) (pairs : List (Bytes × Bytes))
    (pieces : List Bytes) (hpath : 63 ∉ path) (hpairs : pairs ≠ [])
    (hpieces : List.Forall₂ EncodesPair pairs pieces) :
    ∃ req, (∀ n, (path ++ 63 :: [38].intercalate pieces).length ≤ n →
        setQueryParamRun n
          (parsedRequest (path ++ 63 :: [38].intercalate pieces) headers content) =
            some (path, req)) ∧
      ∀ name, req.query_parameters.get name = pairs.reverse.lookup name := by
  set url := path ++ 63 :: [38].intercalate pieces with hurl
  have hnil : pieces ≠ [] := by
    rintro rfl
    cases hpieces
    exact hpairs rfl
  -- no piece is cut, since an encoding has no `&`
  have hamp : ∀ piece ∈ pieces, 38 ∉ piece := by
    clear hurl hpairs hnil
    induction hpieces with
    | nil => nofun
    | cons hpair _ ih => exact List.forall_mem_cons.2 ⟨hpair.notMem, ih⟩
  -- so the pieces found behind the `?` are those that were written
  have hparameters : (setQueryParam (parsedRequest url headers content)).query_parameters =
      pieces.foldl addParam ⟨[], List.nodup_nil⟩ := by
    have hidx : url.idxOf 63 = path.length := idxOf_append_cons hpath
    have hdrop : url.drop (path.length + 1) = [38].intercalate pieces := by
      rw [hurl, ← List.drop_drop, List.drop_left' rfl]
      rfl
    have hmem : 63 ∈ (parsedRequest url headers content).url := by simp [parsedRequest, hurl]
    rw [setQueryParam, if_pos hmem]
    simp only [parsedRequest, hidx, hdrop, List.splitOn_intercalate 38 hamp hnil]
  refine ⟨setQueryParam (parsedRequest url headers content), fun n hn => ?_, fun name => ?_⟩
  · rw [setQueryParamRun_eq _ hn, queryPath]
    show some (url.takeWhile _, _) = _
    rw [hurl, takeWhile_ne_append_cons hpath]
  · rw [hparameters, get_foldl_addParam hpieces]
    simp [Fields.get]

/-- A name twice, with a space and escapes of either case. -/
theorem query_decodes_twice :
    ∃ req, (∀ n, 28 ≤ n → setQueryParamRun n
          (parsedRequest (bytes "/home/read?a+b=&a%20b=%3d%2B") ⟨[], List.nodup_nil⟩ []) =
            some (bytes "/home/read", req)) ∧
      req.query_parameters.get (bytes "a b") = some (bytes "=+") := by
  have ha : EncodesByte 97 [97] := .literal (by decide)
  have hb : EncodesByte 98 [98] := .literal (by decide)
  have hspace : EncodesByte 32 [37, 50, 48] :=
    .escape (x := 2) (y := 0) (by decide) (by decide) rfl
  have hequals : EncodesByte 61 [37, 51, 100] :=
    .escape (x := 3) (y := 13) (by decide) (by decide) rfl
  have hplus : EncodesByte 43 [37, 50, 66] :=
    .escape (x := 2) (y := 11) (by decide) (by decide) rfl
  -- the same name twice, written with a `+` and with an escape; the last value stays
  obtain ⟨req, hrun, hget⟩ := query_decodes (bytes "/home/read") [] ⟨[], List.nodup_nil⟩
    [(bytes "a b", []), (bytes "a b", bytes "=+")] [bytes "a+b=", bytes "a%20b=%3d%2B"]
    (by decide) (by simp)
    (.cons ⟨_, [], .cons ha (.cons .space (.cons hb .nil)), .nil, by decide⟩
      (.cons ⟨_, _, .cons ha (.cons hspace (.cons hb .nil)), .cons hequals (.cons hplus .nil),
        by decide⟩ .nil))
  exact ⟨req, fun n hn => hrun n (le_trans (by decide) hn), hget (bytes "a b")⟩

end Nanoservices
