import Nanoservices.Services.Network
import Nanoservices.Services.UniqueId

/-!
# The text of a post

The pure parts of the services that compose a post: `compose` of `post.js` cuts the
fields of a form out of the body of its request, `upload_text` of `text_service.js`
finds the mentions and the URLs of a text with two global regular expressions and puts a
short URL in place of each URL, and `url_shorten_service.js` draws the short ones.

`parseForm_body`: a form whose fields contain no `&` is read as it was written.
-/

namespace Nanoservices

open Utf16 Json

/-! ### The form -/

/-- The fields of the form that `compose` reads. -/
structure Form where
  username : Str
  userid : Str
  text : Str
  media_ids : Str
  media_types : Str
  post_type : Str

/-- The body of a request with these fields. -/
def Form.body (f : Form) : Str :=
  lit "username=" ++ f.username ++ 38 :: (lit "user_id=" ++ f.userid ++ 38 ::
    (lit "text=" ++ f.text ++ 38 :: (lit "media_ids=" ++ f.media_ids ++ 38 ::
      (lit "media_types=" ++ f.media_types ++ 38 :: (lit "post_type=" ++ f.post_type)))))

/-- No field contains `&`. -/
def Form.Plain (f : Form) : Prop :=
  ∀ s ∈ [f.username, f.userid, f.text, f.media_ids, f.media_types, f.post_type], 38 ∉ s

/-- `substring`, which takes its arguments in either order and stays inside the text. -/
def substring (s : Str) (start stop : ℕ) : Str := (s.take (max start stop)).drop (min start stop)

/-- What stands between `start` and the first `&`, and what follows it. Without one,
`match.index` throws. `start` is a constant of the source, the length of the label; an
`&` in front of it would give the part between the two. -/
def cutField (start : ℕ) (tmp : Str) : Option (Str × Str) :=
  let index := tmp.idxOf 38
  if index < tmp.length then some (substring tmp start index, tmp.drop (index + 1)) else none

/-- The fields of a body, as `compose` cuts them out. The constants are the lengths of
the labels, which are not compared; the last field is all that is left. -/
def parseForm (body : Str) : Option Form := do
  let (username, tmp) ← cutField 9 body
  let (userid, tmp) ← cutField 8 tmp
  let (text, tmp) ← cutField 5 tmp
  let (media_ids, tmp) ← cutField 10 tmp
  let (media_types, tmp) ← cutField 12 tmp
  some ⟨username, userid, text, media_ids, media_types, tmp.drop 10⟩

/-- A label, a value without `&` and the `&` behind it: the value is cut out. -/
theorem cutField_append {label s rest : Str} (hlabel : 38 ∉ label) (hs : 38 ∉ s) :
    cutField label.length (label ++ s ++ 38 :: rest) = some (s, rest) := by
  have hnot : 38 ∉ label ++ s := by
    simp [hlabel, hs]
  -- the first `&` is the one behind the value, since label and value have none
  have hindex : (label ++ s ++ 38 :: rest).idxOf 38 = (label ++ s).length := by
    rw [List.idxOf_append_of_notMem hnot, List.idxOf_cons_self, Nat.add_zero]
  rw [cutField, hindex, if_pos (by simp)]
  have hle : label.length ≤ (label ++ s).length := by simp
  have hfield : substring (label ++ s ++ 38 :: rest) label.length (label ++ s).length = s := by
    rw [substring, max_eq_right hle, min_eq_left hle, List.take_left, List.drop_left]
  have hrest : (label ++ s ++ 38 :: rest).drop ((label ++ s).length + 1) = rest := by
    rw [← List.drop_drop, List.drop_left]
    rfl
  rw [hfield, hrest]

/-- The last field may contain what it will. -/
theorem parseForm_body_of_notMem {f : Form} (husername : 38 ∉ f.username) (huserid : 38 ∉ f.userid)
    (htext : 38 ∉ f.text) (hids : 38 ∉ f.media_ids) (htypes : 38 ∉ f.media_types) :
    parseForm f.body = some f := by
  -- the five cuts are one lemma, with the length of the label as its number
  have hcut : ∀ (label : String) (s rest : Str) (n : ℕ), (lit label).length = n → 38 ∉ lit label →
      38 ∉ s → cutField n (lit label ++ s ++ 38 :: rest) = some (s, rest) := by
    rintro label s rest n rfl hlabel hs
    exact cutField_append hlabel hs
  rw [parseForm, Form.body, hcut _ _ _ 9 (by decide) (by decide) husername]
  simp only [Option.bind_eq_bind, Option.bind_some]
  rw [hcut _ _ _ 8 (by decide) (by decide) huserid, Option.bind_some,
    hcut _ _ _ 5 (by decide) (by decide) htext, Option.bind_some,
    hcut _ _ _ 10 (by decide) (by decide) hids, Option.bind_some,
    hcut _ _ _ 12 (by decide) (by decide) htypes, Option.bind_some]
  rfl

/-- **The form arrives as it was written.** -/
theorem parseForm_body {f : Form} (h : f.Plain) : parseForm f.body = some f := by
  simp only [Form.Plain, List.mem_cons, List.not_mem_nil, or_false, forall_eq_or_imp,
    forall_eq] at h
  obtain ⟨husername, huserid, htext, hids, htypes, -⟩ := h
  exact parseForm_body_of_notMem husername huserid htext hids htypes

/-! ### Mentions and URLs -/

/-- `[a-zA-Z0-9]`, the part that the two classes share. -/
def isAlphanumeric (c : UInt16) : Bool :=
  (97 ≤ c && c ≤ 122) || (65 ≤ c && c ≤ 90) || isDigit c

/-- `[a-zA-Z0-9-_]`. -/
def isNameUnit (c : UInt16) : Bool := isAlphanumeric c || (lit "-_").contains c

/-- `[a-zA-Z0-9_!~*'().&=+$%-]`. -/
def isUrlUnit (c : UInt16) : Bool := isAlphanumeric c || (lit "_!~*'().&=+$%-").contains c

/-- The length of the match at the front of a text for a literal followed by one or more
units of a class; 0 if there is none. The expressions are greedy, so it goes on to the
first unit that is not in the class. -/
def prefixLength (start : Str) (unit : UInt16 → Bool) (s : Str) : ℕ :=
  let more := ((s.drop start.length).takeWhile unit).length
  if start <+: s ∧ 0 < more then start.length + more else 0

/-- `/@[a-zA-Z0-9-_]+/`. -/
def mentionLength (s : Str) : ℕ := prefixLength (lit "@") isNameUnit s

/-- `/(http:\/\/|https:\/\/)([a-zA-Z0-9_!~*'().&=+$%-]+)/`. The class has no `/`, so a
URL ends in front of its path. -/
def urlLength (s : Str) : ℕ :=
  max (prefixLength (lit "http://") isUrlUnit s) (prefixLength (lit "https://") isUrlUnit s)

/-- The matches of an expression from the front of a text, in `fuel` positions at most.
After a match the search goes on behind it, after a failure at the next unit. -/
def matchFrom (length : Str → ℕ) : ℕ → Str → List Str
  | 0, _ => []
  | _ + 1, [] => []
  | fuel + 1, c :: cs =>
    match length (c :: cs) with
    | 0 => matchFrom length fuel cs
    | n + 1 => (c :: cs).take (n + 1) :: matchFrom length fuel (cs.drop n)

/-- `match` with a global expression. A position takes a code unit, so the text's length
is fuel enough, and no match is missed. -/
def matchAll (length : Str → ℕ) (s : Str) : List Str := matchFrom length s.length s

/-- What `match` returns: `null` rather than an empty array. -/
def matchValue (found : List Str) : Value := if found = [] then .null else listValue found

/-! ### Short URLs -/

/-- `replace` with a string, of its first occurrence. The other string contains no `$`,
which would stand for parts of the match. -/
def replaceFirst (old new : Str) : Str → Str
  | [] => if old = [] then new else []
  | c :: cs =>
    if old <+: c :: cs then new ++ (c :: cs).drop old.length else c :: replaceFirst old new cs

/-- `char_map`. Between its two lines the source has no `+`: the statement ends after
the first literal, so that the map has 32 characters, and the second literal stands
alone. -/
def charMap : Str := lit "abcdefghijklmnopqrstuvwxyzABCDEF"

/-- `gen_random_str`, with the positions that `Math.random` chooses. They are positions
of the map that there is, as the source multiplies by its length. -/
def genRandomStr (length : ℕ) (random : ℕ → Fin 32) : Str :=
  (List.range length).map fun i => charMap.getD (random i) 0

/-- The short URL for the `i`-th URL. -/
def shortUrl (random : ℕ → ℕ → Fin 32) (i : ℕ) : Str :=
  lit "http://short-url/" ++ genRandomStr 10 (random i)

/-- `updated_text`: for each URL in turn, its first occurrence in the text so far is
replaced. -/
def updatedText (val : Str) (urls shorturls : List Str) : Str :=
  (urls.zip shorturls).foldl (fun text url => replaceFirst url.1 url.2 text) val

/-- The text that is stored: each URL has made room for a short one, chosen by the
random numbers of its own. -/
def shortened (random : ℕ → ℕ → Fin 32) (text : Str) : Str :=
  let urls := matchAll urlLength text
  updatedText text urls ((List.range urls.length).map (shortUrl random))

example : matchAll mentionLength (lit "a @b-c, @@d @") = [lit "@b-c", lit "@d"] := by
  decide +kernel

example : shortened (fun _ _ => 1) (lit "see http://a.b/c") =
    lit "see http://short-url/bbbbbbbbbb/c" := by
  decide +kernel

end Nanoservices
