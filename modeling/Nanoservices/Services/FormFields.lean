import Nanoservices.Library.JsonStrings
import Nanoservices.Services.PostText

/-!
# What `compose` recovers of a form

The client writes the six fields as they are, `&` between them, and the lists of media
as strings in quotation marks. `compose` cuts at the first `&` it finds. So the values
come back exactly when none but the last has an `&` and the strings of the lists are
written like that in JSON (`form_recovered_iff`). A URL may have an `&`, and so may the
text.
-/

namespace Nanoservices

open Utf16 Json

/-- The values of a request: what the client wants to say, before it is written as a
form. -/
structure FormValues where
  username : Str
  user_id : Str
  text : Str
  media_ids : List Str
  media_types : List Str
  post_type : Str

/-- The fields that `compose-post.lua` writes. The lists become arrays of strings in
quotation marks, without any escapes; the other values are put in as they are. -/
def FormValues.form (p : FormValues) : Form where
  username := p.username
  userid := p.user_id
  text := p.text
  media_ids := plainArray p.media_ids
  media_types := plainArray p.media_types
  post_type := p.post_type

/-- The values `compose` reads: its fields, those of the media by `JSON.parse`. A
missing `&` or a list that is not JSON makes it throw. -/
def readForm (body : Str) : Option (Str × Str × Str × Value × Value × Str) := do
  let form ← parseForm body
  let media_ids ← parse form.media_ids
  let media_types ← parse form.media_types
  some (form.username, form.userid, form.text, media_ids, media_types, form.post_type)

/-- The values come back: all six, the lists as arrays of the strings that were in
them. -/
def FormValues.Recovered (p : FormValues) : Prop :=
  readForm p.form.body = some (p.username, p.user_id, p.text, .arr (p.media_ids.map .str),
    .arr (p.media_types.map .str), p.post_type)

/-- Strings that are the same in quotation marks, and no `&` in them. The list is not
empty: of an empty one the bracket would be taken for the last comma, and `]` alone is
not JSON. -/
def ListPlain (ss : List Str) : Prop :=
  ss ≠ [] ∧ ∀ s ∈ ss, 38 ∉ s ∧ ∀ c ∈ s, isPlain c = true

/-- No value but the last has an `&`, and the lists are not empty and need no escapes.
The last field, `post_type`, is the rest of the body and may have any. -/
def FormValues.Plain (p : FormValues) : Prop :=
  38 ∉ p.username ∧ 38 ∉ p.user_id ∧ 38 ∉ p.text ∧ ListPlain p.media_ids ∧
    ListPlain p.media_types

instance (ss : List Str) : Decidable (ListPlain ss) := inferInstanceAs (Decidable (_ ∧ _))

instance (p : FormValues) : Decidable p.Plain := inferInstanceAs (Decidable (_ ∧ _))

/-! ### Cutting a field -/

/-- A field ends at its first `&`, be it one of the value or the one that the client
wrote behind it. The label has none. -/
theorem cutField_fst {label s rest field tmp : Str} (hlabel : 38 ∉ label)
    (h : cutField label.length (label ++ s ++ 38 :: rest) = some (field, tmp)) :
    field = s.takeWhile (· ≠ 38) := by
  -- the first `&` of the whole is the first one behind the label
  have hindex : (label ++ s ++ 38 :: rest).idxOf 38 = label.length + s.idxOf 38 := by
    rw [List.append_assoc, List.idxOf_append_of_notMem hlabel]
    congr 1
    by_cases hs : 38 ∈ s
    · exact List.idxOf_append_of_mem hs
    · rw [List.idxOf_append_of_notMem hs, List.idxOf_cons_self, List.idxOf_of_notMem hs]
      rfl
  rw [cutField] at h
  split at h
  · obtain ⟨rfl, -⟩ := Prod.mk.inj (Option.some.inj h)
    rw [hindex, substring, max_eq_right (by omega), min_eq_left (by omega), List.append_assoc,
      List.take_length_add_append, List.drop_left,
      List.take_append_of_le_length List.idxOf_le_length, List.takeWhile_eq_take_findIdx_not,
      List.idxOf]
    congr 2
    funext c
    by_cases hc : c = 38 <;> simp [hc]
  · cases h

/-- A value that is not cut has no `&`. -/
theorem notMem_of_takeWhile_eq {s : Str} (h : s.takeWhile (· ≠ 38) = s) : 38 ∉ s := by
  intro hmem
  rw [← h] at hmem
  simpa using List.mem_takeWhile_imp hmem

/-- A field that is read as it was written has no `&`, and the next one begins behind
it. This is what lets the cuts be followed one by one. -/
theorem cutField_self {label : String} {s rest tmp : Str} {n : ℕ} (hn : (lit label).length = n)
    (hlabel : 38 ∉ lit label)
    (h : cutField n (lit label ++ s ++ 38 :: rest) = some (s, tmp)) : 38 ∉ s ∧ tmp = rest := by
  subst hn
  have hs : 38 ∉ s := notMem_of_takeWhile_eq (cutField_fst hlabel h).symm
  refine ⟨hs, ?_⟩
  rw [cutField_append hlabel hs] at h
  exact (Prod.mk.inj (Option.some.inj h)).2.symm

/-! ### Lists -/

/-- A part of an array in front of an `&` is read as the array only if it is all of it:
JSON text that was cut ends inside a string, which is not accepted. -/
theorem listPlain_of_parse {ss : List Str}
    (h : parse ((plainArray ss).takeWhile (· ≠ 38)) = some (.arr (ss.map .str))) :
    ListPlain ss ∧ (plainArray ss).takeWhile (· ≠ 38) = plainArray ss := by
  have hne : ss ≠ [] := by
    rintro rfl
    have hnone : parse ((plainArray []).takeWhile (· ≠ 38)) = none := by decide
    rw [hnone] at h
    cases h
  have hprefix := List.takeWhile_prefix (l := plainArray ss) fun c => c ≠ 38
  -- as many letters as the strings alone need can only be the whole list
  have hall := hprefix.eq_of_length_le
    ((length_plainArray ss).le.trans (parse_strings h hne).1)
  have hamp := notMem_of_takeWhile_eq hall
  rw [hall] at h
  obtain ⟨-, hplain⟩ := (parse_plainArray_iff ss).1 h
  refine ⟨⟨hne, fun s hs => ⟨fun hmem => hamp ?_, hplain s hs⟩⟩, hall⟩
  exact (mem_plainArray_iff (by decide) ss).2 ⟨s, hs, hmem⟩

/-- A plain list is written without `&`. -/
theorem ListPlain.notMem {ss : List Str} (h : ListPlain ss) : 38 ∉ plainArray ss := by
  rw [mem_plainArray_iff (by decide)]
  rintro ⟨s, hs, hmem⟩
  exact (h.2 s hs).1 hmem

/-- A plain list is read back. -/
theorem ListPlain.parse_eq {ss : List Str} (h : ListPlain ss) :
    parse (plainArray ss) = some (.arr (ss.map .str)) :=
  (parse_plainArray_iff ss).2 ⟨h.1, fun s hs => (h.2 s hs).2⟩

/-! ### The form -/

/-- Plain values are read as they were written: no cut falls inside a field, and the
lists are JSON. -/
theorem FormValues.Plain.recovered {p : FormValues} (h : p.Plain) : p.Recovered := by
  obtain ⟨husername, huserid, htext, hids, htypes⟩ := h
  have hform : parseForm p.form.body = some p.form :=
    parseForm_body_of_notMem husername huserid htext hids.notMem htypes.notMem
  rw [FormValues.Recovered, readForm, hform]
  simp only [Option.bind_eq_bind, Option.bind_some]
  show (parse (plainArray p.media_ids)).bind _ = _
  rw [hids.parse_eq, Option.bind_some]
  show (parse (plainArray p.media_types)).bind _ = _
  rw [htypes.parse_eq]
  rfl

/-- The cuts of `compose`, one after the other, each in what the one before has left. -/
theorem exists_cuts {body : Str} {form : Form} (h : parseForm body = some form) :
    ∃ tmp₁ tmp₂ tmp₃ tmp₄ tmp₅, cutField 9 body = some (form.username, tmp₁) ∧
      cutField 8 tmp₁ = some (form.userid, tmp₂) ∧ cutField 5 tmp₂ = some (form.text, tmp₃) ∧
      cutField 10 tmp₃ = some (form.media_ids, tmp₄) ∧
      cutField 12 tmp₄ = some (form.media_types, tmp₅) := by
  -- each cut leaves the rest of the body to the next one
  rw [parseForm] at h
  obtain ⟨⟨username, tmp₁⟩, hcut₁, h⟩ := Option.bind_eq_some_iff.1 h
  obtain ⟨⟨userid, tmp₂⟩, hcut₂, h⟩ := Option.bind_eq_some_iff.1 h
  obtain ⟨⟨text, tmp₃⟩, hcut₃, h⟩ := Option.bind_eq_some_iff.1 h
  obtain ⟨⟨media_ids, tmp₄⟩, hcut₄, h⟩ := Option.bind_eq_some_iff.1 h
  obtain ⟨⟨media_types, tmp₅⟩, hcut₅, h⟩ := Option.bind_eq_some_iff.1 h
  obtain rfl := Option.some.inj h
  exact ⟨tmp₁, tmp₂, tmp₃, tmp₄, tmp₅, hcut₁, hcut₂, hcut₃, hcut₄, hcut₅⟩

/-- Values that come back are plain: each cut shows it for its field and where the next
one is. The three texts in front are compared with what was cut out, the lists with what
`JSON.parse` made of it. -/
theorem FormValues.Recovered.plain {p : FormValues} (h : p.Recovered) : p.Plain := by
  rw [FormValues.Recovered, readForm] at h
  obtain ⟨form, hform, h⟩ := Option.bind_eq_some_iff.1 h
  obtain ⟨ids, hids, h⟩ := Option.bind_eq_some_iff.1 h
  obtain ⟨types, htypes, h⟩ := Option.bind_eq_some_iff.1 h
  simp only [Option.some.injEq, Prod.mk.injEq] at h
  obtain ⟨husername, huserid, htext, rfl, rfl, -⟩ := h
  obtain ⟨tmp₁, tmp₂, tmp₃, tmp₄, tmp₅, hcut₁, hcut₂, hcut₃, hcut₄, hcut₅⟩ := exists_cuts hform
  -- the first cut is in the body itself, and each next one in what `cutField_self`
  -- shows is left
  rw [Form.body, FormValues.form] at hcut₁
  dsimp only at hcut₁
  rw [husername] at hcut₁
  rw [huserid] at hcut₂
  rw [htext] at hcut₃
  obtain ⟨hamp₁, rfl⟩ := cutField_self rfl (by decide) hcut₁
  obtain ⟨hamp₂, rfl⟩ := cutField_self rfl (by decide) hcut₂
  obtain ⟨hamp₃, rfl⟩ := cutField_self rfl (by decide) hcut₃
  -- the text of a list is known only up to its first `&`, but as it is JSON, that is
  -- all of it
  have hfield := cutField_fst (by decide : 38 ∉ lit "media_ids=") hcut₄
  rw [hfield] at hids hcut₄
  obtain ⟨hplain, hall⟩ := listPlain_of_parse hids
  rw [hall] at hcut₄
  obtain ⟨-, rfl⟩ := cutField_self rfl (by decide : 38 ∉ lit "media_ids=") hcut₄
  have hfield' := cutField_fst (by decide : 38 ∉ lit "media_types=") hcut₅
  rw [hfield'] at htypes
  exact ⟨hamp₁, hamp₂, hamp₃, hplain, (listPlain_of_parse htypes).1⟩

/-- **The values come back** exactly when they are plain. There is no hypothesis on the
values: any strings can be asked for, and the condition decides which survive.

A field is cut at the first `&` behind its label, so that a value with one comes back
short. A list comes back when `JSON.parse` reads the same strings in what the client
wrote, which escapes nothing. -/
theorem form_recovered_iff (p : FormValues) : p.Recovered ↔ p.Plain :=
  ⟨FormValues.Recovered.plain, FormValues.Plain.recovered⟩

/-- A text that is one URL for the expression of `upload_text`, with an `&` in it:
`compose` has cut it in two before. -/
theorem form_cut_short :
    let p : FormValues := ⟨lit "ann", lit "1", lit "http://a&b", [lit "7"], [lit "png"], lit "0"⟩
    matchAll urlLength p.text = [p.text] ∧ ¬p.Recovered := by
  refine ⟨by decide +kernel, fun h => ?_⟩
  exact absurd h.plain (by decide)

end Nanoservices
