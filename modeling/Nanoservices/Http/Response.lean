import Nanoservices.Http.Date
import Nanoservices.Http.Query

/-!
# What a client is answered

`new_req` makes the reply when the request comes in, and writes it when the promise is
set: a status line, the fields, an empty line and the message, whose length is in
`Content-Length`. Whatever the message is, and in whatever order the fields come, a
client that goes by `Content-Length` reads back the responses that were written, and
nothing else (`responses_read`). So no message can pass for a response of its own.

What is used of Seastar is the parameter `Seastar`.
-/

namespace Nanoservices

open Framing

/-- The end of a line. -/
def crlf : Bytes := [13, 10]

/-- What is used of Seastar's replies and requests. -/
structure Seastar where
  /-- `status_strings::to_string`, without the end of the line. -/
  statusText : ℤ → Bytes
  /-- The order an `unordered_map` is iterated in. -/
  order : List (Bytes × Bytes) → List (Bytes × Bytes)
  /-- The value of a header. -/
  find : Fields → Bytes → Option Bytes

/-- What is assumed of them: a status has no line end in its text, and a map is iterated
in some order. -/
structure Seastar.Replies (F : Seastar) : Prop where
  statusText_line : ∀ status, 13 ∉ F.statusText status
  order_perm : ∀ entries, (F.order entries).Perm entries

/-! ### The reply -/

/-- The parts of an `httpd::reply` that `new_req` uses. The fields are those the source
sets. -/
structure Reply where
  version : Bytes
  status : ℤ
  headers : Fields
  content : Bytes

/-- No fields. -/
def Fields.empty : Fields := ⟨[], List.nodup_nil⟩

/-- The reply `new_req` makes when it accepts a request, at the time `t`: status 200,
and the fields that do not depend on the message. Of the request only the version and
the header `Connection` matter. -/
def newReply (F : Seastar) (version : Bytes) (headers : Fields) (t : ℕ) : Reply where
  version
  status := 200
  headers :=
    let conn_keep_alive := F.find headers (bytes "Connection") = some (bytes "Keep-Alive")
    let resp_headers := if version = bytes "1.0" ∧ conn_keep_alive
      then Fields.empty.set (bytes "Connection") (bytes "Keep-Alive") else Fields.empty
    (resp_headers.set (bytes "Server") (bytes "Seastar httpd")).set (bytes "Date") (httpDate t)
  content := []

/-- The reply when the promise has been set. An empty message does not change the
content. -/
def Reply.answer (r : Reply) (status : ℤ) (message : Bytes) : Reply :=
  let content := if message = [] then r.content else message
  { r with
    status
    content
    headers := r.headers.set (bytes "Content-Length") (formatNat content.length) }

/-- `response_line`, without the end of the line: the version of the request and the
text of the status. -/
def Reply.line (F : Seastar) (r : Reply) : Bytes :=
  bytes "HTTP/" ++ r.version ++ F.statusText r.status

/-- The line of a field. -/
def fieldLine (field : Bytes × Bytes) : Bytes := field.1 ++ bytes ": " ++ field.2

/-- What `new_req` writes: the line, the fields in the order of the map, an empty line
and the content. -/
def Reply.text (F : Seastar) (r : Reply) : Bytes :=
  r.line F ++ crlf ++ (F.order r.headers.entries).flatMap (fun h => fieldLine h ++ crlf) ++ crlf ++
    r.content

/-! ### The client -/

/-- A response as a client reads it: the status line, the fields in the order they came,
and the body. -/
structure Response where
  line : Bytes
  fields : List (Bytes × Bytes)
  body : Bytes
  deriving DecidableEq

/-- Reads a name and, behind `:` and blanks, its value. A line without `:` is none. -/
def readField (line : Bytes) : Option (Bytes × Bytes) :=
  (cutAt (bytes ":") line).map fun r => (r.1, r.2.dropWhile (· = 32))

/-- Reads a line, the fields up to an empty line, and as many bytes as `Content-Length`
says. It gives nothing while the bytes have not all come. -/
def readResponse : Reader UInt8 Response := fun s => do
  let (line, s) ← cutAt crlf s
  let (lines, s) ← readBlock crlf s.length s
  let fields ← lines.mapM readField
  let length ← readNat (← fields.lookup (bytes "Content-Length"))
  if length ≤ s.length then some (⟨line, fields, s.take length⟩, s.drop length) else none

/-- What a client should read. -/
def Reply.response (F : Seastar) (r : Reply) : Response :=
  ⟨r.line F, F.order r.headers.entries, r.content⟩

/-! ### Reading a reply -/

/-- A field that is read back: its parts have no end of a line, and the value does not
start with a blank. The name has no `:`, and is not empty, so that its line is none of
the empty ones. -/
structure Readable (field : Bytes × Bytes) : Prop where
  name_ne : field.1 ≠ []
  colon : 58 ∉ field.1
  name : 13 ∉ field.1
  value : 13 ∉ field.2
  blank : field.2.head? ≠ some 32

instance (field : Bytes × Bytes) : Decidable (Readable field) :=
  decidable_of_iff (field.1 ≠ [] ∧ 58 ∉ field.1 ∧ 13 ∉ field.1 ∧ 13 ∉ field.2 ∧
    field.2.head? ≠ some 32)
    ⟨fun ⟨h1, h2, h3, h4, h5⟩ => ⟨h1, h2, h3, h4, h5⟩, fun ⟨h1, h2, h3, h4, h5⟩ =>
      ⟨h1, h2, h3, h4, h5⟩⟩

variable {F : Seastar} {field : Bytes × Bytes} {f : Fields}

/-- A name and a value without those bytes. -/
theorem readable_of_name {name value : Bytes} (hname : name ≠ [] ∧ 58 ∉ name ∧ 13 ∉ name)
    (hvalue : 13 ∉ value) (hblank : value.head? ≠ some 32) : Readable (name, value) :=
  ⟨hname.1, hname.2.1, hname.2.2, hvalue, hblank⟩

/-- Such a field is read back from its line. -/
theorem Readable.readField_eq (h : Readable field) : readField (fieldLine field) = some field := by
  obtain ⟨name, value⟩ := field
  have hcut := cutAt_append h.colon [] (32 :: value)
  have hline : fieldLine (name, value) = name ++ (58 :: [] ++ 32 :: value) :=
    List.append_assoc name (bytes ": ") value
  -- the blank behind the colon is dropped, and the value has none of its own in front
  have hvalue : value.dropWhile (· = 32) = value := by
    cases value with
    | nil => rfl
    | cons c value =>
      have hc : c ≠ 32 := fun hc => h.blank (congrArg some hc)
      simp [hc]
  have hblank : (32 :: value).dropWhile (· = 32) = value := by
    rw [List.dropWhile_cons_of_pos (by simp), hvalue]
  rw [hline, readField, show bytes ":" = [58] from rfl, hcut]
  exact congrArg (fun v => some (name, v)) hblank

/-- Its line is not empty and has no end of a line in it. -/
theorem Readable.line (h : Readable field) : fieldLine field ≠ [] ∧ 13 ∉ fieldLine field := by
  have hsep : (13 : UInt8) ∉ bytes ": " := by decide
  constructor
  · intro hnil
    simp only [fieldLine, List.append_eq_nil_iff] at hnil
    exact h.name_ne hnil.1.1
  · simp only [fieldLine, List.mem_append, not_or]
    exact ⟨⟨h.name, hsep⟩, h.value⟩

/-- So are the fields of a whole head. -/
theorem mapM_readField {fields : List (Bytes × Bytes)} (h : ∀ field ∈ fields, Readable field) :
    (fields.map fieldLine).mapM readField = some fields := by
  induction fields with
  | nil => rfl
  | cons field fields ih =>
    have hrest := ih fun e he => h e (List.mem_cons_of_mem _ he)
    have hfield := (h field List.mem_cons_self).readField_eq
    rw [List.map_cons, List.mapM_cons, hfield, hrest]
    rfl

/-- The fields of a map in any order have the same values. -/
theorem lookup_of_perm {entries : List (Bytes × Bytes)} (hperm : entries.Perm f.entries)
    {name value : Bytes} (h : f.get name = some value) : entries.lookup name = some value := by
  have hnodup : (entries.map Prod.fst).Nodup := (hperm.map Prod.fst).nodup_iff.2 f.nodup
  obtain ⟨l, l', hentries, -⟩ := List.lookup_eq_some_iff.1 h
  have hmem : (name, value) ∈ entries := by
    rw [hperm.mem_iff, hentries]
    simp
  -- there is one field of the name, so the order does not matter
  cases hlookup : entries.lookup name with
  | none =>
    have hne := List.lookup_eq_none_iff.1 hlookup _ hmem
    simp at hne
  | some value' =>
    obtain ⟨m, m', rfl, -⟩ := List.lookup_eq_some_iff.1 hlookup
    have hmem' : (name, value') ∈ m ++ (name, value') :: m' := by simp
    rw [(Prod.mk.inj (List.inj_on_of_nodup_map hnodup hmem hmem' rfl)).2]

/-- A field that has been set is the new one or was there before. -/
theorem mem_set {name value : Bytes} (h : field ∈ (f.set name value).entries) :
    field = (name, value) ∨ field ∈ f.entries := by
  unfold Fields.set at h
  split at h
  · obtain ⟨e, he, rfl⟩ := List.mem_map.1 h
    by_cases hname : e.1 = name
    · exact .inl (if_pos hname)
    · exact .inr (by rwa [if_neg hname])
  · rcases List.mem_append.1 h with h | h
    · exact .inr h
    · exact .inl (List.mem_singleton.1 h)

/-- Setting a readable field keeps all of them readable. -/
theorem readable_set {name value : Bytes} (h : Readable (name, value))
    (hf : ∀ field ∈ f.entries, Readable field) : ∀ field ∈ (f.set name value).entries,
      Readable field := by
  intro field hfield
  rcases mem_set hfield with rfl | hfield
  · exact h
  · exact hf field hfield

/-! ### Reading the responses -/

/-- The fields of a reply are readable, and say how long the message is. This is what
makes its text readable from the front, whatever follows. -/
structure Reply.WellFormed (r : Reply) : Prop where
  version : 13 ∉ r.version
  fields : ∀ field ∈ r.headers.entries, Readable field
  length : r.headers.get (bytes "Content-Length") = some (formatNat r.content.length)

/-- Whatever follows, a response is read as it was written. The line ends at the first
line end, the fields at the first empty line, in whatever order they come, and the
content where `Content-Length` says. -/
theorem Reply.WellFormed.reads (hF : F.Replies) {r : Reply} (h : r.WellFormed) :
    Reads readResponse (r.text F) (r.response F) := by
  intro t
  have hperm := hF.order_perm r.headers.entries
  have hfields : ∀ field ∈ F.order r.headers.entries, Readable field := fun field hfield =>
    h.fields field (hperm.mem_iff.1 hfield)
  have hline : 13 ∉ r.line F := by
    simp only [Reply.line, List.mem_append, not_or]
    exact ⟨⟨by decide, h.version⟩, hF.statusText_line _⟩
  have hlines : ∀ l ∈ (F.order r.headers.entries).map fieldLine, l ≠ [] ∧ 13 ∉ l := by
    intro l hl
    obtain ⟨field, hfield, rfl⟩ := List.mem_map.1 hl
    exact (hfields field hfield).line
  have hblock := readBlock_length hlines [10] (r.content ++ t)
  -- the parts in the order in which the client reads them
  have htext : r.text F ++ t = r.line F ++ (crlf ++ (((F.order r.headers.entries).map
      fieldLine).flatMap (· ++ crlf) ++ (crlf ++ (r.content ++ t)))) := by
    simp only [Reply.text, List.flatMap_map, List.append_assoc]
  rw [htext]
  refine Option.bind_eq_some_iff.2 ⟨_, cutAt_append hline [10] _, ?_⟩
  refine Option.bind_eq_some_iff.2 ⟨_, hblock, ?_⟩
  refine Option.bind_eq_some_iff.2 ⟨_, mapM_readField hfields, ?_⟩
  refine Option.bind_eq_some_iff.2 ⟨_, lookup_of_perm hperm h.length, ?_⟩
  refine Option.bind_eq_some_iff.2 ⟨_, readNat_formatNat _, ?_⟩
  have hle : r.content.length ≤ (r.content ++ t).length := by
    rw [List.length_append]
    exact Nat.le_add_right _ _
  rw [if_pos hle, List.take_left, List.drop_left]
  rfl

/-- The replies of `new_req` are such: names and values are constants, a date and a
number. -/
theorem wellFormed_answer {version : Bytes} (hversion : 13 ∉ version) (headers : Fields) (t : ℕ)
    (status : ℤ) (message : Bytes) :
    ((newReply F version headers t).answer status message).WellFormed where
  version := hversion
  fields := by
    -- length, date, server and, for a keep-alive, the connection
    refine readable_set (readable_of_name (by decide) (notMem_formatNat (by decide) _) ?_) ?_
    · exact fun hhead => notMem_formatNat (by decide) _ (List.mem_of_mem_head? hhead)
    refine readable_set (readable_of_name (by decide) (notMem_httpDate (by decide) t)
      (head?_httpDate t)) ?_
    refine readable_set (by decide) ?_
    split
    · exact readable_set (by decide) nofun
    · nofun
  length := by
    rw [Reply.answer, Fields.get_set, if_pos rfl]

/-- What a client is answered with is the message. An empty message leaves the content
as it was, which is empty too. -/
@[simp] theorem content_answer (version : Bytes) (headers : Fields) (t : ℕ) (status : ℤ)
    (message : Bytes) :
    ((newReply F version headers t).answer status message).content = message := by
  unfold Reply.answer
  by_cases hempty : message = []
  · rw [hempty]
    rfl
  · exact if_neg hempty

/-- A request that is answered: its version and headers, the time it came in at, and
what the promise was set to. -/
structure Exchange where
  version : Bytes
  headers : Fields
  time : ℕ
  status : ℤ
  message : Bytes

/-- The reply to it. -/
def Exchange.reply (F : Seastar) (e : Exchange) : Reply :=
  (newReply F e.version e.headers e.time).answer e.status e.message

/-- There is no response without a line. -/
theorem readResponse_nil : readResponse [] = none := rfl

/-- The parts of a response: what each of the reading steps has given. -/
theorem readResponse_eq_some {s t : Bytes} {r : Response} (h : readResponse s = some (r, t)) :
    ∃ line s₁ lines s₂ fields value length, cutAt crlf s = some (line, s₁) ∧
      readBlock crlf s₁.length s₁ = some (lines, s₂) ∧ lines.mapM readField = some fields ∧
      fields.lookup (bytes "Content-Length") = some value ∧ readNat value = some length ∧
      length ≤ s₂.length ∧ r = ⟨line, fields, s₂.take length⟩ ∧ t = s₂.drop length := by
  obtain ⟨⟨line, s₁⟩, hline, h⟩ := Option.bind_eq_some_iff.1 h
  obtain ⟨⟨lines, s₂⟩, hblock, h⟩ := Option.bind_eq_some_iff.1 h
  obtain ⟨fields, hfields, h⟩ := Option.bind_eq_some_iff.1 h
  obtain ⟨value, hvalue, h⟩ := Option.bind_eq_some_iff.1 h
  obtain ⟨length, hlength, h⟩ := Option.bind_eq_some_iff.1 h
  -- the body is as long as the header says, or has not come yet
  split at h
  · next hle =>
    obtain ⟨rfl, rfl⟩ := Prod.mk.inj (Option.some.inj h)
    exact ⟨_, _, _, _, _, _, _, hline, hblock, hfields, hvalue, hlength, hle, rfl, rfl⟩
  · cases h

/-- A response that has come whole does not change when more bytes come, and takes bytes
away. -/
theorem streaming_readResponse : Streaming readResponse where
  shortens s r t h := by
    obtain ⟨line, s₁, lines, s₂, fields, value, length, hline, hblock, -, -, -, -, -, rfl⟩ :=
      readResponse_eq_some h
    have hlen := length_of_cutAt hline
    have hlen' := length_of_readBlock hblock
    have hcrlf : crlf.length = 2 := rfl
    rw [List.length_drop]
    omega
  -- each of the reading steps gives the same with more bytes behind
  append s r t h u := by
    obtain ⟨line, s₁, lines, s₂, fields, value, length, hline, hblock, hfields, hvalue, hlength,
      hle, rfl, rfl⟩ := readResponse_eq_some h
    have hcrlf : crlf ≠ [] := List.cons_ne_nil _ _
    have hlonger : s₁.length ≤ (s₁ ++ u).length := by
      rw [List.length_append]
      exact Nat.le_add_right _ _
    refine Option.bind_eq_some_iff.2 ⟨_, (streaming_cutAt hcrlf).append _ _ _ hline u, ?_⟩
    refine Option.bind_eq_some_iff.2 ⟨_, readBlock_extend hcrlf hlonger hblock u, ?_⟩
    refine Option.bind_eq_some_iff.2 ⟨_, hfields, ?_⟩
    refine Option.bind_eq_some_iff.2 ⟨_, hvalue, ?_⟩
    refine Option.bind_eq_some_iff.2 ⟨_, hlength, ?_⟩
    have hle' : length ≤ (s₂ ++ u).length := by
      rw [List.length_append]
      omega
    rw [if_pos hle', List.take_append_of_le_length hle, List.drop_append_of_le_length hle]

/-- **A client reads what was answered**, each response with its own message and no
other, whatever the messages are. As long as it has only a part of the bytes it reads
the first of the responses.

So a message cannot end its response early or begin another one, and a client that waits
for the rest of a response is never misled by a part of it. -/
theorem responses_read (hF : F.Replies) (es : List Exchange) (hes : ∀ e ∈ es, 13 ∉ e.version) :
    readAll readResponse (es.flatMap fun e => (e.reply F).text F) =
        (es.map fun e => (e.reply F).response F, []) ∧
      (∀ e ∈ es, ((e.reply F).response F).body = e.message) ∧
      ∀ part, part <+: (es.flatMap fun e => (e.reply F).text F) →
        (readAll readResponse part).1 <+: es.map fun e => (e.reply F).response F := by
  -- each reply is read back alone, and the reader is streaming, so a list of them is
  have hreads : ∀ c ∈ es.map fun e => ((e.reply F).text F, (e.reply F).response F),
      Reads readResponse c.1 c.2 := by
    intro c hc
    obtain ⟨e, he, rfl⟩ := List.mem_map.1 hc
    exact (wellFormed_answer (hes e he) _ _ _ _).reads hF
  have hframes := (Frames.of_reads hreads []).readAll streaming_readResponse.shortens
  rw [readAll_of_none readResponse_nil, List.append_nil, List.append_nil, List.flatMap_map,
    List.map_map] at hframes
  refine ⟨hframes, fun e _ => content_answer e.version e.headers e.time e.status e.message, ?_⟩
  rintro part ⟨rest, hrest⟩
  have hfirst := readAll_part streaming_readResponse part rest
  rw [hrest, hframes] at hfirst
  exact hfirst

section Nested

/-- Two statuses, and maps that are iterated from their last entry. -/
def plainSeastar : Seastar where
  statusText status := if status = 200 then bytes " 200 OK" else bytes " 500 Internal Server Error"
  order := List.reverse
  find f name := f.get name

/-- They are as assumed. -/
theorem plainSeastar_replies : plainSeastar.Replies where
  statusText_line status := by
    simp only [plainSeastar]
    split <;> decide
  order_perm entries := List.reverse_perm entries

/-- A message that looks like the end of a response and the beginning of another. -/
def nestedMessage : Bytes :=
  bytes "ok" ++ crlf ++ bytes "HTTP/1.1 200 OK" ++ crlf ++ bytes "Content-Length: 0" ++ crlf ++ crlf

/-- A request that is answered with it, and one that is answered with nothing. -/
def nestedExchanges : List Exchange :=
  [⟨bytes "1.1", .empty, 784111777, 200, nestedMessage⟩,
    ⟨bytes "1.0", Fields.empty.set (bytes "Connection") (bytes "Keep-Alive"), 784111778, 404, []⟩]

/-- It is one message, and the second response is the second one. -/
theorem responses_read_nested :
    (readAll readResponse (nestedExchanges.flatMap fun e =>
      (e.reply plainSeastar).text plainSeastar)).1.map Response.body = [nestedMessage, []] := by
  obtain ⟨hread, hbody, -⟩ :=
    responses_read plainSeastar_replies nestedExchanges (by decide)
  rw [hread, List.map_map]
  exact List.map_congr_left hbody

end Nested

end Nanoservices
