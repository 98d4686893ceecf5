import Mathlib.Data.Fintype.Basic
import Mathlib.Data.Fintype.Card
import Nanoservices.Db.Cell
import Nanoservices.Services.Buffer

/-!
# The compose join

A post is composed by six calls to `compose_post_service.js`, each of which stores the
part it brings and then increments a counter in the store with the optimistic retry loop
of `check_upload_post`. The call that finds the counter at 5 does not write it: it
enters `upload_post` and reads the parts back.

The system runs the six calls of any number of requests, one `DBGet` or `DBSet` at a time.
Other databases may change in between; this service alone writes its own.

The counter of a request is the cell of `Optimistic.loops`: its agents are the six
calls, an agent computes the next count, and it fails, in the terms of that library, where
the source enters `upload_post`. `CountSim` is the simulation and `Parts` the
invariant of the parts; the two meet in the observation that the call that reads 5 is
the only one of the six that has not returned.
-/

namespace Nanoservices

open Utf16 Lts Versioned

/-! ### Calls and keys -/

/-- The six calls that compose a post. All of them go through `check_upload_post` when
they have stored what they bring. -/
inductive Upload
  | text
  | media
  | urls
  | userMentions
  | creator
  | uniqueId
  deriving DecidableEq

instance : Fintype Upload where
  elems := {.text, .media, .urls, .userMentions, .creator, .uniqueId}
  complete u := by cases u <;> decide

/-- The seven values of a post that the calls store. -/
inductive Part
  | text
  | postId
  | postType
  | creator
  | mentions
  | media
  | urls
  deriving DecidableEq

instance : Fintype Part where
  elems := {.text, .postId, .postType, .creator, .mentions, .media, .urls}
  complete part := by cases part <;> decide

/-- What follows the request id in the key of a part. -/
def Part.suffix : Part → Str
  | .text => lit "text"
  | .postId => lit "post_id"
  | .postType => lit "post_type"
  | .creator => lit "creator"
  | .mentions => lit "mentions"
  | .media => lit "media"
  | .urls => lit "urls"

/-- The parts a call stores, in order. -/
def Upload.parts : Upload → List Part
  | .text => [.text]
  | .media => [.media]
  | .urls => [.urls]
  | .userMentions => [.mentions]
  | .creator => [.creator]
  | .uniqueId => [.postId, .postType]

/-- The parts `upload_post` reads, in order. -/
def readOrder : List Part :=
  [.text, .postId, .postType, .creator, .mentions, .media, .urls]

/-- The key of a part, and with `none` that of the counter. -/
def keySuffix (part : Option Part) : Str := part.elim (lit "count") Part.suffix

/-- The database of the service. -/
def composeDb : String := "compose_post_service.js"

/-- A JavaScript string, which is not longer than V8 allows. -/
abbrev JsString := { s : Str // s.length ≤ kMaxLength }

/-- Its block is not too long for the 32-bit length. -/
theorem JsString.fits (s : JsString) : (str2ab s.1).length + 4 < 2 ^ 32 := by
  have hle := s.2
  rw [length_str2ab]
  unfold kMaxLength at hle
  omega

/-! ### The service -/

/-- What `check_upload_post` does with the counter it read: write the next count, or enter
`upload_post`. -/
inductive CountStep
  | write (content : List UInt8) (version : UInt32)
  | uploadPost

/-- `check_upload_post` between its `DBGet` and its `DBSet`. An absent counter is read
as an empty block, and the first call writes 1 with the version 0; from then on the
version is the one read. The comparison comes before the `DBSet`: the call that finds 5
writes nothing. -/
def checkUploadPost (count : List UInt8) : Option CountStep :=
  if count.length = 0 then some (.write (str2ab (decimal 1)) 0)
  else do
    let version ← abversion count
    let text ← ab2str count
    let n ← toNumber text
    if n + 1 = 6 then some .uploadPost else some (.write (str2ab (decimal (n + 1))) version)

/-- Where a call stands: it stores its parts in order, then reads and writes the counter
until it is accepted, and then replies, unless it has found the counter at 5 and enters
`upload_post`. -/
inductive CallPhase
  /-- It has these parts still to store, and then reads the counter. -/
  | storing (rest : List Part)
  | incrementing (content : List UInt8) (version : UInt32)
  /-- It is in `upload_post`, and has read these values. -/
  | uploading (values : List Str)
  /-- It has replied "ok". -/
  | replied
  /-- An exception ended it. -/
  | failed
  deriving DecidableEq

variable {Request : Type} [DecidableEq Request]

/-- The databases, and where the calls of all requests stand. -/
structure ComposeWorld (Request : Type) where
  dbs : DbMap
  phase : Request × Upload → CallPhase

/-- A step of a call: a part stored, the counter read (and whether `upload_post` is
entered), the counter written, a part read by `upload_post`; or a `DBSet` of another
service. -/
inductive ComposeLabel (Request : Type)
  | put (c : Request × Upload) (part : Part) (rand : UInt32) (ok : Bool)
  | getCount (c : Request × Upload) (enters : Bool)
  | setCount (c : Request × Upload) (rand : UInt32) (ok : Bool)
  | getPart (c : Request × Upload) (part : Part)
  | other (name : String) (key : UInt32) (content : List UInt8) (version rand : UInt32) (ok : Bool)

/-- The requests being composed: their ids, and the values their calls bring. -/
structure Composes (Request : Type) where
  platform : Platform
  reqId : Request → Str
  value : Request → Part → JsString

/-- The string key of a part or counter. -/
def Composes.keyString (q : Composes Request) (r : Request) (part : Option Part) : Str :=
  q.reqId r ++ keySuffix part

/-- Its 32-bit key. -/
def Composes.key (q : Composes Request) (r : Request) (part : Option Part) : UInt32 :=
  keyOf q.platform (q.keyString r part)

/-- The phase after the counter has been read. -/
def CallPhase.ofCount : Option CountStep → CallPhase
  | some (.write content version) => .incrementing content version
  | some .uploadPost => .uploading []
  | none => .failed

/-- The call has entered `upload_post`. -/
def CallPhase.enters : CallPhase → Bool
  | .uploading _ => true
  | _ => false

/-- The calls' steps, from the databases `dbs₀`. A step is one access to the store, as
all accesses of a call are made by native functions that do not wait, with JavaScript of
that call in between; which call is next is open. A `DBSet` that is refused sends the
call back to reading the counter, and the parts, which are written with the version 0 to
keys of their own, are not written again. -/
def composing (q : Composes Request) (dbs₀ : DbMap) :
    System (ComposeWorld Request) (ComposeLabel Request) where
  init w := w = ⟨dbs₀, fun c => .storing c.2.parts⟩
  step w
    | .put c part rand ok, w' => ∃ rest dbs, w.phase c = .storing (part :: rest) ∧
        dbSet w.dbs composeDb (q.key c.1 part) (str2ab (q.value c.1 part).1) 0 rand =
          some (ok, dbs) ∧
        w' = ⟨dbs, Function.update w.phase c (.storing rest)⟩
    | .getCount c enters, w' => ∃ buf, w.phase c = .storing [] ∧
        dbGet w.dbs composeDb (q.key c.1 none) = some buf ∧
        enters = (CallPhase.ofCount (checkUploadPost buf)).enters ∧
        w' = ⟨w.dbs, Function.update w.phase c (.ofCount (checkUploadPost buf))⟩
    | .setCount c rand ok, w' => ∃ content version dbs,
        w.phase c = .incrementing content version ∧
        dbSet w.dbs composeDb (q.key c.1 none) content version rand = some (ok, dbs) ∧
        w' = ⟨dbs, Function.update w.phase c (if ok then .replied else .storing [])⟩
    | .getPart c part, w' => ∃ values buf, w.phase c = .uploading values ∧
        readOrder[values.length]? = some part ∧
        dbGet w.dbs composeDb (q.key c.1 part) = some buf ∧
        w' = ⟨w.dbs, Function.update w.phase c
          ((ab2str buf).elim .failed fun s => .uploading (values ++ [s]))⟩
    | .other name key content version rand ok, w' => ∃ dbs, name ≠ composeDb ∧
        dbSet w.dbs name key content version rand = some (ok, dbs) ∧ w' = ⟨dbs, w.phase⟩

/-- The step a label stands for, computed. -/
def ComposeWorld.exec (q : Composes Request) (w : ComposeWorld Request) :
    ComposeLabel Request → Option (ComposeWorld Request)
  | .put c part rand ok =>
    match w.phase c with
    | .storing (part' :: rest) => do
      let (ok', dbs) ← dbSet w.dbs composeDb (q.key c.1 part) (str2ab (q.value c.1 part).1) 0 rand
      if part' = part ∧ ok' = ok then some ⟨dbs, Function.update w.phase c (.storing rest)⟩
      else none
    | _ => none
  | .getCount c enters =>
    match w.phase c with
    | .storing [] => do
      let buf ← dbGet w.dbs composeDb (q.key c.1 none)
      let next := CallPhase.ofCount (checkUploadPost buf)
      if enters = next.enters then some ⟨w.dbs, Function.update w.phase c next⟩ else none
    | _ => none
  | .setCount c rand ok =>
    match w.phase c with
    | .incrementing content version => do
      let (ok', dbs) ← dbSet w.dbs composeDb (q.key c.1 none) content version rand
      if ok' = ok then
        some ⟨dbs, Function.update w.phase c (if ok then .replied else .storing [])⟩
      else none
    | _ => none
  | .getPart c part =>
    match w.phase c with
    | .uploading values => do
      let buf ← dbGet w.dbs composeDb (q.key c.1 part)
      if readOrder[values.length]? = some part then
        some ⟨w.dbs, Function.update w.phase c
          ((ab2str buf).elim .failed fun s => .uploading (values ++ [s]))⟩
      else none
    | _ => none
  | .other name key content version rand ok => do
    let (ok', dbs) ← dbSet w.dbs name key content version rand
    if name ≠ composeDb ∧ ok' = ok then some ⟨dbs, w.phase⟩ else none

/-- What is computed is a step. -/
theorem ComposeWorld.step_of_exec {q : Composes Request} {dbs₀ : DbMap}
    {w w' : ComposeWorld Request} {l : ComposeLabel Request} (h : w.exec q l = some w') :
    (composing q dbs₀).step w l w' := by
  cases l with
  | put c part rand ok =>
    -- the guards of `exec` are those of the step, here and in the cases below
    simp only [exec] at h
    split at h
    · next part' rest hc =>
      simp only [Option.bind_eq_bind, Option.bind_eq_some_iff] at h
      obtain ⟨⟨ok', dbs⟩, hset, h⟩ := h
      split at h
      · next hok =>
        obtain ⟨rfl, rfl⟩ := hok
        exact ⟨rest, dbs, hc, hset, (Option.some.inj h).symm⟩
      · cases h
    · cases h
  | getCount c enters =>
    simp only [exec] at h
    split at h
    · next hc =>
      simp only [Option.bind_eq_bind, Option.bind_eq_some_iff] at h
      obtain ⟨buf, hget, h⟩ := h
      split at h
      · next henters => exact ⟨buf, hc, hget, henters, (Option.some.inj h).symm⟩
      · cases h
    · cases h
  | setCount c rand ok =>
    simp only [exec] at h
    split at h
    · next content version hc =>
      simp only [Option.bind_eq_bind, Option.bind_eq_some_iff] at h
      obtain ⟨⟨ok', dbs⟩, hset, h⟩ := h
      split at h
      · next hok =>
        subst hok
        exact ⟨content, version, dbs, hc, hset, (Option.some.inj h).symm⟩
      · cases h
    · cases h
  | getPart c part =>
    simp only [exec] at h
    split at h
    · next values hc =>
      simp only [Option.bind_eq_bind, Option.bind_eq_some_iff] at h
      obtain ⟨buf, hget, h⟩ := h
      split at h
      · next hpart => exact ⟨values, buf, hc, hpart, hget, (Option.some.inj h).symm⟩
      · cases h
    · cases h
  | other name key content version rand ok =>
    simp only [exec, Option.bind_eq_bind, Option.bind_eq_some_iff] at h
    obtain ⟨⟨ok', dbs⟩, hset, h⟩ := h
    split at h
    · next hne =>
      obtain ⟨hne, rfl⟩ := hne
      exact ⟨dbs, hne, hset, (Option.some.inj h).symm⟩
    · cases h

/-- A call has returned: it has replied, or `upload_post` has read all it reads. What
`upload_post` does with the parts is the matter of `PostFlow`. -/
def CallPhase.Returned : CallPhase → Prop
  | .replied => True
  | .uploading values => values.length = readOrder.length
  | _ => False

instance : (phase : CallPhase) → Decidable phase.Returned
  | .replied => inferInstanceAs (Decidable True)
  | .uploading values => inferInstanceAs (Decidable (values.length = readOrder.length))
  | .storing _ | .incrementing .. | .failed => inferInstanceAs (Decidable False)

/-- The calls of a request that entered `upload_post`, oldest first. -/
def entries (r : Request) : List (ComposeLabel Request) → List Upload
  | [] => []
  | .getCount c true :: ls => if c.1 = r then c.2 :: entries r ls else entries r ls
  | _ :: ls => entries r ls

/-- The steps of a request's calls on its counter. -/
def countEvents (r : Request) : List (ComposeLabel Request) → List (Optimistic.Event Upload UInt32)
  | [] => []
  | .getCount c _ :: ls => if c.1 = r then .read c.2 :: countEvents r ls else countEvents r ls
  | .setCount c rand ok :: ls =>
    if c.1 = r then .write c.2 rand ok :: countEvents r ls else countEvents r ls
  | _ :: ls => countEvents r ls

/-- Entries in a longer run. -/
theorem entries_append (r : Request) (ls ls' : List (ComposeLabel Request)) :
    entries r (ls ++ ls') = entries r ls ++ entries r ls' := by
  induction ls with
  | nil => rfl
  | cons l ls ih =>
    rcases l with _ | ⟨c, _ | _⟩ | _ | _ | _ <;> simp only [List.cons_append, entries, ih]
    split <;> rfl

/-- Steps on the counter in a longer run. -/
theorem countEvents_append (r : Request) (ls ls' : List (ComposeLabel Request)) :
    countEvents r (ls ++ ls') = countEvents r ls ++ countEvents r ls' := by
  induction ls with
  | nil => rfl
  | cons l ls ih =>
    cases l <;> simp only [List.cons_append, countEvents, ih]
    all_goals split <;> rfl

/-! ### Keys -/

/-- No suffix of a key is the end of another, so that ids and suffixes can be told apart
where they are put together. -/
theorem keySuffix_inj_of_suffix {s t : Option Part} (h : keySuffix s <:+ keySuffix t) : s = t := by
  revert s t
  decide

/-- Distinct strings that are keys of the requests have distinct 32-bit keys. The hash
cannot promise this, so it is assumed of the keys at hand. -/
def Composes.NoCollision (q : Composes Request) : Prop :=
  ∀ r s r' s', q.key r s = q.key r' s' → q.keyString r s = q.keyString r' s'

omit [DecidableEq Request] in
/-- **The keys of all parts and counters are distinct.** -/
theorem Composes.key_inj {q : Composes Request} (hid : Function.Injective q.reqId)
    (hno : q.NoCollision) {r r' : Request} {s s' : Option Part} (h : q.key r s = q.key r' s') :
    r = r' ∧ s = s' := by
  have hstring : q.reqId r ++ keySuffix s = q.reqId r' ++ keySuffix s' := hno r s r' s' h
  have hs : s = s' := by
    rcases le_total (keySuffix s).length (keySuffix s').length with hle | hle
    · exact keySuffix_inj_of_suffix (List.suffix_of_suffix_length_le
        ⟨q.reqId r, hstring⟩ ⟨q.reqId r', rfl⟩ hle)
    · exact (keySuffix_inj_of_suffix (List.suffix_of_suffix_length_le
        ⟨q.reqId r', hstring.symm⟩ ⟨q.reqId r, rfl⟩ hle)).symm
  subst hs
  exact ⟨hid (List.append_cancel_right hstring), rfl⟩

end Nanoservices
