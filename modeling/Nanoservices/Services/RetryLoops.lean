import Nanoservices.Library.Json
import Nanoservices.Db.Cell
import Nanoservices.Services.Buffer

/-!
# The read-modify-write loops

`follow` (social graph) and `write_user_timeline` keep lists in the store, as JSON
text, and change them in retry loops: read the list with `DBGet`, change it, write it
back with `DBSet` and the version read, and start over when that returns `"abort"`.
The three loops differ in the key and in the change, so a loop is `Loop` with one
`iterate` for what happens between its `DBGet` and its `DBSet`; `follow` is two loops one
after the other, `write_user_timeline` a single one.

Any number of clients run such calls over the same databases, `retryLoops`. A step is
one `DBGet` or one `DBSet`, which are atomic; other services' `DBSet`s may come in
between. Fix a database and a 32-bit key. The loops against it are the agents of
`Optimistic.loops`, with the key's entry as the cell: that is `simulates`, proved
from one lemma for each kind of step.
-/

namespace Nanoservices

open Utf16 Json Lts Versioned

/-! ### Lists in the store -/

/-- The items of a list kept as JSON: each has a value from which it is read back. -/
class Item (α : Type) where
  toValue : α → Value
  ofValue : Value → Option α
  ofValue_toValue : ∀ a, ofValue (toValue a) = some a

instance : Item Value where
  toValue := id
  ofValue := some
  ofValue_toValue _ := rfl

/-- An entry of a timeline, as `upload_post` builds it. -/
structure Post where
  user_id : Str
  timestamp : ℤ
  post_id : Str
  deriving DecidableEq

/-- An entry as `upload_post` writes it. -/
def Post.toValue (p : Post) : Value :=
  .obj [(lit "user_id", .str p.user_id), (lit "timestamp", .num p.timestamp),
    (lit "post_id", .str p.post_id)]

/-- An entry as it is read: the three fields, which have to be of the right types. -/
def Post.ofValue (v : Value) : Option Post :=
  match v.field (lit "user_id"), v.field (lit "timestamp"), v.field (lit "post_id") with
  | some (.str user_id), some (.num timestamp), some (.str post_id) =>
    some ⟨user_id, timestamp, post_id⟩
  | _, _, _ => none

instance : Item Post where
  toValue := Post.toValue
  ofValue := Post.ofValue
  ofValue_toValue _ := rfl

/-- `JSON.stringify`, which throws when the text is too long for a string. -/
def jsonStringify (v : Value) : Option Str :=
  if (stringify v).length ≤ kMaxLength then some (stringify v) else none

variable {α : Type} [Item α]

/-- `JSON.parse` of a list's text. -/
def parseList (text : Str) : Option (List α) := do
  match ← parse text with
  | .arr values => values.mapM Item.ofValue
  | _ => none

/-- The text of a list. -/
def listValue (xs : List α) : Value := .arr (xs.map Item.toValue)

/-- Items are read back one by one. -/
theorem mapM_ofValue (xs : List α) : (xs.map Item.toValue).mapM Item.ofValue = some xs := by
  induction xs with
  | nil => rfl
  | cons x xs ih => simp [Item.ofValue_toValue, ih]

/-- A list is read back. -/
@[simp] theorem parseList_stringify (xs : List α) :
    parseList (stringify (listValue xs)) = some xs := by
  rw [parseList, parse_stringify]
  exact mapM_ofValue xs

/-! ### The loops -/

/-- A retry loop: where its list is kept, and how it changes the list. -/
structure Loop (α : Type) where
  name : String
  key : UInt32
  change : List α → List α

/-- The changed list as the content of a `DBSet`; none when the text is too long for a
string. -/
def Loop.write (l : Loop α) (list : List α) : Option (List UInt8) :=
  (jsonStringify (listValue (l.change list))).map str2ab

/-- One iteration: from the buffer `DBGet` returned to the content and the version that
are passed to `DBSet`. An absent entry is an empty buffer; then the version is 0. None
where an exception ends the call. -/
def Loop.iterate (l : Loop α) (buf : List UInt8) : Option (List UInt8 × UInt32) :=
  if 0 < buf.length then do
    let text ← ab2str buf
    let list ← parseList text
    let version ← abversion buf
    let content ← l.write list
    some (content, version)
  else do
    let content ← l.write []
    some (content, 0)

/-- `follow`: the followee is pushed to the user's list, then the user to the followee's
list of followers. -/
def follow (p : Platform) (username followee_name : Str) : List (Loop Value) :=
  [⟨"social_graph_service.js", keyOf p username, (· ++ [.str followee_name])⟩,
    ⟨"social_graph_service.js", keyOf p (followee_name ++ lit "followers"),
      (· ++ [.str username])⟩]

/-- The loop `while (m <= n)` of `push_sorted`, with `n` one higher than in the source. -/
def searchIndex {β : Type} (compare : β → β → ℤ) (e : β) (arr : List β) (m n : ℕ) : ℕ :=
  if _ : m < n then
    let k := (n - 1 + m) / 2
    match arr[k]? with
    | none => m
    | some x =>
      let cmp := compare e x
      if 0 < cmp then searchIndex compare e arr (k + 1) n
      else if cmp < 0 then searchIndex compare e arr m k
      else k
  else m
termination_by n - m
decreasing_by all_goals omega

/-- `push_sorted`. -/
def pushSorted {β : Type} (compare : β → β → ℤ) (e : β) (arr : List β) : List β :=
  let i := searchIndex compare e arr 0 arr.length
  arr.take i ++ e :: arr.drop i

/-- `comp`, whose Boolean result `push_sorted` compares with 0. -/
def comp (a b : Post) : ℤ := if a.timestamp > b.timestamp then 1 else 0

/-- `write_user_timeline`: one loop, which inserts the post into the user's timeline. -/
def writeUserTimeline (p : Platform) (user_id : Str) (post : Post) : List (Loop Post) :=
  [⟨"user_timeline_service.js", keyOf p user_id, pushSorted comp post⟩]

/-! ### What an iteration computes -/

/-- The list an entry's content holds; the empty list when there is no entry. -/
def readContent : Option (List UInt8) → Option (List α)
  | none => some []
  | some content => (uint16Array content).bind parseList

/-- The content an iteration writes, as a function of the content it read. -/
def Loop.content (l : Loop α) (old : Option (List UInt8)) : Option (List UInt8) :=
  (readContent old).bind l.write

/-- An iteration without an entry. -/
theorem Loop.iterate_nil (l : Loop α) :
    l.iterate [] = (l.content none).map fun c => (c, 0) := by
  simp only [Loop.iterate, Loop.content, readContent, List.length_nil, Nat.lt_irrefl, if_false,
    Option.bind_some]
  cases l.write [] <;> rfl

/-- **An iteration** names the token of the buffer and computes from the bytes behind
it. -/
theorem Loop.iterate_append (l : Loop α) (token : UInt32) (content : List UInt8) :
    l.iterate (writeInt token ++ content) =
      (l.content (some content)).map fun c => (c, token) := by
  -- behind the version stands the content itself
  have habtext : ab2str (writeInt token ++ content) = uint16Array content := by
    rw [ab2str, writeInt]
    cases h : uint16Array content <;> simp [uint16Array, h]
  rw [Loop.iterate, if_pos (by simp), habtext, abversion_writeInt_append, Loop.content, readContent]
  cases uint16Array content with
  | none => rfl
  | some text =>
    cases h : (parseList text : Option (List α)) with
    | none => simp [h]
    | some list => cases hw : l.write list <;> simp [h, hw]

/-- What an iteration writes is the text of the changed list, and fits a block. -/
theorem Loop.write_eq_some {l : Loop α} {xs : List α} {content : List UInt8}
    (h : l.write xs = some content) :
    content = str2ab (stringify (listValue (l.change xs))) ∧ content.length + 4 < 2 ^ 32 := by
  unfold Loop.write jsonStringify at h
  split at h
  · next hle =>
    cases h
    refine ⟨rfl, ?_⟩
    rw [length_str2ab]
    unfold kMaxLength at hle
    omega
  · cases h

/-- So does what is passed to `DBSet`. -/
theorem Loop.length_iterate {l : Loop α} {buf content : List UInt8} {version : UInt32}
    (h : l.iterate buf = some (content, version)) : content.length + 4 < 2 ^ 32 := by
  obtain ⟨xs, hw⟩ : ∃ xs, l.write xs = some content := by
    unfold Loop.iterate at h
    -- from a stored list or from the empty one, what is written has been found to fit
    split at h
    · simp only [Option.bind_eq_bind, Option.bind_eq_some_iff, Option.some.injEq] at h
      obtain ⟨text, -, xs, -, version', -, content', hw, heq⟩ := h
      cases heq
      exact ⟨xs, hw⟩
    · simp only [Option.bind_eq_bind, Option.bind_eq_some_iff, Option.some.injEq] at h
      obtain ⟨content', hw, heq⟩ := h
      cases heq
      exact ⟨[], hw⟩
  exact (write_eq_some hw).2

/-! ### The clients -/

/-- Where a client stands in its current loop. -/
inductive LoopPhase
  | reading
  | writing (content : List UInt8) (version : UInt32)
  /-- An exception ended the call. -/
  | failed

/-- A client: the number of loops it has left behind, and where it stands in the next. -/
structure Process where
  loop : ℕ
  phase : LoopPhase

/-- The phase a client enters with the buffer `DBGet` returned. -/
def Loop.next (l : Loop α) (buf : List UInt8) : LoopPhase :=
  match l.iterate buf with
  | some (content, version) => .writing content version
  | none => .failed

/-- A client never writes more than fits. -/
theorem Loop.length_next {l : Loop α} {buf content : List UInt8} {version : UInt32}
    (h : l.next buf = .writing content version) : content.length + 4 < 2 ^ 32 := by
  unfold Loop.next at h
  split at h
  · next hiter =>
    cases h
    exact length_iterate hiter
  · cases h

/-- The databases, and where the clients stand. -/
structure RetryWorld (Client : Type) where
  dbs : DbMap
  process : Client → Process

/-- A step: a `DBGet` or a `DBSet` in the `i`-th loop of a client, or a `DBSet` of
another service. The random token and the result of a `DBSet` are part of its label, so
that a run tells them. -/
inductive RetryLabel (Client : Type)
  | get (c : Client) (i : ℕ)
  | set (c : Client) (i : ℕ) (rand : UInt32) (ok : Bool)
  | other (name : String) (key : UInt32) (content : List UInt8) (version rand : UInt32) (ok : Bool)

variable {Client : Type} [DecidableEq Client]

/-- The clients' steps. `program` lists each client's loops, which it goes through in
order; a loop is left when its `DBSet` is accepted, and begun again when that is
refused. Which client is next is open. -/
def retryLoops (program : Client → List (Loop α)) (dbs₀ : DbMap) :
    System (RetryWorld Client) (RetryLabel Client) where
  init w := w = ⟨dbs₀, fun _ => ⟨0, .reading⟩⟩
  step w
    | .get c i, w' => ∃ l buf, w.process c = ⟨i, .reading⟩ ∧ (program c)[i]? = some l ∧
        dbGet w.dbs l.name l.key = some buf ∧
        w' = ⟨w.dbs, Function.update w.process c ⟨i, l.next buf⟩⟩
    | .set c i rand ok, w' => ∃ l content version dbs,
        w.process c = ⟨i, .writing content version⟩ ∧ (program c)[i]? = some l ∧
        dbSet w.dbs l.name l.key content version rand = some (ok, dbs) ∧
        w' = ⟨dbs, Function.update w.process c
          (if ok then ⟨i + 1, .reading⟩ else ⟨i, .reading⟩)⟩
    | .other name key content version rand ok, w' => ∃ dbs,
        dbSet w.dbs name key content version rand = some (ok, dbs) ∧
        w' = ⟨dbs, w.process⟩

/-- The step a label stands for, computed. -/
def RetryWorld.exec (program : Client → List (Loop α)) (w : RetryWorld Client) :
    RetryLabel Client → Option (RetryWorld Client)
  | .get c i => do
    let l ← (program c)[i]?
    let buf ← dbGet w.dbs l.name l.key
    match w.process c with
    | ⟨j, .reading⟩ =>
      if j = i then some ⟨w.dbs, Function.update w.process c ⟨i, l.next buf⟩⟩ else none
    | _ => none
  | .set c i rand ok => do
    let l ← (program c)[i]?
    match w.process c with
    | ⟨j, .writing content version⟩ =>
      let (ok', dbs) ← dbSet w.dbs l.name l.key content version rand
      if j = i ∧ ok' = ok then
        some ⟨dbs, Function.update w.process c (if ok then ⟨i + 1, .reading⟩ else ⟨i, .reading⟩)⟩
      else none
    | _ => none
  | .other name key content version rand ok => do
    let (ok', dbs) ← dbSet w.dbs name key content version rand
    if ok' = ok then some ⟨dbs, w.process⟩ else none

/-- What is computed is a step. -/
theorem RetryWorld.step_of_exec {program : Client → List (Loop α)} {dbs₀ : DbMap}
    {w w' : RetryWorld Client} {l : RetryLabel Client} (h : w.exec program l = some w') :
    (retryLoops program dbs₀).step w l w' := by
  cases l with
  | get c i =>
    -- the guards of `exec` are those of the step
    simp only [exec, Option.bind_eq_bind, Option.bind_eq_some_iff] at h
    obtain ⟨l, hl, buf, hget, h⟩ := h
    split at h
    · next hc =>
      split at h
      · next hj =>
        subst hj
        exact ⟨l, buf, hc, hl, hget, (Option.some.inj h).symm⟩
      · cases h
    · cases h
  | set c i rand ok =>
    simp only [exec, Option.bind_eq_bind, Option.bind_eq_some_iff] at h
    obtain ⟨l, hl, h⟩ := h
    split at h
    · next content version hc =>
      obtain ⟨⟨ok', dbs⟩, hset, h⟩ := Option.bind_eq_some_iff.1 h
      split at h
      · next hj =>
        obtain ⟨rfl, rfl⟩ := hj
        exact ⟨l, content, version, dbs, hc, hl, hset, (Option.some.inj h).symm⟩
      · cases h
    · cases h
  | other name key content version rand ok =>
    simp only [exec, Option.bind_eq_bind, Option.bind_eq_some_iff] at h
    obtain ⟨⟨ok', dbs⟩, hset, h⟩ := h
    split at h
    · next hok =>
      subst hok
      exact ⟨dbs, hset, (Option.some.inj h).symm⟩
    · cases h

/-! ### The loops against one key -/

/-- The database and the key of a loop. -/
def target (program : Client → List (Loop α)) (x : Client × ℕ) : Option (String × UInt32) :=
  (program x.1)[x.2]?.map fun l => (l.name, l.key)

/-- The steps of the loops against a key. A loop is named by its client and its
position. -/
def keyEvents (program : Client → List (Loop α)) (k : String × UInt32) :
    List (RetryLabel Client) → List (Optimistic.Event (Client × ℕ) UInt32)
  | [] => []
  | .get c i :: ls =>
    if target program (c, i) = some k then .read (c, i) :: keyEvents program k ls
    else keyEvents program k ls
  | .set c i rand ok :: ls =>
    if target program (c, i) = some k then .write (c, i) rand ok :: keyEvents program k ls
    else keyEvents program k ls
  | .other .. :: ls => keyEvents program k ls

/-- No other service wrote the key. -/
def OnlyLoops (k : String × UInt32) (ls : List (RetryLabel Client)) : Prop :=
  ∀ name key content version rand ok, .other name key content version rand ok ∈ ls →
    (name, key) ≠ k

/-- What a loop computes from its key's content. -/
def loopContent (program : Client → List (Loop α)) (x : Client × ℕ)
    (old : Option (List UInt8)) : Option (List UInt8) :=
  ((program x.1)[x.2]?).bind fun l => l.content old

/-- The phase of a loop, in the terms of `Optimistic`. -/
def LoopPhase.agent : LoopPhase → Optimistic.Phase UInt32 (List UInt8)
  | .reading => .reading
  | .writing content version => .writing version content
  | .failed => .failed

@[simp] theorem LoopPhase.agent_reading : LoopPhase.reading.agent = .reading := rfl

@[simp] theorem LoopPhase.agent_writing (content : List UInt8) (version : UInt32) :
    (LoopPhase.writing content version).agent = .writing version content := rfl

/-- The phase of a loop as the agent of a key: it has exited if its client has left it
behind, it stands where its client stands if it is the client's current one, and it is
reading until its client gets there. A loop against another key is no agent of this one,
and stays reading. -/
def agentPhase (program : Client → List (Loop α)) (k : String × UInt32) (w : RetryWorld Client)
    (x : Client × ℕ) : Optimistic.Phase UInt32 (List UInt8) :=
  if target program x = some k then
    if x.2 < (w.process x.1).loop then .exited
    else if x.2 = (w.process x.1).loop then (w.process x.1).phase.agent
    else .reading
  else .reading

omit [Item α] [DecidableEq Client] in
/-- Steps of a longer run. -/
theorem keyEvents_append (program : Client → List (Loop α)) (k : String × UInt32)
    (ls ls' : List (RetryLabel Client)) :
    keyEvents program k (ls ++ ls') = keyEvents program k ls ++ keyEvents program k ls' := by
  induction ls with
  | nil => rfl
  | cons l ls ih =>
    cases l <;> simp only [List.cons_append, keyEvents, ih]
    all_goals split <;> simp

/-- **What ties a run of the clients to a run of the agents of a key.** The steps
against the key are a run of `Optimistic.loops` (`run`), whose cell is the key's entry
in the store that the databases hold (`cell`, `holds`), and whose agents stand where the
loops do (`phase`). What is about to be written fits a block. -/
structure Simulates (program : Client → List (Loop α)) (k : String × UInt32)
    (cell₀ : Option (UInt32 × List UInt8)) (ls : List (RetryLabel Client))
    (w : RetryWorld Client) (m : Store) (s : Optimistic.State (Client × ℕ) UInt32 (List UInt8)) :
    Prop where
  run : Run (Optimistic.loops 0 (loopContent program) cell₀) (keyEvents program k ls) s
  holds : Holds w.dbs m
  cell : CellAt m k s.cell
  phase : ∀ x, s.phase x = agentPhase program k w x
  fits : ∀ c i content version, w.process c = ⟨i, .writing content version⟩ →
    content.length + 4 < 2 ^ 32
  db : (w.dbs k.1).isSome

variable {program : Client → List (Loop α)} {k : String × UInt32}

omit [Item α] [DecidableEq Client] in
/-- A loop against another key. -/
theorem agentPhase_of_off {w : RetryWorld Client} {x : Client × ℕ}
    (h : target program x ≠ some k) : agentPhase program k w x = .reading := by
  rw [agentPhase, if_neg h]

omit [Item α] in
/-- A client's step in its loop `i` changes the phase of that loop only. -/
theorem agentPhase_of_ne {dbs dbs' : DbMap} {process : Client → Process} {c : Client} {i : ℕ}
    {phase : LoopPhase} {p : Process} {x : Client × ℕ} (hc : process c = ⟨i, phase⟩)
    (hp : p.loop = i ∨ p = ⟨i + 1, .reading⟩) (hx : x ≠ (c, i)) :
    agentPhase program k ⟨dbs', Function.update process c p⟩ x =
      agentPhase program k ⟨dbs, process⟩ x := by
  obtain ⟨d, j⟩ := x
  unfold agentPhase
  -- another loop of the same client is finished or not begun before and after; other
  -- clients stand still
  by_cases hd : d = c
  · subst hd
    have hj : j ≠ i := fun hj => hx (by rw [hj])
    simp only [Function.update_self, hc]
    rcases hp with hp | rfl
    · simp only [hp, hj, if_false]
    · by_cases hlt : j < i
      · simp [hlt, Nat.lt_succ_of_lt hlt]
      · have hge : ¬ j < i + 1 := by omega
        simp [hlt, hge, hj]
  · simp only [Function.update_of_ne hd]

omit [Item α] in
/-- The current loop of a client. -/
theorem agentPhase_self {dbs : DbMap} {process : Client → Process} {c : Client} {i : ℕ}
    {phase : LoopPhase} (h : target program (c, i) = some k) :
    agentPhase program k ⟨dbs, Function.update process c ⟨i, phase⟩⟩ (c, i) =
      phase.agent := by
  simp [agentPhase, h]

omit [Item α] in
/-- A loop that has just been left. -/
theorem agentPhase_exited {dbs : DbMap} {process : Client → Process} {c : Client} {i : ℕ}
    (h : target program (c, i) = some k) :
    agentPhase program k ⟨dbs, Function.update process c ⟨i + 1, .reading⟩⟩ (c, i) = .exited := by
  simp [agentPhase, h]

omit [Item α] [DecidableEq Client] in
/-- A loop in which its client stands. -/
theorem agentPhase_at {dbs : DbMap} {process : Client → Process} {c : Client} {i : ℕ}
    {phase : LoopPhase} (hc : process c = ⟨i, phase⟩) (h : target program (c, i) = some k) :
    agentPhase program k ⟨dbs, process⟩ (c, i) = phase.agent := by
  simp [agentPhase, h, hc]

omit [DecidableEq Client] in
/-- **One iteration** of a loop against the key is the computation of its agent. -/
theorem iterate_eq_compute {l : Loop α} {x : Client × ℕ} {m : Store} {dbs : DbMap}
    {cell : Option (UInt32 × List UInt8)} {buf : List UInt8} (h : CellAt m k cell)
    (hm : Holds dbs m) (hl : (program x.1)[x.2]? = some l)
    (hget : Nanoservices.dbGet dbs k.1 k.2 = some buf) :
    (l.next buf).agent = Optimistic.compute 0 (loopContent program x) cell := by
  rw [h.dbGet hm hget, Optimistic.compute, loopContent, hl, Option.bind_some, Loop.next]
  -- no entry is an empty buffer, which a loop reads as the empty list with version 0
  cases cell with
  | none =>
    simp only [Option.map_none, Loop.iterate_nil]
    cases l.content none <;> rfl
  | some e =>
    simp only [Option.map_some, Loop.iterate_append]
    cases l.content (some e.2) <;> rfl

omit [Item α] [DecidableEq Client] in
/-- What a loop is against. -/
theorem target_eq {c : Client} {i : ℕ} {l : Loop α} (hl : (program c)[i]? = some l) :
    target program (c, i) = some (l.name, l.key) := by
  rw [target, hl, Option.map_some]

/-- A `DBGet` of the key is a read of its agent. One of another key changes neither the
cell nor an agent. -/
theorem Simulates.get {cell₀ : Option (UInt32 × List UInt8)} {dbs₀ : DbMap}
    {ls : List (RetryLabel Client)} {c : Client} {i : ℕ} {w w' : RetryWorld Client} {m : Store}
    {s : Optimistic.State (Client × ℕ) UInt32 (List UInt8)}
    (h : Simulates program k cell₀ ls w m s) (hs : (retryLoops program dbs₀).step w (.get c i) w') :
    ∃ s', Simulates program k cell₀ (ls ++ [.get c i]) w' m s' := by
  obtain ⟨dbs, process⟩ := w
  obtain ⟨l, buf, hc, hl, hget, rfl⟩ := hs
  -- what the loop is about to write fits a block
  have hfits : ∀ d j content version,
      Function.update process c ⟨i, l.next buf⟩ d = ⟨j, .writing content version⟩ →
      content.length + 4 < 2 ^ 32 := by
    intro d j content version hd
    by_cases hdc : d = c
    · subst hdc
      rw [Function.update_self] at hd
      exact Loop.length_next (congrArg Process.phase hd)
    · rw [Function.update_of_ne hdc] at hd
      exact h.fits d j content version hd
  -- the loop is on the cell: its agent reads
  by_cases hk : target program (c, i) = some k
  · obtain rfl := Option.some.inj ((target_eq hl).symm.trans hk)
    have hevents : keyEvents program (l.name, l.key) (ls ++ [.get c i]) =
        keyEvents program (l.name, l.key) ls ++ [.read (c, i)] := by
      simp [keyEvents_append, keyEvents, hk]
    have hreading : s.phase (c, i) = .reading := by
      rw [h.phase, agentPhase_at hc hk]
      rfl
    refine ⟨⟨s.cell, Function.update s.phase (c, i)
      (Optimistic.compute 0 (loopContent program (c, i)) s.cell)⟩, ?_, h.holds, h.cell, ?_, hfits,
      h.db⟩
    · rw [hevents]
      exact h.run.step ⟨hreading, rfl⟩
    · intro x
      by_cases hx : x = (c, i)
      · subst hx
        simp only [Function.update_self, agentPhase_self hk]
        exact (iterate_eq_compute (x := (c, i)) h.cell h.holds hl hget).symm
      · simp only [Function.update_of_ne hx]
        rw [h.phase]
        exact (agentPhase_of_ne hc (.inl rfl) hx).symm
  -- it is on another one: no agent moves
  · have hevents : keyEvents program k (ls ++ [.get c i]) = keyEvents program k ls := by
      simp [keyEvents_append, keyEvents, hk]
    refine ⟨s, hevents ▸ h.run, h.holds, h.cell, fun x => ?_, hfits, h.db⟩
    rw [h.phase x]
    by_cases hx : x = (c, i)
    · rw [hx, agentPhase_of_off hk, agentPhase_of_off hk]
    · exact (agentPhase_of_ne hc (.inl rfl) hx).symm

/-- A `DBSet` of the key by a loop is a write of its agent: it is accepted exactly when
the agent's is, since both compare the version with the token of the entry. One of
another key leaves the cell alone. -/
theorem Simulates.set {cell₀ : Option (UInt32 × List UInt8)} {dbs₀ : DbMap}
    {ls : List (RetryLabel Client)} {c : Client} {i : ℕ} {rand : UInt32} {ok : Bool}
    {w w' : RetryWorld Client} {m : Store}
    {s : Optimistic.State (Client × ℕ) UInt32 (List UInt8)}
    (h : Simulates program k cell₀ ls w m s)
    (hs : (retryLoops program dbs₀).step w (.set c i rand ok) w') :
    ∃ m' s', Simulates program k cell₀ (ls ++ [.set c i rand ok]) w' m' s' := by
  obtain ⟨dbs, process⟩ := w
  obtain ⟨l, content, version, dbs', hc, hl, hset, rfl⟩ := hs
  obtain ⟨hok, hholds, hsome⟩ := h.holds.of_dbSet hset
  have hdb : (dbs' k.1).isSome := (hsome k.1).trans h.db
  -- the loop returns if the write goes through, and reads again if it does not
  set p : Process := if ok then ⟨i + 1, .reading⟩ else ⟨i, .reading⟩ with hp
  have hp' : p.loop = i ∨ p = ⟨i + 1, .reading⟩ := by
    rw [hp]
    cases ok <;> simp
  have hfits : ∀ d j content version,
      Function.update process c p d = ⟨j, .writing content version⟩ →
      content.length + 4 < 2 ^ 32 := by
    intro d j content version hd
    by_cases hdc : d = c
    · subst hdc
      rw [Function.update_self, hp] at hd
      cases ok <;> cases hd
    · rw [Function.update_of_ne hdc] at hd
      exact h.fits d j content version hd
  -- the store after the write, whichever key it is of
  refine ⟨(put Block.token m (putOf l.name l.key content version rand)).2, ?_⟩
  -- the loop is on the cell: its agent writes
  by_cases hk : target program (c, i) = some k
  · obtain rfl := Option.some.inj ((target_eq hl).symm.trans hk)
    have hevents : keyEvents program (l.name, l.key) (ls ++ [.set c i rand ok]) =
        keyEvents program (l.name, l.key) ls ++ [.write (c, i) rand ok] := by
      simp [keyEvents_append, keyEvents, hk]
    have hwriting : s.phase (c, i) = .writing version content := by
      rw [h.phase, agentPhase_at hc hk]
      rfl
    have hacc : ok = Optimistic.accepts s.cell version := by
      rw [hok]
      exact h.cell.accepts content version rand
    refine ⟨if ok then ⟨some (rand, content), Function.update s.phase (c, i) .exited⟩
      else ⟨s.cell, Function.update s.phase (c, i) .reading⟩, ?_, hholds, ?_, ?_, hfits, hdb⟩
    · rw [hevents]
      exact h.run.step ⟨version, content, hwriting, hacc, rfl⟩
    · cases ok with
      | true =>
        exact cellAt_newBlock (k := (l.name, l.key)) (h.fits c i content version hc) hok.symm
      | false =>
        rw [put_of_not_accepts hok.symm]
        exact h.cell
    · intro x
      by_cases hx : x = (c, i)
      · subst hx
        cases ok with
        | true => simp [hp, agentPhase_exited hk]
        | false => simp [hp, agentPhase_self hk]
      · rw [agentPhase_of_ne hc hp' hx, ← h.phase x]
        cases ok <;> simp [hx]
  -- it is on another one: the cell is as it was
  · have hevents : keyEvents program k (ls ++ [.set c i rand ok]) = keyEvents program k ls := by
      simp [keyEvents_append, keyEvents, hk]
    have hne : k ≠ (l.name, l.key) := fun heq => hk (by rw [target_eq hl, heq])
    refine ⟨s, hevents ▸ h.run, hholds, h.cell.of_eq (put_snd_of_ne hne), fun x => ?_, hfits,
      hdb⟩
    rw [h.phase x]
    by_cases hx : x = (c, i)
    · rw [hx, agentPhase_of_off hk, agentPhase_of_off hk]
    · exact (agentPhase_of_ne hc hp' hx).symm

/-- **The simulation**: in a run in which only the loops write the key, the loops
against it are the agents of `Optimistic.loops`. What is proved of those agents thus
holds of `follow` and of `write_user_timeline`, and of any other calls made of such
loops. -/
theorem simulates {dbs₀ : DbMap} {m₀ : Store} {cell₀ : Option (UInt32 × List UInt8)}
    {ls : List (RetryLabel Client)} {w : RetryWorld Client} (hm₀ : Holds dbs₀ m₀)
    (hcell₀ : CellAt m₀ k cell₀) (hdb₀ : (dbs₀ k.1).isSome) (h : Run (retryLoops program dbs₀) ls w)
    (honly : OnlyLoops k ls) : ∃ m s, Simulates program k cell₀ ls w m s := by
  induction h with
  | init h0 =>
    obtain rfl : _ = _ := h0
    refine ⟨m₀, ⟨cell₀, fun _ => .reading⟩, .init rfl, hm₀, hcell₀, fun x => ?_, ?_, hdb₀⟩
    · simp [agentPhase]
    · intro c i content version hc
      cases hc
  | @step ls w w' e _ hs ih =>
    obtain ⟨m, s, hsim⟩ := ih fun name key content version rand ok hmem =>
      honly name key content version rand ok (List.mem_append_left _ hmem)
    -- a step of a loop on this key or on another one, or a `DBSet` of some other
    -- function
    cases e with
    | get c i => exact ⟨m, hsim.get hs⟩
    | set c i rand ok => exact hsim.set hs
    | other name key content version rand ok =>
      obtain ⟨dbs', hset, rfl⟩ := hs
      obtain ⟨-, hholds, hsome⟩ := hsim.holds.of_dbSet hset
      have hne : k ≠ (name, key) := fun heq =>
        honly name key content version rand ok (by simp) heq.symm
      have hevents : keyEvents program k (ls ++ [.other name key content version rand ok]) =
          keyEvents program k ls := by
        simp [keyEvents_append, keyEvents]
      exact ⟨_, s, hevents ▸ hsim.run, hholds, hsim.cell.of_eq (put_snd_of_ne hne), hsim.phase,
        hsim.fits, (hsome k.1).trans hsim.db⟩

end Nanoservices
