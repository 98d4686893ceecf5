import Nanoservices.Db.Creation
import Nanoservices.Services.ComposePost
import Nanoservices.Services.Updates

/-!
# Writes that are answered "ok"

`store_post`, `user_register` and the `upload_*` functions of `compose_post_service.js`
write what they are given with version 0, do not look at what `DBSet` returns, and reply
`"ok"`; the `upload_*` functions run `check_upload_post` in between. Any number of their
calls run among any other steps on the databases (`writers`).

A `DBSet` with version 0 succeeds when its key is absent or the token of its entry is 0.
`replies_written_iff` says that this, at each of its writes, is what makes an `"ok"`
true.
-/

namespace Nanoservices

open Utf16 Lts Versioned

/-! ### The functions -/

/-- `JSON.parse` and what the functions and bindings do with its values. Numbers may have
fractions. -/
structure JsValues where
  Val : Type
  /-- `none` where it throws, and for `null`, whose fields cannot be read. -/
  parse : Str → Option Val
  field : String → Val → Val
  string : Val → Option JsString
  /-- `Uint32Value` of a value that is not a string. -/
  uint32 : Val → UInt32
  /-- `str2ab` of a value that is not a string, or `none` where it throws. -/
  str2ab : Val → Option (List UInt8)

/-- A `DBSet` with version 0 of a value: the string, if it is one, and its buffer. A
value that is not a string goes through `str2ab` too, which makes something else of it
or throws. -/
structure Write where
  name : String
  key : UInt32
  given : Option JsString
  buffer : Option (List UInt8)
  buffer_eq : ∀ s ∈ given, buffer = some (str2ab s.1)

/-- The 32-bit key `db_set` makes of a value. -/
def JsValues.key (j : JsValues) (p : Platform) (v : j.Val) : UInt32 :=
  match j.string v with
  | some s => keyOf p s.1
  | none => j.uint32 v

/-- A write of a string. -/
def Write.ofString (name : String) (key : UInt32) (s : JsString) : Write where
  name := name
  key := key
  given := some s
  buffer := some (Nanoservices.str2ab s.1)
  buffer_eq _ hs := by rw [Option.mem_some_iff.1 hs]

/-- A write of a value that has been parsed. -/
def Write.ofValue (j : JsValues) (name : String) (key : UInt32) (v : j.Val) : Write where
  name := name
  key := key
  given := j.string v
  buffer := (j.string v).elim (j.str2ab v) fun s => some (Nanoservices.str2ab s.1)
  buffer_eq s hs := by rw [Option.mem_def.1 hs, Option.elim_some]

/-- The functions that write. -/
inductive WriteFn
  | storePost
  | userRegister
  | upload (u : Upload)

/-- The `DBSet`s a function makes before it counts or replies; none where it throws
before the first. Arguments that are stored as they are need not be JSON. -/
def WriteFn.writes (j : JsValues) (p : Platform) (req_id : Str) (args : JsString) :
    WriteFn → Option (List Write)
  | .storePost => (j.parse args.1).map fun obj =>
      [.ofString "post_storage.js" (j.key p (j.field "post_id" obj)) args]
  | .userRegister => (j.parse args.1).map fun obj =>
      [.ofValue j "user_mention_service.js" (j.key p (j.field "username" obj))
        (j.field "user_id" obj)]
  | .upload .uniqueId => (j.parse args.1).map fun obj =>
      [.ofValue j composeDb (keyOf p (req_id ++ Part.postId.suffix)) (j.field "post_id" obj),
        .ofValue j composeDb (keyOf p (req_id ++ Part.postType.suffix)) (j.field "post_type" obj)]
  | .upload u => some (u.parts.map fun part =>
      .ofString composeDb (keyOf p (req_id ++ part.suffix)) args)

/-- What `check_upload_post` does with the counter it read. A text that is no decimal
number below `2 ^ 53` may stand for any number: anything can be in the store, since
other services may write it. -/
def CountsTo (buf : List UInt8) (next : Option CountStep) : Prop :=
  next = checkUploadPost buf ∨ ∃ version text, abversion buf = some version ∧
    ab2str buf = some text ∧ (∀ n < 2 ^ 53, toNumber text ≠ some n) ∧
    (next = some .uploadPost ∨ ∃ s : JsString, next = some (.write (str2ab s.1) version))

/-! ### The system -/

/-- Where a call stands. -/
inductive WritePhase
  /-- It has these writes still to make. -/
  | writing (rest : List Write)
  /-- It is about to read the counter. -/
  | counting
  | incrementing (content : List UInt8) (version : UInt32)
  /-- It is in `upload_post`, which replies the result of another call. -/
  | uploading
  /-- It has replied "ok". -/
  | replied
  /-- An exception ended it. -/
  | failed

/-- The phase after the counter has been read. -/
def WritePhase.ofCount : Option CountStep → WritePhase
  | some (.write content version) => .incrementing content version
  | some .uploadPost => .uploading
  | none => .failed

/-- The phase with these writes still to make. -/
def WriteFn.phase (f : WriteFn) : List Write → WritePhase
  | write :: rest => .writing (write :: rest)
  | [] => match f with
    | .upload _ => .counting
    | .storePost | .userRegister => .replied

/-- The calls: their functions, request ids and arguments. -/
structure Writers (Client : Type) where
  platform : Platform
  values : JsValues
  function : Client → WriteFn
  reqId : Client → Str
  args : Client → JsString

variable {Client : Type}

def Writers.writes (q : Writers Client) (c : Client) : Option (List Write) :=
  (q.function c).writes q.values q.platform (q.reqId c) (q.args c)

/-- The databases, and where the calls stand. -/
structure WriteWorld (Client : Type) where
  dbs : DbMap
  phase : Client → WritePhase

/-- A write of a call, or an exception instead of it; the counter read and written; or
any other step on the databases. -/
inductive WriteLabel (Client : Type) (n : ℕ)
  | put (c : Client) (write : Write) (rand : UInt32) (ok : Bool)
  | throw (c : Client)
  | getCount (c : Client) (next : Option CountStep)
  | setCount (c : Client) (rand : UInt32) (ok : Bool)
  | other (e : StoreEvent n)

variable [DecidableEq Client] {n : ℕ}

/-- The calls among the steps of `n` cores on the databases. A `DBSet` that is refused
is no reason for a call to stop: it goes on with the next write whatever it returns. -/
def writers (q : Writers Client) (n : ℕ) : System (WriteWorld Client) (WriteLabel Client n) where
  init w := (stores n).init w.dbs ∧
    ∀ c, w.phase c = (q.writes c).elim .failed (q.function c).phase
  step w
    | .put c write rand ok, w' => ∃ rest content dbs, w.phase c = .writing (write :: rest) ∧
        write.buffer = some content ∧
        dbSet w.dbs write.name write.key content 0 rand = some (ok, dbs) ∧
        w' = ⟨dbs, Function.update w.phase c ((q.function c).phase rest)⟩
    | .throw c, w' => ∃ write rest, w.phase c = .writing (write :: rest) ∧ write.buffer = none ∧
        w' = ⟨w.dbs, Function.update w.phase c .failed⟩
    | .getCount c next, w' => ∃ buf, w.phase c = .counting ∧
        dbGet w.dbs composeDb (keyOf q.platform (q.reqId c ++ keySuffix none)) = some buf ∧
        CountsTo buf next ∧ w' = ⟨w.dbs, Function.update w.phase c (.ofCount next)⟩
    | .setCount c rand ok, w' => ∃ content version dbs, w.phase c = .incrementing content version ∧
        dbSet w.dbs composeDb (keyOf q.platform (q.reqId c ++ keySuffix none)) content version
          rand = some (ok, dbs) ∧
        w' = ⟨dbs, Function.update w.phase c (if ok then .replied else .counting)⟩
    | .other e, w' => ∃ dbs, (stores n).step w.dbs e dbs ∧ w' = ⟨dbs, w.phase⟩

/-- The writes a call has made, oldest first. -/
def puts (c : Client) : List (WriteLabel Client n) → List Write
  | [] => []
  | .put d write _ _ :: ls => if d = c then write :: puts c ls else puts c ls
  | _ :: ls => puts c ls

/-! ### What an "ok" promises -/

variable (q : Writers Client) (ls : List (WriteLabel Client n))

/-- During the steps the call makes this write, between the states `w` and `w'`. -/
def PutIn (c : Client) (write : Write) (rand : UInt32) (ok : Bool) (w w' : WriteWorld Client) :
    Prop :=
  ∃ before, before ++ [.put c write rand ok] <+: ls ∧ Run (writers q n) before w ∧
    (writers q n).step w (.put c write rand ok) w'

/-- **What an "ok" promises.** The call has made its writes, each has succeeded, and a
`DBGet` right after it returns the string that was given. -/
def Written (c : Client) : Prop :=
  q.writes c = some (puts c ls) ∧ ∀ write rand ok w w', PutIn q ls c write rand ok w w' →
    ok = true ∧ ∃ s ∈ write.given, (dbGet w'.dbs write.name write.key).bind ab2str = some s.1

/-- The key is absent, or the token of its entry is 0. -/
def KeyFree (dbs : DbMap) (name : String) (key : UInt32) : Prop :=
  ∃ m, Holds dbs m ∧ ∀ b, m (name, key) = some b → b.token = 0

/-- At each of its writes the call is given a string and finds its key free. -/
def FreeWrites (c : Client) : Prop :=
  ∀ write rand ok w w', PutIn q ls c write rand ok w w' →
    KeyFree w.dbs write.name write.key ∧ write.given.isSome

variable {q ls} {w w' : WriteWorld Client}

/-! ### One write -/

/-- Every reached state holds some store. -/
theorem writers_holds (h : Run (writers q n) ls w) : ∃ m, Holds w.dbs m := by
  induction h with
  | init h0 => exact stores_holds (Run.init h0.1)
  | @step ls w w' l _ hs ih =>
    obtain ⟨m, hm⟩ := ih
    -- a step writes by `DBSet` or leaves the databases as they are
    cases l with
    | put c write rand ok =>
      obtain ⟨rest, content, dbs, -, -, hset, rfl⟩ := hs
      exact ⟨_, (hm.of_dbSet hset).2.1⟩
    | throw c =>
      obtain ⟨write, rest, -, -, rfl⟩ := hs
      exact ⟨m, hm⟩
    | getCount c next =>
      obtain ⟨buf, -, -, -, rfl⟩ := hs
      exact ⟨m, hm⟩
    | setCount c rand ok =>
      obtain ⟨content, version, dbs, -, hset, rfl⟩ := hs
      exact ⟨_, (hm.of_dbSet hset).2.1⟩
    | other e =>
      obtain ⟨dbs, he, rfl⟩ := hs
      obtain ⟨m', hm', -⟩ := stores_step hm he
      exact ⟨m', hm'⟩

/-- A write succeeds exactly when its key is free: the version is 0, which is the token
of an absent key too. -/
theorem put_ok_iff (h : Run (writers q n) ls w) {c : Client} {write : Write} {rand : UInt32}
    {ok : Bool} (hs : (writers q n).step w (.put c write rand ok) w') :
    ok = true ↔ KeyFree w.dbs write.name write.key := by
  obtain ⟨rest, content, dbs, -, -, hset, rfl⟩ := hs
  have hok : ∀ {m}, Holds w.dbs m →
      ok = accepts Block.token m (putOf write.name write.key content 0 rand) :=
    fun hm => (hm.of_dbSet hset).1
  -- the version 0 is accepted when the key is free or its token is 0, and only then
  constructor
  · rintro rfl
    obtain ⟨m, hm⟩ := writers_holds h
    refine ⟨m, hm, fun b hb => by_contra fun hne => ?_⟩
    have hrefused : accepts Block.token m (putOf write.name write.key content 0 rand) = false :=
      accepts_eq_false_iff.2 ⟨b, hb, hne⟩
    rw [← hok hm] at hrefused
    cases hrefused
  · rintro ⟨m, hm, hfree⟩
    by_contra hrefused
    rw [Bool.not_eq_true, hok hm] at hrefused
    obtain ⟨b, hb, hne⟩ := accepts_eq_false_iff.1 hrefused
    exact hne (hfree b hb)

/-- A string whose write succeeds is read right after it. A string always fits a
block. -/
theorem read_put (h : Run (writers q n) ls w) {c : Client} {write : Write} {rand : UInt32}
    (hs : (writers q n).step w (.put c write rand true) w') {s : JsString}
    (hgiven : s ∈ write.given) :
    (dbGet w'.dbs write.name write.key).bind ab2str = some s.1 := by
  obtain ⟨m, hm⟩ := writers_holds h
  obtain ⟨rest, content, dbs, -, hbuffer, hset, rfl⟩ := hs
  obtain rfl : str2ab s.1 = content :=
    Option.some.inj ((write.buffer_eq s hgiven).symm.trans hbuffer)
  obtain ⟨hacc, hm', hsome⟩ := hm.of_dbSet hset
  -- the new block has the string's buffer behind its token
  have hcell := cellAt_newBlock (k := (write.name, write.key)) s.fits hacc.symm
  have hstored := hcell.stored hm' ((hsome write.name).trans (isSome_of_dbSet hset))
  rw [Stored.dbGet (k := (write.name, write.key)) hstored]
  exact ab2str_writeInt_append rand s.1

/-! ### Runs -/

/-- The writes still to make. -/
def WritePhase.rest : WritePhase → List Write
  | .writing rest => rest
  | _ => []

@[simp] theorem WriteFn.rest_phase (f : WriteFn) (rest : List Write) :
    (f.phase rest).rest = rest := by
  cases rest <;> cases f <;> rfl

/-- The writes of a longer run. -/
theorem puts_append (c : Client) (ls ls' : List (WriteLabel Client n)) :
    puts c (ls ++ ls') = puts c ls ++ puts c ls' := by
  induction ls with
  | nil => rfl
  | cons l ls ih =>
    cases l <;> simp only [List.cons_append, puts, ih]
    split <;> rfl

/-- **A call makes its writes one after the other.** What it has made and what it has
still to make are together what its function writes. So a call that has replied has made
them all. -/
theorem writes_eq (h : Run (writers q n) ls w) {c : Client} (hc : w.phase c ≠ .failed) :
    q.writes c = some (puts c ls ++ (w.phase c).rest) := by
  induction h with
  | init h0 =>
    obtain ⟨-, hphase⟩ := h0
    rw [hphase c] at hc ⊢
    cases hw : q.writes c with
    | none => exact absurd (by rw [hw]; rfl) hc
    | some writes => simp [puts]
  | @step ls w w' l _ hs ih =>
    rw [puts_append]
    -- a step of another call, or one in `check_upload_post`
    have hframe : ∀ {d phase dbs}, w' = ⟨dbs, Function.update w.phase d phase⟩ → puts c [l] = [] →
        (c = d → w.phase c ≠ .failed ∧ phase.rest = (w.phase c).rest) →
        q.writes c = some (puts c ls ++ puts c [l] ++ (w'.phase c).rest) := by
      rintro d phase dbs rfl hputs hd
      rw [hputs, List.append_nil]
      dsimp only at hc ⊢
      by_cases hcd : c = d
      · obtain ⟨hne, hrest⟩ := hd hcd
        rw [hcd, Function.update_self, hrest, ← hcd]
        exact ih hne
      · rw [Function.update_of_ne hcd] at hc ⊢
        exact ih hc
    -- a write moves from what is to be made to what has been made; all other steps
    -- leave both alone
    cases l with
    | put d write rand ok =>
      obtain ⟨rest, content, dbs, hd, -, -, hw'⟩ := hs
      by_cases hcd : c = d
      · subst hcd hw'
        rw [ih (by rw [hd]; nofun), hd]
        dsimp only
        rw [Function.update_self, WriteFn.rest_phase]
        simp [puts, WritePhase.rest]
      · exact hframe hw' (by simp [puts, Ne.symm hcd]) fun heq => absurd heq hcd
    | throw d =>
      obtain ⟨write, rest, -, -, hw'⟩ := hs
      refine hframe hw' rfl ?_
      rintro rfl
      exact absurd (by rw [hw']; exact Function.update_self ..) hc
    | getCount d next =>
      obtain ⟨buf, hd, -, -, hw'⟩ := hs
      refine hframe hw' rfl ?_
      rintro rfl
      rw [hd]
      exact ⟨nofun, by rcases next with _ | _ | _ <;> rfl⟩
    | setCount d rand ok =>
      obtain ⟨content, version, dbs, hd, -, hw'⟩ := hs
      refine hframe hw' rfl ?_
      rintro rfl
      rw [hd]
      exact ⟨nofun, by cases ok <;> rfl⟩
    | other e =>
      obtain ⟨dbs, -, rfl⟩ := hs
      have hputs : puts c [WriteLabel.other (n := n) e] = [] := rfl
      rw [hputs, List.append_nil]
      exact ih hc

/-- **The "ok"s are true** exactly when the calls that have replied found their keys
free and were given strings. This is for every run, with any other steps on the
databases in between, and for each of the functions; the condition is on the state
before each write.

A call that has replied has put all of its writes, in order (`writes_eq`). Such a
`DBSet` has version 0, so it succeeds where the key is free and nowhere else
(`put_ok_iff`). -/
theorem replies_written_iff (h : Run (writers q n) ls w) :
    (∀ c, w.phase c = .replied → Written q ls c) ↔
      ∀ c, w.phase c = .replied → FreeWrites q ls c := by
  refine forall₂_congr fun c hc => ?_
  -- a function that has replied has put all of its writes
  have hwrites : q.writes c = some (puts c ls) := by
    rw [writes_eq h (by rw [hc]; nofun), hc]
    simp [WritePhase.rest]
  constructor
  · rintro ⟨-, hall⟩ write rand ok w₀ w₁ hput
    obtain ⟨hok, s, hgiven, -⟩ := hall write rand ok w₀ w₁ hput
    obtain ⟨before, -, hr, hs⟩ := hput
    exact ⟨(put_ok_iff hr hs).1 hok, Option.isSome_iff_exists.2 ⟨s, hgiven⟩⟩
  · intro hfree
    refine ⟨hwrites, fun write rand ok w₀ w₁ hput => ?_⟩
    obtain ⟨hkey, hgiven⟩ := hfree write rand ok w₀ w₁ hput
    obtain ⟨s, hgiven⟩ := Option.isSome_iff_exists.1 hgiven
    obtain ⟨before, -, hr, hs⟩ := hput
    obtain rfl := (put_ok_iff hr hs).2 hkey
    exact ⟨rfl, s, hgiven, read_put hr hs hgiven⟩

/-! ### Registering a name -/

/-- The values of JSON without fractions; `none` is `undefined`. -/
def exampleValues : JsValues where
  Val := Option Json.Value
  parse s := match Json.parse s with
    | some .null | none => none
    | some v => some (some v)
  field name v := v.bind (Json.Value.field (lit name))
  string
    | some (.str s) => if h : s.length ≤ kMaxLength then some ⟨s, h⟩ else none
    | _ => none
  uint32
    | some (.num k) => UInt32.ofInt k
    | some (.bool b) => if b then 1 else 0
    | _ => 0
  str2ab
    | none | some .null | some (.arr (_ :: _)) => none
    | _ => some []

/-- Two calls of `user_register` for the name `ann`, with the ids `1` and `2`. -/
def annTwice : Writers Bool where
  platform := asciiPlatform
  values := exampleValues
  function _ := .userRegister
  reqId _ := []
  args c := ⟨Json.stringify (.obj [(lit "user_id", .str (if c then lit "1" else lit "2")),
    (lit "username", .str (lit "ann"))]), by cases c <;> decide +kernel⟩

/-- The write of each. -/
def annWrite (c : Bool) : Write :=
  .ofString "user_mention_service.js" 3
    ⟨if c then lit "1" else lit "2", by cases c <;> decide +kernel⟩

/-- Each has one write to make. -/
theorem annTwice_writes (c : Bool) : annTwice.writes c = some [annWrite c] := by
  have hparse : exampleValues.parse (annTwice.args c).1 = some (some (.obj
      [(lit "user_id", .str (if c then lit "1" else lit "2")),
        (lit "username", .str (lit "ann"))])) := by
    simp only [exampleValues, annTwice, Json.parse_stringify]
  show (exampleValues.parse (annTwice.args c).1).map _ = _
  rw [hparse]
  cases c <;> rfl

/-- A write of the last of a call's values, to a database with the entries `m`. -/
theorem exists_put {m : Store} (hm : Holds w.dbs m) {c : Client} {write : Write}
    (hphase : w.phase c = .writing [write]) {s : JsString} (hgiven : s ∈ write.given)
    (hn : (w.dbs write.name).isSome) (rand : UInt32) : ∃ w',
      (writers q n).step w (.put c write rand
        (accepts Block.token m (putOf write.name write.key (str2ab s.1) 0 rand))) w' ∧
      w'.phase c = (q.function c).phase [] ∧ (∀ d, d ≠ c → w'.phase d = w.phase d) ∧
      Holds w'.dbs (put Block.token m (putOf write.name write.key (str2ab s.1) 0 rand)).2 ∧
      ∀ name, (w'.dbs name).isSome = (w.dbs name).isSome := by
  obtain ⟨dbs, hset, hm', hsome⟩ := hm.dbSet hn write.key (str2ab s.1) 0 rand
  exact ⟨_, ⟨[], _, dbs, hphase, write.buffer_eq s hgiven, hset, rfl⟩, Function.update_self _ _ _,
    fun d hd => Function.update_of_ne hd _ _, hm', hsome⟩

/-- The first call: the name is free, and gets the token 5. -/
theorem annTwice_first : ∃ w, Run (writers annTwice 1)
      [.other (.registerService 0 "user_mention_service.js"), .put true (annWrite true) 5 true] w ∧
    w.phase true = .replied ∧ w.phase false = .writing [annWrite false] ∧
    (w.dbs "user_mention_service.js").isSome ∧
    ∃ m b, Holds w.dbs m ∧ m ("user_mention_service.js", 3) = some b ∧ b.token = 5 := by
  let w₀ : WriteWorld Bool :=
    ⟨fun _ => none, fun c => (annTwice.writes c).elim .failed (annTwice.function c).phase⟩
  let w₁ : WriteWorld Bool := ⟨createDb w₀.dbs "user_mention_service.js", w₀.phase⟩
  -- the database is created, and then the first of the two users is registered
  have hrun : Run (writers annTwice 1) [.other (.registerService 0 "user_mention_service.js")] w₁ :=
    (Run.init (S := writers annTwice 1) (s := w₀) ⟨rfl, fun _ => rfl⟩).step ⟨_, rfl, rfl⟩
  have hphase : ∀ c, w₁.phase c = .writing [annWrite c] := by
    intro c
    show (annTwice.writes c).elim _ _ = _
    rw [annTwice_writes]
    rfl
  have hm : Holds w₁.dbs fun _ => none := by
    have hnone : Holds w₀.dbs fun _ => none := nofun
    simpa only [ite_self] using hnone.createDb "user_mention_service.js"
  obtain ⟨w, hs, hself, hother, hm', hsome⟩ :=
    exists_put (n := 1) (q := annTwice) hm (hphase true) rfl rfl 5
  exact ⟨w, hrun.step hs, hself, (hother false (by decide)).trans (hphase false),
    (hsome _).trans rfl, _, _, hm', put_snd_self rfl, token_newBlock 5 _⟩

/-- The first call alone. -/
theorem replies_written_ann : ∃ w : WriteWorld Bool, w.phase true = .replied ∧
    ∀ c, w.phase c = .replied → Written (n := 1) annTwice
      [.other (.registerService 0 "user_mention_service.js"), .put true (annWrite true) 5 true]
      c := by
  obtain ⟨w, hrun, hreplied, -⟩ := annTwice_first
  refine ⟨w, hreplied, (replies_written_iff hrun).2 ?_⟩
  rintro c - write rand ok w₀ w₁ ⟨before, hp, hr, hs⟩
  have hmem := hp.subset (List.mem_append_right before List.mem_cons_self)
  simp only [List.mem_cons, List.not_mem_nil, or_false, reduceCtorEq, false_or,
    WriteLabel.put.injEq] at hmem
  obtain ⟨rfl, rfl, rfl, rfl⟩ := hmem
  exact ⟨(put_ok_iff hr hs).1 rfl, rfl⟩

/-- **The second `user_register` of a name** replies "ok" and stores nothing. -/
theorem replies_unwritten : ¬∀ (q : Writers Bool) (ls : List (WriteLabel Bool 1))
    (w : WriteWorld Bool), Run (writers q 1) ls w → ∀ c, w.phase c = .replied →
      Written q ls c := by
  intro hall
  obtain ⟨w, hrun, -, hphase, hn, m, b, hm, hb, htoken⟩ := annTwice_first
  obtain ⟨w', hs, hreplied, -⟩ := exists_put (n := 1) (q := annTwice) hm hphase rfl hn 6
  obtain ⟨hok, -⟩ := (hall annTwice _ w' (hrun.step hs) false hreplied).2 _ _ _ w w'
    ⟨_, List.prefix_refl _, hrun, hs⟩
  -- the entry holds the token of the first call
  have hne : b.token ≠ 0 := by
    rw [htoken]
    decide
  rw [accepts_eq_false_iff.2 ⟨b, hb, hne⟩] at hok
  cases hok

end Nanoservices
