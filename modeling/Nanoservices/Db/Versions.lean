import Nanoservices.Library.System
import Nanoservices.Db.Bindings
import Nanoservices.Services.Buffer

/-!
# What the version check protects

Clients read keys with `DBGet` and write them with `DBSet`, in any order. A client
that read a key names the version it found, and 0 when it found none, as every service
does. `NoLostUpdate` says what a service relies on: when such a `DBSet` is answered
`"ok"`, no other client's `DBSet` of the key was answered `"ok"` since the read.

The check compares tokens, and tokens are whatever `rand()` returns, so a token may come
back, and 0 may be drawn although it stands for an absent key. `Stale ls c k v` says
that client `c` read version `v` of `k` and that another client committed `k` since. A
commit that draws a token that is stale for some client lets that client's next
`DBSet` through; without such commits no stale client ever holds the stored token
(`Run.stale_token`), and that is all the property needs. `noLostUpdate_iff_freshTokens`
is the equivalence, `lost_update` a run that loses an update.
-/

namespace Nanoservices

open Lts Versioned

/-- A step of a client. A `DBGet` records the buffer it returned; a `DBSet` records the
value it drew from `rand()`, whether it was answered `"ok"`, and in `old` the buffer a
`DBGet` would have returned in its place. -/
inductive DbEvent (Client : Type)
  | get (c : Client) (name : String) (key : UInt32) (buf : List UInt8)
  | set (c : Client) (name : String) (key : UInt32) (content : List UInt8)
      (version rand : UInt32) (ok : Bool) (old : List UInt8)

variable {Client : Type}

/-- The clients of the store. Every database is empty in the beginning. Each `DBGet` and
`DBSet` is one step, in any order among the clients. -/
def dbClients (Client : Type) : System DbMap (DbEvent Client) where
  init dbs := ∀ name db, dbs name = some db → ∃ size, 0 < size ∧ db = Hashtable.init size
  step dbs
    | .get _ name key buf, dbs' => dbGet dbs name key = some buf ∧ dbs' = dbs
    | .set _ name key content version rand ok old, dbs' =>
      dbGet dbs name key = some old ∧
        dbSet dbs name key content version rand = some (ok, dbs')

/-- The version a service names after reading `buf`: 0 when it found nothing, and
otherwise the token in front. -/
def versionRead (buf : List UInt8) : Option UInt32 := if buf = [] then some 0 else abversion buf

/-- `e` is a `DBSet` of the key by `c`, answered `"ok"`, that drew `r`. -/
def DbEvent.Commits (e : DbEvent Client) (c : Client) (name : String) (key r : UInt32) : Prop :=
  ∃ content version old, e = .set c name key content version r true old

/-- **No lost update**: a `DBSet` that names the version its client read and is answered
`"ok"` has no commit of another client between the read and itself, and without any commit
between it overwrites what was read. -/
def NoLostUpdate (ls : List (DbEvent Client)) : Prop :=
  ∀ before c name key buf between content version rand old after,
    ls = before ++ .get c name key buf :: between ++
      .set c name key content version rand true old :: after →
    versionRead buf = some version →
    (∀ e ∈ between, ∀ d r, e.Commits d name key r → d = c) ∧
      ((∀ e ∈ between, ∀ d r, ¬ e.Commits d name key r) → old = buf)

/-- Client `c` read version `v` of the key, and another client has committed it since. -/
def Stale (ls : List (DbEvent Client)) (c : Client) (name : String) (key v : UInt32) : Prop :=
  ∃ before buf after, ls = before ++ .get c name key buf :: after ∧ versionRead buf = some v ∧
    ∃ e ∈ after, ∃ d r, e.Commits d name key r ∧ d ≠ c

/-- No commit of the run draws a token that is stale, itself counted, for some client.
Tokens need not all be different: one may come back when no client holds it. -/
def FreshTokens (ls : List (DbEvent Client)) : Prop :=
  ∀ before e after, ls = before ++ e :: after →
    ∀ d name key r, e.Commits d name key r → ∀ c, ¬ Stale (before ++ [e]) c name key r

/-- So it is with each part of the run from its beginning. -/
theorem FreshTokens.of_initial {ls ls' : List (DbEvent Client)} (h : FreshTokens ls)
    (hp : ls' <+: ls) : FreshTokens ls' := by
  obtain ⟨tail, rfl⟩ := hp
  intro before e after hls
  exact h before e (after ++ tail) (by rw [hls]; simp)

/-! ### One step -/

variable {ls : List (DbEvent Client)} {dbs dbs' : DbMap} {m : Store} {e : DbEvent Client}

/-- **What a step does to the store.** A commit puts a block with the token it drew
under its key, provided the key held no other token than the one it names; all other
keys keep their block, and without a commit all keys do. -/
theorem dbClients_step (h : Holds dbs m) (hs : (dbClients Client).step dbs e dbs') :
    ∃ m', Holds dbs' m' ∧
      (∀ d name key r, e.Commits d name key r → ∃ b, m' (name, key) = some b ∧ b.token = r) ∧
      (∀ name key, (∀ d r, ¬ e.Commits d name key r) → m' (name, key) = m (name, key)) ∧
      ∀ name, (dbs' name).isSome = (dbs name).isSome := by
  cases e with
  | get c name key buf =>
    obtain ⟨-, rfl⟩ := hs
    exact ⟨m, h, fun d name key r hc => by simp [DbEvent.Commits] at hc, fun _ _ _ => rfl,
      fun _ => rfl⟩
  | set c name key content version rand ok old =>
    obtain ⟨-, hset⟩ := hs
    obtain ⟨hok, hholds, hsome⟩ := h.of_dbSet hset
    refine ⟨_, hholds, ?_, ?_, hsome⟩
    · rintro d name' key' r ⟨content', version', old', heq⟩
      cases heq
      exact ⟨newBlock rand content, put_snd_self hok.symm, token_newBlock rand content⟩
    · intro name' key' hno
      -- the key of a `DBSet` that was refused keeps its block
      by_cases hk : (name', key') = (name, key)
      · cases hk
        cases ok with
        | true => exact absurd ⟨content, version, old, rfl⟩ (hno c rand)
        | false => rw [put_of_not_accepts hok.symm]
      · exact put_snd_of_ne hk

/-- A commit finds its key absent or holding the token it names; the version check is
nothing else. -/
theorem dbClients_commit (h : Holds dbs m) {c : Client} {name : String} {key : UInt32}
    {content : List UInt8} {version rand : UInt32} {old : List UInt8}
    (hs : (dbClients Client).step dbs (.set c name key content version rand true old) dbs') :
    ∀ b, m (name, key) = some b → b.token = version := by
  obtain ⟨-, hset⟩ := hs
  have hacc := (h.of_dbSet hset).1
  intro b hb
  by_contra hne
  have hrefused : accepts Block.token m (putOf name key content version rand) = false :=
    accepts_eq_false_iff.mpr ⟨b, hb, hne⟩
  rw [← hacc] at hrefused
  cases hrefused

/-! ### Runs -/

/-- Every reached state holds some store, so that the specifications of the bindings
apply. -/
theorem dbClients_holds (h : Run (dbClients Client) ls dbs) : ∃ m, Holds dbs m := by
  refine h.invariant (I := fun _ dbs => ∃ m, Holds dbs m) ?_ ?_
  · intro dbs hinit
    refine ⟨fun _ => none, fun name db hdb => ?_⟩
    obtain ⟨size, hsize, rfl⟩ := hinit name db hdb
    exact Hashtable.represents_init hsize
  · rintro ls dbs e dbs' - ⟨m, hm⟩ hs
    obtain ⟨m', hm', -⟩ := dbClients_step hm hs
    exact ⟨m', hm'⟩

/-- A client that is stale after a step either was before, or the step is a commit of
its key. Reading again does not make it stale. -/
theorem Stale.of_append {c : Client} {name : String} {key v : UInt32}
    (h : Stale (ls ++ [e]) c name key v) :
    (∃ d r, e.Commits d name key r) ∨ Stale ls c name key v := by
  obtain ⟨before, buf, after, hls, hv, e', he', d, r, hc, hd⟩ := h
  -- the last step commits, or the token has been stale before
  rcases List.eq_nil_or_concat after with rfl | ⟨init, last, rfl⟩
  · simp at he'
  · rw [List.concat_eq_append] at hls he'
    have heq : ls ++ [e] = (before ++ .get c name key buf :: init) ++ [last] := by
      rw [hls]
      simp
    obtain ⟨hls', hlast⟩ := List.append_inj' heq rfl
    cases hlast
    rcases List.mem_append.mp he' with hmem | hmem
    · exact .inr ⟨before, buf, init, hls', hv, e', hmem, d, r, hc, hd⟩
    · cases List.mem_singleton.mp hmem
      exact .inl ⟨d, r, hc⟩

/-- **No stale client holds the stored token** after commits of fresh tokens only. By
induction on the run: a commit of the key leaves its own token, which is not the stale
one; any other step leaves the token of the key and who is stale for it. -/
theorem stale_token (h : Run (dbClients Client) ls dbs) (hf : FreshTokens ls) :
    ∃ m, Holds dbs m ∧ ∀ c name key v, Stale ls c name key v →
      ∃ b, m (name, key) = some b ∧ b.token ≠ v := by
  induction h with
  | init h0 =>
    obtain ⟨m, hm⟩ := dbClients_holds (.init h0)
    refine ⟨m, hm, ?_⟩
    rintro c name key v ⟨before, buf, after, hls, -⟩
    simp at hls
  | @step ls dbs dbs' e hr hs ih =>
    obtain ⟨m, hm, hinv⟩ := ih (hf.of_initial (List.prefix_append ls [e]))
    obtain ⟨m', hm', hcommit, hframe, -⟩ := dbClients_step hm hs
    refine ⟨m', hm', ?_⟩
    intro c name key v hstale
    by_cases hc : ∃ d r, e.Commits d name key r
    · -- the token just drawn is not `v`: `c` is stale for `v`
      obtain ⟨d, r, hc⟩ := hc
      obtain ⟨b, hb, rfl⟩ := hcommit d name key r hc
      refine ⟨b, hb, ?_⟩
      rintro rfl
      exact hf ls e [] rfl d name key _ hc c hstale
    -- no commit of the key: the client was stale before, and the block is the same
    · obtain ⟨b, hb, hne⟩ := hinv c name key v (hstale.of_append.resolve_left hc)
      have hno : ∀ d r, ¬ e.Commits d name key r := fun d r hdr => hc ⟨d, r, hdr⟩
      exact ⟨b, by rw [hframe name key hno, hb], hne⟩

/-- A buffer read stays what a `DBGet` returns until the key is committed. By induction
on the run. -/
theorem read_unchanged (h : Run (dbClients Client) ls dbs) {before after : List (DbEvent Client)}
    {c : Client} {name : String} {key : UInt32} {buf : List UInt8}
    (hls : ls = before ++ .get c name key buf :: after)
    (hno : ∀ e ∈ after, ∀ d r, ¬ e.Commits d name key r) : dbGet dbs name key = some buf := by
  induction h generalizing after with
  | init h0 => simp at hls
  | @step ls dbs dbs' e hr hs ih =>
    rcases List.eq_nil_or_concat after with rfl | ⟨init, last, rfl⟩
    -- the read itself is the last step
    · obtain ⟨-, hlast⟩ := List.append_inj' hls rfl
      cases hlast
      obtain ⟨hget, rfl⟩ := hs
      exact hget
    -- a later step, which does not commit the key
    · rw [List.concat_eq_append] at hls hno
      have heq : ls ++ [e] = (before ++ .get c name key buf :: init) ++ [last] := by
        rw [hls]
        simp
      obtain ⟨hls', hlast⟩ := List.append_inj' heq rfl
      cases hlast
      have hget := ih hls' fun e' he' => hno e' (List.mem_append_left _ he')
      obtain ⟨m, hm⟩ := dbClients_holds hr
      obtain ⟨m', hm', -, hframe, hsome⟩ := dbClients_step hm hs
      have hn := isSome_of_dbGet hget
      rw [hm.dbGet hn] at hget
      rw [hm'.dbGet ((hsome name).trans hn), hframe name key (hno e (by simp)), hget]

/-! ### The equivalence -/

/-- **Fresh tokens exclude lost updates.** The `DBSet` in question names the version
that its client read. Had another client committed since, the client would be stale for
it, and the stored token another one (`stale_token`); so the `DBSet` would have been
refused. -/
theorem FreshTokens.noLostUpdate (h : Run (dbClients Client) ls dbs)
    (hf : FreshTokens ls.dropLast) : NoLostUpdate ls := by
  induction h with
  | init h0 =>
    rintro before c name key buf between content version rand old after hls
    simp at hls
  | @step ls dbs dbs' e hr hs ih =>
    rw [List.dropLast_concat] at hf
    rintro before c name key buf between content version rand old after hls hv
    rcases List.eq_nil_or_concat after with rfl | ⟨init, last, rfl⟩
    · -- the `DBSet` is the last step
      have heq : ls ++ [e] = (before ++ .get c name key buf :: between) ++
          [.set c name key content version rand true old] := by
        simp [hls]
      obtain ⟨hls', hlast⟩ := List.append_inj' heq rfl
      cases hlast
      refine ⟨?_, fun hno => ?_⟩
      · intro e' he' d r hc
        -- another client's commit in between makes the token read a stale one, which is
        -- not in the store
        by_contra hd
        obtain ⟨m, hm, hinv⟩ := stale_token hr hf
        obtain ⟨b, hb, hne⟩ := hinv c name key version
          ⟨before, buf, between, hls', hv, e', he', d, r, hc, hd⟩
        exact hne (dbClients_commit hm hs b hb)
      · have hread := read_unchanged hr hls' hno
        exact Option.some.inj (hs.1.symm.trans hread)
    · -- it is an earlier one
      rw [List.concat_eq_append] at hls
      have heq : ls ++ [e] = (before ++ .get c name key buf :: between ++
          .set c name key content version rand true old :: init) ++ [last] := by
        simp [hls]
      obtain ⟨hls', -⟩ := List.append_inj' heq rfl
      exact ih (hf.of_initial (List.dropLast_prefix ls)) before c name key buf between content
        version rand old init hls' hv

/-- The database a committed key belongs to exists, and the key holds the token drawn,
right after the commit. -/
theorem commit_stored (h : Run (dbClients Client) (ls ++ [e]) dbs) {d : Client} {name : String}
    {key r : UInt32} (hc : e.Commits d name key r) :
    ∃ m, Holds dbs m ∧ (dbs name).isSome ∧ ∃ b, m (name, key) = some b ∧ b.token = r := by
  obtain ⟨dbs₀, hr, hs⟩ := h.of_append
  obtain ⟨m, hm⟩ := dbClients_holds hr
  obtain ⟨m', hm', hcommit, -, hsome⟩ := dbClients_step hm hs
  refine ⟨m', hm', ?_, hcommit d name key r hc⟩
  obtain ⟨content, version, old, rfl⟩ := hc
  rw [hsome]
  exact isSome_of_dbSet hs.2

/-- **A stale token is a lost update waiting to happen**: the client it is stale for
commits next, names the version it read, and is let through. -/
theorem not_noLostUpdate_of_stale (h : Run (dbClients Client) (ls ++ [e]) dbs) {c d : Client}
    {name : String} {key r : UInt32} (hc : e.Commits d name key r)
    (hstale : Stale (ls ++ [e]) c name key r) :
    ∃ e' dbs', Run (dbClients Client) (ls ++ [e] ++ [e']) dbs' ∧
      ¬ NoLostUpdate (ls ++ [e] ++ [e']) := by
  -- the stale token stands in the store again, so a write with it succeeds
  obtain ⟨m, hm, hn, b, hb, hbr⟩ := commit_stored h hc
  obtain ⟨before, buf, after, hls, hv, e', he', d', r', hc', hd'⟩ := hstale
  obtain ⟨dbs', hset, -⟩ := hm.dbSet hn key [] r 0
  have hacc : accepts Block.token m (putOf name key [] r 0) = true := by
    simp [accepts, putOf, hb, hbr]
  rw [hacc] at hset
  refine ⟨.set c name key [] r 0 true _, dbs', h.step ⟨hm.dbGet hn key, hset⟩, fun hno => ?_⟩
  obtain ⟨hother, -⟩ := hno before c name key buf after [] r 0 _ [] (by rw [hls]) hv
  exact hd' (hother e' he' d' r' hc')

/-- **The condition for optimistic versions.** A run and each of its continuations by
one more step are free of lost updates exactly when no commit of the run draws a token
that is stale for some client.

One step more is needed, since a stale token is harmless until its client writes. Runs
and tokens are arbitrary, and so is the number of clients. -/
theorem noLostUpdate_iff_freshTokens (h : Run (dbClients Client) ls dbs) :
    (∀ ls' dbs', Run (dbClients Client) ls' dbs' → ls'.dropLast <+: ls → NoLostUpdate ls') ↔
      FreshTokens ls := by
  constructor
  · intro hno before e after hls d name key r hc c hstale
    have hprefix : before ++ [e] <+: ls := ⟨after, by rw [hls]; simp⟩
    obtain ⟨dbs₁, hr⟩ := h.of_initial hprefix
    obtain ⟨e', dbs', hr', hlost⟩ := not_noLostUpdate_of_stale hr hc hstale
    exact hlost (hno _ dbs' hr' (by rwa [List.dropLast_concat]))
  · intro hf ls' dbs' hr hp
    exact (hf.of_initial hp).noLostUpdate hr

/-! ### A lost update -/

/-- A single database with no entries. -/
def oneDb : DbMap := createDb (fun _ => none) "kv"

/-- Its state after a client created the entry of key 7 while `rand()` returned 0. -/
def oneDbCreated : DbMap := ((dbSet oneDb "kv" 7 [65, 0] 0 0).get rfl).2

/-- Both clients find the key absent. The second creates it while `rand()` returns 0;
the first then overwrites what the second wrote. -/
def lostRun : List (DbEvent Bool) :=
  [.get false "kv" 7 [], .get true "kv" 7 [], .set true "kv" 7 [65, 0] 0 0 true [],
    .set false "kv" 7 [66, 0] 0 5 true [0, 0, 0, 0, 65, 0]]

/-- It is empty. -/
theorem oneDb_init : (dbClients Client).init oneDb := by
  intro name db hdb
  refine ⟨1000000, by decide, ?_⟩
  by_cases hn : name = "kv"
  · subst hn
    simpa [oneDb, createDb, eq_comm] using hdb
  · simp [oneDb, createDb, hn] at hdb

/-- The four steps are a run. -/
theorem lostRun_run : ∃ dbs, Run (dbClients Bool) lostRun dbs := by
  have hread : ∀ c, (dbClients Bool).step oneDb (.get c "kv" 7 []) oneDb := fun _ => ⟨rfl, rfl⟩
  have hcreate : (dbClients Bool).step oneDb (.set true "kv" 7 [65, 0] 0 0 true [])
      oneDbCreated := ⟨rfl, rfl⟩
  have hwrite : (dbClients Bool).step oneDbCreated
      (.set false "kv" 7 [66, 0] 0 5 true [0, 0, 0, 0, 65, 0])
      ((dbSet oneDbCreated "kv" 7 [66, 0] 0 5).get rfl).2 := ⟨rfl, rfl⟩
  exact ⟨_, ((((Run.init oneDb_init).step (hread false)).step (hread true)).step hcreate).step
    hwrite⟩

/-- The condition fails on this run: the third step draws the version both clients read.
-/
theorem lostRun_not_freshTokens : ¬ FreshTokens lostRun := fun h =>
  h (lostRun.take 2) _ _ rfl true "kv" 7 0 ⟨[65, 0], 0, [], rfl⟩ false
    ⟨[], [], [.get true "kv" 7 [], .set true "kv" 7 [65, 0] 0 0 true []], rfl, rfl, _,
      List.mem_cons_of_mem _ List.mem_cons_self, true, 0, ⟨[65, 0], 0, [], rfl⟩, by decide⟩

/-- The equivalence at this run: some continuation of a prefix of it loses an update. -/
theorem noLostUpdate_iff_freshTokens_lostRun :
    ¬ ∀ ls' dbs', Run (dbClients Bool) ls' dbs' → ls'.dropLast <+: lostRun → NoLostUpdate ls' := by
  obtain ⟨dbs, h⟩ := lostRun_run
  exact fun hall => lostRun_not_freshTokens ((noLostUpdate_iff_freshTokens h).mp hall)

/-- **An update is lost** when `rand()` draws the version that stands for an absent key.
-/
theorem lost_update : (∃ dbs, Run (dbClients Bool) lostRun dbs) ∧ ¬ NoLostUpdate lostRun := by
  refine ⟨lostRun_run, fun h => ?_⟩
  obtain ⟨hother, -⟩ := h [] false _ 7 [] [.get true _ 7 [], .set true _ 7 [65, 0] 0 0 true []]
    [66, 0] 0 5 [0, 0, 0, 0, 65, 0] [] rfl rfl
  exact absurd (hother _ (by simp) true 0 ⟨[65, 0], 0, [], rfl⟩) (by decide)

end Nanoservices
