import Nanoservices.Db.Creation
import Nanoservices.Services.Buffer

/-!
# Stored strings

The services write strings with `str2ab` and read them with `ab2str` and `abversion`
behind the token `db_set` puts in front; an empty buffer tells them that the key is
absent. The format holds what it promises in every state of the store whose last commit
of the key is still there (`format_iff`): the string and the token come back, a `DBSet`
with that token succeeds, and the buffer is empty exactly when the key has never been
committed.
-/

namespace Nanoservices

open Lts Versioned

variable {n : ℕ} {dbs : DbMap} {ls : List (StoreEvent n)} {name : String} {key : UInt32}

/-- The key was last committed by a `DBSet` of `content` that drew `rand`: it succeeded,
and no `DBSet` of the key has since. -/
def LastCommit (ls : List (StoreEvent n)) (name : String) (key : UInt32) (content : List UInt8)
    (rand : UInt32) : Prop :=
  ∃ before core version between,
    ls = before ++ .set core name key content version rand true :: between ∧
      ∀ e ∈ between, ¬e.Commits name key

/-- **What the services rely on** after the steps `ls`: that a string and its token are
read back, that a `DBSet` with the token succeeds, and that an empty buffer tells them
that the key is absent. -/
structure FormatKept (ls : List (StoreEvent n)) (dbs : DbMap) (name : String) (key : UInt32) :
    Prop where
  /-- A string is read as it was written, and so is its token, which the next `DBSet`
  may use. -/
  read : ∀ s rand, 2 * s.length + 4 < 2 ^ 32 → LastCommit ls name key (str2ab s) rand →
    ∃ buf, dbGet dbs name key = some buf ∧ buf ≠ [] ∧ ab2str buf = some s ∧
      abversion buf = some rand ∧
      ∀ content rand', ∃ dbs', dbSet dbs name key content rand rand' = some (true, dbs')
  /-- An empty buffer says that the key is absent. -/
  empty_iff : dbGet dbs name key = some [] ↔ ∀ e ∈ ls, ¬e.Commits name key

/-- The last commit of the key is still there: no step since then created its database,
and its length is not 0 as a 32-bit number. A service that is registered again, on the
same core or another, creates its database. -/
def CommitKept (ls : List (StoreEvent n)) (name : String) (key : UInt32) : Prop :=
  ∀ before core content version rand between,
    ls = before ++ .set core name key content version rand true :: between →
      (∀ e ∈ between, ¬e.Commits name key) →
        (∀ e ∈ between, e.creates ≠ some name) ∧ (content.length + 4) % 2 ^ 32 ≠ 0

/-- A key that was never committed has no entry. -/
theorem entry_without_commit (h : Run (stores n) ls dbs) (hno : ∀ e ∈ ls, ¬e.Commits name key) :
    ∃ m, Holds dbs m ∧ m (name, key) = none := by
  induction h with
  | init h0 =>
    obtain rfl : _ = _ := h0
    exact ⟨fun _ => none, nofun, rfl⟩
  | @step ls dbs dbs' e _ hs ih =>
    obtain ⟨m, hm, hentry⟩ := ih fun e he => hno e (List.mem_append_left _ he)
    obtain ⟨m', hm', hstep, -⟩ := stores_step hm hs
    refine ⟨m', hm', ?_⟩
    rw [hstep name key (hno e (by simp)), hentry, ite_self]

/-- Steps with a commit of the key have a last one. -/
theorem exists_lastCommit (h : ∃ e ∈ ls, e.Commits name key) :
    ∃ before core content version rand between,
      ls = before ++ .set core name key content version rand true :: between ∧
        ∀ e ∈ between, ¬e.Commits name key := by
  induction ls using List.reverseRecOn with
  | nil =>
    obtain ⟨e, he, -⟩ := h
    cases he
  | append_singleton ls e ih =>
    -- from the end of the run: the last event is the commit, or it stands before it
    by_cases hlast : e.Commits name key
    · obtain ⟨core, content, version, rand, rfl⟩ := hlast
      exact ⟨ls, core, content, version, rand, [], rfl, nofun⟩
    · obtain ⟨e', he', hc⟩ := h
      have hmem : e' ∈ ls := (List.mem_append.1 he').resolve_right fun hmem =>
        hlast (List.mem_singleton.1 hmem ▸ hc)
      obtain ⟨before, core, content, version, rand, between, rfl, hno⟩ := ih ⟨e', hmem, hc⟩
      refine ⟨before, core, content, version, rand, between ++ [e], by simp, fun e' he' => ?_⟩
      rcases List.mem_append.1 he' with he' | he'
      · exact hno e' he'
      · exact List.mem_singleton.1 he' ▸ hlast

/-- What a `DBGet` returns after a commit: nothing once the database has been created,
and otherwise the block. A block whose length is 0 as a 32-bit number is taken for
nothing. -/
theorem dbGet_since_commit {before between : List (StoreEvent n)} {core : Fin n}
    {content : List UInt8} {version rand : UInt32}
    (h : Run (stores n) (before ++ .set core name key content version rand true :: between) dbs)
    (hno : ∀ e ∈ between, ¬e.Commits name key) :
    dbGet dbs name key = some [] ↔
      ¬((∀ e ∈ between, e.creates ≠ some name) ∧ (content.length + 4) % 2 ^ 32 ≠ 0) := by
  obtain ⟨m, hm, hn, hentry⟩ := entry_since_commit h hno
  rw [hm.dbGet hn, hentry]
  -- the database was created again since, which empties it, or not
  by_cases hc : ∃ e ∈ between, e.creates = some name
  · have hany : between.any (·.creates = some name) = true := by simpa using hc
    rw [hany]
    refine iff_of_true rfl fun hkept => ?_
    obtain ⟨e, he, hname⟩ := hc
    exact hkept.1 e he hname
  · have hnone : ∀ e ∈ between, e.creates ≠ some name := fun e he hname => hc ⟨e, he, hname⟩
    have hany : between.any (·.creates = some name) = false := by simpa using hnone
    have hlen : (newBlock rand content).copy.length = (content.length + 4) % 2 ^ 32 := by
      rw [Block.length_copy, newBlock, UInt32.toNat_ofNat']
    rw [hany, ← hlen, ne_eq, List.length_eq_zero_iff, and_iff_right hnone, not_not]
    exact Option.some_inj

/-- **The format of stored strings** works in a state of the store exactly when the last
commit of the key is still there, for every run of the store, any number of cores and
every key.

A commit that is still there is read back as its token and content, which is the format;
one that is lost reads as if there had never been one, which the second part of the
format denies. -/
theorem format_iff (h : Run (stores n) ls dbs) (hdb : (dbs name).isSome) :
    FormatKept ls dbs name key ↔ CommitKept ls name key := by
  constructor
  -- a commit that is lost reads as if there had never been one
  · rintro hformat before core content version rand between rfl hno
    by_contra hlost
    have hnever := hformat.empty_iff.1 ((dbGet_since_commit h hno).2 hlost)
    exact hnever (.set core name key content version rand true) (by simp) ⟨_, _, _, _, rfl⟩
  · intro hkept
    refine ⟨?_, ?_⟩
    -- `read`: the entry is the block of the last commit
    · rintro s rand hlen ⟨before, core, version, between, rfl, hno⟩
      obtain ⟨hnone, -⟩ := hkept _ _ _ _ _ _ rfl hno
      have hany : between.any (·.creates = some name) = false := by simpa using hnone
      obtain ⟨m, hm, -, hentry⟩ := entry_since_commit h hno
      rw [hany] at hentry
      have hcopy := @copy_newBlock rand (str2ab s) (by rwa [length_str2ab])
      refine ⟨writeInt rand ++ str2ab s, ?_, by simp [writeInt], ab2str_writeInt_append rand s,
        abversion_writeInt_append rand _, fun content rand' => ?_⟩
      · rw [hm.dbGet hdb, hentry, ← hcopy]
        rfl
      · obtain ⟨dbs', hset, -⟩ := hm.dbSet hdb key content rand rand'
        have hacc : accepts Block.token m (putOf name key content rand rand') = true := by
          simp [accepts, putOf, hentry]
        rw [hacc] at hset
        exact ⟨dbs', hset⟩
    -- `empty_iff`
    · constructor
      · intro hempty
        by_contra! hcommit
        obtain ⟨before, core, content, version, rand, between, rfl, hno⟩ :=
          exists_lastCommit hcommit
        exact (dbGet_since_commit h hno).1 hempty (hkept _ _ _ _ _ _ rfl hno)
      · intro hnever
        obtain ⟨m, hm, hentry⟩ := entry_without_commit h hnever
        rw [hm.dbGet hdb, hentry]
        rfl

/-- A string that was just written. -/
theorem format_written : FormatKept (n := 2)
    [.registerService 0 "user.js", .set 0 "user.js" 7 [65, 0] 0 5 true] registeredWritten
    "user.js" 7 := by
  refine (format_iff run_registeredWritten rfl).2 ?_
  rintro (_ | ⟨e, _ | ⟨e', before⟩⟩) core content version rand between heq -
  · simp at heq
  · simp only [List.cons_append, List.nil_append, List.cons.injEq, StoreEvent.set.injEq] at heq
    obtain ⟨-, ⟨-, -, -, rfl, -⟩, rfl⟩ := heq
    exact ⟨nofun, by decide⟩
  · simp at heq

/-- The second core registers the service after a write: the key reads as absent. -/
theorem format_lost : ¬∀ (ls : List (StoreEvent 2)) (dbs : DbMap) (name : String) (key : UInt32),
    Run (stores 2) ls dbs → (dbs name).isSome → FormatKept ls dbs name key := by
  intro hall
  have hregister : (stores 2).step registeredWritten (.registerService 1 "user.js")
      (createDb registeredWritten "user.js") := rfl
  have hformat := hall _ _ "user.js" 7 (run_registeredWritten.step hregister) rfl
  exact hformat.empty_iff.1 rfl (.set 0 "user.js" 7 [65, 0] 0 5 true) (by simp)
    ⟨_, _, _, _, rfl⟩

end Nanoservices
