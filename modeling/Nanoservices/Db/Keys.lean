import Nanoservices.Db.Creation
import Mathlib.Data.Fintype.Pigeonhole

/-!
# String keys

A string is known to the store by its 32-bit key alone: the table compares keys and
never sees the string. So two strings are independent exactly when their keys differ
(`independent_iff`). There are fewer keys than strings, and some strings share one
(`exists_dependent`); whatever the hash is, those do that only differ after a NUL.
-/

namespace Nanoservices

open Lts Versioned Utf16

variable {n : ℕ} {p : Platform} {k₁ k₂ : Str}

/-- A `DBSet` of `k₂` changes neither what a `DBGet` of `k₁` returns nor how a `DBSet`
of `k₁` is answered, with the version last read or any other. It is asked in every state
that the store gets to, for every write. -/
def Independent (p : Platform) (k₁ k₂ : Str) : Prop :=
  ∀ n dbs, Reachable (stores n) dbs → ∀ name content version rand ok dbs',
    dbSet dbs name (keyOf p k₂) content version rand = some (ok, dbs') →
      dbGet dbs' name (keyOf p k₁) = dbGet dbs name (keyOf p k₁) ∧
        ∀ content' version' rand',
          (dbSet dbs' name (keyOf p k₁) content' version' rand').map Prod.fst =
            (dbSet dbs name (keyOf p k₁) content' version' rand').map Prod.fst

/-- A write of another key leaves what is read of this one, and how a write of it is
answered: its entry is the same. -/
theorem dbSet_of_ne {dbs dbs' : DbMap} {m : Store} (h : Holds dbs m) {name : String}
    {key key' : UInt32} (hne : key' ≠ key) {content : List UInt8} {version rand : UInt32}
    {ok : Bool} (hset : dbSet dbs name key content version rand = some (ok, dbs')) :
    dbGet dbs' name key' = dbGet dbs name key' ∧ ∀ content' version' rand',
      (dbSet dbs' name key' content' version' rand').map Prod.fst =
        (dbSet dbs name key' content' version' rand').map Prod.fst := by
  have hn := isSome_of_dbSet hset
  obtain ⟨-, h', hsome⟩ := h.of_dbSet hset
  have hn' := (hsome name).trans hn
  have hsame : (put Block.token m (putOf name key content version rand)).2 (name, key') =
      m (name, key') := put_snd_of_ne fun heq => hne (Prod.mk.inj heq).2
  refine ⟨by rw [h'.dbGet hn', h.dbGet hn, hsame], fun content' version' rand' => ?_⟩
  obtain ⟨_, hafter, -⟩ := h'.dbSet hn' key' content' version' rand'
  obtain ⟨_, hbefore, -⟩ := h.dbSet hn key' content' version' rand'
  -- both look at the entry of the key
  have hacc : accepts Block.token (put Block.token m (putOf name key content version rand)).2
      (putOf name key' content' version' rand') =
        accepts Block.token m (putOf name key' content' version' rand') :=
    congrArg (Option.all _) hsame
  rw [hafter, hbefore, hacc]
  rfl

/-- One database, without entries, where a write of a key can be seen. -/
def emptyDb : DbMap := createDb (fun _ => none) "kv"

/-- A store gets there by one step. -/
theorem reachable_emptyDb : Reachable (stores 1) emptyDb :=
  (Reachable.of_init rfl).of_step (l := .newDatabase 0 "kv") rfl

/-- It holds nothing. -/
theorem holds_emptyDb : Holds emptyDb fun _ => none := by
  have hnone : Holds (fun _ => none) fun _ => none := fun name db hdb => by cases hdb
  have hcreated := hnone.createDb "kv"
  simp only [ite_self] at hcreated
  exact hcreated

/-- A write that is seen: the same key read again is no longer absent. -/
theorem dbSet_emptyDb (key : UInt32) : ∃ dbs', dbSet emptyDb "kv" key [] 0 0 = some (true, dbs') ∧
    dbGet dbs' "kv" key ≠ dbGet emptyDb "kv" key := by
  have hn : (emptyDb "kv").isSome := rfl
  obtain ⟨dbs', hset, h', hsome⟩ := holds_emptyDb.dbSet hn key [] 0 0
  have hacc : accepts Block.token (fun _ => none) (putOf "kv" key [] 0 0) = true := rfl
  rw [hacc] at hset
  refine ⟨dbs', hset, ?_⟩
  rw [h'.dbGet ((hsome "kv").trans hn), holds_emptyDb.dbGet hn,
    show ("kv", key) = (putOf "kv" key [] 0 0).key from rfl, put_snd_self hacc]
  show some (newBlock 0 []).copy ≠ some []
  decide

/-- **String keys are independent** exactly when their 32-bit keys differ. Strings with
one key are told apart by nothing; that the write of the one is seen by the other shows
in the empty database.

When the keys differ, the store of any reachable databases is a map (`stores_holds`),
and a put of another key leaves the entry alone. -/
theorem independent_iff (p : Platform) (k₁ k₂ : Str) :
    Independent p k₁ k₂ ↔ keyOf p k₁ ≠ keyOf p k₂ := by
  constructor
  · intro hind hkey
    obtain ⟨dbs', hset, hne⟩ := dbSet_emptyDb (keyOf p k₂)
    have hsame := (hind 1 emptyDb reachable_emptyDb "kv" [] 0 0 true dbs' hset).1
    rw [hkey] at hsame
    exact hne hsame
  · rintro hne n dbs ⟨ls, hr⟩ name content version rand ok dbs' hset
    obtain ⟨m, hm⟩ := stores_holds hr
    exact dbSet_of_ne hm hne hset

/-- **There are strings that share a key**, on every platform: the strings are
infinitely many and the keys are not. -/
theorem exists_dependent (p : Platform) : ∃ k₁ k₂, k₁ ≠ k₂ ∧ ¬Independent p k₁ k₂ := by
  obtain ⟨k₁, k₂, hne, hkey⟩ := Finite.exists_ne_map_eq_of_infinite fun k => (keyOf p k).toFin
  exact ⟨k₁, k₂, hne, fun hind => (independent_iff p k₁ k₂).1 hind (UInt32.toFin_inj.1 hkey)⟩

/-- The bytes of a string of ASCII characters. -/
def ascii (s : Str) : List UInt8 := s.map fun c => UInt8.ofNat c.toNat

/-- `"a"` and `"a\0b"` are the same key whatever `std::hash` is, since it is given the
same bytes. -/
theorem nul_dependent :
    ¬∃ hash : List UInt8 → ℕ, Independent ⟨ascii, hash⟩ (lit "a") [97, 0, 98] := by
  rintro ⟨hash, hind⟩
  exact (independent_iff _ _ _).1 hind rfl

end Nanoservices
