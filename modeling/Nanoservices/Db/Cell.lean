import Nanoservices.Library.Optimistic
import Nanoservices.Db.Bindings

/-!
# Entries as cells

A service that reads a key sees the token of its entry and the bytes behind it, or
nothing. That is the cell of `Optimistic`: `CellAt` says which cell a key of the store
holds, and the lemmas give the results of `DBGet` and `DBSet` of the key in terms of it.
-/

namespace Nanoservices

open Versioned

variable {k : String × UInt32}

/-- An entry as the services see it: its token, and the bytes behind it. They are those
that are copied, which for a block that fits is all of it. -/
def CellAt (m : Store) (k : String × UInt32) : Option (UInt32 × List UInt8) → Prop
  | none => m k = none
  | some (token, content) => ∃ b, m k = some b ∧ b.token = token ∧
      b.copy = writeInt token ++ content

/-- A `DBGet` of the key returns the cell's token and content, or an empty buffer. -/
theorem CellAt.dbGet {dbs : DbMap} {m : Store} {cell : Option (UInt32 × List UInt8)}
    {buf : List UInt8} (h : CellAt m k cell) (hm : Holds dbs m)
    (hget : dbGet dbs k.1 k.2 = some buf) :
    buf = match cell with
      | none => []
      | some (token, content) => writeInt token ++ content := by
  rw [hm.dbGet (isSome_of_dbGet hget)] at hget
  -- no entry gives the empty buffer
  cases cell with
  | none =>
    have hnone : m k = none := h
    simpa [hnone] using hget.symm
  | some e =>
    obtain ⟨b, hb, -, hcopy⟩ := h
    simpa [hb, hcopy] using hget.symm

/-- Whether a `DBSet` of the key succeeds depends on the cell's token only. -/
theorem CellAt.accepts {m : Store} {cell : Option (UInt32 × List UInt8)} (h : CellAt m k cell)
    (content : List UInt8) (version rand : UInt32) :
    accepts Block.token m (putOf k.1 k.2 content version rand) =
      Optimistic.accepts cell version := by
  cases cell with
  | none =>
    have hnone : m k = none := h
    simp [Versioned.accepts, putOf, hnone, Optimistic.accepts]
  | some e =>
    obtain ⟨b, hb, htoken, -⟩ := h
    simp [Versioned.accepts, putOf, hb, Optimistic.accepts, htoken]

/-- A key whose entry has not changed holds the same cell. -/
theorem CellAt.of_eq {m m' : Store} {cell : Option (UInt32 × List UInt8)} (h : CellAt m k cell)
    (heq : m' k = m k) : CellAt m' k cell := by
  cases cell with
  | none => exact heq.trans h
  | some e =>
    obtain ⟨b, hb, hrest⟩ := h
    exact ⟨b, heq.trans hb, hrest⟩

/-- A `DBSet` that succeeds leaves the token it has drawn and its content, if that
fits. -/
theorem cellAt_newBlock {m : Store} {content : List UInt8} {version rand : UInt32}
    (hfits : content.length + 4 < 2 ^ 32)
    (hacc : Versioned.accepts Block.token m (putOf k.1 k.2 content version rand) = true) :
    CellAt (put Block.token m (putOf k.1 k.2 content version rand)).2 k (some (rand, content)) :=
  ⟨newBlock rand content, put_snd_self hacc, token_newBlock rand content,
    copy_newBlock rand hfits⟩

/-- The databases are well formed, and the key's entry has this token and this content.
Unlike `CellAt` it is said of the databases, as hypotheses of results are. -/
def Stored (dbs : DbMap) (k : String × UInt32) (e : Option (UInt32 × List UInt8)) : Prop :=
  (∃ m, Holds dbs m) ∧ ∃ db, dbs k.1 = some db ∧
    db.htGet k.2 = some (e.map fun e => writeInt e.1 ++ e.2)

/-- What is stored is a cell of the store that is held. -/
theorem Stored.cellAt {dbs : DbMap} {e : Option (UInt32 × List UInt8)} (h : Stored dbs k e) :
    ∃ m, Holds dbs m ∧ CellAt m k e ∧ (dbs k.1).isSome := by
  obtain ⟨⟨m, hm⟩, db, hdb, hget⟩ := h
  refine ⟨m, hm, ?_, by rw [hdb]; rfl⟩
  rw [(hm k.1 db hdb).htGet] at hget
  have hcopy := Option.some.inj hget
  cases e with
  | none => exact Option.map_eq_none_iff.mp hcopy
  | some e =>
    obtain ⟨b, hb, hbcopy⟩ := Option.map_eq_some_iff.mp hcopy
    exact ⟨b, hb, Block.token_of_copy hbcopy, hbcopy⟩

/-- And what a `DBGet` returns. -/
theorem Stored.dbGet {dbs : DbMap} {e : Option (UInt32 × List UInt8)} (h : Stored dbs k e) :
    dbGet dbs k.1 k.2 = some ((e.map fun e => writeInt e.1 ++ e.2).getD []) := by
  obtain ⟨-, db, hdb, hget⟩ := h
  rw [Nanoservices.dbGet, hdb, Option.bind_eq_bind, Option.bind_some, hget]
  rfl

/-- A cell of the store is stored, in a database that there is. -/
theorem CellAt.stored {dbs : DbMap} {m : Store} {e : Option (UInt32 × List UInt8)}
    (h : CellAt m k e) (hm : Holds dbs m) (hdb : (dbs k.1).isSome) : Stored dbs k e := by
  obtain ⟨db, hdb⟩ := Option.isSome_iff_exists.mp hdb
  refine ⟨⟨m, hm⟩, db, hdb, ?_⟩
  rw [(hm k.1 db hdb).htGet]
  cases e with
  | none =>
    have hnone : m k = none := h
    simp [hnone]
  | some e =>
    obtain ⟨b, hb, -, hcopy⟩ := h
    simp [hb, hcopy]

end Nanoservices
