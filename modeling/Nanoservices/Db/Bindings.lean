import Nanoservices.Db.Refinement
import Nanoservices.Library.Utf16

/-!
# The databases and their bindings

`db_map` names the databases; `DBGet` and `DBSet` (`req_server.cc`) are what the
services see of them. A stored block is the token `rand()` drew for it, followed by the
bytes of the buffer the service passed.

The values `rand()` returns are arguments here. A function returns `none` where
the source dereferences the null pointer `get_db` gives for an unknown name.

`Holds dbs m` lifts the refinement of a single table to all databases: `m` maps a
name and a 32-bit key to a block. `Holds.dbGet` and `Holds.dbSet` specify the two
bindings; nothing below needs the tables again.
-/

namespace Nanoservices

open Versioned Hashtable

/-- `db_map`: the databases by name, `none` where there is none of that name. -/
abbrev DbMap := String → Option Hashtable

/-- `create_db`: a new database replaces the one of that name, with a million empty
buckets. -/
def createDb (dbs : DbMap) (name : String) : DbMap :=
  Function.update dbs name (some (Hashtable.init 1000000))

/-- The block `db_set` builds: the token, then the content. Its `length` is a 32-bit
number, so of a content of 4 GiB or more it names a part only. -/
def newBlock (rand : UInt32) (content : List UInt8) : Block where
  bytes := writeInt rand ++ content
  length := UInt32.ofNat (content.length + 4)
  token_inside := by simp
  length_inside := by
    rw [UInt32.toNat_ofNat']
    have hle := Nat.mod_le (content.length + 4) (2 ^ 32)
    simp only [List.length_append, length_writeInt]
    omega

/-- The token of the block is the one drawn. -/
@[simp] theorem token_newBlock (rand : UInt32) (content : List UInt8) :
    (newBlock rand content).token = rand := readInt_writeInt rand content

/-- What `ht_get` copies out of a block that is not too long for its `length`: all of
it. -/
theorem copy_newBlock (rand : UInt32) {content : List UInt8}
    (h : content.length + 4 < 2 ^ 32) :
    (newBlock rand content).copy = writeInt rand ++ content := by
  rw [Block.copy, newBlock, UInt32.toNat_ofNat', Nat.mod_eq_of_lt h]
  exact List.take_of_length_le (by rw [List.length_append, length_writeInt, Nat.add_comm])

/-- `db_get`: the buffer it returns, empty when the key is absent. A present key gives 4
bytes at least, so the two cannot be confused. -/
def dbGet (dbs : DbMap) (name : String) (key : UInt32) : Option (List UInt8) := do
  let db ← dbs name
  let val ← db.htGet key
  some (val.getD [])

/-- `db_set`: whether it returns `"ok"` rather than `"abort"`, and the databases after
it. -/
def dbSet (dbs : DbMap) (name : String) (key : UInt32) (content : List UInt8)
    (version rand : UInt32) : Option (Bool × DbMap) := do
  let db ← dbs name
  let (ok, db) ← db.set key (newBlock rand content) version
  some (ok, Function.update dbs name (some db))

/-- A `DBGet` that returns has found its database. -/
theorem isSome_of_dbGet {dbs : DbMap} {name : String} {key : UInt32} {buf : List UInt8}
    (h : dbGet dbs name key = some buf) : (dbs name).isSome := by
  cases hdb : dbs name with
  | none => simp [dbGet, hdb] at h
  | some _ => rfl

/-- So has a `DBSet`. -/
theorem isSome_of_dbSet {dbs : DbMap} {name : String} {key : UInt32} {content : List UInt8}
    {version rand : UInt32} {r : Bool × DbMap}
    (h : dbSet dbs name key content version rand = some r) : (dbs name).isSome := by
  cases hdb : dbs name with
  | none => simp [dbSet, hdb] at h
  | some _ => rfl

/-- `DBGet` looks at the database named, and at no other. -/
theorem dbGet_congr {dbs dbs' : DbMap} {name : String} (h : dbs name = dbs' name) (key : UInt32) :
    dbGet dbs name key = dbGet dbs' name key := by
  rw [dbGet, dbGet, h]

/-- `DBSet` looks at the database named, and changes no other. -/
theorem dbSet_congr {dbs₁ dbs₂ dbs' : DbMap} {name : String} (h : dbs₁ name = dbs₂ name)
    {key : UInt32} {content : List UInt8} {version rand : UInt32} {ok : Bool}
    (hset : dbSet dbs₁ name key content version rand = some (ok, dbs')) :
    ∃ dbs'', dbSet dbs₂ name key content version rand = some (ok, dbs'') ∧
      dbs' name = dbs'' name := by
  simp only [dbSet, h, Option.bind_eq_bind, Option.bind_eq_some_iff] at hset ⊢
  obtain ⟨db, hdb, ⟨ok', db'⟩, hset, heq⟩ := hset
  obtain ⟨rfl, rfl⟩ := Prod.mk.inj (Option.some.inj heq)
  exact ⟨_, ⟨db, hdb, ⟨ok', db'⟩, hset, rfl⟩, by simp⟩

/-! ### Keys -/

/-- What the bindings use of libraries: the bytes of a `v8::String::Utf8Value`, and
`std::hash<std::string>`. -/
structure Platform where
  utf8 : Utf16.Str → List UInt8
  hash : List UInt8 → ℕ

/-- The 32-bit key of a string: the hash of its bytes up to the first NUL, modulo
`numeric_limits<uint32_t>::max()`. `req_server.cc` makes a `std::string` of the `char*`
that `Utf8Value` gives, and the string ends at the NUL. -/
def keyOf (p : Platform) (k : Utf16.Str) : UInt32 :=
  UInt32.ofNat (p.hash ((p.utf8 k).takeWhile (· ≠ 0)) % 4294967295)

/-! ### The represented store -/

/-- The contents of all databases: a block for each name and key that has one. -/
abbrev Store := String × UInt32 → Option Block

/-- The write a `DBSet` asks for. -/
def putOf (name : String) (key : UInt32) (content : List UInt8) (version rand : UInt32) :
    Put (String × UInt32) UInt32 Block :=
  ⟨(name, key), newBlock rand content, version⟩

/-- Every database is a well-formed table with the entries `m` has under its name. What
`m` has under names without a database does not matter. -/
def Holds (dbs : DbMap) (m : Store) : Prop :=
  ∀ name db, dbs name = some db → db.Represents fun key => m (name, key)

/-- The write of one table among all databases. -/
theorem putOf_eq_rename (name : String) (key : UInt32) (content : List UInt8)
    (version rand : UInt32) :
    putOf name key content version rand =
      (writeOf key (newBlock rand content) version).rename (Prod.mk name) := rfl

variable {dbs : DbMap} {m : Store}

/-- Creating a database drops what it held, and nothing else. -/
theorem Holds.createDb (h : Holds dbs m) (name : String) :
    Holds (createDb dbs name) fun k => if k.1 = name then none else m k := by
  intro name' db hdb
  by_cases hn : name' = name
  · subst hn
    rw [Nanoservices.createDb, Function.update_self] at hdb
    cases hdb
    simpa using represents_init (by decide : (0 : UInt32) < 1000000)
  · rw [Nanoservices.createDb, Function.update_of_ne hn] at hdb
    simpa [hn] using h name' db hdb

/-- **`DBGet`** returns the copy of the stored block, or an empty buffer. -/
theorem Holds.dbGet (h : Holds dbs m) {name : String} (hn : (dbs name).isSome) (key : UInt32) :
    dbGet dbs name key = some (((m (name, key)).map Block.copy).getD []) := by
  obtain ⟨db, hdb⟩ := Option.isSome_iff_exists.mp hn
  simp [Nanoservices.dbGet, hdb, (h name db hdb).htGet key]

/-- **`DBSet`** is a write of the versioned store, and creates no database. The write of
one table becomes one of the whole store by `put_rename`. -/
theorem Holds.dbSet (h : Holds dbs m) {name : String} (hn : (dbs name).isSome) (key : UInt32)
    (content : List UInt8) (version rand : UInt32) :
    ∃ dbs', dbSet dbs name key content version rand =
        some (accepts Block.token m (putOf name key content version rand), dbs') ∧
      Holds dbs' (put Block.token m (putOf name key content version rand)).2 ∧
      ∀ name', (dbs' name').isSome = (dbs name').isSome := by
  obtain ⟨db, hdb⟩ := Option.isSome_iff_exists.mp hn
  obtain ⟨db', hset, hrep, -, -⟩ := (h name db hdb).set key (newBlock rand content) version
  have hacc : accepts Block.token (fun key => m (name, key))
      (writeOf key (newBlock rand content) version) =
        accepts Block.token m (putOf name key content version rand) := rfl
  refine ⟨Function.update dbs name (some db'), ?_, ?_, ?_⟩
  · simp [Nanoservices.dbSet, hdb, hset, hacc]
  · intro name' db'' hdb''
    -- the table written represents the store after the write; the others represent what
    -- they did
    by_cases hname : name' = name
    · subst hname
      rw [Function.update_self] at hdb''
      cases hdb''
      have hput : (fun k => (put Block.token m (putOf name' key content version rand)).2 (name', k))
          = (put Block.token (fun k => m (name', k))
              (writeOf key (newBlock rand content) version)).2 := by
        funext k
        rw [putOf_eq_rename, put_rename (Prod.mk_right_injective name')]
      rw [hput]
      exact hrep
    · rw [Function.update_of_ne hname] at hdb''
      have hput : (fun k => (put Block.token m (putOf name key content version rand)).2 (name', k))
          = fun k => m (name', k) := by
        funext k
        exact put_snd_of_ne fun heq => hname (congrArg Prod.fst heq)
      rw [hput]
      exact h name' db'' hdb''
  · intro name'
    by_cases hname : name' = name
    · subst hname
      simp [hn]
    · rw [Function.update_of_ne hname]

/-- What a `DBSet` has done that has returned: the form in which runs use
`Holds.dbSet`. -/
theorem Holds.of_dbSet (h : Holds dbs m) {name : String} {key : UInt32} {content : List UInt8}
    {version rand : UInt32} {ok : Bool} {dbs' : DbMap}
    (hset : Nanoservices.dbSet dbs name key content version rand = some (ok, dbs')) :
    ok = accepts Block.token m (putOf name key content version rand) ∧
      Holds dbs' (put Block.token m (putOf name key content version rand)).2 ∧
      ∀ name', (dbs' name').isSome = (dbs name').isSome := by
  obtain ⟨dbs'', hset', hholds, hsome⟩ :=
    h.dbSet (isSome_of_dbSet hset) key content version rand
  rw [hset, Option.some.injEq, Prod.mk.injEq] at hset'
  obtain ⟨rfl, rfl⟩ := hset'
  exact ⟨rfl, hholds, hsome⟩

end Nanoservices
