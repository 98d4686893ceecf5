import Nanoservices.Library.Chain
import Mathlib.Data.UInt

/-!
# The chained hash table

`database` (`include/db.hh`, `db.cc`) keeps its entries in a table of buckets, each
a chain of `db_val` cells linked by their `next` pointers. The memory of the cells
is part of the model: a `Hashtable` carries the heap, pointers are numbers, and
`malloc` hands out the next unused one.

Both operations hold the table lock for their whole body, so each is one atomic
step. They walk a chain with a `while` loop; the model gives that loop fuel for
one step more than cells were ever allocated and returns `none` when it runs out,
which only a cyclic chain can cause.
-/

namespace Nanoservices

/-- Thomas Wang's integer hash, cut to 30 bits, as `db.cc` has it. All of it is
arithmetic of `uint32_t`. -/
def getHash (key seed : UInt32) : UInt32 :=
  let hash := key ^^^ seed
  let hash := ~~~hash + (hash <<< 15)
  let hash := hash ^^^ (hash >>> 12)
  let hash := hash + (hash <<< 2)
  let hash := hash ^^^ (hash >>> 4)
  let hash := hash * 2057
  let hash := hash ^^^ (hash >>> 16)
  hash &&& 0x3fffffff

/-! ### Data blocks -/

/-- The 32-bit integer stored, least significant byte first, at the start of a byte
sequence. -/
def readInt : List UInt8 → UInt32
  | b₀ :: b₁ :: b₂ :: b₃ :: _ =>
    UInt32.ofNat (b₀.toNat + 256 * b₁.toNat + 65536 * b₂.toNat + 16777216 * b₃.toNat)
  | _ => 0

/-- The four bytes of a 32-bit integer, least significant first. -/
def writeInt (v : UInt32) : List UInt8 :=
  [UInt8.ofNat v.toNat, UInt8.ofNat (v.toNat / 256), UInt8.ofNat (v.toNat / 65536),
    UInt8.ofNat (v.toNat / 16777216)]

@[simp] theorem length_writeInt (v : UInt32) : (writeInt v).length = 4 := rfl

/-- An integer written is the integer read. -/
theorem readInt_writeInt (v : UInt32) (rest : List UInt8) :
    readInt (writeInt v ++ rest) = v := by
  have hv : v.toNat < 4294967296 := v.toNat_lt
  apply UInt32.toNat.inj
  simp only [writeInt, List.cons_append, readInt, UInt8.toNat_ofNat', UInt32.toNat_ofNat']
  omega

/-- The memory a `db_val` owns: the bytes behind its `data` pointer and its `length`.
The block starts with the 4-byte token, and `length` does not reach past its end, so
that neither reading the token nor copying leaves the block. -/
structure Block where
  bytes : List UInt8
  length : UInt32
  token_inside : 4 ≤ bytes.length
  length_inside : length.toNat ≤ bytes.length
  deriving DecidableEq

/-- The token of a block, `*(int*)data`. -/
def Block.token (b : Block) : UInt32 := readInt b.bytes

/-- What `ht_get` copies out of a block: `length` bytes. The copy's own `length` is their
number. -/
def Block.copy (b : Block) : List UInt8 := b.bytes.take b.length.toNat

@[simp] theorem Block.length_copy (b : Block) : b.copy.length = b.length.toNat := by
  rw [Block.copy, List.length_take]
  exact Nat.min_eq_left b.length_inside

/-- A copy starts with the token. -/
theorem Block.token_of_copy {b : Block} {token : UInt32} {content : List UInt8}
    (h : b.copy = writeInt token ++ content) : b.token = token := by
  have hbytes : b.bytes = writeInt token ++ (content ++ b.bytes.drop b.length.toNat) := by
    rw [← List.append_assoc, ← h, Block.copy, List.take_append_drop]
  rw [Block.token, hbytes, readInt_writeInt]

/-! ### The table -/

/-- `struct db_val`: a cell of a chain. -/
structure DbVal where
  key : UInt32
  next : Option ℕ
  data : Block

/-- `struct hashtable` together with the memory its cells live in. Every pointer from
`brk` on is unused. -/
structure Hashtable where
  size : UInt32
  table : ℕ → Option ℕ
  heap : ℕ → Option DbVal
  brk : ℕ

namespace Hashtable

/-- `hashtable_init`: `calloc` clears every bucket. -/
def init (size : UInt32) : Hashtable where
  size := size
  table _ := none
  heap _ := none
  brk := 0

/-- `get_hash(key, 0) % ht.size`. -/
def bucket (ht : Hashtable) (key : UInt32) : ℕ := (getHash key 0 % ht.size).toNat

/-- Writes a cell. -/
def write (ht : Hashtable) (p : ℕ) (c : DbVal) : Hashtable :=
  { ht with heap := Function.update ht.heap p (some c) }

/-- `free`: the cell is gone, and its pointer is not handed out again. -/
def free (ht : Hashtable) (p : ℕ) : Hashtable :=
  { ht with heap := Function.update ht.heap p none }

/-- `malloc` of a cell, with what is written to it at once. -/
def malloc (ht : Hashtable) (c : DbVal) : ℕ × Hashtable :=
  (ht.brk, { ht with heap := Function.update ht.heap ht.brk (some c), brk := ht.brk + 1 })

/-- The loop `while (next != NULL && next->key != key)` over the chain of a bucket:
the cell before the one it stops at, and the one it stops at. Both functions begin
with it. -/
def find (ht : Hashtable) (key : UInt32) : Option (Option ℕ × Option ℕ) :=
  Chain.walk DbVal.next ht.heap (fun c => c.key == key) (ht.brk + 1) none (ht.table (ht.bucket key))

/-- `ht_set`. The result is `none` when the loop does not end or meets a dangling
pointer. There are four ways out: the token differs, the block is replaced, the cell is
linked behind the last one, or it becomes the first. -/
def htSet (ht : Hashtable) (val : ℕ) (version : UInt32) : Option (Bool × Hashtable) := do
  let v ← ht.heap val
  let v := { v with next := none }
  let ht := ht.write val v
  let (before, next) ← ht.find v.key
  match next with
  | some p =>
    let c ← ht.heap p
    if c.data.token = version then
      -- `next` takes over the block of `val`, whose cell is freed
      some (true, (ht.write p { c with data := v.data }).free val)
    else
      -- the cell of `val` is not freed
      some (false, ht)
  | none =>
    match before with
    | some b =>
      let c ← ht.heap b
      some (true, ht.write b { c with next := some val })
    | none =>
      some (true, { ht with table := Function.update ht.table (ht.bucket v.key) (some val) })

/-- `ht_get`: a copy of the entry's data, or `NULL`. The outer `none` is as for `htSet`;
that it does not occur is part of `Represents.htGet`. -/
def htGet (ht : Hashtable) (key : UInt32) : Option (Option (List UInt8)) := do
  let (_, p) ← ht.find key
  match p with
  | some p =>
    let c ← ht.heap p
    some (some c.data.copy)
  | none => some none

/-- `ht_set` on a cell that has just been allocated and filled, as `db_set` calls it. -/
def set (ht : Hashtable) (key : UInt32) (data : Block) (version : UInt32) :
    Option (Bool × Hashtable) :=
  let (val, ht) := ht.malloc { key, next := none, data }
  ht.htSet val version

end Hashtable

end Nanoservices
