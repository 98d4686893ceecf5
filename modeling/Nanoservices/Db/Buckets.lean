import Mathlib.Data.Int.CardIntervalMod
import Nanoservices.Library.Mixing
import Nanoservices.Db.Refinement

/-!
# How long the chains get

`get_hash` loses nothing until its last line, which drops two bits: each of its 2^30
values is that of four keys. A chain holds no key twice and keys of its bucket only, so
that no run makes it longer than these four for each value that leads to the bucket, and
some run makes it as long (`longest_chain`).

What a run leaves in memory are the cells on the chains and one for each refused write:
`ht_set` does not free the cell that `db_set` has allocated for it (`nodes_left`).
-/

namespace Nanoservices

open Chain Versioned Mixing

/-! ### The hash -/

/-- `get_hash` up to its last line. Each step can be undone, so different keys stay
different. -/
def mixed (key seed : UInt32) : UInt32 :=
  let hash := key ^^^ seed
  let hash := ~~~hash + (hash <<< 15)
  let hash := hash ^^^ (hash >>> 12)
  let hash := hash + (hash <<< 2)
  let hash := hash ^^^ (hash >>> 4)
  let hash := hash * 2057
  hash ^^^ (hash >>> 16)

/-- The last line drops two bits. -/
theorem getHash_eq (key seed : UInt32) : getHash key seed = mixed key seed &&& 0x3fffffff := rfl

/-- The steps of the hash on the bits of a key. -/
theorem toBitVec_mixed (key seed : UInt32) :
    (mixed key seed).toBitVec =
      ((fun x : BitVec 32 => x ^^^ (x >>> 16)) ∘ (fun x : BitVec 32 => x * 2057) ∘
        (fun x : BitVec 32 => x ^^^ (x >>> 4)) ∘ (fun x : BitVec 32 => x + (x <<< 2)) ∘
        (fun x : BitVec 32 => x ^^^ (x >>> 12)) ∘ (fun x : BitVec 32 => ~~~x + (x <<< 15)) ∘
        fun x : BitVec 32 => x ^^^ seed.toBitVec) key.toBitVec := rfl

/-- **The mixing loses nothing**: it is a composition of injective steps. -/
theorem mixed_injective (seed : UInt32) :
    Function.Injective fun key : BitVec 32 => (mixed (.ofBitVec key) seed).toBitVec := by
  simp only [toBitVec_mixed]
  refine (xorShift_injective (by decide)).comp <| (mul_injective (by decide)).comp <|
    (xorShift_injective (by decide)).comp <| (shiftLeft_add_injective (by decide)).comp <|
    (xorShift_injective (by decide)).comp <| (not_add_shiftLeft_injective (by decide)).comp ?_
  intro x y h
  exact (BitVec.xor_left_inj _).1 h

/-- The last line keeps 30 bits. -/
theorem toNat_getHash (key seed : UInt32) :
    (getHash key seed).toNat = (mixed key seed).toNat % 2 ^ 30 := by
  rw [getHash_eq, UInt32.toNat_and]
  exact Nat.and_two_pow_sub_one_eq_mod (mixed key seed).toNat 30

/-- The keys of a bucket, whether or not they are in the table. -/
def keysOfBucket (size : UInt32) (i : ℕ) : Set UInt32 :=
  {key | (getHash key 0 % size).toNat = i}

/-- **Four keys for each value of the hash** that leads to the bucket. As the mixing is
a bijection of 32-bit numbers, keys may be counted by their mixed values; these are all
numbers below `2 ^ 32`, of which four have the same last 30 bits. -/
theorem ncard_keysOfBucket {size : UInt32} {i : ℕ} (hi : i < size.toNat) :
    (keysOfBucket size i).ncard =
      4 * (2 ^ 30 / size.toNat + if i < 2 ^ 30 % size.toNat then 1 else 0) := by
  have himage : UInt32.toBitVec '' keysOfBucket size i =
      {x : BitVec 32 | (mixed (.ofBitVec x) 0).toBitVec.toNat % 2 ^ 30 % size.toNat = i} := by
    ext x
    constructor
    · rintro ⟨key, hkey, rfl⟩
      have h : (getHash key 0 % size).toNat = i := hkey
      rwa [UInt32.toNat_mod, toNat_getHash] at h
    · intro hx
      refine ⟨.ofBitVec x, ?_, rfl⟩
      show (getHash _ 0 % size).toNat = i
      rwa [UInt32.toNat_mod, toNat_getHash]
  -- the values of the hash that lead to the bucket are those congruent to its number
  have hmod : (fun h => h % size.toNat = i) = (fun h => h ≡ i [MOD size.toNat]) := by
    funext h
    rw [Nat.ModEq, Nat.mod_eq_of_lt hi]
  calc (keysOfBucket size i).ncard
      = (UInt32.toBitVec '' keysOfBucket size i).ncard :=
        (Set.ncard_image_of_injective _ fun _ _ => UInt32.toBitVec_inj.1).symm
    _ = Nat.count (fun n => n % 2 ^ 30 % size.toNat = i) (2 ^ 32) := by
        rw [himage]
        exact ncard_of_injective (mixed_injective 0) fun n => n % 2 ^ 30 % size.toNat = i
    _ = 4 * Nat.count (fun h => h % size.toNat = i) (2 ^ 30) :=
        count_mod (fun h => h % size.toNat = i) 4 (2 ^ 30)
    _ = _ := by
        simp only [hmod]
        rw [Nat.count_modEq_card _ (by omega), Nat.mod_eq_of_lt hi]

/-! ### The longest chain -/

namespace Hashtable

variable {ht : Hashtable} {m : Entries}

instance : Finite UInt32 := by
  have : Finite (BitVec 32) := Finite.of_equiv _ (BitVec.equivFin (m := 32)).toEquiv.symm
  exact Finite.of_injective UInt32.toBitVec fun _ _ => UInt32.toBitVec_inj.1

/-- The keys on a chain, as a set. -/
theorem coe_keys (l : List (ℕ × DbVal)) :
    ((l.map fun x => x.2.key).toFinset : Set UInt32) = {key | ∃ x ∈ l, x.2.key = key} := by
  ext key
  simp

/-- A chain has a cell for each of its keys, since none is on it twice. -/
theorem IsBucket.length_eq {i : ℕ} {l : List (ℕ × DbVal)} (hb : ht.IsBucket m i l) :
    l.length = {key | ∃ x ∈ l, x.2.key = key}.ncard := by
  rw [← coe_keys, Set.ncard_coe_finset, List.toFinset_card_of_nodup hb.nodup, List.length_map]

/-- They are keys of the bucket. -/
theorem IsBucket.keys_subset {i : ℕ} {l : List (ℕ × DbVal)} (hb : ht.IsBucket m i l) :
    {key | ∃ x ∈ l, x.2.key = key} ⊆ keysOfBucket ht.size i := by
  rintro _ ⟨x, hx, rfl⟩
  exact hb.bucket x hx

/-- A key that has an entry is on the chain of its bucket, and no other key is. -/
theorem IsBucket.mem_keys {i : ℕ} {l : List (ℕ × DbVal)} (hb : ht.IsBucket m i l) {key : UInt32}
    (hkey : ht.bucket key = i) : (∃ x ∈ l, x.2.key = key) ↔ m key ≠ none := by
  rw [hb.lookup key hkey]
  constructor
  · rintro ⟨x, hx, hxk⟩ hnone
    exact ne_of_lookupChain_eq_none hnone x hx hxk
  · intro hsome
    by_contra hno
    exact hsome (lookupChain_eq_none fun x hx hxk => hno ⟨x, hx, hxk⟩)

end Hashtable

open Hashtable

/-- The lengths that the chain of a bucket has at the ends of runs from the empty table,
whatever is written and read in them. -/
def chainLengths (size : UInt32) (i : ℕ) : Set ℕ :=
  {len | ∃ ops ht log l, (init size).run ops = some (ht, log) ∧
    IsChain DbVal.next ht.heap (ht.table i) l ∧ l.length = len}

/-- The first block there is. -/
def zeroBlock : Block := ⟨[0, 0, 0, 0], 4, by decide, by decide⟩

/-- The writes of a run that only writes. -/
theorem writes_map_set (keys : List UInt32) (data : Block) (version : UInt32) :
    writes (keys.map fun key => Op.set key data version) =
      keys.map fun key => writeOf key data version := by
  induction keys with
  | nil => rfl
  | cons key keys ih => rw [List.map_cons, writes, ih, List.map_cons]

/-- **The longest chain of a bucket**, over all runs, has four cells for each value
of the hash that leads to the bucket. The bound holds because a chain has no key
twice and keys of its bucket only; it is reached by the run that writes each of these
keys once. -/
theorem longest_chain {size : UInt32} {i : ℕ} (hi : i < size.toNat) :
    IsGreatest (chainLengths size i)
      (4 * (2 ^ 30 / size.toNat + if i < 2 ^ 30 % size.toNat then 1 else 0)) := by
  have hsize : 0 < size := UInt32.lt_iff_toNat_lt.2 (Nat.lt_of_le_of_lt (Nat.zero_le i) hi)
  rw [← ncard_keysOfBucket hi]
  constructor
  · -- write every key of the bucket
    let keys := (Set.toFinite (keysOfBucket size i)).toFinset.toList
    have hkeys : ∀ key, key ∈ keys ↔ key ∈ keysOfBucket size i := by simp [keys]
    obtain ⟨ht, hrun, h, hsz⟩ := (represents_init hsize).run
      (keys.map fun key => Op.set key zeroBlock 0)
    obtain ⟨l, hb⟩ := h.buckets i (by rwa [hsz])
    refine ⟨_, ht, _, l, hrun, hb.chain, ?_⟩
    rw [hb.length_eq]
    congr 1
    refine Set.Subset.antisymm (by simpa [hsz, init] using hb.keys_subset) fun key hkey => ?_
    have hbucket : ht.bucket key = i := by
      rw [bucket, hsz]
      exact hkey
    refine (hb.mem_keys hbucket).2 (puts_ne_none _ (.inl ⟨writeOf key zeroBlock 0, ?_, rfl⟩))
    rw [writes_map_set]
    exact List.mem_map_of_mem ((hkeys key).2 hkey)
  -- no run gets further: the keys on the chain are among those of the bucket
  · rintro _ ⟨ops, ht, log, l, hrun, hl, rfl⟩
    obtain ⟨ht', hrun', h, hsz⟩ := (represents_init hsize).run ops
    obtain ⟨rfl, -⟩ := Prod.mk.inj (Option.some.inj (hrun.symm.trans hrun'))
    obtain ⟨l', hb⟩ := h.buckets i (by rwa [hsz])
    obtain rfl := hl.unique hb.chain
    rw [hb.length_eq]
    exact Set.ncard_le_ncard (by simpa [hsz, init] using hb.keys_subset)

/-- The table of a database, with its million buckets. -/
theorem longest_chain_database : IsGreatest (chainLengths (1000 * 1000) 0) 4296 :=
  longest_chain (by decide : 0 < (1000 * 1000 : UInt32).toNat)

/-! ### The cells a run leaves -/

namespace Hashtable

/-- The cells that have been allocated and not been freed. -/
def live (ht : Hashtable) : Set ℕ := {p | ht.heap p ≠ none}

/-- The cells of the chains, which the table reaches from its buckets. -/
def linked (ht : Hashtable) : Set ℕ :=
  {p | ∃ i < ht.size.toNat, ∃ l, IsChain DbVal.next ht.heap (ht.table i) l ∧ ∃ x ∈ l, x.1 = p}

/-- The cells that no chain has and that will never be freed: nothing points to them any
more. -/
def leaked (ht : Hashtable) : Set ℕ := ht.live \ ht.linked

/-- The keys that have an entry. -/
def stored (m : Entries) : Set UInt32 := {key | m key ≠ none}

variable {ht : Hashtable} {m : Entries}

/-- There are finitely many, since they are below `brk`. -/
theorem Represents.finite_live (h : ht.Represents m) : ht.live.Finite := by
  refine (Set.finite_Iio ht.brk).subset fun p hp => ?_
  obtain ⟨c, hc⟩ := Option.ne_none_iff_exists'.1 hp
  exact h.fresh p c hc

/-- A cell on a chain has not been freed. -/
theorem linked_subset_live (ht : Hashtable) : ht.linked ⊆ ht.live := by
  rintro _ ⟨i, -, l, hl, x, hx, rfl⟩
  exact Option.ne_none_iff_exists'.2 ⟨x.2, hl.mem_heap hx⟩

/-- The key of a cell, 0 where there is none. -/
def keyAt (ht : Hashtable) (p : ℕ) : UInt32 := ((ht.heap p).map DbVal.key).getD 0

/-- On a chain it is the key of the cell. -/
theorem keyAt_of_mem {l : List (ℕ × DbVal)} {start : Option ℕ}
    (hl : IsChain DbVal.next ht.heap start l) {x : ℕ × DbVal} (hx : x ∈ l) :
    ht.keyAt x.1 = x.2.key := by
  rw [keyAt, hl.mem_heap hx]
  rfl

/-- The cells of the chains and the keys that have an entry are as many: going from a
cell to its key is injective, and the keys it leads to are those with an entry. -/
theorem Represents.ncard_linked (h : ht.Represents m) : ht.linked.ncard = (stored m).ncard := by
  have hinj : Set.InjOn ht.keyAt ht.linked := by
    rintro _ ⟨i, hi, l, hl, x, hx, rfl⟩ _ ⟨j, hj, l', hl', y, hy, rfl⟩ hkey
    rw [keyAt_of_mem hl hx, keyAt_of_mem hl' hy] at hkey
    obtain ⟨b, hb⟩ := h.buckets i hi
    obtain ⟨b', hb'⟩ := h.buckets j hj
    obtain rfl := hl.unique hb.chain
    obtain rfl := hl'.unique hb'.chain
    -- two cells with one key are on one chain, which has no key twice
    obtain rfl : i = j := by rw [← hb.bucket x hx, ← hb'.bucket y hy, hkey]
    obtain rfl := hb.chain.unique hb'.chain
    rw [List.inj_on_of_nodup_map hb.nodup hx hy hkey]
  -- a key with an entry is on the chain of its bucket
  have himage : ht.keyAt '' ht.linked = stored m := by
    ext key
    constructor
    · rintro ⟨_, ⟨i, hi, l, hl, x, hx, rfl⟩, rfl⟩
      obtain ⟨b, hb⟩ := h.buckets i hi
      obtain rfl := hl.unique hb.chain
      rw [keyAt_of_mem hl hx]
      exact (hb.mem_keys (hb.bucket x hx)).1 ⟨x, hx, rfl⟩
    · intro hkey
      obtain ⟨l, hb⟩ := h.ownBucket key
      obtain ⟨x, hx, rfl⟩ := (hb.mem_keys rfl).2 hkey
      exact ⟨x.1, ⟨_, bucket_lt h.size_pos _, l, hb.chain, x, hx, rfl⟩, keyAt_of_mem hb.chain hx⟩
  rw [← himage, hinj.ncard_image]

/-- `malloc` adds the cell it hands out. -/
theorem live_malloc (ht : Hashtable) (c : DbVal) :
    (ht.malloc c).2.live = insert ht.brk ht.live := by
  ext p
  by_cases hp : p = ht.brk <;> simp [live, Hashtable.malloc, hp]

/-- Writing a live cell changes none. -/
theorem live_write {p : ℕ} (hp : p ∈ ht.live) (c : DbVal) : (ht.write p c).live = ht.live := by
  ext q
  by_cases hq : q = p
  · subst hq
    simpa [live, write] using hp
  · simp [live, write, hq]

/-- `free` takes one away. -/
theorem live_free (ht : Hashtable) (p : ℕ) : (ht.free p).live = ht.live \ {p} := by
  ext q
  by_cases hq : q = p <;> simp [live, Hashtable.free, hq]

/-- What `ht_set` does to the memory: it frees the cell it was given when it has put its
block into another one. Otherwise the cell stays, on a chain or not. The branches are
those of `ht_set`, as in `Represents.htSet`. -/
theorem Represents.live_htSet (h : ht.Represents m) {val : ℕ} {v : DbVal} (hs : ht.Spare val v)
    (version : UInt32) {ok : Bool} {ht' : Hashtable}
    (hset : ht.htSet val version = some (ok, ht')) :
    ht'.live = if ok ∧ m v.key ≠ none then ht.live \ {val} else ht.live := by
  set v' : DbVal := { v with next := none } with hv'
  obtain ⟨h₁, hs₁⟩ := h.write_spare hs v'
  have hlive : (ht.write val v').live = ht.live :=
    live_write (Option.ne_none_iff_exists'.2 ⟨v, hs.live⟩) v'
  obtain ⟨l, hb⟩ := h₁.ownBucket v'.key
  have hfind : (ht.write val v').find v.key = _ := h₁.find hb
  have hlookup : m v.key = _ := hb.lookup v'.key rfl
  cases hl : lookupChain v'.key l with
  -- the key has a cell: with the right token this takes the block, and the new cell is
  -- freed
  | some b =>
    obtain ⟨pre, p, c, post, rfl, -, rfl, -, hdrop⟩ := split_of_lookup_some hl
    have hp := hb.chain.mem_heap (p := p) (c := c) (by simp)
    have hpl : p ∈ (ht.write val v').live := Option.ne_none_iff_exists'.2 ⟨c, hp⟩
    rw [hdrop] at hfind
    rw [hlookup, hl]
    by_cases htok : c.data.token = version
    · obtain ⟨rfl, rfl⟩ : true = ok ∧ _ = ht' := by
        simpa [Hashtable.htSet, hs.live, ← hv', hfind, hp, htok] using hset
      rw [live_free, live_write hpl, hlive]
      simp
    · obtain ⟨rfl, rfl⟩ : false = ok ∧ _ = ht' := by
        simpa [Hashtable.htSet, hs.live, ← hv', hfind, hp, htok] using hset
      simpa using hlive
  -- it has none: the new cell becomes the last of the chain, or the first one
  | none =>
    obtain ⟨htake, hdrop⟩ := dropWhile_of_lookup_none hl
    rw [htake, hdrop] at hfind
    rw [hlookup, hl, if_neg (fun hor => hor.2 rfl)]
    rcases List.eq_nil_or_concat l with rfl | ⟨pre, ⟨b, c⟩, rfl⟩
    · simp only [List.getLast?_nil, Option.map_none, Option.or_none, List.head?_nil] at hfind
      obtain ⟨rfl, rfl⟩ : true = ok ∧ _ = ht' := by
        simpa [Hashtable.htSet, hs.live, ← hv', hfind] using hset
      exact hlive
    · rw [List.concat_eq_append] at hb hfind
      have hbc := hb.chain.mem_heap (p := b) (c := c) (by simp)
      simp only [List.getLast?_append, List.getLast?_singleton, Option.some_or, Option.map_some,
        List.head?_nil, Option.map_none] at hfind
      obtain ⟨rfl, rfl⟩ : true = ok ∧ _ = ht' := by
        simpa [Hashtable.htSet, hs.live, ← hv', hfind, hbc] using hset
      rw [live_write (Option.ne_none_iff_exists'.2 ⟨c, hbc⟩), hlive]

/-- What `db_set` does to it: a cell more, unless the key was there and the write
succeeded. -/
theorem Represents.live_set (h : ht.Represents m) (key : UInt32) (data : Block) (version : UInt32)
    {ok : Bool} {ht' : Hashtable} (hset : ht.set key data version = some (ok, ht')) :
    ht'.live = if ok ∧ m key ≠ none then ht.live else insert ht.brk ht.live := by
  obtain ⟨h₁, hs₁⟩ := h.malloc { key, next := none, data }
  have hnew : ht.brk ∉ ht.live := by
    intro hmem
    obtain ⟨c, hc⟩ := Option.ne_none_iff_exists'.1 hmem
    exact (h.fresh _ c hc).ne rfl
  rw [h₁.live_htSet hs₁ version hset, live_malloc]
  split
  · exact Set.insert_sdiff_self_of_notMem hnew
  · rfl

/-- A write that is accepted adds its key. -/
theorem stored_put (p : Put UInt32 UInt32 Block) :
    stored (put Block.token m p).2 =
      if accepts Block.token m p then insert p.key (stored m) else stored m := by
  ext key
  cases hacc : accepts Block.token m p with
  | true =>
    rw [put_of_accepts hacc]
    by_cases hk : key = p.key <;> simp [stored, hk]
  | false =>
    rw [put_of_not_accepts hacc]
    rfl

/-- One write: a cell more on a chain when the key is new, a cell more off the chains
when it is refused, and none otherwise. -/
theorem Represents.ncard_live_set (h : ht.Represents m) (key : UInt32) (data : Block)
    (version : UInt32) {ok : Bool} {ht' : Hashtable}
    (hset : ht.set key data version = some (ok, ht'))
    (hok : ok = accepts Block.token m (writeOf key data version)) :
    ht'.live.ncard + (stored m).ncard =
      ht.live.ncard + (stored (put Block.token m (writeOf key data version)).2).ncard +
        (if ok then 0 else 1) := by
  have hnew : ht.brk ∉ ht.live := by
    intro hmem
    obtain ⟨c, hc⟩ := Option.ne_none_iff_exists'.1 hmem
    exact (h.fresh _ c hc).ne rfl
  rw [h.live_set key data version hset, stored_put, ← hok]
  -- a refused write has allocated its cell and leaks it
  cases ok with
  | false =>
    simp only [Bool.false_eq_true, false_and, if_false]
    rw [Set.ncard_insert_of_notMem hnew h.finite_live]
    omega
  | true =>
    -- an accepted one links its cell under a new key, and frees it under an old one
    by_cases hkey : m key = none
    · have hkey' : key ∉ stored m := fun hmem => hmem hkey
      simp only [hkey, ne_eq, not_true, and_false, if_false, if_true]
      rw [Set.ncard_insert_of_notMem hnew h.finite_live,
        Set.ncard_insert_of_notMem hkey' (Set.toFinite _)]
      omega
    · have hkey' : key ∈ stored m := hkey
      simp only [hkey, ne_eq, not_false_eq_true, and_self, if_true]
      rw [Set.insert_eq_of_mem hkey', Nat.add_zero]

/-- Along a run, the refused writes are what the cells gain over the keys. By induction
on the calls. -/
theorem Represents.ncard_live_run (h : ht.Represents m) (ops : List Op) {ht' : Hashtable}
    {log : List (Put UInt32 UInt32 Block × Bool)} (hrun : ht.run ops = some (ht', log)) :
    ht'.live.ncard + (stored m).ncard =
      ht.live.ncard + (stored (puts Block.token m (writes ops)).2).ncard +
        (log.filter fun w => !w.2).length := by
  induction ops generalizing ht m log with
  | nil =>
    obtain ⟨rfl, rfl⟩ := Prod.mk.inj (Option.some.inj hrun)
    rfl
  | cons op ops ih =>
    -- a `get` allocates nothing
    cases op with
    | set key data version =>
      obtain ⟨ht₁, hset, hrep, -, -⟩ := h.set key data version
      obtain ⟨ht₂, hrun₂, -, -⟩ := hrep.run ops
      have hstep := h.ncard_live_set key data version hset rfl
      simp only [Hashtable.run, exec, hset, hrun₂, Option.map_some, Option.bind_eq_bind,
        Option.bind_some, Option.some.injEq, Prod.mk.injEq] at hrun
      obtain ⟨rfl, rfl⟩ := hrun
      have hrest := ih hrep hrun₂
      simp only [writes, puts, List.singleton_append, List.filter_cons]
      cases hacc : accepts Block.token m (writeOf key data version) <;>
        simp only [hacc, Bool.not_true, Bool.not_false, Bool.false_eq_true, if_true, if_false,
          List.length_cons] at hstep ⊢ <;> omega
    | get key =>
      simp only [Hashtable.run, exec, h.htGet key, Option.map_some, Option.bind_eq_bind,
        Option.bind_some, List.nil_append] at hrun
      exact ih h (by simpa using hrun)

end Hashtable

/-- **The cells a run leaves**: those of the chains, one for each key that has been
written, and off the chains one for each write that was refused. So the memory that is
lost grows with the aborts, without bound.

Cells are counted over the run: a write allocates one, and one is freed if the key had
been written before (`Represents.ncard_live_run`). The cells of the chains are counted
by the map they represent. -/
theorem nodes_left {size : UInt32} (hsize : 0 < size) (ops : List Op) :
    ∃ ht log, (init size).run ops = some (ht, log) ∧
      ht.linked.ncard = {key | lastPut key log ≠ none}.ncard ∧
      ht.leaked.ncard = (log.filter fun w => !w.2).length := by
  obtain ⟨ht, hrun, h, -⟩ := (represents_init hsize).run ops
  -- in the empty table there are neither cells nor keys
  have hlive := (represents_init hsize).ncard_live_run ops hrun
  have hempty : (init size).live = ∅ := by
    ext p
    simp [live, init]
  have hnone : stored (fun _ => none) = ∅ := by
    ext key
    simp [stored]
  rw [hempty, hnone, Set.ncard_empty, Set.ncard_empty, ← h.ncard_linked] at hlive
  refine ⟨ht, _, hrun, ?_, ?_⟩
  · rw [h.ncard_linked]
    congr 1
    ext key
    show _ ≠ none ↔ _ ≠ none
    rw [puts_lastPut, Option.or_none]
  · rw [leaked, Set.ncard_sdiff (linked_subset_live ht)
      (h.finite_live.subset (linked_subset_live ht))]
    omega

/-- A key that is written, rewritten, and written with an old version. -/
theorem nodes_left_refused :
    ∃ ht log, (init 1).run [.set 7 zeroBlock 0, .set 7 zeroBlock 0, .set 7 zeroBlock 3] =
        some (ht, log) ∧
      ht.linked.ncard = {key | lastPut key log ≠ none}.ncard ∧
      ht.leaked.ncard = (log.filter fun w => !w.2).length :=
  nodes_left (by decide) _

end Nanoservices
