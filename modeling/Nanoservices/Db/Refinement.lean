import Nanoservices.Library.Versioned
import Nanoservices.Db.HashTable
import Mathlib.Data.List.TakeWhile

/-!
# The hash table refines a versioned map

`Represents ht m` ties a hash table to the versioned map of its entries: every
bucket is a null-terminated chain, a chain holds only keys of its own bucket and
none of them twice, and looking a key up on its chain gives what the map holds.

Cells off every chain are not constrained, which is what makes the refused
`ht_set` (it leaks the cell it was given) leave the represented map alone.

* `Represents.find` reads the result of the search loop off the chain.
* `Represents.set` and `Represents.htGet` are the specifications of the two
  operations, `Represents.run` lifts them to sequences of operations, and
  `hashtable_refines_map` states the refinement from the empty table on.
-/

namespace Nanoservices

open Chain

namespace Hashtable

/-- A versioned map over the table's keys and blocks. -/
abbrev Entries := UInt32 → Option Block

/-- The entry a chain holds for a key. -/
def lookupChain (key : UInt32) (l : List (ℕ × DbVal)) : Option Block :=
  (l.find? fun x => x.2.key == key).map fun x => x.2.data

/-- The bucket `i` of a table is a well-formed chain whose entries are those of `m`. -/
structure IsBucket (ht : Hashtable) (m : Entries) (i : ℕ) (l : List (ℕ × DbVal)) : Prop where
  /-- The chain is finite and null-terminated. -/
  chain : IsChain DbVal.next ht.heap (ht.table i) l
  /-- It holds keys of this bucket only. -/
  bucket : ∀ x ∈ l, ht.bucket x.2.key = i
  /-- It holds no key twice. -/
  nodup : (l.map fun x => x.2.key).Nodup
  lookup : ∀ key, ht.bucket key = i → m key = lookupChain key l

/-- The table `ht` is well formed and holds exactly the entries of `m`. `fresh` says
that pointers from `brk` on are unused, so that `malloc` hands out cells off every
chain. -/
structure Represents (ht : Hashtable) (m : Entries) : Prop where
  size_pos : 0 < ht.size
  fresh : ∀ p c, ht.heap p = some c → p < ht.brk
  buckets : ∀ i < ht.size.toNat, ∃ l, ht.IsBucket m i l

/-- A bucket is one of the table. -/
theorem bucket_lt {ht : Hashtable} (h : 0 < ht.size) (key : UInt32) :
    ht.bucket key < ht.size.toNat := by
  unfold bucket
  rw [UInt32.toNat_mod]
  exact Nat.mod_lt _ h

/-- The empty table holds nothing: every chain is empty. -/
theorem represents_init {size : UInt32} (h : 0 < size) :
    Represents (init size) (fun _ => none) where
  size_pos := h
  fresh _ _ hp := absurd hp (by simp [init])
  buckets i _ := ⟨[], ⟨.nil, by simp, by simp, fun _ _ => rfl⟩⟩

variable {ht : Hashtable} {m : Entries}

/-- The chain of a key's own bucket. -/
theorem Represents.ownBucket (h : ht.Represents m) (key : UInt32) :
    ∃ l, ht.IsBucket m (ht.bucket key) l :=
  h.buckets _ (bucket_lt h.size_pos key)

/-- The cells of a chain have been allocated. -/
theorem IsBucket.pointer_lt {i : ℕ} {l : List (ℕ × DbVal)} (hb : ht.IsBucket m i l)
    (h : ht.Represents m) : ∀ x ∈ l, x.1 < ht.brk :=
  fun x hx => h.fresh x.1 x.2 (hb.chain.mem_heap hx)

/-- **The search loop**: it terminates, on the cell of the key if there is one and at
the end of the chain otherwise. A chain has no cell twice, so it is shorter than the
fuel. -/
theorem Represents.find (h : ht.Represents m) {key : UInt32} {l : List (ℕ × DbVal)}
    (hb : ht.IsBucket m (ht.bucket key) l) :
    ht.find key = some (((l.takeWhile fun x => !(x.2.key == key)).getLast?.map Prod.fst).or none,
      (l.dropWhile fun x => !(x.2.key == key)).head?.map Prod.fst) := by
  have hlen := hb.chain.length_le (hb.pointer_lt h)
  exact walk_eq hb.chain (fun c => c.key == key) (by omega) none

/-- A chain that does not hold the key is searched to its end. -/
theorem dropWhile_of_lookup_none {key : UInt32} {l : List (ℕ × DbVal)}
    (h : lookupChain key l = none) :
    (l.takeWhile fun x => !(x.2.key == key)) = l ∧
      (l.dropWhile fun x => !(x.2.key == key)) = [] := by
  have hall : ∀ x ∈ l, (!(x.2.key == key)) = true := by
    intro x hx
    have hx' := List.find?_eq_none.mp (Option.map_eq_none_iff.mp h) x hx
    simpa using hx'
  exact ⟨List.takeWhile_eq_self_iff.mpr hall, List.dropWhile_eq_nil_iff.mpr hall⟩

/-- A chain that holds the key is searched to the key's cell. -/
theorem split_of_lookup_some {key : UInt32} {l : List (ℕ × DbVal)} {b : Block}
    (h : lookupChain key l = some b) :
    ∃ pre p c post, l = pre ++ (p, c) :: post ∧ c.key = key ∧ c.data = b ∧
      (∀ x ∈ pre, x.2.key ≠ key) ∧
      (l.dropWhile fun x => !(x.2.key == key)) = (p, c) :: post := by
  obtain ⟨⟨p, c⟩, hfind, hdata⟩ := Option.map_eq_some_iff.mp h
  -- the cell that is found is the first one of its key
  obtain ⟨hkey, pre, post, rfl, hpre⟩ := List.find?_eq_some_iff_append.mp hfind
  refine ⟨pre, p, c, post, rfl, by simpa using hkey, hdata, ?_, ?_⟩
  · intro x hx
    simpa using hpre x hx
  · rw [List.dropWhile_append_of_pos (by simpa using hpre)]
    have hc : (!(c.key == key)) = false := by simpa using hkey
    simp [hc]

/-! ### `ht_get` -/

/-- **`ht_get`** returns a copy of the entry the map holds, and `NULL` when it holds
none. In particular it always returns. -/
theorem Represents.htGet (h : ht.Represents m) (key : UInt32) :
    ht.htGet key = some ((m key).map Block.copy) := by
  obtain ⟨l, hb⟩ := h.ownBucket key
  unfold Hashtable.htGet
  rw [h.find hb, hb.lookup key rfl]
  cases hl : lookupChain key l with
  | none => simp [(dropWhile_of_lookup_none hl).2]
  | some b =>
    obtain ⟨pre, p, c, post, rfl, -, rfl, -, hdrop⟩ := split_of_lookup_some hl
    have hp := hb.chain.mem_heap (p := p) (c := c) (by simp)
    simp [hdrop, hp]

/-! ### `ht_set` -/

/-- The heap cell `val` is live and on no chain. So is the cell that `db_set` has
allocated, until `ht_set` links it. -/
structure Spare (ht : Hashtable) (val : ℕ) (v : DbVal) : Prop where
  live : ht.heap val = some v
  off : ∀ i < ht.size.toNat, ∀ l, IsChain DbVal.next ht.heap (ht.table i) l → ∀ x ∈ l, x.1 ≠ val

/-- Writing a cell off every chain changes neither the chains nor the represented map. -/
theorem Represents.write_spare (h : ht.Represents m) {val : ℕ} {v : DbVal}
    (hs : ht.Spare val v) (v' : DbVal) :
    (ht.write val v').Represents m ∧ (ht.write val v').Spare val v' := by
  -- no chain passes through the spare cell
  have hframe : ∀ i < ht.size.toNat, ∀ l, IsChain DbVal.next ht.heap (ht.table i) l →
      IsChain DbVal.next (ht.write val v').heap (ht.table i) l := fun i hi l hl =>
    hl.frame fun x hx => Function.update_of_ne (hs.off i hi l hl x hx) _ _
  refine ⟨⟨h.size_pos, ?_, ?_⟩, ⟨Function.update_self _ _ _, ?_⟩⟩
  · intro p c hp
    by_cases hpv : p = val
    · exact hpv ▸ h.fresh val v hs.live
    · exact h.fresh p c (by simpa [write, Function.update_of_ne hpv] using hp)
  · intro i hi
    obtain ⟨l, hb⟩ := h.buckets i hi
    exact ⟨l, hframe i hi l hb.chain, hb.bucket, hb.nodup, hb.lookup⟩
  · intro i hi l hl x hx
    obtain ⟨l', hb⟩ := h.buckets i hi
    obtain rfl := hl.unique (hframe i hi l' hb.chain)
    exact hs.off i hi l hb.chain x hx

/-- `malloc` leaves the represented map alone and hands out a cell off every chain.
Cells of chains are below `brk`, and it writes at `brk`. -/
theorem Represents.malloc (h : ht.Represents m) (v : DbVal) :
    (ht.malloc v).2.Represents m ∧ (ht.malloc v).2.Spare (ht.malloc v).1 v := by
  have hoff : ∀ i l, IsChain DbVal.next ht.heap (ht.table i) l → ∀ x ∈ l, x.1 ≠ ht.brk :=
    fun i l hl x hx => (h.fresh x.1 x.2 (hl.mem_heap hx)).ne
  -- so no chain changes
  have hframe : ∀ i l, IsChain DbVal.next ht.heap (ht.table i) l →
      IsChain DbVal.next (ht.malloc v).2.heap (ht.table i) l := fun i l hl =>
    hl.frame fun x hx => Function.update_of_ne (hoff i l hl x hx) _ _
  refine ⟨⟨h.size_pos, ?_, ?_⟩, ⟨Function.update_self _ _ _, ?_⟩⟩
  · intro p c hp
    by_cases hpb : p = ht.brk
    · subst hpb
      exact Nat.lt_succ_self _
    · exact (h.fresh p c (by simpa [Hashtable.malloc, Function.update_of_ne hpb] using hp)).trans
        (Nat.lt_succ_self _)
  · intro i hi
    obtain ⟨l, hb⟩ := h.buckets i hi
    exact ⟨l, hframe i l hb.chain, hb.bucket, hb.nodup, hb.lookup⟩
  · intro i hi l hl x hx
    obtain ⟨l', hb⟩ := h.buckets i hi
    obtain rfl := hl.unique (hframe i l' hb.chain)
    exact hoff i l hb.chain x hx

/-! ### `ht_set` on a represented table -/

/-- To re-establish the representation after a change of one bucket it is enough to give
the new chain of that bucket and to leave the other chains alone. -/
theorem Represents.of_bucket (h : ht.Represents m) {ht' : Hashtable} {key : UInt32} {b : Block}
    {t : List (ℕ × DbVal)} (hsize : ht'.size = ht.size)
    (hfresh : ∀ p c, ht'.heap p = some c → p < ht'.brk)
    (hown : ht'.IsBucket (Function.update m key (some b)) (ht.bucket key) t)
    (hframe : ∀ i < ht.size.toNat, i ≠ ht.bucket key → ∀ l, ht.IsBucket m i l →
      IsChain DbVal.next ht'.heap (ht'.table i) l) :
    ht'.Represents (Function.update m key (some b)) := by
  have hbucket : ∀ k, ht'.bucket k = ht.bucket k := fun k => by unfold bucket; rw [hsize]
  refine ⟨hsize ▸ h.size_pos, hfresh, fun i hi => ?_⟩
  rw [hsize] at hi
  -- the key's own bucket is given, the others are framed
  by_cases hik : i = ht.bucket key
  · exact ⟨t, hik ▸ hown⟩
  · obtain ⟨l, hb⟩ := h.buckets i hi
    refine ⟨l, hframe i hi hik l hb, ?_, hb.nodup, ?_⟩
    · exact fun x hx => (hbucket _).trans (hb.bucket x hx)
    · intro k hk
      rw [hbucket] at hk
      have hne : k ≠ key := fun hkk => hik (by rw [← hk, hkk])
      rw [Function.update_of_ne hne]
      exact hb.lookup k hk

/-- A cell of one bucket is on no other, since its key belongs to one bucket. -/
theorem IsBucket.not_mem_of_ne {i j : ℕ} {l l' : List (ℕ × DbVal)} (hi : ht.IsBucket m i l)
    (hj : ht.IsBucket m j l') (hij : i ≠ j) {x y : ℕ × DbVal} (hx : x ∈ l) (hy : y ∈ l') :
    x.1 ≠ y.1 := by
  intro hxy
  have hcx := hi.chain.mem_heap hx
  rw [hxy, hj.chain.mem_heap hy] at hcx
  refine hij ?_
  rw [← hi.bucket x hx, ← hj.bucket y hy, Option.some.inj hcx]

/-- The first of the cells with the key counts. -/
theorem lookupChain_append (key : UInt32) (l l' : List (ℕ × DbVal)) :
    lookupChain key (l ++ l') = (lookupChain key l).or (lookupChain key l') := by
  unfold lookupChain
  rw [List.find?_append]
  cases l.find? (fun x => x.2.key == key) <;> simp

/-- A chain is searched from its front. -/
theorem lookupChain_cons (key : UInt32) (x : ℕ × DbVal) (l : List (ℕ × DbVal)) :
    lookupChain key (x :: l) = if x.2.key = key then some x.2.data else lookupChain key l := by
  unfold lookupChain
  rw [List.find?_cons]
  by_cases h : x.2.key = key
  · simp [h]
  · have hf : (x.2.key == key) = false := by simpa using h
    simp only [hf, if_neg h]

/-- A key that is on no cell is not found. -/
theorem lookupChain_eq_none {key : UInt32} {l : List (ℕ × DbVal)}
    (h : ∀ x ∈ l, x.2.key ≠ key) : lookupChain key l = none := by
  unfold lookupChain
  rw [Option.map_eq_none_iff, List.find?_eq_none]
  simpa using h

/-- A key that is not found is on no cell. -/
theorem ne_of_lookupChain_eq_none {key : UInt32} {l : List (ℕ × DbVal)}
    (h : lookupChain key l = none) : ∀ x ∈ l, x.2.key ≠ key := by
  intro x hx
  simpa using List.find?_eq_none.mp (Option.map_eq_none_iff.mp h) x hx

/-- **Replacing a block in place.** The first update branch of `ht_set`: the cell `p` of
the key takes the block of `val`, and `val`, which was on no chain, is freed. -/
theorem Represents.replace (h : ht.Represents m) {val : ℕ} {v : DbVal} (hs : ht.Spare val v)
    {pre post : List (ℕ × DbVal)} {p : ℕ} {c : DbVal}
    (hb : ht.IsBucket m (ht.bucket v.key) (pre ++ (p, c) :: post)) (hkey : c.key = v.key) :
    ((ht.write p { c with data := v.data }).free val).Represents
      (Function.update m v.key (some v.data)) := by
  have hlt := bucket_lt h.size_pos v.key
  have hpv : p ≠ val := hs.off _ hlt _ hb.chain (p, c) (by simp)
  have hnd := hb.nodup
  rw [List.map_append, List.map_cons, List.nodup_append] at hnd
  obtain ⟨-, hpost, hdisj⟩ := hnd
  have hpre : ∀ x ∈ pre, x.2.key ≠ v.key := fun x hx heq =>
    hdisj _ (List.mem_map.mpr ⟨x, hx, rfl⟩) _ List.mem_cons_self (heq.trans hkey.symm)
  refine h.of_bucket (t := pre ++ (p, { c with data := v.data }) :: post) rfl ?_ ⟨?_, ?_, ?_, ?_⟩ ?_
  -- the cells written are live, and the one freed is gone
  · intro q d hq
    by_cases hqv : q = val
    · subst hqv
      simp [Hashtable.free] at hq
    · by_cases hqp : q = p
      · exact hqp ▸ h.fresh p c (hb.chain.mem_heap (by simp))
      · exact h.fresh q d
          (by simpa [Hashtable.free, write, Function.update_of_ne hqv, Function.update_of_ne hqp]
            using hq)
  · -- the chain keeps its cells, one of them with a new block, and `val` was never on it
    refine (hb.chain.modify (d := { c with data := v.data }) rfl rfl).frame fun x hx => ?_
    refine Function.update_of_ne ?_ _ _
    rcases List.mem_append.mp hx with hx | hx
    · exact hs.off _ hlt _ hb.chain x (by simp [hx])
    · rcases List.mem_cons.mp hx with rfl | hx
      · exact hpv
      · exact hs.off _ hlt _ hb.chain x (by simp [hx])
  -- the keys are those they were
  · intro x hx
    rcases List.mem_append.mp hx with hx | hx
    · exact hb.bucket x (by simp [hx])
    · rcases List.mem_cons.mp hx with rfl | hx
      · exact hb.bucket (p, c) (by simp)
      · exact hb.bucket x (by simp [hx])
  · simpa using hb.nodup
  -- a lookup finds the new block under the key, and elsewhere what it found
  · intro k hk
    have hold := hb.lookup k hk
    rw [lookupChain_append, lookupChain_cons] at hold ⊢
    by_cases hkv : k = v.key
    · subst hkv
      rw [Function.update_self, lookupChain_eq_none hpre]
      simp [hkey]
    · have hck : c.key ≠ k := fun hck => hkv (by rw [← hck, hkey])
      rw [Function.update_of_ne hkv, hold]
      simp [hck]
  -- the other chains have neither cell
  · intro i hi hik l' hl'
    refine hl'.chain.frame fun x hx => ?_
    have hxv : x.1 ≠ val := hs.off i hi l' hl'.chain x hx
    have hxp : x.1 ≠ p := hl'.not_mem_of_ne hb hik hx (y := (p, c)) (by simp)
    simp [Hashtable.free, write, Function.update_of_ne hxv, Function.update_of_ne hxp]

/-- What a chain gains by a last cell with a key it did not hold. -/
theorem IsBucket.lookup_snoc {l : List (ℕ × DbVal)} {v : DbVal}
    (hb : ht.IsBucket m (ht.bucket v.key) l) (val : ℕ) (habs : lookupChain v.key l = none)
    (k : UInt32) (hk : ht.bucket k = ht.bucket v.key) :
    Function.update m v.key (some v.data) k = lookupChain k (l ++ [(val, v)]) := by
  rw [lookupChain_append, lookupChain_cons]
  by_cases hkv : k = v.key
  · subst hkv
    rw [Function.update_self, habs]
    simp
  · have hvk : v.key ≠ k := fun h => hkv h.symm
    rw [Function.update_of_ne hkv, hb.lookup k hk]
    simp [hvk, lookupChain]

/-- **Appending at the tail.** The second update branch of `ht_set`: the last cell of
the chain is linked to `val`, whose own link is null. -/
theorem Represents.append (h : ht.Represents m) {val : ℕ} {v : DbVal} (hs : ht.Spare val v)
    (hnext : v.next = none) {pre : List (ℕ × DbVal)} {b : ℕ} {c : DbVal}
    (hb : ht.IsBucket m (ht.bucket v.key) (pre ++ [(b, c)]))
    (habs : lookupChain v.key (pre ++ [(b, c)]) = none) :
    (ht.write b { c with next := some val }).Represents
      (Function.update m v.key (some v.data)) := by
  have hlt := bucket_lt h.size_pos v.key
  have hchain := hb.chain.link rfl hs.live (hs.off _ hlt _ hb.chain) hnext
    (a := { c with next := some val }) rfl
  -- the link changes no block
  have hlookup : ∀ k, lookupChain k (pre ++ [(b, { c with next := some val }), (val, v)]) =
      lookupChain k (pre ++ [(b, c)] ++ [(val, v)]) := by
    intro k
    simp [lookupChain_append, lookupChain_cons]
  refine h.of_bucket (t := pre ++ [(b, { c with next := some val }), (val, v)]) rfl ?_
    ⟨hchain, ?_, ?_, ?_⟩ ?_
  · intro q d hq
    by_cases hqb : q = b
    · exact hqb ▸ h.fresh b c (hb.chain.mem_heap (by simp))
    · exact h.fresh q d (by simpa [write, Function.update_of_ne hqb] using hq)
  -- the keys, with the new one at the end
  · intro x hx
    simp only [List.mem_append, List.mem_cons, List.not_mem_nil, or_false] at hx
    rcases hx with hx | rfl | rfl
    · exact hb.bucket x (by simp [hx])
    · exact hb.bucket (b, c) (by simp)
    · rfl
  -- the key was on no cell of the chain
  · have hnd := hb.nodup
    have hne := ne_of_lookupChain_eq_none habs
    have hnew : v.key ∉ (pre ++ [(b, c)]).map fun x => x.2.key := by
      intro hmem
      obtain ⟨x, hx, hxk⟩ := List.mem_map.mp hmem
      exact hne x hx hxk
    have := List.nodup_append.mpr ⟨hnd, List.nodup_singleton v.key,
      fun a ha a' ha' haa => hnew (by rw [List.mem_singleton.mp ha'] at haa; exact haa ▸ ha)⟩
    simpa using this
  · intro k hk
    rw [hlookup]
    exact hb.lookup_snoc val habs k hk
  -- the other chains do not have the cell that is linked to
  · intro i hi hik l' hl'
    refine hl'.chain.frame fun x hx => ?_
    have hxb : x.1 ≠ b := hl'.not_mem_of_ne hb hik hx (y := (b, c)) (by simp)
    simp [write, Function.update_of_ne hxb]

/-- **Filling an empty bucket.** The third update branch of `ht_set`: the bucket points
to `val`, and no cell is written. -/
theorem Represents.first (h : ht.Represents m) {val : ℕ} {v : DbVal} (hs : ht.Spare val v)
    (hnext : v.next = none) (hb : ht.IsBucket m (ht.bucket v.key) []) :
    ({ ht with table := Function.update ht.table (ht.bucket v.key) (some val) } :
      Hashtable).Represents (Function.update m v.key (some v.data)) := by
  -- the bucket was empty, so the new cell is its whole chain
  refine h.of_bucket (t := [(val, v)]) rfl h.fresh ⟨?_, ?_, ?_, ?_⟩ ?_
  · change IsChain DbVal.next ht.heap (Function.update ht.table _ _ _) _
    rw [Function.update_self]
    refine .cons hs.live ?_
    rw [hnext]
    exact .nil
  · intro x hx
    rw [List.mem_singleton.mp hx]
    rfl
  · simp
  · intro k hk
    exact hb.lookup_snoc val rfl k hk
  · intro i hi hik l' hl'
    change IsChain DbVal.next ht.heap (Function.update ht.table _ _ _) _
    rw [Function.update_of_ne hik]
    exact hl'.chain

/-! ### The specification of `ht_set` -/

open Versioned

/-- The write a call of `ht_set` performs on the represented map. -/
abbrev writeOf (key : UInt32) (data : Block) (version : UInt32) : Put UInt32 UInt32 Block :=
  { key, entry := data, expected := version }

/-- **`ht_set`** on a spare cell performs the write on the represented map. A refused
write changes neither the buckets nor any cell but the spare one.

The search loop stops where the represented map says; each of the four ways out is then
one of the lemmas above. -/
theorem Represents.htSet (h : ht.Represents m) {val : ℕ} {v : DbVal} (hs : ht.Spare val v)
    (version : UInt32) :
    ∃ ht', ht.htSet val version =
        some (accepts Block.token m (writeOf v.key v.data version), ht') ∧
      ht'.Represents (put Block.token m (writeOf v.key v.data version)).2 ∧ ht'.size = ht.size ∧
      (accepts Block.token m (writeOf v.key v.data version) = false →
        ht'.table = ht.table ∧ ∀ p, p ≠ val → ht'.heap p = ht.heap p) := by
  -- `val->next = NULL`
  set v' : DbVal := { v with next := none } with hv'
  obtain ⟨h₁, hs₁⟩ := h.write_spare hs v'
  obtain ⟨l, hb⟩ := h₁.ownBucket v'.key
  have hfind : (ht.write val v').find v.key = _ := h₁.find hb
  have hlookup : m v.key = _ := hb.lookup v'.key rfl
  have hdata : v'.data = v.data := rfl
  cases hl : lookupChain v'.key l with
  | some b =>
    -- the key is there: the token decides
    obtain ⟨pre, p, c, post, rfl, hkey, rfl, -, hdrop⟩ := split_of_lookup_some hl
    have hp := hb.chain.mem_heap (p := p) (c := c) (by simp)
    rw [hdrop] at hfind
    by_cases htok : c.data.token = version
    · have hacc : accepts Block.token m (writeOf v.key v.data version) = true := by
        simp [accepts, hlookup.trans hl, htok]
      refine ⟨((ht.write val v').write p { c with data := v'.data }).free val, ?_, ?_, rfl, ?_⟩
      · rw [hacc]
        simp [Hashtable.htSet, hs.live, ← hv', hfind, hp, htok, hdata]
      · rw [put_of_accepts hacc]
        exact h₁.replace hs₁ hb hkey
      · rw [hacc]
        exact fun hf => absurd hf (by simp)
    · have hacc : accepts Block.token m (writeOf v.key v.data version) = false := by
        simp [accepts, hlookup.trans hl, htok]
      refine ⟨ht.write val v', ?_, ?_, rfl, ?_⟩
      · rw [hacc]
        simp [Hashtable.htSet, hs.live, ← hv', hfind, hp, htok]
      · rw [put_of_not_accepts hacc]
        exact h₁
      · exact fun _ => ⟨rfl, fun q hq => Function.update_of_ne hq _ _⟩
  | none =>
    -- the key is absent, so that any version is accepted
    obtain ⟨htake, hdrop⟩ := dropWhile_of_lookup_none hl
    rw [htake, hdrop] at hfind
    have hacc : accepts Block.token m (writeOf v.key v.data version) = true := by
      simp [accepts, hlookup.trans hl]
    rw [hacc, put_of_accepts hacc]
    rcases List.eq_nil_or_concat l with rfl | ⟨pre, ⟨b, c⟩, rfl⟩
    -- an empty bucket: the cell becomes its first
    · refine ⟨{ ht.write val v' with
          table := Function.update ht.table ((ht.write val v').bucket v'.key) (some val) },
        ?_, h₁.first hs₁ rfl hb, rfl, fun hf => absurd hf (by simp)⟩
      simp only [List.getLast?_nil, Option.map_none, Option.or_none, List.head?_nil] at hfind
      simp [Hashtable.htSet, hs.live, ← hv', hfind]
      rfl
    -- otherwise the cell goes to the end of the chain
    · rw [List.concat_eq_append] at hb hl hfind
      have hbc := hb.chain.mem_heap (p := b) (c := c) (by simp)
      refine ⟨(ht.write val v').write b { c with next := some val },
        ?_, h₁.append hs₁ rfl hb hl, rfl, fun hf => absurd hf (by simp)⟩
      simp only [List.getLast?_append, List.getLast?_singleton, Option.some_or, Option.map_some,
        List.head?_nil, Option.map_none] at hfind
      simp [Hashtable.htSet, hs.live, ← hv', hfind, hbc]

/-- **`ht_set`** as `db_set` calls it, on a freshly allocated cell. A refused write
leaves every cell there was. -/
theorem Represents.set (h : ht.Represents m) (key : UInt32) (data : Block) (version : UInt32) :
    ∃ ht', ht.set key data version =
        some (accepts Block.token m (writeOf key data version), ht') ∧
      ht'.Represents (put Block.token m (writeOf key data version)).2 ∧ ht'.size = ht.size ∧
      (accepts Block.token m (writeOf key data version) = false →
        ht'.table = ht.table ∧ ∀ p c, ht.heap p = some c → ht'.heap p = some c) := by
  obtain ⟨h₁, hs₁⟩ := h.malloc { key, next := none, data }
  obtain ⟨ht', hset, hrep, hsize, hsame⟩ := h₁.htSet hs₁ version
  refine ⟨ht', hset, hrep, hsize, fun hacc => ⟨(hsame hacc).1, fun p c hp => ?_⟩⟩
  have hpb : p ≠ ht.brk := (h.fresh p c hp).ne
  rw [(hsame hacc).2 p hpb, Hashtable.malloc]
  exact (Function.update_of_ne hpb _ _).trans hp

/-! ### Sequences of operations -/

/-- A call of one of the two operations. -/
inductive Op
  | set (key : UInt32) (data : Block) (version : UInt32)
  | get (key : UInt32)

/-- One call: the table after it, and what `ht_set` was asked to write and whether it
did. -/
def exec (ht : Hashtable) : Op → Option (Hashtable × List (Put UInt32 UInt32 Block × Bool))
  | .set key data version =>
    (ht.set key data version).map fun r => (r.2, [(writeOf key data version, r.1)])
  | .get key => (ht.htGet key).map fun _ => (ht, [])

/-- A sequence of calls, oldest first: the table after them and the log of the writes. -/
def run (ht : Hashtable) : List Op → Option (Hashtable × List (Put UInt32 UInt32 Block × Bool))
  | [] => some (ht, [])
  | op :: ops => do
    let (ht, log) ← ht.exec op
    let (ht, log') ← ht.run ops
    some (ht, log ++ log')

/-- The writes among a sequence of calls. -/
def writes : List Op → List (Put UInt32 UInt32 Block)
  | [] => []
  | .set key data version :: ops => writeOf key data version :: writes ops
  | .get _ :: ops => writes ops

/-- **Runs.** A sequence of calls on a represented table ends, answers every `ht_set` as
the versioned map does, and leaves the table representing the map after the same writes.
By induction on the calls. -/
theorem Represents.run (h : ht.Represents m) (ops : List Op) :
    ∃ ht', ht.run ops = some (ht', (puts Block.token m (writes ops)).1) ∧
      ht'.Represents (puts Block.token m (writes ops)).2 ∧ ht'.size = ht.size := by
  induction ops generalizing ht m with
  | nil => exact ⟨ht, rfl, h, rfl⟩
  | cons op ops ih =>
    -- a `set` is a put of the map, a `get` is none
    cases op with
    | set key data version =>
      obtain ⟨ht₁, hset, hrep, hsize, -⟩ := h.set key data version
      obtain ⟨ht₂, hrun, hrep₂, hsize₂⟩ := ih hrep
      exact ⟨ht₂, by simp [Hashtable.run, exec, hset, hrun, writes, puts], hrep₂,
        hsize₂.trans hsize⟩
    | get key =>
      obtain ⟨ht₂, hrun, hrep₂, hsize₂⟩ := ih h
      exact ⟨ht₂, by simp [Hashtable.run, exec, h.htGet key, hrun, writes], hrep₂, hsize₂⟩

end Hashtable

open Hashtable Versioned in
/-- **The hash table refines a versioned map.** After any sequence of calls from the
empty table, with `log` the writes made and their results:

* every bucket chain is finite and null-terminated, holds only keys of its bucket and
  holds no key twice;
* `ht_set` returns false exactly when the key's last successful write left another
  token, and then no bucket and no cell changes; otherwise the key gets the new block
  and no other key changes;
* `ht_get` returns a copy of the last successful write of the key, or `NULL`. -/
theorem hashtable_refines_map {size : UInt32} (hsize : 0 < size) (ops : List Op) :
    ∃ ht log, (init size).run ops = some (ht, log) ∧
      (∀ i < size.toNat, ∃ l, IsChain DbVal.next ht.heap (ht.table i) l ∧
        (∀ x ∈ l, (getHash x.2.key 0 % size).toNat = i) ∧ (l.map fun x => x.2.key).Nodup) ∧
      (∀ key data version, ∃ ok ht', ht.set key data version = some (ok, ht') ∧
        (ok = false ↔ ∃ b, lastPut key log = some b ∧ b.token ≠ version) ∧
        (ok = false → ht'.table = ht.table ∧ ∀ p c, ht.heap p = some c → ht'.heap p = some c) ∧
        (∀ key', ht'.htGet key' =
          if ok ∧ key' = key then some (some data.copy) else ht.htGet key')) ∧
      (∀ key, ht.htGet key = some ((lastPut key log).map Block.copy)) := by
  obtain ⟨ht, hrun, h, hsz⟩ := (represents_init hsize).run ops
  have hlast : ∀ key, (puts Block.token (fun _ => none) (writes ops)).2 key =
      lastPut key (puts Block.token (fun _ => none) (writes ops)).1 := fun key => by
    rw [puts_lastPut, Option.or_none]
  refine ⟨ht, _, hrun, ?_, ?_, ?_⟩
  -- every chain is a bucket of its own keys
  · intro i hi
    obtain ⟨l, hb⟩ := h.buckets i (by rw [hsz]; exact hi)
    refine ⟨l, hb.chain, fun x hx => ?_, hb.nodup⟩
    have hbucket := hb.bucket x hx
    rwa [bucket, hsz] at hbucket
  -- a write fails exactly if the last one that went through left another token
  · intro key data version
    obtain ⟨ht', hset, hrep, -, hsame⟩ := h.set key data version
    refine ⟨_, ht', hset, ?_, hsame, fun key' => ?_⟩
    · rw [accepts_eq_false_iff, hlast]
    · rw [hrep.htGet, h.htGet]
      by_cases hk : key' = key
      · subst hk
        cases hacc : accepts Block.token (puts Block.token (fun _ => none) (writes ops)).2
            (writeOf key' data version) with
        | true => simp [put_snd_self hacc]
        | false => simp [put_of_not_accepts hacc]
      · rw [put_snd_of_ne hk]
        simp [hk]
  · intro key
    rw [h.htGet, hlast]

open Hashtable Versioned in
/-- The refinement at a table of one bucket, where the two keys share a chain. -/
theorem hashtable_refines_map_one_bucket :
    let b : Block := ⟨[1, 0, 0, 0], 4, by decide, by decide⟩
    ∃ ht log, (init 1).run [.set 7 b 0, .set 8 b 5] = some (ht, log) ∧
      ∀ key, ht.htGet key = some ((lastPut key log).map Block.copy) := by
  intro b
  obtain ⟨ht, log, hrun, -, -, hget⟩ :=
    hashtable_refines_map (by decide : (0 : UInt32) < 1) [.set 7 b 0, .set 8 b 5]
  exact ⟨ht, log, hrun, hget⟩

end Nanoservices
