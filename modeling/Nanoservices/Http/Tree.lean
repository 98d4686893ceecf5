import Nanoservices.Http.Request

/-!
# Which fields make a tree that can be written

A tree of fields is rejected when a node has both data and children. With Boost's paths
this is read off the names: a name that is, cut at its dots, the beginning of another
one must have an empty value in the end (`Libraries.Boost.fieldsTree_writable`).
-/

namespace Nanoservices

namespace Ptree

/-- The data of a node. -/
def data : Ptree → Bytes
  | .node data _ => data

/-- Its children, in order. -/
def children : Ptree → List (Bytes × Ptree)
  | .node _ children => children

@[simp] theorem data_node (d : Bytes) (c : List (Bytes × Ptree)) : (node d c).data = d := rfl

@[simp] theorem children_node (d : Bytes) (c : List (Bytes × Ptree)) : (node d c).children = c :=
  rfl

/-- The node at a path. -/
def find : List Bytes → Ptree → Option Ptree
  | [], t => some t
  | key :: path, .node _ children => (children.lookup key).bind (find path)

/-- The data at a path, which is empty where there is no node. -/
def dataAt (t : Ptree) (path : List Bytes) : Bytes := ((t.find path).map data).getD []

/-- No node has two children of one key. Boost's trees may have, but those made with
`put` do not. -/
inductive Distinct : Ptree → Prop
  | node {data : Bytes} {children : List (Bytes × Ptree)} : (children.map Prod.fst).Nodup →
      (∀ c ∈ children, Distinct c.2) → Distinct (.node data children)

/-! ### Children by their keys -/

/-- Where keys differ, a child is the one with its key. -/
theorem lookup_of_mem {children : List (Bytes × Ptree)} (hnodup : (children.map Prod.fst).Nodup)
    {key : Bytes} {t : Ptree} (h : (key, t) ∈ children) : children.lookup key = some t := by
  cases hlookup : children.lookup key with
  | none =>
    have hne := List.lookup_eq_none_iff.1 hlookup _ h
    simp at hne
  | some t' =>
    obtain ⟨l, l', rfl, hl⟩ := List.lookup_eq_some_iff.1 hlookup
    have hmem : (key, t') ∈ l ++ (key, t') :: l' := by simp
    rw [(Prod.mk.inj (List.inj_on_of_nodup_map hnodup h hmem rfl)).2]

/-- A child that is found is one of the children. -/
theorem mem_of_lookup {children : List (Bytes × Ptree)} {key : Bytes} {t : Ptree}
    (h : children.lookup key = some t) : (key, t) ∈ children := by
  obtain ⟨l, l', rfl, -⟩ := List.lookup_eq_some_iff.1 h
  simp

/-- Replacing the child of a key changes what is found for that key only. -/
theorem lookup_replaceChild {children : List (Bytes × Ptree)} {key : Bytes} {t' : Ptree}
    (h : children.lookup key = some t') (t : Ptree) (k : Bytes) :
    (replaceChild key t children).lookup k = if k = key then some t else children.lookup k := by
  induction children with
  | nil => cases h
  | cons c children ih =>
    obtain ⟨n, u⟩ := c
    rw [replaceChild]
    -- either it is the first child that is replaced, or one behind it
    by_cases hn : n = key
    · subst hn
      rw [if_pos rfl, List.lookup_cons, List.lookup_cons]
      by_cases hk : k = n <;> simp [hk]
      rw [beq_eq_false_iff_ne.2 hk]
    · rw [if_neg hn, List.lookup_cons, List.lookup_cons]
      have hne : (key == n) = false := beq_eq_false_iff_ne.2 (Ne.symm hn)
      rw [List.lookup_cons, hne] at h
      by_cases hk : k = n
      · subst hk
        simp [hn]
      · rw [beq_eq_false_iff_ne.2 hk]
        exact ih h

/-- A child is the new one or was there. -/
theorem mem_replaceChild {children : List (Bytes × Ptree)} {key : Bytes} {t : Ptree}
    {c : Bytes × Ptree} (h : c ∈ replaceChild key t children) : c = (key, t) ∨ c ∈ children := by
  induction children with
  | nil => cases h
  | cons c' children ih =>
    rw [replaceChild] at h
    split at h
    · exact (List.mem_cons.1 h).imp_right fun h => List.mem_cons_of_mem _ h
    · rcases List.mem_cons.1 h with rfl | h
      · exact .inr List.mem_cons_self
      · exact (ih h).imp_right fun h => List.mem_cons_of_mem _ h

/-- `put` goes to the child of the first key, which it makes where there is none. -/
theorem putAt_cons (value : Bytes) (key : Bytes) (path : List Bytes) (t : Ptree) :
    (t.putAt value (key :: path)).data = t.data ∧ ∀ k,
      (t.putAt value (key :: path)).children.lookup k =
        if k = key then some (((t.children.lookup key).getD (.node [] [])).putAt value path)
        else t.children.lookup k := by
  obtain ⟨data, children⟩ := t
  rw [putAt]
  show _ ∧ ∀ k, _ = if k = key then some (((children.lookup key).getD _).putAt value path)
    else children.lookup k
  -- the child is there and is replaced, or it is put behind the others
  cases hlookup : children.lookup key with
  | some t => exact ⟨rfl, fun k => lookup_replaceChild hlookup _ k⟩
  | none =>
    refine ⟨rfl, fun k => ?_⟩
    show (children ++ [(key, _)]).lookup k = _
    rw [List.lookup_append]
    by_cases hk : k = key
    · subst hk
      simp [hlookup]
    · rw [if_neg hk, List.lookup_cons, beq_eq_false_iff_ne.2 hk]
      simp

/-! ### Paths after `put` -/

/-- A path goes through the child of its first key. -/
theorem find_cons (key : Bytes) (path : List Bytes) (t : Ptree) :
    t.find (key :: path) = (t.children.lookup key).bind (find path) := by
  cases t
  rfl

/-- The empty path is the node itself. -/
theorem dataAt_nil (t : Ptree) : t.dataAt [] = t.data := by
  cases t
  rfl

/-- A path may be gone in two parts. -/
theorem find_append (path q : List Bytes) : ∀ t : Ptree,
    t.find (path ++ q) = (t.find path).bind (find q) := by
  induction path with
  | nil => exact fun t => rfl
  | cons key path ih =>
    intro t
    rw [List.cons_append, find_cons, find_cons, Option.bind_assoc]
    cases t.children.lookup key with
    | none => rfl
    | some t => exact ih t

/-- A node without children ends all paths through it, and one with a child does not. -/
theorem children_eq_nil_iff {t n : Ptree} {path : List Bytes} (h : t.find path = some n) :
    n.children = [] ↔ ∀ k, ¬(t.find (path ++ [k])).isSome = true := by
  -- a child is a path that is longer by one key
  have hfind : ∀ k, (t.find (path ++ [k])).isSome = (n.children.lookup k).isSome := by
    intro k
    rw [find_append, h, Option.bind_some, find_cons]
    cases n.children.lookup k <;> rfl
  simp only [hfind, List.lookup_isSome_iff]
  constructor
  · intro hnil k
    rw [hnil]
    simp
  · intro hnone
    refine List.eq_nil_iff_forall_not_mem.2 fun c hc => ?_
    exact hnone c.1 ⟨c, hc, beq_self_eq_true c.1⟩

/-- Below a missing child there is nothing, as in an empty node. -/
theorem dataAt_cons (t : Ptree) (key : Bytes) (path : List Bytes) :
    t.dataAt (key :: path) = ((t.children.lookup key).getD (.node [] [])).dataAt path := by
  rw [dataAt, find_cons]
  cases t.children.lookup key with
  | some t => rfl
  | none => cases path <;> rfl

/-- An empty node has no paths but the empty one. -/
theorem isSome_find_empty (path : List Bytes) :
    (find path (.node [] [])).isSome = true ↔ path = [] := by
  cases path with
  | nil => exact iff_of_true rfl rfl
  | cons key path => exact iff_of_false nofun nofun

/-- **`put` sets the data at its path** and nowhere else. By induction on the path; the
path that is looked at may end here, go to the same child or go to another one. -/
theorem dataAt_putAt (value : Bytes) (path : List Bytes) : ∀ (t : Ptree) (q : List Bytes),
    (t.putAt value path).dataAt q = if q = path then value else t.dataAt q := by
  -- along the path that is put, against the one that is read
  induction path with
  | nil =>
    rintro ⟨data, children⟩ (_ | ⟨k, q⟩)
    · rfl
    · rw [dataAt_cons, if_neg nofun, dataAt_cons]
      rfl
  | cons key path ih =>
    rintro t (_ | ⟨k, q⟩)
    · rw [dataAt_nil, (putAt_cons value key path t).1, if_neg nofun, dataAt_nil]
    · rw [dataAt_cons, (putAt_cons value key path t).2]
      by_cases hk : k = key
      · subst hk
        rw [if_pos rfl, Option.getD_some, ih, dataAt_cons]
        simp
      · rw [if_neg hk, ← dataAt_cons, if_neg fun h => hk (List.cons.inj h).1]

/-- `put` makes the nodes on its path and no others. By induction on the path, as
before. -/
theorem isSome_find_putAt (value : Bytes) (path : List Bytes) : ∀ (t : Ptree) (q : List Bytes),
    ((t.putAt value path).find q).isSome = true ↔ q <+: path ∨ (t.find q).isSome = true := by
  induction path with
  | nil =>
    rintro ⟨data, children⟩ (_ | ⟨k, q⟩)
    · exact iff_of_true rfl (.inl (List.prefix_refl _))
    · simp [find_cons, putAt]
  | cons key path ih =>
    rintro t (_ | ⟨k, q⟩)
    · exact iff_of_true rfl (.inl List.nil_prefix)
    · rw [find_cons, (putAt_cons value key path t).2, find_cons, List.cons_prefix_cons]
      by_cases hk : k = key
      · subst hk
        rw [if_pos rfl, Option.bind_some, ih]
        -- where there was no such child, the new one is made in an empty node
        cases hlookup : t.children.lookup k with
        | some t' => simp
        | none =>
          simp only [Option.getD_none, isSome_find_empty, Option.bind_none, Option.isSome_none,
            Bool.false_eq_true, or_false, true_and]
          exact ⟨fun h => h.elim id fun h => h ▸ List.nil_prefix, .inl⟩
      · simp [hk]

/-- `put` makes a child only where there is none of its key, so keys stay different. -/
theorem Distinct.putAt (value : Bytes) (path : List Bytes) : ∀ {t : Ptree}, t.Distinct →
    (t.putAt value path).Distinct := by
  induction path with
  | nil =>
    rintro _ (⟨hnodup, hbelow⟩)
    exact .node hnodup hbelow
  | cons key path ih =>
    rintro _ (@⟨data, children, hnodup, hbelow⟩)
    rw [Ptree.putAt]
    -- a child of the key is replaced, and otherwise a new one comes at the end
    cases hlookup : children.lookup key with
    | some t =>
      refine .node (by rwa [keys_replaceChild]) fun c hc => ?_
      rcases mem_replaceChild hc with rfl | hc
      · exact ih (hbelow _ (mem_of_lookup hlookup))
      · exact hbelow c hc
    | none =>
      refine .node ?_ fun c hc => ?_
      · rw [List.map_append, List.nodup_append]
        refine ⟨hnodup, List.nodup_singleton _, ?_⟩
        rintro k hk k' hk' rfl
        obtain rfl := List.mem_singleton.1 hk'
        obtain ⟨c, hc, rfl⟩ := List.mem_map.1 hk
        have hne := List.lookup_eq_none_iff.1 hlookup c hc
        simp at hne
      · rcases List.mem_append.1 hc with hc | hc
        · exact hbelow c hc
        · obtain rfl := List.mem_singleton.1 hc
          exact ih (.node List.nodup_nil (List.forall_mem_nil _))

/-! ### Writable trees -/

/-- The children are writable when each of them is. -/
theorem childrenWritable_iff (children : List (Bytes × Ptree)) :
    childrenWritable children = true ↔ ∀ c ∈ children, c.2.writable = true := by
  induction children with
  | nil => simp [childrenWritable]
  | cons c children ih => simp [childrenWritable, ih]

/-- A tree is writable when no path leads to a node with both data and children. Keys
must be different: of two children with one key paths reach the first only. -/
theorem Distinct.writable_iff {t : Ptree} (h : t.Distinct) :
    t.writable = true ↔
      ∀ path n, t.find path = some n → n.data = [] ∨ n.children = [] := by
  induction h with
  | @node data children hnodup _ ih =>
    simp only [writable, Bool.and_eq_true, Bool.or_eq_true, List.isEmpty_iff,
      childrenWritable_iff]
    -- a node is writable when it is itself and its children are, and those are the
    -- nodes below
    constructor
    · rintro ⟨hnode, hbelow⟩ (_ | ⟨key, path⟩) n hfind
      · obtain rfl := Option.some.inj hfind
        exact hnode
      · obtain ⟨t, hlookup, hfind⟩ := Option.bind_eq_some_iff.1 hfind
        have hmem := mem_of_lookup hlookup
        exact (ih _ hmem).1 (hbelow _ hmem) path n hfind
    · intro hall
      refine ⟨hall [] _ rfl, fun c hc => (ih c hc).2 fun path n hfind => ?_⟩
      exact hall (c.1 :: path) n (by rw [find_cons]; simp [lookup_of_mem hnodup hc, hfind])

end Ptree

/-! ### The tree of fields -/

/-- Boost takes a path apart at its dots. The law is for paths that do not end in a dot.
Behind a last dot there is a key with no letters, which `splitPath` drops. Boost looks a
path up in this way too, but where there is no such node it trips over the empty rest of
the path, in an assertion or, if assertions are off, by a child with an empty name. -/
structure Libraries.Boost (lib : Libraries) : Prop extends lib.Lawful where
  put_eq : ∀ t path value, path.getLast? ≠ some 46 →
    lib.put t path value = t.putAt value (splitPath path.length path)

/-- The keys of a name, as the C string it is passed as. -/
def keysOf (name : Bytes) : List Bytes := splitPath (cStr name).length (cStr name)

/-- No name ends in a dot, as a C string. -/
def PlainNames (entries : List (Bytes × Bytes)) : Prop :=
  ∀ e ∈ entries, (cStr e.1).getLast? ≠ some 46

instance (entries : List (Bytes × Bytes)) : Decidable (PlainNames entries) :=
  inferInstanceAs (Decidable (∀ e ∈ entries, (cStr e.1).getLast? ≠ some 46))

/-- The value that the last field with these keys has. Different names may have the same
keys, as `a` and `a` with a NUL behind it have. -/
def lastValue (entries : List (Bytes × Bytes)) (keys : List Bytes) : Bytes :=
  ((entries.reverse.find? fun e => keysOf e.1 = keys).map fun e => cStr e.2).getD []

/-- No field with fields below it has a value. A field is below another one if its keys
begin with those of the other and go on. -/
def Fields.Separate (f : Fields) : Prop :=
  ∀ e ∈ f.entries, ∀ e' ∈ f.entries, keysOf e.1 <+: keysOf e'.1 → keysOf e.1 ≠ keysOf e'.1 →
    lastValue f.entries (keysOf e.1) = []

instance (f : Fields) : Decidable f.Separate := by
  unfold Fields.Separate
  infer_instance

/-- The last field counts. -/
theorem lastValue_append (entries : List (Bytes × Bytes)) (e : Bytes × Bytes)
    (keys : List Bytes) :
    lastValue (entries ++ [e]) keys =
      if keys = keysOf e.1 then cStr e.2 else lastValue entries keys := by
  rw [lastValue, List.reverse_append, List.reverse_singleton, List.singleton_append,
    List.find?_cons]
  by_cases hkeys : keys = keysOf e.1
  · simp [hkeys]
  · rw [if_neg hkeys, decide_eq_false (Ne.symm hkeys)]
    rfl

/-- A value belongs to a field. -/
theorem exists_of_lastValue {entries : List (Bytes × Bytes)} {keys : List Bytes}
    (h : lastValue entries keys ≠ []) : ∃ e ∈ entries, keysOf e.1 = keys := by
  rw [lastValue] at h
  cases hfind : entries.reverse.find? fun e => keysOf e.1 = keys with
  | none => simp [hfind] at h
  | some e =>
    exact ⟨e, List.mem_reverse.1 (List.mem_of_find?_eq_some hfind),
      by simpa using List.find?_some hfind⟩

section Boost

variable {lib : Libraries}

/-- What the tree of some fields has at each path: the data are the last value with
these keys, and the nodes are those on the way to a field. By induction from the last
field, which is `put` into the tree of those before. -/
theorem Libraries.Boost.tree (h : lib.Boost) {entries : List (Bytes × Bytes)}
    (hplain : PlainNames entries) :
    (entries.foldl (fun t e => lib.put t (cStr e.1) (cStr e.2)) (.node [] [])).Distinct ∧
    ∀ path,
      (entries.foldl (fun t e => lib.put t (cStr e.1) (cStr e.2)) (.node [] [])).dataAt path =
        lastValue entries path ∧
      (((entries.foldl (fun t e => lib.put t (cStr e.1) (cStr e.2)) (.node [] [])).find
        path).isSome = true ↔ path = [] ∨ ∃ e ∈ entries, path <+: keysOf e.1) := by
  -- over the entries from the last one, whose value is the one that stays
  induction entries using List.reverseRecOn with
  | nil =>
    refine ⟨.node List.nodup_nil nofun, fun path => ⟨?_, ?_⟩⟩
    · cases path <;> rfl
    · rw [List.foldl_nil, Ptree.isSome_find_empty]
      simp
  | append_singleton entries e ih =>
    obtain ⟨hdistinct, hpaths⟩ := ih fun e' he' => hplain e' (List.mem_append_left _ he')
    rw [List.foldl_append, List.foldl_cons, List.foldl_nil, h.put_eq _ _ _ (hplain e (by simp))]
    refine ⟨hdistinct.putAt _ _, fun path => ⟨?_, ?_⟩⟩
    · rw [Ptree.dataAt_putAt, (hpaths path).1, lastValue_append]
      rfl
    · rw [Ptree.isSome_find_putAt, (hpaths path).2]
      simp only [List.mem_append, List.mem_singleton, or_and_right, exists_or, exists_eq_left]
      exact or_left_comm.trans (or_congr_right or_comm)

/-- **The fields can be written** exactly when none with a value has another below it. A
node with data belongs to a field with a value, and it has children when the keys of
another field go on from it. -/
theorem Libraries.Boost.fieldsTree_writable (h : lib.Boost) {f : Fields}
    (hplain : PlainNames f.entries) : (fieldsTree lib f).writable = true ↔ f.Separate := by
  obtain ⟨hdistinct, hpaths⟩ := h.tree hplain
  rw [fieldsTree, hdistinct.writable_iff]
  generalize f.entries.foldl (fun t e => lib.put t (cStr e.1) (cStr e.2)) (.node [] []) = t at *
  -- a node has a child when a longer path leads through it
  have hchildren : ∀ path n, t.find path = some n →
      (n.children = [] ↔ ∀ e ∈ f.entries, path <+: keysOf e.1 → path = keysOf e.1) := by
    intro path n hn
    rw [Ptree.children_eq_nil_iff hn]
    constructor
    · rintro hnone e he ⟨keys, hkeys⟩
      cases keys with
      | nil => rwa [List.append_nil] at hkeys
      | cons k keys =>
        refine absurd ((hpaths (path ++ [k])).2.2 (.inr ⟨e, he, keys, ?_⟩)) (hnone k)
        rw [List.append_assoc]
        exact hkeys
    · intro hends k hsome
      rcases (hpaths (path ++ [k])).2.1 hsome with hnil | ⟨e, he, hprefix⟩
      · simp at hnil
      · have heq := hends e he ((List.prefix_append _ _).trans hprefix)
        have hlen := hprefix.length_le
        rw [← heq] at hlen
        simp at hlen
  constructor
  -- the node of the upper field has children, so its data are empty
  · intro hall e he e' he' hprefix hne
    by_contra hvalue
    have hsome := ((hpaths (keysOf e.1)).2.2 (.inr ⟨e, he, List.prefix_refl _⟩))
    obtain ⟨n, hn⟩ := Option.isSome_iff_exists.1 hsome
    have hdata : n.data = lastValue f.entries (keysOf e.1) := by
      rw [← (hpaths _).1, Ptree.dataAt, hn]
      rfl
    rcases hall _ n hn with hempty | hempty
    · exact hvalue (hdata ▸ hempty)
    · exact hne ((hchildren _ n hn).1 hempty e' he' hprefix)
  -- a node with data is that of a field with a value, and no field is below it
  · intro hsep path n hn
    by_cases hdata : n.data = []
    · exact .inl hdata
    · right
      have hvalue : lastValue f.entries path ≠ [] := by
        rw [← (hpaths _).1, Ptree.dataAt, hn]
        exact hdata
      obtain ⟨e, he, rfl⟩ := exists_of_lastValue hvalue
      refine (hchildren _ n hn).2 fun e' he' hprefix => ?_
      by_contra hne
      exact hvalue (hsep e he e' he' hprefix hne)

end Boost

end Nanoservices
