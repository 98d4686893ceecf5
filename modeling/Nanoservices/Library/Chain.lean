import Mathlib.Logic.Function.Basic
import Mathlib.Data.List.Nodup
import Mathlib.Data.List.Perm.Subperm

/-!
# Linked chains in a heap

A heap maps pointers to cells, and every cell carries the pointer of its
successor, `none` for the null pointer. `IsChain heap start l` says that the
cells met from `start` on are exactly those of the list `l`, the last of which
has no successor: the chain is finite and null-terminated.

* A start has at most one chain (`IsChain.unique`), hence no pointer occurs
  twice on a chain (`IsChain.nodup`), and it has at most as many cells as there
  are live pointers (`IsChain.length_le`).
* Writing a cell off the chain leaves the chain alone (`IsChain.frame`),
  rewriting a cell without moving its successor rewrites it in place
  (`IsChain.modify`), and linking a last cell extends it (`IsChain.link`).
* `walk` is the search loop with a trailing pointer. With fuel for one more cell
  than the chain has, it stops at the first cell satisfying the test
  (`walk_eq`).
-/

namespace Chain

variable {Ptr Cell : Type*} {next : Cell → Option Ptr}

/-- `l` lists the pointers and cells met from `start` to the null pointer. The null
pointer has the empty chain; a pointer that is not live, or one that leads into a cycle,
has none. -/
inductive IsChain (next : Cell → Option Ptr) (heap : Ptr → Option Cell) :
    Option Ptr → List (Ptr × Cell) → Prop
  | nil : IsChain next heap none []
  | cons {p : Ptr} {c : Cell} {l : List (Ptr × Cell)} :
      heap p = some c → IsChain next heap (next c) l → IsChain next heap (some p) ((p, c) :: l)

variable {heap : Ptr → Option Cell} {start : Option Ptr} {l : List (Ptr × Cell)}

/-- The cells of a chain are those of the heap. -/
theorem IsChain.mem_heap (h : IsChain next heap start l) {p : Ptr} {c : Cell}
    (hm : (p, c) ∈ l) : heap p = some c := by
  induction h with
  | nil => exact absurd hm List.not_mem_nil
  | cons hp _ ih =>
    rcases List.mem_cons.mp hm with heq | hm
    · obtain ⟨rfl, rfl⟩ := Prod.mk.inj heq
      exact hp
    · exact ih hm

/-- The chain of a start is determined by the heap. By induction on one of the two
chains. -/
theorem IsChain.unique (h : IsChain next heap start l) {l' : List (Ptr × Cell)}
    (h' : IsChain next heap start l') : l = l' := by
  induction h generalizing l' with
  | nil => cases h'; rfl
  | cons hp _ ih =>
    cases h' with
    | cons hp' ht' =>
      obtain rfl := Option.some.inj (hp.symm.trans hp')
      rw [ih ht']

/-- Every suffix of a chain is the chain of the pointer it starts with. -/
theorem IsChain.suffix (h : IsChain next heap start l) {pre post : List (Ptr × Cell)}
    {p : Ptr} {c : Cell} (hl : l = pre ++ (p, c) :: post) :
    IsChain next heap (some p) ((p, c) :: post) := by
  induction h generalizing pre with
  | nil => simp at hl
  | cons hp ht ih =>
    cases pre with
    | nil =>
      obtain ⟨heq, rfl⟩ := List.cons.inj hl
      obtain ⟨rfl, rfl⟩ := Prod.mk.inj heq
      exact .cons hp ht
    | cons _ pre => exact ih (List.cons.inj hl).2

/-- **Acyclicity.** No pointer occurs twice on a chain. A pointer that did would begin
two suffixes, which are equal by uniqueness and so as long. -/
theorem IsChain.nodup (h : IsChain next heap start l) : (l.map Prod.fst).Nodup := by
  induction h with
  | nil => exact List.nodup_nil
  | @cons p c l hp ht ih =>
    rw [List.map_cons, List.nodup_cons]
    refine ⟨fun hmem => ?_, ih⟩
    -- a second occurrence of `p` would make the chain of `p` a strict suffix of itself
    obtain ⟨⟨q, d⟩, hq, rfl⟩ := List.mem_map.mp hmem
    obtain ⟨pre, post, rfl⟩ := List.append_of_mem hq
    have h1 := ht.suffix rfl
    have h2 : IsChain next heap (some q) ((q, c) :: (pre ++ (q, d) :: post)) := .cons hp ht
    have hlen := congrArg List.length (h1.unique h2)
    simp at hlen
    omega

/-- A chain whose pointers all lie below `n` has at most `n` cells. -/
theorem IsChain.length_le {heap : ℕ → Option Cell} {next : Cell → Option ℕ} {start : Option ℕ}
    {l : List (ℕ × Cell)} (h : IsChain next heap start l) {n : ℕ}
    (hlt : ∀ x ∈ l, x.1 < n) : l.length ≤ n := by
  have hsub : l.map Prod.fst ⊆ List.range n := by
    intro p hp
    obtain ⟨x, hx, rfl⟩ := List.mem_map.mp hp
    exact List.mem_range.mpr (hlt x hx)
  have hle := (List.subperm_of_subset h.nodup hsub).length_le
  rwa [List.length_map, List.length_range] at hle

/-- A heap that agrees on the cells of a chain has the same chain. -/
theorem IsChain.frame (h : IsChain next heap start l) {heap' : Ptr → Option Cell}
    (hsame : ∀ x ∈ l, heap' x.1 = heap x.1) : IsChain next heap' start l := by
  induction h with
  | nil => exact .nil
  | @cons p c l hp _ ih =>
    refine .cons ?_ (ih fun x hx => hsame x (List.mem_cons_of_mem _ hx))
    rw [hsame (p, c) List.mem_cons_self]
    exact hp

section Write

variable [DecidableEq Ptr]

/-- Rewriting a cell without moving its successor rewrites it in place. By induction on
the chain up to the cell; the rest does not have it, since no pointer occurs twice. -/
theorem IsChain.modify (h : IsChain next heap start l) {pre post : List (Ptr × Cell)}
    {p : Ptr} {c d : Cell} (hl : l = pre ++ (p, c) :: post) (hnext : next d = next c) :
    IsChain next (Function.update heap p (some d)) start (pre ++ (p, d) :: post) := by
  have hnd := h.nodup
  induction h generalizing pre with
  | nil => simp at hl
  | @cons q e l hq ht ih =>
    rw [List.map_cons, List.nodup_cons] at hnd
    -- the cell is the first one, and the rest does not meet it again
    cases pre with
    | nil =>
      obtain ⟨heq, rfl⟩ := List.cons.inj hl
      obtain ⟨rfl, rfl⟩ := Prod.mk.inj heq
      refine .cons (Function.update_self _ _ _) (hnext ▸ ht.frame fun x hx => ?_)
      refine Function.update_of_ne (fun hxp => hnd.1 ?_) _ _
      exact List.mem_map.mpr ⟨x, hx, hxp⟩
    | cons y pre =>
      obtain ⟨rfl, rfl⟩ := List.cons.inj hl
      have hne : q ≠ p := fun hqp => hnd.1 (by simp [hqp])
      exact .cons (by rw [Function.update_of_ne hne]; exact hq) (ih rfl hnd.2)

/-- Linking a last cell behind the last cell of a chain extends the chain by it. The new
cell is live, not on the chain, and has no successor. By induction on the chain. -/
theorem IsChain.link (h : IsChain next heap start l) {pre : List (Ptr × Cell)}
    {b v : Ptr} {c a d : Cell} (hl : l = pre ++ [(b, c)]) (hv : heap v = some d)
    (hvnew : ∀ x ∈ l, x.1 ≠ v) (hd : next d = none) (hlink : next a = some v) :
    IsChain next (Function.update heap b (some a)) start (pre ++ [(b, a), (v, d)]) := by
  have hnd := h.nodup
  induction h generalizing pre with
  | nil => simp at hl
  | @cons q e l hq ht ih =>
    rw [List.map_cons, List.nodup_cons] at hnd
    cases pre with
    | nil =>
      obtain ⟨heq, rfl⟩ := List.cons.inj hl
      obtain ⟨rfl, rfl⟩ := Prod.mk.inj heq
      have hvb : v ≠ q := fun hvq => hvnew (q, e) List.mem_cons_self hvq.symm
      -- the last cell now leads to the new one, which is not the cell rewritten
      refine .cons (Function.update_self _ _ _) ?_
      rw [hlink]
      refine .cons (by rw [Function.update_of_ne hvb]; exact hv) ?_
      rw [hd]
      exact .nil
    | cons y pre =>
      obtain ⟨rfl, rfl⟩ := List.cons.inj hl
      have hne : q ≠ b := fun hqb => hnd.1 (by simp [hqb])
      refine .cons (by rw [Function.update_of_ne hne]; exact hq) (ih rfl ?_ hnd.2)
      exact fun x hx => hvnew x (List.mem_cons_of_mem _ hx)

end Write

/-! ### Searching a chain -/

/-- The search loop: from `cur` on, with the trailing pointer `before`, until `stop`
holds of a cell or the chain ends. The result is `none` when the fuel runs out or a
pointer dangles. -/
def walk (next : Cell → Option Ptr) (heap : Ptr → Option Cell) (stop : Cell → Bool) :
    ℕ → Option Ptr → Option Ptr → Option (Option Ptr × Option Ptr)
  | 0, _, _ => none
  | _ + 1, before, none => some (before, none)
  | fuel + 1, before, some p =>
    match heap p with
    | none => none
    | some c => if stop c then some (before, some p) else walk next heap stop fuel (some p) (next c)

/-- **The search loop** over a chain with enough fuel: it ends at the first cell that
satisfies the test, with the trailing pointer on the cell before it. By induction on the
chain. -/
theorem walk_eq (h : IsChain next heap start l) (stop : Cell → Bool) {fuel : ℕ}
    (hfuel : l.length < fuel) (before : Option Ptr) :
    walk next heap stop fuel before start =
      some (((l.takeWhile fun x => !stop x.2).getLast?.map Prod.fst).or before,
        (l.dropWhile fun x => !stop x.2).head?.map Prod.fst) := by
  induction h generalizing fuel before with
  | nil =>
    obtain ⟨n, rfl⟩ : ∃ n, fuel = n + 1 := ⟨fuel - 1, by simp at hfuel; omega⟩
    rfl
  | @cons p c l hp _ ih =>
    obtain ⟨n, rfl⟩ : ∃ n, fuel = n + 1 := ⟨fuel - 1, by simp at hfuel; omega⟩
    simp only [walk, hp]
    cases hs : stop c with
    | true => simp [hs]
    | false =>
      rw [if_neg (by simp), ih (by simpa using hfuel)]
      simp only [List.takeWhile_cons, List.dropWhile_cons, hs, Bool.not_false, if_true]
      -- the trailing pointer is `p` unless the search has moved past a later cell
      cases hlast : (l.takeWhile fun x => !stop x.2).getLast? with
      | none => simp [List.getLast?_cons, hlast]
      | some y => simp [List.getLast?_cons, hlast]

end Chain
