import Mathlib.Algebra.BigOperators.Group.List.Basic
import Mathlib.Algebra.GroupWithZero.Nat

/-!
# Joins

Functions that call each other. A function answers when it runs, or it makes a number of
calls and is answered for when the last of them has been answered: it joins them. The
calls below a call are a tree, and `Program.size` is the number of its calls
(`Program.Ends`).

`Program.owed` is what is left of a tree when some of the calls of its root have been
made, so that the calls made and those owed are always as many as the trees that were
asked for have.
-/

namespace JoinTree

/-- What a function does when it runs. -/
inductive Body (Fn : Type*)
  /-- It answers. -/
  | answer
  /-- It makes calls, and the continuation of the one answered last answers. -/
  | join (calls : List Fn)

/-- The calls it makes. -/
def Body.calls {Fn : Type*} : Body Fn → List Fn
  | answer => []
  | join calls => calls

/-- Functions, those that are joins, and how many calls each makes with all below. A
function without a body is one of which nothing is known. -/
structure Program (Fn : Type*) where
  body : Fn → Option (Body Fn)
  size : Fn → ℕ

variable {Fn : Type*}

namespace Program

/-- The calls of a function end, there is something to answer each of its joins, and
`size` counts them. Being inductive, it excludes functions that call themselves without
end. -/
inductive Ends (p : Program Fn) : Fn → Prop
  | answer {f : Fn} : p.body f = some .answer → p.size f = 1 → Ends p f
  | join {f : Fn} (calls : List Fn) : p.body f = some (.join calls) → calls ≠ [] →
      p.size f = 1 + (calls.map p.size).sum → (∀ g ∈ calls, Ends p g) → Ends p f

variable {p : Program Fn} {f g : Fn} {b : Body Fn}

/-- What it says of a function and its calls, in one form for both kinds. -/
theorem Ends.body (h : p.Ends f) : ∃ b, p.body f = some b ∧
    p.size f = 1 + (b.calls.map p.size).sum ∧ ∀ g ∈ b.calls, p.Ends g := by
  cases h with
  | answer hbody hsize => exact ⟨_, hbody, hsize, nofun⟩
  | join calls hbody _ hsize hcalls => exact ⟨_, hbody, hsize, hcalls⟩

/-- The calls of a function that ends end. -/
theorem Ends.of_mem (h : p.Ends f) (hb : p.body f = some b) (hg : g ∈ b.calls) : p.Ends g := by
  obtain ⟨b', hb', -, hcalls⟩ := h.body
  obtain rfl := Option.some.inj (hb.symm.trans hb')
  exact hcalls g hg

/-- No join waits for nothing: there is a call whose answer continues it. -/
theorem Ends.ne_nil (h : p.Ends f) {calls : List Fn} (hb : p.body f = some (.join calls)) :
    calls ≠ [] := by
  cases h with
  | answer hbody => cases hb.symm.trans hbody
  | join calls hbody hne =>
    cases hb.symm.trans hbody
    exact hne

/-- The calls still to come of a function that has made `m` calls, with those below. -/
def owed (p : Program Fn) (f : Fn) (m : ℕ) : ℕ :=
  match p.body f with
  | none => 0
  | some b => ((b.calls.drop m).map p.size).sum

end Program

end JoinTree
