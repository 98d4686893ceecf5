import Mathlib.Logic.Function.Basic
import Mathlib.Data.List.Induction

/-!
# Versioned maps

A versioned map keeps one entry for each key, and every entry carries a token.
A write names the token it expects to find: it is refused when the key holds an
entry with another token, and it creates the entry, whatever token it names,
when the key holds none. This is the compare-and-swap interface on which
optimistic concurrency control is built.

* `Versioned.put` is one write; `put_fst`, `put_snd_self` and `put_snd_of_ne`
  say when it succeeds, what it stores and that it touches no other key.
* `Versioned.puts` folds a list of writes, and `puts_lastPut` identifies the
  entry of a key after the fold: it is the last write of that key that succeeded.
-/

namespace Versioned

variable {K T E : Type*} [DecidableEq K] [DecidableEq T]

/-- A write of `entry` under `key` that expects the token `expected`. The entry has a
token of its own. -/
structure Put (K T E : Type*) where
  key : K
  entry : E
  expected : T

/-- A write succeeds unless the key holds an entry with another token. -/
def accepts (token : E → T) (m : K → Option E) (p : Put K T E) : Bool :=
  (m p.key).all fun e => token e = p.expected

/-- One write: whether it succeeded, and the map after it, which is the same if it did
not. -/
def put (token : E → T) (m : K → Option E) (p : Put K T E) : Bool × (K → Option E) :=
  if accepts token m p then (true, Function.update m p.key (some p.entry)) else (false, m)

variable {token : E → T} {m : K → Option E} {p : Put K T E}

/-- It succeeds when it is accepted. -/
@[simp] theorem put_fst : (put token m p).1 = accepts token m p := by
  unfold put
  split
  · next h => rw [h]
  · next h => simpa using h

/-- Then the key has its entry. -/
theorem put_of_accepts (h : accepts token m p = true) :
    put token m p = (true, Function.update m p.key (some p.entry)) := if_pos h

/-- Otherwise nothing changes. -/
theorem put_of_not_accepts (h : accepts token m p = false) : put token m p = (false, m) := by
  unfold put
  rw [h]
  rfl

omit [DecidableEq K] in
/-- A write is refused exactly when the key holds an entry with another token. -/
theorem accepts_eq_false_iff :
    accepts token m p = false ↔ ∃ e, m p.key = some e ∧ token e ≠ p.expected := by
  unfold accepts
  cases m p.key with
  | none => simp
  | some e => simp

/-- What a write that succeeds stores. -/
theorem put_snd_self (h : accepts token m p = true) :
    (put token m p).2 p.key = some p.entry := by
  rw [put_of_accepts h]
  exact Function.update_self _ _ _

/-- No other key changes, in either case. -/
theorem put_snd_of_ne {k : K} (h : k ≠ p.key) : (put token m p).2 k = m k := by
  unfold put
  split
  · exact Function.update_of_ne h _ _
  · rfl

/-- A write never removes an entry, and leaves one under its key whether or not it
succeeds: it is refused only because there is one. -/
theorem put_ne_none {k : K} (h : p.key = k ∨ m k ≠ none) : (put token m p).2 k ≠ none := by
  cases hacc : accepts token m p with
  | true =>
    by_cases hk : k = p.key
    · subst hk
      rw [put_snd_self hacc]
      exact Option.some_ne_none _
    · rw [put_snd_of_ne hk]
      exact h.resolve_left fun hpk => hk hpk.symm
  | false =>
    rw [put_of_not_accepts hacc]
    show m k ≠ none
    -- a refused write has met another entry of the key
    rcases h with rfl | h
    · obtain ⟨e, he, -⟩ := accepts_eq_false_iff.1 hacc
      rw [he]
      exact Option.some_ne_none e
    · exact h

/-- The write of a renamed key, as when a map is one of several. -/
def Put.rename {K' : Type*} (f : K' → K) (p : Put K' T E) : Put K T E :=
  ⟨f p.key, p.entry, p.expected⟩

/-- A write through an injective renaming of the keys is a write of the renamed map. -/
theorem put_rename {K' : Type*} [DecidableEq K'] {f : K' → K} (hf : Function.Injective f)
    (p : Put K' T E) (k : K') :
    (put token m (p.rename f)).2 (f k) = (put token (fun k => m (f k)) p).2 k := by
  have hacc : accepts token m (p.rename f) = accepts token (fun k => m (f k)) p := rfl
  unfold put
  rw [hacc]
  split
  · by_cases hk : k = p.key
    · subst hk
      simp [Put.rename]
    · simp [Put.rename, hk, hf.ne hk]
  · rfl

/-! ### Sequences of writes -/

/-- The results of a list of writes, oldest first, and the map after them. -/
def puts (token : E → T) :
    (K → Option E) → List (Put K T E) → List (Put K T E × Bool) × (K → Option E)
  | m, [] => ([], m)
  | m, p :: ps =>
    let r := puts token (put token m p).2 ps
    ((p, (put token m p).1) :: r.1, r.2)

/-- The entry of the last successful write of `k` in a list of writes and their results.
-/
def lastPut (k : K) (log : List (Put K T E × Bool)) : Option E :=
  (log.filter fun w => w.1.key = k ∧ w.2).getLast?.map fun w => w.1.entry

omit [DecidableEq T] in
/-- Nothing has been written. -/
@[simp] theorem lastPut_nil (k : K) : lastPut (T := T) (E := E) k [] = none := rfl

omit [DecidableEq T] in
/-- A further write decides the entry of its key when it succeeds, and of no key
otherwise. -/
theorem lastPut_append (k : K) (log : List (Put K T E × Bool)) (w : Put K T E × Bool) :
    lastPut k (log ++ [w]) =
      if w.1.key = k ∧ w.2 then some w.1.entry else lastPut k log := by
  unfold lastPut
  rw [List.filter_append]
  by_cases h : w.1.key = k ∧ w.2
  · simp [h]
  · simp [h]

/-- One more write, after those before. -/
theorem puts_append (m : K → Option E) (ps : List (Put K T E)) (p : Put K T E) :
    puts token m (ps ++ [p]) =
      ((puts token m ps).1 ++ [(p, accepts token (puts token m ps).2 p)],
        (put token (puts token m ps).2 p).2) := by
  induction ps generalizing m with
  | nil => simp [puts]
  | cons q qs ih => simp [puts, ih]

/-- Every key that was written has an entry, even if the write was refused. -/
theorem puts_ne_none (ps : List (Put K T E)) {m : K → Option E} {k : K}
    (h : (∃ p ∈ ps, p.key = k) ∨ m k ≠ none) : (puts token m ps).2 k ≠ none := by
  induction ps generalizing m with
  | nil =>
    show m k ≠ none
    simpa using h
  | cons p ps ih =>
    refine ih ?_
    -- the key is that of this put or of a later one, or was there before; nothing is
    -- ever removed
    rcases h with ⟨q, hq, hqk⟩ | h
    · rcases List.mem_cons.1 hq with rfl | hq
      · exact .inr (put_ne_none (.inl hqk))
      · exact .inl ⟨q, hq, hqk⟩
    · exact .inr (put_ne_none (.inr h))

/-- **The map after a list of writes** holds, under every key, the last successful write
of that key, and the initial entry when there was none. By induction from the last
write. -/
theorem puts_lastPut (m : K → Option E) (ps : List (Put K T E)) (k : K) :
    (puts token m ps).2 k = (lastPut k (puts token m ps).1).or (m k) := by
  induction ps using List.reverseRecOn with
  | nil => simp [puts]
  | append_singleton ps p ih =>
    rw [puts_append, lastPut_append]
    -- the last put is one of this key, accepted or not, or of another one
    by_cases hk : p.key = k
    · subst hk
      cases ha : accepts token (puts token m ps).2 p with
      | true => simp [put_snd_self ha]
      | false => simpa [put_of_not_accepts ha] using ih
    · have hne : k ≠ p.key := fun h => hk h.symm
      simp only [hk, false_and, if_false, put_snd_of_ne hne]
      exact ih

end Versioned
