import Mathlib.Algebra.BigOperators.Intervals
import Mathlib.Logic.Function.Basic
import Mathlib.Tactic.Ring
import Nanoservices.Library.System

/-!
# Optimistic retry loops

Agents share a cell that holds a value with a token, or nothing. An agent reads the
cell, computes its new value from what it read, and then tries to write it, naming the
token it read (`absent` when the cell held nothing). The write fails when the cell holds
another token, and the agent starts over; otherwise the cell takes the value with a new
token, which the environment chooses. A computation may fail, which stops its agent.

Three families of facts are proved, each by one step lemma and induction along the run.

* With tokens that never repeat and never are `absent`, every agent that is done has
  been applied exactly once, in the order of the successful writes (`linearized`). A
  writing agent either holds what it would compute now, or its token is out of date for
  good: that is `Attempts`.
* An agent that is alone is applied at most once, whatever the tokens (`alone`). Runs of
  one of these two kinds are `Undisturbed`.
* With arbitrary tokens, a failed write is preceded by another agent's successful write
  since the agent's own read (`aborted`), so the `k`-th agent to succeed failed at most
  `k - 1` times (`charged`), and `n` agents together make at most `n (n + 1) / 2`
  attempts (`attempts_le`).
-/

namespace Optimistic

open Lts

variable {Agent T V : Type*}

/-- Where an agent stands in its loop: before its read, between read and write with the
token it read and the value it computed, at its end, or stopped by a computation that
failed. -/
inductive Phase (T V : Type*)
  | reading
  | writing (version : T) (value : V)
  | exited
  | failed

/-- The shared cell, a token and a value or nothing, and where each agent stands. -/
structure State (Agent T V : Type*) where
  cell : Option (T × V)
  phase : Agent → Phase T V

/-- A step of an agent. A write shows the token it drew and whether it succeeded, though
the agent chooses neither. -/
inductive Event (Agent T : Type*)
  | read (a : Agent)
  | write (a : Agent) (token : T) (ok : Bool)

/-- The agent that takes the step. -/
def Event.agent : Event Agent T → Agent
  | .read a => a
  | .write a _ _ => a

/-- The token of a cell. -/
def version (absent : T) (cell : Option (T × V)) : T := (cell.map Prod.fst).getD absent

/-- The phase an agent enters with the result of its computation on what it has read. -/
def compute (absent : T) (f : Option V → Option V) (cell : Option (T × V)) : Phase T V :=
  match f (cell.map Prod.snd) with
  | some v => .writing (version absent cell) v
  | none => .failed

variable [DecidableEq Agent] [DecidableEq T]

/-- A write succeeds on an empty cell and on the token it names. -/
def accepts (cell : Option (T × V)) (expected : T) : Bool := cell.all fun e => e.1 = expected

/-- The agents of the computations `f` on a cell that holds `cell₀` in the beginning.
Every agent starts at its read; a write that fails sends it back there. Any agent may
take the next step, and a write may draw any token. -/
def loops (absent : T) (f : Agent → Option V → Option V) (cell₀ : Option (T × V)) :
    System (State Agent T V) (Event Agent T) where
  init s := s = ⟨cell₀, fun _ => .reading⟩
  step s
    | .read a, s' => s.phase a = .reading ∧
        s' = ⟨s.cell, Function.update s.phase a (compute absent (f a) s.cell)⟩
    | .write a token ok, s' => ∃ expected v, s.phase a = .writing expected v ∧
        ok = accepts s.cell expected ∧
        s' = if ok then ⟨some (token, v), Function.update s.phase a .exited⟩
          else ⟨s.cell, Function.update s.phase a .reading⟩

/-- The agents that wrote successfully, oldest first. -/
def commits : List (Event Agent T) → List Agent
  | [] => []
  | .write a _ true :: es => a :: commits es
  | _ :: es => commits es

/-- The tokens of the successful writes, oldest first. -/
def tokens : List (Event Agent T) → List T
  | [] => []
  | .write _ token true :: es => token :: tokens es
  | _ :: es => tokens es

/-- How often an agent's write failed. -/
def aborts (a : Agent) : List (Event Agent T) → ℕ
  | [] => 0
  | .write b _ false :: es => aborts a es + if b = a then 1 else 0
  | _ :: es => aborts a es

/-- How many writes were tried. -/
def attempts : List (Event Agent T) → ℕ
  | [] => 0
  | .write _ _ _ :: es => attempts es + 1
  | .read _ :: es => attempts es

omit [DecidableEq Agent] [DecidableEq T] in
theorem commits_append (es es' : List (Event Agent T)) :
    commits (es ++ es') = commits es ++ commits es' := by
  induction es with
  | nil => rfl
  | cons e es ih =>
    rcases e with a | ⟨a, t, _ | _⟩ <;> simp [commits, ih]

omit [DecidableEq Agent] [DecidableEq T] in
theorem tokens_append (es es' : List (Event Agent T)) :
    tokens (es ++ es') = tokens es ++ tokens es' := by
  induction es with
  | nil => rfl
  | cons e es ih =>
    rcases e with a | ⟨a, t, _ | _⟩ <;> simp [tokens, ih]

section Last

variable (es : List (Event Agent T)) (a : Agent) (t : T)

omit [DecidableEq Agent] [DecidableEq T]

theorem commits_append_read : commits (es ++ [.read a]) = commits es := by
  simp [commits_append, commits]

theorem commits_append_commit : commits (es ++ [.write a t true]) = commits es ++ [a] := by
  simp [commits_append, commits]

theorem commits_append_abort : commits (es ++ [.write a t false]) = commits es := by
  simp [commits_append, commits]

theorem tokens_append_read : tokens (es ++ [.read a]) = tokens es := by
  simp [tokens_append, tokens]

theorem tokens_append_commit : tokens (es ++ [.write a t true]) = tokens es ++ [t] := by
  simp [tokens_append, tokens]

theorem tokens_append_abort : tokens (es ++ [.write a t false]) = tokens es := by
  simp [tokens_append, tokens]

end Last

omit [DecidableEq T] in
/-- An agent that is still writing after another phase was set is not the one it was set
for. -/
theorem writing_of_update {phase : Agent → Phase T V} {a b : Agent} {p : Phase T V}
    {expected : T} {v : V} (hp : p ≠ .writing expected v)
    (h : Function.update phase a p b = .writing expected v) :
    b ≠ a ∧ phase b = .writing expected v := by
  have hne : b ≠ a := by
    rintro rfl
    exact hp (by simpa using h)
  exact ⟨hne, by rwa [Function.update_of_ne hne] at h⟩

omit [DecidableEq Agent] [DecidableEq T] in
/-- An agent is among those that succeeded when a write of its has. -/
theorem mem_commits {a : Agent} {es : List (Event Agent T)} :
    a ∈ commits es ↔ ∃ t, .write a t true ∈ es := by
  induction es with
  | nil => simp [commits]
  | cons e es ih =>
    -- a read, a refused write, or an accepted one, which is a commit
    rcases e with b | ⟨b, t, _ | _⟩
    · simp [commits, ih]
    · simp [commits, ih]
    · simp only [commits, List.mem_cons, ih, Event.write.injEq, and_true]
      constructor
      · rintro (rfl | ⟨t', ht'⟩)
        · exact ⟨t, .inl ⟨rfl, rfl⟩⟩
        · exact ⟨t', .inr ht'⟩
      · rintro ⟨t', ⟨rfl, -⟩ | ht'⟩
        · exact .inl rfl
        · exact .inr ⟨t', ht'⟩

omit [DecidableEq T] in
/-- Failed writes are counted piece by piece. -/
theorem aborts_append (a : Agent) (es es' : List (Event Agent T)) :
    aborts a (es ++ es') = aborts a es + aborts a es' := by
  induction es with
  | nil => simp [aborts]
  | cons e es ih =>
    rcases e with b | ⟨b, t, _ | _⟩ <;> simp only [List.cons_append, aborts, ih]
    omega

/-- **The three kinds of step**, with all they change. Every invariant below is proved
by these cases, and none unfolds the step again. -/
theorem step_cases {absent : T} {f : Agent → Option V → Option V} {cell₀ : Option (T × V)}
    {s s' : State Agent T V} {e : Event Agent T} (h : (loops absent f cell₀).step s e s') :
    (∃ a, e = .read a ∧ s.phase a = .reading ∧
      s' = ⟨s.cell, Function.update s.phase a (compute absent (f a) s.cell)⟩) ∨
    (∃ a t expected v, e = .write a t true ∧ s.phase a = .writing expected v ∧
      accepts s.cell expected = true ∧
      s' = ⟨some (t, v), Function.update s.phase a .exited⟩) ∨
    (∃ a t expected v, e = .write a t false ∧ s.phase a = .writing expected v ∧
      accepts s.cell expected = false ∧
      s' = ⟨s.cell, Function.update s.phase a .reading⟩) := by
  -- a read, an accepted write or a refused one
  cases e with
  | read a => exact .inl ⟨a, rfl, h.1, h.2⟩
  | write a t ok =>
    obtain ⟨expected, v, hphase, hok, hs'⟩ := h
    cases ok with
    | true => exact .inr (.inl ⟨a, t, expected, v, rfl, hphase, hok.symm, hs'⟩)
    | false => exact .inr (.inr ⟨a, t, expected, v, rfl, hphase, hok.symm, hs'⟩)

/-! ### Exactly once -/

omit [DecidableEq Agent] [DecidableEq T] in
/-- `Applied f o as o'`: the computations of the agents `as`, in this order, lead from
the value `o` to the value `o'`. -/
inductive Applied (f : Agent → Option V → Option V) (o : Option V) :
    List Agent → Option V → Prop
  | nil : Applied f o [] o
  | snoc {as : List Agent} {o' : Option V} {a : Agent} {v : V} :
      Applied f o as o' → f a o' = some v → Applied f o (as ++ [a]) (some v)

/-- A writing agent is up to date, or its token is out of date: the cell holds another
one. With fresh tokens the second is for good. -/
def Attempts (absent : T) (f : Option V → Option V) (cell : Option (T × V)) (expected : T)
    (v : V) : Prop :=
  (expected = version absent cell ∧ f (cell.map Prod.snd) = some v) ∨
    ∃ t w, cell = some (t, w) ∧ t ≠ expected

/-- The tokens of a run never are `absent` and never repeat, the token the cell held in
the beginning included. -/
structure Fresh (absent : T) (cell₀ : Option (T × V)) (es : List (Event Agent T)) : Prop where
  ne_absent : absent ∉ tokens es
  nodup : ((cell₀.map Prod.fst).toList ++ tokens es).Nodup

/-- The invariant of runs with fresh tokens. `applied` says what the cell holds,
`exited_iff` who is done, and `attempt` why the next write is right: if it is accepted,
it was computed from the value the cell has. `seen` and `token_mem` keep the tokens
apart. -/
structure Linearized (absent : T) (f : Agent → Option V → Option V) (cell₀ : Option (T × V))
    (es : List (Event Agent T)) (s : State Agent T V) : Prop where
  /-- The cell's value is that of the successful agents, applied in order. -/
  applied : Applied f (cell₀.map Prod.snd) (commits es) (s.cell.map Prod.snd)
  nodup : (commits es).Nodup
  /-- The agents that are done are those that succeeded. -/
  exited_iff : ∀ a, a ∈ commits es ↔ s.phase a = .exited
  attempt : ∀ a expected v, s.phase a = .writing expected v →
    Attempts absent (f a) s.cell expected v
  /-- An agent's token was stored before, or stands for the empty cell. -/
  seen : ∀ a expected v, s.phase a = .writing expected v →
    expected = absent ∨ expected ∈ (cell₀.map Prod.fst).toList ++ tokens es
  token_mem : ∀ t v, s.cell = some (t, v) → t ∈ (cell₀.map Prod.fst).toList ++ tokens es

variable {absent : T} {f : Agent → Option V → Option V} {cell₀ : Option (T × V)}

omit [DecidableEq Agent] [DecidableEq T] in
/-- So are those of each part of the run from its beginning. -/
theorem Fresh.of_append {es es' : List (Event Agent T)} (h : Fresh absent cell₀ (es ++ es')) :
    Fresh absent cell₀ es where
  ne_absent hmem := h.ne_absent (by rw [tokens_append]; exact List.mem_append_left _ hmem)
  nodup := by
    have hnodup := h.nodup
    rw [tokens_append, ← List.append_assoc] at hnodup
    exact (List.nodup_append.mp hnodup).1

omit [DecidableEq Agent] [DecidableEq T] in
/-- What an agent writes it has computed from the cell, and it names the cell's
token. -/
theorem compute_eq_writing {g : Option V → Option V} {cell : Option (T × V)} {expected : T}
    {v : V} (h : compute absent g cell = .writing expected v) :
    expected = version absent cell ∧ g (cell.map Prod.snd) = some v := by
  unfold compute at h
  split at h
  · next w hw =>
    cases h
    exact ⟨rfl, hw⟩
  · cases h

omit [DecidableEq Agent] [DecidableEq T] in
/-- A read never ends an agent's loop well. -/
theorem compute_ne_exited (g : Option V → Option V) (cell : Option (T × V)) :
    compute absent g cell ≠ .exited := by
  unfold compute
  split <;> simp

/-- A write that names the cell's token is accepted. -/
theorem accepts_of_eq_version {cell : Option (T × V)} {expected : T}
    (h : expected = version absent cell) : accepts cell expected = true := by
  subst h
  cases cell with
  | none => rfl
  | some e => simp [accepts, version]

/-- **A successful attempt is up to date.** -/
theorem Attempts.of_accepts {g : Option V → Option V} {cell : Option (T × V)} {expected : T}
    {v : V} (h : Attempts absent g cell expected v) (hacc : accepts cell expected = true) :
    g (cell.map Prod.snd) = some v := by
  rcases h with ⟨-, hv⟩ | ⟨t, w, rfl, hne⟩
  · exact hv
  · simp [accepts, hne] at hacc

omit [DecidableEq Agent] [DecidableEq T] in
/-- In the beginning nobody has done anything. -/
theorem Linearized.initial : Linearized absent f cell₀ [] ⟨cell₀, fun _ => .reading⟩ where
  applied := .nil
  nodup := List.nodup_nil
  exited_iff a := by simp [commits]
  attempt a _ _ h := by cases h
  seen a _ _ h := by cases h
  token_mem t v h := by
    have hc : cell₀ = some (t, v) := h
    simp [hc]

omit [DecidableEq T] in
/-- A read: the attempt of `a` is up to date. The cell has not changed, so the others
stand as they did. -/
theorem Linearized.read {es : List (Event Agent T)} {s : State Agent T V}
    (h : Linearized absent f cell₀ es s) {a : Agent} (ha : s.phase a = .reading) :
    Linearized absent f cell₀ (es ++ [.read a])
      ⟨s.cell, Function.update s.phase a (compute absent (f a) s.cell)⟩ := by
  have hcommits : commits (es ++ [.read a]) = commits es := commits_append_read es a
  have htokens : tokens (es ++ [.read a]) = tokens es := tokens_append_read es a
  refine ⟨hcommits ▸ h.applied, hcommits ▸ h.nodup, ?_, ?_, ?_, ?_⟩
  -- `exited_iff`: a read does not end an agent
  · intro b
    rw [hcommits, h.exited_iff]
    by_cases hb : b = a
    · subst hb
      simp [ha, compute_ne_exited]
    · simp [hb]
  -- `attempt`: only `a` has computed something new
  · intro b expected v hphase
    by_cases hb : b = a
    · subst hb
      simp only [Function.update_self] at hphase
      exact .inl (compute_eq_writing hphase)
    · simp only [Function.update_of_ne hb] at hphase
      exact h.attempt b expected v hphase
  -- `seen`: what `a` read was in the cell
  · intro b expected v hphase
    rw [htokens]
    by_cases hb : b = a
    · subst hb
      simp only [Function.update_self] at hphase
      obtain ⟨rfl, -⟩ := compute_eq_writing hphase
      cases hc : s.cell with
      | none => exact .inl rfl
      | some c => exact .inr (h.token_mem c.1 c.2 hc)
    · simp only [Function.update_of_ne hb] at hphase
      exact h.seen b expected v hphase
  · rw [htokens]
    exact h.token_mem

/-- A successful write: its token is new, so every other attempt is out of date. The
value was computed from the one the cell had (`Attempts.of_accepts`), so one more
computation has been applied in order. -/
theorem Linearized.commit {es : List (Event Agent T)} {s : State Agent T V}
    (h : Linearized absent f cell₀ es s) {a : Agent} {t expected : T} {v : V}
    (hfresh : Fresh absent cell₀ (es ++ [.write a t true]))
    (ha : s.phase a = .writing expected v) (hacc : accepts s.cell expected = true) :
    Linearized absent f cell₀ (es ++ [.write a t true])
      ⟨some (t, v), Function.update s.phase a .exited⟩ := by
  have hcommits : commits (es ++ [.write a t true]) = commits es ++ [a] :=
    commits_append_commit es a t
  have htokens : tokens (es ++ [.write a t true]) = tokens es ++ [t] :=
    tokens_append_commit es a t
  have hmem : a ∉ commits es := by
    rw [h.exited_iff, ha]
    simp
  have hnew : t ∉ (cell₀.map Prod.fst).toList ++ tokens es := by
    have hnodup := hfresh.nodup
    rw [htokens, ← List.append_assoc] at hnodup
    exact fun hm => (List.nodup_append.mp hnodup).2.2 t hm t (List.mem_singleton_self t) rfl
  have habsent : t ≠ absent := by
    rintro rfl
    exact hfresh.ne_absent (by simp [htokens])
  refine ⟨?_, ?_, ?_, ?_, ?_, ?_⟩
  -- `applied`: the write that succeeds was computed from the cell's present value
  · rw [hcommits]
    exact .snoc h.applied ((h.attempt a expected v ha).of_accepts hacc)
  · rw [hcommits]
    simpa using h.nodup.concat hmem
  -- `exited_iff`
  · intro b
    rw [hcommits]
    by_cases hb : b = a
    · subst hb
      simp
    · simp [hb, h.exited_iff]
  -- `attempt`: the token in the cell is one that nobody else has seen
  · intro b expected' v' hphase
    obtain ⟨-, hold⟩ := writing_of_update (by simp) hphase
    refine .inr ⟨t, v, rfl, ?_⟩
    rintro rfl
    exact (h.seen b _ v' hold).elim habsent hnew
  -- `seen`
  · intro b expected' v' hphase
    obtain ⟨-, hold⟩ := writing_of_update (by simp) hphase
    rw [htokens, ← List.append_assoc]
    exact (h.seen b _ v' hold).imp_right (List.mem_append_left _)
  -- `token_mem`
  · intro t' v' hc
    cases hc
    simp [htokens]

omit [DecidableEq T] in
/-- A failed write: `a` starts over, and nothing else changes. -/
theorem Linearized.abort {es : List (Event Agent T)} {s : State Agent T V}
    (h : Linearized absent f cell₀ es s) {a : Agent} {expected : T} {v : V} (t : T)
    (ha : s.phase a = .writing expected v) :
    Linearized absent f cell₀ (es ++ [.write a t false])
      ⟨s.cell, Function.update s.phase a .reading⟩ := by
  have hcommits : commits (es ++ [.write a t false]) = commits es := commits_append_abort es a t
  have htokens : tokens (es ++ [.write a t false]) = tokens es := tokens_append_abort es a t
  refine ⟨hcommits ▸ h.applied, hcommits ▸ h.nodup, ?_,
    fun b _ _ hb => h.attempt b _ _ (writing_of_update (by simp) hb).2, ?_,
    htokens ▸ h.token_mem⟩
  -- `exited_iff`
  · intro b
    rw [hcommits, h.exited_iff]
    by_cases hb : b = a
    · subst hb
      simp [ha]
    · simp [hb]
  -- `seen`
  · intro b _ _ hb
    rw [htokens]
    exact h.seen b _ _ (writing_of_update (by simp) hb).2

/-- **Every step keeps the invariant.** -/
theorem Linearized.step {es : List (Event Agent T)} {s s' : State Agent T V}
    {e : Event Agent T} (h : Linearized absent f cell₀ es s)
    (hfresh : Fresh absent cell₀ (es ++ [e])) (hs : (loops absent f cell₀).step s e s') :
    Linearized absent f cell₀ (es ++ [e]) s' := by
  rcases step_cases hs with ⟨a, rfl, ha, rfl⟩ | ⟨a, t, expected, v, rfl, ha, hacc, rfl⟩ |
    ⟨a, t, expected, v, rfl, ha, -, rfl⟩
  · exact h.read ha
  · exact h.commit hfresh ha hacc
  · exact h.abort t ha

/-- **Exactly once.** In a run with fresh tokens the agents that are done have each been
applied exactly once, in the order of their successful writes. -/
theorem linearized {es : List (Event Agent T)} {s : State Agent T V}
    (h : Run (loops absent f cell₀) es s) (hfresh : Fresh absent cell₀ es) :
    Linearized absent f cell₀ es s := by
  induction h with
  | init h0 =>
    obtain rfl : _ = _ := h0
    exact .initial
  | step _ hs ih => exact (ih hfresh.of_append).step hfresh hs

/-! ### Undisturbed runs -/

/-- The agents that are done have each been applied exactly once, in some order. This is
what the two kinds of run have in common. -/
structure Serial (f : Agent → Option V → Option V) (cell₀ : Option (T × V))
    (es : List (Event Agent T)) (s : State Agent T V) : Prop where
  applied : Applied f (cell₀.map Prod.snd) (commits es) (s.cell.map Prod.snd)
  nodup : (commits es).Nodup
  exited_iff : ∀ a, a ∈ commits es ↔ s.phase a = .exited

/-- The tokens are fresh, or there is one agent only. -/
def Undisturbed (absent : T) (cell₀ : Option (T × V)) (es : List (Event Agent T)) : Prop :=
  Fresh absent cell₀ es ∨ ∃ a, ∀ e ∈ es, e.agent = a

omit [DecidableEq Agent] [DecidableEq T] in
/-- So is each part of such a run from its beginning. -/
theorem Undisturbed.of_append {es es' : List (Event Agent T)}
    (h : Undisturbed absent cell₀ (es ++ es')) : Undisturbed absent cell₀ es := by
  rcases h with hfresh | ⟨a, ha⟩
  · exact .inl hfresh.of_append
  · exact .inr ⟨a, fun e he => ha e (List.mem_append_left _ he)⟩

/-- The invariant of an agent that is alone, whatever the tokens: nothing happens to the
cell before it is done. -/
structure Alone (f : Agent → Option V → Option V) (cell₀ : Option (T × V)) (a : Agent)
    (es : List (Event Agent T)) (s : State Agent T V) : Prop where
  others : ∀ b, b ≠ a → s.phase b = .reading
  before : s.phase a ≠ .exited → s.cell = cell₀ ∧ commits es = []
  attempt : ∀ expected v, s.phase a = .writing expected v → f a (cell₀.map Prod.snd) = some v
  after : s.phase a = .exited → commits es = [a] ∧
    ∃ v, f a (cell₀.map Prod.snd) = some v ∧ s.cell.map Prod.snd = some v

/-- Each step of the agent keeps it: its read finds the cell as it was in the beginning,
and so does its write. -/
theorem Alone.step {a : Agent} {es : List (Event Agent T)} {s s' : State Agent T V}
    {e : Event Agent T} (h : Alone f cell₀ a es s) (he : e.agent = a)
    (hs : (loops absent f cell₀).step s e s') : Alone f cell₀ a (es ++ [e]) s' := by
  rcases step_cases hs with ⟨b, rfl, ha, rfl⟩ | ⟨b, t, expected, v, rfl, ha, -, rfl⟩ |
    ⟨b, t, expected, v, rfl, ha, -, rfl⟩
  all_goals
    obtain rfl : b = a := he
    have hother : ∀ c, c ≠ b → ∀ phase, Function.update s.phase b phase c = .reading :=
      fun c hc phase => by rw [Function.update_of_ne hc, h.others c hc]
    obtain ⟨hcell, hnone⟩ := h.before (by simp [ha])
  -- a read
  · refine ⟨fun c hc => hother c hc _, fun _ => ⟨hcell, ?_⟩, fun expected v hphase => ?_,
      fun hphase => ?_⟩
    · rw [commits_append_read, hnone]
    · simp only [Function.update_self] at hphase
      rw [← hcell]
      exact (compute_eq_writing hphase).2
    · simp only [Function.update_self] at hphase
      exact absurd hphase (compute_ne_exited _ _)
  -- a write that succeeds
  · refine ⟨fun c hc => hother c hc _, fun hphase => ?_, fun expected v hphase => ?_,
      fun _ => ⟨by simp [commits_append_commit, hnone], v, h.attempt expected v ha, rfl⟩⟩
    · simp at hphase
    · simp at hphase
  -- a write that fails
  · refine ⟨fun c hc => hother c hc _, fun _ => ⟨hcell, ?_⟩, fun expected v hphase => ?_,
      fun hphase => ?_⟩
    · rw [commits_append_abort, hnone]
    · simp at hphase
    · simp at hphase

/-- So it is along its run. -/
theorem alone {a : Agent} {es : List (Event Agent T)} {s : State Agent T V}
    (h : Run (loops absent f cell₀) es s) (ha : ∀ e ∈ es, e.agent = a) :
    Alone f cell₀ a es s := by
  induction h with
  | init h0 =>
    obtain rfl : _ = _ := h0
    exact ⟨fun _ _ => rfl, fun _ => ⟨rfl, rfl⟩, nofun, nofun⟩
  | step _ hs ih =>
    exact (ih fun e he => ha e (List.mem_append_left _ he)).step (ha _ (by simp)) hs

/-- **Undisturbed runs are serial**, for either of the two reasons. -/
theorem Undisturbed.serial {es : List (Event Agent T)} {s : State Agent T V}
    (hu : Undisturbed absent cell₀ es) (h : Run (loops absent f cell₀) es s) :
    Serial f cell₀ es s := by
  -- with fresh tokens the run is linearized; alone, the one agent has written or not
  rcases hu with hfresh | ⟨a, ha⟩
  · have hlin := linearized h hfresh
    exact ⟨hlin.applied, hlin.nodup, hlin.exited_iff⟩
  · have halone := alone h ha
    by_cases hphase : s.phase a = .exited
    · obtain ⟨hcommits, v, hv, hcell⟩ := halone.after hphase
      refine ⟨?_, by simp [hcommits], fun b => ?_⟩
      · have happlied : Applied f (cell₀.map Prod.snd) ([] ++ [a]) (some v) := .snoc .nil hv
        rw [hcommits, hcell]
        exact happlied
      · by_cases hb : b = a
        · subst hb
          simp [hcommits, hphase]
        · simp [hcommits, hb, halone.others b hb]
    · obtain ⟨hcell, hcommits⟩ := halone.before hphase
      refine ⟨?_, by simp [hcommits], fun b => ?_⟩
      · rw [hcommits, hcell]
        exact .nil
      · by_cases hb : b = a
        · subst hb
          simp [hcommits, hphase]
        · simp [hcommits, halone.others b hb]

/-! ### Failed writes -/

/-- The invariant of all runs, whatever the tokens: a writing agent's last step was its
read, and without a successful write since its write is going to succeed. -/
def SinceRead (es : List (Event Agent T)) (s : State Agent T V) : Prop :=
  ∀ a expected v, s.phase a = .writing expected v →
    ∃ es₁ es₂, es = es₁ ++ .read a :: es₂ ∧ (∀ e ∈ es₂, e.agent ≠ a) ∧
      (commits es₂ = [] → accepts s.cell expected = true)

/-- Each step keeps it. A read is the agent's own last step; the write of another agent
that succeeds is then one since the read, and one that fails leaves the cell. -/
theorem SinceRead.step {es : List (Event Agent T)} {s s' : State Agent T V}
    {e : Event Agent T} (h : SinceRead es s) (hs : (loops absent f cell₀).step s e s') :
    SinceRead (es ++ [e]) s' := by
  intro b expected' v' hphase
  -- the other agents' reads stay where they are
  have hkeep : ∀ {cell : Option (T × V)}, e.agent ≠ b → s.phase b = .writing expected' v' →
      (commits [e] = [] → cell = s.cell) →
      ∃ es₁ es₂, es ++ [e] = es₁ ++ .read b :: es₂ ∧ (∀ e ∈ es₂, e.agent ≠ b) ∧
        (commits es₂ = [] → accepts cell expected' = true) := by
    intro cell hne hb hcell
    obtain ⟨es₁, es₂, rfl, hother, hacc⟩ := h b expected' v' hb
    refine ⟨es₁, es₂ ++ [e], by simp, ?_, ?_⟩
    -- no step of `b` is added
    · intro e' he'
      rcases List.mem_append.mp he' with he' | he'
      · exact hother e' he'
      · rwa [List.mem_singleton.mp he']
    -- without a success the cell is the same
    · intro hnone
      rw [commits_append, List.append_eq_nil_iff] at hnone
      rw [hcell hnone.2]
      exact hacc hnone.1
  rcases step_cases hs with ⟨a, rfl, ha, rfl⟩ | ⟨a, t, expected, v, rfl, ha, -, rfl⟩ |
    ⟨a, t, expected, v, rfl, ha, -, rfl⟩
  -- a read: that of `a` is the last step of all
  · by_cases hb : b = a
    · subst hb
      simp only [Function.update_self] at hphase
      refine ⟨es, [], rfl, by simp, fun _ => ?_⟩
      exact accepts_of_eq_version (compute_eq_writing hphase).1
    · simp only [Function.update_of_ne hb] at hphase
      exact hkeep (Ne.symm hb) hphase fun _ => rfl
  -- a write that succeeds ends `a`, and counts as a success for the others
  · by_cases hb : b = a
    · subst hb
      simp at hphase
    · simp only [Function.update_of_ne hb] at hphase
      exact hkeep (Ne.symm hb) hphase fun hc => by simp [commits] at hc
  -- a write that fails
  · by_cases hb : b = a
    · subst hb
      simp at hphase
    · simp only [Function.update_of_ne hb] at hphase
      exact hkeep (Ne.symm hb) hphase fun _ => rfl

/-- So it is along each run. -/
theorem sinceRead {es : List (Event Agent T)} {s : State Agent T V}
    (h : Run (loops absent f cell₀) es s) : SinceRead es s := by
  refine h.invariant ?_ fun _ _ _ _ _ hi hs => hi.step hs
  rintro s hinit a expected v hphase
  obtain rfl : s = _ := hinit
  cases hphase

/-- **A failed write has a cause**: another agent's write succeeded since the agent's
read. Without one it would have been accepted (`SinceRead`). -/
theorem aborted {es : List (Event Agent T)} {s : State Agent T V} {a : Agent} {t : T}
    (h : Run (loops absent f cell₀) (es ++ [.write a t false]) s) :
    ∃ es₁ es₂, es = es₁ ++ .read a :: es₂ ∧ (∀ e ∈ es₂, e.agent ≠ a) ∧
      ∃ b t', b ≠ a ∧ .write b t' true ∈ es₂ := by
  obtain ⟨s₀, hr, hs⟩ := h.of_append
  obtain ⟨expected, v, ha, hacc, -⟩ := hs
  obtain ⟨es₁, es₂, hes, hother, hok⟩ := sinceRead hr a expected v ha
  refine ⟨es₁, es₂, hes, hother, ?_⟩
  have hne : commits es₂ ≠ [] := fun hnil => by simp [hok hnil] at hacc
  obtain ⟨b, hb⟩ := List.exists_mem_of_ne_nil _ hne
  obtain ⟨t', hmem⟩ := mem_commits.mp hb
  exact ⟨b, t', hother _ hmem, hmem⟩

/-! ### How many writes fail -/

/-- The invariant behind the bounds, whatever the tokens: an agent's failed writes are
charged to successful ones, and a writing agent that has been charged for all of them is
going to succeed. `position` is the bound for those that have succeeded, `le` that for
the others. -/
structure Charged (es : List (Event Agent T)) (s : State Agent T V) : Prop where
  exited : ∀ a ∈ commits es, s.phase a = .exited
  nodup : (commits es).Nodup
  le : ∀ a, aborts a es ≤ (commits es).length
  /-- An agent that succeeded was charged for the earlier successes only. -/
  position : ∀ as₁ a as₂, commits es = as₁ ++ a :: as₂ → aborts a es ≤ as₁.length
  attempt : ∀ a expected v, s.phase a = .writing expected v →
    aborts a es < (commits es).length ∨ accepts s.cell expected = true

/-- A read: the attempt of `a` would succeed now, whether or not it has been charged for
all. -/
theorem Charged.read {es : List (Event Agent T)} {s : State Agent T V} (h : Charged es s)
    {a : Agent} (ha : s.phase a = .reading) :
    Charged (es ++ [.read a])
      ⟨s.cell, Function.update s.phase a (compute absent (f a) s.cell)⟩ := by
  have hcommits : commits (es ++ [.read a]) = commits es := commits_append_read es a
  have haborts : ∀ b, aborts b (es ++ [.read a]) = aborts b es := fun b => by
    simp [aborts_append, aborts]
  refine ⟨?_, hcommits ▸ h.nodup, ?_, ?_, ?_⟩
  -- `exited`
  · intro b hb
    rw [hcommits] at hb
    have hne : b ≠ a := by
      rintro rfl
      simp [h.exited b hb] at ha
    simpa [hne] using h.exited b hb
  · simpa only [hcommits, haborts] using h.le
  · simpa only [hcommits, haborts] using h.position
  -- `attempt`
  · intro b expected v hphase
    rw [hcommits, haborts]
    by_cases hb : b = a
    · subst hb
      simp only [Function.update_self] at hphase
      exact .inr (accepts_of_eq_version (compute_eq_writing hphase).1)
    · simp only [Function.update_of_ne hb] at hphase
      exact h.attempt b expected v hphase

/-- A successful write: every other attempt may now be charged for it. The agent takes
the last position, and has been charged for no more than the earlier ones. -/
theorem Charged.commit {es : List (Event Agent T)} {s : State Agent T V} (h : Charged es s)
    {a : Agent} (t : T) {expected : T} {v : V} (ha : s.phase a = .writing expected v) :
    Charged (es ++ [.write a t true]) ⟨some (t, v), Function.update s.phase a .exited⟩ := by
  have hcommits : commits (es ++ [.write a t true]) = commits es ++ [a] :=
    commits_append_commit es a t
  have haborts : ∀ b, aborts b (es ++ [.write a t true]) = aborts b es := fun b => by
    simp [aborts_append, aborts]
  have hmem : a ∉ commits es := fun hm => by simp [h.exited a hm] at ha
  have hlen : (commits (es ++ [.write a t true])).length = (commits es).length + 1 := by
    simp [hcommits]
  refine ⟨?_, ?_, ?_, ?_, ?_⟩
  -- `exited`
  · intro b hb
    rw [hcommits] at hb
    by_cases hba : b = a
    · subst hba
      simp
    · have hold : b ∈ commits es := by simpa [hba] using hb
      simpa [hba] using h.exited b hold
  · rw [hcommits]
    simpa using h.nodup.concat hmem
  -- `le`: one more success may be charged
  · intro b
    rw [haborts, hlen]
    exact Nat.le_succ_of_le (h.le b)
  -- `position`: the last success is that of `a` itself, the others are where they were
  · intro as₁ b as₂ heq
    rw [haborts]
    rw [hcommits] at heq
    rcases List.eq_nil_or_concat as₂ with rfl | ⟨init, last, rfl⟩
    · obtain ⟨rfl, -⟩ := List.append_inj' heq rfl
      exact h.le b
    · rw [List.concat_eq_append, ← List.cons_append, ← List.append_assoc] at heq
      obtain ⟨heq', -⟩ := List.append_inj' heq rfl
      exact h.position as₁ b init heq'
  -- `attempt`
  · intro b _ _ _
    rw [haborts, hlen]
    exact .inl (Nat.lt_succ_of_le (h.le b))

/-- A failed write: `a` had not been charged for every success yet, as otherwise it
would have succeeded. Now it is charged for one more. -/
theorem Charged.abort {es : List (Event Agent T)} {s : State Agent T V} (h : Charged es s)
    {a : Agent} (t : T) {expected : T} {v : V} (ha : s.phase a = .writing expected v)
    (hacc : accepts s.cell expected = false) :
    Charged (es ++ [.write a t false]) ⟨s.cell, Function.update s.phase a .reading⟩ := by
  have hcommits : commits (es ++ [.write a t false]) = commits es := commits_append_abort es a t
  have haborts : ∀ b, b ≠ a → aborts b (es ++ [.write a t false]) = aborts b es := fun b hb => by
    simp [aborts_append, aborts, hb.symm]
  have hself : aborts a (es ++ [.write a t false]) = aborts a es + 1 := by
    simp [aborts_append, aborts]
  have hlt : aborts a es < (commits es).length :=
    (h.attempt a expected v ha).resolve_right (by simp [hacc])
  have hne : ∀ b ∈ commits es, b ≠ a := by
    rintro b hb rfl
    simp [h.exited b hb] at ha
  refine ⟨?_, hcommits ▸ h.nodup, ?_, ?_, ?_⟩
  -- `exited`
  · intro b hb
    rw [hcommits] at hb
    simpa [hne b hb] using h.exited b hb
  -- `le`: only `a` is charged, and had one success to spare
  · intro b
    rw [hcommits]
    by_cases hb : b = a
    · subst hb
      rw [hself]
      exact hlt
    · rw [haborts b hb]
      exact h.le b
  -- `position`: `a` is not among the successes
  · intro as₁ b as₂ heq
    rw [hcommits] at heq
    rw [haborts b (hne b (by simp [heq]))]
    exact h.position as₁ b as₂ heq
  -- `attempt`
  · intro b expected' v' hphase
    obtain ⟨hb, hold⟩ := writing_of_update (by simp) hphase
    rw [hcommits, haborts b hb]
    exact h.attempt b expected' v' hold

/-- **Every step keeps the charges**, by cases of the step. -/
theorem Charged.step {es : List (Event Agent T)} {s s' : State Agent T V}
    {e : Event Agent T} (h : Charged es s) (hs : (loops absent f cell₀).step s e s') :
    Charged (es ++ [e]) s' := by
  rcases step_cases hs with ⟨a, rfl, ha, rfl⟩ | ⟨a, t, expected, v, rfl, ha, -, rfl⟩ |
    ⟨a, t, expected, v, rfl, ha, hacc, rfl⟩
  · exact h.read ha
  · exact h.commit t ha
  · exact h.abort t ha hacc

/-- So they are right along each run. -/
theorem charged {es : List (Event Agent T)} {s : State Agent T V}
    (h : Run (loops absent f cell₀) es s) : Charged es s := by
  refine h.invariant ?_ fun _ _ _ _ _ hi hs => hi.step hs
  rintro s hinit
  obtain rfl : s = _ := hinit
  exact ⟨by simp [commits], List.nodup_nil, by simp [aborts], by simp [commits],
    fun a _ _ ha => by cases ha⟩

/-- Positions bound a sum: when the `i`-th item of a list counts for at most `i`, the
items count for `0 + 1 + 2 + …` together. By induction from the last item. -/
theorem two_mul_sum_le {α : Type*} (g : α → ℕ) (l : List α)
    (h : ∀ l₁ a l₂, l = l₁ ++ a :: l₂ → g a ≤ l₁.length) :
    2 * (l.map g).sum ≤ l.length * (l.length - 1) := by
  -- the last element adds at most as much as the list is long
  induction l using List.reverseRecOn with
  | nil => simp
  | append_singleton l a ih =>
    have hl := ih fun l₁ b l₂ heq => h l₁ b (l₂ ++ [a]) (by simp [heq])
    have ha : g a ≤ l.length := h l a [] rfl
    simp only [List.map_append, List.map_cons, List.map_nil, List.sum_append, List.sum_cons,
      List.sum_nil, List.length_append, List.length_cons, List.length_nil, Nat.add_zero,
      Nat.zero_add, Nat.add_sub_cancel]
    cases hn : l.length with
    | zero =>
      rw [hn] at ha hl
      omega
    | succ n =>
      rw [hn] at ha hl
      simp only [Nat.add_sub_cancel] at hl
      have hstep : (n + 1 + 1) * (n + 1) = (n + 1) * n + 2 * (n + 1) := by ring
      omega

omit [DecidableEq T] in
/-- The attempts of a run are its failed and its successful writes. -/
theorem attempts_eq {A : Finset Agent} {es : List (Event Agent T)}
    (hA : ∀ e ∈ es, e.agent ∈ A) :
    attempts es = (∑ a ∈ A, aborts a es) + (commits es).length := by
  induction es with
  | nil => simp [attempts, aborts, commits]
  | cons e es ih =>
    have ih' := ih fun e' he' => hA e' (List.mem_cons_of_mem _ he')
    have he := hA e List.mem_cons_self
    rcases e with a | ⟨a, t, _ | _⟩
    -- a read
    · simpa [attempts, aborts, commits] using ih'
    · have hsum : (∑ b ∈ A, if a = b then 1 else 0) = 1 := by
        rw [Finset.sum_ite_eq]
        exact if_pos he
      simp only [attempts, aborts, commits, Finset.sum_add_distrib, hsum, ih']
      omega
    · simp only [attempts, aborts, commits, List.length_cons, ih']
      omega

/-- **At most `n (n + 1) / 2` attempts** are made by `n` agents. Put in the order of
their successes, with those that have not succeeded behind, the `i`-th agent has failed
at most `i` times, counted from 0; and each succeeds once at most. -/
theorem attempts_le {A : Finset Agent} {es : List (Event Agent T)} {s : State Agent T V}
    (h : Run (loops absent f cell₀) es s) (hA : ∀ e ∈ es, e.agent ∈ A) :
    attempts es ≤ A.card * (A.card + 1) / 2 := by
  have hc := charged h
  have hsub : ∀ a ∈ commits es, a ∈ A := fun a ha => by
    obtain ⟨t, ht⟩ := mem_commits.mp ha
    exact hA _ ht
  -- the agents in the order of their successes, the others behind them
  set l := commits es ++ (A.filter (· ∉ commits es)).toList with hl
  have hnodup : l.Nodup := List.nodup_append.mpr ⟨hc.nodup, Finset.nodup_toList _, by
    rintro a ha b hb rfl
    simp [ha] at hb⟩
  have hset : l.toFinset = A := by
    ext a
    simp only [hl, List.mem_toFinset, List.mem_append, Finset.mem_toList, Finset.mem_filter]
    constructor
    · rintro (ha | ha)
      · exact hsub a ha
      · exact ha.1
    · intro ha
      by_cases hmem : a ∈ commits es
      · exact .inl hmem
      · exact .inr ⟨ha, hmem⟩
  have hcard : l.length = A.card := by rw [← hset, List.toFinset_card_of_nodup hnodup]
  have hsum : ∑ a ∈ A, aborts a es = (l.map fun a => aborts a es).sum := by
    rw [← hset, List.sum_toFinset _ hnodup]
  -- an agent that has not succeeded has failed at most once for each success, and is
  -- behind all of them
  have hpos := two_mul_sum_le (fun a => aborts a es) l (by
    intro l₁ a l₂ heq
    rcases List.append_eq_append_iff.mp (hl ▸ heq) with ⟨m, hm, -⟩ | ⟨m, hm, hm'⟩
    · exact (hc.le a).trans (by simp [hm])
    · cases m with
      | nil => exact (hc.le a).trans (by simp [hm])
      | cons b m =>
        rw [List.cons_append] at hm'
        cases hm'
        exact hc.position l₁ a m hm)
  have hlen : (commits es).length ≤ A.card := by
    rw [← hcard, hl]
    simp
  rw [attempts_eq hA, hsum, Nat.le_div_iff_mul_le (by decide)]
  rw [hcard] at hpos
  cases hn : A.card with
  | zero =>
    rw [hn] at hpos hlen
    omega
  | succ n =>
    rw [hn] at hpos hlen
    simp only [Nat.add_sub_cancel] at hpos
    have hstep : (n + 1) * (n + 1 + 1) = (n + 1) * n + 2 * (n + 1) := by ring
    omega

end Optimistic
