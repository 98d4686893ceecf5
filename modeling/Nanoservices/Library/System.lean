import Mathlib.Data.List.Induction

/-!
# Labelled transition systems

The systems of this development are nondeterministic labelled transition
systems. A run records the labels it has taken, oldest first, so that a property
of a run may speak about the history (`Run`) and a property of a state about
reachability alone (`Reachable`).

* `System.restrict` keeps the transitions an assumption on the environment
  allows. Every run of the restriction is a run of the system.
* `Run.invariant` is the one induction over runs; `Reachable.invariant` is its
  history-free form. An invariant of a run sees the labels, so that "each task is
  answered at most once" and "the counter is the number of its increments" need no
  ghost fields in the state.
* `Steps` goes on from a state that need not be an initial one. `Run.append` puts
  the two together, and `Run.of_foldlM` turns what a function has computed, label by
  label, into a run.
* `Run.restrict_mono` changes the assumption of a restriction. It may use that the
  state is reachable, so that two assumptions that differ only in unreachable states
  have the same runs.
-/

namespace Lts

/-- A labelled transition system: any number of initial states, and any number of
successors for a label. -/
structure System (State : Type*) (Label : Type*) where
  /-- The initial states. -/
  init : State → Prop
  step : State → Label → State → Prop

namespace System

variable {State Label : Type*}

/-- The transitions of `S` that `allowed` permits. The initial states are the same. -/
def restrict (S : System State Label) (allowed : State → Label → Prop) :
    System State Label where
  init := S.init
  step s l s' := allowed s l ∧ S.step s l s'

/-- A restriction begins where the system does. -/
@[simp] theorem restrict_init (S : System State Label) (allowed : State → Label → Prop) :
    (S.restrict allowed).init = S.init := rfl

/-- And takes its steps, where they are permitted. -/
@[simp] theorem restrict_step (S : System State Label) (allowed : State → Label → Prop)
    (s : State) (l : Label) (s' : State) :
    (S.restrict allowed).step s l s' ↔ allowed s l ∧ S.step s l s' := Iff.rfl

end System

variable {State Label : Type*} {S : System State Label}

/-- `Run S ls s`: some execution from an initial state takes the labels `ls`, oldest
first, and ends in `s`. -/
inductive Run (S : System State Label) : List Label → State → Prop
  | init {s : State} : S.init s → Run S [] s
  | step {ls : List Label} {s s' : State} {l : Label} :
      Run S ls s → S.step s l s' → Run S (ls ++ [l]) s'

/-- `s` is reached by some run. -/
def Reachable (S : System State Label) (s : State) : Prop := ∃ ls, Run S ls s

/-- **Invariance along runs.** A predicate on histories and states that holds initially
and that every step preserves holds of every run. -/
theorem Run.invariant {I : List Label → State → Prop}
    (h_init : ∀ s, S.init s → I [] s)
    (h_step : ∀ ls s l s', Run S ls s → I ls s → S.step s l s' → I (ls ++ [l]) s')
    {ls : List Label} {s : State} (h : Run S ls s) : I ls s := by
  induction h with
  | init h0 => exact h_init _ h0
  | step hr hs ih => exact h_step _ _ _ _ hr ih hs

/-- **Invariance of reachable states.** -/
theorem Reachable.invariant {I : State → Prop}
    (h_init : ∀ s, S.init s → I s)
    (h_step : ∀ s l s', I s → S.step s l s' → I s')
    {s : State} (h : Reachable S s) : I s := by
  obtain ⟨ls, hr⟩ := h
  exact hr.invariant (I := fun _ s => I s) h_init (fun _ s l s' _ hi hs => h_step s l s' hi hs)

/-- Initial states are reached. -/
theorem Reachable.of_init {s : State} (h : S.init s) : Reachable S s := ⟨[], .init h⟩

/-- So is what a step leads to. -/
theorem Reachable.of_step {s s' : State} {l : Label} (h : Reachable S s)
    (hs : S.step s l s') : Reachable S s' := by
  obtain ⟨ls, hr⟩ := h
  exact ⟨ls ++ [l], hr.step hs⟩

/-- The last step of a run, and the run up to it. -/
theorem Run.of_append {ls : List Label} {l : Label} {s : State} (h : Run S (ls ++ [l]) s) :
    ∃ s₀, Run S ls s₀ ∧ S.step s₀ l s := by
  generalize hls : ls ++ [l] = ls' at h
  cases h with
  | init h0 => simp at hls
  | step hr hs =>
    obtain ⟨rfl, heq⟩ := List.append_inj' hls rfl
    cases heq
    exact ⟨_, hr, hs⟩

/-- The first labels of a run are taken by a run. -/
theorem Run.of_initial {ls l : List Label} {s : State} (h : Run S ls s) (hp : l <+: ls) :
    ∃ s', Run S l s' := by
  obtain ⟨tail, rfl⟩ := hp
  induction tail using List.reverseRecOn generalizing s with
  | nil => exact ⟨s, by simpa using h⟩
  | append_singleton tail e ih =>
    rw [← List.append_assoc] at h
    obtain ⟨s₀, hr, -⟩ := h.of_append
    exact ih hr

/-- `Steps S s ls s'`: the labels `ls` lead from `s` to `s'`. Unlike a run it grows at
its front. -/
inductive Steps (S : System State Label) : State → List Label → State → Prop
  | nil (s : State) : Steps S s [] s
  | cons {s s' s'' : State} {l : Label} {ls : List Label} :
      S.step s l s' → Steps S s' ls s'' → Steps S s (l :: ls) s''

/-- Steps after steps. -/
theorem Steps.append {s s' s'' : State} {ls ls' : List Label} (h : Steps S s ls s')
    (h' : Steps S s' ls' s'') : Steps S s (ls ++ ls') s'' := by
  induction h with
  | nil => exact h'
  | cons hs _ ih => exact .cons hs (ih h')

/-- A run that goes on from where it has got to. -/
theorem Run.append {s s' : State} {ls ls' : List Label} (h : Run S ls s)
    (h' : Steps S s ls' s') : Run S (ls ++ ls') s' := by
  induction h' generalizing ls with
  | nil => rwa [List.append_nil]
  | @cons s s' s'' l ls' hs _ ih =>
    have hrest := ih (h.step hs)
    rwa [List.append_assoc] at hrest

/-- Steps that a function takes, one label after the other. By induction on the
labels. -/
theorem Steps.of_foldlM {exec : State → Label → Option State}
    (hexec : ∀ s l s', exec s l = some s' → S.step s l s') {s s' : State} {ls : List Label}
    (h : ls.foldlM exec s = some s') : Steps S s ls s' := by
  induction ls generalizing s with
  | nil =>
    obtain rfl := Option.some.inj h
    exact .nil _
  | cons l ls ih =>
    obtain ⟨s₁, hfirst, hrest⟩ := Option.bind_eq_some_iff.1 h
    exact .cons (hexec _ _ _ hfirst) (ih hrest)

/-- A run that is computed step by step, where each step the function takes is one of
the system. -/
theorem Run.of_foldlM {exec : State → Label → Option State}
    (hexec : ∀ s l s', exec s l = some s' → S.step s l s') {s₀ s : State} (h0 : S.init s₀)
    {ls : List Label} (h : ls.foldlM exec s₀ = some s) : Run S ls s :=
  (Run.init h0).append (Steps.of_foldlM hexec h)

/-- Steps under one assumption are steps under another that follows from it. -/
theorem Steps.restrict_mono {A B : State → Label → Prop} (hAB : ∀ s l, A s l → B s l) {s s' : State}
    {ls : List Label} (h : Steps (S.restrict A) s ls s') : Steps (S.restrict B) s ls s' := by
  induction h with
  | nil => exact .nil _
  | @cons s s' s'' l ls hs _ ih => exact .cons (l := l) ⟨hAB _ _ hs.1, hs.2⟩ ih

/-- A run under an assumption is a run. -/
theorem Run.of_restrict {allowed : State → Label → Prop} {ls : List Label} {s : State}
    (h : Run (S.restrict allowed) ls s) : Run S ls s := by
  induction h with
  | init h0 => exact .init h0
  | step _ hs ih => exact ih.step hs.2

/-- A run that keeps an assumption. -/
theorem Run.to_restrict {allowed : State → Label → Prop}
    (hall : ∀ s l s', S.step s l s' → allowed s l) {ls : List Label} {s : State} (h : Run S ls s) :
    Run (S.restrict allowed) ls s := by
  induction h with
  | init h0 => exact .init h0
  | @step ls s s' l _ hs ih => exact ih.step (l := l) ⟨hall _ _ _ hs, hs⟩

/-- A run under one assumption is a run under another that follows from it in reachable
states. -/
theorem Run.restrict_mono {A B : State → Label → Prop}
    (hAB : ∀ s l s', Reachable S s → S.step s l s' → A s l → B s l)
    {ls : List Label} {s : State} (h : Run (S.restrict A) ls s) : Run (S.restrict B) ls s := by
  induction h with
  | init h0 => exact .init h0
  | step hr hs ih => exact ih.step ⟨hAB _ _ _ ⟨_, hr.of_restrict⟩ hs.2 hs.1, hs.2⟩

/-- One more step that the assumption allows. -/
theorem Reachable.of_allowed {allowed : State → Label → Prop} {s s' : State} {l : Label}
    (h : Reachable (S.restrict allowed) s) (hs : S.step s l s') (hl : allowed s l) :
    Reachable (S.restrict allowed) s' := h.of_step (l := l) ⟨hl, hs⟩

/-- The same of a run. -/
theorem Run.of_allowed {allowed : State → Label → Prop} {ls : List Label} {s s' : State}
    {l : Label} (h : Run (S.restrict allowed) ls s) (hs : S.step s l s') (hl : allowed s l) :
    Run (S.restrict allowed) (ls ++ [l]) s' := h.step (l := l) ⟨hl, hs⟩

/-- What is reached under an assumption is reached. -/
theorem Reachable.of_restrict {allowed : State → Label → Prop} {s : State}
    (h : Reachable (S.restrict allowed) s) : Reachable S s := by
  obtain ⟨ls, hr⟩ := h
  exact ⟨ls, hr.of_restrict⟩

end Lts
