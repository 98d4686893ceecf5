import Mathlib.Data.Finset.Card
import Mathlib.Data.Finset.Range
import Nanoservices.Library.System

/-!
# Fan-outs

A function makes a number of calls, one for each branch, and counts the branches that
are answered; the continuation of a branch replies when the counter has reached the
total. The branches are answered in any order, each at most once, and calls that were
not made are not answered.

The reply is only ever sent by a continuation, so it is sent once if there is a branch
(`answersOnce_iff`), and never if there is none.
-/

namespace FanOut

open Lts

/-- The branches of a function: how many it counts, and the calls it makes for the first
of them. -/
structure Branches (Call : Type*) where
  total : ℕ
  calls : List Call
  length_le : calls.length ≤ total

/-- What the function keeps: the branches it has made, which of them have been answered,
its counter, and the replies it has sent. -/
structure State (Call Reply : Type*) where
  /-- None before the calls are made. -/
  branches : Option (Branches Call)
  answered : Finset ℕ
  count : ℕ
  replies : List Reply

inductive Label (Arg : Type*)
  /-- The function makes its calls. -/
  | spread (arg : Arg)
  /-- The continuation of a branch runs. -/
  | answer (i : ℕ)

variable {Arg Call Reply : Type*} (branches : Arg → Option (Branches Call)) (reply : Reply)

/-- Count a branch, and reply if it was the last: what the continuation of a branch
does. -/
def State.react (s : State Call Reply) (b : Branches Call) (i : ℕ) : State Call Reply :=
  { s with
    answered := insert i s.answered
    count := s.count + 1
    replies := if s.count + 1 = b.total then s.replies ++ [reply] else s.replies }

/-- The steps of the function. It spreads once, and a branch that has been called is
answered once at most, at any time after. -/
def fanOut : System (State Call Reply) (Label Arg) where
  init s := s = ⟨none, ∅, 0, []⟩
  step s
    | .spread arg, s' => s.branches = none ∧ ∃ b, branches arg = some b ∧
        s' = { s with branches := some b }
    | .answer i, s' => ∃ b, s.branches = some b ∧ i < b.calls.length ∧ i ∉ s.answered ∧
        s' = s.react reply b i

variable {branches reply}

/-- What the state is at any time: the counter is the number of answered branches, which
have all been called, and there is a reply once all branches that are counted have been
answered. As the reply is sent by a continuation, nothing is replied when there are no
branches. -/
structure Counted (reply : Reply) (s : State Call Reply) : Prop where
  count : s.count = s.answered.card
  none : s.branches = none → s.answered = ∅
  answered : ∀ b, s.branches = some b → s.answered ⊆ Finset.range b.calls.length
  replies : ∀ b, s.branches = some b →
    s.replies = if s.answered.Nonempty ∧ s.answered.card = b.total then [reply] else []
  silent : s.branches = Option.none → s.replies = []

/-- A step keeps the count. Spreading answers nothing; an answer raises the counter to
the number of answered branches, and replies when that is the total. -/
theorem Counted.step {s s' : State Call Reply} {l : Label Arg} (h : Counted reply s)
    (hs : (fanOut branches reply).step s l s') : Counted reply s' := by
  cases l with
  | spread arg =>
    obtain ⟨hnone, b, -, rfl⟩ := hs
    have hempty := h.none hnone
    exact {
      count := h.count
      none := nofun
      answered := fun b' _ => by simp [hempty]
      replies := fun b' _ => by simp [hempty, h.silent hnone]
      silent := nofun }
  | answer i =>
    obtain ⟨b, hb, hi, hnew, rfl⟩ := hs
    have hcard : (insert i s.answered).card = s.answered.card + 1 :=
      Finset.card_insert_of_notMem hnew
    have hsub : insert i s.answered ⊆ Finset.range b.calls.length :=
      Finset.insert_subset (Finset.mem_range.2 hi) (h.answered b hb)
    -- before the last branch nothing was replied
    have hquiet : s.replies = [] := by
      have hle : (insert i s.answered).card ≤ b.total := by
        calc (insert i s.answered).card ≤ (Finset.range b.calls.length).card :=
              Finset.card_le_card hsub
          _ = b.calls.length := Finset.card_range _
          _ ≤ b.total := b.length_le
      rw [h.replies b hb, if_neg (by omega)]
    refine ⟨?_, fun hnone => ?_, fun b' hb' => ?_, fun b' hb' => ?_, fun hnone => ?_⟩
    -- `count`
    · show s.count + 1 = _
      rw [h.count, ← hcard]
      rfl
    -- `none`: the branches are there already
    · exact absurd (hb.symm.trans hnone) (by simp)
    -- `answered`
    · obtain rfl := Option.some.inj (hb.symm.trans hb')
      exact hsub
    -- `replies`: the last answer, and no other, replies
    · obtain rfl := Option.some.inj (hb.symm.trans hb')
      show (if s.count + 1 = b.total then s.replies ++ [reply] else s.replies) =
        if (insert i s.answered).Nonempty ∧ (insert i s.answered).card = b.total then [reply]
        else []
      rw [hquiet, h.count, hcard]
      simp
    -- `silent`
    · exact absurd (hb.symm.trans hnone) (by simp)

/-- So it is along each run. -/
theorem counted {ls : List (Label Arg)} {s : State Call Reply}
    (h : Run (fanOut branches reply) ls s) : Counted reply s := by
  refine h.invariant (I := fun _ s => Counted reply s) ?_ fun _ _ _ _ _ hs hstep => hs.step hstep
  rintro _ rfl
  exact ⟨rfl, fun _ => rfl, nofun, nofun, fun _ => rfl⟩

/-- The branches of a run are those of the argument it was given: it spreads once, so no
other argument takes its place. -/
theorem branches_of_run {ls : List (Label Arg)} {s : State Call Reply} {arg : Arg}
    (h : Run (fanOut branches reply) ls s) :
    (s.branches = none → .spread arg ∉ ls) ∧ (.spread arg ∈ ls → s.branches = branches arg) := by
  refine h.invariant (I := fun ls s => (s.branches = none → .spread arg ∉ ls) ∧
    (.spread arg ∈ ls → s.branches = branches arg)) ?_ ?_
  · rintro _ rfl
    simp
  · rintro ls s l s' - ⟨hnot, hsame⟩ hs
    -- branches are set once, by the step that spreads
    cases l with
    | spread arg' =>
      obtain ⟨hnone, b, hb, rfl⟩ := hs
      refine ⟨nofun, fun hmem => ?_⟩
      rcases List.mem_append.1 hmem with hmem | hmem
      · exact absurd hmem (hnot hnone)
      · cases List.mem_singleton.1 hmem
        exact hb.symm
    | answer i =>
      obtain ⟨b, hb, -, -, rfl⟩ := hs
      refine ⟨fun hnone => absurd (hb.symm.trans hnone) (by simp), fun hmem => ?_⟩
      rcases List.mem_append.1 hmem with hmem | hmem
      · exact hsame hmem
      · cases List.mem_singleton.1 hmem

/-- The function replies at most once, not before all `n` branches were answered, and
once when they are. -/
structure AnswersOnce (n : ℕ) (s : State Call Reply) : Prop where
  atMostOnce : s.replies.length ≤ 1
  notBefore : s.replies ≠ [] → s.answered = Finset.range n
  once : s.answered = Finset.range n → s.replies.length = 1

/-- **A fan-out answers once if it has a branch.** The reply is sent when the number of
answered branches is the total, which is when all of them have been answered. -/
theorem answersOnce_of_pos {s : State Call Reply} (h : Counted reply s) {b : Branches Call}
    (hb : s.branches = some b) (hpos : b.total ≠ 0) : AnswersOnce b.total s := by
  have hreplies := h.replies b hb
  have hsub : s.answered ⊆ Finset.range b.total :=
    (h.answered b hb).trans (Finset.range_subset_range.2 b.length_le)
  refine ⟨?_, fun hne => ?_, fun hall => ?_⟩
  · rw [hreplies]
    split <;> simp
  · rw [hreplies] at hne
    split at hne
    · next hlast =>
      -- a reply: as many branches are answered as there are, so all are
      exact Finset.eq_of_subset_of_card_le hsub (by rw [Finset.card_range, hlast.2])
    · exact absurd rfl hne
  · have hlast : s.answered.Nonempty ∧ s.answered.card = b.total := by
      rw [hall, Finset.card_range, Finset.nonempty_range_iff]
      exact ⟨hpos, rfl⟩
    rw [hreplies, if_pos hlast]
    rfl

/-- **In all its runs, a fan-out answers once exactly when it has a branch.** Without
one, the run that spreads has answered all of its no branches and has not replied. -/
theorem answersOnce_iff {arg : Arg} {b : Branches Call} (harg : branches arg = some b) :
    (∀ ls s, Run (fanOut branches reply) ls s → .spread arg ∈ ls → AnswersOnce b.total s) ↔
      b.total ≠ 0 := by
  constructor
  · intro hall hzero
    -- without a branch the run is over, and nothing was replied
    have hrun : Run (fanOut branches reply) [.spread arg] ⟨some b, ∅, 0, []⟩ :=
      Run.step (.init rfl) ⟨rfl, b, harg, rfl⟩
    have honce := (hall _ _ hrun (by simp)).once
    rw [hzero] at honce
    exact absurd (honce rfl) (by simp)
  · intro hpos ls s hrun hmem
    exact answersOnce_of_pos (counted hrun) (((branches_of_run hrun).2 hmem).trans harg) hpos

end FanOut
