import Mathlib.Data.List.Nodup
import Mathlib.Logic.Function.Basic

/-!
# Calls and replies

An asynchronous program consists of functions that call each other. A task is one
invocation of a function. It is called with an argument; it runs; some time later it is
replied to, and the reply is handled by a reaction of its caller, once. `State` keeps
this for all tasks.

What a function or a reaction does between two waits is a `Script`: it makes calls, in
order, each with an argument that is computed when its turn comes. When an argument
cannot be computed the rest is left out and the exception may be answered for; at the
end a task may be answered.

The lemmas say what `State.exec` of a script can change (`arg_exec`, `reply_exec`), and
what stays: the calls, if the script calls no task a second time (`arg_exec_of_some`),
and that a task has been replied to (`isSome_reply_exec`).
-/

namespace Calls

/-- The tasks called so far, those that have run, the replies, and the tasks whose
replies have been handled, oldest first. -/
structure State (Task Arg Result : Type*) where
  arg : Task → Option Arg
  ran : Task → Bool
  reply : Task → Option Result
  handled : List Task

/-- A piece of a program. The argument of a call is `none` where computing it throws. -/
structure Script (Task Arg Result : Type*) where
  calls : List (Task × Option Arg) := []
  /-- What is answered at the end. -/
  answer : Option (Task × Result) := none
  /-- What is answered when an exception has ended the script. -/
  thrown : Option (Task × Result) := none

variable {Task Arg Result : Type*}

/-- No argument of the script throws. -/
def Script.Completes (sc : Script Task Arg Result) : Prop := ∀ c ∈ sc.calls, c.2.isSome

variable [DecidableEq Task]

namespace State

/-- A task is called. -/
def call (s : State Task Arg Result) (t : Task) (a : Arg) : State Task Arg Result :=
  { s with arg := Function.update s.arg t (some a) }

/-- It runs. -/
def run (s : State Task Arg Result) (t : Task) : State Task Arg Result :=
  { s with ran := Function.update s.ran t true }

/-- It is replied to. -/
def answer (s : State Task Arg Result) (t : Task) (r : Result) : State Task Arg Result :=
  { s with reply := Function.update s.reply t (some r) }

/-- Its reply is handled. -/
def handle (s : State Task Arg Result) (t : Task) : State Task Arg Result :=
  { s with handled := s.handled ++ [t] }

/-- The calls of a script, and whether all of them have been made. The first argument
that throws ends them. -/
def perform (s : State Task Arg Result) : List (Task × Option Arg) → State Task Arg Result × Bool
  | [] => (s, true)
  | (t, some a) :: cs => (s.call t a).perform cs
  | (_, none) :: _ => (s, false)

/-- A script: its calls, and then the answer for the end that they have come to. -/
def exec (s : State Task Arg Result) (sc : Script Task Arg Result) : State Task Arg Result :=
  let r := s.perform sc.calls
  (if r.2 then sc.answer else sc.thrown).elim r.1 fun x => r.1.answer x.1 x.2

/-! ### What stays -/

variable {s : State Task Arg Result} {t : Task} {a : Arg}

/-- A call changes the arguments only where the task is called. -/
@[simp] theorem call_arg (u : Task) (b : Arg) :
    (s.call u b).arg = Function.update s.arg u (some b) := rfl

/-- An answer changes the replies only where the task is answered. -/
@[simp] theorem answer_reply (u : Task) (r : Result) :
    (s.answer u r).reply = Function.update s.reply u (some r) := rfl

/-- Calls change nothing but the arguments. -/
@[simp] theorem perform_rest (cs : List (Task × Option Arg)) :
    (s.perform cs).1.ran = s.ran ∧ (s.perform cs).1.reply = s.reply ∧
      (s.perform cs).1.handled = s.handled := by
  induction cs generalizing s with
  | nil => exact ⟨rfl, rfl, rfl⟩
  | cons c cs ih =>
    obtain ⟨t, _ | a⟩ := c
    · exact ⟨rfl, rfl, rfl⟩
    · exact ih

/-- A script runs nothing itself. -/
@[simp] theorem exec_ran (sc : Script Task Arg Result) : (s.exec sc).ran = s.ran := by
  simp only [exec]
  cases if (s.perform sc.calls).2 then sc.answer else sc.thrown with
  | none => exact (perform_rest _).1
  | some x => exact (perform_rest _).1

/-- And handles nothing. -/
@[simp] theorem exec_handled (sc : Script Task Arg Result) :
    (s.exec sc).handled = s.handled := by
  simp only [exec]
  cases if (s.perform sc.calls).2 then sc.answer else sc.thrown with
  | none => exact (perform_rest _).2.2
  | some x => exact (perform_rest _).2.2

/-! ### Calls -/

/-- The arguments after a script are those after its calls. -/
theorem exec_arg (sc : Script Task Arg Result) : (s.exec sc).arg = (s.perform sc.calls).1.arg := by
  simp only [exec]
  cases if (s.perform sc.calls).2 then sc.answer else sc.thrown with
  | none => rfl
  | some x => rfl

/-- A call that has been made was made before, or is one of the script. By induction on
its calls. -/
theorem arg_exec {sc : Script Task Arg Result} (h : (s.exec sc).arg t = some a) :
    s.arg t = some a ∨ (t, some a) ∈ sc.calls := by
  rw [exec_arg] at h
  generalize sc.calls = cs at h
  induction cs generalizing s with
  | nil => exact .inl h
  | cons c cs ih =>
    obtain ⟨u, _ | b⟩ := c
    · exact .inl h
    · rcases ih h with hs | hmem
      -- the call just made, or one made before it
      · by_cases hu : t = u
        · subst hu
          rw [call_arg, Function.update_self] at hs
          exact .inr (by rw [hs]; exact List.mem_cons_self)
        · rw [call_arg, Function.update_of_ne hu] at hs
          exact .inl hs
      · exact .inr (List.mem_cons_of_mem _ hmem)

/-- A task the script does not call keeps its argument, or stays uncalled. -/
theorem arg_exec_of_not_mem {sc : Script Task Arg Result} (h : t ∉ sc.calls.map Prod.fst) :
    (s.exec sc).arg t = s.arg t := by
  rw [exec_arg]
  generalize sc.calls = cs at h
  induction cs generalizing s with
  | nil => rfl
  | cons c cs ih =>
    rw [List.map_cons, List.mem_cons, not_or] at h
    obtain ⟨u, _ | b⟩ := c
    · rfl
    · show ((s.call u b).perform cs).1.arg t = s.arg t
      rw [ih h.2, call_arg, Function.update_of_ne h.1]

/-- Calls stay as they were made, if the script calls new tasks only. -/
theorem arg_exec_of_some {sc : Script Task Arg Result}
    (hnew : ∀ c ∈ sc.calls, s.arg c.1 = none) (h : s.arg t = some a) :
    (s.exec sc).arg t = some a := by
  rw [arg_exec_of_not_mem, h]
  intro hmem
  obtain ⟨c, hc, rfl⟩ := List.mem_map.1 hmem
  rw [hnew c hc] at h
  cases h

/-- A script that throws nothing makes its calls, and takes none back. By induction on
the calls. -/
theorem isSome_arg_exec {sc : Script Task Arg Result} (hsc : sc.Completes)
    (h : t ∈ sc.calls.map Prod.fst ∨ (s.arg t).isSome) : ((s.exec sc).arg t).isSome := by
  rw [exec_arg]
  rw [Script.Completes] at hsc
  generalize sc.calls = cs at h hsc
  induction cs generalizing s with
  | nil => exact h.resolve_left List.not_mem_nil
  | cons c cs ih =>
    rw [List.forall_mem_cons] at hsc
    obtain ⟨u, _ | b⟩ := c
    · cases hsc.1
    · refine ih (s := s.call u b) ?_ hsc.2
      rw [List.map_cons, List.mem_cons] at h
      -- the first call of the script is this one, or it leaves its argument as it is
      by_cases hu : t = u
      · subst hu
        exact .inr (by simp)
      · rw [call_arg, Function.update_of_ne hu]
        exact h.imp_left fun h => h.resolve_left hu

/-- A script whose last call has been made has thrown nothing: the calls are made in
order, so none before it has thrown either. By induction on the calls in front of the
last. -/
theorem completes_of_last {sc : Script Task Arg Result} {before : List (Task × Option Arg)}
    {o : Option Arg} (hsc : sc.calls = before ++ [(t, o)]) (hnot : t ∉ before.map Prod.fst)
    (hnew : s.arg t = none) (h : ((s.exec sc).arg t).isSome) : sc.Completes := by
  rw [exec_arg, hsc] at h
  rw [Script.Completes, hsc]
  clear hsc
  induction before generalizing s with
  | nil =>
    -- the last call itself has an argument, since it has been made
    cases o with
    | none =>
      rw [show s.perform ([] ++ [(t, none)]) = (s, false) from rfl, hnew] at h
      cases h
    | some a => simp
  | cons c cs ih =>
    rw [List.map_cons, List.mem_cons, not_or] at hnot
    obtain ⟨u, _ | b⟩ := c
    · rw [show s.perform ((u, none) :: cs ++ [(t, o)]) = (s, false) from rfl, hnew] at h
      cases h
    · have hrest := ih hnot.2 (s := s.call u b) (by
        rw [call_arg, Function.update_of_ne hnot.1, hnew]) h
      intro c hc
      rcases List.mem_cons.1 hc with rfl | hc
      · rfl
      · exact hrest c hc

/-! ### Replies -/

/-- All calls are made when all have arguments. -/
theorem snd_perform (cs : List (Task × Option Arg)) :
    (s.perform cs).2 = true ↔ ∀ c ∈ cs, c.2.isSome := by
  induction cs generalizing s with
  | nil => simp [perform]
  | cons c cs ih =>
    obtain ⟨u, _ | b⟩ := c
    · simp [perform]
    · rw [perform, ih]
      simp

/-- A reply was made before, or by the script: at its end if nothing threw, and by its
handler otherwise. -/
theorem reply_exec {sc : Script Task Arg Result} {r : Result} (h : (s.exec sc).reply t = some r) :
    s.reply t = some r ∨ (sc.Completes ∧ sc.answer = some (t, r)) ∨
      (¬sc.Completes ∧ sc.thrown = some (t, r)) := by
  have hrest := (perform_rest (s := s) sc.calls).2.1
  -- the replies of the state after the calls are those before, and one more where there
  -- is an answer
  have hdone : ∀ x : Task × Result, ((s.perform sc.calls).1.answer x.1 x.2).reply t = some r →
      s.reply t = some r ∨ x = (t, r) := by
    intro x hx
    by_cases ht : t = x.1
    · subst ht
      rw [answer_reply, Function.update_self] at hx
      obtain rfl := Option.some.inj hx
      exact .inr rfl
    · rw [answer_reply, Function.update_of_ne ht, hrest] at hx
      exact .inl hx
  simp only [exec] at h
  -- which of the two answers it is depends on whether all calls have been made
  by_cases hall : (s.perform sc.calls).2 = true
  · rw [if_pos hall] at h
    have hcompletes : sc.Completes := (snd_perform _).1 hall
    cases hanswer : sc.answer with
    | none =>
      rw [hanswer, Option.elim_none, hrest] at h
      exact .inl h
    | some x =>
      rw [hanswer] at h
      exact (hdone x h).imp_right fun hx => .inl ⟨hcompletes, by rw [hx]⟩
  · rw [if_neg hall] at h
    have hthrows : ¬sc.Completes := fun hc => hall ((snd_perform _).2 hc)
    cases hthrown : sc.thrown with
    | none =>
      rw [hthrown, Option.elim_none, hrest] at h
      exact .inl h
    | some x =>
      rw [hthrown] at h
      exact (hdone x h).imp_right fun hx => .inr ⟨hthrows, by rw [hx]⟩

/-- A task that has been replied to stays so, whatever the script answers. -/
theorem isSome_reply_exec {sc : Script Task Arg Result} (h : (s.reply t).isSome) :
    ((s.exec sc).reply t).isSome := by
  have hrest := (perform_rest (s := s) sc.calls).2.1
  simp only [exec]
  cases if (s.perform sc.calls).2 then sc.answer else sc.thrown with
  | none =>
    rw [Option.elim_none, hrest]
    exact h
  | some x =>
    -- the script replies to this task or to another one
    by_cases ht : t = x.1
    · subst ht
      simp
    · show (((s.perform sc.calls).1.answer x.1 x.2).reply t).isSome
      rw [answer_reply, Function.update_of_ne ht, hrest]
      exact h

end State

end Calls
