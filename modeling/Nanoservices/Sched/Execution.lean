import Nanoservices.Sched.Scheduler

/-!
# Executing labels

`Move` is a relation: it says which steps the scheduler can take. `World.exec` is the
same as a function, for a label whose choices are all made: it takes the message, the
task or the callback that the label names out of the multiset it is in, and does the
step if there is one. So a run on concrete cores can be computed from its labels
(`World.after`), and what it has reached can be looked at.

`run_after` says that this is a run of the scheduler, also under an assumption on its
steps, when that can be decided at each of them.
-/

namespace Nanoservices

open Lts World

variable {n : ℕ} {P : Runtime}

namespace World

/-- The step of a label, if the label can happen. What the label takes out of a multiset
is erased from it, where `Move` has a multiset that the element was added to. -/
def exec (P : Runtime) (w : World n) : Label n → Option (World n)
  | .newReq i req_id service function args core now =>
    if req_id ∈ w.uuids then none else some (w.newReq i req_id service function args core now)
  | .call caller callee service function jsargs core now => do
    let v ← w.js caller
    if callee ∈ w.uuids then none
    else some (w.callFunction v caller callee service function jsargs core now)
  | .deliverRun i prev_cpu task now =>
    let m : Msg n := .runFunc i prev_cpu task
    if m ∈ w.msgs then some ({ w with msgs := w.msgs.erase m }.runFunc i prev_cpu task now)
    else none
  | .deliverReply i sender req_id call_id service ret now =>
    let m : Msg n := .reply i sender req_id call_id service ret
    if m ∈ w.msgs then
      some ({ w with msgs := w.msgs.erase m }.deliverReply P i sender req_id call_id service
        ret now)
    else none
  | .start i task now =>
    if task ∈ (w.core i).tasks then some (w.start P i task ((w.core i).tasks.erase task) now)
    else none
  | .jsReply call_id ret now => (w.js call_id).map fun v => w.jsReply P v ret now
  | .jsThrow call_id now => do
    let v ← w.js call_id
    if v.inBody then some (w.jsThrow P v now) else none
  | .jsReturn call_id now => do
    let v ← w.js call_id
    if v.inBody then some (w.finish v now) else none
  | .callbackDone i call_id service =>
    if (call_id, service) ∈ (w.core i).callbacks then
      some (w.callbackDone i call_id service ((w.core i).callbacks.erase (call_id, service)))
    else none
  | .ack i => if i ∈ w.acks then some ({ w with acks := w.acks.erase i }.dispatch i) else none

/-- It is a step of the relation. -/
theorem move_of_exec {w w' : World n} {l : Label n} (h : w.exec P l = some w') : Move P w l w' := by
  cases l with
  | newReq i req_id service function args core now =>
    obtain ⟨hfresh, h⟩ := Option.ite_none_left_eq_some.1 h
    obtain rfl := Option.some.inj h
    exact .newReq _ _ _ _ _ _ _ hfresh
  | call caller callee service function jsargs core now =>
    obtain ⟨v, hv, h⟩ := Option.bind_eq_some_iff.1 h
    obtain ⟨hfresh, h⟩ := Option.ite_none_left_eq_some.1 h
    obtain rfl := Option.some.inj h
    exact .call _ _ _ _ _ _ _ _ hv hfresh
  -- the steps that take something out of a multiset: what is left is the multiset without it
  | deliverRun i prev_cpu task now =>
    obtain ⟨hm, h⟩ := Option.ite_none_right_eq_some.1 h
    obtain rfl := Option.some.inj h
    exact .deliverRun _ _ _ _ _ (Multiset.cons_erase hm).symm
  | deliverReply i sender req_id call_id service ret now =>
    obtain ⟨hm, h⟩ := Option.ite_none_right_eq_some.1 h
    obtain rfl := Option.some.inj h
    exact .deliverReply _ _ _ _ _ _ _ _ (Multiset.cons_erase hm).symm
  | start i task now =>
    obtain ⟨ht, h⟩ := Option.ite_none_right_eq_some.1 h
    obtain rfl := Option.some.inj h
    exact .start _ _ _ _ (Multiset.cons_erase ht).symm
  | callbackDone i call_id service =>
    obtain ⟨hc, h⟩ := Option.ite_none_right_eq_some.1 h
    obtain rfl := Option.some.inj h
    exact .callbackDone _ _ _ _ (Multiset.cons_erase hc).symm
  | ack i =>
    obtain ⟨hi, h⟩ := Option.ite_none_right_eq_some.1 h
    obtain rfl := Option.some.inj h
    exact .ack _ _ (Multiset.cons_erase hi).symm
  -- the steps of a function, which has to be there
  | jsReply call_id ret now =>
    obtain ⟨v, hv, rfl⟩ := Option.map_eq_some_iff.1 h
    exact .jsReply _ _ _ _ hv
  | jsThrow call_id now =>
    obtain ⟨v, hv, h⟩ := Option.bind_eq_some_iff.1 h
    obtain ⟨hbody, h⟩ := Option.ite_none_right_eq_some.1 h
    obtain rfl := Option.some.inj h
    exact .jsThrow _ _ _ hv hbody
  | jsReturn call_id now =>
    obtain ⟨v, hv, h⟩ := Option.bind_eq_some_iff.1 h
    obtain ⟨hbody, h⟩ := Option.ite_none_right_eq_some.1 h
    obtain rfl := Option.some.inj h
    exact .jsReturn _ _ _ hv hbody

section Allowed

variable (allowed : World n → Label n → Prop) [∀ w l, Decidable (allowed w l)]

/-- The step, while the program runs and if the assumption allows it. -/
def execIf (P : Runtime) (w : World n) (l : Label n) : Option (World n) :=
  if allowed w l ∧ w.crashed = false then w.exec P l else none

variable {allowed}

theorem step_of_execIf {w w' : World n} {l : Label n} (h : w.execIf allowed P l = some w') :
    ((scheduler P n).restrict allowed).step w l w' := by
  obtain ⟨⟨hallowed, halive⟩, h⟩ := Option.ite_none_right_eq_some.1 h
  exact ⟨hallowed, halive, move_of_exec h⟩

/-- Without the assumption the labels lead to the same world, so that what is reached
can be computed once for all assumptions. -/
theorem foldlM_exec_of_execIf {ls : List (Label n)} {w w' : World n}
    (h : ls.foldlM (execIf allowed P) w = some w') : ls.foldlM (exec P) w = some w' := by
  induction ls generalizing w with
  | nil => exact h
  | cons l ls ih =>
    obtain ⟨w₁, hfirst, hrest⟩ := Option.bind_eq_some_iff.1 h
    exact Option.bind_eq_some_iff.2 ⟨w₁, (Option.ite_none_right_eq_some.1 hfirst).2, ih hrest⟩

end Allowed

/-- The world after some steps, or `w` itself where one of them cannot happen. -/
def after (P : Runtime) (w : World n) (ls : List (Label n)) : World n :=
  (ls.foldlM (exec P) w).getD w

end World

variable {allowed : World n → Label n → Prop} [∀ w l, Decidable (allowed w l)]

/-- Labels that can be executed are steps from any world, whether it is reachable or
not. -/
theorem steps_after {w : World n} (ls : List (Label n))
    (h : (ls.foldlM (execIf allowed P) w).isSome) :
    Steps ((scheduler P n).restrict allowed) w ls (w.after P ls) := by
  obtain ⟨w', hw'⟩ := Option.isSome_iff_exists.1 h
  rw [after, foldlM_exec_of_execIf hw', Option.getD_some]
  exact .of_foldlM (fun _ _ _ => step_of_execIf) hw'

/-- **What has been executed is a run.** The hypothesis is decided by computing the run,
under the assumption on its steps; the conclusion is about the run as a relation, as the
theorems on runs want it. -/
theorem run_after (ls : List (Label n)) (h : (ls.foldlM (execIf allowed P) (.initial n)).isSome) :
    Run ((scheduler P n).restrict allowed) ls ((World.initial n).after P ls) := by
  have hinit : Run ((scheduler P n).restrict allowed) [] (.initial n) := .init rfl
  exact hinit.append (steps_after ls h)

/-- Without an assumption. -/
theorem run_of_exec (ls : List (Label n))
    (h : (ls.foldlM (execIf (fun _ _ => True) P) (.initial n)).isSome) :
    Run (scheduler P n) ls ((World.initial n).after P ls) := (run_after ls h).of_restrict

end Nanoservices
