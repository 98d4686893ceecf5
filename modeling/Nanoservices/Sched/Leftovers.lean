import Nanoservices.Sched.Workflows

/-!
# What a request leaves behind

Once all calls of a request have been left and answered, its entries in the maps keyed
by calls are gone from every core. But `req_wf_map` still has the workflow of the
request: `schedule` puts it there and nothing ever takes it out, so that the map grows
with every request.
-/

namespace Nanoservices

open World Lts

variable {n : ℕ} {P : Runtime} {w : World n} {c r : Uuid}

/-- The call is part of the request, as the root or as a nested call at any depth. -/
def InRequest (w : World n) (r c : Uuid) : Prop :=
  ∃ i caller task, .called i caller task ∈ w.log ∧ task.req_id = r ∧ task.call_id = c

/-- The request is over: all its calls have been left, and nothing is under way for
them. -/
structure Finished (w : World n) (r : Uuid) : Prop where
  root : IsRoot w r
  left : ∀ c, InRequest w r c → HasLeft w c
  settled : ∀ c, InRequest w r c → Settled w c

/-- No map has an entry for the request or one of its calls. The first two clauses are
about the maps keyed by calls, the others about those keyed by requests. -/
structure NoStateLeft (w : World n) (r : Uuid) : Prop where
  removed : ∀ c, InRequest w r c → Removed w c
  task_map : ∀ c, InRequest w r c → ∀ i, (w.core i).task_map c = none
  curr_wf : ∀ i, r ∉ (w.core i).curr_wf
  wf_starts : ∀ i, (w.core i).wf_starts r = none
  req_wf_map : w.req_wf_map r = none

theorem Accounted.call_of_inRequest (h : Accounted P w) (hc : InRequest w r c) :
    ∃ k, w.call c = some k ∧ k.task.req_id = r := by
  obtain ⟨i, caller, task, hcalled, rfl, rfl⟩ := hc
  obtain ⟨k, hk, hmem⟩ := h.call_of_mem hcalled
  obtain ⟨-, -, rfl⟩ := (k.mem_events_called P _ _ _).1 hmem
  exact ⟨k, hk, rfl⟩

/-- A request's workflow is known from the start, and is never forgotten: its calls'
flags are read from it. -/
theorem InOrder.req_wf_map (h : InOrder P w) (hr : IsRoot w r) : w.req_wf_map r ≠ none := by
  obtain ⟨i, task, hcalled, rfl⟩ := hr
  obtain ⟨k, hk, hmem⟩ :
      ∃ k, w.call task.call_id = some k ∧ Event.called i none task ∈ k.events P :=
    h.accounted.call_of_mem hcalled
  obtain ⟨-, hcaller, rfl⟩ := (k.mem_events_called P _ _ _).1 hmem
  have hsound := h.accounted.sound _ k hk
  have hfuse := hsound.fuse fun hstage => h.placed _ ⟨k, hk, hstage⟩
  rw [hsound.caller_none.1 hcaller.symm] at hfuse
  intro hnone
  simp [fuseOf, wfOf, hnone] at hfuse

/-- **Every request leaves its workflow behind**, in `req_wf_map`; the maps keyed by
calls have nothing of its calls any more. Nothing is assumed of the services but that
the program has not crashed.

No function erases an entry of `req_wf_map`, which the invariant has for every root
call. The entries of a settled call are determined by its stage in the ledger, and
`closed` has none. -/
theorem request_state_left (P : Runtime) (w : World n) (r : Uuid)
    (h : Reachable (scheduler P n) w) (halive : w.crashed = false) (hfinished : Finished w r) :
    ¬NoStateLeft w r ∧ w.req_wf_map r ≠ none ∧
      ∀ c, InRequest w r c → Removed w c ∧ ∀ i, (w.core i).task_map c = none := by
  have horder := inOrder_of_reachable h halive
  have hleft := horder.req_wf_map hfinished.root
  refine ⟨fun hnone => hleft hnone.req_wf_map, hleft, fun c hc => ?_⟩
  have ha := horder.accounted
  obtain ⟨k, hk, -⟩ := ha.call_of_inRequest hc
  obtain ⟨o, ho⟩ := Option.isSome_iff_exists.1 ((ha.hasLeft_iff hk).1 (hfinished.left c hc))
  have hstage := ha.closed_of_settled hk ho (hfinished.settled c hc)
  refine ⟨ha.removed hk hstage, fun i => ?_⟩
  have hparked : (w.core i).task_map c = _ := congrArg CoreView.parked (ha.core hk i)
  rw [hparked]
  simp [Call.coreView, hstage]

section Replied

/-- The world in which the request has been replied to. -/
def repliedWorld : World 1 := runningWorld.jsReply oneService runningJs usableReply 0

theorem inRequest_repliedWorld (h : InRequest repliedWorld r c) :
    r = firstUuid ∧ c = firstUuid := by
  obtain ⟨i, caller, task, hcalled, rfl, rfl⟩ := h
  have hlog : repliedWorld.log = [.called 0 none rootTask, .placed 0 firstUuid false,
      .arrived 0 firstUuid, .dispatched 0 firstUuid, .started 0 firstUuid,
      .left 0 firstUuid (.returned usableReply), .promiseSet 0 firstUuid 200 "ok"] := rfl
  rw [hlog] at hcalled
  simp only [List.mem_cons, Event.called.injEq, reduceCtorEq, List.not_mem_nil, or_false] at hcalled
  obtain ⟨-, -, rfl⟩ := hcalled
  exact ⟨rfl, rfl⟩

theorem finished_repliedWorld : Finished repliedWorld firstUuid where
  root := ⟨0, rootTask, by decide, rfl⟩
  left c hc := by
    obtain ⟨-, rfl⟩ := inRequest_repliedWorld hc
    exact ⟨0, .returned usableReply, by decide⟩
  settled c hc := by
    obtain ⟨-, rfl⟩ := inRequest_repliedWorld hc
    exact ⟨by decide, by decide⟩

theorem reachable_repliedWorld : Reachable (scheduler oneService 1) repliedWorld :=
  reachable_runningWorld.of_step (l := .jsReply firstUuid usableReply 0)
    ⟨rfl, .jsReply runningJs firstUuid usableReply 0 rfl⟩

theorem request_state_left_replied :
    ¬NoStateLeft repliedWorld firstUuid ∧ repliedWorld.req_wf_map firstUuid ≠ none ∧
      ∀ c, InRequest repliedWorld firstUuid c →
        Removed repliedWorld c ∧ ∀ i, (repliedWorld.core i).task_map c = none :=
  request_state_left oneService repliedWorld firstUuid reachable_repliedWorld rfl
    finished_repliedWorld

/-- The request has been replied to, and its workflow is still there. -/
theorem workflow_left_behind : ¬∀ (w : World 1) (r : Uuid),
    Reachable (scheduler oneService 1) w → w.crashed = false → Quiet w → Finished w r →
      NoStateLeft w r := by
  intro hall
  have hnone := hall repliedWorld firstUuid reachable_repliedWorld rfl ⟨by decide, rfl⟩
    finished_repliedWorld
  exact absurd hnone.req_wf_map (by decide)

end Replied

end Nanoservices
