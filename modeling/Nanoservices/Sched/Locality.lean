import Nanoservices.Sched.Workflows

/-!
# A fused workflow stays on its core

Nothing in the scheduler checks where the calls of a fused workflow are. That they never
leave the core of the request follows from how calls are connected: a nested call is
made where its caller runs, is fused if its request is, and then is placed where it was
made (`Accounted.root_of_fused`). So its origin and its place are one core, and it is
never sent, queued or parked.
-/

namespace Nanoservices

open World Lts

variable {n : ℕ} {P : Runtime} {w w' : World n} {c r : Uuid}

/-! ### Runs that end with a crash -/

/-- A function leaves its call a second time, or from another service: it is logged, the
call is retired, and the program ends. Nothing moves in this step, so that what is said
about places still holds after it. -/
structure CrashStep (w w' : World n) : Prop where
  log : ∃ v o, w.js v.task.call_id = some v ∧
    w'.log = w.log ++ [.left v.core v.task.call_id o]
  msgs : w'.msgs = w.msgs
  task_map : ∀ j, (w'.core j).task_map = (w.core j).task_map
  q : ∀ j, (w'.core j).q.Sublist (w.core j).q

/-- Retiring a call may shorten the queue. -/
theorem retire_q (i j : Fin n) (call_id : Uuid) (service : String) (now : UInt64) :
    ((w.retire i call_id service now).core j).q.Sublist (w.core j).q := by
  by_cases hj : j = i
  · subst hj
    simpa [World.retire, Core.retire] using List.erase_sublist
  · simp [World.retire, hj]

theorem retire_task_map (i j : Fin n) (call_id : Uuid) (service : String) (now : UInt64) :
    ((w.retire i call_id service now).core j).task_map = (w.core j).task_map := by
  by_cases hj : j = i
  · subst hj
    simp [World.retire, Core.retire, Core.delReqStates]
  · simp [World.retire, hj]

/-- `reply` without its states, in full. -/
theorem reply_absent (w : World n) {i : Fin n} {req_id call_id : Uuid} {service ret : String}
    {now : UInt64} (h : (w.core i).req_map (replyKey service call_id) = none) :
    reply P w i req_id call_id service ret now =
      ((w.retire i call_id service now).crash, true) := by
  simp [reply, h]

/-- A step that is not safe is of this kind. -/
theorem InOrder.crashStep (h : InOrder P w) {l : Label n} (hl : ¬l.Safe P w)
    (hs : Move P w l w') : CrashStep w w' := by
  obtain ⟨i, key, hkey, hnone⟩ := h.req_map_of_unsafe hl hs
  cases hs with
  -- `reply` ends with its first lines where the key is missing: it has taken the
  -- request out and placed nothing
  | jsReply v call_id ret now hv =>
    simp only [Label.replyAt, hv, Option.map_some, Option.some.injEq, Prod.mk.injEq] at hkey
    obtain ⟨rfl, rfl⟩ := hkey
    obtain ⟨k, hk, -, -, htask, -⟩ := h.accounted.call_of_js hv
    obtain rfl := (h.accounted.sound _ k hk).call_id
    rw [World.jsReply, reply_absent (w.record _) hnone]
    refine ⟨⟨v, .returned ret, by rwa [htask], rfl⟩, rfl, fun j => ?_, fun j => ?_⟩
    · exact retire_task_map (w := w.record _) _ j _ _ now
    · exact retire_q (w := w.record _) _ j _ _ now
  | jsThrow v call_id now hv hbody =>
    simp only [Label.replyAt, hv, Option.map_some, Option.some.injEq, Prod.mk.injEq] at hkey
    obtain ⟨rfl, rfl⟩ := hkey
    obtain ⟨k, hk, -, -, htask, -⟩ := h.accounted.call_of_js hv
    obtain rfl := (h.accounted.sound _ k hk).call_id
    rw [World.jsThrow, reply_absent (w.record _) hnone, if_pos rfl]
    refine ⟨⟨v, .threw, by rwa [htask], rfl⟩, rfl, fun j => ?_, fun j => ?_⟩
    · exact retire_task_map (w := w.record _) _ j _ _ now
    · exact retire_q (w := w.record _) _ j _ _ now
  | _ => exact absurd trivial hl

/-- **What a run reaches**: a world in order, or the end of the program one step behind
it. So a property of all reachable worlds has to be proved for these two. -/
theorem inOrder_or_crashStep (h : Reachable (scheduler P n) w) :
    InOrder P w ∨ ∃ w₀, InOrder P w₀ ∧ CrashStep w₀ w := by
  cases halive : w.crashed with
  | false => exact .inl (inOrder_of_reachable h halive)
  | true =>
    right
    obtain ⟨ls, hrun⟩ := h
    cases hrun with
    | init h0 =>
      obtain rfl := h0
      simp [World.initial] at halive
    -- the last step was the unsafe one, as a safe one would have kept the world in
    -- order
    | @step ls w₀ _ l hr hs =>
      have horder := inOrder_of_reachable ⟨ls, hr⟩ hs.1
      refine ⟨w₀, horder, horder.crashStep (fun hl => ?_) hs.2⟩
      have := (horder.step hl hs.2).accounted.alive
      rw [halive] at this
      cases this

/-! ### Calls that never leave a core -/

/-- The core an event happens on. -/
def Event.core : Event n → Fin n
  | .called i _ _ | .placed i _ _ | .arrived i _ | .dispatched i _ | .started i _ | .left i _ _
  | .promiseSet i _ _ _ | .unreadable i _ | .callbackRun i _ _ _ | .callbackDone i _ => i

/-- The request a message names. -/
def Msg.req_id : Msg n → Uuid
  | .runFunc _ _ task => task.req_id
  | .reply _ _ req_id _ _ _ => req_id

/-- All that happens to the call happens on the core, and it is in no core's queue or
`task_map` and in no message. -/
structure Local (w : World n) (i : Fin n) (c : Uuid) : Prop where
  events : ∀ e ∈ w.log, e.call_id = c → e.core = i
  q : ∀ j, c ∉ (w.core j).q
  task_map : ∀ j, (w.core j).task_map c = none
  msgs : ∀ m ∈ w.msgs, m.call_id ≠ c

/-- The request `r`, which is on core `i`, has only calls that stay there: its function
is run there, its nested calls are `Local`, and any message of the request is about the
request itself. The request's own call may be sent to its core and its reply sent back.
-/
structure KeepsHome (w : World n) (i : Fin n) (r : Uuid) : Prop where
  started : ∀ j, .started j r ∈ w.log → j = i
  nested : ∀ j caller task, .called j (some caller) task ∈ w.log → task.req_id = r →
    Local w i task.call_id
  msgs : ∀ m ∈ w.msgs, m.req_id = r → m.call_id = r

/-- A call's events are where it was made or where it runs. -/
theorem Call.core_of_mem_events (k : Call n) (P : Runtime) {e : Event n} (he : e ∈ k.events P) :
    e.core = k.origin ∨ e.core = k.place := by
  -- the events come in the order of the stages, each stage after those before it
  have hready : ∀ e ∈ k.eventsToReady, e.core = k.origin ∨ e.core = k.place := by
    unfold Call.eventsToReady
    split <;> simp [Event.core]
  have hleft : ∀ o, ∀ e ∈ k.eventsToLeft o, e.core = k.origin ∨ e.core = k.place := by
    intro o e he
    rcases List.mem_append.1 he with he | he
    · exact hready e he
    · rcases List.mem_cons.1 he with rfl | he
      · exact .inr rfl
      · obtain rfl := List.mem_singleton.1 he
        exact .inr rfl
  have hend : ∀ o, (k.rootEnd P o).core = k.origin := by
    intro o
    unfold Call.rootEnd
    split <;> rfl
  cases hstage : k.stage with
  | placing | sent | waiting =>
    simp only [Call.events, hstage, List.mem_cons, List.not_mem_nil, or_false] at he
    rcases he with rfl | rfl | rfl <;> simp [Event.core]
  | ready =>
    simp only [Call.events, hstage] at he
    exact hready e he
  | running =>
    simp only [Call.events, hstage] at he
    rcases List.mem_append.1 he with he | he
    · exact hready e he
    · obtain rfl := List.mem_singleton.1 he
      exact .inr rfl
  | returning o =>
    simp only [Call.events, hstage] at he
    exact hleft o e he
  | answering o =>
    simp only [Call.events, hstage] at he
    rcases List.mem_append.1 he with he | he
    · exact hleft o e he
    · obtain rfl := List.mem_singleton.1 he
      exact .inl rfl
  | closed o =>
    simp only [Call.events, hstage] at he
    rcases List.mem_append.1 he with he | he
    · exact hleft o e he
    · cases hcaller : k.caller with
      | none =>
        simp only [hcaller, List.mem_singleton] at he
        exact .inl (he ▸ hend o)
      | some p =>
        simp only [hcaller, List.mem_cons, List.not_mem_nil, or_false] at he
        rcases he with rfl | rfl <;> exact .inl rfl

/-- They tell where it has been started. -/
theorem Call.mem_events_started (k : Call n) (P : Runtime) (i : Fin n) :
    .started i k.task.call_id ∈ k.events P ↔ i = k.place ∧ k.stage.hasStarted := by
  have hready : Event.started i k.task.call_id ∉ k.eventsToReady := by
    unfold Call.eventsToReady
    split <;> simp
  have hend : ∀ o, Event.started i k.task.call_id ≠ k.rootEnd P o := by
    intro o
    unfold Call.rootEnd
    split <;> simp
  cases hstage : k.stage <;> simp [Call.events, hstage, hready, Call.eventsToLeft]
  cases k.caller <;> simp [hend]

/-- A fused call that is placed where it was made is `Local`, if it is not a request.
All four parts are read off its views: the stages in which a call is queued, parked or
sent are not those of such a call. -/
theorem Accounted.local_of_fused (h : Accounted P w) {k : Call n}
    (hk : w.call k.task.call_id = some k) (hnested : k.caller ≠ none) (hfused : k.fused)
    (hplace : k.place = k.origin) : Local w k.place k.task.call_id := by
  have hstage := (h.sound _ k hk).stage
  have hview := h.core hk
  refine ⟨fun e he hc => ?_, fun j hj => ?_, fun j => ?_, fun m hm hc => ?_⟩
  · rcases k.core_of_mem_events P ((h.mem_log hk hc).1 he) with hcore | hcore
    · rw [hcore, hplace]
    · exact hcore
  · -- only a request's id is put into a queue
    have hcaller := Option.isSome_iff_ne_none.2 hnested
    have hqueue : k.inQueue = false := by
      unfold Call.inQueue
      cases hst : k.stage <;> simp_all [Call.StageSound]
    have hcount := congrArg CoreView.queued (hview j)
    rw [show (k.coreView j).queued = 0 by simp [Call.coreView, hqueue]] at hcount
    exact List.count_eq_zero.1 hcount hj
  -- only calls that are not fused wait in the task map
  · have hnot : k.stage ≠ .waiting := by
      intro hst
      simp [Call.StageSound, hst, hfused] at hstage
    exact (congrArg CoreView.parked (hview j)).trans (by simp [Call.coreView, hnot])
  -- and no message is under way between a core and itself
  · have hmsgs : k.msgs = 0 := by
      unfold Call.msgs
      cases hst : k.stage <;> simp_all [Call.StageSound]
    have hfilter : w.msgs.filter (·.call_id = k.task.call_id) = 0 :=
      (congrArg View.msgs (h.view_of_call hk)).trans hmsgs
    exact Multiset.filter_eq_nil.1 hfilter m hm hc

/-- A message is about a call of the ledger, and names its request. -/
theorem Accounted.call_of_msg (h : Accounted P w) {m : Msg n} (hm : m ∈ w.msgs) :
    ∃ k, w.call m.call_id = some k ∧ m.req_id = k.task.req_id := by
  have hmem : m ∈ w.msgs.filter (·.call_id = m.call_id) := Multiset.mem_filter.2 ⟨hm, rfl⟩
  -- the messages of an id are those of its call's stage
  have hview := congrArg View.msgs (h.view m.call_id)
  rw [show w.msgs.filter (·.call_id = m.call_id) = (w.view m.call_id).msgs from rfl, hview] at hmem
  cases hk : w.call m.call_id with
  | none =>
    rw [hk] at hmem
    exact absurd hmem (Multiset.notMem_zero _)
  | some k =>
    rw [hk] at hmem
    refine ⟨k, rfl, ?_⟩
    replace hmem : m ∈ k.msgs := hmem
    unfold Call.msgs at hmem
    cases hst : k.stage <;>
      simp only [hst, Multiset.mem_singleton, Multiset.notMem_zero] at hmem <;>
      rw [hmem] <;> rfl

/-- The calls of a fused request that has a place are `Local`, on that core. -/
theorem InOrder.keepsHome (h : InOrder P w) {i : Fin n} (hr : .placed i r true ∈ w.log) :
    KeepsHome w i r := by
  have ha := h.accounted
  obtain ⟨kr, hkr, hplaced⟩ : ∃ kr, w.call r = some kr ∧ _ := ha.call_of_mem hr
  obtain rfl := (ha.sound _ kr hkr).call_id
  obtain ⟨rfl, hfused, hstage⟩ := (kr.mem_events_placed P _ _).1 hplaced
  have hnested : ∀ {c : Uuid} {k : Call n}, w.call c = some k → k.caller ≠ none →
      k.task.req_id = kr.task.call_id → Local w kr.place c := by
    intro c k hk hcaller hreq
    have hsound := ha.sound c k hk
    obtain rfl := hsound.call_id
    have hplaced : k.stage ≠ .placing := fun hst => h.placed _ ⟨k, hk, hst⟩
    -- the request is the one that the root's id names, and the flag is its own
    obtain ⟨kr', hkr', hroot⟩ := hsound.root
    rw [hreq] at hkr'
    obtain rfl := Option.some.inj (hkr.symm.trans hkr')
    have hreq' : kr.task.req_id = kr.task.call_id := (ha.sound _ kr hkr).caller_none.1 hroot
    have hfuse : k.fused = true := by
      have hsame := hsound.fuse hplaced
      rw [hreq, ← hreq', (ha.sound _ kr hkr).fuse hstage, ← hfused] at hsame
      exact (Option.some.inj hsame).symm
    -- `root_of_fused` gives the place, which is the request's
    obtain ⟨kr'', hkr'', -, -, hplace, -⟩ := ha.root_of_fused hk hplaced hfuse
    rw [hreq] at hkr''
    obtain rfl := Option.some.inj (hkr.symm.trans hkr'')
    rw [hplace]
    exact ha.local_of_fused hk hcaller hfuse (hsound.home hplaced hfuse hcaller)
  refine ⟨fun j hj => ?_, fun j caller task hcalled hreq => ?_, fun m hm hreq => ?_⟩
  · exact ((kr.mem_events_started P j).1 ((ha.mem_log hkr rfl).1 hj)).1
  · obtain ⟨k, hk, hmem⟩ := ha.call_of_mem hcalled
    obtain ⟨-, hcaller, rfl⟩ := (k.mem_events_called P _ _ _).1 hmem
    exact hnested hk (by simp [← hcaller]) hreq
  · obtain ⟨k, hk, hsame⟩ := ha.call_of_msg hm
    by_cases hcaller : k.caller = none
    · rw [← hreq, hsame]
      exact ((ha.sound _ k hk).caller_none.1 hcaller).symm
    · exact absurd rfl ((hnested hk hcaller (hsame ▸ hreq)).msgs m hm)

/-- The end of the program moves nothing. It adds one event, of a function that was
started on its core. -/
theorem CrashStep.keepsHome (h : CrashStep w w') (horder : InOrder P w) {i : Fin n}
    (hr : .placed i r true ∈ w'.log) : KeepsHome w' i r := by
  obtain ⟨v, o, hv, hlog⟩ := h.log
  -- the step has added one event
  have hmem : ∀ e, e ∈ w'.log ↔ e ∈ w.log ∨ e = .left v.core v.task.call_id o := by
    intro e
    rw [hlog]
    simp
  have hhome := horder.keepsHome (((hmem _).1 hr).resolve_right (by simp))
  refine ⟨fun j hj => hhome.started j (((hmem _).1 hj).resolve_right (by simp)), ?_, ?_⟩
  · intro j caller task hcalled hreq
    have hlocal := hhome.nested j caller task (((hmem _).1 hcalled).resolve_right (by simp)) hreq
    refine ⟨fun e he hc => ?_, fun j hj => hlocal.q j ((h.q j).mem hj), fun j => ?_, ?_⟩
    · rcases (hmem e).1 he with he | rfl
      · exact hlocal.events e he hc
      · -- the function that leaves the call has been started on its core
        obtain ⟨k, hk, hstarted, hcore, htask, -⟩ := horder.accounted.call_of_js hv
        have hid := (horder.accounted.sound _ k hk).call_id
        have hstart : .started k.place k.task.call_id ∈ w.log :=
          (horder.accounted.mem_log hk (e := .started _ _) hid).2
            ((k.mem_events_started P _).2 ⟨rfl, hstarted⟩)
        rw [show Event.core (.left v.core v.task.call_id o) = v.core from rfl, hcore]
        exact hlocal.events _ hstart (hid.trans hc)
    -- the rest is as it was
    · rw [h.task_map j]
      exact hlocal.task_map j
    · rw [h.msgs]
      exact hlocal.msgs
  · rw [h.msgs]
    exact hhome.msgs

/-- **A fused workflow never leaves its core.** The services are arbitrary, and may also
reply twice or make calls after they have replied: where calls are made and placed does
not depend on it.

In a world in order the calls of a fused request are `Local`, on the core that accepted
it (`InOrder.keepsHome`), and so are their messages and callbacks. A crash ends this
order, but the step that crashes makes no call and moves none. -/
theorem fused_workflow_keeps_home (P : Runtime) (n : ℕ) (w : World n)
    (h : Reachable (scheduler P n) w) (i : Fin n) (r : Uuid) (hr : .placed i r true ∈ w.log) :
    KeepsHome w i r := by
  rcases inOrder_or_crashStep h with horder | ⟨w₀, horder, hcrash⟩
  · exact horder.keepsHome hr
  · exact hcrash.keepsHome horder hr

/-- A fused request has made a nested call. -/
theorem fused_workflow_keeps_home_nested :
    KeepsHome (fusedWorld.callFunction fusedJs firstUuid secondUuid "post.js" "f" "" 0 0) 0
      firstUuid := by
  refine fused_workflow_keeps_home fusedService 1 _ ?_ 0 firstUuid (by decide)
  have h₀ : Reachable (scheduler fusedService 1) (.initial 1) := .of_init rfl
  have h₁ := h₀.of_step ⟨rfl, .newReq 0 firstUuid "post.js" "compose" "" 0 0 (by decide)⟩
  have h₂ := h₁.of_step ⟨rfl, .start 0 fusedTask 0 0 rfl⟩
  exact h₂.of_step ⟨rfl, .call fusedJs firstUuid secondUuid "post.js" "f" "" 0 0 rfl (by decide)⟩

end Nanoservices
