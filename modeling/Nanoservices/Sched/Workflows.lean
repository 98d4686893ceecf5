import Nanoservices.Sched.Failures

/-!
# Fused workflows

A core remembers in `curr_wf` the fused workflows it runs, and starts nothing from its
queue meanwhile. `run_func` adds a workflow with each of its calls; `reply` removes it
for the request only. So it stays there for good when one of its calls is made after the
request has been replied to, and when `reply` throws before it comes to the removal.

Apart from that a core is marked only while it runs the request
(`curr_wf_only_while_running`): a fused nested call runs on the core of its caller,
hence on the request's (`Accounted.root_of_fused`), and the request was there before it.
-/

namespace Nanoservices

open World Lts OneCore

variable {n : ℕ} {P : Runtime} {w w' : World n} {c r : Uuid}

/-! ### What a step adds to `curr_wf` -/

/-- The workflow `r` is fused, and the call of the task has arrived on core `j`. This is
the one moment at which `run_func` enters a workflow in `curr_wf`. -/
structure Joins (w : World n) (j : Fin n) (r : Uuid) (task : Task) : Prop where
  req_id : task.req_id = r
  fuse : w.fuseOf r = some true
  arrived : .arrived j task.call_id ∈ w.log

@[simp] theorem core_record (e : Event n) : (w.record e).core = w.core := rfl

@[simp] theorem core_setJs (v : Invocation n) : (w.setJs c v).core = w.core := rfl

@[simp] theorem core_send (m : Msg n) : (w.send m).core = w.core := rfl

/-- `dispatch` looks at `curr_wf` and does not change it. -/
@[simp] theorem curr_wf_dispatch (i j : Fin n) :
    ((w.dispatch i).core j).curr_wf = (w.core j).curr_wf := by
  by_cases hd : Dispatchable w i
  · obtain ⟨c', rest, task, hq, ht, hwf⟩ := hd
    rw [dispatch_of_front hq ht hwf]
    by_cases hj : j = i
    · subst hj
      simp [popFront, World.record]
    · simp [popFront, World.record, hj]
  · rw [dispatch_of_not hd]

theorem fuseOf_dispatch (i : Fin n) : (w.dispatch i).fuseOf r = w.fuseOf r := by
  by_cases hd : Dispatchable w i
  · obtain ⟨c', rest, task, hq, ht, hwf⟩ := hd
    rw [dispatch_of_front hq ht hwf]
    rfl
  · rw [dispatch_of_not hd]

/-- A change of a core that leaves `curr_wf` alone. -/
theorem curr_wf_onCore {i j : Fin n} {f : Core n → Core n}
    (hf : (f (w.core i)).curr_wf = (w.core i).curr_wf) :
    ((w.onCore i f).core j).curr_wf = (w.core j).curr_wf := by
  by_cases hj : j = i
  · subst hj
    rw [onCore_core_self, hf]
  · rw [onCore_core_of_ne _ _ hj]

theorem curr_wf_ensureReplyStates (k : Core n) (key : String) (i : Fin n) :
    (k.ensureReplyStates key i).curr_wf = k.curr_wf := by
  unfold Core.ensureReplyStates
  split <;> rfl

theorem curr_wf_receive (k : Core n) (task : Task) (fuse : Bool) (now : UInt64) :
    (k.receive task fuse now).curr_wf =
      if fuse then insert task.req_id k.curr_wf else k.curr_wf := by
  cases fuse <;> by_cases hroot : task.req_id = task.call_id <;> simp [Core.receive, hroot]

/-- `run_func` adds the workflow of the call that it handles, if that is fused. -/
theorem mem_curr_wf_runFunc {i prev_cpu j : Fin n} {task : Task} {now : UInt64}
    (h : r ∈ ((w.runFunc i prev_cpu task now).core j).curr_wf) :
    r ∈ (w.core j).curr_wf ∨ Joins (w.runFunc i prev_cpu task now) j r task := by
  let w₁ := (w.onCore i fun k => k.ensureReplyStates (replyKey task.service task.call_id)
    prev_cpu).ensureFuncStates (task.service ++ task.function)
  have h₁ : (w₁.core j).curr_wf = (w.core j).curr_wf := by
    rw [core_ensureFuncStates]
    exact curr_wf_onCore (curr_wf_ensureReplyStates ..)
  -- without a workflow nothing is received
  cases hstates : w₁.wfOf task.req_id with
  | none =>
    have hrun : w.runFunc i prev_cpu task now = w₁.crash := by
      simp only [World.runFunc, w₁, hstates]
    rw [hrun] at h
    exact .inl (h₁ ▸ h)
  | some states =>
    have hrun : w.runFunc i prev_cpu task now = (w₁.receive i task states.fuse now).dispatch i := by
      simp only [World.runFunc, w₁, hstates]
    rw [hrun, curr_wf_dispatch] at h
    rw [hrun]
    -- only the core that receives changes, and only if the workflow is fused
    by_cases hj : j = i
    · subst hj
      rw [World.receive, core_record, onCore_core_self, curr_wf_receive, h₁] at h
      split at h
      · next hfuse =>
        obtain rfl | h := Finset.mem_insert.1 h
        · refine .inr ⟨rfl, ?_, Quietly.mem_log (.dispatch j)
            (by simp [World.receive, World.record])⟩
          rw [fuseOf_dispatch]
          exact (congrArg (Option.map (·.fuse)) hstates).trans (congrArg some hfuse)
        · exact .inl h
      · exact .inl h
    · left
      rw [← h₁]
      simpa [World.receive, World.record, hj] using h

/-- Placing a call adds its workflow when the call stays, by way of `run_func`. -/
theorem mem_curr_wf_place {i prev_cpu core j : Fin n} {task : Task} {now : UInt64}
    (h : r ∈ ((w.place i prev_cpu task core now).core j).curr_wf) :
    r ∈ (w.core j).curr_wf ∨ Joins (w.place i prev_cpu task core now) j r task := by
  have hget : ∀ {exec_time call_id e}, (((w.getCore core exec_time call_id now).record e).core
      j).curr_wf = (w.core j).curr_wf := by
    intro exec_time call_id e
    rw [core_record, getCore, curr_wf_onCore rfl]
  -- received here, in two of the ways, or sent to another core
  rcases place_cases w i prev_cpu task core now with
    ⟨-, -, hplace⟩ | ⟨fuse, exec_time, -, -, hplace⟩ | ⟨-, hplace⟩
  · rw [hplace] at h ⊢
    exact mem_curr_wf_runFunc h
  · rw [hplace] at h ⊢
    split at h
    · next hcore =>
      rw [if_pos hcore]
      rcases mem_curr_wf_runFunc h with h | h
      · exact .inl (hget ▸ h)
      · exact .inr h
    · rw [core_send, hget] at h
      exact .inl h
  · rw [hplace] at h
    exact .inl h

theorem curr_wf_prepare (i prev_cpu j : Fin n) (task : Task) :
    ((w.prepare i prev_cpu task).core j).curr_wf = (w.core j).curr_wf := by
  have h : ((w.onCore i fun k => k.ensureReplyStates (replyKey task.service task.call_id)
      prev_cpu).core j).curr_wf = (w.core j).curr_wf :=
    curr_wf_onCore (curr_wf_ensureReplyStates ..)
  rw [← h, World.prepare]
  split
  · exact congrArg (fun core => (core j).curr_wf) (core_ensureFuncStates _)
  · exact congrArg (fun core => (core j).curr_wf) (core_ensureFuncStates _)

/-- `reply` only takes away: for a root call here, and for a call of a fused workflow
that goes back to another core. -/
theorem curr_wf_reply {i j : Fin n} {req_id call_id : Uuid} {service ret : String} {now : UInt64}
    (h : r ∈ ((reply P w i req_id call_id service ret now).1.core j).curr_wf) :
    r ∈ (w.core j).curr_wf := by
  have hretire : ((w.retire i call_id service now).core j).curr_wf = (w.core j).curr_wf :=
    curr_wf_onCore rfl
  -- `reply` only ever takes the request out
  rw [← hretire]
  unfold World.reply at h
  dsimp only at h
  split at h
  · split at h
    · exact h
    · rw [curr_wf_dispatch] at h
      by_cases hj : j = i
      · subst hj
        rw [onCore_core_self] at h
        exact Finset.mem_of_mem_erase h
      · rwa [onCore_core_of_ne _ _ hj] at h
  · split at h
    · unfold World.runCallback at h
      split at h
      · rwa [core_record, curr_wf_onCore rfl] at h
      · exact h
    · unfold World.replyRemote at h
      split at h
      · by_cases hj : j = i
        · subst hj
          rw [core_send, onCore_core_self] at h
          unfold Core.leaveWf at h
          split at h
          · exact Finset.mem_of_mem_erase h
          · exact h
        · rwa [core_send, onCore_core_of_ne _ _ hj] at h
      · exact h
  · exact h

/-- The task a step hands to `schedule` or `run_func`. -/
def Label.task (w : World n) : Label n → Option Task
  | .newReq _ req_id service function args _ _ => some ⟨req_id, req_id, service, function, args⟩
  | .call caller callee service function jsargs _ _ =>
    (w.js caller).map fun v => ⟨v.task.req_id, callee, service, function, jsargs⟩
  | .deliverRun _ _ task _ => some task
  | _ => none

/-- **What a step adds to `curr_wf`**: the workflow of a call that arrives. -/
theorem curr_wf_of_step {l : Label n} (hs : Move P w l w') {j : Fin n}
    (h : r ∈ (w'.core j).curr_wf) :
    r ∈ (w.core j).curr_wf ∨ ∃ task, l.task w = some task ∧ Joins w' j r task := by
  -- the only place that inserts an id is the arrival of a fused request
  have hschedule : ∀ {w₁ : World n} {i core : Fin n} {task : Task} {now : UInt64},
      (w₁.core j).curr_wf = (w.core j).curr_wf →
      r ∈ ((w₁.schedule i i task core now).core j).curr_wf →
      r ∈ (w.core j).curr_wf ∨ Joins (w₁.schedule i i task core now) j r task := by
    intro w₁ i core task now hsame h
    rcases mem_curr_wf_place h with h | h
    · exact .inl (hsame ▸ curr_wf_prepare .. ▸ h)
    · exact .inr h
  cases hs with
  | newReq i req_id service function args core now hfresh =>
    refine (hschedule ?_ h).imp_right fun hjoins => ⟨_, rfl, hjoins⟩
    rw [core_record, curr_wf_onCore rfl]
  | call v caller callee service function jsargs core now hv hfresh =>
    refine (hschedule ?_ h).imp_right fun hjoins => ⟨_, by simp [Label.task, hv], hjoins⟩
    rw [core_record, curr_wf_onCore rfl]
  | deliverRun i prev_cpu task now msgs hm =>
    exact (mem_curr_wf_runFunc h).imp_right fun hjoins => ⟨_, rfl, hjoins⟩
  | deliverReply i sender req_id call_id service ret now msgs hm =>
    left
    rw [World.deliverReply] at h
    split at h <;> exact curr_wf_reply (w := { w with msgs }) h
  | start i task now tasks ht =>
    left
    rwa [World.start, core_setJs, core_record, curr_wf_onCore rfl] at h
  | jsReply v call_id ret now hv => exact .inl (curr_wf_reply (w := w.record _) h)
  | jsThrow v call_id now hv hbody =>
    left
    rw [World.jsThrow] at h
    split at h <;> exact curr_wf_reply (w := w.record _) h
  | jsReturn v call_id now hv hbody => exact .inl h
  | callbackDone i call_id service callbacks hc =>
    left
    rwa [World.callbackDone, curr_wf_dispatch, core_record, curr_wf_onCore rfl] at h
  | ack i acks hi =>
    left
    rwa [curr_wf_dispatch] at h

/-! ### Where fused workflows run -/

/-- **The calls of a fused workflow run on one core**, that of the request, which had
arrived there first. By induction on when calls were made: a nested call was made on the
core its caller runs on, is fused like it, since both read the flag of one request, and
stays where it is made. -/
theorem Accounted.root_of_fused (h : Accounted P w) {k : Call n} (hk : w.call c = some k)
    (hplaced : k.stage ≠ .placing) (hfused : k.fused) :
    ∃ kr, w.call k.task.req_id = some kr ∧ kr.caller = none ∧ kr.fused ∧ kr.place = k.place ∧
      (k.caller ≠ none → kr.stage.hasStarted) := by
  generalize hborn : k.born = born
  induction born using Nat.strong_induction_on generalizing c k with
  | h born ih =>
    subst hborn
    have hsound := h.sound c k hk
    cases hcaller : k.caller with
    | none =>
      obtain rfl := hsound.caller_none.1 hcaller
      exact ⟨k, hk, hcaller, hfused, rfl, fun hne => absurd rfl hne⟩
    | some p =>
      obtain ⟨kp, hkp, hstarted, hreq, hplace, hborn, -⟩ := hsound.caller p hcaller
      have hplaced' : kp.stage ≠ .placing := by
        intro hstage
        simp [hstage] at hstarted
      have hfused' : kp.fused = true := by
        have hfuse := (h.sound p kp hkp).fuse hplaced'
        rw [hreq, hsound.fuse hplaced, hfused] at hfuse
        exact (Option.some.inj hfuse).symm
      obtain ⟨kr, hkr, hroot, hf, hkrplace, hkrstarted⟩ := ih kp.born hborn hkp hplaced' hfused' rfl
      have hhome := hsound.home hplaced hfused (by simp [hcaller])
      refine ⟨kr, hreq ▸ hkr, hroot, hf, hkrplace.trans (hplace.trans hhome.symm), fun _ => ?_⟩
      -- the request has started: it is the caller itself, or an earlier one
      cases hp : kp.caller with
      | some _ => exact hkrstarted (by simp [hp])
      | none =>
        rw [(h.sound p kp hkp).caller_none.1 hp] at hkr
        obtain rfl := Option.some.inj (hkr.symm.trans hkp)
        exact hstarted

/-- The core runs the fused workflow: its request has arrived there, and has not been
replied to yet. The predicate is about the log alone. -/
structure RunsWf (w : World n) (i : Fin n) (r : Uuid) : Prop where
  root : IsRoot w r
  placed : .placed i r true ∈ w.log
  arrived : .arrived i r ∈ w.log
  notLeft : ¬HasLeft w r

/-- A fused request that is on its core and has not been left: its workflow is running. -/
theorem Accounted.runsWf (h : Accounted P w) {k : Call n} (hk : w.call c = some k)
    (hroot : k.caller = none) (hfused : k.fused) (hplaced : k.stage ≠ .placing)
    (hsent : k.stage ≠ .sent) (hleft : k.stage.outcome = none) : RunsWf w k.place c := by
  have hid := (h.sound c k hk).call_id
  refine ⟨(h.isRoot_iff hk).2 hroot, ?_, ?_, ?_⟩
  · rw [h.mem_log hk rfl, ← hid]
    exact (k.mem_events_placed P _ _).2 ⟨rfl, hfused.symm, hplaced⟩
  · rw [h.mem_log hk rfl, ← hid]
    exact (k.mem_events_arrived P _).2 ⟨rfl, hplaced, hsent⟩
  · rw [h.hasLeft_iff hk, hleft]
    simp

/-- What the ledger says of such a workflow. -/
theorem Accounted.call_of_runsWf (h : Accounted P w) {i : Fin n} (hr : RunsWf w i r) :
    ∃ k, w.call r = some k ∧ k.caller = none ∧ k.place = i ∧ k.fused ∧ k.stage.outcome = none := by
  obtain ⟨k, hk, -⟩ : ∃ k, w.call r = some k ∧ _ := h.call_of_mem hr.placed
  obtain rfl := (h.sound _ k hk).call_id
  obtain ⟨hplace, hfused, -⟩ := (k.mem_events_placed P _ _).1 ((h.mem_log hk rfl).1 hr.placed)
  refine ⟨k, hk, (h.isRoot_iff hk).1 hr.root, hplace.symm, hfused.symm, ?_⟩
  have hleft := hr.notLeft
  rw [h.hasLeft_iff hk] at hleft
  simpa using hleft

/-! ### A core is marked only while it runs the request -/

/-- The call is a fused request that stays on the core it was accepted on. Its reply is
executed there once, with the string that the client is meant for; any other's is sent
home first. -/
def FusedHome (w : World n) (c : Uuid) : Prop :=
  ∃ i task, .called i none task ∈ w.log ∧ task.call_id = c ∧ .placed i c true ∈ w.log

/-- In this step no call is made in a fused workflow whose request has been left, and no
fused request is left, on the core it was accepted on, with a string that `read_json`
rejects. These are the two ways to leave a core marked: the first marks it again, and in
the second `reply` throws before it unmarks it. -/
def Label.KeepsWf (P : Runtime) (w : World n) : Label n → Prop
  | .call caller _ _ _ _ _ _ => ∀ v, w.js caller = some v →
      w.fuseOf v.task.req_id = some true → ¬HasLeft w v.task.req_id
  | .jsReply c ret _ => FusedHome w c → (P.readJson ret).isSome
  | .jsThrow c _ => FusedHome w c → (P.readJson "error\n").isSome
  | _ => True

/-- Every workflow in `curr_wf` is running there. -/
def CurrWfSound (w : World n) : Prop := ∀ i r, r ∈ (w.core i).curr_wf → RunsWf w i r

/-- A request that is left is taken out of `curr_wf`: after its promise has been set, or
when its reply is sent home, which does not depend on the string. -/
theorem Leaves.not_mem_curr_wf {k : Call n} {o : Outcome} {now : UInt64}
    (hl : Leaves P w w' k o now) (h : Accounted P w) (hroot : k.caller = none) (hfused : k.fused)
    (husable : k.place = k.origin → (P.readJson o.text).isSome) :
    k.task.call_id ∉ (w'.core k.place).curr_wf := by
  rw [hl.core]
  have hreq := (h.sound _ k hl.call).caller_none.1 hroot
  -- the promise is set on this very core, or the reply is sent to the origin; both take
  -- it out
  by_cases hplace : k.place = k.origin
  · have hat := h.atHand_left (o := o) hl.call hl.running hplace
    have hreply := hat.reply_readable hroot (Option.isSome_iff_ne_none.1 (husable hplace))
      k.task.req_id now
    dsimp only at hreply
    rw [hplace, hreq] at *
    rw [hreply, curr_wf_dispatch, onCore_core_self]
    exact Finset.notMem_erase _ _
  · obtain ⟨wf_map, -, hreply⟩ := h.reply_remote hl.call hl.running hplace o now
    rw [hreply, core_send, onCore_core_self, Core.leaveWf, if_pos hfused, hreq]
    exact Finset.notMem_erase _ _

/-- A fused call that has just arrived: its workflow is running. Of the steps that make
a call arrive, a new request is running by itself; a nested call joins its request,
which has not been left by the condition on the step; and a delivered call is a request,
as fused nested calls are never sent. -/
theorem InOrder.runsWf_of_joins (h : InOrder P w) (h' : InOrder P w') {l : Label n}
    (hs : Move P w l w') (hl : l.KeepsWf P w) {j : Fin n} {task : Task}
    (ht : l.task w = some task) (hj : Joins w' j r task) : RunsWf w' j r := by
  have ha := h.accounted
  have ha' := h'.accounted
  obtain ⟨k, hk, -⟩ : ∃ k, w'.call task.call_id = some k ∧ _ := ha'.call_of_mem hj.arrived
  have hsound := ha'.sound _ k hk
  -- the call has arrived where it joins
  obtain ⟨rfl, hplaced, hsent⟩ : j = k.place ∧ k.stage ≠ .placing ∧ k.stage ≠ .sent := by
    have harrived := (ha'.mem_log hk rfl).1 hj.arrived
    rw [← hsound.call_id] at harrived
    exact (k.mem_events_arrived P _).1 harrived
  -- a task keeps its fusion from its placing on
  have hfused : k.task = task → k.fused := by
    intro htask
    have hfuse := hsound.fuse hplaced
    rw [htask, hj.req_id, hj.fuse] at hfuse
    exact (Option.some.inj hfuse).symm
  -- a request that has just arrived
  have hroot : k.task = task → k.caller = none → k.stage.outcome = none → RunsWf w' k.place r := by
    intro htask hcaller hleft
    have hr : task.call_id = r := by
      rw [← hj.req_id, ← htask, hsound.caller_none.1 hcaller, htask]
    rw [← hr]
    exact ha'.runsWf hk hcaller (hfused htask) hplaced hsent hleft
  -- the call just before the step, with the step's own event recorded
  have hbefore : ∀ {c k'}, w'.call c = some k' →
      ∃ k, (w.recordEvent (l.event w)).call c = some k ∧ k.Follows k' :=
    fun hk' => call_of_step hs hk'
  obtain ⟨k₀, hk₀, hfollows⟩ := hbefore hk
  cases hs with
  | newReq i req_id service function args core now hfresh =>
    obtain rfl := Option.some.inj ht
    have hnew := call_record_called w i none ⟨req_id, req_id, service, function, args⟩
    obtain rfl := Option.some.inj (hk₀.symm.trans hnew)
    exact hroot hfollows.task hfollows.caller hfollows.outcome
  | call v caller callee service function jsargs core now hv hfresh =>
    -- a nested call joins the request's core, and the request itself is still running there
    simp only [Label.task, hv, Option.map_some, Option.some.injEq] at ht
    simp only [Label.event, hv, Option.map_some, World.recordEvent] at hk₀
    subst ht
    have hnew := call_record_called w v.core (some caller)
      ⟨v.task.req_id, callee, service, function, jsargs⟩
    obtain rfl := Option.some.inj (hk₀.symm.trans hnew)
    have hcaller : k.caller = some caller := hfollows.caller
    have hf := hfused hfollows.task
    obtain ⟨kr, hkr, hkrcaller, hkrfused, hkrplace, hkrstarted⟩ :=
      ha'.root_of_fused hk hplaced hf
    have hstarted := hkrstarted (by simp [hcaller])
    have hr : k.task.req_id = r := by rw [hfollows.task]; exact hj.req_id
    rw [hr] at hkr
    rw [← hkrplace]
    refine ha'.runsWf hkr hkrcaller hkrfused ?_ ?_ ?_
    · rintro hstage
      simp [hstage] at hstarted
    · rintro hstage
      simp [hstage] at hstarted
    · -- the request has not been left before the step
      have hreq : v.task.req_id = r := hj.req_id
      obtain ⟨kr₀, hkr₀, hfollows'⟩ := hbefore hkr
      have hne : r ≠ callee := by
        rintro rfl
        simp [hsound.caller_none.2 hr] at hcaller
      simp only [Label.event, hv, Option.map_some, World.recordEvent] at hkr₀
      rw [call_record_of_ne w hne] at hkr₀
      have hp₀ : kr₀.stage ≠ .placing := fun hstage => h.placed r ⟨kr₀, hkr₀, hstage⟩
      -- the flag of the request is what the condition of the step looks at
      have hfuse₀ := (ha.sound r kr₀ hkr₀).fuse hp₀
      rw [← (hfollows'.placed hp₀).2.2, hkrfused,
        (ha.sound r kr₀ hkr₀).caller_none.1 (hfollows'.caller ▸ hkrcaller)] at hfuse₀
      have hnot := hl v hv (hreq ▸ hfuse₀)
      rw [hreq, ha.hasLeft_iff hkr₀] at hnot
      rw [hfollows'.outcome]
      simpa using hnot
  | deliverRun i prev_cpu task' now msgs hm =>
    -- the message was the call's own, and it is still to be started
    obtain rfl := Option.some.inj ht
    obtain ⟨k₁, hk₁, hstage, -, -, htask⟩ := ha.call_of_runFunc (hm ▸ Multiset.mem_cons_self _ _)
    obtain rfl := Option.some.inj (hk₀.symm.trans hk₁)
    have htask' := hfollows.task.trans htask
    by_cases hcaller : k.caller = none
    · exact hroot htask' hcaller (hfollows.outcome.trans (by simp [hstage]))
    · -- a fused nested call is not sent
      have hsound₀ := ha.sound _ k₀ hk₀
      have hp₀ : k₀.stage ≠ .placing := by simp [hstage]
      have hf₀ : k₀.fused = true := (hfollows.placed hp₀).2.2 ▸ hfused htask'
      have hhome := hsound₀.home hp₀ hf₀ (hfollows.caller ▸ hcaller)
      have hstageSound := hsound₀.stage
      simp only [Call.StageSound, hstage] at hstageSound
      exact absurd hhome hstageSound
  | _ => cases ht

/-- A workflow that was running still is, unless its request is left: then it is taken
out. -/
theorem InOrder.runsWf_of_mem (h : InOrder P w) (h' : InOrder P w') {l : Label n}
    (hs : Move P w l w') (hl : l.KeepsWf P w) {j : Fin n} (hr : RunsWf w j r)
    (hmem : r ∈ (w'.core j).curr_wf) : RunsWf w' j r := by
  have ha := h.accounted
  have hgrows := fun {e} => mem_log_of_step hs (e := e)
  obtain ⟨i, task, hcalled, hid⟩ := hr.root
  refine ⟨⟨i, task, hgrows hcalled, hid⟩, hgrows hr.placed, hgrows hr.arrived, fun hleft => ?_⟩
  -- the request's own return would be the step
  obtain ⟨i, o, he⟩ := ((hasLeft_of_step hs).1 hleft).resolve_left hr.notLeft
  have hsafe : l.Safe P w := by
    by_contra hsafe
    have hcrash := h.crash hsafe hs
    rw [h'.accounted.alive] at hcrash
    cases hcrash
  obtain ⟨k, now, rfl, hleaves⟩ := h.leaves hs hsafe he
  obtain ⟨k', hk', hroot, rfl, hfused, -⟩ := ha.call_of_runsWf hr
  obtain rfl := Option.some.inj (hleaves.call.symm.trans hk')
  refine hleaves.not_mem_curr_wf ha hroot hfused (fun hplace => ?_) hmem
  -- leaving it is what `KeepsWf` rules out
  have hhome : FusedHome w k.task.call_id := by
    refine ⟨k.origin, k.task, ?_, rfl, hplace ▸ hr.placed⟩
    rw [← hroot]
    exact ha.called_mem_log hk'
  cases hs with
  | jsReply v call_id ret now hv =>
    obtain ⟨k₁, hk₁, -, -, htask, -⟩ := ha.call_of_js hv
    simp only [Label.event, hv, Option.map_some, Option.some.injEq, Event.left.injEq] at he
    obtain ⟨-, hid, rfl⟩ := he
    rw [htask, (ha.sound _ k₁ hk₁).call_id] at hid
    exact hl (hid ▸ hhome)
  | jsThrow v call_id now hv hbody =>
    obtain ⟨k₁, hk₁, -, -, htask, -⟩ := ha.call_of_js hv
    simp only [Label.event, hv, Option.map_some, Option.some.injEq, Event.left.injEq] at he
    obtain ⟨-, hid, rfl⟩ := he
    rw [htask, (ha.sound _ k₁ hk₁).call_id] at hid
    exact hl (hid ▸ hhome)
  | call v caller callee service function jsargs core now hv hfresh =>
    simp [Label.event, hv] at he
  | _ => cases he

/-- **A step that keeps to the condition** marks no core for nothing: what is in `curr_wf`
afterwards was there before, or has been added by this step. -/
theorem CurrWfSound.step (hw : CurrWfSound w) (h : InOrder P w) (h' : InOrder P w')
    {l : Label n} (hs : Move P w l w') (hl : l.KeepsWf P w) : CurrWfSound w' := by
  intro j r hmem
  rcases curr_wf_of_step hs hmem with hold | ⟨task, ht, hj⟩
  · exact h.runsWf_of_mem h' hs hl (hw j r hold) hmem
  · exact h.runsWf_of_joins h' hs hl ht hj

/-- **A core is marked as running a fused workflow only while it is**, in the runs in
which no call is made in a fused workflow after its request has been left, and no fused
request is left, on the core that accepted it, with a string of no use. Then, once every
fused request has been left, no core is marked.

The invariant is `CurrWfSound`, kept along with `InOrder` until the program crashes. -/
theorem curr_wf_only_while_running (P : Runtime) (n : ℕ) (w : World n)
    (h : Reachable ((scheduler P n).restrict fun w l => l.KeepsWf P w) w)
    (halive : w.crashed = false) :
    CurrWfSound w ∧
      ((∀ i r, IsRoot w r → .placed i r true ∈ w.log → HasLeft w r) →
        ∀ i, (w.core i).curr_wf = ∅) := by
  have hsound : CurrWfSound w := by
    have hinv : w.crashed = true ∨ CurrWfSound w := by
      obtain ⟨ls, hr⟩ := h
      refine hr.invariant (I := fun _ w => w.crashed = true ∨ CurrWfSound w) ?_ ?_
      · rintro _ rfl
        -- no request is current in the beginning
        exact .inr fun i r hmem => by simp [World.initial, Core.initial] at hmem
      · rintro ls w l w' hrun hw ⟨hl, hstep⟩
        have hw := hw.resolve_left (by simp [hstep.1])
        have hreach : Reachable (scheduler P n) w := ⟨ls, hrun.of_restrict⟩
        cases hcrash : w'.crashed with
        | true => exact .inl rfl
        | false =>
          exact .inr (hw.step (inOrder_of_reachable hreach hstep.1)
            (inOrder_of_reachable (hreach.of_step hstep) hcrash) hstep.2 hl)
    exact hinv.resolve_left (by simp [halive])
  -- where every placed root has been left, no request can be current
  refine ⟨hsound, fun hall i => ?_⟩
  rw [Finset.eq_empty_iff_forall_notMem]
  intro r hmem
  have hr := hsound i r hmem
  exact hr.notLeft (hall i r hr.root hr.placed)

section Late

/-- A fused service, the only one. -/
def fusedService : Runtime := { oneService with services := ["post.js"] }

def fusedTask : Task := ⟨firstUuid, firstUuid, "post.js", "compose", ""⟩

/-- The world when the fused request's function runs. -/
def fusedWorld : World 1 :=
  ((World.initial 1).newReq 0 firstUuid "post.js" "compose" "" 0 0).start fusedService 0 fusedTask
    0 0

def fusedJs : Invocation 1 := ⟨0, fusedTask, "post.js", true, 0⟩

/-- The request's function runs: its core is marked. -/
theorem curr_wf_only_while_running_request :
    CurrWfSound fusedWorld ∧
      ((∀ i r, IsRoot fusedWorld r → .placed i r true ∈ fusedWorld.log → HasLeft fusedWorld r) →
        ∀ i, (fusedWorld.core i).curr_wf = ∅) := by
  refine curr_wf_only_while_running fusedService 1 _ ?_ rfl
  have h₀ : Reachable ((scheduler fusedService 1).restrict fun w l => l.KeepsWf fusedService w)
      (.initial 1) := .of_init rfl
  have h₁ := h₀.of_allowed ⟨rfl, .newReq 0 firstUuid "post.js" "compose" "" 0 0 (by decide)⟩ trivial
  exact h₁.of_allowed ⟨rfl, .start 0 fusedTask 0 0 rfl⟩ trivial

/-- The request's function replies and then makes a call: the core stays marked. Each
call is left at most once in this run, and from its own service, so that `reply` always
finds its states. -/
theorem curr_wf_after_reply : ¬∀ w : World 1,
    Reachable ((scheduler fusedService 1).restrict fun w l => l.IsFirst w) w → CurrWfSound w := by
  intro hall
  let w₁ := fusedWorld.jsReply fusedService fusedJs usableReply 0
  let w₂ := w₁.callFunction fusedJs firstUuid secondUuid "post.js" "f" "" 0 0
  have h₀ : Reachable ((scheduler fusedService 1).restrict fun w l => l.IsFirst w) (.initial 1) :=
    .of_init rfl
  have h₁ := h₀.of_allowed ⟨rfl, .newReq 0 firstUuid "post.js" "compose" "" 0 0 (by decide)⟩ trivial
  have h₂ := h₁.of_allowed ⟨rfl, .start 0 fusedTask 0 0 rfl⟩ trivial
  have hfirst : Label.IsFirst fusedWorld (.jsReply firstUuid usableReply 0) := by
    have hleft : ¬HasLeft fusedWorld firstUuid := by decide
    refine ⟨hleft, fun v hv => ?_⟩
    obtain rfl : fusedJs = v := Option.some.inj hv
    rfl
  have h₃ := h₂.of_allowed ⟨rfl, .jsReply fusedJs firstUuid usableReply 0 rfl⟩ hfirst
  have h₄ := h₃.of_allowed
    ⟨rfl, .call fusedJs firstUuid secondUuid "post.js" "f" "" 0 0 rfl (by decide)⟩ trivial
  -- the call made after the reply has put the request back
  have hruns := hall w₂ h₄ 0 firstUuid (by decide)
  exact hruns.notLeft ⟨0, .returned usableReply, by decide⟩

end Late

end Nanoservices
