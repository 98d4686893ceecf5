import Nanoservices.Sched.Placing

/-!
# Calls are started, left and answered

The remaining steps keep the invariant `Accounted`, unless the program crashes; and they
do not crash as long as functions call `Reply` once, from a registered service.
-/

namespace Nanoservices

open World Lts

variable {n : ℕ} {P : Runtime} {w w' : World n} {c : Uuid}

/-! ### Deliveries and starts -/

/-- The call whose `run_func` message is under way. The stage `sent` is the only one
with such a message, and the message has the call's own place and origin. -/
theorem Accounted.call_of_runFunc (h : Accounted P w) {i prev_cpu : Fin n} {task : Task}
    (hm : .runFunc i prev_cpu task ∈ w.msgs) :
    ∃ k, w.call task.call_id = some k ∧ k.stage = .sent ∧ k.place = i ∧ k.origin = prev_cpu ∧
      k.task = task := by
  have hmem : .runFunc i prev_cpu task ∈ (w.view task.call_id).msgs :=
    Multiset.mem_filter.2 ⟨hm, rfl⟩
  -- a message is in the view of a call only while the call is under way
  cases hk : w.call task.call_id with
  | none =>
    rw [h.view, hk] at hmem
    simp [View.empty] at hmem
  | some k =>
    rw [h.view_of_call hk] at hmem
    cases hstage : k.stage <;> simp [Call.view, Call.msgs, hstage] at hmem
    obtain ⟨rfl, rfl, rfl⟩ := hmem
    exact ⟨k, rfl, hstage, rfl, rfl, rfl⟩

/-- Taking a call's only message leaves it none. -/
theorem view_msgs {msgs : Multiset (Msg n)} {m : Msg n} (hm : w.msgs = m ::ₘ msgs)
    (hc : m.call_id = c) (hv : (w.view c).msgs = {m}) :
    ({ w with msgs } : World n).view c = { w.view c with msgs := 0 } := by
  have hfilter : m ::ₘ msgs.filter (·.call_id = c) = {m} := by
    rw [← hv]
    simp [World.view, hm, hc]
  ext1
  case msgs => exact (Multiset.cons_inj_right m).1 hfilter
  all_goals rfl

/-- Taking a message is nothing to the other calls. -/
theorem sameFor_msgs {msgs : Multiset (Msg n)} {m : Msg n} (hm : w.msgs = m ::ₘ msgs)
    (hc : c ≠ m.call_id) : SameFor c w { w with msgs } where
  view := by
    ext1
    case msgs => simp [World.view, hm, Ne.symm hc]
    all_goals rfl
  call := rfl

/-- A call is delivered, and arrives. -/
theorem Accounted.delivered_arrive (h : Accounted P w) {k : Call n}
    (hk : w.call k.task.call_id = some k) (hstage : k.stage = .sent) {msgs : Multiset (Msg n)}
    (hm : w.msgs = .runFunc k.place k.origin k.task ::ₘ msgs) (now : UInt64) :
    Accounted P ({ w with msgs }.arrive k.place k.origin k.task k.fused now) := by
  -- without the message, the view of the call has none
  have hv : ({ w with msgs } : World n).view k.task.call_id = { k.view P with msgs := 0 } := by
    have hmsgs : (w.view k.task.call_id).msgs = {.runFunc k.place k.origin k.task} := by
      rw [h.view_of_call hk]
      simp [Call.view, Call.msgs, hstage]
    rw [view_msgs (c := k.task.call_id) hm rfl hmsgs, h.view_of_call hk]
  refine h.advance _ k.popped hk (by simp [hstage]) (fun c' hc' => ?_)
    (call_arrive (w := { w with msgs }) hk hstage) (view_arrive hv hstage) ?_ (by simp [hstage])
    ?_ ?_ ?_ ?_ ?_
  · exact (sameFor_msgs hm hc').trans (sameFor_arrive hc')
  · cases hfused : k.fused <;> simp [Call.StageSound]
  · exact (h.sound _ k hk).popped_lt.trans_le (by rw [clock_arrive]; exact Nat.le_succ _)
  · exact fuseOf_arrive (w := { w with msgs })
  · rw [clock_arrive]
    exact Nat.le_succ _
  · exact uuids_arrive (w := { w with msgs })
  · exact crashed_arrive (w := { w with msgs })

/-- **A call is delivered.** The request's workflow states are still there, so that
`run_func` does not meet a null pointer. -/
theorem Accounted.deliverRun (h : Accounted P w) {i prev_cpu : Fin n} {task : Task}
    {msgs : Multiset (Msg n)} (hm : w.msgs = .runFunc i prev_cpu task ::ₘ msgs) (now : UInt64) :
    Accounted P ({ w with msgs }.runFunc i prev_cpu task now) := by
  obtain ⟨k, hk, hstage, rfl, rfl, rfl⟩ :=
    h.call_of_runFunc (hm ▸ Multiset.mem_cons_self _ _)
  have hfuse := (h.sound _ k hk).fuse (by simp [hstage])
  rw [runFunc_eq (w := { w with msgs }) hfuse]
  exact (h.delivered_arrive hk hstage hm now).dispatch k.place

/-- The call whose task is in the reactor, which is ready. -/
theorem Accounted.call_of_task (h : Accounted P w) {i : Fin n} {task : Task}
    (ht : task ∈ (w.core i).tasks) :
    ∃ k, w.call task.call_id = some k ∧ k.stage = .ready ∧ k.place = i ∧ k.task = task := by
  have hmem : task ∈ ((w.core i).view task.call_id).tasks := Multiset.mem_filter.2 ⟨ht, rfl⟩
  cases hk : w.call task.call_id with
  | none =>
    have hview := congrFun (congrArg View.core (h.view task.call_id)) i
    rw [hk] at hview
    rw [show (w.core i).view task.call_id = (View.empty n).core i from hview] at hmem
    simp [View.empty] at hmem
  | some k =>
    rw [h.core hk] at hmem
    -- a call is among the tasks of a core only when it is ready there
    obtain ⟨⟨rfl, hstage⟩, rfl⟩ : (i = k.place ∧ k.stage = .ready) ∧ task = k.task := by
      by_cases hr : i = k.place ∧ k.stage = .ready
      · simpa [Call.coreView, hr] using hmem
      · simp [Call.coreView, hr] at hmem
    exact ⟨k, rfl, hstage, rfl, rfl⟩

/-- **A task is started.** The call has its JavaScript from here on, on the core it was
placed on. -/
theorem Accounted.start (h : Accounted P w) {i : Fin n} {task : Task} {tasks : Multiset Task}
    (ht : (w.core i).tasks = task ::ₘ tasks) (now : UInt64) :
    Accounted P (w.start P i task tasks now) := by
  obtain ⟨k, hk, hstage, rfl, rfl⟩ := h.call_of_task (ht ▸ Multiset.mem_cons_self _ _)
  -- the other calls see nothing of it
  have hsame : ∀ c', c' ≠ k.task.call_id →
      SameFor c' w (w.start P k.place k.task tasks now) := by
    intro c' hc'
    have hcore : SameFor c' w (w.onCore k.place fun core => { core with tasks }) := by
      refine .onCore ?_
      simp [Core.view, ht, Ne.symm hc']
    exact (hcore.trans (.record (e := .started k.place k.task.call_id) hc')).trans (.setJs hc')
  have hview : (w.start P k.place k.task tasks now).view k.task.call_id =
      { k with stage := .running }.view P := by
    -- the task is no longer among the ready ones
    have hcore : Core.view { w.core k.place with tasks } k.task.call_id =
        { k.coreView k.place with tasks := 0 } := by
      have htasks := congrArg CoreView.tasks (h.core hk k.place)
      simp only [Core.view, ht, Call.coreView, hstage, Multiset.filter_cons_of_pos, and_self,
        if_true] at htasks
      rw [← h.core hk k.place]
      ext1
      case tasks => exact (Multiset.cons_inj_right k.task).1 htasks
      all_goals rfl
    rw [World.start, view_setJs, view_record, view_onCore, h.view_of_call hk, hcore]
    · ext1
      case core =>
        refine update_coreView ?_ fun j hj => ?_
        all_goals ext1 <;> simp [Call.coreView, Call.inQueue, Call.originStates, *]
      all_goals simp [Call.view, Call.msgs, Call.events, Call.eventsToReady, hstage]
    · rfl
  have hclock : (w.start P k.place k.task tasks now).clock = w.clock + 1 := by
    simp [World.start]
  refine h.advance .running k.popped hk (by simp [hstage]) hsame ?_ hview trivial
    (by simp [hstage]) ?_
    (fun _ => rfl) ?_ rfl rfl
  · exact call_record_self _ rfl rfl hk (by simp [Call.after, hstage])
  · have := (h.sound _ k hk).popped_lt
    omega
  · omega

/-! ### Answers -/

theorem view_retire {k : Core n} {c' : Uuid} (h : c ≠ c') (s : String) (now : UInt64) :
    (k.retire c' s now).view c = k.view c := by
  simp [Core.view, Core.retire, Core.delReqStates, h, List.count_erase_of_ne h]

/-- What the first half of `reply` clears for the call. -/
theorem view_retire_self {k : Core n} (s : String) (now : UInt64) :
    (k.retire c s now).view c =
      { k.view c with
        reply := Function.update (k.view c).reply s none
        queued := (k.view c).queued - 1
        current := False } := by
  ext1
  case reply =>
    funext s'
    simp [Core.view, Core.retire, Core.delReqStates, Function.update_apply]
  case cb => simp [Core.view, Core.retire, Core.delReqStates]
  case queued => simp [Core.view, Core.retire]
  case current => simp [Core.view, Core.retire]
  all_goals rfl

/-- The call `k` has been left and its answer is at hand on the core it was made on:
because its function runs there, or because its message has come back. The world's view
is that of `stage`, the stage in which the core still has what `retire` is going to
clear, except for the message, which has been taken, and the log, which has the event
already.

Both ways lead to the same `reply`, which this makes one proof of. -/
structure AtHand (P : Runtime) (w : World n) (k : Call n) (o : Outcome) (stage : Stage) :
    Prop where
  call : w.call k.task.call_id = some k
  left : k.stage = .returning o
  view : w.view k.task.call_id =
    { { k with stage }.view P with msgs := 0, log := k.eventsToLeft o }
  here : stage = .returning o ∨ stage = .running ∧ k.place = k.origin

section AtHand

variable {k : Call n} {o : Outcome} {stage : Stage} {now : UInt64}

theorem AtHand.core (hr : AtHand P w k o stage) (i : Fin n) :
    (w.core i).view k.task.call_id = { k with stage }.coreView i :=
  congrFun (congrArg View.core hr.view) i

/-- `reply` finds its states, which say whether to set a promise or to call a callback. -/
theorem AtHand.req_map (hr : AtHand P w k o stage) :
    (w.core k.origin).req_map (replyKey k.task.service k.task.call_id) =
      some k.originStates := by
  have hreply := congrFun (congrArg CoreView.reply (hr.core k.origin)) k.task.service
  refine hreply.trans ?_
  rcases hr.here with rfl | ⟨rfl, -⟩ <;> simp [Call.coreView, Call.originStates]

/-- What the core a call was made on holds for it once `reply` has run there: nothing
but the callback. -/
theorem coreView_retired (here : stage = .returning o ∨ stage = .running ∧ k.place = k.origin) :
    { { k with stage }.coreView k.origin with
      reply := Function.update ({ k with stage }.coreView k.origin).reply k.task.service none
      queued := ({ k with stage }.coreView k.origin).queued - 1
      current := False } =
    { { k with stage := .closed o }.coreView k.origin with
      cb := ({ k with stage := .answering o }.coreView k.origin).cb } := by
  ext1
  case reply =>
    funext s
    by_cases hs : s = k.task.service <;> rcases here with rfl | ⟨rfl, hplace⟩ <;>
      simp [Call.coreView, hs]
  all_goals
    rcases here with rfl | ⟨rfl, hplace⟩ <;> simp [Call.coreView, Call.inQueue]
  -- a fused root call that runs here is still in the queue
  split <;> rfl

/-- The other cores hold what they should already: nothing. -/
theorem coreView_elsewhere
    (here : stage = .returning o ∨ stage = .running ∧ k.place = k.origin) {j : Fin n}
    (hj : j ≠ k.origin) :
    { k with stage }.coreView j = { k with stage := .closed o }.coreView j := by
  rcases here with rfl | ⟨rfl, hplace⟩
  · ext1 <;> simp [Call.coreView, Call.inQueue, hj]
  · ext1 <;> simp [Call.coreView, Call.inQueue, hj, hplace]

/-- A root call is answered. -/
theorem AtHand.view_root (hr : AtHand P w k o stage) (hcaller : k.caller = none) :
    ((w.retire k.origin k.task.call_id k.task.service now).record (k.rootEnd P o)).view
      k.task.call_id = { k with stage := .closed o }.view P := by
  rw [view_record (k.rootEnd_call_id P o), retire, view_onCore, hr.view, view_retire_self, hr.core,
    coreView_retired hr.here]
  ext1
  -- on the core it came to the entries go, elsewhere there are none left
  case core =>
    refine update_coreView ?_ fun j hj => coreView_elsewhere hr.here hj
    ext1
    case cb => simp [Call.coreView, hcaller]
    all_goals rfl
  case msgs => rfl
  case js => rcases hr.here with rfl | ⟨rfl, -⟩ <;> rfl
  case log =>
    exact (Call.events_root { k with stage := .closed o } rfl hcaller).symm

theorem view_beginCallback_self {k : Core n} (s : String) :
    (k.beginCallback c s).view c =
      { k.view c with callbacks := (c, s) ::ₘ (k.view c).callbacks } := by
  ext1
  case callbacks => simp [Core.view, Core.beginCallback]
  all_goals rfl

/-- The callback of a nested call is called. -/
theorem AtHand.view_nested (hr : AtHand P w k o stage) :
    (((w.retire k.origin k.task.call_id k.task.service now).onCore k.origin fun core =>
      core.beginCallback k.task.call_id k.task.service).record
      (.callbackRun k.origin k.task.call_id none o.text)).view k.task.call_id =
      { k with stage := .answering o }.view P := by
  rw [view_record, view_onCore, view_beginCallback_self, retire, view_onCore, hr.view,
    Function.update_idem, onCore_core_self, view_retire_self, hr.core, coreView_retired hr.here]
  · ext1
    -- the keys are removed and the callback has begun, both on the origin; other cores
    -- have nothing of the call
    case core =>
      refine update_coreView ?_ fun j hj => ?_
      · ext1 <;> simp [Call.coreView, Call.inQueue]
      · rw [coreView_elsewhere hr.here hj]
        ext1 <;> simp [Call.coreView, Call.inQueue, hj]
    case msgs => rfl
    case js => rcases hr.here with rfl | ⟨rfl, -⟩ <;> rfl
    case log => rfl
  · rfl

/-- `reply` for a root call, when the string is of no use. -/
theorem AtHand.reply_unreadable (hr : AtHand P w k o stage) (hcaller : k.caller = none)
    (hjson : P.readJson o.text = none) (req_id : Uuid) :
    reply P w k.origin req_id k.task.call_id k.task.service o.text now =
      ((w.retire k.origin k.task.call_id k.task.service now).record (k.rootEnd P o), false) := by
  simp [reply, hr.req_map, Call.originStates, hcaller, hjson, Call.rootEnd]

/-- `reply` for a root call, when the string can be used. -/
theorem AtHand.reply_readable (hr : AtHand P w k o stage) (hcaller : k.caller = none)
    (hjson : P.readJson o.text ≠ none) (req_id : Uuid) (now : UInt64) :
    reply P w k.origin req_id k.task.call_id k.task.service o.text now =
      ((((w.retire k.origin k.task.call_id k.task.service now).record (k.rootEnd P o)).onCore
        k.origin fun core => { core with curr_wf := core.curr_wf.erase req_id }).dispatch k.origin,
        true) := by
  obtain ⟨⟨status, message⟩, hread⟩ := Option.ne_none_iff_exists'.1 hjson
  simp [reply, hr.req_map, Call.originStates, hcaller, hread, Call.rootEnd]

/-- `reply` for a nested call. The callback's states are under the key that `Call`
stored them under. -/
theorem AtHand.reply_nested (hr : AtHand P w k o stage) (hcaller : k.caller ≠ none)
    (req_id : Uuid) :
    reply P w k.origin req_id k.task.call_id k.task.service o.text now =
      (((w.retire k.origin k.task.call_id k.task.service now).onCore k.origin fun core =>
        core.beginCallback k.task.call_id k.task.service).record
        (.callbackRun k.origin k.task.call_id none o.text), true) := by
  obtain ⟨p, hp⟩ := Option.ne_none_iff_exists'.1 hcaller
  have hcb : ((w.retire k.origin k.task.call_id k.task.service now).core k.origin).req_map
      (cbKey k.task.service k.task.call_id) = some (.callback k.task.call_id) := by
    have hcb := congrFun (congrArg CoreView.cb (hr.core k.origin)) k.task.service
    rw [retire, onCore_core_self]
    calc _ = (w.core k.origin).req_map (cbKey k.task.service k.task.call_id) := by
          simp [Core.retire, Core.delReqStates]
      _ = _ := hcb
      _ = _ := by rcases hr.here with rfl | ⟨rfl, -⟩ <;> simp [Call.coreView, hp]
  simp [reply, hr.req_map, Call.originStates, hp, runCallback, hcb]

/-- The reply of a request has come, and `reply` has not dispatched yet. Whether the
promise is set or the string is of no use, the call is closed. -/
theorem Accounted.answer_root (h : Accounted P w) {w₁ : World n}
    (hk : w.call k.task.call_id = some { k with stage }) (hr : AtHand P w₁ k o stage)
    (hsame : ∀ c', c' ≠ k.task.call_id → SameFor c' w w₁)
    (hfuse : ∀ r, w₁.fuseOf r = w.fuseOf r) (hclock : w.clock ≤ w₁.clock)
    (huuids : w₁.uuids = w.uuids) (hcrashed : w₁.crashed = w.crashed)
    (hcaller : k.caller = none) (now : UInt64) :
    Accounted P ((w₁.retire k.origin k.task.call_id k.task.service now).record
      (k.rootEnd P o)) := by
  have hplaced : stage ≠ .placing := by rcases hr.here with rfl | ⟨rfl, -⟩ <;> simp
  have hpopped := (h.sound _ _ hk).popped_lt
  refine h.advance (.closed o) k.popped hk hplaced ?_ ?_
    (hr.view_root hcaller) trivial (fun _ => ⟨rfl, rfl⟩) ?_ hfuse ?_ huuids hcrashed
  -- nothing of another call is touched
  · intro c' hc'
    have hretire : SameFor c' w (w₁.retire k.origin k.task.call_id k.task.service now) :=
      (hsame c' hc').trans (.onCore (view_retire hc' _ _))
    exact hretire.trans (.record (by rwa [Call.rootEnd_call_id]))
  · exact call_record_self _ (k.rootEnd_call_id P o) (k.newCall_rootEnd P o _) hr.call
      (k.after_rootEnd P hr.left _)
  · rw [clock_record]
    exact hpopped.trans_le (hclock.trans (Nat.le_succ _))
  · rw [clock_record]
    exact hclock.trans (Nat.le_succ _)

/-- **The answer reaches the core the call was made on.** A root call is closed, a
nested one has its callback called. `w₁` is the world in which the answer is at hand,
`w` the one before the step. -/
theorem Accounted.answer (h : Accounted P w) {w₁ : World n}
    (hk : w.call k.task.call_id = some { k with stage }) (hr : AtHand P w₁ k o stage)
    (hsame : ∀ c', c' ≠ k.task.call_id → SameFor c' w w₁)
    (hfuse : ∀ r, w₁.fuseOf r = w.fuseOf r) (hclock : w.clock ≤ w₁.clock)
    (huuids : w₁.uuids = w.uuids) (hcrashed : w₁.crashed = w.crashed) (now : UInt64) :
    Accounted P (reply P w₁ k.origin k.task.req_id k.task.call_id k.task.service o.text now).1 := by
  have hplaced : stage ≠ .placing := by rcases hr.here with rfl | ⟨rfl, -⟩ <;> simp
  have hpopped := (h.sound _ _ hk).popped_lt
  by_cases hcaller : k.caller = none
  · have hclosed := h.answer_root hk hr hsame hfuse hclock huuids hcrashed hcaller now
    cases hjson : P.readJson o.text with
    | none =>
      rw [hr.reply_unreadable hcaller hjson]
      exact hclosed
    | some _ =>
      rw [hr.reply_readable hcaller (by simp [hjson])]
      refine (hclosed.idle (fun c' => .onCore rfl) (fun _ => rfl) rfl rfl rfl).dispatch k.origin
  -- a nested call: the callback begins, and nothing is dispatched before it has returned
  · rw [hr.reply_nested hcaller]
    refine h.advance (.answering o) k.popped hk hplaced ?_ ?_
      hr.view_nested ?_ (fun _ => ⟨rfl, rfl⟩) ?_ hfuse ?_ huuids hcrashed
    · intro c' hc'
      have hretire : SameFor c' w (w₁.retire k.origin k.task.call_id k.task.service now) :=
        (hsame c' hc').trans (.onCore (view_retire hc' _ _))
      refine hretire.trans (SameFor.trans (.onCore ?_) (.record hc'))
      simp [Core.view, Core.beginCallback, Ne.symm hc']
    · exact call_record_self _ rfl rfl hr.call (by simp [Call.after, hr.left])
    · simpa [Call.StageSound, Option.isSome_iff_ne_none] using hcaller
    · rw [clock_record]
      exact hpopped.trans_le (hclock.trans (Nat.le_succ _))
    · rw [clock_record]
      exact hclock.trans (Nat.le_succ _)

end AtHand

/-! ### A function leaves its call -/

section Leave

variable {k : Call n} {o : Outcome} {now : UInt64}

/-- A call that was made on the core it runs on: its answer is at hand as soon as its
function leaves it. -/
theorem Accounted.atHand_left (h : Accounted P w) (hk : w.call k.task.call_id = some k)
    (hrunning : k.stage = .running) (hplace : k.place = k.origin) :
    AtHand P (w.record (.left k.place k.task.call_id o)) { k with stage := .returning o } o
      .running where
  call := call_record_self _ rfl rfl hk (by simp [Call.after, hrunning])
  left := rfl
  view := by
    obtain ⟨task, origin, caller, place, fused, stage, born, popped⟩ := k
    obtain rfl : stage = .running := hrunning
    -- nothing but the log changes with the stage
    show (w.record _).view task.call_id = _
    rw [view_record, h.view_of_call hk]
    · ext1
      case log => simp [Call.view, Call.events, Call.eventsToLeft, Call.eventsToReady]
      all_goals rfl
    · rfl
  here := .inr ⟨rfl, hplace⟩

/-- `reply` sends the answer to the core the call was made on. The workflow is charged
in `wf_map`, which changes nothing that the ledger speaks of. -/
theorem Accounted.reply_remote (h : Accounted P w) (hk : w.call k.task.call_id = some k)
    (hrunning : k.stage = .running) (hplace : k.place ≠ k.origin) (o : Outcome) (now : UInt64) :
    ∃ wf_map : String → Option WfStates,
      (∀ r, World.fuseOf { w with wf_map } r = w.fuseOf r) ∧
      reply P (w.record (.left k.place k.task.call_id o)) k.place k.task.req_id k.task.call_id
        k.task.service o.text now =
      (((({ w with wf_map }.record (.left k.place k.task.call_id o)).onCore k.place fun core =>
        (core.retire k.task.call_id k.task.service now).leaveWf k.task.req_id k.fused)).send
        (.reply k.origin k.place k.task.req_id k.task.call_id k.task.service o.text), true) := by
  -- the request's workflow is there as long as its calls are
  have hfuse := (h.sound _ k hk).fuse (by simp [hrunning])
  obtain ⟨states, hstates, hfused⟩ := Option.map_eq_some_iff.1 hfuse
  obtain ⟨func, hfunc, hwf⟩ := Option.bind_eq_some_iff.1 hstates
  -- the states of the reply point to the core the call was made on
  have hreq : (w.core k.place).req_map (replyKey k.task.service k.task.call_id) =
      some (.reply k.origin) := by
    have hreply := congrFun (congrArg CoreView.reply (h.core hk k.place)) k.task.service
    exact hreply.trans (by simp [Call.coreView, hrunning, hplace])
  let time := now - (((w.core k.place).retire k.task.call_id k.task.service now).wf_starts
    k.task.req_id).getD 0
  refine ⟨Function.update w.wf_map func (some (states.sample time)), ?_, ?_⟩
  · intro r
    -- a sample leaves `fuse` as it is, also for the other requests of the workflow
    cases hr : w.req_wf_map r with
    | none => simp [fuseOf, wfOf, hr]
    | some f =>
      by_cases hf : f = func
      · subst hf
        simp [fuseOf, wfOf, hr, hwf]
      · simp [fuseOf, wfOf, hr, hf]
  -- now the branch of `reply` can be computed
  · rw [reply]
    have hreq' : ((w.record (.left k.place k.task.call_id o)).core k.place).req_map
        (replyKey k.task.service k.task.call_id) = some (.reply k.origin) := hreq
    rw [hreq']
    have hfunc' : ((w.record (.left k.place k.task.call_id o)).retire k.place k.task.call_id
        k.task.service now).req_wf_map k.task.req_id = some func := hfunc
    have hstates' : ((w.record (.left k.place k.task.call_id o)).retire k.place k.task.call_id
        k.task.service now).wfOf k.task.req_id = some states := hstates
    simp only [if_neg (Ne.symm hplace), replyRemote, hfunc', hstates', hfused]
    simp [retire, World.record, World.onCore, send, time]

theorem view_leaveWf {core : Core n} (req_id : Uuid) (fuse : Bool) :
    (core.leaveWf req_id fuse).view c = core.view c := rfl

/-- What a core the call was not made on holds for it once `reply` has run there:
nothing. -/
theorem coreView_left (hrunning : k.stage = .running) (hplace : k.place ≠ k.origin) :
    { k.coreView k.place with
      reply := Function.update (k.coreView k.place).reply k.task.service none
      queued := (k.coreView k.place).queued - 1
      current := False } = { k with stage := .returning o }.coreView k.place := by
  ext1
  case reply =>
    funext s
    by_cases hs : s = k.task.service <;> simp [Call.coreView, hs, hplace]
  all_goals simp [Call.coreView, Call.inQueue, hrunning, hplace]
  -- a fused root call is still in the queue
  split <;> rfl

/-- **A function leaves a call that came from another core.** The core forgets the call,
and its answer is under way. -/
theorem Accounted.leave_remote (h : Accounted P w) (hk : w.call k.task.call_id = some k)
    (hrunning : k.stage = .running) (hplace : k.place ≠ k.origin)
    {wf_map : String → Option WfStates}
    (hfuse : ∀ r, World.fuseOf { w with wf_map } r = w.fuseOf r) :
    Accounted P ((({ w with wf_map }.record (.left k.place k.task.call_id o)).onCore k.place
      fun core => (core.retire k.task.call_id k.task.service now).leaveWf k.task.req_id
        k.fused).send
          (.reply k.origin k.place k.task.req_id k.task.call_id k.task.service o.text)) := by
  let e : Event n := .left k.place k.task.call_id o
  let m : Msg n := .reply k.origin k.place k.task.req_id k.task.call_id k.task.service o.text
  let w₁ := World.record { w with wf_map } e
  let w₂ := w₁.onCore k.place fun core =>
    (core.retire k.task.call_id k.task.service now).leaveWf k.task.req_id k.fused
  have he : e.call_id = k.task.call_id := rfl
  have hm : m.call_id = k.task.call_id := rfl
  show Accounted P (w₂.send m)
  have hsame : ∀ c', c' ≠ k.task.call_id → SameFor c' w (w₂.send m) := by
    intro c' hc'
    -- the sample, the event, the core and the message in turn
    have h₁ : SameFor c' w { w with wf_map } := ⟨rfl, rfl⟩
    have h₂ : SameFor c' w₁ w₂ := by
      refine .onCore ?_
      rw [view_leaveWf]
      exact view_retire hc' _ _
    exact ((h₁.trans (.record (e := e) hc')).trans h₂).trans (.send (m := m) hc')
  have hview : (w₂.send m).view k.task.call_id = { k with stage := .returning o }.view P := by
    have hw₁ : w₁.view k.task.call_id = { k.view P with log := k.events P ++ [e] } := by
      have hv : World.view { w with wf_map } k.task.call_id = k.view P := h.view_of_call hk
      show (World.record _ e).view _ = _
      rw [view_record he, hv]
      rfl
    have hcore : (w₁.core k.place).view k.task.call_id = k.coreView k.place := h.core hk k.place
    rw [view_send hm, view_onCore, hw₁, view_leaveWf, view_retire_self, hcore,
      coreView_left (o := o) hrunning hplace]
    ext1
    case core =>
      refine update_coreView rfl fun j hj => ?_
      ext1 <;> simp [Call.coreView, Call.inQueue, Call.originStates, *]
    case log =>
      simp [Call.view, Call.events, Call.eventsToLeft, Call.eventsToReady, hrunning, e]
    all_goals simp [Call.view, Call.msgs, hrunning, m]
  have hclock : (w₂.send m).clock = w.clock + 1 := clock_record { w with wf_map } e
  have hpopped := (h.sound _ k hk).popped_lt
  exact h.advance (.returning o) k.popped hk (by simp [hrunning]) hsame
    (call_record_self { w with wf_map } rfl rfl hk (by simp [Call.after, hrunning, e])) hview
    hplace (fun _ => ⟨rfl, rfl⟩) (by omega) hfuse (by omega) rfl rfl

/-- **A function leaves its call**, by a reply or an exception. If the call was made
here, the answer is at hand and `reply` does the rest; if not, it is sent home. -/
theorem Accounted.leave (h : Accounted P w) (hk : w.call k.task.call_id = some k)
    (hrunning : k.stage = .running) :
    Accounted P (reply P (w.record (.left k.place k.task.call_id o)) k.place k.task.req_id
      k.task.call_id k.task.service o.text now).1 := by
  -- at the origin the answer follows at once; elsewhere it is sent
  by_cases hplace : k.place = k.origin
  · have hk' : w.call k.task.call_id = some { k with stage := .running } := by
      rw [hk, ← hrunning]
    have hclock : w.clock ≤ (w.record (.left k.place k.task.call_id o)).clock := by
      rw [clock_record]
      exact Nat.le_succ _
    have hanswer := h.answer (k := { k with stage := .returning o }) hk'
      (h.atHand_left hk hrunning hplace) (fun c' hc' => .record hc') (fun _ => rfl) hclock rfl rfl
      now
    rwa [← hplace] at hanswer
  · obtain ⟨wf_map, hfuse, hreply⟩ := h.reply_remote hk hrunning hplace o now
    rw [hreply]
    exact h.leave_remote hk hrunning hplace hfuse

end Leave

/-! ### Deliveries of replies -/

/-- The call whose `reply` message is under way. The message has the call's own ids and
the text of its outcome, which is what makes the reply it leads to the right one. -/
theorem Accounted.call_of_reply (h : Accounted P w) {i sender : Fin n} {req_id call_id : Uuid}
    {service ret : String} (hm : .reply i sender req_id call_id service ret ∈ w.msgs) :
    ∃ k o, w.call call_id = some k ∧ k.stage = .returning o ∧ k.origin = i ∧ k.place = sender ∧
      k.task.req_id = req_id ∧ k.task.call_id = call_id ∧ k.task.service = service ∧
      o.text = ret := by
  have hmem : .reply i sender req_id call_id service ret ∈ (w.view call_id).msgs :=
    Multiset.mem_filter.2 ⟨hm, rfl⟩
  cases hk : w.call call_id with
  | none =>
    rw [h.view, hk] at hmem
    simp [View.empty] at hmem
  | some k =>
    rw [h.view_of_call hk] at hmem
    -- only a returning call has a reply under way
    cases hstage : k.stage <;> simp [Call.view, Call.msgs, hstage] at hmem
    next o =>
    obtain ⟨rfl, rfl, rfl, rfl, rfl, rfl⟩ := hmem
    exact ⟨k, o, rfl, hstage, rfl, rfl, rfl, rfl, rfl, rfl⟩

/-- The answer of a delivered reply is at hand. -/
theorem Accounted.atHand_delivered (h : Accounted P w) {k : Call n} {o : Outcome}
    (hk : w.call k.task.call_id = some k) (hstage : k.stage = .returning o)
    {msgs : Multiset (Msg n)}
    (hm : w.msgs = .reply k.origin k.place k.task.req_id k.task.call_id k.task.service o.text ::ₘ
      msgs) : AtHand P { w with msgs } k o (.returning o) where
  call := hk
  left := hstage
  view := by
    -- the message was the only one of the call
    have hmsgs : (w.view k.task.call_id).msgs =
        {.reply k.origin k.place k.task.req_id k.task.call_id k.task.service o.text} := by
      rw [h.view_of_call hk]
      simp [Call.view, Call.msgs, hstage]
    rw [view_msgs (c := k.task.call_id) hm rfl hmsgs, h.view_of_call hk, ← hstage]
    ext1
    case log => simp [Call.view, Call.events, hstage]
    all_goals rfl
  here := .inl rfl

/-- **A reply is delivered**, and answers its call. -/
theorem Accounted.deliverReply (h : Accounted P w) {i sender : Fin n} {req_id call_id : Uuid}
    {service ret : String} {msgs : Multiset (Msg n)}
    (hm : w.msgs = .reply i sender req_id call_id service ret ::ₘ msgs) (now : UInt64) :
    Accounted P ({ w with msgs }.deliverReply P i sender req_id call_id service ret now) := by
  obtain ⟨k, o, hk, hstage, rfl, rfl, rfl, rfl, rfl, rfl⟩ :=
    h.call_of_reply (hm ▸ Multiset.mem_cons_self _ _)
  have hanswer : Accounted P (reply P { w with msgs } k.origin k.task.req_id k.task.call_id
      k.task.service o.text now).1 :=
    h.answer (by rw [hk, ← hstage]) (h.atHand_delivered hk hstage hm)
      (fun c' hc' => sameFor_msgs hm hc') (fun _ => rfl) le_rfl rfl rfl now
  -- for a nested call the sender is told as well, which is in no view
  rw [World.deliverReply]
  split
  · exact hanswer.idle (fun _ => ⟨rfl, rfl⟩) (fun _ => rfl) rfl rfl rfl
  · exact hanswer

/-! ### `Reply` and exceptions -/

/-- `reply` without reply states crashes: `operator[]` of `req_map` gives a null
pointer. -/
theorem reply_of_absent {i : Fin n} {req_id call_id : Uuid} {service ret : String} {now : UInt64}
    (h : (w.core i).req_map (replyKey service call_id) = none) :
    (reply P w i req_id call_id service ret now).1.crashed = true := by
  simp [reply, h, crash]

/-- Once a function has left its call, there are no reply states left on its core; and
there never are any for another service. This is why a second `Reply`, or one from the
context of another service, crashes. -/
theorem Accounted.req_map_of_left (h : Accounted P w) {k : Call n}
    (hk : w.call k.task.call_id = some k) (hstarted : k.stage.hasStarted) {service : String}
    (hleft : k.stage ≠ .running ∨ service ≠ k.task.service) :
    (w.core k.place).req_map (replyKey service k.task.call_id) = none := by
  have hreply := congrFun (congrArg CoreView.reply (h.core hk k.place)) service
  refine hreply.trans ?_
  have hstage := (h.sound _ k hk).stage
  by_cases hs : service = k.task.service
  · have hnot := hleft.resolve_right (not_not.2 hs)
    cases hst : k.stage <;> simp [hst] at hstarted hnot <;>
      simp_all [Call.coreView, Call.StageSound]
  · simp [Call.coreView, hs]

/-- **A function calls `Reply`** for the first time, from its own service. -/
theorem Accounted.jsReply (h : Accounted P w) {v : Invocation n} {k : Call n}
    (hk : w.call k.task.call_id = some k) (hcore : v.core = k.place) (htask : v.task = k.task)
    (hrunning : k.stage = .running) (hname : v.serviceName = k.task.service) (ret : String)
    (now : UInt64) : Accounted P (w.jsReply P v ret now) := by
  rw [World.jsReply, hcore, htask, hname]
  exact h.leave hk hrunning

/-- That a body is over changes no more than this about the call's JavaScript. -/
theorem Accounted.leaveBody (h : Accounted P w) {v : Invocation n}
    (hv : w.js v.task.call_id = some v) : Accounted P (w.leaveBody v) := by
  have hsame : ∀ c, SameFor c w (w.leaveBody v) := by
    intro c
    -- that its body is over is not part of the view of a call
    by_cases hc : c = v.task.call_id
    · subst hc
      refine ⟨?_, rfl⟩
      rw [World.leaveBody, view_setJs]
      ext1
      case js => simp [World.view, hv]
      all_goals rfl
    · exact .setJs hc
  exact h.idle hsame (fun _ => rfl) rfl rfl rfl

theorem Accounted.finish (h : Accounted P w) {v : Invocation n}
    (hv : w.js v.task.call_id = some v) (now : UInt64) : Accounted P (w.finish v now) :=
  (h.leaveBody hv).idle (fun _ => ⟨rfl, rfl⟩) (fun _ => rfl) rfl rfl rfl

/-- `dispatch` and `reply` leave the JavaScript alone. -/
theorem js_dispatch (i : Fin n) : (w.dispatch i).js = w.js := by
  by_cases hd : Dispatchable w i
  · obtain ⟨c, rest, task, hq, ht, hwf⟩ := hd
    rw [dispatch_of_front hq ht hwf]
    rfl
  · rw [dispatch_of_not hd]

/-- `reply` leaves the JavaScript alone: a callback is a step of its own. -/
theorem js_reply (i : Fin n) (req_id call_id : Uuid) (service ret : String) (now : UInt64) :
    (reply P w i req_id call_id service ret now).1.js = w.js := by
  cases hs : (w.core i).req_map (replyKey service call_id) with
  | none => simp [reply, hs, crash, retire, World.onCore]
  | some states =>
    -- no branch of `reply` touches JavaScript
    cases states with
    | callback callee => simp [reply, hs, crash, retire, World.onCore]
    | localReply =>
      cases hjson : P.readJson ret with
      | none => simp [reply, hs, hjson, retire, World.onCore, World.record]
      | some res =>
        simp only [reply, hs, hjson, js_dispatch]
        rfl
    | reply prev_cpu =>
      by_cases hprev : prev_cpu = i
      · simp only [reply, hs, hprev, if_true, runCallback]
        split <;> rfl
      · simp only [reply, hs, hprev, if_false, replyRemote]
        split <;> rfl

/-- **A function throws** before it calls `Reply`. The reply is the same but for its
text, and `run_func` goes on after it. -/
theorem Accounted.jsThrow (h : Accounted P w) {v : Invocation n} {k : Call n}
    (hv : w.js v.task.call_id = some v) (hk : w.call k.task.call_id = some k)
    (hcore : v.core = k.place) (htask : v.task = k.task) (hrunning : k.stage = .running)
    (now : UInt64) : Accounted P (w.jsThrow P v now) := by
  have hleave : Accounted P (reply P (w.record (.left v.core v.task.call_id .threw)) v.core
      v.task.req_id v.task.call_id v.task.service Outcome.threw.text now).1 := by
    rw [hcore, htask]
    exact h.leave hk hrunning
  have hjs := (js_reply (P := P) (w := w.record (.left v.core v.task.call_id .threw)) v.core
    v.task.req_id v.task.call_id v.task.service Outcome.threw.text now)
  have hv' := (congrFun hjs v.task.call_id).trans hv
  -- with a crash the clock is not read any more
  rw [World.jsThrow]
  split
  · exact hleave.finish hv' now
  · exact hleave.leaveBody hv'

/-! ### The end of a callback -/

/-- The call whose callback has been called, and has not returned. -/
theorem Accounted.call_of_callback (h : Accounted P w) {i : Fin n} {call_id : Uuid}
    {service : String} (hc : (call_id, service) ∈ (w.core i).callbacks) :
    ∃ k o, w.call call_id = some k ∧ k.stage = .answering o ∧ k.origin = i ∧
      k.task.call_id = call_id ∧ k.task.service = service := by
  have hmem : (call_id, service) ∈ ((w.core i).view call_id).callbacks :=
    Multiset.mem_filter.2 ⟨hc, rfl⟩
  cases hk : w.call call_id with
  | none =>
    have hview := congrFun (congrArg View.core (h.view call_id)) i
    rw [hk] at hview
    rw [show (w.core i).view call_id = (View.empty n).core i from hview] at hmem
    simp [View.empty] at hmem
  | some k =>
    rw [h.core hk] at hmem
    by_cases hi : i = k.origin
    -- only an answering call has a callback, and at its origin
    · cases hstage : k.stage <;> simp [Call.coreView, hstage, hi] at hmem
      next o => exact ⟨k, o, rfl, hstage, hi.symm, hmem.1.symm, hmem.2.symm⟩
    · simp [Call.coreView, hi] at hmem

/-- A callback has returned, and `reply` has not dispatched yet. The call is closed. -/
theorem Accounted.callback_over (h : Accounted P w) {i : Fin n} {call_id : Uuid}
    {service : String} {callbacks : Multiset (Uuid × String)}
    (hc : (w.core i).callbacks = (call_id, service) ::ₘ callbacks) :
    Accounted P ((w.onCore i fun k => { k.delReqStates (cbKey service call_id) with
      callbacks }).record (.callbackDone i call_id)) := by
  obtain ⟨k, o, hk, hstage, rfl, rfl, rfl⟩ :=
    h.call_of_callback (hc ▸ Multiset.mem_cons_self _ _)
  have hpopped := (h.sound _ k hk).popped_lt
  have hnested : k.caller.isSome := by
    simpa [Call.StageSound, hstage] using (h.sound _ k hk).stage
  obtain ⟨p, hp⟩ := Option.isSome_iff_exists.1 hnested
  refine h.advance (.closed o) k.popped hk (by simp [hstage]) ?_ ?_ ?_ trivial
    (fun _ => ⟨rfl, rfl⟩) ?_ (fun _ => rfl) ?_ rfl rfl
  · intro c' hc'
    refine (SameFor.onCore ?_).trans (.record hc')
    simp [Core.view, Core.delReqStates, hc, hc', Ne.symm hc']
  · exact call_record_self _ rfl rfl hk (by simp [Call.after, hstage])
  -- the callback and its states are gone from the core that ran it
  · have hcallbacks := congrArg CoreView.callbacks (h.core hk k.origin)
    simp only [Core.view, hc, Call.coreView, hstage, Stage.isAnswering, and_self, if_true,
      Multiset.filter_cons_of_pos] at hcallbacks
    have hcore : Core.view { (w.core k.origin).delReqStates (cbKey k.task.service k.task.call_id)
          with callbacks } k.task.call_id =
        { k.coreView k.origin with
          cb := Function.update (k.coreView k.origin).cb k.task.service none
          callbacks := 0 } := by
      rw [← h.core hk k.origin]
      ext1
      case reply => simp [Core.view, Core.delReqStates]
      case cb =>
        funext s
        simp [Core.view, Core.delReqStates, Function.update_apply]
      case callbacks => exact (Multiset.cons_inj_right _).1 hcallbacks
      all_goals rfl
    rw [view_record, view_onCore, h.view_of_call hk, hcore]
    · ext1
      case core =>
        refine update_coreView ?_ fun j hj => ?_
        · ext1
          case cb =>
            funext s
            by_cases hs : s = k.task.service <;> simp [Call.coreView, hs]
          all_goals simp [Call.coreView, Call.inQueue, *]
        · ext1 <;> simp [Call.coreView, Call.inQueue, *]
      case log => simp [Call.view, Call.events, Call.eventsToLeft, Call.eventsToReady, hstage, hp]
      all_goals simp [Call.view, Call.msgs, hstage]
    · rfl
  · rw [clock_record, clock_onCore]
    omega
  · rw [clock_record, clock_onCore]
    omega

/-- **A callback returns.** -/
theorem Accounted.callbackDone (h : Accounted P w) {i : Fin n} {call_id : Uuid}
    {service : String} {callbacks : Multiset (Uuid × String)}
    (hc : (w.core i).callbacks = (call_id, service) ::ₘ callbacks) :
    Accounted P (w.callbackDone i call_id service callbacks) :=
  (h.callback_over hc).dispatch i

/-- **An acknowledgement arrives**, on a core that has sent a reply. It is about no
call. -/
theorem Accounted.ack (h : Accounted P w) (i : Fin n) (acks : Multiset (Fin n)) :
    Accounted P ({ w with acks }.dispatch i) := by
  have hidle : Accounted P { w with acks } :=
    h.idle (fun _ => ⟨rfl, rfl⟩) (fun _ => rfl) rfl rfl rfl
  exact hidle.dispatch i

end Nanoservices
