import Nanoservices.Sched.Accounting

/-!
# Calls are made and placed

`new_req`, `Call`, `schedule` and `run_func` keep the invariant `Accounted`.

A new call comes about in three steps: its states are stored and it enters the ledger
(`Made`), it gets a place (`Placed`), and it is sent there or, on the core it was made
on, arrives at once. The second half of the last step, `World.arrive`, is also what the
delivery of its message does.
-/

namespace Nanoservices

open World

variable {n : ℕ} {P : Runtime} {w w' : World n} {c : Uuid}

/-! ### The arrival of a call -/

theorem view_ensureFuncStates (func : String) : (w.ensureFuncStates func).view c = w.view c := by
  unfold World.ensureFuncStates
  split <;> rfl

theorem call_ensureFuncStates (func : String) : (w.ensureFuncStates func).call c = w.call c := by
  unfold World.ensureFuncStates
  split <;> rfl

theorem sameFor_ensureFuncStates (func : String) : SameFor c w (w.ensureFuncStates func) :=
  ⟨view_ensureFuncStates func, call_ensureFuncStates func⟩

theorem log_ensureFuncStates (func : String) : (w.ensureFuncStates func).log = w.log := by
  unfold World.ensureFuncStates
  split <;> rfl

theorem clock_ensureFuncStates (func : String) : (w.ensureFuncStates func).clock = w.clock := by
  unfold World.ensureFuncStates
  split <;> rfl

theorem fuseOf_ensureFuncStates (func : String) (r : Uuid) :
    (w.ensureFuncStates func).fuseOf r = w.fuseOf r := by
  unfold World.ensureFuncStates
  split <;> rfl

theorem crashed_ensureFuncStates (func : String) :
    (w.ensureFuncStates func).crashed = w.crashed := by
  unfold World.ensureFuncStates
  split <;> rfl

theorem uuids_ensureFuncStates (func : String) : (w.ensureFuncStates func).uuids = w.uuids := by
  unfold World.ensureFuncStates
  split <;> rfl

/-- `run_func` without its last step, `dispatch`. It is separate because the two halves
are about different calls: what arrives is this call, and what `dispatch` starts is
whatever stands in front. -/
def World.arrive (w : World n) (i prev_cpu : Fin n) (task : Task) (fuse : Bool) (now : UInt64) :
    World n :=
  ((w.onCore i fun k => k.ensureReplyStates (replyKey task.service task.call_id)
    prev_cpu).ensureFuncStates (task.service ++ task.function)).receive i task fuse now

/-- For a request that is known, `run_func` is an arrival and a `dispatch`, and does not
crash. -/
theorem runFunc_eq {i prev_cpu : Fin n} {task : Task} {now : UInt64} {fuse : Bool}
    (h : w.fuseOf task.req_id = some fuse) :
    w.runFunc i prev_cpu task now = (w.arrive i prev_cpu task fuse now).dispatch i := by
  have hfuse : ((w.onCore i fun k => k.ensureReplyStates (replyKey task.service task.call_id)
      prev_cpu).ensureFuncStates (task.service ++ task.function)).fuseOf task.req_id =
      some fuse := by
    rw [fuseOf_ensureFuncStates]
    exact h
  obtain ⟨states, hstates, rfl⟩ := Option.map_eq_some_iff.1 hfuse
  rw [World.runFunc]
  simp only [hstates]
  rfl

section Arrive

variable {i prev_cpu : Fin n} {task : Task} {fuse : Bool} {now : UInt64}

theorem clock_arrive : (w.arrive i prev_cpu task fuse now).clock = w.clock + 1 := by
  simp [arrive, receive, clock_ensureFuncStates]

theorem fuseOf_arrive (r : Uuid) : (w.arrive i prev_cpu task fuse now).fuseOf r = w.fuseOf r :=
  fuseOf_ensureFuncStates _ r

theorem uuids_arrive : (w.arrive i prev_cpu task fuse now).uuids = w.uuids :=
  uuids_ensureFuncStates _

theorem crashed_arrive : (w.arrive i prev_cpu task fuse now).crashed = w.crashed :=
  crashed_ensureFuncStates _

theorem sameFor_arrive (h : c ≠ task.call_id) :
    SameFor c w (w.arrive i prev_cpu task fuse now) := by
  have hreply : SameFor c w (w.onCore i fun k =>
      k.ensureReplyStates (replyKey task.service task.call_id) prev_cpu) :=
    .onCore (view_ensureReplyStates h _ _)
  refine (hreply.trans (sameFor_ensureFuncStates (task.service ++ task.function))).trans ?_
  exact (SameFor.onCore (view_receive h fuse now)).trans (.record h)

/-- In the ledger a call that arrives is ready if it is fused, and waits otherwise. -/
theorem call_arrive {k : Call n} (hk : w.call task.call_id = some k) (hstage : k.stage = .sent) :
    (w.arrive i prev_cpu task fuse now).call task.call_id =
      some { k with stage := if k.fused then .ready else .waiting } := by
  refine call_record_self _ (k := k) rfl rfl ?_ ?_
  · rw [call_onCore, call_ensureFuncStates, call_onCore]
    exact hk
  · simp [Call.after, hstage]

theorem core_ensureFuncStates (func : String) : (w.ensureFuncStates func).core = w.core := by
  unfold World.ensureFuncStates
  split <;> rfl

/-- What `Core.receive` changes for the call itself. The queue is not among it: a call
is in the queue since `get_core`. -/
theorem view_receive_self {k : Core n} (task : Task) (fuse : Bool) (now : UInt64) :
    (k.receive task fuse now).view task.call_id = if fuse then
      { k.view task.call_id with tasks := task ::ₘ (k.view task.call_id).tasks }
    else { k.view task.call_id with current := True, parked := some task } := by
  unfold Core.receive
  cases fuse <;> by_cases hroot : task.req_id = task.call_id <;> simp [Core.view, hroot]

/-- Reply states that are there already win. They are when the call runs on the core it
was made on. -/
theorem view_ensureReplyStates_self {k : Core n} (s : String) (i : Fin n) :
    (k.ensureReplyStates (replyKey s c) i).view c =
      { k.view c with
        reply := fun s' => if s' = s then ((k.view c).reply s).or (some (.reply i))
          else (k.view c).reply s' } := by
  unfold Core.ensureReplyStates
  split
  -- a key that was missing gets the sender's core
  · next hnone =>
    ext1
    case reply =>
      funext s'
      by_cases hs : s' = s <;> simp [Core.view, Core.setReqStates, Function.update_apply, hs, hnone]
    case cb => simp [Core.view, Core.setReqStates]
    all_goals rfl
  -- one that was there stays
  · next e hsome =>
    ext1
    case reply =>
      funext s'
      by_cases hs : s' = s <;> simp [Core.view, hs, hsome]
    all_goals rfl

/-- A call arrives: what the world holds for it is what a call that waits, or that is in
the reactor, should have. The premise has no messages, as the call's own one has been
taken out, or was never sent. -/
theorem view_arrive {k : Call n} (hv : w.view k.task.call_id = { k.view P with msgs := 0 })
    (hstage : k.stage = .sent) :
    (w.arrive k.place k.origin k.task k.fused now).view k.task.call_id =
      { k with stage := if k.fused then .ready else .waiting }.view P := by
  rw [arrive, receive, view_record, view_onCore, view_ensureFuncStates, view_onCore, hv]
  · ext1
    case core =>
      -- the core changes twice, by the reply states and by the task; the two changes are one update
      rw [Function.update_idem]
      refine update_coreView ?_ fun j hj => ?_
      · have hcore : (w.core k.place).view k.task.call_id = k.coreView k.place :=
          congrFun (congrArg View.core hv) k.place
        rw [core_ensureFuncStates]
        show Core.view (Core.receive (Function.update w.core k.place _ k.place) _ _ _) _ = _
        rw [Function.update_self, view_receive_self, view_ensureReplyStates_self, hcore]
        cases hfused : k.fused <;> ext1 <;>
          simp [Call.coreView, Call.inQueue, Call.originStates, *]
        all_goals
          -- the reply states are those of the core the call was made on, if it is this one
          funext s
          by_cases hs : s = k.task.service <;> by_cases ho : k.place = k.origin <;> simp [hs, ho]
      · cases hfused : k.fused <;> ext1 <;>
          simp [Call.coreView, Call.inQueue, Call.originStates, *]
    all_goals
      cases hfused : k.fused <;>
        simp [Call.view, Call.msgs, Call.events, Call.eventsToReady, hstage, hfused]
  · rfl

end Arrive

/-! ### Placing a call -/

/-- The call with its place, as `get_core` or `schedule` has chosen it. -/
def Call.placedOn (k : Call n) (core : Fin n) (fused : Bool) : Call n :=
  { k with place := core, fused, stage := .sent }

/-- The world `w₁` differs from `w` in that the call `k`, which was being placed, has
its place, and that its message is still to be sent. The world is not `Accounted` at
this point, since a call that is `sent` has a message; one of `placed_send` and
`placed_arrive` makes up for it. -/
structure Placed (P : Runtime) (w w₁ : World n) (k : Call n) (core : Fin n) (fused : Bool) :
    Prop where
  before : w.call k.task.call_id = some k
  placing : k.stage = .placing
  same : ∀ c', c' ≠ k.task.call_id → SameFor c' w w₁
  call : w₁.call k.task.call_id = some (k.placedOn core fused)
  view : w₁.view k.task.call_id = { (k.placedOn core fused).view P with msgs := 0 }
  workflow : w.fuseOf k.task.req_id = some fused
  home : fused → k.caller ≠ none → core = k.origin
  fuse : ∀ r, w₁.fuseOf r = w.fuseOf r
  clock : w.clock ≤ w₁.clock
  uuids : w₁.uuids = w.uuids
  crashed : w₁.crashed = w.crashed

/-- A placed call goes on to `stage`. The two ways of going on, by a message or at once,
share that the place is new to the ledger and that everything else known of the call has
been there before. -/
theorem Accounted.placed (h : Accounted P w) {w₁ : World n} {k : Call n} {core : Fin n}
    {fused : Bool} (hp : Placed P w w₁ k core fused) {stage : Stage}
    (hsame : ∀ c', c' ≠ k.task.call_id → SameFor c' w₁ w')
    (hcall : w'.call k.task.call_id = some { k.placedOn core fused with stage })
    (hview : w'.view k.task.call_id = { k.placedOn core fused with stage }.view P)
    (hstage : { k.placedOn core fused with stage }.StageSound)
    (hfuse : ∀ r, w'.fuseOf r = w₁.fuseOf r) (hclock : w₁.clock ≤ w'.clock)
    (huuids : w'.uuids = w₁.uuids) (hcrashed : w'.crashed = w₁.crashed) : Accounted P w' := by
  -- what placing does, then the steps after it
  have hsame' : ∀ c', c' ≠ k.task.call_id → SameFor c' w w' := fun c' hc' =>
    (hp.same c' hc').trans (hsame c' hc')
  have hclock' : w.clock ≤ w'.clock := hp.clock.trans hclock
  have hfuse' : ∀ r b, (w.call r).isSome → w.fuseOf r = some b → w'.fuseOf r = some b :=
    fun r b _ hb => (hfuse r).trans ((hp.fuse r).trans hb)
  have hevolves : ∀ k₀, w.call k.task.call_id = some k₀ →
      k₀.EvolvesTo { k.placedOn core fused with stage } := by
    intro k₀ hk₀
    obtain rfl : k = k₀ := Option.some.inj (hp.before.symm.trans hk₀)
    exact ⟨rfl, rfl, rfl, rfl, by simp [hp.placing]⟩
  -- what is known of a call stays known while the others are as they were
  have hmono : k.Sound w' k.task.call_id := by
    refine (h.sound _ k hp.before).mono ?_ hfuse' hclock'
    intro p kp hkp
    by_cases hpc : p = k.task.call_id
    · subst hpc
      exact ⟨_, hcall, hevolves kp hkp⟩
    · exact ⟨kp, (hsame' p hpc).call.trans hkp, .refl kp⟩
  refine h.change hsame' hcall hview hevolves ?_ hfuse' hclock' ?_ ?_
    (hcrashed.trans hp.crashed)
  · exact {
      call_id := hmono.call_id
      caller_none := hmono.caller_none
      stage := hstage
      caller := hmono.caller
      root := hmono.root
      fuse := fun _ => (hfuse _).trans ((hp.fuse _).trans hp.workflow)
      home := fun _ => hp.home
      born_lt := hmono.born_lt
      popped_lt := hmono.popped_lt }
  · exact huuids ▸ hp.uuids ▸ h.known _ k hp.before
  · exact huuids ▸ hp.uuids ▸ Finset.Subset.refl _

/-- A call that was placed on another core is sent there. -/
theorem Accounted.placed_send (h : Accounted P w) {w₁ : World n} {k : Call n} {core : Fin n}
    {fused : Bool} (hp : Placed P w w₁ k core fused) (hcore : core ≠ k.origin) :
    Accounted P (w₁.send (.runFunc core k.origin k.task)) := by
  refine h.placed hp (fun c' hc' => .send hc') hp.call ?_ hcore (fun _ => rfl) le_rfl rfl
    rfl
  rw [view_send, hp.view]
  · rfl
  · rfl

/-- A call that was placed on the core it was made on arrives at once. -/
theorem Accounted.placed_arrive (h : Accounted P w) {w₁ : World n} {k : Call n} {fused : Bool}
    (hp : Placed P w w₁ k k.origin fused) (now : UInt64) :
    Accounted P (w₁.arrive k.origin k.origin k.task fused now) := by
  refine h.placed hp (fun c' hc' => sameFor_arrive hc') (call_arrive hp.call rfl) ?_ ?_
    fuseOf_arrive ?_ uuids_arrive crashed_arrive
  · exact view_arrive (k := k.placedOn k.origin fused) hp.view rfl
  · cases fused <;> simp [Call.StageSound, Call.placedOn]
  · simp [clock_arrive]

theorem view_getCore_self (k : Core n) (exec_time now : UInt64) :
    Core.view { k with
      busy := true
      q := k.q ++ [c]
      busy_till := max k.busy_till now + (if exec_time = 0 then 1 else exec_time) } c =
      { k.view c with queued := (k.view c).queued + 1 } := by
  ext1
  case queued => simp [Core.view]
  all_goals rfl

/-- A call that goes through a queue is placed. Of fused calls these are the root calls
only. -/
theorem Accounted.placed_getCore (h : Accounted P w) {k : Call n}
    (hk : w.call k.task.call_id = some k) (hstage : k.stage = .placing) {fused : Bool}
    (hfused : w.fuseOf k.task.req_id = some fused) (hroot : fused → k.caller = none)
    (core : Fin n) (exec_time now : UInt64) :
    Placed P w ((w.getCore core exec_time k.task.call_id now).record
      (.placed core k.task.call_id fused)) k core fused where
  before := hk
  placing := hstage
  -- the clock of the core and the event concern this call only
  same c' hc' := by
    refine (SameFor.onCore ?_).trans (.record hc')
    simp [Core.view, Ne.symm hc']
  call := call_record_self _ rfl rfl hk (by simp [Call.after, Call.placedOn, hstage])
  view := by
    rw [view_record, getCore, view_onCore, view_getCore_self, h.core hk, h.view_of_call hk]
    · ext1
      case core =>
        refine update_coreView ?_ fun j hj => ?_
        · cases fused <;> ext1 <;> simp [Call.coreView, Call.placedOn, Call.inQueue,
            Call.originStates, hstage, hroot]
        · ext1 <;> simp [Call.coreView, Call.placedOn, Call.inQueue, Call.originStates, hstage, hj]
      all_goals simp [Call.view, Call.msgs, Call.events, Call.placedOn, hstage]
    · rfl
  workflow := hfused
  home hf hcaller := absurd (hroot hf) hcaller
  fuse _ := rfl
  clock := by simp [getCore]
  uuids := rfl
  crashed := rfl

/-- A fused nested call is placed where it is made: the event is all that happens. -/
theorem Accounted.placed_fused (h : Accounted P w) {k : Call n}
    (hk : w.call k.task.call_id = some k) (hstage : k.stage = .placing)
    (hfused : w.fuseOf k.task.req_id = some true) (hnested : k.caller ≠ none) :
    Placed P w (w.record (.placed k.origin k.task.call_id true)) k k.origin true where
  before := hk
  placing := hstage
  same c' hc' := .record hc'
  call := call_record_self _ rfl rfl hk (by simp [Call.after, Call.placedOn, hstage])
  view := by
    rw [view_record, h.view_of_call hk]
    · ext1
      case core =>
        -- it is not put into a queue, so no core changes
        funext j
        ext1 <;> simp [Call.view, Call.coreView, Call.placedOn, Call.inQueue, Call.originStates,
          hstage, hnested]
      all_goals simp [Call.view, Call.msgs, Call.events, Call.placedOn, hstage]
    · rfl
  workflow := hfused
  home _ _ := rfl
  fuse _ := rfl
  clock := by simp
  uuids := rfl
  crashed := rfl

/-- What `schedule` does once a core is chosen, unless a map has no entry: a fused
nested call goes on right here; any other call is put in the queue of the core, and goes
on there. -/
theorem place_cases (w : World n) (i prev_cpu : Fin n) (task : Task) (core : Fin n) (now : UInt64) :
    (w.fuseOf task.req_id = some true ∧ task.req_id ≠ task.call_id ∧
      w.place i prev_cpu task core now =
        (w.record (.placed i task.call_id true)).runFunc i prev_cpu task now) ∨
    (∃ fuse exec_time, w.fuseOf task.req_id = some fuse ∧ (fuse → task.req_id = task.call_id) ∧
      w.place i prev_cpu task core now =
        if core = i then ((w.getCore core exec_time task.call_id now).record
          (.placed core task.call_id fuse)).runFunc i prev_cpu task now
        else ((w.getCore core exec_time task.call_id now).record
          (.placed core task.call_id fuse)).send (.runFunc core prev_cpu task)) ∨
    ((w.fuseOf task.req_id = none ∨ w.func_map (task.service ++ task.function) = none) ∧
      w.place i prev_cpu task core now = w.crash) := by
  cases hstates : w.wfOf task.req_id with
  | none =>
    refine .inr (.inr ⟨.inl ?_, by simp [World.place, hstates]⟩)
    simp [fuseOf, hstates]
  | some states =>
    have hfuse : w.fuseOf task.req_id = some states.fuse := by simp [fuseOf, hstates]
    cases hfunc : w.func_map (task.service ++ task.function) with
    | none => exact .inr (.inr ⟨.inr rfl, by simp [World.place, hstates, hfunc]⟩)
    | some states' =>
      -- a nested call of a fused request stays on its core; any other one is sent where
      -- it was placed
      by_cases hnested : states.fuse && task.req_id != task.call_id
      · obtain ⟨hf, hreq⟩ : states.fuse = true ∧ task.req_id ≠ task.call_id := by
          simpa using hnested
        refine .inl ⟨hfuse.trans (congrArg some hf), hreq, ?_⟩
        simp only [World.place, hstates, hfunc, hnested, if_true]
      · let exec_time := if states.fuse then states.exec_time else states'.exec_time
        refine .inr (.inl ⟨states.fuse, exec_time.toInt64.toUInt64, hfuse, fun hf => ?_, ?_⟩)
        · simpa [hf] using hnested
        · simp only [World.place, hstates, hfunc, hnested]
          rfl

/-- How `schedule` ends for the call `k`, from the world `w` on in which it has been
prepared: it goes on to another core, or arrives where it was made. In the last two
cases a `dispatch` follows, for whatever stands in front of the queue. Invariants that
look at single stages start from these cases. -/
inductive PlaceEnds (P : Runtime) (w : World n) (k : Call n) (core : Fin n) (now : UInt64) :
    World n → Prop
  | sent (exec_time : UInt64) (fused : Bool) (w' : World n) :
      w' = ((w.getCore core exec_time k.task.call_id now).record
        (.placed core k.task.call_id fused)).send (.runFunc core k.origin k.task) →
      core ≠ k.origin → Accounted P w' → PlaceEnds P w k core now w'
  | queued (exec_time : UInt64) (fused : Bool) (w₁ : World n) :
      w₁ = (((w.getCore core exec_time k.task.call_id now).record
        (.placed core k.task.call_id fused)).arrive k.origin k.origin k.task fused now) →
      core = k.origin → Accounted P w₁ → PlaceEnds P w k core now (w₁.dispatch k.origin)
  | nested (w₁ : World n) :
      w₁ = ((w.record (.placed k.origin k.task.call_id true)).arrive k.origin k.origin k.task true
        now) →
      Accounted P w₁ → PlaceEnds P w k core now (w₁.dispatch k.origin)

theorem PlaceEnds.accounted {k : Call n} {core : Fin n} {now : UInt64}
    (h : PlaceEnds P w k core now w') : Accounted P w' := by
  cases h with
  | sent _ _ _ _ _ ha => exact ha
  | queued _ _ _ _ _ ha => exact ha.dispatch k.origin
  | nested _ _ ha => exact ha.dispatch k.origin

/-- `schedule`, from the choice of the core on. It does not crash, since the call has
been prepared: the request has its workflow, and the function its states. -/
theorem Accounted.place (h : Accounted P w) {k : Call n} (hk : w.call k.task.call_id = some k)
    (hstage : k.stage = .placing) {fused : Bool} (hfused : w.fuseOf k.task.req_id = some fused)
    (hfunc : (w.func_map (k.task.service ++ k.task.function)).isSome) (core : Fin n)
    (now : UInt64) :
    PlaceEnds P w k core now (w.place k.origin k.origin k.task core now) := by
  have hroot := (h.sound _ k hk).caller_none
  rcases place_cases w k.origin k.origin k.task core now with
    ⟨hfuse, hreq, hplace⟩ | ⟨fuse, exec_time, hfuse, hreq, hplace⟩ | ⟨hnone, -⟩
  · have hp := h.placed_fused hk hstage hfuse (mt hroot.1 hreq)
    rw [hplace, runFunc_eq ((hp.fuse _).trans hp.workflow)]
    exact .nested _ rfl (h.placed_arrive hp now)
  · have hp := h.placed_getCore hk hstage hfuse (fun hf => hroot.2 (hreq hf)) core exec_time now
    rw [hplace]
    split
    · next hcore =>
      subst hcore
      rw [runFunc_eq ((hp.fuse _).trans hp.workflow)]
      exact .queued exec_time fuse _ rfl rfl (h.placed_arrive hp now)
    · next hcore => exact .sent exec_time fuse _ rfl hcore (h.placed_send hp hcore)
  -- no entry is missing
  · exfalso
    rcases hnone with hnone | hnone
    · rw [hnone] at hfused
      cases hfused
    · rw [hnone] at hfunc
      cases hfunc

/-! ### New calls -/

section EnsureWfStates

variable (req_id : Uuid) (service func : String)

theorem fuseOf_ensureWfStates_self :
    ((w.ensureWfStates req_id service func).fuseOf req_id).isSome := by
  cases hwf : w.wf_map func <;> simp [fuseOf, wfOf, ensureWfStates, hwf]

/-- Whether a request is fused is decided when its workflow is first seen, and never
again: an entry of `wf_map` is not replaced, and other requests keep theirs. -/
theorem fuseOf_ensureWfStates_of_ne {r : Uuid} (hr : r ≠ req_id) {b : Bool}
    (hb : w.fuseOf r = some b) : (w.ensureWfStates req_id service func).fuseOf r = some b := by
  obtain ⟨states, hstates, rfl⟩ := Option.map_eq_some_iff.1 hb
  obtain ⟨f, hf, hstates⟩ := Option.bind_eq_some_iff.1 hstates
  cases hwf : w.wf_map func with
  | some _ => simp [fuseOf, wfOf, ensureWfStates, hwf, hr, hf, hstates]
  | none =>
    have hne : f ≠ func := by
      rintro rfl
      rw [hwf] at hstates
      cases hstates
    simp [fuseOf, wfOf, ensureWfStates, hwf, hr, hf, hstates, hne]

end EnsureWfStates

theorem func_map_ensureFuncStates (func : String) :
    ((w.ensureFuncStates func).func_map func).isSome := by
  unfold World.ensureFuncStates
  split
  · simp
  · next hsome => simp [hsome]

/-- The world `w₁` differs from `w` in that the call `k` has been made. Its states are
stored, and of `schedule` not even the reply states have been added. -/
structure Made (P : Runtime) (w w₁ : World n) (k : Call n) : Prop where
  fresh : k.task.call_id ∉ w.uuids
  placing : k.stage = .placing
  same : ∀ c', c' ≠ k.task.call_id → SameFor c' w w₁
  call : w₁.call k.task.call_id = some k
  view : (w₁.onCore k.origin fun core =>
    core.ensureReplyStates (replyKey k.task.service k.task.call_id) k.origin).view
    k.task.call_id = k.view P
  caller_none : k.caller = none ↔ k.task.req_id = k.task.call_id
  caller : ∀ p, k.caller = some p → ∃ kp, w.call p = some kp ∧ kp.stage.hasStarted ∧
    kp.task.req_id = k.task.req_id ∧ kp.place = k.origin ∧ kp.born < k.born ∧ kp.popped < k.born
  fuse : ∀ r, w₁.fuseOf r = w.fuseOf r
  born_lt : k.born < w₁.clock
  popped_lt : k.popped < w₁.clock
  clock : w.clock ≤ w₁.clock
  uuids : w₁.uuids = insert k.task.call_id w.uuids
  crashed : w₁.crashed = w.crashed

section Prepare

variable {i prev_cpu : Fin n} {task : Task}

theorem view_prepare : (w.prepare i prev_cpu task).view c = (w.onCore i fun k =>
    k.ensureReplyStates (replyKey task.service task.call_id) prev_cpu).view c := by
  rw [prepare]
  split <;> exact view_ensureFuncStates _

theorem call_prepare : (w.prepare i prev_cpu task).call c = w.call c := by
  rw [prepare]
  split <;> exact call_ensureFuncStates _

theorem log_prepare : (w.prepare i prev_cpu task).log = w.log := by
  rw [prepare]
  split <;> exact log_ensureFuncStates _

theorem clock_prepare : (w.prepare i prev_cpu task).clock = w.clock := by
  rw [prepare]
  split <;> exact clock_ensureFuncStates _

theorem uuids_prepare : (w.prepare i prev_cpu task).uuids = w.uuids := by
  rw [prepare]
  split <;> exact uuids_ensureFuncStates _

theorem crashed_prepare : (w.prepare i prev_cpu task).crashed = w.crashed := by
  rw [prepare]
  split <;> exact crashed_ensureFuncStates _

theorem sameFor_prepare (h : c ≠ task.call_id) : SameFor c w (w.prepare i prev_cpu task) where
  view := by
    rw [view_prepare]
    exact (SameFor.onCore (view_ensureReplyStates h _ _)).view
  call := call_prepare

theorem func_map_prepare :
    ((w.prepare i prev_cpu task).func_map (task.service ++ task.function)).isSome := by
  rw [prepare]
  split <;> exact func_map_ensureFuncStates _

theorem fuseOf_prepare_self (h : task.req_id = task.call_id) :
    ((w.prepare i prev_cpu task).fuseOf task.req_id).isSome := by
  rw [prepare, if_pos h]
  exact fuseOf_ensureWfStates_self _ _ _

theorem fuseOf_prepare_of_ne {r : Uuid} (h : r ≠ task.call_id) {b : Bool}
    (hb : w.fuseOf r = some b) : (w.prepare i prev_cpu task).fuseOf r = some b := by
  have hb' := (fuseOf_ensureFuncStates (w := w.onCore i fun k =>
    k.ensureReplyStates (replyKey task.service task.call_id) prev_cpu)
    (task.service ++ task.function) r).trans hb
  rw [prepare]
  split
  · next hroot => exact fuseOf_ensureWfStates_of_ne _ _ _ (hroot ▸ h) hb'
  · exact hb'

end Prepare

/-- An id that has not been generated belongs to no call. -/
theorem Accounted.call_of_fresh (h : Accounted P w) (hc : c ∉ w.uuids) : w.call c = none := by
  cases hk : w.call c with
  | none => rfl
  | some k => exact absurd (h.known c k hk) hc

/-- A new call is prepared. The invariant holds again with the reply states that
`schedule` adds: the core has then what it should have for a call that is being placed.
-/
theorem Accounted.prepare (h : Accounted P w) {w₁ : World n} {k : Call n} (hm : Made P w w₁ k) :
    Accounted P (w₁.prepare k.origin k.origin k.task) := by
  have hnew := h.call_of_fresh hm.fresh
  have hsame : ∀ c', c' ≠ k.task.call_id →
      SameFor c' w (w₁.prepare k.origin k.origin k.task) := fun c' hc' =>
    (hm.same c' hc').trans (sameFor_prepare hc')
  have hfuse : ∀ r b, (w.call r).isSome → w.fuseOf r = some b →
      (w₁.prepare k.origin k.origin k.task).fuseOf r = some b := by
    intro r b hr hb
    refine fuseOf_prepare_of_ne ?_ ((hm.fuse r).trans hb)
    rintro rfl
    simp [hnew] at hr
  refine h.change hsame (call_prepare.trans hm.call) (view_prepare.trans hm.view) ?_ ?_ hfuse
    (hm.clock.trans clock_prepare.ge) ?_ ?_ (crashed_prepare.trans hm.crashed)
  -- nothing was known of a fresh id
  · intro k₀ hk₀
    simp [hnew] at hk₀
  · exact {
      call_id := rfl
      caller_none := hm.caller_none
      stage := by simp [Call.StageSound, hm.placing]
      caller := by
        intro p hp
        obtain ⟨kp, hkp, hrest⟩ := hm.caller p hp
        have hne : p ≠ k.task.call_id := by
          rintro rfl
          simp [hnew] at hkp
        exact ⟨kp, (hsame p hne).call.trans hkp, hrest⟩
      root := by
        cases hcaller : k.caller with
        | none =>
          rw [hm.caller_none.1 hcaller]
          exact ⟨k, call_prepare.trans hm.call, hcaller⟩
        | some p =>
          obtain ⟨kp, hkp, -, hreq, -⟩ := hm.caller p hcaller
          obtain ⟨r, hr, hroot⟩ := (h.sound p kp hkp).root
          rw [hreq] at hr
          -- the request is known, the call is not
          have hne : k.task.req_id ≠ k.task.call_id := by
            intro heq
            rw [heq, hnew] at hr
            cases hr
          exact ⟨r, (hsame _ hne).call.trans hr, hroot⟩
      fuse := fun hp => absurd hm.placing hp
      home := fun hp => absurd hm.placing hp
      born_lt := hm.born_lt.trans_le clock_prepare.ge
      popped_lt := hm.popped_lt.trans_le clock_prepare.ge }
  · rw [uuids_prepare, hm.uuids]
    exact Finset.mem_insert_self _ _
  · rw [uuids_prepare, hm.uuids]
    exact Finset.subset_insert _ _

/-- A new call is scheduled. That the request has workflow states is because a root call
brings its own, and a nested one was made by a call that has started, so that its
request has been scheduled before. -/
theorem Accounted.schedule (h : Accounted P w) {w₁ : World n} {k : Call n} (hm : Made P w w₁ k)
    (core : Fin n) (now : UInt64) :
    PlaceEnds P (w₁.prepare k.origin k.origin k.task) k core now
      (w₁.schedule k.origin k.origin k.task core now) := by
  have hfused : ((w₁.prepare k.origin k.origin k.task).fuseOf k.task.req_id).isSome := by
    -- the request has a workflow: `schedule` makes it for a root, and a nested call's
    -- request has it already
    cases hcaller : k.caller with
    | none => exact fuseOf_prepare_self (hm.caller_none.1 hcaller)
    | some p =>
      obtain ⟨kp, hkp, hstarted, hreq, -⟩ := hm.caller p hcaller
      have hb := (h.sound p kp hkp).fuse (by rintro hs; simp [hs] at hstarted)
      have hne : k.task.req_id ≠ k.task.call_id := by
        intro heq
        simp [hm.caller_none.2 heq] at hcaller
      rw [hreq] at hb
      rw [fuseOf_prepare_of_ne hne ((hm.fuse _).trans hb)]
      rfl
  obtain ⟨fused, hfused⟩ := Option.isSome_iff_exists.1 hfused
  exact (h.prepare hm).place (call_prepare.trans hm.call) hm.placing hfused func_map_prepare core
    now

theorem view_setReqStates_reply_self {k : Core n} (s : String) (e : ReqStates n) :
    (k.setReqStates (replyKey s c) e).view c =
      { k.view c with reply := Function.update (k.view c).reply s (some e) } := by
  ext1
  case reply =>
    funext s'
    simp [Core.view, Core.setReqStates, Function.update_apply]
  case cb => simp [Core.view, Core.setReqStates]
  all_goals rfl

theorem view_setReqStates_cb_self {k : Core n} (s : String) (e : ReqStates n) :
    (k.setReqStates (cbKey s c) e).view c =
      { k.view c with cb := Function.update (k.view c).cb s (some e) } := by
  ext1
  case reply => simp [Core.view, Core.setReqStates]
  case cb =>
    funext s'
    simp [Core.view, Core.setReqStates, Function.update_apply]
  all_goals rfl

/-- The head of `new_req` and of `Call`: `f` stores the states that wait for the answer,
a promise or a callback. What the two have in common is that the id is fresh, so that
nothing in the world mentions it. -/
theorem Accounted.made (h : Accounted P w) {i : Fin n} {caller : Option Uuid} (task : Task)
    {f : Core n → Core n} (hfresh : task.call_id ∉ w.uuids)
    (hf : ∀ c', c' ≠ task.call_id → (f (w.core i)).view c' = (w.core i).view c')
    (hview : ((f (w.core i)).ensureReplyStates (replyKey task.service task.call_id) i).view
      task.call_id = (Call.new w.clock i caller task).coreView i)
    (hroot : caller = none ↔ task.req_id = task.call_id)
    (hcaller : ∀ p, caller = some p → ∃ kp, w.call p = some kp ∧ kp.stage.hasStarted ∧
      kp.task.req_id = task.req_id ∧ kp.place = i ∧ kp.born < w.clock ∧ kp.popped < w.clock) :
    Made P w (({ w with uuids := insert task.call_id w.uuids }.onCore i f).record
      (.called i caller task)) (.new w.clock i caller task) where
  fresh := hfresh
  placing := rfl
  same c' hc' := by
    have hw : SameFor c' w { w with uuids := insert task.call_id w.uuids } := ⟨rfl, rfl⟩
    refine hw.trans (SameFor.trans (.onCore ?_) (.record (e := .called i caller task) hc'))
    exact hf c' hc'
  call := call_record_called _ i caller task
  view := by
    -- no trace of the id anywhere, but on the core that makes the call
    have hempty : w.view task.call_id = .empty n := by
      rw [h.view, h.call_of_fresh hfresh]
    ext1
    case core =>
      funext j
      by_cases hj : j = i
      · subst hj
        simpa [World.view, World.onCore, World.record, Call.view, Call.new] using hview
      · have hcore := congrFun (congrArg View.core hempty) j
        calc _ = (w.core j).view task.call_id := by
              simp [World.view, World.onCore, World.record, Call.new, hj]
          _ = _ := hcore
          _ = _ := by
            ext1 <;> simp [Call.view, Call.coreView, Call.new, View.empty, Call.inQueue, hj]
    case msgs =>
      have hmsgs := congrArg View.msgs hempty
      exact hmsgs
    case js =>
      have hjs := congrArg View.js hempty
      exact hjs
    case log =>
      have hlog := congrArg View.log hempty
      show List.filter _ (w.log ++ [_]) = _
      rw [List.filter_append]
      refine (congrArg (· ++ _) hlog).trans ?_
      simp [View.empty, Call.view, Call.events, Call.new, Event.call_id]
  caller_none := hroot
  caller := hcaller
  fuse _ := rfl
  born_lt := by
    rw [clock_record]
    exact Nat.lt_succ_self _
  popped_lt := by
    rw [clock_record]
    exact Nat.lt_succ_self _
  clock := by
    rw [clock_record]
    exact Nat.le_succ _
  uuids := rfl
  crashed := rfl

/-- No core has anything for an id that has not been generated. -/
theorem Accounted.core_of_fresh (h : Accounted P w) (hc : c ∉ w.uuids) (i : Fin n) :
    (w.core i).view c = (View.empty n).core i := by
  have hview := h.view c
  rw [h.call_of_fresh hc] at hview
  exact congrFun (congrArg View.core hview) i

/-- `new_req` makes a root call. -/
theorem Accounted.made_newReq (h : Accounted P w) {req_id : Uuid} (hfresh : req_id ∉ w.uuids)
    (i : Fin n) (service function args : String) :
    Made P w (({ w with uuids := insert req_id w.uuids }.onCore i fun k =>
      k.setReqStates (replyKey service req_id) .localReply).record
        (.called i none ⟨req_id, req_id, service, function, args⟩))
      (.new w.clock i none ⟨req_id, req_id, service, function, args⟩) := by
  refine h.made ⟨req_id, req_id, service, function, args⟩ hfresh ?_ ?_ ?_ ?_
  · intro c' hc'
    exact view_setReqStates_reply hc' _ _
  -- the new key is the request's own, and its core is its origin
  · rw [view_ensureReplyStates_self, view_setReqStates_reply_self, h.core_of_fresh hfresh]
    ext1
    case reply =>
      funext s
      by_cases hs : s = service <;>
        simp [Call.coreView, Call.new, Call.originStates, View.empty, hs]
    all_goals simp [Call.coreView, Call.new, View.empty, Call.inQueue]
  · simp
  · simp

/-- **A request is accepted.** It is in the ledger from then on, and has a place at the
end of the step. -/
theorem Accounted.newReq (h : Accounted P w) {req_id : Uuid} (hfresh : req_id ∉ w.uuids)
    (i : Fin n) (service function args : String) (core : Fin n) (now : UInt64) :
    Accounted P (w.newReq i req_id service function args core now) :=
  (h.schedule (h.made_newReq hfresh i service function args) core now).accounted

/-- A function that has been started is in the ledger. So JavaScript that runs tells
where its call is, and with which arguments it was made. -/
theorem Accounted.call_of_js (h : Accounted P w) {v : Invocation n} (hv : w.js c = some v) :
    ∃ k, w.call c = some k ∧ k.stage.hasStarted ∧ v.core = k.place ∧ v.task = k.task ∧
      v.serviceName = P.serviceName k.task.service := by
  have hview : (w.view c).js = some (v.core, v.task, v.serviceName) := by
    simp [World.view, hv]
  cases hk : w.call c with
  | none =>
    rw [h.view, hk] at hview
    cases hview
  | some k =>
    rw [h.view_of_call hk] at hview
    simp only [Call.view, Option.ite_none_right_eq_some, Option.some.injEq,
      Prod.mk.injEq] at hview
    obtain ⟨hstarted, hplace, htask, hname⟩ := hview
    exact ⟨k, rfl, hstarted, hplace.symm, htask.symm, hname.symm⟩

/-- `Call` makes a nested call, of the same request. -/
theorem Accounted.made_call (h : Accounted P w) {v : Invocation n} {caller callee : Uuid}
    (hv : w.js caller = some v) (hfresh : callee ∉ w.uuids) (service function jsargs : String) :
    Made P w (({ w with uuids := insert callee w.uuids }.onCore v.core fun k =>
      k.setReqStates (cbKey service callee) (.callback callee)).record
        (.called v.core (some caller) ⟨v.task.req_id, callee, service, function, jsargs⟩))
      (.new w.clock v.core (some caller) ⟨v.task.req_id, callee, service, function, jsargs⟩) := by
  obtain ⟨kp, hkp, hstarted, hcore, htask, -⟩ := h.call_of_js hv
  have hsound := h.sound caller kp hkp
  refine h.made ⟨v.task.req_id, callee, service, function, jsargs⟩ hfresh ?_ ?_ ?_ ?_
  · intro c' hc'
    exact view_setReqStates_cb hc' _ _
  -- besides the key of the reply there is one for the callback, under the same service
  · rw [view_ensureReplyStates_self, view_setReqStates_cb_self, h.core_of_fresh hfresh]
    ext1
    case reply =>
      funext s
      by_cases hs : s = service <;>
        simp [Call.coreView, Call.new, Call.originStates, View.empty, hs]
    case cb =>
      funext s
      by_cases hs : s = service <;> simp [Call.coreView, Call.new, View.empty, hs]
    all_goals simp [Call.coreView, Call.new, View.empty, Call.inQueue]
  · -- the request's id was generated before the callee's
    have hne : v.task.req_id ≠ callee := by
      rintro rfl
      obtain ⟨r, hr, -⟩ := hsound.root
      rw [htask] at hfresh
      exact hfresh (h.known _ r hr)
    simp [hne]
  -- the caller runs on this core, and was born before
  · rintro p ⟨⟩
    refine ⟨kp, hkp, hstarted, ?_, hcore.symm, hsound.born_lt,
      hsound.popped_lt⟩
    rw [htask]

/-- **A function calls `Call`**, in its body or in a callback, and also after it has
replied. -/
theorem Accounted.callFunction (h : Accounted P w) {v : Invocation n} {caller callee : Uuid}
    (hv : w.js caller = some v) (hfresh : callee ∉ w.uuids)
    (service function jsargs : String) (core : Fin n) (now : UInt64) :
    Accounted P (w.callFunction v caller callee service function jsargs core now) :=
  (h.schedule (h.made_call hv hfresh service function jsargs) core now).accounted

end Nanoservices
