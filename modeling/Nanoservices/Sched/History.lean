import Nanoservices.Sched.Reachable

/-!
# How a step extends the log

A step adds to the log the event of its label, if it has one (a call is made, or left),
and then events of the scheduler's own (`step_log`). The latter never make a call or
leave one, which bounds what they can do to a call: `Call.Follows`. So the invariants of
a call's life only have to look at the labels that make or leave calls.
-/

namespace Nanoservices

open World Lts

variable {n : ℕ} {P : Runtime} {w w' : World n} {c : Uuid}

/-! ### Events the scheduler adds -/

/-- An event that is the scheduler's own doing. -/
def Event.isInternal : Event n → Bool
  | .called .. | .left .. => false
  | _ => true

/-- Between the two worlds only the scheduler's own events were added to the log. -/
def Quietly (w w' : World n) : Prop := ∃ es, w'.log = w.log ++ es ∧ ∀ e ∈ es, e.isInternal

namespace Quietly

theorem of_log (h : w'.log = w.log) : Quietly w w' := ⟨[], by simp [h], by simp⟩

theorem refl (w : World n) : Quietly w w := .of_log rfl

theorem trans {w'' : World n} (h : Quietly w w') (h' : Quietly w' w'') : Quietly w w'' := by
  obtain ⟨es, hlog, hes⟩ := h
  obtain ⟨es', hlog', hes'⟩ := h'
  refine ⟨es ++ es', by rw [hlog', hlog, List.append_assoc], ?_⟩
  intro e he
  exact (List.mem_append.1 he).elim (hes e) (hes' e)

theorem record {e : Event n} (he : e.isInternal) : Quietly w (w.record e) :=
  ⟨[e], rfl, by simp [he]⟩

/-- A record on top of changes that the log does not see. -/
theorem record_of {e : Event n} (hlog : w'.log = w.log) (he : e.isInternal) :
    Quietly w (w'.record e) := (Quietly.of_log hlog).trans (.record he)

theorem mem_log {e : Event n} (h : Quietly w w') (he : e ∈ w.log) : e ∈ w'.log := by
  obtain ⟨es, hlog, -⟩ := h
  rw [hlog]
  exact List.mem_append_left _ he

theorem dispatch (i : Fin n) : Quietly w (w.dispatch i) := by
  by_cases hd : Dispatchable w i
  · obtain ⟨c, rest, task, hq, ht, hwf⟩ := hd
    rw [dispatch_of_front hq ht hwf]
    exact .record_of rfl rfl
  · rw [dispatch_of_not hd]
    exact .refl w

theorem runFunc (i prev_cpu : Fin n) (task : Task) (now : UInt64) :
    Quietly w (w.runFunc i prev_cpu task now) := by
  have hlog := log_ensureFuncStates (w := w.onCore i fun k =>
    k.ensureReplyStates (replyKey task.service task.call_id) prev_cpu)
    (task.service ++ task.function)
  unfold World.runFunc
  dsimp only
  split
  · exact .of_log hlog
  · refine Quietly.trans ?_ (.dispatch i)
    exact .record_of hlog rfl

/-- Placing a call is followed by its arrival if it stays, and by nothing else. -/
theorem place (i prev_cpu core : Fin n) (task : Task) (now : UInt64) :
    Quietly w (w.place i prev_cpu task core now) := by
  -- fused, placed by `get_core`, or a request without a workflow, which crashes
  rcases place_cases w i prev_cpu task core now with
    ⟨-, -, hplace⟩ | ⟨fuse, exec_time, -, -, hplace⟩ | ⟨-, hplace⟩
  · rw [hplace]
    exact (Quietly.record rfl).trans (.runFunc ..)
  · have hget : Quietly w ((w.getCore core exec_time task.call_id now).record
        (.placed core task.call_id fuse)) := .record_of rfl rfl
    rw [hplace]
    split
    · exact hget.trans (.runFunc ..)
    · exact hget.trans (.of_log rfl)
  · rw [hplace]
    exact .of_log rfl

theorem schedule (i prev_cpu core : Fin n) (task : Task) (now : UInt64) :
    Quietly w (w.schedule i prev_cpu task core now) :=
  (Quietly.of_log log_prepare).trans (.place ..)

/-- `reply` makes no call and leaves none, whichever branch it takes. -/
theorem reply (i : Fin n) (req_id call_id : Uuid) (service ret : String) (now : UInt64) :
    Quietly w (reply P w i req_id call_id service ret now).1 := by
  cases hs : (w.core i).req_map (replyKey service call_id) with
  | none =>
    simp only [World.reply, hs]
    exact .of_log rfl
  | some states =>
    -- which way `reply` goes is read off the key of the call; in each of them only
    -- internal events are added
    cases states with
    | callback callee =>
      simp only [World.reply, hs]
      exact .of_log rfl
    | localReply =>
      cases hjson : P.readJson ret with
      | none =>
        simp only [World.reply, hs, hjson]
        exact .record_of rfl rfl
      | some res =>
        simp only [World.reply, hs, hjson]
        refine Quietly.trans ?_ (.dispatch i)
        have hlog : (w.retire i call_id service now).log = w.log := rfl
        exact .record_of hlog rfl
    | reply prev_cpu =>
      by_cases hprev : prev_cpu = i
      · simp only [World.reply, hs, hprev, if_true, runCallback]
        split
        · exact .record_of rfl rfl
        · exact .of_log rfl
      · simp only [World.reply, hs, hprev, if_false, replyRemote]
        split <;> exact .of_log rfl

end Quietly

/-- The event of a label: a call is made, or left. It is read off the state before the
step. -/
def Label.event (w : World n) : Label n → Option (Event n)
  | .newReq core req_id service function args _ _ =>
    some (.called core none ⟨req_id, req_id, service, function, args⟩)
  | .call caller callee service function jsargs _ _ =>
    (w.js caller).map fun v =>
      .called v.core (some caller) ⟨v.task.req_id, callee, service, function, jsargs⟩
  | .jsReply c ret _ => (w.js c).map fun v => .left v.core v.task.call_id (.returned ret)
  | .jsThrow c _ => (w.js c).map fun v => .left v.core v.task.call_id .threw
  | _ => none

/-- The world with the label's event in its log. -/
def World.recordEvent (w : World n) : Option (Event n) → World n
  | none => w
  | some e => w.record e

/-- **How a step extends the log.** First comes the event of the label, then come events
of the scheduler's own doing. -/
theorem step_log {l : Label n} (hs : Move P w l w') : Quietly (w.recordEvent (l.event w)) w' := by
  cases hs with
  -- a request and a call are placed behind the event that announces them
  | newReq i req_id service function args core now hfresh =>
    unfold World.newReq
    refine Quietly.trans ?_ (.schedule ..)
    exact .of_log rfl
  | call v caller callee service function jsargs core now hv hfresh =>
    rw [Label.event, hv]
    unfold World.callFunction
    refine Quietly.trans ?_ (.schedule ..)
    exact .of_log rfl
  -- messages are taken off before they are handled, which is no event
  | deliverRun i prev_cpu task now msgs hm =>
    have htake : Quietly w { w with msgs } := .of_log rfl
    exact htake.trans (.runFunc ..)
  | deliverReply i sender req_id call_id service ret now msgs hm =>
    have htake : Quietly w { w with msgs } := .of_log rfl
    refine htake.trans ?_
    rw [World.deliverReply]
    split
    · exact (Quietly.reply ..).trans (.of_log rfl)
    · exact .reply ..
  | start i task now tasks ht =>
    have htake : Quietly w (w.onCore i fun k => { k with tasks }) := .of_log rfl
    exact (htake.trans (.record (e := .started i task.call_id) rfl)).trans (.of_log rfl)
  -- `Reply` and an exception both go through `reply`
  | jsReply v call_id ret now hv =>
    rw [Label.event, hv]
    exact .reply ..
  | jsThrow v call_id now hv hbody =>
    rw [Label.event, hv]
    rw [World.jsThrow]
    split <;> exact (Quietly.reply ..).trans (.of_log rfl)
  | jsReturn v call_id now hv hbody => exact .of_log rfl
  | callbackDone i call_id service callbacks hc =>
    refine Quietly.trans ?_ (.dispatch i)
    exact .record_of rfl rfl
  | ack i acks hi =>
    have htake : Quietly w { w with acks } := .of_log rfl
    exact htake.trans (.dispatch i)

/-! ### What the scheduler does to a call -/

/-- The call goes on from `k` to `k'` by the scheduler's own doing: it may be placed,
started and answered, but its function neither starts over nor leaves it. In particular
a running call stays as it is. -/
structure Call.Follows (k k' : Call n) : Prop where
  task : k'.task = k.task
  origin : k'.origin = k.origin
  caller : k'.caller = k.caller
  born : k'.born = k.born
  placed : k.stage ≠ .placing → k'.stage ≠ .placing ∧ k'.place = k.place ∧ k'.fused = k.fused
  outcome : k'.stage.outcome = k.stage.outcome
  ready : k.stage = .ready → (k'.stage = .ready ∨ k'.stage = .running) ∧ k'.popped = k.popped
  running : k.stage = .running → k' = k
  isOpen : k'.stage.isOpen → k.stage.isOpen
  started : k.stage.hasStarted → k'.stage.hasStarted ∧ k'.popped = k.popped

theorem Call.Follows.refl (k : Call n) : k.Follows k :=
  ⟨rfl, rfl, rfl, rfl, fun h => ⟨h, rfl, rfl⟩, rfl, fun h => ⟨.inl h, rfl⟩, fun _ => rfl, id,
    fun h => ⟨h, rfl⟩⟩

theorem Call.Follows.trans {k k' k'' : Call n} (h : k.Follows k') (h' : k'.Follows k'') :
    k.Follows k'' where
  task := h'.task.trans h.task
  origin := h'.origin.trans h.origin
  caller := h'.caller.trans h.caller
  born := h'.born.trans h.born
  placed hk := by
    obtain ⟨hp, hplace, hfused⟩ := h.placed hk
    obtain ⟨hp', hplace', hfused'⟩ := h'.placed hp
    exact ⟨hp', hplace'.trans hplace, hfused'.trans hfused⟩
  outcome := h'.outcome.trans h.outcome
  -- a call that was ready is ready still, or runs; running, it stays as it is
  ready hk := by
    obtain ⟨hstage | hstage, hpopped⟩ := h.ready hk
    · obtain ⟨hstage', hpopped'⟩ := h'.ready hstage
      exact ⟨hstage', hpopped'.trans hpopped⟩
    · rw [h'.running hstage]
      exact ⟨.inr hstage, hpopped⟩
  running hk := by
    have heq := h.running hk
    subst heq
    exact h'.running hk
  isOpen hk := h.isOpen (h'.isOpen hk)
  started hk := by
    obtain ⟨hs, hp⟩ := h.started hk
    obtain ⟨hs', hp'⟩ := h'.started hs
    exact ⟨hs', hp'.trans hp⟩

/-- An event of the scheduler's own takes a call on, or leaves it alone. -/
theorem Call.follows_after (k : Call n) (now : ℕ) {e : Event n} (he : e.isInternal) :
    k.Follows (k.after now e) := by
  cases hstage : k.stage <;> cases e <;> simp [Event.isInternal] at he <;>
    simp only [Call.after, hstage] <;>
    first
      | exact .refl k
      | (constructor <;> simp [hstage])
  -- an arrived call is ready or waits
  all_goals cases k.fused <;> simp

/-- **What the scheduler does to a call**: none comes about, and each follows from what
it was. By induction on the events, from the last one. -/
theorem Quietly.call (h : Quietly w w') (c : Uuid) :
    (w.call c = none ∧ w'.call c = none) ∨
      ∃ k k', w.call c = some k ∧ w'.call c = some k' ∧ k.Follows k' := by
  obtain ⟨es, hlog, hes⟩ := h
  induction es using List.reverseRecOn generalizing w' with
  | nil =>
    have hcall : w'.call c = w.call c := call_congr (by simpa using hlog) c
    cases hk : w.call c with
    | none => exact .inl ⟨rfl, hcall.trans hk⟩
    | some k => exact .inr ⟨k, k, rfl, hcall.trans hk, .refl k⟩
  -- an internal event makes no new call, so it takes an existing one further or does
  -- not concern it
  | append_singleton es e ih =>
    let w₁ : World n := { w with log := w.log ++ es }
    have he : e.isInternal := hes e (by simp)
    have hnew : e.newCall w₁.clock = none := by cases e <;> first | rfl | cases he
    have hcall : w'.call c = (w₁.record e).call c :=
      call_congr (by rw [hlog, ← List.append_assoc]; rfl) c
    rw [hcall]
    have hlog₁ : w₁.log = w.log ++ es := rfl
    rcases ih hlog₁ (fun e' he' => hes e' (by simp [he'])) with
      ⟨hk, hk₁⟩ | ⟨k, k₁, hk, hk₁, hf⟩
    · refine .inl ⟨hk, ?_⟩
      rw [call_record, hnew, hk₁]
      split <;> rfl
    · by_cases hc : c = e.call_id
      · refine .inr ⟨k, k₁.after w₁.clock e, hk, ?_, hf.trans (k₁.follows_after _ he)⟩
        exact call_record_self _ hc.symm hnew hk₁ rfl
      · exact .inr ⟨k, k₁, hk, by rw [call_record_of_ne _ hc, hk₁], hf⟩

/-- A call after a step follows from what it was once the label's event had happened. -/
theorem call_of_step {l : Label n} (hs : Move P w l w') {k' : Call n} (hk' : w'.call c = some k') :
    ∃ k, (w.recordEvent (l.event w)).call c = some k ∧ k.Follows k' := by
  rcases (step_log hs).call c with ⟨-, hnone⟩ | ⟨k, k'', hk, hk'', hfollows⟩
  · simp [hnone] at hk'
  · obtain rfl := Option.some.inj (hk''.symm.trans hk')
    exact ⟨k, hk, hfollows⟩

/-- A call stays in the ledger: nothing is ever forgotten there. -/
theorem call_stays {l : Label n} (hs : Move P w l w') {k : Call n} (hk : w.call c = some k) :
    ∃ k', w'.call c = some k' := by
  have hrecord : ∃ k₀, (w.recordEvent (l.event w)).call c = some k₀ := by
    cases l.event w with
    | none => exact ⟨k, hk⟩
    | some e =>
      rw [World.recordEvent, call_record, hk]
      split
      · split <;> exact ⟨_, rfl⟩
      · exact ⟨k, rfl⟩
  obtain ⟨k₀, hk₀⟩ := hrecord
  -- the rest of the step does not make a call unknown
  rcases (step_log hs).call c with ⟨hnone, -⟩ | ⟨-, k', -, hk', -⟩
  · cases hnone.symm.trans hk₀
  · exact ⟨k', hk'⟩

/-- **What a step does to a call**: the scheduler takes it on, once it has been made, or
left, by the step itself. An invariant on calls that is kept along `Call.Follows` is
proved by looking at the two events. -/
theorem Accounted.call_cases (h : Accounted P w) {l : Label n} (hs : Move P w l w') {k' : Call n}
    (hk' : w'.call c = some k') :
    (∃ k, w.call c = some k ∧ k.Follows k') ∨
    (∃ i, w.call c = none ∧ l.event w = some (.called i k'.caller k'.task) ∧
      (Call.new w.clock i k'.caller k'.task).Follows k') ∨
    ∃ k o, w.call c = some k ∧ k.stage = .running ∧ l.event w = some (.left k.place c o) ∧
      { k with stage := .returning o }.Follows k' := by
  obtain ⟨k₀, hk₀, hfollows⟩ := call_of_step hs hk'
  -- a call made: it is the new one, or one that was there
  have hcalled : ∀ {i caller task}, w.call task.call_id = none →
      l.event w = some (.called i caller task) →
      (w.record (.called i caller task)).call c = some k₀ →
      (∃ k, w.call c = some k ∧ k.Follows k') ∨
        ∃ i, w.call c = none ∧ l.event w = some (.called i k'.caller k'.task) ∧
          (Call.new w.clock i k'.caller k'.task).Follows k' := by
    intro i caller task hnone he hk₀
    by_cases hc : c = task.call_id
    · subst hc
      rw [call_record_called] at hk₀
      obtain rfl := Option.some.inj hk₀
      rw [he, hfollows.task, hfollows.caller]
      exact .inr ⟨i, hnone, rfl, hfollows⟩
    · rw [call_record_of_ne _ hc] at hk₀
      exact .inl ⟨k₀, hk₀, hfollows⟩
  -- a call left: only one that is running moves on
  have hleft : ∀ {v : Invocation n} {c₁ o}, w.js c₁ = some v →
      l.event w = some (.left v.core v.task.call_id o) →
      (w.record (.left v.core v.task.call_id o)).call c = some k₀ →
      (∃ k, w.call c = some k ∧ k.Follows k') ∨
        ∃ k o, w.call c = some k ∧ k.stage = .running ∧ l.event w = some (.left k.place c o) ∧
          { k with stage := .returning o }.Follows k' := by
    intro v c₁ o hv he hk₀
    obtain ⟨k, hk, -, hcore, htask, -⟩ := h.call_of_js hv
    have hid : v.task.call_id = c₁ := htask ▸ (h.sound c₁ k hk).call_id
    by_cases hc : c = c₁
    · subst hc
      rw [call_record_self w (by exact hid) rfl hk rfl] at hk₀
      obtain rfl := Option.some.inj hk₀
      cases hstage : k.stage with
      | running =>
        simp only [Call.after, hstage] at hfollows
        exact .inr ⟨k, o, hk, hstage, by rw [he, hid, hcore], hfollows⟩
      | _ =>
        -- the event has no effect
        simp only [Call.after, hstage] at hfollows
        exact .inl ⟨k, hk, hfollows⟩
    · rw [call_record_of_ne w (by rwa [Event.call_id, hid])] at hk₀
      exact .inl ⟨k₀, hk₀, hfollows⟩
  -- no other step has an event of a call made or left
  cases hs with
  | newReq i req_id service function args core now hfresh =>
    exact (hcalled (h.call_of_fresh hfresh) rfl hk₀).imp_right .inl
  | call v caller callee service function jsargs core now hv hfresh =>
    have he : Label.event w (.call caller callee service function jsargs core now) =
        some (.called v.core (some caller) ⟨v.task.req_id, callee, service, function, jsargs⟩) := by
      simp [Label.event, hv]
    rw [he] at hk₀
    exact (hcalled (h.call_of_fresh hfresh) he hk₀).imp_right .inl
  | jsReply v call_id ret now hv =>
    have he : Label.event w (.jsReply call_id ret now) =
        some (.left v.core v.task.call_id (.returned ret)) := by
      simp [Label.event, hv]
    rw [he] at hk₀
    exact (hleft hv he hk₀).imp_right .inr
  | jsThrow v call_id now hv hbody =>
    have he : Label.event w (.jsThrow call_id now) = some (.left v.core v.task.call_id .threw) := by
      simp [Label.event, hv]
    rw [he] at hk₀
    exact (hleft hv he hk₀).imp_right .inr
  | _ => exact .inl ⟨k₀, hk₀, hfollows⟩

/-! ### Calls that are left -/

/-- The call's function has called `Reply`, or thrown. -/
def HasLeft (w : World n) (c : Uuid) : Prop := ∃ i o, .left i c o ∈ w.log

theorem hasLeft_iff_log {c : Uuid} :
    HasLeft w c ↔ ∃ e ∈ w.log, (e matches .left ..) ∧ e.call_id = c := by
  constructor
  · rintro ⟨i, o, he⟩
    exact ⟨_, he, rfl, rfl⟩
  · rintro ⟨e, he, hleft, rfl⟩
    cases e with
    | left i c o => exact ⟨i, o, he⟩
    | _ => cases hleft

/-- Whether a call has been left is looked up in the log. -/
instance (w : World n) (c : Uuid) : Decidable (HasLeft w c) :=
  decidable_of_iff _ hasLeft_iff_log.symm

section Events

variable (k : Call n) (P : Runtime)

/-- The events of a call tell who made it, where and with what task. -/
theorem Call.mem_events_called (i : Fin n) (caller : Option Uuid) (task : Task) :
    .called i caller task ∈ k.events P ↔ i = k.origin ∧ caller = k.caller ∧ task = k.task := by
  have hend : ∀ o, Event.called i caller task ≠ k.rootEnd P o := by
    intro o
    unfold Call.rootEnd
    split <;> simp
  have hready : Event.called i caller task ∈ k.eventsToReady ↔
      i = k.origin ∧ caller = k.caller ∧ task = k.task := by
    unfold Call.eventsToReady
    split <;> simp
  cases hstage : k.stage <;> simp [Call.events, hstage, hready, Call.eventsToLeft]
  cases hcaller : k.caller <;> simp [hend]

/-- The events of a call tell whether it has been left. -/
theorem Call.mem_events_left (i : Fin n) (o : Outcome) :
    .left i k.task.call_id o ∈ k.events P ↔ i = k.place ∧ k.stage.outcome = some o := by
  have hready : Event.left i k.task.call_id o ∉ k.eventsToReady := by
    unfold Call.eventsToReady
    split <;> simp
  have hend : ∀ o', Event.left i k.task.call_id o ≠ k.rootEnd P o' := by
    intro o'
    unfold Call.rootEnd
    split <;> simp
  cases hstage : k.stage <;>
    simp only [Call.events, hstage, hready, Call.eventsToLeft, Stage.outcome, List.mem_append,
      List.mem_cons, List.not_mem_nil, reduceCtorEq, Event.left.injEq, Option.some.injEq,
      true_and, or_false, false_or, and_false, eq_comm (a := o)]
  -- what follows once the answer has come is no event of this kind
  cases k.caller <;> simp [hend]

/-- They tell where it has been placed. -/
theorem Call.mem_events_placed (i : Fin n) (fused : Bool) :
    .placed i k.task.call_id fused ∈ k.events P ↔
      i = k.place ∧ fused = k.fused ∧ k.stage ≠ .placing := by
  have hready : Event.placed i k.task.call_id fused ∈ k.eventsToReady ↔
      i = k.place ∧ fused = k.fused := by
    unfold Call.eventsToReady
    split <;> simp
  have hend : ∀ o, Event.placed i k.task.call_id fused ≠ k.rootEnd P o := by
    intro o
    unfold Call.rootEnd
    split <;> simp
  -- a call that has been placed has the event from then on
  cases hstage : k.stage <;> simp [Call.events, hstage, hready, Call.eventsToLeft]
  cases k.caller <;> simp [hend]

/-- They tell where it has arrived. -/
theorem Call.mem_events_arrived (i : Fin n) :
    .arrived i k.task.call_id ∈ k.events P ↔
      i = k.place ∧ k.stage ≠ .placing ∧ k.stage ≠ .sent := by
  have hready : Event.arrived i k.task.call_id ∈ k.eventsToReady ↔ i = k.place := by
    unfold Call.eventsToReady
    split <;> simp
  have hend : ∀ o, Event.arrived i k.task.call_id ≠ k.rootEnd P o := by
    intro o
    unfold Call.rootEnd
    split <;> simp
  cases hstage : k.stage <;> simp [Call.events, hstage, hready, Call.eventsToLeft]
  cases k.caller <;> simp [hend]

/-- They tell whether it has been taken from the queue. -/
theorem Call.mem_events_dispatched (i : Fin n) :
    .dispatched i k.task.call_id ∈ k.events P ↔ i = k.place ∧ k.fused = false ∧
      (k.stage = .ready ∨ k.stage.hasStarted) := by
  have hready : Event.dispatched i k.task.call_id ∈ k.eventsToReady ↔
      i = k.place ∧ k.fused = false := by
    unfold Call.eventsToReady
    split <;> simp_all
  have hend : ∀ o, Event.dispatched i k.task.call_id ≠ k.rootEnd P o := by
    intro o
    unfold Call.rootEnd
    split <;> simp
  -- as for `placed`, and not for a fused call, which is in no queue
  cases hstage : k.stage <;> simp [Call.events, hstage, hready, Call.eventsToLeft]
  cases k.caller <;> simp [hend]

/-- The answers to a call. -/
def Event.isAnswer (c : Uuid) : Event n → Bool
  | .promiseSet _ c' _ _ => c' = c
  | .callbackRun _ c' _ _ => c' = c
  | _ => false

/-- The answers among the events of a call: one, when it has come, unless the string was
of no use. Since the log has exactly these events for the call, this is where answers
are counted. -/
theorem Call.filter_isAnswer_events :
    (k.events P).filter (·.isAnswer k.task.call_id) =
      match k.stage with
      | .answering o => [.callbackRun k.origin k.task.call_id none o.text]
      | .closed o =>
        match k.caller with
        | none =>
          match P.readJson o.text with
          | some (status, message) => [.promiseSet k.origin k.task.call_id status message]
          | none => []
        | some _ => [.callbackRun k.origin k.task.call_id none o.text]
      | _ => [] := by
  -- up to the point where it is left, a call has no answers in its events
  have hready : k.eventsToReady.filter (·.isAnswer k.task.call_id) = [] := by
    unfold Call.eventsToReady
    split <;> simp [Event.isAnswer]
  have hleft : ∀ o, (k.eventsToLeft o).filter (·.isAnswer k.task.call_id) = [] := by
    intro o
    rw [Call.eventsToLeft, List.filter_append, hready]
    rfl
  cases hstage : k.stage <;>
    simp only [Call.events, hstage, List.filter_append, hready, hleft, List.nil_append] <;>
    try simp [Event.isAnswer]
  -- a closed call has one: that of its promise at the root, that of its callback
  -- otherwise
  cases hcaller : k.caller with
  | none => cases hjson : P.readJson _ <;> simp [Call.rootEnd, hjson]
  | some p => simp

end Events

/-- A call has been left, on its own core, exactly when its stage has an outcome. -/
theorem Accounted.left_mem_log (h : Accounted P w) {k : Call n} (hk : w.call c = some k)
    {i : Fin n} {o : Outcome} :
    .left i c o ∈ w.log ↔ i = k.place ∧ k.stage.outcome = some o := by
  obtain rfl := (h.sound c k hk).call_id
  rw [h.mem_log hk rfl, k.mem_events_left]

/-- A call is in the log. -/
theorem Accounted.called_mem_log (h : Accounted P w) {k : Call n} (hk : w.call c = some k) :
    .called k.origin k.caller k.task ∈ w.log := by
  refine (h.mem_log hk ?_).2 ((k.mem_events_called P _ _ _).2 ⟨rfl, rfl, rfl⟩)
  exact (h.sound c k hk).call_id

/-- The same, for the predicate that conditions on steps are stated with. -/
theorem Accounted.hasLeft_iff (h : Accounted P w) {k : Call n} (hk : w.call c = some k) :
    HasLeft w c ↔ k.stage.outcome.isSome := by
  constructor
  · rintro ⟨i, o, ho⟩
    rw [((h.left_mem_log hk).1 ho).2]
    rfl
  · intro ho
    obtain ⟨o, ho⟩ := Option.isSome_iff_exists.1 ho
    exact ⟨k.place, o, (h.left_mem_log hk).2 ⟨rfl, ho⟩⟩

/-- The answers to a call. -/
theorem Accounted.filter_isAnswer (h : Accounted P w) {k : Call n} (hk : w.call c = some k) :
    w.log.filter (·.isAnswer c) = (k.events P).filter (·.isAnswer k.task.call_id) := by
  have hlog : w.log.filter (·.call_id = c) = k.events P := congrArg View.log (h.view_of_call hk)
  rw [← hlog, List.filter_filter, (h.sound c k hk).call_id]
  refine List.filter_congr fun e _ => ?_
  cases e <;> simp +contextual [Event.isAnswer, Event.call_id]

/-- The promise of a request is set when its reply has come, and is of use. It is set on
the core that accepted the request, to the status and the message of what the function
replied. -/
theorem Accounted.promiseSet_mem_log (h : Accounted P w) {k : Call n} (hk : w.call c = some k)
    {i : Fin n} {status : ℤ} {message : String} :
    .promiseSet i c status message ∈ w.log ↔ i = k.origin ∧ k.caller = none ∧
      ∃ o, k.stage = .closed o ∧ P.readJson o.text = some (status, message) := by
  have hmem : .promiseSet i c status message ∈ w.log ↔
      .promiseSet i c status message ∈ w.log.filter (·.isAnswer c) := by
    simp [List.mem_filter, Event.isAnswer]
  rw [hmem, h.filter_isAnswer hk, k.filter_isAnswer_events, (h.sound c k hk).call_id]
  -- only a root that is closed has set its promise, if its string could be read
  cases hstage : k.stage with
  | closed o =>
    cases hcaller : k.caller with
    | none => cases hjson : P.readJson o.text <;> simp [hjson, Prod.ext_iff, eq_comm]
    | some p => simp
  | _ => simp

/-- The callback of a nested call runs when its reply has come, on the core the call was
made on, with no error and with what the function replied, or with the text for an
exception. -/
theorem Accounted.callbackRun_mem_log (h : Accounted P w) {k : Call n} (hk : w.call c = some k)
    {i : Fin n} {error : Option String} {ret : String} :
    .callbackRun i c error ret ∈ w.log ↔ i = k.origin ∧ k.caller ≠ none ∧ error = none ∧
      ∃ o, ret = o.text ∧ (k.stage = .answering o ∨ k.stage = .closed o) := by
  have hmem : .callbackRun i c error ret ∈ w.log ↔
      .callbackRun i c error ret ∈ w.log.filter (·.isAnswer c) := by
    simp [List.mem_filter, Event.isAnswer]
  have hsound := h.sound c k hk
  rw [hmem, h.filter_isAnswer hk, k.filter_isAnswer_events, hsound.call_id]
  -- the answers of the call are those of its stage
  cases hstage : k.stage with
  | answering o =>
    have hcaller : k.caller ≠ none := by
      have hs := hsound.stage
      simp only [Call.StageSound, hstage] at hs
      exact Option.isSome_iff_ne_none.1 hs
    simp [hcaller]
  | closed o =>
    cases hcaller : k.caller with
    | none => cases hjson : P.readJson o.text <;> simp [hjson]
    | some p => simp
  | _ => simp

/-- A call is left by the step's own event only. -/
theorem hasLeft_of_step {l : Label n} (hs : Move P w l w') :
    HasLeft w' c ↔ HasLeft w c ∨ ∃ i o, l.event w = some (.left i c o) := by
  obtain ⟨es, hlog, hes⟩ := step_log hs
  -- leaving is the event of the step itself, and not one of those that follow from it
  have hnot : ∀ i o, .left i c o ∉ es := by
    intro i o hmem
    cases hes _ hmem
  constructor
  · rintro ⟨i, o, hmem⟩
    rw [hlog] at hmem
    have hmem := (List.mem_append.1 hmem).resolve_right (hnot i o)
    cases he : l.event w with
    | none => exact .inl ⟨i, o, by simpa [he, World.recordEvent] using hmem⟩
    | some e =>
      rw [he, World.recordEvent, World.record] at hmem
      obtain hmem | hmem := List.mem_append.1 hmem
      · exact .inl ⟨i, o, hmem⟩
      · exact .inr ⟨i, o, by rw [List.mem_singleton.1 hmem]⟩
  · rintro (⟨i, o, hmem⟩ | ⟨i, o, he⟩)
    · refine ⟨i, o, ?_⟩
      rw [hlog]
      refine List.mem_append_left _ ?_
      cases l.event w with
      | none => exact hmem
      | some e => exact List.mem_append_left _ hmem
    · refine ⟨i, o, ?_⟩
      rw [hlog, he]
      simp [World.recordEvent, World.record]

/-- The log only grows. -/
theorem mem_log_of_step {l : Label n} (hs : Move P w l w') {e : Event n} (he : e ∈ w.log) :
    e ∈ w'.log := by
  refine (step_log hs).mem_log ?_
  cases l.event w with
  | none => exact he
  | some e' => exact List.mem_append_left _ he

/-- A step leaves a call: but for the function's own affairs, it executes `reply` on the
core the call runs on. `Reply` and an exception are the two ways to do so. -/
structure Leaves (P : Runtime) (w w' : World n) (k : Call n) (o : Outcome) (now : UInt64) : Prop
    where
  call : w.call k.task.call_id = some k
  running : k.stage = .running
  core : w'.core = (reply P (w.record (.left k.place k.task.call_id o)) k.place k.task.req_id
    k.task.call_id k.task.service o.text now).1.core
  msgs : w'.msgs = (reply P (w.record (.left k.place k.task.call_id o)) k.place k.task.req_id
    k.task.call_id k.task.service o.text now).1.msgs
  acks : w'.acks = (reply P (w.record (.left k.place k.task.call_id o)) k.place k.task.req_id
    k.task.call_id k.task.service o.text now).1.acks
  log : w'.log = (reply P (w.record (.left k.place k.task.call_id o)) k.place k.task.req_id
    k.task.call_id k.task.service o.text now).1.log

/-- **How a call is left.** -/
theorem InOrder.leaves (h : InOrder P w) {l : Label n} (hs : Move P w l w') (hl : l.Safe P w)
    {i : Fin n} {o : Outcome} (he : l.event w = some (.left i c o)) :
    ∃ k now, k.task.call_id = c ∧ Leaves P w w' k o now := by
  have ha := h.accounted
  cases hs with
  -- the invocation in JavaScript is that of the call, under its service and on its core
  | jsReply v call_id ret now hv =>
    obtain ⟨k, hk, hrunning, hservice⟩ := hl
    obtain ⟨k₀, hk₀, -, hcore, htask, hname⟩ := ha.call_of_js hv
    obtain rfl : k = k₀ := Option.some.inj (hk.symm.trans hk₀)
    obtain rfl := (ha.sound _ k hk).call_id
    simp only [Label.event, hv, Option.map_some, Option.some.injEq, Event.left.injEq] at he
    obtain ⟨rfl, rfl, rfl⟩ := he
    refine ⟨k, now, by rw [htask], ⟨hk, hrunning, ?_, ?_, ?_, ?_⟩⟩ <;>
      rw [World.jsReply, hcore, htask, hname, hservice] <;> rfl
  | jsThrow v call_id now hv hbody =>
    obtain ⟨k, hk, hrunning⟩ := hl
    obtain ⟨k₀, hk₀, -, hcore, htask, -⟩ := ha.call_of_js hv
    obtain rfl : k = k₀ := Option.some.inj (hk.symm.trans hk₀)
    obtain rfl := (ha.sound _ k hk).call_id
    simp only [Label.event, hv, Option.map_some, Option.some.injEq, Event.left.injEq] at he
    obtain ⟨rfl, rfl, rfl⟩ := he
    refine ⟨k, now, by rw [htask], ⟨hk, hrunning, ?_, ?_, ?_, ?_⟩⟩ <;>
      rw [World.jsThrow, hcore, htask] <;> split <;> rfl
  -- no other step leaves a call
  | newReq => cases he
  | call v caller callee service function jsargs core now hv hfresh =>
    simp [Label.event, hv] at he
  | _ => cases he

/-- A started call runs until it is left. -/
theorem Stage.running_iff {s : Stage} (h : s.hasStarted) : s = .running ↔ s.outcome = none := by
  cases s <;> simp at h ⊢

end Nanoservices
