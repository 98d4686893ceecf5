import Nanoservices.Sched.Scheduler

/-!
# The ledger of calls

What the scheduler is for, one call at a time. A call is placed on a core, gets there,
by a message or at once, waits there for `dispatch` unless it is fused, is started, is
left by its function, and is answered where it was made: the promise of a root call is
set, the callback of a nested call runs. `Stage` is how far a call has come, `Call` what
is known of it, and the `Ledger` of a log has the calls of the log's events.

All that the cores, the maps and the messages hold for a call is determined by its entry
in the ledger: `Call.coreView` and `Call.view` say how. That this is so in every
reachable state is proved in `Accounting`.
-/

namespace Nanoservices

variable {n : ℕ}

/-! ### Calls -/

/-- How far a call has come. A call that stays on its core skips `sent` and `returning`,
and a fused one `waiting`; a root call is never `answering`. These stages last no longer
than one step then. -/
inductive Stage
  | placing
  /-- On its way to its core. -/
  | sent
  /-- In `task_map`. -/
  | waiting
  /-- In the reactor. -/
  | ready
  | running
  /-- Its reply is on its way to the core the call was made on. -/
  | returning (outcome : Outcome)
  /-- Its callback has been called. -/
  | answering (outcome : Outcome)
  | closed (outcome : Outcome)
  deriving DecidableEq

namespace Stage

/-- `reply` has not been executed on the core the call was made on, so that the core
still has the reply states. -/
@[simp] def isOpen : Stage → Bool
  | answering _ | closed _ => false
  | _ => true

/-- The call is on its core, and its function has not left it: what `retire` has to
clear. -/
@[simp] def isHere : Stage → Bool
  | waiting | ready | running => true
  | _ => false

/-- The function has been called, so that the call has its JavaScript. -/
@[simp] def hasStarted : Stage → Bool
  | running | returning _ | answering _ | closed _ => true
  | _ => false

/-- The call's callback is running. -/
@[simp] def isAnswering : Stage → Bool
  | answering _ => true
  | _ => false

/-- The call has been answered where it was made, or its reply could not be read there. -/
@[simp] def isClosed : Stage → Bool
  | closed _ => true
  | _ => false

/-- The call's function has left it, and how. -/
@[simp] def outcome : Stage → Option Outcome
  | returning o | answering o | closed o => some o
  | _ => none

end Stage

/-- What is known of a call. All of it can be read off the log; `born` and `popped` are
positions in it, which order the calls among themselves. -/
structure Call (n : ℕ) where
  task : Task
  /-- The core the call was made on. -/
  origin : Fin n
  /-- The call whose function made it, none for a request. -/
  caller : Option Uuid
  /-- The core it runs on. -/
  place : Fin n
  fused : Bool
  stage : Stage
  /-- When it was made. -/
  born : ℕ
  /-- When it was taken from the queue. -/
  popped : ℕ

/-- The effect of an event on the call it is about. An event that does not fit the
call's stage has none, which makes the ledger total. That events do fit is part of what
`Accounted` says of the log. -/
def Call.after (now : ℕ) (k : Call n) (e : Event n) : Call n :=
  match e, k.stage with
  | .placed core _ fused, .placing => { k with place := core, fused, stage := .sent }
  | .arrived .., .sent => { k with stage := if k.fused then .ready else .waiting }
  | .dispatched .., .waiting => { k with stage := .ready, popped := now }
  | .started .., .ready => { k with stage := .running }
  | .left _ _ outcome, .running => { k with stage := .returning outcome }
  | .promiseSet .., .returning outcome => { k with stage := .closed outcome }
  | .unreadable .., .returning outcome => { k with stage := .closed outcome }
  | .callbackRun .., .returning outcome => { k with stage := .answering outcome }
  | .callbackDone .., .answering outcome => { k with stage := .closed outcome }
  | _, _ => k

/-- A call that has been made and has no place yet. -/
def Call.new (now : ℕ) (core : Fin n) (caller : Option Uuid) (task : Task) : Call n where
  task
  origin := core
  caller
  place := core
  fused := false
  stage := .placing
  born := now
  popped := now

/-- The call an event makes. -/
def Event.newCall (now : ℕ) : Event n → Option (Call n)
  | .called core caller task => some (.new now core caller task)
  | _ => none

/-- The call goes on from `k` to `k'`: who called whom never changes, and neither does
the place of a call that has started. This is what other calls rely on that were made by
it. -/
structure Call.EvolvesTo (k k' : Call n) : Prop where
  task : k'.task = k.task
  origin : k'.origin = k.origin
  caller : k'.caller = k.caller
  born : k'.born = k.born
  started : k.stage.hasStarted → k'.stage.hasStarted ∧ k'.place = k.place ∧ k'.popped = k.popped

theorem Call.EvolvesTo.refl (k : Call n) : k.EvolvesTo k :=
  ⟨rfl, rfl, rfl, rfl, fun h => ⟨h, rfl, rfl⟩⟩

/-- What a call's stage says about its cores. A message is under way only between
different cores, and only a call that is not fused waits for `dispatch`. -/
def Call.StageSound (k : Call n) : Prop :=
  match k.stage with
  | .sent | .returning _ => k.place ≠ k.origin
  | .waiting => k.fused = false
  | .answering _ => k.caller.isSome
  | _ => True

/-! ### The ledger -/

/-- The calls of a log, and the log's length as the time. -/
structure Ledger (n : ℕ) where
  clock : ℕ
  calls : Uuid → Option (Call n)

/-- An event makes a call, or moves one on. -/
def Ledger.apply (L : Ledger n) (e : Event n) : Ledger n where
  clock := L.clock + 1
  calls := Function.update L.calls e.call_id <|
    match e.newCall L.clock with
    | some k => some k
    | none => (L.calls e.call_id).map (·.after L.clock e)

/-- The ledger of a log. -/
def Ledger.ofLog (log : List (Event n)) : Ledger n := log.foldl Ledger.apply ⟨0, fun _ => none⟩

namespace World

variable (w : World n)

/-- A call in the ledger, which is that of the world's log. -/
def call (c : Uuid) : Option (Call n) := (Ledger.ofLog w.log).calls c

/-- How many events there have been. -/
def clock : ℕ := (Ledger.ofLog w.log).clock

@[simp] theorem initial_call (c : Uuid) : (initial n).call c = none := rfl

@[simp] theorem clock_record (e : Event n) : (w.record e).clock = w.clock + 1 := by
  simp [clock, record, Ledger.ofLog, Ledger.apply]

theorem call_record (e : Event n) (c : Uuid) :
    (w.record e).call c = if c = e.call_id then
      match e.newCall w.clock with
      | some k => some k
      | none => (w.call c).map (·.after w.clock e)
    else w.call c := by
  by_cases hc : c = e.call_id
  · subst hc
    simp [call, clock, record, Ledger.ofLog, Ledger.apply]
  · simp [call, record, Ledger.ofLog, Ledger.apply, hc]

/-- An event changes one call. -/
theorem call_record_of_ne {e : Event n} {c : Uuid} (h : c ≠ e.call_id) :
    (w.record e).call c = w.call c := by
  rw [call_record, if_neg h]

theorem call_record_self {e : Event n} {c : Uuid} {k k' : Call n} (hc : e.call_id = c)
    (hnew : e.newCall w.clock = none) (hk : w.call c = some k) (hk' : k.after w.clock e = k') :
    (w.record e).call c = some k' := by
  rw [call_record, if_pos hc.symm, hnew, hk, ← hk']
  rfl

theorem call_record_called (i : Fin n) (caller : Option Uuid) (task : Task) :
    (w.record (.called i caller task)).call task.call_id = some (.new w.clock i caller task) := by
  rw [call_record]
  exact if_pos rfl

/-- The ledger is read off the log. -/
theorem call_congr {w w' : World n} (h : w'.log = w.log) (c : Uuid) : w'.call c = w.call c := by
  rw [call, call, h]

end World

/-- Whether a request's workflow is fused. -/
def World.fuseOf (w : World n) (req_id : Uuid) : Option Bool := (w.wfOf req_id).map (·.fuse)

/-- How a call of the ledger is connected: to the request it is part of and to the call
that made it, which had started on this call's core by then. Since `born` grows from
caller to callee, the calls of a request form a tree whose root is the request. -/
structure Call.Sound (w : World n) (c : Uuid) (k : Call n) : Prop where
  call_id : k.task.call_id = c
  caller_none : k.caller = none ↔ k.task.req_id = c
  stage : k.StageSound
  caller : ∀ p, k.caller = some p → ∃ kp, w.call p = some kp ∧ kp.stage.hasStarted ∧
    kp.task.req_id = k.task.req_id ∧ kp.place = k.origin ∧ kp.born < k.born ∧ kp.popped < k.born
  root : ∃ r, w.call k.task.req_id = some r ∧ r.caller = none
  fuse : k.stage ≠ .placing → w.fuseOf k.task.req_id = some k.fused
  home : k.stage ≠ .placing → k.fused → k.caller ≠ none → k.place = k.origin
  born_lt : k.born < w.clock
  popped_lt : k.popped < w.clock

section Unlogged

variable (w : World n) (i : Fin n) (f : Core n → Core n) (m : Msg n) (c : Uuid)

@[simp] theorem call_onCore : (w.onCore i f).call c = w.call c := rfl

@[simp] theorem clock_onCore : (w.onCore i f).clock = w.clock := rfl

@[simp] theorem call_send : (w.send m).call c = w.call c := rfl

@[simp] theorem clock_send : (w.send m).clock = w.clock := rfl

variable (v : Invocation n)

@[simp] theorem call_setJs (c' : Uuid) : (w.setJs c v).call c' = w.call c' := rfl

@[simp] theorem clock_setJs : (w.setJs c v).clock = w.clock := rfl

end Unlogged

/-! ### What the cores hold for a call -/

/-- What a core holds for a call: the part of its maps, its queue and its multisets that
mentions the id. -/
@[ext] structure CoreView (n : ℕ) where
  reply : String → Option (ReqStates n)
  cb : String → Option (ReqStates n)
  queued : ℕ
  current : Prop
  parked : Option Task
  tasks : Multiset Task
  callbacks : Multiset (Uuid × String)

/-- What the core `k` holds for the call `c`. -/
def Core.view (k : Core n) (c : Uuid) : CoreView n where
  reply s := k.req_map (replyKey s c)
  cb s := k.req_map (cbKey s c)
  queued := k.q.count c
  current := c ∈ k.curr_req
  parked := k.task_map c
  tasks := k.tasks.filter (·.call_id = c)
  callbacks := k.callbacks.filter (·.1 = c)

/-- What the world holds for a call, its history included. -/
@[ext] structure View (n : ℕ) where
  core : Fin n → CoreView n
  msgs : Multiset (Msg n)
  js : Option (Fin n × Task × String)
  log : List (Event n)

/-- What the world holds for a call, as a function of its id alone. Operations on one
call leave the views of the others unchanged, which is how they are proved not to
interfere (`SameFor`). -/
def World.view (w : World n) (c : Uuid) : View n where
  core i := (w.core i).view c
  msgs := w.msgs.filter (·.call_id = c)
  js := (w.js c).map fun v => (v.core, v.task, v.serviceName)
  log := w.log.filter (·.call_id = c)

/-- Nothing. -/
def View.empty (n : ℕ) : View n where
  core _ := ⟨fun _ => none, fun _ => none, 0, False, none, 0, 0⟩
  msgs := 0
  js := none
  log := []

namespace Call

variable (k : Call n)

/-- The reply states on the core a call was made on: `new_req`'s promise for a root
call, a mark that the reply stays on the core for a nested one. -/
def originStates : ReqStates n :=
  match k.caller with
  | none => .localReply
  | some _ => .reply k.origin

/-- The core's queue has the call. A fused root call stays in the queue until it is
left, as only `retire` takes it out; a fused nested call is never in a queue. -/
def inQueue : Bool :=
  match k.stage with
  | .sent => !k.fused || k.caller.isNone
  | .waiting => !k.fused
  | .ready | .running => k.fused && k.caller.isNone
  | _ => false

/-- What core `i` holds for the call. Two cores have something at most: the one it was
made on, until `reply` has been executed there, and the one it was placed on, until its
function has left it. -/
def coreView (i : Fin n) : CoreView n where
  reply s :=
    if s = k.task.service then
      if i = k.origin ∧ k.stage.isOpen then some k.originStates
      else if i = k.place ∧ k.stage.isHere then some (.reply k.origin)
      else none
    else none
  cb s :=
    if s = k.task.service ∧ i = k.origin ∧ k.caller.isSome ∧ k.stage.isClosed = false then
      some (.callback k.task.call_id)
    else none
  queued := if i = k.place ∧ k.inQueue then 1 else 0
  current := i = k.place ∧ k.fused = false ∧ k.stage.isHere
  parked := if i = k.place ∧ k.stage = .waiting then some k.task else none
  tasks := if i = k.place ∧ k.stage = .ready then {k.task} else 0
  callbacks := if i = k.origin ∧ k.stage.isAnswering then
      {(k.task.call_id, k.task.service)}
    else 0

/-- The messages under way for the call, at most one. -/
def msgs : Multiset (Msg n) :=
  match k.stage with
  | .sent => {.runFunc k.place k.origin k.task}
  | .returning o =>
    {.reply k.origin k.place k.task.req_id k.task.call_id k.task.service o.text}
  | _ => 0

/-- How the reply of a root call ends: `reply` sets the promise, or throws. -/
def rootEnd (P : Runtime) (o : Outcome) : Event n :=
  match P.readJson o.text with
  | some (status, message) => .promiseSet k.origin k.task.call_id status message
  | none => .unreadable k.origin k.task.call_id

@[simp] theorem rootEnd_call_id (P : Runtime) (o : Outcome) :
    (k.rootEnd P o).call_id = k.task.call_id := by
  unfold rootEnd
  split <;> rfl

theorem newCall_rootEnd (P : Runtime) (o : Outcome) (now : ℕ) :
    (k.rootEnd P o).newCall now = none := by
  unfold rootEnd
  split <;> rfl

theorem after_rootEnd (P : Runtime) {o : Outcome} (hstage : k.stage = .returning o) (now : ℕ) :
    k.after now (k.rootEnd P o) = { k with stage := .closed o } := by
  unfold rootEnd
  split <;> simp [after, hstage]

/-- The events of the call until it is in the reactor. -/
def eventsToReady : List (Event n) :=
  [.called k.origin k.caller k.task, .placed k.place k.task.call_id k.fused,
    .arrived k.place k.task.call_id] ++
  if k.fused then [] else [.dispatched k.place k.task.call_id]

/-- The events of the call until its function left it. -/
def eventsToLeft (o : Outcome) : List (Event n) :=
  k.eventsToReady ++ [.started k.place k.task.call_id, .left k.place k.task.call_id o]

/-- The events of the call so far, in order. The log has these for the call and no
others. -/
def events (P : Runtime) : List (Event n) :=
  let c := k.task.call_id
  match k.stage with
  | .placing => [.called k.origin k.caller k.task]
  | .sent => [.called k.origin k.caller k.task, .placed k.place c k.fused]
  | .waiting => [.called k.origin k.caller k.task, .placed k.place c k.fused, .arrived k.place c]
  | .ready => k.eventsToReady
  | .running => k.eventsToReady ++ [.started k.place c]
  | .returning o => k.eventsToLeft o
  | .answering o => k.eventsToLeft o ++ [.callbackRun k.origin c none o.text]
  | .closed o =>
    k.eventsToLeft o ++
      match k.caller with
      | none => [k.rootEnd P o]
      | some _ => [.callbackRun k.origin c none o.text, .callbackDone k.origin c]

theorem events_root {P : Runtime} {o : Outcome} (hstage : k.stage = .closed o)
    (hcaller : k.caller = none) : k.events P = k.eventsToLeft o ++ [k.rootEnd P o] := by
  simp [events, hstage, hcaller]

/-- What the world holds for the call. `Accounted` says that the world's view of every
call is this one. -/
def view (P : Runtime) : View n where
  core := k.coreView
  msgs := k.msgs
  js := if k.stage.hasStarted then some (k.place, k.task, P.serviceName k.task.service) else none
  log := k.events P

end Call

end Nanoservices
