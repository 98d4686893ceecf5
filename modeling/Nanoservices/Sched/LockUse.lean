import Nanoservices.Library.Locking
import Nanoservices.Sched.LeastLoaded

/-!
# The scheduler's lock

`World` takes an execution of `get_core`, `dispatch`, `run_func` or `reply` as one step.
Here they are programs that make their accesses one by one, with `cores[0].mu` where the
source has it, and other cores in between; run alone, each does what its step does. What
the lock guards are the queues and the `task_map`s of all cores.

With at most `HW_Q_COUNT` cores `get_core` does not take the lock, but gives it back.
-/

namespace Nanoservices

open Locking World

variable {n : ℕ}

/-- What `cores[0].mu` guards, of core `i`. -/
def guarded (w : World n) (i : Fin n) : List Uuid × (Uuid → Option Task) :=
  ((w.core i).q, (w.core i).task_map)

namespace Locked

/-! ### Accesses to a core -/

/-- A core's data is read. -/
def core {α : Type} (i : Fin n) (f : Core n → α) : Prog (World n) α :=
  Prog.get fun w => f (w.core i)

/-- A core's data is changed, in one access. -/
def onCore (i : Fin n) (f : Core n → Core n) : Prog (World n) PUnit :=
  Prog.modify fun w => w.onCore i f

/-- Something is done that the log tells; no other core sees it. -/
def record (e : Event n) : Prog (World n) PUnit := Prog.modify fun w => w.record e

/-! ### The functions -/

/-- What `dispatch` does with the lock. -/
def popFront (i : Fin n) : Prog (World n) PUnit := do
  let k ← core i id
  match k.q with
  | [] => pure ⟨⟩
  | c :: _ =>
    match k.task_map c with
    | none => pure ⟨⟩
    | some task =>
      if k.curr_wf = ∅ then do
        onCore i fun k => { k with tasks := task ::ₘ k.tasks }
        onCore i fun k => { k with task_map := Function.update k.task_map c none }
        onCore i fun k => { k with q := k.q.tail }
        record (.dispatched i c)
      else pure ⟨⟩

/-- `dispatch` looks at the queue before it takes the lock, and does not take it for an
empty one. -/
def dispatch (i : Fin n) : Prog (World n) PUnit := do
  let q ← core i (·.q)
  if q = [] then pure ⟨⟩
  else do
    Prog.take
    popFront i
    Prog.release

/-- What `run_func` does with the lock. -/
def receive (i : Fin n) (task : Task) (fuse : Bool) : Prog (World n) PUnit :=
  if fuse then do
    onCore i fun k => { k with curr_wf := insert task.req_id k.curr_wf }
    onCore i fun k => { k with tasks := task ::ₘ k.tasks }
  else do
    onCore i fun k => { k with curr_req := insert task.call_id k.curr_req }
    onCore i fun k => { k with task_map := Function.update k.task_map task.call_id (some task) }

/-- `run_func`, which holds the lock while it receives the call, and gives it back
before `dispatch`, which takes it again. A request without its workflow ends the program
with the lock held. -/
def runFunc (i prev_cpu : Fin n) (task : Task) (now : UInt64) : Prog (World n) PUnit := do
  onCore i fun k => k.ensureReplyStates (replyKey task.service task.call_id) prev_cpu
  Prog.modify fun w => w.ensureFuncStates (task.service ++ task.function)
  let workflow_states ← Prog.get fun w => w.wfOf task.req_id
  onCore i fun k => if task.req_id = task.call_id
    then { k with wf_starts := Function.update k.wf_starts task.req_id (some now) } else k
  Prog.take
  match workflow_states with
  | none => Prog.halt
  | some workflow_states => do
    receive i task workflow_states.fuse
    Prog.release
    record (.arrived i task.call_id)
    dispatch i

/-- A loop of `get_core`. -/
def scan : List (Fin n) → UInt64 × Option (Fin n) → Prog (World n) (UInt64 × Option (Fin n))
  | [], best => pure best
  | i :: is, (min, min_index) => do
    let busy_till ← core i (·.busy_till)
    scan is (if busy_till < min then (busy_till, some i) else (min, min_index))

/-- The two loops of `get_core`, which read the times one by one. -/
def leastLoaded (exec_time now : UInt64) : Prog (World n) (Option (Fin n)) := do
  let (min, min_index) ← scan (coresBetween n HW_Q_COUNT n) (ULLONG_MAX, none)
  if exec_time < LONG_FUNC ∧ exec_time ≠ ULLONG_MAX then do
    let best ← scan (coresBetween n 0 HW_Q_COUNT) (if min < now then now else min, min_index)
    pure best.2
  else pure min_index

/-- What `get_core` does to the core it chose. -/
def enqueue (core : Fin n) (exec_time : UInt64) (call_id : Uuid) (now : UInt64) :
    Prog (World n) PUnit := do
  onCore core fun k => { k with busy := true }
  onCore core fun k => { k with q := k.q ++ [call_id] }
  onCore core fun k => { k with
    busy_till := max k.busy_till now + (if exec_time = 0 then 1 else exec_time) }

/-- `get_core`. With few cores the lock is not taken, but it is given back at the
end. -/
def getCore (i : Fin n) (exec_time : UInt64) (call_id : Uuid) (now : UInt64) :
    Prog (World n) (Fin n) :=
  if n ≤ HW_Q_COUNT then do
    enqueue i exec_time call_id now
    Prog.release
    pure i
  else if exec_time < GATE then do
    onCore i fun k => { k with busy_till := max k.busy_till now + exec_time }
    pure i
  else do
    Prog.take
    let min_index ← leastLoaded exec_time now
    match min_index with
    | none => Prog.halt
    | some core => do
      enqueue core exec_time call_id now
      Prog.release
      pure core

/-- What `reply` does with the lock first. -/
def retire (i : Fin n) (call_id : Uuid) (now : UInt64) : Prog (World n) PUnit := do
  onCore i fun k => { k with q := k.q.erase call_id }
  onCore i fun k => { k with curr_req := k.curr_req.erase call_id }
  let curr_req ← core i (·.curr_req)
  if curr_req = ∅ then do
    onCore i fun k => { k with busy := false }
    onCore i fun k => { k with busy_till := now }
  else pure ⟨⟩

/-- The callback's JavaScript may call `Call`, and so run the scheduler's functions. -/
def runCallback (i : Fin n) (call_id : Uuid) (service ret : String) : Prog (World n) PUnit := do
  let states ← core i (·.req_map (cbKey service call_id))
  match states with
  | some (.callback callee) => do
    onCore i fun k => k.beginCallback call_id service
    record (.callbackRun i callee none ret)
    Prog.yield
    onCore i fun k => { k.delReqStates (cbKey service call_id) with
      callbacks := k.callbacks.erase (call_id, service) }
    record (.callbackDone i call_id)
  | _ => Prog.halt

/-- The statistics are kept under another lock, as one access. -/
def replyRemote (i prev_cpu : Fin n) (req_id call_id : Uuid) (service ret : String)
    (now : UInt64) : Prog (World n) PUnit := do
  let states ← Prog.get fun w => (w.req_wf_map req_id, w.wfOf req_id)
  match states with
  | (some func, some workflow_states) => do
    Prog.modify fun w => { w with
      wf_map := Function.update w.wf_map func
        ((w.wf_map func).map (·.sample (now - ((w.core i).wf_starts req_id).getD 0))) }
    onCore i fun k => { k with wf_starts := Function.update k.wf_starts req_id none }
    Prog.take
    onCore i fun k => { k with
      curr_wf := if workflow_states.fuse then k.curr_wf.erase req_id else k.curr_wf }
    Prog.release
    Prog.modify fun w => w.send (.reply prev_cpu i req_id call_id service ret)
  | _ => Prog.halt

/-- `reply` from the unlocking of the lock on; false when it throws. -/
def answer (P : Runtime) (i : Fin n) (req_id call_id : Uuid) (service ret : String)
    (now : UInt64) : Option (ReqStates n) → Prog (World n) Bool
  | some .localReply =>
    match P.readJson ret with
    | none => do
      record (.unreadable i call_id)
      pure false
    | some (status, message) => do
      record (.promiseSet i call_id status message)
      Prog.take
      onCore i fun k => { k with curr_wf := k.curr_wf.erase req_id }
      Prog.release
      dispatch i
      pure true
  | some (.reply prev_cpu) =>
    if prev_cpu = i then do
      runCallback i call_id service ret
      dispatch i
      pure true
    else do
      replyRemote i prev_cpu req_id call_id service ret now
      pure true
  | _ => Prog.halt

/-- `reply`: the lock is held while the call is deleted from the queues, and given back
before the answer. -/
def reply (P : Runtime) (i : Fin n) (req_id call_id : Uuid) (service ret : String)
    (now : UInt64) : Prog (World n) Bool := do
  let states ← core i (·.req_map (replyKey service call_id))
  onCore i fun k => k.delReqStates (replyKey service call_id)
  Prog.take
  retire i call_id now
  Prog.release
  answer P i req_id call_id service ret now states

/-! ### Run alone -/

section Alone

variable (w : World n) (i : Fin n)

/-- Two changes of a core one after the other. -/
theorem onCore_onCore (f g : Core n → Core n) :
    (w.onCore i f).onCore i g = w.onCore i fun k => g (f k) := by
  simp [World.onCore]

/-- Two changes that do the same to this core. -/
theorem onCore_congr {f g : Core n → Core n} {w : World n} {i : Fin n}
    (h : f (w.core i) = g (w.core i)) : w.onCore i f = w.onCore i g := by
  rw [World.onCore, World.onCore, h]

@[simp] theorem exec_core {α : Type} (f : Core n → α) :
    (core i f).exec w = (w, some (f (w.core i))) :=
  rfl

@[simp] theorem exec_onCore (f : Core n → Core n) :
    (onCore i f).exec w = (w.onCore i f, some ⟨⟩) := rfl

@[simp] theorem exec_record (e : Event n) : (record e).exec w = (w.record e, some ⟨⟩) := rfl

/-- **`dispatch` alone** does what its step does. -/
@[simp] theorem exec_dispatch : (dispatch i).exec w = (w.dispatch i, some ⟨⟩) := by
  cases hq : (w.core i).q with
  | nil => simp [dispatch, World.dispatch, hq]
  | cons c rest =>
    cases ht : (w.core i).task_map c with
    | none => simp [dispatch, popFront, World.dispatch, hq, ht]
    | some task =>
      by_cases hwf : (w.core i).curr_wf = ∅
      · simp [dispatch, popFront, World.dispatch, World.popFront, hq, ht, hwf, onCore_onCore]
        rw [World.onCore, World.onCore, hq]
        rfl
      · simp [dispatch, popFront, World.dispatch, hq, ht, hwf]

@[simp] theorem exec_receive (task : Task) (fuse : Bool) :
    (receive i task fuse).exec w = (w.onCore i fun k =>
      if fuse then { k with curr_wf := insert task.req_id k.curr_wf, tasks := task ::ₘ k.tasks }
      else { k with
        curr_req := insert task.call_id k.curr_req
        task_map := Function.update k.task_map task.call_id (some task) }, some ⟨⟩) := by
  cases fuse <;> simp [receive, onCore_onCore]

/-- **`run_func` alone** does what its step does, if the request has its workflow. -/
theorem exec_runFunc (prev_cpu : Fin n) (task : Task) (now : UInt64) {fuse : Bool}
    (hfuse : w.fuseOf task.req_id = some fuse) :
    (runFunc i prev_cpu task now).exec w = (w.runFunc i prev_cpu task now, some ⟨⟩) := by
  have hstates : ∃ states, ((w.onCore i fun k => k.ensureReplyStates
      (replyKey task.service task.call_id) prev_cpu).ensureFuncStates
        (task.service ++ task.function)).wfOf task.req_id = some states := by
    have hsame := (fuseOf_ensureFuncStates (w := w.onCore i fun k => k.ensureReplyStates
      (replyKey task.service task.call_id) prev_cpu) (task.service ++ task.function)
      task.req_id).trans hfuse
    obtain ⟨states, hstates, -⟩ := Option.map_eq_some_iff.1 hsame
    exact ⟨states, hstates⟩
  obtain ⟨states, hstates⟩ := hstates
  -- alone, the program makes its accesses one after the other; those to one core make a
  -- single one together
  simp only [runFunc, World.runFunc, hstates, World.receive, onCore_onCore, Prog.exec_bind,
    exec_onCore, Prog.exec_modify, Prog.exec_get, Prog.exec_take, Prog.exec_release, exec_receive,
    exec_record, exec_dispatch]
  refine congrArg (fun f => (((World.onCore _ i f).record _).dispatch i, _)) (funext fun k => ?_)
  unfold Core.receive
  cases states.fuse <;> rfl

@[simp] theorem exec_scan (is : List (Fin n)) (best : UInt64 × Option (Fin n)) :
    (scan is best).exec w =
      (w, some (Nanoservices.scan (fun j => (w.core j).busy_till) is best)) := by
  induction is generalizing best with
  | nil => rfl
  | cons j is ih =>
    obtain ⟨min, min_index⟩ := best
    simp [scan, Nanoservices.scan, ih]

@[simp] theorem exec_leastLoaded (exec_time now : UInt64) :
    (leastLoaded exec_time now).exec w = (w, some (w.leastLoaded exec_time now)) := by
  by_cases h : exec_time < LONG_FUNC ∧ exec_time ≠ ULLONG_MAX
  · simp [leastLoaded, World.leastLoaded, h]
  · simp [leastLoaded, World.leastLoaded, h]

@[simp] theorem exec_enqueue (exec_time : UInt64) (call_id : Uuid) (now : UInt64) :
    (enqueue i exec_time call_id now).exec w = (w.getCore i exec_time call_id now, some ⟨⟩) := by
  simp [enqueue, World.getCore, onCore_onCore]

/-- **`get_core` alone** does what its step does, and halts where that has no
outcome. -/
theorem exec_getCore (exec_time : UInt64) (call_id : Uuid) (now : UInt64) :
    (getCore i exec_time call_id now).exec w =
      match w.chooseCore i exec_time call_id now with
      | some (w', core) => (w', some core)
      | none => (w, none) := by
  unfold getCore World.chooseCore
  split
  · simp
  · split
    · simp
    · cases hmin : w.leastLoaded exec_time now <;> simp [hmin]

variable {P : Runtime} {req_id call_id : Uuid} {service ret : String} {now : UInt64}

/-- The part of `reply` that holds the lock, alone. The state under the call's key has
been read and deleted before. -/
theorem exec_retire : (retire i call_id now).exec
    (w.onCore i fun k => k.delReqStates (replyKey service call_id)) =
      (w.retire i call_id service now, some ⟨⟩) := by
  by_cases hidle : (w.core i).curr_req.erase call_id = ∅
  · simp only [retire, World.retire, Core.retire, onCore_onCore, Prog.exec_bind, exec_onCore,
      exec_core, onCore_core_self, Core.delReqStates, hidle, if_true]
    rw [World.onCore, World.onCore]
    simp [hidle]
  · simp only [retire, World.retire, Core.retire, onCore_onCore, Prog.exec_bind, exec_onCore,
      exec_core, onCore_core_self, Core.delReqStates, hidle, if_false]
    rw [World.onCore, World.onCore]
    simp [hidle]

/-- `reply` alone is its answer, from the world in which the call has been deleted. -/
theorem exec_reply_eq : (reply P i req_id call_id service ret now).exec w =
    (answer P i req_id call_id service ret now ((w.core i).req_map (replyKey service call_id))).exec
      (w.retire i call_id service now) := by
  simp [reply, exec_retire]

/-- **`reply` alone**, for a request: on the core it was accepted on. -/
theorem exec_reply_request
    (hstates : (w.core i).req_map (replyKey service call_id) = some .localReply) :
    (reply P i req_id call_id service ret now).exec w =
      ((World.reply P w i req_id call_id service ret now).1,
        some (World.reply P w i req_id call_id service ret now).2) := by
  rw [exec_reply_eq, hstates]
  cases hjson : P.readJson ret with
  | none => simp [answer, World.reply, hstates, hjson]
  | some res => simp [answer, World.reply, hstates, hjson]

/-- **`reply` alone**, for a call that came from another core: on the core it runs on. -/
theorem exec_reply_remote {prev_cpu : Fin n} {func : String} {states : WfStates}
    (hstates : (w.core i).req_map (replyKey service call_id) = some (.reply prev_cpu))
    (hprev : prev_cpu ≠ i) (hfunc : w.req_wf_map req_id = some func)
    (hwf : w.wf_map func = some states) :
    (reply P i req_id call_id service ret now).exec w =
      ((World.reply P w i req_id call_id service ret now).1,
        some (World.reply P w i req_id call_id service ret now).2) := by
  rw [exec_reply_eq, hstates]
  have hfunc' : (w.retire i call_id service now).req_wf_map req_id = some func := hfunc
  have hwf' : (w.retire i call_id service now).wf_map func = some states := hwf
  -- the workflow is found in two steps, as in one
  have hstates' : (w.retire i call_id service now).wfOf req_id = some states := by
    rw [World.wfOf, hfunc']
    exact hwf'
  simp only [answer, World.reply, hstates, hprev, if_false, World.replyRemote, replyRemote,
    Prog.exec_bind, Prog.exec_get, Prog.exec_modify, Prog.exec_take, Prog.exec_release, exec_onCore,
    Prog.exec_pure, hfunc', hwf', hstates', Option.map_some, onCore_onCore]
  rfl

/-- **`reply` alone**, for a call that a function made on this core: up to the callback,
and on from where it returns. -/
theorem exec_reply_nested {callee : Uuid}
    (hstates : (w.core i).req_map (replyKey service call_id) = some (.reply i))
    (hcallback : (w.core i).req_map (cbKey service call_id) = some (.callback callee)) :
    (reply P i req_id call_id service ret now).exec w =
      ((World.reply P w i req_id call_id service ret now).1.callbackDone i call_id service
        (w.core i).callbacks, some true) := by
  rw [exec_reply_eq, hstates]
  have hcallback' : ((w.retire i call_id service now).core i).req_map (cbKey service call_id) =
      some (.callback callee) := by
    simpa [World.retire, Core.retire, Core.delReqStates] using hcallback
  simp only [answer, World.reply, hstates, if_true, World.runCallback, runCallback, hcallback',
    Prog.exec_bind, Prog.exec_pure, Prog.exec_yield, exec_core, exec_onCore, exec_record,
    exec_dispatch, World.callbackDone]
  -- while the program gives way the callback runs; alone, it is over at once
  refine congrArg
    (fun w' : World n => ((w'.record (.callbackDone i call_id)).dispatch i, some true))
    (onCore_congr ?_)
  simp [World.record, Core.beginCallback, World.retire, Core.retire, Core.delReqStates]

end Alone

/-! ### The discipline -/

section Discipline

variable {held : Bool} (i : Fin n)

/-- Reading is allowed with the lock and without it. -/
theorem keeps_core {α : Type} (f : Core n → α) : (core i f).Keeps guarded held held :=
  Prog.keeps_get _

/-- With the lock everything may be changed. -/
theorem keeps_held (f : Core n → Core n) : (onCore i f).Keeps guarded true true :=
  Prog.keeps_modify_held _

/-- A core's own data, which no lock guards, may be changed without it. -/
theorem keeps_onCore {f : Core n → Core n}
    (hf : ∀ k, (f k).q = k.q ∧ (f k).task_map = k.task_map := by exact fun _ => ⟨rfl, rfl⟩) :
    (onCore i f).Keeps guarded held held := by
  refine Prog.keeps_modify fun w => ?_
  funext j
  by_cases hj : j = i
  · subst hj
    simp [guarded, hf]
  · simp [guarded, hj]

/-- So may the log. -/
theorem keeps_record (e : Event n) : (record e).Keeps guarded held held :=
  Prog.keeps_modify

/-- What `dispatch` does with the lock leaves it taken, on each of its paths. -/
theorem keeps_popFront : (popFront i).Keeps guarded true true := by
  refine (keeps_core i id).bind fun k => ?_
  split
  · rfl
  · next c _ _ =>
    split
    · rfl
    · split
      · exact (keeps_held i _).seq ((keeps_held i _).seq ((keeps_held i _).seq (keeps_record _)))
      · rfl

/-- `dispatch` gives back the lock it takes, and takes none for an empty queue. -/
theorem keeps_dispatch : (dispatch i).Keeps guarded false false := by
  refine (keeps_core i _).bind fun q => ?_
  split
  · rfl
  · exact Prog.keeps_take.seq ((keeps_popFront i).seq Prog.keeps_release)

theorem keeps_receive (task : Task) (fuse : Bool) :
    (receive i task fuse).Keeps guarded true true := by
  unfold receive
  split
  · exact (keeps_held i _).seq (keeps_held i _)
  · exact (keeps_held i _).seq (keeps_held i _)

/-- `run_func` takes the lock and gives it back, and then does so again in `dispatch`.
The path without a workflow ends the program, and keeps any discipline. -/
theorem keeps_runFunc (prev_cpu : Fin n) (task : Task) (now : UInt64) :
    (runFunc i prev_cpu task now).Keeps guarded false false := by
  have hreply : ∀ k : Core n, (k.ensureReplyStates (replyKey task.service task.call_id)
      prev_cpu).q = k.q ∧ (k.ensureReplyStates (replyKey task.service task.call_id)
        prev_cpu).task_map = k.task_map := by
    intro k
    unfold Core.ensureReplyStates
    -- without the workflow's states the pointer is null
    split <;> exact ⟨rfl, rfl⟩
  have hfunc : ∀ w : World n,
      guarded (w.ensureFuncStates (task.service ++ task.function)) = guarded w := by
    intro w
    unfold guarded
    rw [core_ensureFuncStates]
  -- what comes before the lock touches neither queue nor task map
  refine (keeps_onCore i hreply).seq ((Prog.keeps_modify hfunc).seq
    ((Prog.keeps_get _).bind fun states => ?_))
  refine (keeps_onCore i (by intro k; split <;> exact ⟨rfl, rfl⟩)).seq (Prog.keeps_take.seq ?_)
  split
  · exact Prog.keeps_halt
  · exact (keeps_receive i task _).seq
      (Prog.keeps_release.seq ((keeps_record _).seq (keeps_dispatch i)))

/-- The loops only read. -/
theorem keeps_scan (is : List (Fin n)) (best : UInt64 × Option (Fin n)) :
    (scan is best).Keeps guarded held held := by
  induction is generalizing best with
  | nil => rfl
  | cons j is ih => exact (keeps_core j _).bind fun _ => ih _

theorem keeps_leastLoaded (exec_time now : UInt64) :
    (leastLoaded (n := n) exec_time now).Keeps guarded held held := by
  refine (keeps_scan _ _).bind fun best => ?_
  dsimp only
  split
  · exact (keeps_scan _ _).bind fun _ => rfl
  · rfl

theorem keeps_enqueue (exec_time : UInt64) (call_id : Uuid) (now : UInt64) :
    (enqueue i exec_time call_id now).Keeps guarded true true :=
  (keeps_held i _).seq ((keeps_held i _).seq (keeps_held i _))

/-- `get_core` with more cores than hardware queues takes the lock before it looks for a
core and gives it back when it has queued the call. The path that finds no core ends the
program. -/
theorem keeps_getCore (hn : HW_Q_COUNT < n) (exec_time : UInt64) (call_id : Uuid) (now : UInt64) :
    (getCore i exec_time call_id now).Keeps guarded false false := by
  rw [getCore, if_neg (Nat.not_le.2 hn)]
  split
  · exact (keeps_onCore i).seq rfl
  · refine Prog.keeps_take.seq ((keeps_leastLoaded exec_time now).bind fun min_index => ?_)
    split
    · exact Prog.keeps_halt
    · exact (keeps_enqueue _ exec_time call_id now).seq (Prog.keeps_release.seq rfl)

theorem keeps_retire (call_id : Uuid) (now : UInt64) :
    (retire i call_id now).Keeps guarded true true := by
  refine (keeps_held i _).seq ((keeps_held i _).seq ((keeps_core i _).bind fun curr_req => ?_))
  split
  · exact (keeps_held i _).seq (keeps_held i _)
  · rfl

/-- A callback runs without the lock, for its JavaScript may take it. -/
theorem keeps_runCallback (call_id : Uuid) (service ret : String) :
    (runCallback i call_id service ret).Keeps guarded false false := by
  refine (keeps_core i _).bind fun states => ?_
  split
  · refine (keeps_onCore i).seq ((keeps_record _).seq (Prog.keeps_yield.seq ?_))
    exact (keeps_onCore i).seq (keeps_record _)
  · exact Prog.keeps_halt

theorem keeps_replyRemote (prev_cpu : Fin n) (req_id call_id : Uuid) (service ret : String)
    (now : UInt64) :
    (replyRemote i prev_cpu req_id call_id service ret now).Keeps guarded false false := by
  refine (Prog.keeps_get _).bind fun states => ?_
  split
  · refine Prog.Keeps.seq Prog.keeps_modify ((keeps_onCore i).seq ?_)
    exact Prog.keeps_take.seq ((keeps_held i _).seq
      (Prog.keeps_release.seq Prog.keeps_modify))
  · exact Prog.keeps_halt

theorem keeps_answer (P : Runtime) (req_id call_id : Uuid) (service ret : String) (now : UInt64)
    (states : Option (ReqStates n)) :
    (answer P i req_id call_id service ret now states).Keeps guarded false false := by
  -- no reply states, a root, a nested call from here, and one from another core
  unfold answer
  split
  · split
    · exact (keeps_record _).seq rfl
    · exact (keeps_record _).seq (Prog.keeps_take.seq ((keeps_held i _).seq
        (Prog.keeps_release.seq ((keeps_dispatch i).seq rfl))))
  · split
    · exact (keeps_runCallback i call_id service ret).seq ((keeps_dispatch i).seq rfl)
    · exact (keeps_replyRemote i _ req_id call_id service ret now).seq rfl
  · exact Prog.keeps_halt

/-- `reply` takes the lock and gives it back; each of its answers does so again, or not
at all. -/
theorem keeps_reply (P : Runtime) (req_id call_id : Uuid) (service ret : String) (now : UInt64) :
    (reply P i req_id call_id service ret now).Keeps guarded false false := by
  refine (keeps_core i _).bind fun states => ?_
  refine (keeps_onCore i).seq (Prog.keeps_take.seq ?_)
  exact (keeps_retire i call_id now).seq (Prog.keeps_release.seq (keeps_answer i P ..))

end Discipline

end Locked

/-! ### All cores -/

/-- The programs a core may begin. -/
inductive Locked.Begins (P : Runtime) (i : Fin n) : Prog (World n) PUnit → Prop
  | getCore (exec_time : UInt64) (call_id : Uuid) (now : UInt64) :
      Begins P i (Locked.getCore i exec_time call_id now >>= fun _ => pure ⟨⟩)
  | dispatch : Begins P i (Locked.dispatch i)
  | runFunc (prev_cpu : Fin n) (task : Task) (now : UInt64) :
      Begins P i (Locked.runFunc i prev_cpu task now)
  | reply (req_id call_id : Uuid) (service ret : String) (now : UInt64) :
      Begins P i (Locked.reply P i req_id call_id service ret now >>= fun _ => pure ⟨⟩)

/-- **The discipline.** Along every path of the four functions the lock is taken and
given back in turn, and the queues and `task_map`s are modified in between (`paths`); in
whatever order the cores run them, at most one has the lock, and only that one gives it
back or modifies what it guards (`exclusive`). -/
structure LockDiscipline (P : Runtime) (n : ℕ) : Prop where
  paths : ∀ (i : Fin n) p, Locked.Begins P i p → p.Keeps guarded false false
  exclusive : ∀ m, Lts.Reachable (interleaving (Locked.Begins (n := n) P)) m →
    m.Exclusive guarded

/-- **The lock is used as a lock** exactly with more than `HW_Q_COUNT` cores. With fewer
`get_core`, which queues its call without the lock and gives back one it has not taken,
breaks the discipline by itself; with more, all four functions keep it, and then any
interleaving of them does (`Locking`). -/
theorem lock_discipline_iff (P : Runtime) (n : ℕ) (hn : 1 ≤ n) :
    LockDiscipline P n ↔ HW_Q_COUNT < n := by
  constructor
  · intro h
    by_contra hfew
    -- with few cores `get_core` gives the lock back without having taken it
    have hkeeps := h.paths ⟨0, hn⟩ _ (.getCore 0 firstUuid 0)
    rw [Locked.getCore, if_pos (Nat.not_lt.1 hfew)] at hkeeps
    obtain ⟨-, -, -, hheld, -⟩ := hkeeps
    cases hheld
  · intro hmany
    -- with more, each of the four functions keeps the discipline
    have hpaths : ∀ (i : Fin n) p, Locked.Begins P i p → p.Keeps guarded false false := by
      intro i p hp
      cases hp with
      | getCore exec_time call_id now =>
        exact (Locked.keeps_getCore i hmany exec_time call_id now).bind fun _ => rfl
      | dispatch => exact Locked.keeps_dispatch i
      | runFunc prev_cpu task now => exact Locked.keeps_runFunc i prev_cpu task now
      | reply req_id call_id service ret now =>
        exact (Locked.keeps_reply i P req_id call_id service ret now).bind fun _ => rfl
    exact ⟨hpaths, fun m hm => exclusive_of_keeps hpaths hm⟩

/-- Nine cores are enough. -/
theorem lock_discipline_iff_nine : LockDiscipline oneService 9 ↔ HW_Q_COUNT < 9 :=
  lock_discipline_iff oneService 9 (by decide)

/-- On one core `get_core` queues the call without the lock, and gives the lock back. -/
theorem lock_given_back_untaken : ¬∀ n, 1 ≤ n → LockDiscipline oneService n := by
  intro hlock
  have hkeeps := (hlock 1 le_rfl).paths 0 _ (.getCore 0 firstUuid 0)
  obtain ⟨-, -, -, hheld, -⟩ := hkeeps
  cases hheld

end Nanoservices
