import Nanoservices.Library.System
import Nanoservices.Sched.State

/-!
# The scheduler

The functions of the scheduler, and the system they make. One execution of `schedule`,
`run_func`, `reply` or `dispatch` is atomic: it runs on one core without giving way, and
what it shares with other cores it touches under a lock. The clock is read once for
each.

`get_core` may place a call on any core, so the core is a parameter of what calls it;
what it records for the core it chose is `getCore`. The load it reads, `busy_till` and
the estimates `exec_time`, is kept up as in the source.

`Reply` and `Call` are called by services' JavaScript, with the ids the function was
given. Nothing else is assumed about services: `Move` lets a function's JavaScript call
`Call` and `Reply` at any time, and its body throw or return. The callback of a nested
call runs within `reply`; as it is JavaScript too, it is a step of its own that ends
with `callbackDone`.

An entry of a map that is used without being there is a null pointer; using it ends the
program, `crashed`. An exception that `read_json` throws ends `reply` and the function
that called it, or fails the message; JavaScript and the reactor go on.
-/

namespace Nanoservices

open Lts

/-- What the scheduler is given: the registered services, in order, and Boost's
`read_json` with the fields `_status` and `_message` that `reply` takes from the tree.
Every result about the scheduler is for an arbitrary one. -/
structure Runtime where
  services : List String
  readJson : String → Option (ℤ × String)

/-- The context a service's function is run in: an unregistered service has the number 0
in `ctx_map`, the context of the service that was registered first, because `operator[]`
makes the entry that it does not find. -/
def Runtime.serviceName (P : Runtime) (service : String) : String :=
  if service ∈ P.services then service else P.services.headD ""

/-- The services whose workflows stay on one core. The names are written out in
`schedule`. -/
def fusedServices : List String := ["complex.js", "post.js", "fanout.js"]

variable {n : ℕ}

/-! ### The maps of the scheduler -/

/-- `set_req_states`. -/
def Core.setReqStates (k : Core n) (key : String) (states : ReqStates n) : Core n :=
  { k with req_map := Function.update k.req_map key (some states) }

/-- `del_req_states`, and the `erase` of `reply`. -/
def Core.delReqStates (k : Core n) (key : String) : Core n :=
  { k with req_map := Function.update k.req_map key none }

/-- New reply states for a call, unless there are some. `schedule` and `run_func` both
do this, the first on the core the call was made on and the second on the core it runs
on; where these are one core, the states that `new_req` or `schedule` made stay. -/
def Core.ensureReplyStates (k : Core n) (key : String) (prev_cpu : Fin n) : Core n :=
  match k.req_map key with
  | none => k.setReqStates key (.reply prev_cpu)
  | some _ => k

/-- What `run_func` does with a call that has arrived: a fused call goes to the reactor,
any other waits in `task_map`. The time at which a root call starts its workflow is
taken in either case. -/
def Core.receive (k : Core n) (task : Task) (fuse : Bool) (now : UInt64) : Core n :=
  let k := if task.req_id = task.call_id
    then { k with wf_starts := Function.update k.wf_starts task.req_id (some now) } else k
  if fuse then
    { k with
      curr_wf := insert task.req_id k.curr_wf
      tasks := task ::ₘ k.tasks }
  else
    { k with
      curr_req := insert task.call_id k.curr_req
      task_map := Function.update k.task_map task.call_id (some task) }

/-- A request's workflow has left a core: what `reply` forgets of it when the reply goes
to another core. -/
def Core.leaveWf (k : Core n) (req_id : Uuid) (fuse : Bool) : Core n :=
  { k with
    wf_starts := Function.update k.wf_starts req_id none
    curr_wf := if fuse then k.curr_wf.erase req_id else k.curr_wf }

/-- The callback of a call is called. -/
def Core.beginCallback (k : Core n) (call_id : Uuid) (service : String) : Core n :=
  { k with callbacks := (call_id, service) ::ₘ k.callbacks }

/-- The call is over on a core: the first half of `reply`. It takes the call out of the
core's queue, where a fused root call still stands, and declares the core idle when no
other call is current on it. -/
def Core.retire (k : Core n) (call_id : Uuid) (service : String) (now : UInt64) : Core n :=
  let curr_req := k.curr_req.erase call_id
  { k.delReqStates (replyKey service call_id) with
    q := k.q.erase call_id
    curr_req
    busy := if curr_req = ∅ then false else k.busy
    busy_till := if curr_req = ∅ then now else k.busy_till }

namespace World

/-- New states for a function that has not been called before. -/
def ensureFuncStates (w : World n) (func : String) : World n :=
  match w.func_map func with
  | none => { w with func_map := Function.update w.func_map func (some {}) }
  | some _ => w

/-- New workflow states for a root call's function, unless there are some; they are the
request's. Whether they are new or not, `req_wf_map` gets its entry, which nothing ever
takes away. -/
def ensureWfStates (w : World n) (req_id : Uuid) (service func : String) : World n :=
  { w with
    wf_map := match w.wf_map func with
      | none => Function.update w.wf_map func (some { fuse := decide (service ∈ fusedServices) })
      | some _ => w.wf_map
    req_wf_map := Function.update w.req_wf_map req_id (some func) }

/-- The task at the front of the core's queue goes to the reactor. -/
def popFront (w : World n) (i : Fin n) (c : Uuid) (rest : List Uuid) (task : Task) : World n :=
  (w.onCore i fun k =>
    { k with
      tasks := task ::ₘ k.tasks
      task_map := Function.update k.task_map c none
      q := rest }).record (.dispatched i c)

/-- Start the task at the front of the core's queue, if it has arrived and no fused
workflow is running. Only the front is looked at: a call that is still on its way holds
up those behind it. -/
def dispatch (w : World n) (i : Fin n) : World n :=
  match (w.core i).q with
  | [] => w
  | c :: rest =>
    match (w.core i).task_map c with
    | none => w
    | some task =>
      if (w.core i).curr_wf = ∅ then w.popFront i c rest task else w

/-- The call is on its core. -/
def receive (w : World n) (i : Fin n) (task : Task) (fuse : Bool) (now : UInt64) : World n :=
  (w.onCore i fun k => k.receive task fuse now).record (.arrived i task.call_id)

/-- `run_func` on core `i`, where the call has been sent by `prev_cpu`, or by `schedule`
on the core itself. -/
def runFunc (w : World n) (i prev_cpu : Fin n) (task : Task) (now : UInt64) : World n :=
  let w := w.onCore i fun k =>
    k.ensureReplyStates (replyKey task.service task.call_id) prev_cpu
  let w := w.ensureFuncStates (task.service ++ task.function)
  match w.wfOf task.req_id with
  | none => w.crash
  | some workflow_states => (w.receive i task workflow_states.fuse now).dispatch i

/-- What `get_core` does to the core it chose. The estimate is added in 64 bits, and an
unknown one is `2 ^ 64 - 1` there. -/
def getCore (w : World n) (core : Fin n) (exec_time : UInt64) (call_id : Uuid) (now : UInt64) :
    World n :=
  w.onCore core fun k =>
    { k with
      busy := true
      q := k.q ++ [call_id]
      busy_till := max k.busy_till now + (if exec_time = 0 then 1 else exec_time) }

/-- The second half of `schedule`, from the choice of the core on. A nested call of a
fused workflow stays where it is made and is not entered in any queue; every other call
is entered in the queue of the core that `get_core` chose, before its message is sent.
-/
def place (w : World n) (i prev_cpu : Fin n) (task : Task) (core : Fin n) (now : UInt64) :
    World n :=
  match w.wfOf task.req_id, w.func_map (task.service ++ task.function) with
  | some workflow_states, some function_states =>
    if workflow_states.fuse && task.req_id != task.call_id then
      (w.record (.placed i task.call_id true)).runFunc i prev_cpu task now
    else
      let exec_time := if workflow_states.fuse then workflow_states.exec_time
        else function_states.exec_time
      let w := (w.getCore core exec_time.toInt64.toUInt64 task.call_id now).record
        (.placed core task.call_id workflow_states.fuse)
      if core = i then w.runFunc i prev_cpu task now
      else w.send (.runFunc core prev_cpu task)
  | _, _ => w.crash

/-- The first half of `schedule`: the states of the call, of its function and, for a
root call, of its workflow. -/
def prepare (w : World n) (i prev_cpu : Fin n) (task : Task) : World n :=
  let w := w.onCore i fun k =>
    k.ensureReplyStates (replyKey task.service task.call_id) prev_cpu
  let func := task.service ++ task.function
  let w := w.ensureFuncStates func
  if task.req_id = task.call_id then w.ensureWfStates task.req_id task.service func else w

/-- `schedule` on core `i`, with the core `get_core` would choose. -/
def schedule (w : World n) (i prev_cpu : Fin n) (task : Task) (core : Fin n) (now : UInt64) :
    World n :=
  (w.prepare i prev_cpu task).place i prev_cpu task core now

/-- The first half of `reply`, on core `i`. -/
def retire (w : World n) (i : Fin n) (call_id : Uuid) (service : String) (now : UInt64) :
    World n :=
  w.onCore i fun k => k.retire call_id service now

/-- `run_callback`, up to the call of the function. The first argument of the function
is `null`, whatever has become of the call. -/
def runCallback (w : World n) (i : Fin n) (call_id : Uuid) (service ret : String) : World n :=
  match (w.core i).req_map (cbKey service call_id) with
  | some (.callback callee) =>
    (w.onCore i fun k => k.beginCallback call_id service).record (.callbackRun i callee none ret)
  | _ => w.crash

/-- The branch of `reply` for a call that came from another core. The workflow is
charged with the time since its root call arrived, but `wf_starts` has an entry for it
only on the core where it did; on the other cores `operator[]` gives 0. -/
def replyRemote (w : World n) (i prev_cpu : Fin n) (req_id call_id : Uuid)
    (service ret : String) (now : UInt64) : World n :=
  match w.req_wf_map req_id, w.wfOf req_id with
  | some func, some workflow_states =>
    let time := now - ((w.core i).wf_starts req_id).getD 0
    let w := { w with
      wf_map := Function.update w.wf_map func (some (workflow_states.sample time)) }
    (w.onCore i fun k => k.leaveWf req_id workflow_states.fuse).send
      (.reply prev_cpu i req_id call_id service ret)
  | _, _ => w.crash

/-- `reply` on core `i`; false when it threw. The three cases are those of the reply
states: a promise is set, the callback is called on this core, or the reply is sent to
the core the call was made on, where `reply` is executed once more. No entry under the
key is a null pointer. -/
def reply (P : Runtime) (w : World n) (i : Fin n) (req_id call_id : Uuid)
    (service ret : String) (now : UInt64) : World n × Bool :=
  let states := (w.core i).req_map (replyKey service call_id)
  let w := w.retire i call_id service now
  match states with
  | some .localReply =>
    match P.readJson ret with
    | none => (w.record (.unreadable i call_id), false)
    | some (status, message) =>
      let w := w.record (.promiseSet i call_id status message)
      ((w.onCore i fun k => { k with curr_wf := k.curr_wf.erase req_id }).dispatch i, true)
  | some (.reply prev_cpu) =>
    if prev_cpu = i then (w.runCallback i call_id service ret, true)
    else (w.replyRemote i prev_cpu req_id call_id service ret now, true)
  | _ => (w.crash, true)

/-! ### The environment of the scheduler -/

/-- `new_req`, up to its return: a request is accepted on core `i`. Its id has just been
generated, and the promise is the entry `localReply`. -/
def newReq (w : World n) (i : Fin n) (req_id : Uuid) (service function args : String)
    (core : Fin n) (now : UInt64) : World n :=
  let task : Task := ⟨req_id, req_id, service, function, args⟩
  let w := { w with uuids := insert req_id w.uuids }
  let w := w.onCore i fun k => k.setReqStates (replyKey service req_id) .localReply
  (w.record (.called i none task)).schedule i i task core now

/-- `Call`, from the JavaScript `v` of the call `caller`. The new call belongs to the
request of the caller, since services pass on the `req_id` they were given. -/
def callFunction (w : World n) (v : Invocation n) (caller callee : Uuid)
    (service function jsargs : String) (core : Fin n) (now : UInt64) : World n :=
  let task : Task := ⟨v.task.req_id, callee, service, function, jsargs⟩
  let w := { w with uuids := insert callee w.uuids }
  let w := w.onCore v.core fun k => k.setReqStates (cbKey service callee) (.callback callee)
  (w.record (.called v.core (some caller) task)).schedule v.core v.core task core now

/-- The reactor starts a task: `req_service::run_func`, up to the call of the function.
From here on the call has its JavaScript. -/
def start (P : Runtime) (w : World n) (i : Fin n) (task : Task) (tasks : Multiset Task)
    (now : UInt64) : World n :=
  ((w.onCore i fun k => { k with tasks }).record (.started i task.call_id)).setJs task.call_id
    ⟨i, task, P.serviceName task.service, true, now⟩

/-- The body of a function is over. The callbacks it has left behind may still run. -/
def leaveBody (w : World n) (v : Invocation n) : World n :=
  w.setJs v.task.call_id { v with inBody := false }

/-- The end of `req_service::run_func`, which takes the time of the execution. It is
reached when the body returns, and also after an exception, unless `reply` threw as
well. -/
def finish (w : World n) (v : Invocation n) (now : UInt64) : World n :=
  let func := v.task.service ++ v.task.function
  { w.leaveBody v with
    func_map := Function.update w.func_map func
      ((w.func_map func).map (·.sample (now - v.start_time))) }

/-- `Reply`, from the JavaScript `v` of a call.

Where `read_json` rejects the string, `reply` throws through frames of JavaScript. What
becomes of a C++ exception there is up to V8 and the way it was built: it may end the
process. The model goes on, with the call retired and nothing else done. For all that is
said of the request itself this is the same, as its promise is never set either way. It
matters for what other requests can still expect. -/
def jsReply (P : Runtime) (w : World n) (v : Invocation n) (ret : String) (now : UInt64) :
    World n :=
  (reply P (w.record (.left v.core v.task.call_id (.returned ret))) v.core v.task.req_id
    v.task.call_id v.serviceName ret now).1

/-- The function throws: `req_service::run_func` replies for it, with the service's name
as it was called rather than that of the context. -/
def jsThrow (P : Runtime) (w : World n) (v : Invocation n) (now : UInt64) : World n :=
  let r := reply P (w.record (.left v.core v.task.call_id .threw)) v.core v.task.req_id
    v.task.call_id v.task.service Outcome.threw.text now
  if r.2 then r.1.finish v now else r.1.leaveBody v

/-- The message of `reply` arrives. Unless `reply` throws, its sender is told, and goes
on with `dispatch`. -/
def deliverReply (P : Runtime) (w : World n) (i sender : Fin n) (req_id call_id : Uuid)
    (service ret : String) (now : UInt64) : World n :=
  let r := reply P w i req_id call_id service ret now
  if r.2 then { r.1 with acks := sender ::ₘ r.1.acks } else r.1

/-- The callback of a call returns to `run_callback`, and `reply` goes on. -/
def callbackDone (w : World n) (i : Fin n) (call_id : Uuid) (service : String)
    (callbacks : Multiset (Uuid × String)) : World n :=
  ((w.onCore i fun k =>
    { k.delReqStates (cbKey service call_id) with callbacks }).record
      (.callbackDone i call_id)).dispatch i

end World

/-! ### The system -/

/-- The steps, with what they take from outside: what a client or a service passes, the
core that is chosen for a call, and the reading of the clock. -/
inductive Label (n : ℕ)
  | newReq (core : Fin n) (req_id : Uuid) (service function args : String) (place : Fin n)
    (now : UInt64)
  | call (caller callee : Uuid) (service function jsargs : String) (place : Fin n)
    (now : UInt64)
  | deliverRun (core prev_cpu : Fin n) (task : Task) (now : UInt64)
  | deliverReply (core sender : Fin n) (req_id call_id : Uuid) (service ret : String)
    (now : UInt64)
  | start (core : Fin n) (task : Task) (now : UInt64)
  | jsReply (call_id : Uuid) (ret : String) (now : UInt64)
  | jsThrow (call_id : Uuid) (now : UInt64)
  | jsReturn (call_id : Uuid) (now : UInt64)
  | callbackDone (core : Fin n) (call_id : Uuid) (service : String)
  | ack (core : Fin n)

open World

/-- The transitions. Messages, tasks, callbacks and JavaScript take their turns in any
order. A label that makes a call brings an id that has not been generated before; apart
from that a step is only asked to have something to work on. -/
inductive Move (P : Runtime) (w : World n) : Label n → World n → Prop
  | newReq (i : Fin n) (req_id : Uuid) (service function args : String) (core : Fin n)
      (now : UInt64) :
      req_id ∉ w.uuids →
      Move P w (.newReq i req_id service function args core now)
        (w.newReq i req_id service function args core now)
  | call (v : Invocation n) (caller callee : Uuid) (service function jsargs : String)
      (core : Fin n) (now : UInt64) :
      w.js caller = some v → callee ∉ w.uuids →
      Move P w (.call caller callee service function jsargs core now)
        (w.callFunction v caller callee service function jsargs core now)
  | deliverRun (i prev_cpu : Fin n) (task : Task) (now : UInt64) (msgs : Multiset (Msg n)) :
      w.msgs = .runFunc i prev_cpu task ::ₘ msgs →
      Move P w (.deliverRun i prev_cpu task now)
        ({ w with msgs }.runFunc i prev_cpu task now)
  | deliverReply (i sender : Fin n) (req_id call_id : Uuid) (service ret : String) (now : UInt64)
      (msgs : Multiset (Msg n)) :
      w.msgs = .reply i sender req_id call_id service ret ::ₘ msgs →
      Move P w (.deliverReply i sender req_id call_id service ret now)
        ({ w with msgs }.deliverReply P i sender req_id call_id service ret now)
  | start (i : Fin n) (task : Task) (now : UInt64) (tasks : Multiset Task) :
      (w.core i).tasks = task ::ₘ tasks →
      Move P w (.start i task now) (w.start P i task tasks now)
  | jsReply (v : Invocation n) (call_id : Uuid) (ret : String) (now : UInt64) :
      w.js call_id = some v →
      Move P w (.jsReply call_id ret now) (w.jsReply P v ret now)
  | jsThrow (v : Invocation n) (call_id : Uuid) (now : UInt64) :
      w.js call_id = some v → v.inBody = true →
      Move P w (.jsThrow call_id now) (w.jsThrow P v now)
  | jsReturn (v : Invocation n) (call_id : Uuid) (now : UInt64) :
      w.js call_id = some v → v.inBody = true →
      Move P w (.jsReturn call_id now) (w.finish v now)
  | callbackDone (i : Fin n) (call_id : Uuid) (service : String)
      (callbacks : Multiset (Uuid × String)) :
      (w.core i).callbacks = (call_id, service) ::ₘ callbacks →
      Move P w (.callbackDone i call_id service) (w.callbackDone i call_id service callbacks)
  | ack (i : Fin n) (acks : Multiset (Fin n)) :
      w.acks = i ::ₘ acks →
      Move P w (.ack i) ({ w with acks }.dispatch i)

/-- The scheduler on `n` cores, with arbitrary services, placements and orders of steps.
Nothing happens any more once a null pointer has been used. -/
def scheduler (P : Runtime) (n : ℕ) : System (World n) (Label n) where
  init w := w = .initial n
  step w l w' := w.crashed = false ∧ Move P w l w'

end Nanoservices
