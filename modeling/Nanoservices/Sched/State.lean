import Mathlib.Data.Finset.Insert
import Mathlib.Data.Finset.Erase
import Mathlib.Data.Multiset.Filter

/-!
# The state of the scheduler

Every core has its own `scheduler` (the maps of calls and callbacks under way) and an
entry of the shared vector `cores` (the queue `q` and the calls that have arrived,
`task_map`); both are one `Core` here, together with what Seastar keeps for the core: the
tasks handed to its reactor and the callbacks in progress. `World` has the cores, the
shared maps, the messages between the cores and the calls' JavaScript.

The `req_map` of a core is keyed by strings, `service + call_id + "reply"` for the reply
states of a call and `service + call_id + "cb"` for its callback. Ids are texts of UUIDs,
which all have 36 characters, so that a key determines its service and its call
(`replyKey_inj`, `cbKey_inj`) and is of one kind (`replyKey_ne_cbKey`).

A `World` also has the log of what happened to the calls. No transition reads it.
-/

namespace Nanoservices

/-- The text of a generated UUID. All that the scheduler relies on is its length, since
it appends ids to names of services without a separator. -/
abbrev Uuid := {s : String // s.length = 36}

/-! ### Keys -/

/-- The key of the reply states of a call. `new_req`, `schedule` and `run_func` make the
entry under this key, each on its own core, and `reply` takes it away. -/
def replyKey (service : String) (call_id : Uuid) : String := service ++ call_id.1 ++ "reply"

/-- The key of the callback of a call, an entry that only the core the call was made on
has. -/
def cbKey (service : String) (call_id : Uuid) : String := service ++ call_id.1 ++ "cb"

/-- Two texts are split at the same place when the second halves are of one length. This
is why a key of `req_map` determines its service and its call although nothing stands
between the two. -/
theorem append_uuid_inj {s s' : String} {c c' : Uuid} (h : s ++ c.1 = s' ++ c'.1) :
    s = s' ∧ c = c' := by
  have hlist : s.toList ++ c.1.toList = s'.toList ++ c'.1.toList := by
    rw [← String.toList_append, ← String.toList_append, h]
  have hlen : c.1.toList.length = c'.1.toList.length := by
    rw [String.length_toList, String.length_toList, c.2, c'.2]
  obtain ⟨hs, hc⟩ := List.append_inj' hlist hlen
  exact ⟨String.toList_inj.1 hs, Subtype.ext (String.toList_inj.1 hc)⟩

theorem append_right_inj' {s s' t : String} (h : s ++ t = s' ++ t) : s = s' := by
  have hlist : s.toList ++ t.toList = s'.toList ++ t.toList := by
    rw [← String.toList_append, ← String.toList_append, h]
  exact String.toList_inj.1 (List.append_cancel_right hlist)

@[simp] theorem replyKey_inj {s s' : String} {c c' : Uuid} :
    replyKey s c = replyKey s' c' ↔ s = s' ∧ c = c' := by
  constructor
  · intro h
    exact append_uuid_inj (append_right_inj' h)
  · rintro ⟨rfl, rfl⟩
    rfl

@[simp] theorem cbKey_inj {s s' : String} {c c' : Uuid} :
    cbKey s c = cbKey s' c' ↔ s = s' ∧ c = c' := by
  constructor
  · intro h
    exact append_uuid_inj (append_right_inj' h)
  · rintro ⟨rfl, rfl⟩
    rfl

/-- A key is of one kind, as the last letters differ: `y` and `b`. -/
@[simp] theorem replyKey_ne_cbKey (s s' : String) (c c' : Uuid) : replyKey s c ≠ cbKey s' c' := by
  intro h
  have hlast := congrArg (fun t => t.toList.getLast?) h
  simp [replyKey, cbKey, String.toList_append, List.getLast?_append] at hlast

@[simp] theorem cbKey_ne_replyKey (s s' : String) (c c' : Uuid) : cbKey s c ≠ replyKey s' c' :=
  (replyKey_ne_cbKey s' s c' c).symm

/-! ### Calls and their states -/

/-- A call: the task `run_func` makes of its arguments. -/
structure Task where
  req_id : Uuid
  call_id : Uuid
  service : String
  function : String
  jsargs : String
  deriving DecidableEq

/-- What an entry of `req_map` points to: a `reply_states` with `local` false, a
`local_reply_states`, or a `callback_states` with the function that was passed to
`Call`, which the call it was passed for names. The map of the source has untyped
pointers; which kind stands under which key is proved, not assumed (`Call.coreView`). -/
inductive ReqStates (n : ℕ)
  | reply (prev_cpuid : Fin n)
  | localReply
  | callback (callee : Uuid)
  deriving DecidableEq

/-- `func_states`: the cost of a function, measured over at most 100 executions. The
widths are those of the source, and `exec_time` is -1 as long as nothing has been
measured. -/
structure FuncStates where
  count : UInt32 := 0
  total_exec_time : UInt64 := 0
  exec_time : Int32 := -1

/-- `wf_states`: the cost of a workflow, measured over at most 1000 replies. It is made
at the first request for the function, when it is also decided whether the workflow is
fused. -/
structure WfStates where
  fuse : Bool := false
  count : UInt32 := 0
  total_exec_time : UInt64 := 0
  exec_time : Int32 := -1

/-- The statistics `run_func` keeps, after one more execution that took `time`. The
quotient is published before the counts are cleared, so that the estimate is never that
of an empty window. -/
def FuncStates.sample (s : FuncStates) (time : UInt64) : FuncStates :=
  let count := s.count + 1
  let total := s.total_exec_time + time
  { count := if 100 ≤ count then 0 else count
    total_exec_time := if 100 ≤ count then 0 else total
    exec_time := (total / count.toUInt64).toUInt32.toInt32 }

/-- The statistics `reply` keeps, after one more reply that took `time`. Here the counts
are cleared before the sample, and not after it as in `FuncStates.sample`. -/
def WfStates.sample (s : WfStates) (time : UInt64) : WfStates :=
  let count := (if s.count = 1000 then 0 else s.count) + 1
  let total := (if s.count = 1000 then 0 else s.total_exec_time) + time
  { s with
    count
    total_exec_time := total
    exec_time := (total / count.toUInt64).toUInt32.toInt32 }

@[simp] theorem WfStates.sample_fuse (s : WfStates) (time : UInt64) :
    (s.sample time).fuse = s.fuse := rfl

/-! ### Cores, messages, the world -/

/-- A core: its `scheduler`, its entry of `cores`, and what its reactor has to do. The
reactor may run its tasks in any order, hence the multisets; `q` is a `std::deque` and
keeps the order in which calls were placed. -/
structure Core (n : ℕ) where
  req_map : String → Option (ReqStates n)
  curr_req : Finset Uuid
  curr_wf : Finset Uuid
  wf_starts : Uuid → Option UInt64
  busy : Bool
  busy_till : UInt64
  q : List Uuid
  task_map : Uuid → Option Task
  /-- The tasks added to the reactor. -/
  tasks : Multiset Task
  /-- The callbacks that have been called and not returned yet, by call and service. -/
  callbacks : Multiset (Uuid × String)

/-- A core after `scheduler::start`: nothing is known and nothing is under way. -/
def Core.initial (n : ℕ) : Core n where
  req_map _ := none
  curr_req := ∅
  curr_wf := ∅
  wf_starts _ := none
  busy := false
  busy_till := 0
  q := []
  task_map _ := none
  tasks := 0
  callbacks := 0

/-- The messages of `invoke_on`, with the core they are sent to. A `reply` also has its
sender, where `dispatch` continues when the message has been handled. -/
inductive Msg (n : ℕ)
  | runFunc (core prev_cpu : Fin n) (task : Task)
  | reply (core sender : Fin n) (req_id call_id : Uuid) (service ret : String)
  deriving DecidableEq

/-- The call a message is about. -/
def Msg.call_id {n : ℕ} : Msg n → Uuid
  | .runFunc _ _ task => task.call_id
  | .reply _ _ _ call_id _ _ => call_id

/-- The JavaScript of a call: its function's body, then the callbacks it left behind. It
is never over, since a callback that is kept somewhere may call `Reply` or `Call` at any
time. -/
structure Invocation (n : ℕ) where
  core : Fin n
  task : Task
  /-- The value of `ServiceName` in the context the function runs in. -/
  serviceName : String
  /-- The function has not returned yet. -/
  inBody : Bool
  start_time : UInt64

/-- How a call was left by its function: with the string it gave to `Reply`, or by an
exception. -/
inductive Outcome
  | returned (ret : String)
  | threw
  deriving DecidableEq

/-- The string that is handed to `scheduler::reply`. Nothing but the text tells an
exception from a reply: a service may well reply `error` itself. -/
def Outcome.text : Outcome → String
  | .returned ret => ret
  | .threw => "error\n"

/-- What happens to calls, as the log records it. There is an event for each change of a
call's stage, and with the core it happens on, so that the log alone says where a call
is. -/
inductive Event (n : ℕ)
  /-- A request was accepted, or a function called `Call`. -/
  | called (core : Fin n) (caller : Option Uuid) (task : Task)
  | placed (core : Fin n) (call_id : Uuid) (fused : Bool)
  | arrived (core : Fin n) (call_id : Uuid)
  | dispatched (core : Fin n) (call_id : Uuid)
  | started (core : Fin n) (call_id : Uuid)
  /-- The function called `Reply`, or threw. -/
  | left (core : Fin n) (call_id : Uuid) (outcome : Outcome)
  /-- `new_req`'s promise was set. -/
  | promiseSet (core : Fin n) (call_id : Uuid) (status : ℤ) (message : String)
  /-- `reply` threw: the string is not JSON with a status and a message. -/
  | unreadable (core : Fin n) (call_id : Uuid)
  /-- The callback was called with these two arguments; `none` is `null`. -/
  | callbackRun (core : Fin n) (call_id : Uuid) (error : Option String) (ret : String)
  | callbackDone (core : Fin n) (call_id : Uuid)
  deriving DecidableEq

/-- The call an event is about. -/
def Event.call_id {n : ℕ} : Event n → Uuid
  | .called _ _ task => task.call_id
  | .placed _ c _ | .arrived _ c | .dispatched _ c | .started _ c | .left _ c _
  | .promiseSet _ c _ _ | .unreadable _ c | .callbackRun _ c _ _ | .callbackDone _ c => c

/-- The state of all cores together, with the maps they share, the messages between
them, the JavaScript of the calls, and the log of what has happened. -/
structure World (n : ℕ) where
  core : Fin n → Core n
  func_map : String → Option FuncStates
  wf_map : String → Option WfStates
  /-- The key in `wf_map` of a request's workflow. -/
  req_wf_map : Uuid → Option String
  msgs : Multiset (Msg n)
  /-- The cores a delivered reply goes back to, where `dispatch` continues. -/
  acks : Multiset (Fin n)
  js : Uuid → Option (Invocation n)
  /-- The UUIDs generated so far. -/
  uuids : Finset Uuid
  log : List (Event n)
  /-- A null pointer was used. -/
  crashed : Bool

namespace World

variable {n : ℕ}

/-- The state after start-up. -/
def initial (n : ℕ) : World n where
  core _ := .initial n
  func_map _ := none
  wf_map _ := none
  req_wf_map _ := none
  msgs := 0
  acks := 0
  js _ := none
  uuids := ∅
  log := []
  crashed := false

/-- Change one core. -/
def onCore (w : World n) (i : Fin n) (f : Core n → Core n) : World n :=
  { w with core := Function.update w.core i (f (w.core i)) }

@[simp] theorem onCore_core_self (w : World n) (i : Fin n) (f : Core n → Core n) :
    (w.onCore i f).core i = f (w.core i) := by
  simp [onCore]

@[simp] theorem onCore_core_of_ne (w : World n) {i j : Fin n} (f : Core n → Core n) (h : j ≠ i) :
    (w.onCore i f).core j = w.core j := by
  simp [onCore, h]

/-- A history variable: no transition reads the log. -/
def record (w : World n) (e : Event n) : World n := { w with log := w.log ++ [e] }

def send (w : World n) (m : Msg n) : World n := { w with msgs := m ::ₘ w.msgs }

def setJs (w : World n) (call_id : Uuid) (v : Invocation n) : World n :=
  { w with js := Function.update w.js call_id (some v) }

def crash (w : World n) : World n := { w with crashed := true }

/-- The workflow states of a request. The two maps are `req_wf_map`, from requests to
workflows, and `wf_map`, from functions to workflows; in the source the first holds
pointers into the second. -/
def wfOf (w : World n) (req_id : Uuid) : Option WfStates := w.req_wf_map req_id >>= w.wf_map

end World

end Nanoservices
