import Nanoservices.Sched.Locality

/-!
# Queued calls are started in the order of the queue

`get_core` puts the id of a call that is not fused into the queue of the core it chose,
on the core it runs on; the call itself gets there later, and calls may overtake each
other on the way. `dispatch` only ever takes the front of the queue, and waits for it.
So what it has handed to the reactor and what is still queued are, in this order, all
that has been put into the queue (`QueueOrdered`): `reply`, which deletes the id of the
call that is over, finds only ids of fused requests there.
-/

namespace Nanoservices

open World Lts TwoCores

variable {n : ℕ} {P : Runtime} {w w' : World n} {c : Uuid}

@[simp] theorem log_onCore (i : Fin n) (f : Core n → Core n) : (w.onCore i f).log = w.log := rfl

@[simp] theorem log_record (e : Event n) : (w.record e).log = w.log ++ [e] := rfl

@[simp] theorem log_getCore (core : Fin n) (exec_time : UInt64) (c : Uuid) (now : UInt64) :
    (w.getCore core exec_time c now).log = w.log := rfl

theorem q_onCore {i : Fin n} {f : Core n → Core n} (j : Fin n)
    (hq : (f (w.core i)).q = (w.core i).q) : ((w.onCore i f).core j).q = (w.core j).q := by
  by_cases hj : j = i
  · subst hj
    rw [onCore_core_self, hq]
  · rw [onCore_core_of_ne _ _ hj]

/-! ### Reading the log -/

/-- A call that is not fused was put into this queue. -/
def Event.pushed (i : Fin n) : Event n → Option Uuid
  | .placed j c false => if j = i then some c else none
  | _ => none

/-- A call was taken from this queue and handed to the reactor. -/
def Event.popped (i : Fin n) : Event n → Option Uuid
  | .dispatched j c => if j = i then some c else none
  | _ => none

/-- A call was started by the reactor of this core. -/
def Event.begun (i : Fin n) : Event n → Option Uuid
  | .started j c => if j = i then some c else none
  | _ => none

/-- The calls that `get_core` put into the queue of core `i` to be dispatched, in order.
-/
def pushes (i : Fin n) (log : List (Event n)) : List Uuid := log.filterMap (Event.pushed i)

/-- The calls that `dispatch` handed to the reactor of core `i`, in order. -/
def pops (i : Fin n) (log : List (Event n)) : List Uuid := log.filterMap (Event.popped i)

/-- The calls that the reactor of core `i` started, in order. -/
def starts (i : Fin n) (log : List (Event n)) : List Uuid := log.filterMap (Event.begun i)

/-- The call is one that has to be dispatched. -/
def isPushed (log : List (Event n)) (c : Uuid) : Bool := log.any fun e => match e with
  | .placed _ c' false => c' = c
  | _ => false

/-- An event that no queue takes part in. -/
def Event.isAside : Event n → Bool
  | .placed .. | .dispatched .. | .started .. => false
  | _ => true

section Record

variable {log : List (Event n)} {e : Event n} {i : Fin n}

theorem Event.pushed_eq_some : e.pushed i = some c ↔ e = .placed i c false := by
  cases e with
  | placed j c' fused => cases fused <;> simp [pushed]
  | _ => simp [pushed]

theorem Event.popped_eq_some : e.popped i = some c ↔ e = .dispatched i c := by
  cases e <;> simp [popped]

theorem Event.begun_eq_some : e.begun i = some c ↔ e = .started i c := by
  cases e <;> simp [begun]

theorem mem_pops : c ∈ pops i log ↔ .dispatched i c ∈ log := by
  simp [pops, Event.popped_eq_some]

theorem mem_starts : c ∈ starts i log ↔ .started i c ∈ log := by
  simp [starts, Event.begun_eq_some]

variable (i)

theorem pushes_append_aside (he : e.isAside) : pushes i (log ++ [e]) = pushes i log := by
  cases e <;> simp_all [pushes, Event.pushed, Event.isAside]

theorem pops_append_aside (he : e.isAside) : pops i (log ++ [e]) = pops i log := by
  cases e <;> simp_all [pops, Event.popped, Event.isAside]

theorem starts_append_aside (he : e.isAside) : starts i (log ++ [e]) = starts i log := by
  cases e <;> simp_all [starts, Event.begun, Event.isAside]

theorem isPushed_append_aside (he : e.isAside) : isPushed (log ++ [e]) = isPushed log := by
  funext c
  cases e <;> simp_all [isPushed, Event.isAside]

theorem isPushed_iff {c : Uuid} : isPushed log c ↔ ∃ j, .placed j c false ∈ log := by
  unfold isPushed
  rw [List.any_eq_true]
  constructor
  · rintro ⟨e, he, hc⟩
    split at hc
    · next j c' =>
      obtain rfl := of_decide_eq_true hc
      exact ⟨j, he⟩
    · cases hc
  · rintro ⟨j, hj⟩
    exact ⟨_, hj, by simp⟩

end Record

/-! ### The queue and the log -/

/-- **The queues and the log say the same.** On each core, what was put into the queue
to be dispatched (`pushes`) is what was handed to the reactor (`pops`) followed by what
is still queued, in this order. The ids of fused requests are in `q` too, for `get_core`
counts every call it places, but they are never dispatched and are filtered out; only
calls that are to be dispatched are parked in `task_map`. `s` has the calls that were
started, by core, and is carried along so that a step can say which one it starts. -/
structure QueueOrdered (s : Fin n → List Uuid) (w : World n) : Prop where
  order : ∀ i, pushes i w.log = pops i w.log ++ (w.core i).q.filter (isPushed w.log)
  parked : ∀ i c task, (w.core i).task_map c = some task → isPushed w.log c
  started : ∀ i, starts i w.log = s i

namespace QueueOrdered

variable {s : Fin n → List Uuid}

/-- The queues are the same, and no more is parked. -/
theorem congr (h : QueueOrdered s w) (hlog : w'.log = w.log)
    (hq : ∀ i, (w'.core i).q = (w.core i).q)
    (hparked : ∀ i c task, (w'.core i).task_map c = some task →
      ∃ task', (w.core i).task_map c = some task') : QueueOrdered s w' where
  order i := by
    rw [hlog, hq i]
    exact h.order i
  parked i c task ht := by
    obtain ⟨task', ht'⟩ := hparked i c task ht
    rw [hlog]
    exact h.parked i c task' ht'
  started i := by
    rw [hlog]
    exact h.started i

/-- One core changes, but not its queue. -/
theorem onCore (h : QueueOrdered s w) {i : Fin n} {f : Core n → Core n}
    (hq : (f (w.core i)).q = (w.core i).q)
    (hparked : (f (w.core i)).task_map = (w.core i).task_map) :
    QueueOrdered s (w.onCore i f) := by
  refine h.congr rfl (fun j => q_onCore j hq) fun j c task ht => ⟨task, ?_⟩
  by_cases hj : j = i
  · subst hj
    rwa [onCore_core_self, hparked] at ht
  · rwa [onCore_core_of_ne _ _ hj] at ht

/-- An event that no queue takes part in is logged. -/
theorem record (h : QueueOrdered s w) {e : Event n} (he : e.isAside) :
    QueueOrdered s (w.record e) where
  order i := by
    rw [World.record, pushes_append_aside i he, pops_append_aside i he, isPushed_append_aside he]
    exact h.order i
  parked i c task ht := by
    rw [World.record, isPushed_append_aside he]
    exact h.parked i c task ht
  started i := by
    rw [World.record, starts_append_aside i he]
    exact h.started i

/-- A call is placed without a queue. -/
theorem record_placed (h : QueueOrdered s w) (i : Fin n) (c : Uuid) :
    QueueOrdered s (w.record (.placed i c true)) where
  order j := by
    have hpushed : isPushed (w.log ++ [.placed i c true]) = isPushed w.log := by
      funext c'
      simp [isPushed]
    simpa [pushes, pops, List.filterMap_cons, Event.pushed, Event.popped, hpushed]
      using h.order j
  parked j c' task ht := by
    simpa [isPushed] using h.parked j c' task ht
  started j := by
    simpa [starts, List.filterMap_cons, Event.begun] using h.started j

/-- The reactor starts a call, which the queues have no part in. -/
theorem record_started (h : QueueOrdered s w) (i : Fin n) (c : Uuid) :
    QueueOrdered (Function.update s i (s i ++ [c])) (w.record (.started i c)) where
  order j := by
    have hpushed : isPushed (w.log ++ [.started i c]) = isPushed w.log := by
      funext c'
      simp [isPushed]
    simpa [pushes, pops, List.filterMap_cons, Event.pushed, Event.popped, hpushed]
      using h.order j
  parked j c' task ht := by
    simpa [isPushed] using h.parked j c' task ht
  started j := by
    rw [← h.started i]
    -- the event is one of this core only
    by_cases hj : j = i
    · subst hj
      simp [starts, Event.begun]
    · simpa [starts, List.filterMap_cons, Event.begun, hj, Ne.symm hj] using h.started j

/-- `get_core` puts a new call at the end of a queue. If the call is fused its id is
passed over by the filter, and nothing is pushed; else the log's new entry is the push.
In both cases the id must be new, or the older calls would be counted differently. -/
theorem placed (h : QueueOrdered s w) (core : Fin n) (exec_time : UInt64) {c : Uuid} (now : UInt64)
    (fuse : Bool) (hq : ∀ i, c ∉ (w.core i).q) (hnew : isPushed w.log c = false) :
    QueueOrdered s ((w.getCore core exec_time c now).record (.placed core c fuse)) := by
  -- neither `task_map` nor, but for the chosen core, `q` changes
  have hparked : ∀ i, ((w.getCore core exec_time c now).core i).task_map = (w.core i).task_map := by
    intro i
    by_cases hi : i = core
    · subst hi
      simp [getCore]
    · simp [getCore, hi]
  have hqueue : ∀ i, ((w.getCore core exec_time c now).core i).q =
      (w.core i).q ++ if i = core then [c] else [] := by
    intro i
    by_cases hi : i = core
    · subst hi
      simp [getCore]
    · simp [getCore, hi]
  cases fuse with
  | true =>
    have hgot : QueueOrdered s (w.getCore core exec_time c now) := by
      refine ⟨fun i => ?_, fun i c' task ht => ?_, h.started⟩
      · -- the id of a fused request is not one to be dispatched
        have hskip : (if i = core then [c] else []).filter (isPushed w.log) = [] := by
          split <;> simp [hnew]
        rw [log_getCore, hqueue, List.filter_append, hskip, List.append_nil]
        exact h.order i
      · exact h.parked i c' task (hparked i ▸ ht)
    exact hgot.record_placed core c
  | false =>
    -- the log's new entry makes this call, and no other, one to be dispatched
    have hpushed : ∀ c', isPushed (w.log ++ [.placed core c false]) c' =
        (isPushed w.log c' || decide (c = c')) := by
      intro c'
      simp [isPushed]
    refine ⟨fun i => ?_, fun i c' task ht => ?_, fun i => ?_⟩
    -- `order`: the id goes to the end of the core's queue and of its pushes
    · have hold : (w.core i).q.filter (isPushed (w.log ++ [.placed core c false])) =
          (w.core i).q.filter (isPushed w.log) := by
        refine List.filter_congr fun c' hc' => ?_
        have hne : c ≠ c' := by
          rintro rfl
          exact hq i hc'
        simp [hpushed, hne]
      have hlast : (if i = core then [c] else []).filter
          (isPushed (w.log ++ [.placed core c false])) = if i = core then [c] else [] := by
        split <;> simp [hpushed]
      have horder := h.order i
      rw [log_record, log_getCore, core_record, hqueue, List.filter_append, hlast, hold,
        ← List.append_assoc]
      by_cases hi : i = core
      · subst hi
        simpa [pushes, pops, List.filterMap_cons, Event.pushed, Event.popped]
          using congrArg (· ++ [c]) horder
      · simpa [pushes, pops, List.filterMap_cons, Event.pushed, Event.popped, hi, Ne.symm hi]
          using horder
    -- `parked`
    · rw [log_record, log_getCore, hpushed, h.parked i c' task (hparked i ▸ ht)]
      rfl
    -- `started`
    · simpa [starts, List.filterMap_cons, Event.begun] using h.started i

/-- `dispatch` takes the front of the queue, which is parked and so is one to be
dispatched: the first that is still queued becomes the last that was handed over. -/
theorem dispatch (h : QueueOrdered s w) (i : Fin n) : QueueOrdered s (w.dispatch i) := by
  by_cases hd : Dispatchable w i
  · obtain ⟨c, rest, task, hq, ht, hwf⟩ := hd
    have hfront := h.parked i c task ht
    have hpushed : isPushed (w.log ++ [.dispatched i c]) = isPushed w.log := by
      funext c'
      simp [isPushed]
    rw [dispatch_of_front hq ht hwf, popFront]
    refine ⟨fun j => ?_, fun j c' task' ht' => ?_, fun j => ?_⟩
    -- the front moves from the queue to the end of the pops
    · have horder := h.order j
      by_cases hj : j = i
      · subst hj
        rw [hq, List.filter_cons_of_pos hfront] at horder
        simpa [pushes, pops, List.filterMap_cons, Event.pushed, Event.popped,
          hpushed] using horder
      · simpa [pushes, pops, List.filterMap_cons, Event.pushed, Event.popped,
          hpushed, hj, Ne.symm hj] using horder
    -- what is parked from now on was parked before
    · rw [log_record, log_onCore, hpushed]
      refine h.parked j c' task' ?_
      by_cases hj : j = i
      · subst hj
        by_cases hc : c' = c
        · subst hc
          simp at ht'
        · simpa [hc] using ht'
      · simpa [hj] using ht'
    · simpa [starts, List.filterMap_cons, Event.begun] using h.started j
  · rwa [dispatch_of_not hd]

/-- `reply` deletes the id of the call that is over from the middle of the queue. The
order survives, as the id is not one to be dispatched, or is not in the queue: what is
erased is filtered out anyway. -/
theorem retire (h : QueueOrdered s w) {i : Fin n} {call_id : Uuid}
    (hc : call_id ∈ (w.core i).q → isPushed w.log call_id = false) (service : String)
    (now : UInt64) : QueueOrdered s (w.retire i call_id service now) := by
  refine ⟨fun j => ?_, fun j c task ht => ?_, h.started⟩
  · by_cases hj : j = i
    · subst hj
      -- what is taken out of the queue was not put there by this core
      have hsame : ((w.core j).q.erase call_id).filter (isPushed w.log) =
          (w.core j).q.filter (isPushed w.log) := by
        rw [← List.erase_filter, List.erase_of_not_mem]
        rw [List.mem_filter]
        rintro ⟨hmem, hpushed⟩
        simp [hc hmem] at hpushed
      have hq : ((w.retire j call_id service now).core j).q = (w.core j).q.erase call_id := by
        simp [World.retire, Core.retire]
      rw [hq]
      exact (h.order j).trans (congrArg _ hsame.symm)
    · have hq : ((w.retire i call_id service now).core j).q = (w.core j).q := by
        simp [World.retire, hj]
      rw [hq]
      exact h.order j
  · rw [retire_task_map] at ht
    exact h.parked j c task ht

/-- Nothing changes on the cores. -/
theorem of_core (h : QueueOrdered s w) (hlog : w'.log = w.log) (hcore : w'.core = w.core) :
    QueueOrdered s w' := by
  refine h.congr hlog (fun i => by rw [hcore]) fun i c task ht => ⟨task, ?_⟩
  rwa [hcore] at ht

/-- `schedule` and `run_func` begin with the states of the call and of its function. -/
theorem ensured (h : QueueOrdered s w) (i prev_cpu : Fin n) (task : Task) :
    QueueOrdered s ((w.onCore i fun k => k.ensureReplyStates
      (replyKey task.service task.call_id) prev_cpu).ensureFuncStates
        (task.service ++ task.function)) := by
  have hreply : QueueOrdered s (w.onCore i fun k =>
      k.ensureReplyStates (replyKey task.service task.call_id) prev_cpu) := by
    refine h.onCore ?_ ?_
    all_goals
      unfold Core.ensureReplyStates
      split <;> rfl
  exact hreply.of_core (log_ensureFuncStates _) (core_ensureFuncStates _)

/-- A call arrives on its core and is added to the reactor, or parked in `task_map`. It
was queued when it was placed, so no queue changes now; if it is parked, it must be one
to be dispatched. -/
theorem arrive (h : QueueOrdered s w) (i prev_cpu : Fin n) (task : Task) (fuse : Bool)
    (now : UInt64) (hc : fuse = false → isPushed w.log task.call_id) :
    QueueOrdered s (w.arrive i prev_cpu task fuse now) := by
  have hready := h.ensured i prev_cpu task
  have hpushed : fuse = false → isPushed ((w.onCore i fun k => k.ensureReplyStates
      (replyKey task.service task.call_id) prev_cpu).ensureFuncStates
        (task.service ++ task.function)).log task.call_id := by
    rw [log_ensureFuncStates]
    exact hc
  rw [World.arrive, World.receive]
  generalize (w.onCore i fun k => k.ensureReplyStates (replyKey task.service task.call_id)
    prev_cpu).ensureFuncStates (task.service ++ task.function) = w₁ at hready hpushed
  have hreceived : QueueOrdered s (w₁.onCore i fun k => k.receive task fuse now) := by
    refine ⟨fun j => ?_, fun j c task' ht => ?_, hready.started⟩
    -- `order`: nothing is queued here
    · by_cases hj : j = i
      · subst hj
        have hq : ((w₁.core j).receive task fuse now).q = (w₁.core j).q := by
          unfold Core.receive
          cases fuse <;> by_cases hroot : task.req_id = task.call_id <;> simp [hroot]
        rw [onCore_core_self, hq]
        exact hready.order j
      · rw [onCore_core_of_ne _ _ hj]
        exact hready.order j
    -- `parked`: the task itself, if it is not fused, and those that were there
    · by_cases hj : j = i
      · subst hj
        rw [onCore_core_self] at ht
        unfold Core.receive at ht
        cases fuse with
        | true =>
          refine hready.parked j c task' ?_
          by_cases hroot : task.req_id = task.call_id <;> simpa [hroot] using ht
        | false =>
          by_cases hcall : c = task.call_id
          · rw [hcall]
            exact hpushed rfl
          · refine hready.parked j c task' ?_
            by_cases hroot : task.req_id = task.call_id <;> simpa [hroot, hcall] using ht
      · rw [onCore_core_of_ne _ _ hj] at ht
        exact hready.parked j c task' ht
  exact hreceived.record rfl

/-- `run_func`: the call arrives, and what is at the front of the queue is
dispatched. -/
theorem runFunc (h : QueueOrdered s w) (i prev_cpu : Fin n) (task : Task) (now : UInt64)
    (hc : w.fuseOf task.req_id = some false → isPushed w.log task.call_id) :
    QueueOrdered s (w.runFunc i prev_cpu task now) := by
  cases hfuse : w.fuseOf task.req_id with
  | some fuse =>
    rw [runFunc_eq hfuse]
    refine (h.arrive i prev_cpu task fuse now fun hf => hc ?_).dispatch i
    rw [hfuse, hf]
  | none =>
    -- the program ends
    have hnone : ((w.onCore i fun k => k.ensureReplyStates
        (replyKey task.service task.call_id) prev_cpu).ensureFuncStates
          (task.service ++ task.function)).wfOf task.req_id = none := by
      have hsame := (fuseOf_ensureFuncStates (w := w.onCore i fun k => k.ensureReplyStates
        (replyKey task.service task.call_id) prev_cpu) (task.service ++ task.function)
        task.req_id).trans hfuse
      exact Option.map_eq_none_iff.1 hsame
    unfold World.runFunc
    simp only [hnone]
    exact (h.ensured i prev_cpu task).of_core rfl rfl

/-- **A new call is scheduled.** The states of the call and of its function are
prepared, which touches no queue; then the call is placed in one of three ways
(`place_cases`). -/
theorem schedule (h : QueueOrdered s w) (i prev_cpu : Fin n) (task : Task) (core : Fin n)
    (now : UInt64) (hq : ∀ j, task.call_id ∉ (w.core j).q)
    (hnew : isPushed w.log task.call_id = false) :
    QueueOrdered s (w.schedule i prev_cpu task core now) := by
  have hprepared : QueueOrdered s (w.prepare i prev_cpu task) := by
    rw [prepare]
    split
    · exact (h.ensured i prev_cpu task).of_core rfl rfl
    · exact h.ensured i prev_cpu task
  have hq' : ∀ j, task.call_id ∉ ((w.prepare i prev_cpu task).core j).q := by
    intro j
    have hsame : ((w.prepare i prev_cpu task).core j).q = (w.core j).q := by
      have hcore : (w.prepare i prev_cpu task).core = (w.onCore i fun k => k.ensureReplyStates
          (replyKey task.service task.call_id) prev_cpu).core := by
        rw [prepare]
        split <;> exact core_ensureFuncStates _
      rw [hcore]
      by_cases hj : j = i
      · subst hj
        rw [onCore_core_self, Core.ensureReplyStates]
        split <;> rfl
      · rw [onCore_core_of_ne _ _ hj]
    rw [hsame]
    exact hq j
  have hnew' : isPushed (w.prepare i prev_cpu task).log task.call_id = false := by
    rwa [log_prepare]
  unfold World.schedule
  generalize w.prepare i prev_cpu task = w₁ at hprepared hq' hnew'
  rcases place_cases w₁ i prev_cpu task core now with
    ⟨hfuse, -, hplace⟩ | ⟨fuse, exec_time, hfuse, -, hplace⟩ | ⟨-, hplace⟩
  -- placed with the request's fused calls: it is not pushed on the queue
  · rw [hplace]
    refine (hprepared.record_placed i task.call_id).runFunc i prev_cpu task now fun hnot => ?_
    rw [show (w₁.record _).fuseOf task.req_id = w₁.fuseOf task.req_id from rfl, hfuse] at hnot
    cases hnot
  -- placed by the policy, on this core or on another
  · have hplaced := hprepared.placed core exec_time now fuse hq' hnew'
    rw [hplace]
    split
    · refine hplaced.runFunc i prev_cpu task now fun hnot => ?_
      rw [show ((w₁.getCore _ _ _ _).record _).fuseOf task.req_id = w₁.fuseOf task.req_id from rfl,
        hfuse] at hnot
      obtain rfl := Option.some.inj hnot
      rw [isPushed_iff]
      exact ⟨core, by simp⟩
    · exact hplaced.of_core rfl rfl
  -- no core is found
  · rw [hplace]
    exact hprepared.of_core rfl rfl

/-- The message that the answer of a call on another core takes home leaves the queues
alone. -/
theorem replyRemote (h : QueueOrdered s w) (i prev_cpu : Fin n) (req_id call_id : Uuid)
    (service ret : String) (now : UInt64) :
    QueueOrdered s (w.replyRemote i prev_cpu req_id call_id service ret now) := by
  unfold World.replyRemote
  -- statistics and workflows change, the queue does not
  split
  · next func states hfunc hstates =>
    let time := now - ((w.core i).wf_starts req_id).getD 0
    have hsampled : QueueOrdered s { w with
        wf_map := Function.update w.wf_map func (some (states.sample time)) } :=
      h.of_core rfl rfl
    have hleft := hsampled.onCore (i := i) (f := fun k => k.leaveWf req_id states.fuse) rfl rfl
    exact hleft.of_core rfl rfl
  · exact h.of_core rfl rfl

/-- `reply` for a call that is not one to be dispatched any more. The id of the call is
erased first; then a local request is answered and the next one dispatched, a callback
is run, or a message is sent. -/
theorem reply (h : QueueOrdered s w) (i : Fin n) (call_id : Uuid)
    (hc : call_id ∈ (w.core i).q → isPushed w.log call_id = false) (req_id : Uuid)
    (service ret : String) (now : UInt64) :
    QueueOrdered s (World.reply P w i req_id call_id service ret now).1 := by
  have hretired := h.retire hc service now
  -- what follows `retire` leaves the queue as it is, up to `dispatch`
  cases hs : (w.core i).req_map (replyKey service call_id) with
  | none =>
    simp only [World.reply, hs]
    exact hretired.of_core rfl rfl
  | some states =>
    cases states with
    | callback callee =>
      simp only [World.reply, hs]
      exact hretired.of_core rfl rfl
    | localReply =>
      cases hjson : P.readJson ret with
      | none =>
        simp only [World.reply, hs, hjson]
        exact hretired.record rfl
      | some res =>
        simp only [World.reply, hs, hjson]
        refine QueueOrdered.dispatch (QueueOrdered.onCore (hretired.record ?_) ?_ ?_) i <;> rfl
    | reply prev_cpu =>
      by_cases hprev : prev_cpu = i
      · simp only [World.reply, hs, hprev, if_true, runCallback]
        split
        · refine QueueOrdered.record (hretired.onCore ?_ ?_) ?_ <;> rfl
        · exact hretired.of_core rfl rfl
      · simp only [World.reply, hs, hprev, if_false]
        exact hretired.replyRemote i prev_cpu req_id call_id service ret now

end QueueOrdered

/-! ### Steps -/

section Pushed

variable {k : Call n}

/-- Only a call that is not fused waits to be dispatched. -/
theorem Accounted.pushed_iff (h : Accounted P w) (hk : w.call c = some k) :
    isPushed w.log c ↔ k.fused = false ∧ k.stage ≠ .placing := by
  obtain rfl := (h.sound c k hk).call_id
  rw [isPushed_iff]
  constructor
  · rintro ⟨j, hj⟩
    obtain ⟨-, hfused, hplaced⟩ := (k.mem_events_placed P _ _).1 ((h.mem_log hk rfl).1 hj)
    exact ⟨hfused.symm, hplaced⟩
  · rintro ⟨hfused, hplaced⟩
    have hevent := (k.mem_events_placed P k.place false).2 ⟨rfl, hfused.symm, hplaced⟩
    exact ⟨k.place, (h.mem_log hk rfl).2 hevent⟩

/-- An id is only in the queue of the core its call was placed on, and only until the
call is over. -/
theorem Accounted.inQueue_of_mem (h : Accounted P w) (hk : w.call c = some k) {i : Fin n}
    (hc : c ∈ (w.core i).q) : i = k.place ∧ k.inQueue := by
  have hcount := congrArg CoreView.queued (h.core hk i)
  by_contra hnot
  rw [show (k.coreView i).queued = 0 from if_neg hnot] at hcount
  exact List.count_eq_zero.1 hcount hc

/-- A call that has been started has left the queue, unless it is fused. -/
theorem Accounted.not_pushed_of_started (h : Accounted P w) (hk : w.call c = some k)
    (hstarted : k.stage.hasStarted) {i : Fin n} (hc : c ∈ (w.core i).q) :
    isPushed w.log c = false := by
  obtain ⟨-, hqueue⟩ := h.inQueue_of_mem hk hc
  rw [Bool.eq_false_iff, ne_eq, h.pushed_iff hk]
  rintro ⟨hfused, -⟩
  unfold Call.inQueue at hqueue
  cases hstage : k.stage <;> simp_all

/-- An id that has not been drawn yet was never pushed. -/
theorem Accounted.not_pushed_of_fresh (h : Accounted P w) (hc : c ∉ w.uuids) :
    isPushed w.log c = false := by
  rw [Bool.eq_false_iff, ne_eq, isPushed_iff]
  rintro ⟨j, hj⟩
  obtain ⟨k, hk, -⟩ := h.call_of_mem hj
  rw [Event.call_id, h.call_of_fresh hc] at hk
  cases hk

theorem Accounted.not_queued_of_fresh (h : Accounted P w) (hc : c ∉ w.uuids) (i : Fin n) :
    c ∉ (w.core i).q :=
  List.count_eq_zero.1 (congrArg CoreView.queued (h.core_of_fresh hc i))

end Pushed

/-- The calls that were started, after one more step. -/
def Label.addStart (s : Fin n → List Uuid) : Label n → Fin n → List Uuid
  | .start i task _ => Function.update s i (s i ++ [task.call_id])
  | _ => s

/-- **A step keeps the queues and the log together.** The bookkeeping of the calls
(`InOrder`) gives what the operations ask for: a new id is in no queue, a call that
arrives was pushed unless it is fused, and a call that is answered has been started, and
so has left the queue or is fused. -/
theorem QueueOrdered.step {s : Fin n → List Uuid} (hq : QueueOrdered s w) (h : InOrder P w)
    {l : Label n} (hs : Move P w l w') : QueueOrdered (l.addStart s) w' := by
  have ha := h.accounted
  cases hs with
  | newReq i req_id service function args core now hfresh =>
    -- the id is drawn from the fresh ones, so that it is on no queue and was never pushed
    have hknown : QueueOrdered s { w with uuids := insert req_id w.uuids } := hq.of_core rfl rfl
    have hset := hknown.onCore (i := i)
      (f := fun k => k.setReqStates (replyKey service req_id) .localReply) rfl rfl
    have hcalled := hset.record (e := .called i none ⟨req_id, req_id, service, function, args⟩) rfl
    refine hcalled.schedule i i ⟨req_id, req_id, service, function, args⟩ core now (fun j => ?_) ?_
    · rw [core_record, q_onCore _ rfl]
      exact ha.not_queued_of_fresh hfresh j
    · rw [log_record, isPushed_append_aside rfl]
      exact ha.not_pushed_of_fresh hfresh
  | call v caller callee service function jsargs core now hv hfresh =>
    have hknown : QueueOrdered s { w with uuids := insert callee w.uuids } := hq.of_core rfl rfl
    have hset := hknown.onCore (i := v.core)
      (f := fun k => k.setReqStates (cbKey service callee) (.callback callee)) rfl rfl
    have hcalled := hset.record
      (e := .called v.core (some caller) ⟨v.task.req_id, callee, service, function, jsargs⟩) rfl
    refine hcalled.schedule v.core v.core ⟨v.task.req_id, callee, service, function, jsargs⟩ core
      now (fun j => ?_) ?_
    · rw [core_record, q_onCore _ rfl]
      exact ha.not_queued_of_fresh hfresh j
    · rw [log_record, isPushed_append_aside rfl]
      exact ha.not_pushed_of_fresh hfresh
  | deliverRun i prev_cpu task now msgs hm =>
    -- a call under way that is not fused has been pushed when it was placed
    have htaken : QueueOrdered s { w with msgs } := hq.of_core rfl rfl
    refine htaken.runFunc i prev_cpu task now fun hnot => ?_
    have hmem : .runFunc i prev_cpu task ∈ w.msgs := hm ▸ Multiset.mem_cons_self _ _
    obtain ⟨k, hk, hsent, -, -, htask⟩ := ha.call_of_runFunc hmem
    have hplaced : k.stage ≠ .placing := by simp [hsent]
    have hfuse := (ha.sound _ k hk).fuse hplaced
    rw [htask] at hfuse
    exact (ha.pushed_iff hk).2 ⟨Option.some.inj (hfuse.symm.trans hnot), hplaced⟩
  | deliverReply i sender req_id call_id service ret now msgs hm =>
    have htaken : QueueOrdered s { w with msgs } := hq.of_core rfl rfl
    have hmem : .reply i sender req_id call_id service ret ∈ w.msgs :=
      hm ▸ Multiset.mem_cons_self _ _
    -- an answered call has been started
    obtain ⟨k, o, hk, hstage, -⟩ := ha.call_of_reply hmem
    have hreplied := htaken.reply (P := P) i call_id
      (ha.not_pushed_of_started hk (by simp [hstage])) req_id service ret now
    rw [World.deliverReply]
    split
    · exact hreplied.of_core rfl rfl
    · exact hreplied
  | start i task now tasks ht =>
    have htaken := hq.onCore (i := i) (f := fun k => { k with tasks }) rfl rfl
    exact (htaken.record_started i task.call_id).of_core rfl rfl
  | jsReply v call_id ret now hv =>
    obtain ⟨k, hk, hstarted, -, htask, -⟩ := ha.call_of_js hv
    have hid := (ha.sound _ k hk).call_id
    refine (hq.record (e := .left v.core v.task.call_id (.returned ret)) rfl).reply v.core
      v.task.call_id (fun hc => ?_) _ _ ret now
    rw [log_record, isPushed_append_aside rfl]
    rw [htask, hid] at hc ⊢
    exact ha.not_pushed_of_started hk hstarted hc
  | jsThrow v call_id now hv hbody =>
    obtain ⟨k, hk, hstarted, -, htask, -⟩ := ha.call_of_js hv
    have hid := (ha.sound _ k hk).call_id
    have hreplied := (hq.record (e := .left v.core v.task.call_id .threw) rfl).reply (P := P)
      v.core v.task.call_id (fun hc => by
        rw [log_record, isPushed_append_aside rfl]
        rw [htask, hid] at hc ⊢
        exact ha.not_pushed_of_started hk hstarted hc)
      v.task.req_id v.task.service Outcome.threw.text now
    rw [World.jsThrow]
    split <;> exact hreplied.of_core rfl rfl
  | jsReturn v call_id now hv hbody => exact hq.of_core rfl rfl
  | callbackDone i call_id service callbacks hc =>
    have hdone := hq.onCore (i := i)
      (f := fun k => { k.delReqStates (cbKey service call_id) with callbacks }) rfl rfl
    exact (hdone.record (e := .callbackDone i call_id) rfl).dispatch i
  | ack i acks hi =>
    have htaken : QueueOrdered s { w with acks } := hq.of_core rfl rfl
    exact htaken.dispatch i

/-! ### No call is handed over beside a fused workflow -/

/-- A call that has been handed over since `w` was handed over without a fused workflow.
-/
def HandsAlone (w w' : World n) : Prop :=
  ∀ i c, c ∈ pops i w'.log → c ∉ pops i w.log → (w'.core i).curr_wf = ∅

namespace HandsAlone

variable {w₁ : World n}

theorem of_pops (h : ∀ i, pops i w'.log = pops i w.log) : HandsAlone w w' := by
  intro i c hc hnot
  rw [h i] at hc
  exact absurd hc hnot

theorem congr (h : HandsAlone w w₁) (hcore : w'.core = w₁.core) (hlog : w'.log = w₁.log) :
    HandsAlone w w' := by
  unfold HandsAlone
  rw [hcore, hlog]
  exact h

theorem dispatch (h : ∀ i, pops i w₁.log = pops i w.log) (i : Fin n) :
    HandsAlone w (w₁.dispatch i) := by
  -- the front is handed over, while `curr_wf` is empty, or nothing is
  by_cases hd : Dispatchable w₁ i
  · obtain ⟨c, rest, task, hq, ht, hwf⟩ := hd
    rw [dispatch_of_front hq ht hwf, popFront]
    intro j c' hc' hnot
    by_cases hj : j = i
    · subst hj
      simpa using hwf
    · refine absurd ?_ hnot
      rw [← h j]
      simpa [pops, List.filterMap_cons, Event.popped, Ne.symm hj] using hc'
  · rw [dispatch_of_not hd]
    exact of_pops h

theorem runFunc (h : ∀ i, pops i w₁.log = pops i w.log) (i prev_cpu : Fin n) (task : Task)
    (now : UInt64) : HandsAlone w (w₁.runFunc i prev_cpu task now) := by
  have hlog := log_ensureFuncStates (w := w₁.onCore i fun k =>
    k.ensureReplyStates (replyKey task.service task.call_id) prev_cpu)
    (task.service ++ task.function)
  unfold World.runFunc
  dsimp only
  split
  · refine of_pops fun j => ?_
    exact (congrArg (pops j) hlog).trans (h j)
  -- receiving a call hands over nothing; the `dispatch` behind it may
  · refine .dispatch (fun j => ?_) i
    rw [World.receive, log_record, pops_append_aside j rfl]
    exact (congrArg (pops j) hlog).trans (h j)

theorem schedule (h : ∀ i, pops i w₁.log = pops i w.log) (i prev_cpu : Fin n) (task : Task)
    (core : Fin n) (now : UInt64) : HandsAlone w (w₁.schedule i prev_cpu task core now) := by
  have hplaced : ∀ j fuse, ∀ w₂ : World n, w₂.log = w₁.log →
      ∀ i, pops i (w₂.record (.placed j task.call_id fuse)).log = pops i w.log := by
    intro j fuse w₂ hlog i
    rw [log_record, hlog, ← h i]
    simp [pops, Event.popped]
  unfold World.schedule
  -- placing hands over nothing; where the call is received here, `run_func` does
  rcases place_cases (w₁.prepare i prev_cpu task) i prev_cpu task core now with
    ⟨-, -, hplace⟩ | ⟨fuse, exec_time, -, -, hplace⟩ | ⟨-, hplace⟩
  · rw [hplace]
    exact runFunc (hplaced i true _ log_prepare) i prev_cpu task now
  · rw [hplace]
    have hput := hplaced core fuse ((w₁.prepare i prev_cpu task).getCore core exec_time
      task.call_id now) (by rw [log_getCore, log_prepare])
    split
    · exact runFunc hput i prev_cpu task now
    · exact of_pops hput
  · rw [hplace]
    exact of_pops fun j => (congrArg (pops j) log_prepare).trans (h j)

theorem reply (h : ∀ i, pops i w₁.log = pops i w.log) (i : Fin n) (req_id call_id : Uuid)
    (service ret : String) (now : UInt64) :
    HandsAlone w (World.reply P w₁ i req_id call_id service ret now).1 := by
  have hlog : (w₁.retire i call_id service now).log = w₁.log := rfl
  -- answers hand over nothing, and `dispatch` comes last
  cases hs : (w₁.core i).req_map (replyKey service call_id) with
  | none =>
    simp only [World.reply, hs]
    exact of_pops h
  | some states =>
    cases states with
    | callback callee =>
      simp only [World.reply, hs]
      exact of_pops h
    | localReply =>
      cases hjson : P.readJson ret with
      | none =>
        simp only [World.reply, hs, hjson]
        exact of_pops fun j => (pops_append_aside j rfl).trans (h j)
      | some res =>
        simp only [World.reply, hs, hjson]
        exact .dispatch (fun j => (pops_append_aside j rfl).trans (h j)) i
    | reply prev_cpu =>
      by_cases hprev : prev_cpu = i
      · simp only [World.reply, hs, hprev, if_true, runCallback]
        split
        · exact of_pops fun j => (pops_append_aside j rfl).trans (h j)
        · exact of_pops h
      · simp only [World.reply, hs, hprev, if_false, replyRemote]
        split <;> exact of_pops h

end HandsAlone

/-- **A step hands over only beside no fused workflow.** -/
theorem handsAlone_of_step {l : Label n} (hs : Move P w l w') : HandsAlone w w' := by
  cases hs with
  -- announcing a call hands over nothing
  | newReq i req_id service function args core now hfresh =>
    exact .schedule (fun j => pops_append_aside j rfl) i i _ core now
  | call v caller callee service function jsargs core now hv hfresh =>
    exact .schedule (fun j => pops_append_aside j rfl) v.core v.core _ core now
  | deliverRun i prev_cpu task now msgs hm => exact .runFunc (fun _ => rfl) i prev_cpu task now
  | deliverReply i sender req_id call_id service ret now msgs hm =>
    have hreply : HandsAlone w (World.reply P { w with msgs } i req_id call_id service ret now).1 :=
      .reply (fun _ => rfl) i req_id call_id service ret now
    rw [World.deliverReply]
    split <;> exact hreply.congr rfl rfl
  -- neither does starting one
  | start i task now tasks ht =>
    refine .of_pops fun j => ?_
    show pops j (w.log ++ [_]) = _
    simp [pops, Event.popped]
  | jsReply v call_id ret now hv =>
    exact .reply (fun j => pops_append_aside j rfl) v.core _ _ _ ret now
  | jsThrow v call_id now hv hbody =>
    have hreply : HandsAlone w (World.reply P (w.record (.left v.core v.task.call_id .threw)) v.core
        v.task.req_id v.task.call_id v.task.service Outcome.threw.text now).1 :=
      .reply (fun j => pops_append_aside j rfl) v.core _ _ _ _ now
    rw [World.jsThrow]
    split <;> exact hreply.congr rfl rfl
  | jsReturn v call_id now hv hbody => exact .of_pops fun _ => rfl
  | callbackDone i call_id service callbacks hc =>
    exact .dispatch (fun j => pops_append_aside j rfl) i
  | ack i acks hi => exact .dispatch (fun _ => rfl) i

/-! ### Every event happens once -/

/-- A call has each of its events once. The cases are the stages of the call, and the
events of a later stage begin with those of an earlier one. -/
theorem Call.nodup_events (k : Call n) (P : Runtime) : (k.events P).Nodup := by
  have hready : k.eventsToReady.Nodup := by
    unfold Call.eventsToReady
    split <;> simp
  have hend : ∀ o, k.rootEnd P o ∉ k.eventsToLeft o := by
    intro o
    unfold Call.rootEnd Call.eventsToLeft Call.eventsToReady
    split <;> split <;> simp
  have hlater : ∀ o, (k.eventsToLeft o).Nodup ∧
      Event.callbackRun k.origin k.task.call_id none o.text ∉ k.eventsToLeft o ∧
      Event.callbackDone k.origin k.task.call_id ∉ k.eventsToLeft o := by
    intro o
    unfold Call.eventsToLeft Call.eventsToReady
    split <;> simp
  -- each stage adds an event that is not among those before it
  cases hstage : k.stage with
  | placing | sent | waiting => simp [Call.events, hstage]
  | ready => simpa [Call.events, hstage] using hready
  | running =>
    have hnew : Event.started k.place k.task.call_id ∉ k.eventsToReady := by
      unfold Call.eventsToReady
      split <;> simp
    simpa [Call.events, hstage, List.nodup_append, hready] using
      fun e he => ne_of_mem_of_not_mem he hnew
  | returning o => simpa [Call.events, hstage] using (hlater o).1
  | answering o =>
    simpa [Call.events, hstage, List.nodup_append, (hlater o).1]
      using fun e he => ne_of_mem_of_not_mem he (hlater o).2.1
  | closed o =>
    obtain ⟨hleft, hrun, hdone⟩ := hlater o
    cases hcaller : k.caller with
    | none =>
      simpa [Call.events, hstage, hcaller, List.nodup_append, hleft]
        using fun e he => ne_of_mem_of_not_mem he (hend o)
    | some p =>
      simpa [Call.events, hstage, hcaller, List.nodup_append, hleft]
        using fun e he => ⟨ne_of_mem_of_not_mem he hrun, ne_of_mem_of_not_mem he hdone⟩

/-- The log has no event twice: the events of a call are counted by its stage, and a
call has each of its events once. -/
theorem Accounted.nodup_log (h : Accounted P w) : w.log.Nodup := by
  rw [List.nodup_iff_count_le_one]
  intro e
  by_cases he : e ∈ w.log
  · obtain ⟨k, hk, -⟩ := h.call_of_mem he
    rw [h.count_log hk rfl]
    exact List.nodup_iff_count_le_one.1 (k.nodup_events P) e
  · rw [List.count_eq_zero.2 he]
    exact Nat.zero_le 1

/-- No call is put into a queue twice. -/
theorem nodup_pushes {log : List (Event n)} (h : log.Nodup) (i : Fin n) :
    (pushes i log).Nodup := by
  refine h.filterMap fun e e' c he he' => ?_
  rw [Option.mem_def, Event.pushed_eq_some] at he he'
  rw [he, he']

/-- No call is handed over twice. -/
theorem nodup_pops {log : List (Event n)} (h : log.Nodup) (i : Fin n) : (pops i log).Nodup := by
  refine h.filterMap fun e e' c he he' => ?_
  rw [Option.mem_def, Event.popped_eq_some] at he he'
  rw [he, he']

/-- No call is started twice. -/
theorem nodup_starts {log : List (Event n)} (h : log.Nodup) (i : Fin n) :
    (starts i log).Nodup := by
  refine h.filterMap fun e e' c he he' => ?_
  rw [Option.mem_def, Event.begun_eq_some] at he he'
  rw [he, he']

/-! ### The order of the starts -/

/-- Only what was pushed is handed over. -/
theorem Accounted.isPushed_of_mem_pops (h : Accounted P w) {i : Fin n} (hc : c ∈ pops i w.log) :
    isPushed w.log c := by
  obtain ⟨k, hk, hmem⟩ := h.call_of_mem (mem_pops.1 hc)
  obtain rfl := (h.sound _ k hk).call_id
  obtain ⟨-, hfused, hstage⟩ := (k.mem_events_dispatched P _).1 hmem
  refine (h.pushed_iff hk).2 ⟨hfused, fun hplacing => ?_⟩
  simp [hplacing] at hstage

/-- A call is started once it has been handed over, unless it is fused. -/
theorem Accounted.mem_pops_of_started (h : Accounted P w) {i : Fin n} (hc : c ∈ starts i w.log)
    (hpushed : isPushed w.log c) : c ∈ pops i w.log := by
  obtain ⟨k, hk, hmem⟩ := h.call_of_mem (mem_starts.1 hc)
  obtain rfl := (h.sound _ k hk).call_id
  obtain ⟨rfl, hstarted⟩ := (k.mem_events_started P _).1 hmem
  have hevent := (k.mem_events_dispatched P k.place).2
    ⟨rfl, ((h.pushed_iff hk).1 hpushed).1, .inr hstarted⟩
  exact mem_pops.2 ((h.mem_log hk (e := .dispatched _ _) rfl).2 hevent)

/-- Whether a call that has been started is fused does not change: it is settled when
the call is placed. -/
theorem InOrder.isPushed_of_step (h : InOrder P w) {l : Label n} (hs : Move P w l w')
    {i : Fin n} (hc : c ∈ starts i w.log) : isPushed w'.log c = isPushed w.log c := by
  obtain ⟨k, hk, hmem⟩ : ∃ k, w.call c = some k ∧ _ := h.accounted.call_of_mem (mem_starts.1 hc)
  obtain rfl := (h.accounted.sound _ k hk).call_id
  obtain ⟨-, hstarted⟩ := (k.mem_events_started P _).1 hmem
  have hplaced : k.stage ≠ .placing := by
    intro hstage
    simp [hstage] at hstarted
  -- a step that crashes logs that a call was left, and no more
  by_cases hl : l.Safe P w
  · have h' := (h.step hl hs).accounted
    obtain ⟨k', hk'⟩ := call_stays hs hk
    have hsame : k'.stage ≠ .placing ∧ k'.fused = k.fused := by
      rcases h.accounted.call_cases hs hk' with
        ⟨k₀, hk₀, hf⟩ | ⟨j, hnone, -⟩ | ⟨k₀, o, hk₀, -, -, hf⟩
      · obtain rfl := Option.some.inj (hk₀.symm.trans hk)
        obtain ⟨hplaced', -, hfused⟩ := hf.placed hplaced
        exact ⟨hplaced', hfused⟩
      · cases hnone.symm.trans hk
      · obtain rfl := Option.some.inj (hk₀.symm.trans hk)
        obtain ⟨hplaced', -, hfused⟩ := hf.placed (by simp)
        exact ⟨hplaced', hfused⟩
    rw [Bool.eq_iff_iff, h'.pushed_iff hk', h.accounted.pushed_iff hk]
    simp [hsame, hplaced]
  · obtain ⟨v, o, -, hlog⟩ := (h.crashStep hl hs).log
    rw [hlog, isPushed_append_aside rfl]

/-- The reactor runs what has been added to it in the order it was added: a dispatched
call that starts is the first of those that were dispatched on its core and have not
been started. This is what Seastar's reactor does with the tasks of one core, and the
scheduler relies on it; a fused call, which no queue holds, may start at any time. -/
def Label.InTurn (w : World n) : Label n → Prop
  | .start i task _ => isPushed w.log task.call_id →
      ((pops i w.log).filter (· ∉ starts i w.log)).head? = some task.call_id
  | _ => True

/-- The calls that were started are the first of those that were handed over: with the
fused calls filtered out, the starts are a beginning of the pops. -/
def StartsInTurn (w : World n) (i : Fin n) : Prop :=
  (starts i w.log).filter (isPushed w.log) <+: pops i w.log

/-- A step only adds to the log. -/
theorem log_prefix_of_step {l : Label n} (hs : Move P w l w') : w.log <+: w'.log := by
  obtain ⟨es, hlog, -⟩ := step_log hs
  rw [hlog]
  refine List.IsPrefix.trans ?_ (List.prefix_append _ es)
  cases l.event w with
  | none => exact List.prefix_rfl
  | some e => exact List.prefix_append _ _

/-- The first of what is left over from a beginning comes next: if the calls that were
started are the first of those that were handed over, so they are when the next one is
started. As no call is handed over twice, what is left over is exactly the rest. -/
theorem prefix_of_head {pushed started : List Uuid} {isNext : Uuid → Bool} (hnodup : pushed.Nodup)
    (hp : started.filter isNext <+: pushed) (hnext : ∀ c ∈ pushed, isNext c)
    (hc : (pushed.filter (· ∉ started)).head? = some c) :
    (started ++ [c]).filter isNext <+: pushed := by
  obtain ⟨rest, rfl⟩ := hp
  rw [List.nodup_append] at hnodup
  obtain ⟨-, -, hdisjoint⟩ := hnodup
  -- what has been pushed and not started is what follows the started ones
  have hleft : (started.filter isNext ++ rest).filter (· ∉ started) = rest := by
    rw [List.filter_append, List.filter_eq_nil_iff.2, List.nil_append, List.filter_eq_self.2]
    · intro c' hc'
      have hnot : c' ∉ started := by
        intro hmem
        have hstarted : c' ∈ started.filter isNext :=
          List.mem_filter.2 ⟨hmem, hnext c' (by simp [hc'])⟩
        exact hdisjoint c' hstarted c' hc' rfl
      simpa using hnot
    · intro c' hc'
      simpa using (List.mem_filter.1 hc').1
  rw [hleft] at hc
  obtain ⟨rest', rfl⟩ := List.head?_eq_some_iff.1 hc
  have hlast : [c].filter isNext = [c] := List.filter_eq_self.2 (by simpa using hnext c (by simp))
  exact ⟨rest', by simp [List.filter_append, hlast]⟩

/-- **A step in turn starts the next call.** A step that starts nothing on this core can
only make the pops longer. One that starts a call takes the first of those that are left
over (`prefix_of_head`), or a fused one, which is not counted. -/
theorem StartsInTurn.step {s : Fin n → List Uuid} (hi : ∀ i, StartsInTurn w i) (h : InOrder P w)
    (hq : QueueOrdered s w) {l : Label n} (hl : l.InTurn w) (hs : Move P w l w') (i : Fin n) :
    StartsInTurn w' i := by
  have hsame : (starts i w.log).filter (isPushed w'.log) =
      (starts i w.log).filter (isPushed w.log) :=
    List.filter_congr fun c hc => h.isPushed_of_step hs hc
  have hpops : pops i w.log <+: pops i w'.log := (log_prefix_of_step hs).filterMap _
  have hstarts := (hq.step h hs).started i
  by_cases hstart : l.addStart s i = s i
  · -- nothing is started on this core
    rw [StartsInTurn, hstarts, hstart, ← hq.started i, hsame]
    exact (hi i).trans hpops
  · cases hs with
    | start j task now tasks ht =>
      -- the start is on this core; it hands nothing over itself
      obtain rfl : i = j := by
        by_contra hne
        exact hstart (Function.update_of_ne hne _ _)
      have hlog : (w.start P i task tasks now).log = w.log ++ [.started i task.call_id] := rfl
      have hpushed : isPushed (w.log ++ [.started i task.call_id]) = isPushed w.log := by
        funext c'
        simp [isPushed]
      have hpopped : pops i (w.log ++ [.started i task.call_id]) = pops i w.log := by
        simp [pops, Event.popped]
      have hbegun : starts i (w.log ++ [.started i task.call_id]) =
          starts i w.log ++ [task.call_id] := by
        simp [starts, Event.begun]
      rw [StartsInTurn, hlog, hpushed, hpopped, hbegun]
      by_cases hc : isPushed w.log task.call_id
      · refine prefix_of_head (nodup_pops h.accounted.nodup_log i) (hi i) ?_ (hl hc)
        exact fun c hc => h.accounted.isPushed_of_mem_pops hc
      · simpa [List.filter_append, hc, StartsInTurn] using hi i
    | _ => exact absurd rfl hstart

/-! ### Over a run -/

theorem QueueOrdered.initial : QueueOrdered (fun _ => []) (World.initial n) where
  order _ := rfl
  parked _ _ _ ht := by cases ht
  started _ := rfl

/-- The calls that the labels start. -/
def startsOf (ls : List (Label n)) : Fin n → List Uuid :=
  ls.foldl (fun s l => l.addStart s) fun _ => []

/-- **The queues and the log stay together**, to the end of the program. -/
theorem queueOrdered_of_run {ls : List (Label n)} (h : Run (scheduler P n) ls w) :
    QueueOrdered (startsOf ls) w := by
  refine h.invariant (I := fun ls w => QueueOrdered (startsOf ls) w) ?_ ?_
  · rintro _ rfl
    exact .initial
  · rintro ls w l w' hr hq ⟨halive, hs⟩
    rw [startsOf, List.foldl_append]
    exact hq.step (inOrder_of_reachable ⟨ls, hr⟩ halive) hs

/-- The calls of a queue are handed over in its order, each once, and are only started
then. `order` is about the calls so far: those that were handed over are the first of
those that were queued. -/
structure HandsInOrder (w : World n) (i : Fin n) : Prop where
  order : pops i w.log <+: pushes i w.log
  once : (pushes i w.log).Nodup
  startsOnce : (starts i w.log).Nodup
  handed : ∀ c ∈ starts i w.log, isPushed w.log c → c ∈ pops i w.log

/-- In every state that can be reached the calls are handed over in order. When a call
has crashed the program, the log is that of the state before and one event more, which
no queue takes part in. -/
theorem handsInOrder (h : Reachable (scheduler P n) w) (i : Fin n) : HandsInOrder w i := by
  obtain ⟨ls, hrun⟩ := h
  have horder := (queueOrdered_of_run hrun).order i
  rcases inOrder_or_crashStep ⟨ls, hrun⟩ with ha | ⟨w₀, h₀, hcrash⟩
  -- no call is pushed or started twice
  · have hnodup := ha.accounted.nodup_log
    exact ⟨⟨_, horder.symm⟩, nodup_pushes hnodup i, nodup_starts hnodup i,
      fun c hc hpushed => ha.accounted.mem_pops_of_started hc hpushed⟩
  -- the step that ends the world adds an event of neither kind
  · obtain ⟨v, o, -, hlog⟩ := hcrash.log
    have hnodup := h₀.accounted.nodup_log
    refine ⟨⟨_, horder.symm⟩, ?_, ?_, fun c hc hpushed => ?_⟩
    · rw [hlog, pushes_append_aside i rfl]
      exact nodup_pushes hnodup i
    · rw [hlog, starts_append_aside i rfl]
      exact nodup_starts hnodup i
    · rw [hlog, starts_append_aside i rfl] at hc
      rw [hlog, isPushed_append_aside rfl] at hpushed
      rw [hlog, pops_append_aside i rfl]
      exact h₀.accounted.mem_pops_of_started hc hpushed

/-- If the reactor takes its tasks in turn, so it has in every state that can be
reached. -/
theorem startsInTurn (h : Reachable ((scheduler P n).restrict fun w l => l.InTurn w) w)
    (i : Fin n) : StartsInTurn w i := by
  obtain ⟨ls, hrun⟩ := h
  revert i
  refine hrun.invariant (I := fun _ w => ∀ i, StartsInTurn w i) ?_ ?_
  · rintro _ rfl i
    exact List.prefix_rfl
  · rintro ls w l w' hr hi ⟨hl, halive, hs⟩ i
    have hrun := hr.of_restrict
    exact StartsInTurn.step hi (inOrder_of_reachable ⟨ls, hrun⟩ halive) (queueOrdered_of_run hrun)
      hl hs i

/-- **Queued calls are started in the order in which they were queued.** On every core
and in every state that can be reached, the calls that `get_core` put into the queue are
handed to the reactor in that order, each once. A call is only handed over while no
workflow runs on the core (`curr_wf` is empty after the step), so that it never runs
beside a fused one. If moreover the reactor takes what it is handed in turn, the calls
also start in the order of the queue, however their messages overtook each other on the
way. -/
theorem queued_calls_start_in_order (P : Runtime) (n : ℕ) (w : World n)
    (h : Reachable (scheduler P n) w) (i : Fin n) :
    HandsInOrder w i ∧
    (∀ l w', (scheduler P n).step w l w' → ∀ c, c ∈ pops i w'.log → c ∉ pops i w.log →
      (w'.core i).curr_wf = ∅) ∧
    (Reachable ((scheduler P n).restrict fun w l => l.InTurn w) w →
      (starts i w.log).filter (isPushed w.log) <+: pushes i w.log) := by
  have hhands := handsInOrder h i
  refine ⟨hhands, fun l w' hs c hc hnot => ?_, fun hturn => ?_⟩
  · exact handsAlone_of_step hs.2 i c hc hnot
  · exact (startsInTurn hturn i).trans hhands.order

instance Label.decidableInTurn (w : World n) : (l : Label n) → Decidable (l.InTurn w)
  | .start i task _ => inferInstanceAs (Decidable (isPushed w.log task.call_id →
      ((pops i w.log).filter (· ∉ starts i w.log)).head? = some task.call_id))
  | .newReq .. | .call .. | .deliverRun .. | .deliverReply .. | .jsReply .. | .jsThrow ..
  | .jsReturn .. | .callbackDone .. | .ack _ => inferInstanceAs (Decidable True)

/-- The second of two requests on core 0. -/
def secondTask : Task := ⟨secondUuid, secondUuid, "a.js", "f", ""⟩

/-- Two requests are placed on core 1, and the messages that bring them there arrive in
the other order. The second waits until the answer to the first has been taken. -/
def crossedSteps : List (Label 2) :=
  [.newReq 0 firstUuid "a.js" "f" "" 1 1, .newReq 0 secondUuid "a.js" "f" "" 1 2,
    .deliverRun 1 0 secondTask 3, .deliverRun 1 0 rootTask 4, .start 1 rootTask 5,
    .jsReply firstUuid usableReply 6,
    .deliverReply 0 1 firstUuid firstUuid "a.js" usableReply 7, .ack 1, .start 1 secondTask 8]

def crossedWorld : World 2 := (World.initial 2).after oneService crossedSteps

/-- They arrive in the other order and are started in that of the queue. -/
theorem queued_calls_start_in_order_crossed :
    HandsInOrder crossedWorld 1 ∧
      (starts 1 crossedWorld.log).filter (isPushed crossedWorld.log) <+:
        pushes 1 crossedWorld.log ∧
      (crossedWorld.log.filter (· matches .arrived ..)).map (·.call_id) =
        [secondUuid, firstUuid] ∧
      starts 1 crossedWorld.log = [firstUuid, secondUuid] := by
  have h : Reachable ((scheduler oneService 2).restrict fun w l => l.InTurn w) crossedWorld :=
    ⟨_, run_after crossedSteps (by decide +kernel)⟩
  have hordered := queued_calls_start_in_order oneService 2 crossedWorld h.of_restrict 1
  exact ⟨hordered.1, hordered.2.2 h, by decide +kernel, by decide +kernel⟩

end Nanoservices
