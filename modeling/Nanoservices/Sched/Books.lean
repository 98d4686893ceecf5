import Nanoservices.Sched.Workflows

/-!
# What the scheduler keeps of workflows

The starts each core has recorded, the statistics of the workflows, and which request
belongs to which workflow: `Books`. Only three operations change them. `schedule` enters
a new request, `run_func` records the start of a request that arrives, and `reply` takes
a sample where a call is answered from another core than the one it was made on.
`books_step` says which step does what.

Messages stay under way until they are delivered (`mem_msgs_of_step`).
-/

namespace Nanoservices

open World Lts

variable {n : ℕ} {P : Runtime} {w w' : World n} {c : Uuid}

/-- What the scheduler keeps of workflows: the start of each request, on the core that
has recorded it, the statistics of each workflow, and the workflow of each request. The
rest of the world does not matter here, and two worlds with the same books are not told
apart. -/
@[ext] structure Books (n : ℕ) where
  starts : Fin n → Uuid → Option UInt64
  wf_map : String → Option WfStates
  req_wf_map : Uuid → Option String

/-- The books of a world. -/
def World.books (w : World n) : Books n where
  starts i := (w.core i).wf_starts
  wf_map := w.wf_map
  req_wf_map := w.req_wf_map

namespace Books

/-- The request is entered under its workflow, as `schedule` does for a new request. The
statistics of the workflow are made if there are none, with `fuse` set for the services
in `fusedServices`. -/
def enter (b : Books n) (req_id : Uuid) (service func : String) : Books n :=
  { b with
    wf_map := match b.wf_map func with
      | none => Function.update b.wf_map func (some { fuse := decide (service ∈ fusedServices) })
      | some _ => b.wf_map
    req_wf_map := Function.update b.req_wf_map req_id (some func) }

/-- A request's start is recorded where it arrives. A nested call has no start of its
own. -/
def begin (b : Books n) (i : Fin n) (task : Task) (now : UInt64) : Books n :=
  if task.req_id = task.call_id then
    { b with
      starts := Function.update b.starts i (Function.update (b.starts i) task.req_id (some now)) }
  else b

/-- A sample of the request's workflow is taken, and the start recorded on the core is
erased. The start is looked up by the id of the request, on the core the call runs on,
and is 0 if there is none: C++'s `operator[]` makes an entry. -/
def sample (b : Books n) (i : Fin n) (req_id : Uuid) (now : UInt64) : Books n :=
  match b.req_wf_map req_id, b.req_wf_map req_id >>= b.wf_map with
  | some func, some states =>
    { b with
      wf_map := Function.update b.wf_map func
        (some (states.sample (now - (b.starts i req_id).getD 0)))
      starts := Function.update b.starts i (Function.update (b.starts i) req_id none) }
  | _, _ => b

/-- Entering a request under its workflow makes the workflow's statistics if there are
none. -/
theorem wf_map_enter (b : Books n) (req_id : Uuid) (service func func' : String) :
    ((b.enter req_id service func).wf_map func' = b.wf_map func' ∧
      (func' = func → b.wf_map func' ≠ none)) ∨
    (func' = func ∧ b.wf_map func' = none ∧ (b.enter req_id service func).wf_map func' =
      some { fuse := decide (service ∈ fusedServices) }) := by
  unfold enter
  -- statistics that are there already are kept as they are
  cases hfunc : b.wf_map func with
  | none =>
    by_cases hf : func' = func
    · subst hf
      exact .inr ⟨rfl, hfunc, by simp⟩
    · exact .inl ⟨by simp [hf], fun h => absurd h hf⟩
  | some states =>
    refine .inl ⟨by simp, ?_⟩
    rintro rfl
    simp [hfunc]

@[simp] theorem starts_enter (b : Books n) (req_id : Uuid) (service func : String) :
    (b.enter req_id service func).starts = b.starts := rfl

theorem begin_of_ne (b : Books n) (i : Fin n) {task : Task} (h : task.req_id ≠ task.call_id)
    (now : UInt64) : b.begin i task now = b := if_neg h

@[simp] theorem wf_map_begin (b : Books n) (i : Fin n) (task : Task) (now : UInt64) :
    (b.begin i task now).wf_map = b.wf_map := by
  unfold begin
  split <;> rfl

@[simp] theorem req_wf_map_begin (b : Books n) (i : Fin n) (task : Task) (now : UInt64) :
    (b.begin i task now).req_wf_map = b.req_wf_map := by
  unfold begin
  split <;> rfl

theorem starts_begin_self (b : Books n) (i : Fin n) {task : Task}
    (h : task.req_id = task.call_id) (now : UInt64) :
    (b.begin i task now).starts i task.req_id = some now := by
  rw [begin, if_pos h]
  simp

theorem starts_begin_of_ne (b : Books n) (i j : Fin n) {task : Task} {r : Uuid}
    (h : r ≠ task.call_id) (now : UInt64) : (b.begin i task now).starts j r = b.starts j r := by
  unfold begin
  split
  · next hroot =>
    by_cases hj : j = i
    · subst hj
      simp [hroot, h]
    · simp [hj]
  · rfl

@[simp] theorem req_wf_map_sample (b : Books n) (i : Fin n) (r : Uuid) (now : UInt64) :
    (b.sample i r now).req_wf_map = b.req_wf_map := by
  unfold sample
  split <;> rfl

theorem starts_sample_of_ne (b : Books n) (i j : Fin n) {r r' : Uuid} (h : r' ≠ r)
    (now : UInt64) : (b.sample i r now).starts j r' = b.starts j r' := by
  unfold sample
  split
  · by_cases hj : j = i
    · subst hj
      simp [h]
    · simp [hj]
  · rfl

end Books

/-! ### The operations -/

@[simp] theorem books_record (e : Event n) : (w.record e).books = w.books := rfl

@[simp] theorem books_send (m : Msg n) : (w.send m).books = w.books := rfl

@[simp] theorem books_setJs (v : Invocation n) : (w.setJs c v).books = w.books := rfl

/-- A change of a core that leaves the recorded starts alone leaves the books alone. -/
theorem books_onCore {i : Fin n} {f : Core n → Core n}
    (hf : (f (w.core i)).wf_starts = (w.core i).wf_starts) : (w.onCore i f).books = w.books := by
  ext1
  case starts =>
    funext j
    by_cases hj : j = i
    · subst hj
      simpa [World.books] using hf
    · simp [World.books, hj]
  all_goals rfl

@[simp] theorem books_dispatch (i : Fin n) : (w.dispatch i).books = w.books := by
  by_cases hd : Dispatchable w i
  · obtain ⟨c', rest, task, hq, ht, hwf⟩ := hd
    rw [dispatch_of_front hq ht hwf, popFront, books_record, books_onCore rfl]
  · rw [dispatch_of_not hd]

/-- Making the states of a call or of a function is not in the books. -/
theorem books_ensureReplyStates (i j : Fin n) (key : String) :
    (w.onCore i fun k => k.ensureReplyStates key j).books = w.books := by
  refine books_onCore ?_
  unfold Core.ensureReplyStates
  split <;> rfl

@[simp] theorem books_ensureFuncStates (func : String) :
    (w.ensureFuncStates func).books = w.books := by
  unfold World.ensureFuncStates
  split <;> rfl

/-- `run_func` begins the request it has received. -/
theorem books_receive (i : Fin n) (task : Task) (fuse : Bool) (now : UInt64) :
    (w.receive i task fuse now).books = w.books.begin i task now := by
  rw [World.receive, books_record, Books.begin]
  split
  · next hroot =>
    ext1
    case starts =>
      funext j
      by_cases hj : j = i
      · subst hj
        cases fuse <;> simp [World.books, Core.receive, hroot]
      · simp [World.books, hj]
    all_goals rfl
  · next hroot =>
    refine books_onCore ?_
    cases fuse <;> simp [Core.receive, hroot]

/-- `run_func` records the start of a request and, unless the program ends, nothing
else. -/
theorem books_runFunc (i prev_cpu : Fin n) (task : Task) (now : UInt64)
    (halive : (w.runFunc i prev_cpu task now).crashed = false) :
    (w.runFunc i prev_cpu task now).books = w.books.begin i task now := by
  let w₁ := (w.onCore i fun k => k.ensureReplyStates (replyKey task.service task.call_id)
    prev_cpu).ensureFuncStates (task.service ++ task.function)
  -- without the request's workflow the program would have crashed
  cases hstates : w₁.wfOf task.req_id with
  | none =>
    have hrun : w.runFunc i prev_cpu task now = w₁.crash := by
      simp only [World.runFunc, w₁, hstates]
    rw [hrun] at halive
    cases halive
  | some states =>
    have hrun : w.runFunc i prev_cpu task now = (w₁.receive i task states.fuse now).dispatch i := by
      simp only [World.runFunc, w₁, hstates]
    rw [hrun, books_dispatch, books_receive, books_ensureFuncStates, books_ensureReplyStates]

/-- A call that stays on its core begins at once; one that is sent away begins where it
arrives. In the fused case the call is a nested one, and there is nothing to begin. -/
theorem books_place (i prev_cpu core : Fin n) (task : Task) (now : UInt64)
    (halive : (w.place i prev_cpu task core now).crashed = false) :
    (w.place i prev_cpu task core now).books =
      if core = i then w.books.begin i task now else w.books := by
  have hget : ∀ {exec_time e}, ((w.getCore core exec_time task.call_id now).record e).books =
      w.books := by
    intro exec_time e
    rw [books_record, getCore, books_onCore rfl]
  -- only what is handled here begins
  rcases place_cases w i prev_cpu task core now with
    ⟨-, hnested, hplace⟩ | ⟨fuse, exec_time, -, -, hplace⟩ | ⟨-, hplace⟩
  · -- a nested call of a fused workflow records nothing
    rw [hplace] at halive ⊢
    rw [books_runFunc _ _ _ _ halive, books_record, Books.begin_of_ne _ _ hnested, ite_self]
  · rw [hplace] at halive ⊢
    split
    · next hcore =>
      rw [if_pos hcore] at halive
      rw [books_runFunc _ _ _ _ halive, hget]
    · rw [books_send, hget]
  · rw [hplace] at halive
    cases halive

/-- `schedule` enters a new request. -/
theorem books_prepare (i prev_cpu : Fin n) (task : Task) :
    (w.prepare i prev_cpu task).books = if task.req_id = task.call_id then
      w.books.enter task.req_id task.service (task.service ++ task.function) else w.books := by
  have hensured : ((w.onCore i fun k => k.ensureReplyStates (replyKey task.service task.call_id)
      prev_cpu).ensureFuncStates (task.service ++ task.function)).books = w.books := by
    rw [books_ensureFuncStates, books_ensureReplyStates]
  rw [← hensured, World.prepare]
  split <;> rfl

/-- What `reply` deletes first is not in the books. -/
theorem books_retire (i : Fin n) (call_id : Uuid) (service : String) (now : UInt64) :
    (w.retire i call_id service now).books = w.books := books_onCore rfl

/-- The books after the sample of a reply. If the request or its workflow is not known
the program ends, and nothing has been sampled. -/
theorem books_replyRemote (i prev_cpu : Fin n) (req_id call_id : Uuid) (service ret : String)
    (now : UInt64) : (w.replyRemote i prev_cpu req_id call_id service ret now).books =
      w.books.sample i req_id now := by
  unfold World.replyRemote Books.sample World.wfOf
  split
  -- the sample is taken from the request's workflow, if there is one
  · next func states hfunc hstates =>
    have hfunc' : w.books.req_wf_map req_id = some func := hfunc
    have hstates' : (w.books.req_wf_map req_id >>= w.books.wf_map) = some states := hstates
    simp only [hfunc', Option.bind_eq_bind, Option.bind_some] at hstates' ⊢
    simp only [hstates']
    ext1
    case starts =>
      funext j
      by_cases hj : j = i
      · subst hj
        simp [World.books, Core.leaveWf, World.send]
      · simp [World.books, World.send, hj]
    all_goals rfl
  · next hnone =>
    split
    · next func states hfunc hstates => exact absurd hstates (hnone func states hfunc)
    · rfl

/-- **What `reply` does to the books**: a sample is taken on the way to another core,
and nothing otherwise. Whether the call is a request does not matter to it. -/
theorem books_reply (i : Fin n) (req_id call_id : Uuid) (service ret : String) (now : UInt64) :
    (reply P w i req_id call_id service ret now).1.books =
      match (w.core i).req_map (replyKey service call_id) with
      | some (.reply prev_cpu) => if prev_cpu = i then w.books else w.books.sample i req_id now
      | _ => w.books := by
  unfold World.reply
  dsimp only
  cases (w.core i).req_map (replyKey service call_id) with
  | none => exact books_retire ..
  | some states =>
    cases states with
    | callback callee => exact books_retire ..
    | localReply =>
      dsimp only
      split
      · exact books_retire ..
      -- a request that is answered where it was accepted: no sample
      · rw [books_dispatch, books_onCore rfl, books_record, books_retire]
    | reply prev_cpu =>
      dsimp only
      split
      -- a call that is answered where it was made: no sample either
      · unfold World.runCallback
        split
        · rw [books_record, books_onCore rfl, books_retire]
        · exact books_retire ..
      · rw [books_replyRemote, books_retire]

/-! ### Steps -/

/-- A step that does not crash is safe. -/
theorem InOrder.safe_of_alive (h : InOrder P w) {l : Label n} (hs : Move P w l w')
    (halive : w'.crashed = false) : l.Safe P w := by
  by_contra hl
  rw [h.crash hl hs] at halive
  cases halive

/-- The books when a function leaves the call: a call that was made where it runs is not
sampled. -/
def Books.leave (b : Books n) (k : Call n) (now : UInt64) : Books n :=
  if k.place = k.origin then b else b.sample k.place k.task.req_id now

/-- **A function leaves its call**: a sample is taken if the call came from another
core. The state that `reply` finds under the call's key says where it came from, and the
ledger says which state that is. -/
theorem Accounted.books_leave (h : Accounted P w) {k : Call n}
    (hk : w.call k.task.call_id = some k) (hrunning : k.stage = .running) (e : Event n)
    (ret : String) (now : UInt64) :
    (reply P (w.record e) k.place k.task.req_id k.task.call_id k.task.service ret now).1.books =
      w.books.leave k now := by
  have hstates : ((w.record e).core k.place).req_map (replyKey k.task.service k.task.call_id) =
      (k.coreView k.place).reply k.task.service :=
    congrFun (congrArg CoreView.reply (h.core hk k.place)) k.task.service
  rw [books_reply, hstates, books_record, Books.leave]
  -- a call that ran where it was made has its callback there, and takes no sample
  by_cases hplace : k.place = k.origin
  · rw [if_pos hplace]
    simp only [Call.coreView, hplace, hrunning, Call.originStates]
    cases k.caller <;> simp
  · simp [Call.coreView, hplace, hrunning, Ne.symm hplace]

/-- A delivered reply takes no sample: it is for the core that the call was made on,
where the key is that of a local call. -/
theorem Accounted.books_deliver (h : Accounted P w) {i sender : Fin n} {req_id call_id : Uuid}
    {service ret : String} {msgs : Multiset (Msg n)}
    (hm : w.msgs = .reply i sender req_id call_id service ret ::ₘ msgs) (now : UInt64) :
    (reply P { w with msgs } i req_id call_id service ret now).1.books = w.books := by
  obtain ⟨k, o, hk, hstage, rfl, rfl, rfl, rfl, rfl, rfl⟩ :=
    h.call_of_reply (hm ▸ Multiset.mem_cons_self _ _)
  have hstates : (w.core k.origin).req_map (replyKey k.task.service k.task.call_id) =
      (k.coreView k.origin).reply k.task.service :=
    congrFun (congrArg CoreView.reply (h.core hk k.origin)) k.task.service
  rw [books_reply]
  dsimp only
  rw [hstates]
  -- the reply states name this core, so `reply` does not send it on once more
  simp only [Call.coreView, hstage, Call.originStates]
  cases k.caller <;> simp <;> rfl

/-- What a step does to the books of `w`: a request is entered when it is accepted, and
begins there if it stays or else where it is delivered; a call that is left may be
sampled. All other steps leave them alone. -/
def Label.keep (w : World n) (l : Label n) (b : Books n) : Books n :=
  match l with
  | .newReq i req_id service function args core now =>
    let b := b.enter req_id service (service ++ function)
    if core = i then b.begin i ⟨req_id, req_id, service, function, args⟩ now else b
  | .deliverRun i _ task now => b.begin i task now
  | .jsReply c _ now | .jsThrow c now => (w.call c).elim b (b.leave · now)
  | _ => b

section NewReq

variable (w : World n) (b : Books n) (i core : Fin n) (req_id : Uuid)
  (service function args : String) (now : UInt64)

/-- A new request is entered under its workflow, whether it stays or not. -/
theorem req_wf_map_keep_newReq :
    ((Label.newReq i req_id service function args core now).keep w b).req_wf_map =
      Function.update b.req_wf_map req_id (some (service ++ function)) := by
  rw [Label.keep]
  split
  · rw [Books.req_wf_map_begin]
    rfl
  · rfl

theorem wf_map_keep_newReq :
    ((Label.newReq i req_id service function args core now).keep w b).wf_map =
      (b.enter req_id service (service ++ function)).wf_map := by
  rw [Label.keep]
  split
  · rw [Books.wf_map_begin]
  · rfl

theorem starts_keep_newReq_self :
    ((Label.newReq i req_id service function args i now).keep w b).starts i req_id =
      some now := by
  rw [Label.keep, if_pos rfl]
  exact Books.starts_begin_self _ _ rfl now

theorem starts_keep_newReq_of_ne (j : Fin n) {r : Uuid} (h : r ≠ req_id) :
    ((Label.newReq i req_id service function args core now).keep w b).starts j r =
      b.starts j r := by
  rw [Label.keep]
  split
  · rw [Books.starts_begin_of_ne _ _ _ h]
    rfl
  · rfl

end NewReq

/-- **What a step does to the books**, for every transition that does not crash the
program. -/
theorem InOrder.books_step (h : InOrder P w) {l : Label n} (hs : Move P w l w')
    (halive : w'.crashed = false) : w'.books = l.keep w w.books := by
  have ha := h.accounted
  have hsafe := h.safe_of_alive hs halive
  cases hs with
  | newReq i req_id service function args core now hfresh =>
    unfold World.newReq at halive ⊢
    rw [World.schedule] at halive ⊢
    rw [books_place _ _ _ _ _ halive, books_prepare, if_pos rfl, books_record, books_onCore rfl]
    rfl
  | call v caller callee service function jsargs core now hv hfresh =>
    -- a new call is not the request it is part of
    have hnested : v.task.req_id ≠ callee := by
      obtain ⟨k, hk, -, -, htask, -⟩ := ha.call_of_js hv
      obtain ⟨r, hr, -⟩ := (ha.sound _ k hk).root
      rintro rfl
      rw [htask] at hfresh
      exact hfresh (ha.known _ r hr)
    unfold World.callFunction at halive ⊢
    rw [World.schedule] at halive ⊢
    rw [books_place _ _ _ _ _ halive, books_prepare, if_neg hnested, books_record,
      books_onCore rfl, Books.begin_of_ne _ _ hnested, ite_self]
    rfl
  -- a request that was sent away begins here
  | deliverRun i prev_cpu task now msgs hm => exact books_runFunc _ _ _ _ halive
  | deliverReply i sender req_id call_id service ret now msgs hm =>
    rw [World.deliverReply]
    split <;> exact ha.books_deliver hm now
  | start i task now tasks ht =>
    rw [World.start, books_setJs, books_record, books_onCore rfl]
    rfl
  | jsReply v call_id ret now hv =>
    -- the step does not crash, so the call that is left is running, under the name of
    -- its service
    obtain ⟨k, hk, hrunning, hservice⟩ := hsafe
    obtain ⟨k₀, hk₀, -, hcore, htask, hname⟩ := ha.call_of_js hv
    obtain rfl : k = k₀ := Option.some.inj (hk.symm.trans hk₀)
    obtain rfl := (ha.sound _ k hk).call_id
    rw [World.jsReply, hcore, htask, hname, hservice, ha.books_leave hk hrunning]
    rw [Label.keep, hk, Option.elim_some]
  | jsThrow v call_id now hv hbody =>
    obtain ⟨k, hk, hrunning⟩ := hsafe
    obtain ⟨k₀, hk₀, -, hcore, htask, -⟩ := ha.call_of_js hv
    obtain rfl : k = k₀ := Option.some.inj (hk.symm.trans hk₀)
    obtain rfl := (ha.sound _ k hk).call_id
    have hleave := ha.books_leave hk hrunning (.left k.place k.task.call_id .threw)
      Outcome.threw.text now
    rw [World.jsThrow, hcore, htask]
    rw [Label.keep, hk, Option.elim_some]
    split <;> exact hleave
  | jsReturn v call_id now hv hbody => rfl
  | callbackDone i call_id service callbacks hc =>
    rw [World.callbackDone, books_dispatch, books_record, books_onCore rfl]
    rfl
  | ack i acks hi => exact books_dispatch i

/-! ### Messages -/

/-- Messages are sent by `place` and `reply` only; the operations below send none. -/
@[simp] theorem msgs_dispatch (i : Fin n) : (w.dispatch i).msgs = w.msgs := by
  by_cases hd : Dispatchable w i
  · obtain ⟨c', rest, task, hq, ht, hwf⟩ := hd
    rw [dispatch_of_front hq ht hwf]
    rfl
  · rw [dispatch_of_not hd]

theorem msgs_ensureFuncStates (func : String) : (w.ensureFuncStates func).msgs = w.msgs := by
  unfold World.ensureFuncStates
  split <;> rfl

theorem msgs_runFunc (i prev_cpu : Fin n) (task : Task) (now : UInt64) :
    (w.runFunc i prev_cpu task now).msgs = w.msgs := by
  unfold World.runFunc
  dsimp only
  split
  · exact msgs_ensureFuncStates _
  · rw [msgs_dispatch]
    exact msgs_ensureFuncStates _

theorem msgs_prepare (i prev_cpu : Fin n) (task : Task) :
    (w.prepare i prev_cpu task).msgs = w.msgs := by
  rw [World.prepare]
  split <;> exact msgs_ensureFuncStates _

variable {m : Msg n}

/-- Placing a call adds a message at most. -/
theorem mem_msgs_place {i prev_cpu core : Fin n} {task : Task} {now : UInt64} (hm : m ∈ w.msgs) :
    m ∈ (w.place i prev_cpu task core now).msgs := by
  -- a call is run here, sent away, or placed nowhere; no message is taken
  rcases place_cases w i prev_cpu task core now with
    ⟨-, -, hplace⟩ | ⟨fuse, exec_time, -, -, hplace⟩ | ⟨-, hplace⟩
  · rw [hplace, msgs_runFunc]
    exact hm
  · rw [hplace]
    split
    · rw [msgs_runFunc]
      exact hm
    · exact Multiset.mem_cons_of_mem hm
  · rw [hplace]
    exact hm

/-- So does an answer. -/
theorem mem_msgs_reply {i : Fin n} {req_id call_id : Uuid} {service ret : String} {now : UInt64}
    (hm : m ∈ w.msgs) : m ∈ (reply P w i req_id call_id service ret now).1.msgs := by
  unfold World.reply
  dsimp only
  split
  · split
    · exact hm
    · rw [msgs_dispatch]
      exact hm
  · split
    · unfold World.runCallback
      split <;> exact hm
    -- a reply to another core adds its message to those there are
    · unfold World.replyRemote
      split
      · exact Multiset.mem_cons_of_mem hm
      · exact hm
  · exact hm

/-- The message a step delivers. -/
def Label.msg : Label n → Option (Msg n)
  | .deliverRun core prev_cpu task _ => some (.runFunc core prev_cpu task)
  | .deliverReply core sender req_id call_id service ret _ =>
    some (.reply core sender req_id call_id service ret)
  | _ => none

/-- **A message stays under way** until it is delivered. No step drops one: a step takes
the message it delivers, and adds to the others. -/
theorem mem_msgs_of_step {l : Label n} (hs : Move P w l w') (hm : m ∈ w.msgs) :
    m ∈ w'.msgs ∨ l.msg = some m := by
  cases hs with
  | newReq i req_id service function args core now hfresh =>
    refine .inl (mem_msgs_place ?_)
    rw [msgs_prepare]
    exact hm
  | call v caller callee service function jsargs core now hv hfresh =>
    refine .inl (mem_msgs_place ?_)
    rw [msgs_prepare]
    exact hm
  -- the message that is delivered is the one that goes
  | deliverRun i prev_cpu task now msgs hmsgs =>
    rw [hmsgs, Multiset.mem_cons] at hm
    rcases hm with rfl | hm
    · exact .inr rfl
    · rw [msgs_runFunc]
      exact .inl hm
  | deliverReply i sender req_id call_id service ret now msgs hmsgs =>
    rw [hmsgs, Multiset.mem_cons] at hm
    rcases hm with rfl | hm
    · exact .inr rfl
    · rw [World.deliverReply]
      split <;> exact .inl (mem_msgs_reply (w := { w with msgs }) hm)
  | start i task now tasks ht => exact .inl hm
  | jsReply v call_id ret now hv => exact .inl (mem_msgs_reply (w := w.record _) hm)
  | jsThrow v call_id now hv hbody =>
    rw [World.jsThrow]
    split <;> exact .inl (mem_msgs_reply (w := w.record _) hm)
  | jsReturn v call_id now hv hbody => exact .inl hm
  | callbackDone i call_id service callbacks hc =>
    rw [World.callbackDone, msgs_dispatch]
    exact .inl hm
  | ack i acks hi =>
    rw [msgs_dispatch]
    exact .inl hm

end Nanoservices
