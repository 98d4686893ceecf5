import Nanoservices.Sched.LeastLoaded

/-!
# Start-up

`main` goes through stages. In each it sends a message to some of the cores; it waits
for the answers of most stages before it goes on, but neither for the cores that begin
to listen, which is among the first stages, nor for the registration of the services,
which are the last.

`server` is the scheduler with this start-up: `main`, its messages and the scheduler
take their turns in any order, and a request may come to any core that listens. A core
that has no scheduler yet ends the program when a request comes, and so does an empty
vector `cores`; a core has contexts for the services that have been registered there.
-/

namespace Nanoservices

open World Lts

variable {n : ℕ} {P : Runtime} {w w' : World n}

/-! ### The stages of `main` -/

/-- The services that `main` registers. -/
def mainServices : List String :=
  ["user.js", "test.js", "compose_post_service.js", "media_service.js", "text_service.js",
    "url_shorten_service.js", "user_mention_service.js", "user_service.js",
    "user_timeline_service.js", "user-timeline.js", "post.js", "social_graph_service.js",
    "unique_id_service.js", "microbenchmark.js", "microbenchmark2.js", "microbenchmark3.js",
    "microbenchmark4.js", "home_timeline_service.js", "write_home_timeline_service.js",
    "post_storage.js", "fanout.js", "sched_bench.js", "complex.js"]

/-- What a message of `main` does: it makes one of the three objects of its core, or
calls a function of one. -/
inductive StartUp
  | makeNetServer
  | netServerStart
  | makeScheduler
  | schedulerStart
  | makeReqService
  | reqServiceStart
  | registerService (service : String)
  | js
  deriving DecidableEq

/-- A stage of `main`: the cores that get its message, what the message does, and
whether `main` waits for the answers. -/
structure MainStage (n : ℕ) where
  cores : List (Fin n)
  action : StartUp
  awaited : Bool

/-- The messages of a stage. -/
def MainStage.msgs (stage : MainStage n) : Multiset (Fin n × StartUp) :=
  stage.cores.map fun i => (i, stage.action)

/-- The stages of `main`, in order. The first cores begin to listen in the second stage,
which is not awaited, and the schedulers are made in the third; the services are
registered at the end, and not awaited either. -/
def mainStages (n : ℕ) : List (MainStage n) :=
  [⟨List.finRange n, .makeNetServer, true⟩,
    ⟨coresBetween n 0 HW_Q_COUNT, .netServerStart, false⟩,
    ⟨List.finRange n, .makeScheduler, true⟩,
    ⟨List.finRange n, .schedulerStart, true⟩,
    ⟨List.finRange n, .makeReqService, true⟩,
    ⟨List.finRange n, .reqServiceStart, true⟩] ++
  mainServices.map (fun service => ⟨List.finRange n, .registerService service, false⟩) ++
  [⟨List.finRange n, .js, true⟩]

/-- Where start-up is: what `main` still has to do, the messages under way, and what
there is on the cores by now. -/
structure Boot (n : ℕ) where
  /-- What `main` still has to do. -/
  stages : List (MainStage n)
  /-- The messages whose answers `main` waits for. -/
  awaited : Multiset (Fin n × StartUp)
  unawaited : Multiset (Fin n × StartUp)
  netServers : Finset (Fin n)
  listening : Finset (Fin n)
  schedulers : Finset (Fin n)
  /-- The length of the vector `cores`. -/
  cores : ℕ
  reqServices : Finset (Fin n)
  isolates : Finset (Fin n)
  registered : Fin n → List String

namespace Boot

/-- Before the first stage. -/
def initial (n : ℕ) : Boot n where
  stages := mainStages n
  awaited := 0
  unawaited := 0
  netServers := ∅
  listening := ∅
  schedulers := ∅
  cores := 0
  reqServices := ∅
  isolates := ∅
  registered _ := []

/-- A message is executed on core `i`. -/
def execute (b : Boot n) (i : Fin n) : StartUp → Boot n
  | .makeNetServer => { b with netServers := insert i b.netServers }
  | .netServerStart => { b with listening := insert i b.listening }
  | .makeScheduler => { b with schedulers := insert i b.schedulers }
  | .schedulerStart => { b with cores := if i.val = 0 then n else b.cores }
  | .makeReqService => { b with reqServices := insert i b.reqServices }
  | .reqServiceStart => { b with isolates := insert i b.isolates }
  | .registerService service =>
    { b with registered := Function.update b.registered i (b.registered i ++ [service]) }
  | .js => b

/-- `main` goes on to the next stage. -/
def enter (b : Boot n) (stage : MainStage n) (stages : List (MainStage n)) : Boot n :=
  { b with
    stages
    awaited := if stage.awaited then stage.msgs else 0
    unawaited := b.unawaited + if stage.awaited then 0 else stage.msgs }

end Boot

/-! ### The server -/

/-- The server: its start-up, and its scheduler. -/
structure Server (n : ℕ) where
  boot : Boot n
  world : World n

/-- A step of the server: `main` enters a stage, a core executes one of its messages, or
the scheduler takes a step. -/
inductive ServerLabel (n : ℕ)
  | main
  | execute (core : Fin n) (action : StartUp)
  | sched (l : Label n)

/-- The steps of calls that have been accepted. -/
def Label.isInner : Label n → Bool
  | .newReq .. | .start .. => false
  | _ => true

namespace Server

/-- A request comes to core `i`. Without a scheduler there, or with an empty vector
`cores`, the program ends. -/
def accept (s : Server n) (i : Fin n) (req_id : Uuid) (service function args : String)
    (place : Fin n) (now : UInt64) : World n :=
  if i ∈ s.boot.schedulers ∧ s.boot.cores ≠ 0 then
    s.world.newReq i req_id service function args place now
  else s.world.crash

/-- `req_service::run_func` enters one of the contexts of its core. The contexts are
those of the services that have been registered so far; without any, there is none to
enter. -/
def start (readJson : String → Option (ℤ × String)) (s : Server n) (i : Fin n) (task : Task)
    (tasks : Multiset Task) (now : UInt64) : World n :=
  if s.boot.registered i = [] then s.world.crash
  else s.world.start ⟨s.boot.registered i, readJson⟩ i task tasks now

end Server

/-- The steps of the server. `main` goes on once all answers it waits for have come;
messages are executed in any order; and a request comes to any core that listens, at any
time. -/
inductive ServerMove (readJson : String → Option (ℤ × String)) (s : Server n) :
    ServerLabel n → Server n → Prop
  | main (stage : MainStage n) (stages : List (MainStage n)) :
      s.boot.stages = stage :: stages → s.boot.awaited = 0 →
      ServerMove readJson s .main { s with boot := s.boot.enter stage stages }
  | awaited (i : Fin n) (action : StartUp) (msgs : Multiset (Fin n × StartUp)) :
      s.boot.awaited = (i, action) ::ₘ msgs →
      ServerMove readJson s (.execute i action)
        { s with boot := { s.boot with awaited := msgs }.execute i action }
  | unawaited (i : Fin n) (action : StartUp) (msgs : Multiset (Fin n × StartUp)) :
      s.boot.unawaited = (i, action) ::ₘ msgs →
      ServerMove readJson s (.execute i action)
        { s with boot := { s.boot with unawaited := msgs }.execute i action }
  | accept (i : Fin n) (req_id : Uuid) (service function args : String) (place : Fin n)
      (now : UInt64) :
      i ∈ s.boot.listening → req_id ∉ s.world.uuids →
      ServerMove readJson s (.sched (.newReq i req_id service function args place now))
        { s with world := s.accept i req_id service function args place now }
  | start (i : Fin n) (task : Task) (now : UInt64) (tasks : Multiset Task) :
      (s.world.core i).tasks = task ::ₘ tasks →
      ServerMove readJson s (.sched (.start i task now))
        { s with world := s.start readJson i task tasks now }
  | inner (l : Label n) (w' : World n) :
      l.isInner → Move ⟨[], readJson⟩ s.world l w' →
      ServerMove readJson s (.sched l) { s with world := w' }

/-- The server on `n` cores. -/
def server (readJson : String → Option (ℤ × String)) (n : ℕ) :
    System (Server n) (ServerLabel n) where
  init s := s = ⟨.initial n, .initial n⟩
  step s l s' := s.world.crashed = false ∧ ServerMove readJson s l s'

/-! ### Where the tasks are -/

/-- The core has the task of a call that has not been started, or will get it. -/
inductive HasTask (w : World n) (i : Fin n) (task : Task) : Prop
  | sent (prev_cpu : Fin n) : .runFunc i prev_cpu task ∈ w.msgs → HasTask w i task
  | parked (c : Uuid) : (w.core i).task_map c = some task → HasTask w i task
  | ready : task ∈ (w.core i).tasks → HasTask w i task

namespace HasTask

variable {i j : Fin n} {task t : Task}

/-- A task that a core has after a change of the world was there before, if the change
adds none. -/
theorem of_core (h : HasTask w' j t) (hmsgs : ∀ m ∈ w'.msgs, m ∈ w.msgs)
    (hparked : ∀ c, (w'.core j).task_map c = some t → (w.core j).task_map c = some t)
    (hready : t ∈ (w'.core j).tasks → t ∈ (w.core j).tasks) : HasTask w j t := by
  cases h with
  | sent prev_cpu hm => exact .sent prev_cpu (hmsgs _ hm)
  | parked c hc => exact .parked c (hparked c hc)
  | ready ht => exact .ready (hready ht)

/-- The same messages and the same cores have the same tasks. -/
theorem congr (h : HasTask w' j t) (hmsgs : w'.msgs = w.msgs) (hcore : w'.core = w.core) :
    HasTask w j t :=
  h.of_core (by simp [hmsgs]) (by simp [hcore]) (by simp [hcore])

/-- One core changes. -/
theorem of_onCore {f : Core n → Core n} {new : Prop} (h : HasTask (w.onCore i f) j t)
    (hparked : ∀ c, (f (w.core i)).task_map c = some t → HasTask w i t ∨ new)
    (hready : t ∈ (f (w.core i)).tasks → HasTask w i t ∨ new) : HasTask w j t ∨ j = i ∧ new := by
  -- a task can only be new on the core that changes
  by_cases hj : j = i
  · subst hj
    cases h with
    | sent prev_cpu hm => exact .inl (.sent prev_cpu hm)
    | parked c hc =>
      rw [onCore_core_self] at hc
      exact (hparked c hc).imp id fun hnew => ⟨rfl, hnew⟩
    | ready ht =>
      rw [onCore_core_self] at ht
      exact (hready ht).imp id fun hnew => ⟨rfl, hnew⟩
  · refine .inl (h.of_core (fun _ hm => hm) (fun c hc => ?_) fun ht => ?_)
    · rwa [onCore_core_of_ne _ _ hj] at hc
    · rwa [onCore_core_of_ne _ _ hj] at ht

/-- One core changes, but for its tasks. -/
theorem of_onCore_same {f : Core n → Core n} (h : HasTask (w.onCore i f) j t)
    (hparked : (f (w.core i)).task_map = (w.core i).task_map)
    (hready : (f (w.core i)).tasks = (w.core i).tasks) : HasTask w j t := by
  have hold : HasTask w j t ∨ j = i ∧ False := by
    refine h.of_onCore (fun c hc => .inl (.parked c ?_)) fun ht => .inl (.ready ?_)
    · rwa [hparked] at hc
    · rwa [hready] at ht
  exact hold.resolve_right (by simp)

/-- A message may bring a task to its core. -/
theorem of_send {m : Msg n} (h : HasTask (w.send m) j t) :
    HasTask w j t ∨ ∃ prev_cpu, m = .runFunc j prev_cpu t := by
  cases h with
  | sent prev_cpu hm =>
    rcases Multiset.mem_cons.1 hm with rfl | hm
    · exact .inr ⟨prev_cpu, rfl⟩
    · exact .inl (.sent prev_cpu hm)
  | parked c hc => exact .inl (.parked c hc)
  | ready ht => exact .inl (.ready ht)

/-- `dispatch` moves a task that the core has. -/
theorem of_dispatch (h : HasTask (w.dispatch i) j t) : HasTask w j t := by
  by_cases hd : Dispatchable w i
  · obtain ⟨c, rest, task, hq, ht, hwf⟩ := hd
    rw [dispatch_of_front hq ht hwf, popFront] at h
    -- the task goes from the task map to the tasks, so it was there before in one of
    -- the two
    have hmoved : HasTask (w.onCore i fun k =>
        { k with
          tasks := task ::ₘ k.tasks
          task_map := Function.update k.task_map c none
          q := rest }) j t := h.congr rfl rfl
    have hold : HasTask w j t ∨ j = i ∧ False := by
      refine hmoved.of_onCore (fun c' hc' => .inl ?_) fun hmem => .inl ?_
      · by_cases hc : c' = c
        · subst hc
          simp at hc'
        · exact .parked c' (by simpa [hc] using hc')
      · rcases Multiset.mem_cons.1 hmem with rfl | hmem
        · exact .parked c ht
        · exact .ready hmem
    exact hold.resolve_right (by simp)
  · rwa [dispatch_of_not hd] at h

/-- Making the states of a call or of a function makes no task. -/
theorem of_ensured {key func : String} {prev_cpu : Fin n}
    (h : HasTask
      ((w.onCore i fun k => k.ensureReplyStates key prev_cpu).ensureFuncStates func) j t) :
    HasTask w j t := by
  have hfunc : HasTask (w.onCore i fun k => k.ensureReplyStates key prev_cpu) j t := by
    refine h.congr ?_ (core_ensureFuncStates _)
    unfold ensureFuncStates
    split <;> rfl
  refine hfunc.of_onCore_same ?_ ?_ <;>
    · unfold Core.ensureReplyStates
      split <;> rfl

/-- `run_func` keeps its task on its core: it is added to the reactor if it is fused,
and parked else. -/
theorem of_runFunc {prev_cpu : Fin n} {now : UInt64}
    (h : HasTask (w.runFunc i prev_cpu task now) j t) : HasTask w j t ∨ j = i ∧ t = task := by
  unfold World.runFunc at h
  dsimp only at h
  split at h
  · exact .inl (of_ensured (h.congr rfl rfl))
  · next states _ =>
    replace h := h.of_dispatch
    generalize hw₁ : (w.onCore i fun k => k.ensureReplyStates (replyKey task.service task.call_id)
      prev_cpu).ensureFuncStates (task.service ++ task.function) = w₁ at h
    have hreceived : HasTask w₁ j t ∨ j = i ∧ t = task := by
      have hgot : HasTask (w₁.onCore i fun k => k.receive task states.fuse now) j t :=
        h.congr rfl rfl
      refine hgot.of_onCore (fun c hc => ?_) fun hmem => ?_
      -- what is parked: the task itself, under its own id, or one that was parked
      -- before
      · unfold Core.receive at hc
        by_cases hcall : states.fuse = false ∧ c = task.call_id
        · right
          obtain ⟨hfuse, rfl⟩ := hcall
          simpa [hfuse, eq_comm] using hc
        · left
          refine .parked c ?_
          cases hfuse : states.fuse <;> by_cases hroot : task.req_id = task.call_id <;> simp_all
      -- what is ready: the task itself, if it is fused, or one that was ready before
      · have htasks : ((w₁.core i).receive task states.fuse now).tasks =
            if states.fuse then task ::ₘ (w₁.core i).tasks else (w₁.core i).tasks := by
          unfold Core.receive
          cases states.fuse <;> by_cases hroot : task.req_id = task.call_id <;> simp [hroot]
        rw [htasks] at hmem
        split at hmem
        · rcases Multiset.mem_cons.1 hmem with rfl | hmem
          · exact .inr rfl
          · exact .inl (.ready hmem)
        · exact .inl (.ready hmem)
    subst hw₁
    exact hreceived.imp of_ensured id

/-- `schedule` sends its task to the core chosen for it. -/
theorem of_schedule {prev_cpu core : Fin n} {now : UInt64}
    (h : HasTask (w.schedule i prev_cpu task core now) j t) :
    HasTask w j t ∨ t = task ∧
      j = if w.fuseOf task.req_id = some true ∧ task.req_id ≠ task.call_id then i else core := by
  -- preparing adds no task, only states for the reply and the function
  have hprepared : ∀ {w₁ : World n}, HasTask w₁ j t →
      w₁.msgs = (w.prepare i prev_cpu task).msgs → w₁.core = (w.prepare i prev_cpu task).core →
      HasTask w j t := by
    intro w₁ h₁ hmsgs hcore
    have hensured : HasTask ((w.onCore i fun k => k.ensureReplyStates
        (replyKey task.service task.call_id) prev_cpu).ensureFuncStates
          (task.service ++ task.function)) j t := by
      refine (h₁.congr hmsgs hcore).congr ?_ ?_ <;>
        · unfold World.prepare
          split <;> rfl
    exact hensured.of_ensured
  have hfuse : task.req_id ≠ task.call_id →
      (w.prepare i prev_cpu task).fuseOf task.req_id = w.fuseOf task.req_id := by
    intro hnested
    unfold World.prepare
    rw [if_neg hnested]
    exact fuseOf_ensureFuncStates _ _
  unfold World.schedule at h
  rcases place_cases (w.prepare i prev_cpu task) i prev_cpu task core now with
    ⟨hfused, hnested, hplace⟩ | ⟨fuse, exec_time, hfused, hroot, hplace⟩ | ⟨-, hplace⟩
  -- a fused call runs on the core of its request
  · rw [hplace] at h
    rw [if_pos ⟨(hfuse hnested).symm.trans hfused, hnested⟩]
    have hput : HasTask ((w.prepare i prev_cpu task).record (.placed i task.call_id true)) j t →
        HasTask w j t := fun h₁ => hprepared h₁ rfl rfl
    exact h.of_runFunc.imp hput And.symm
  -- any other on the core chosen, at once or after a message
  · have hchosen : ¬(w.fuseOf task.req_id = some true ∧ task.req_id ≠ task.call_id) := by
      rintro ⟨htrue, hnested⟩
      rw [hfuse hnested, htrue] at hfused
      exact hnested (hroot (Option.some.inj hfused).symm)
    have hput :
        HasTask (((w.prepare i prev_cpu task).getCore core exec_time task.call_id now).record
          (.placed core task.call_id fuse)) j t → HasTask w j t := by
      intro h₁
      have hgot :
          HasTask ((w.prepare i prev_cpu task).getCore core exec_time task.call_id now) j t :=
        h₁.congr rfl rfl
      exact hprepared (hgot.of_onCore_same rfl rfl) rfl rfl
    rw [if_neg hchosen]
    rw [hplace] at h
    split at h
    · next hcore =>
      subst hcore
      exact h.of_runFunc.imp hput And.symm
    · rcases h.of_send with h | ⟨p, heq⟩
      · exact .inl (hput h)
      · obtain ⟨rfl, -, rfl⟩ := Msg.runFunc.inj heq
        exact .inr ⟨rfl, rfl⟩
  · rw [hplace] at h
    exact .inl (hprepared h rfl rfl)

/-- An answer makes no task. -/
theorem of_reply {req_id call_id : Uuid} {service ret : String} {now : UInt64}
    (h : HasTask (World.reply P w i req_id call_id service ret now).1 j t) : HasTask w j t := by
  have hretired : HasTask (w.retire i call_id service now) j t → HasTask w j t :=
    fun h => h.of_onCore_same rfl rfl
  -- the four states of a reply's key; none of them makes a task
  cases hs : (w.core i).req_map (replyKey service call_id) with
  | none =>
    simp only [World.reply, hs] at h
    exact hretired (h.congr rfl rfl)
  | some states =>
    cases states with
    | callback callee =>
      simp only [World.reply, hs] at h
      exact hretired (h.congr rfl rfl)
    | localReply =>
      cases hjson : P.readJson ret with
      | none =>
        simp only [World.reply, hs, hjson] at h
        exact hretired (h.congr rfl rfl)
      | some res =>
        simp only [World.reply, hs, hjson] at h
        -- the next task is dispatched, which was parked before
        have hset : HasTask ((w.retire i call_id service now).record _) j t :=
          h.of_dispatch.of_onCore_same rfl rfl
        exact hretired (hset.congr rfl rfl)
    | reply prev_cpu =>
      by_cases hprev : prev_cpu = i
      · simp only [World.reply, hs, hprev, if_true, runCallback] at h
        split at h
        · have hcalled : HasTask ((w.retire i call_id service now).onCore i fun k =>
              k.beginCallback call_id service) j t := h.congr rfl rfl
          exact hretired (hcalled.of_onCore_same rfl rfl)
        · exact hretired (h.congr rfl rfl)
      · simp only [World.reply, hs, hprev, if_false, replyRemote] at h
        split at h
        · next func states _ _ =>
          rcases h.of_send with h | ⟨p, heq⟩
          · have hsampled : HasTask { w.retire i call_id service now with
                wf_map := Function.update (w.retire i call_id service now).wf_map func
                  (some (states.sample (now -
                    (((w.retire i call_id service now).core i).wf_starts req_id).getD 0))) } j t :=
              h.of_onCore_same rfl rfl
            exact hretired (hsampled.congr rfl rfl)
          · cases heq
        · exact hretired (h.congr rfl rfl)

end HasTask

/-- The core on which the call that the step makes is going to run, and its service. -/
def Label.Makes (w : World n) : Label n → Fin n → String → Prop
  | .newReq _ _ service _ _ place _, j, s => s = service ∧ j = place
  | .call caller callee service _ _ place _, j, s => s = service ∧ ∃ v, w.js caller = some v ∧
      j = if w.fuseOf v.task.req_id = some true ∧ v.task.req_id ≠ callee then v.core else place
  | _, _, _ => False

/-- **A core only gets the tasks of calls that are made to run there.** Tasks move, from
a message to a core and there from `task_map` to the reactor, but a step that makes none
leaves every task on the core it was on. -/
theorem HasTask.of_move {l : Label n} (hs : Move P w l w') {j : Fin n} {t : Task}
    (h : HasTask w' j t) : HasTask w j t ∨ l.Makes w j t.service := by
  cases hs with
  | newReq i req_id service function args core now hfresh =>
    -- the only steps that make a task are a request and a call
    refine h.of_schedule.imp (fun h => ?_) ?_
    · have hset : HasTask ({ w with uuids := insert req_id w.uuids }.onCore i fun k =>
          k.setReqStates (replyKey service req_id) .localReply) j t := h.congr rfl rfl
      exact (hset.of_onCore_same rfl rfl).congr rfl rfl
    · rintro ⟨rfl, hj⟩
      exact ⟨rfl, by simpa using hj⟩
  | call v caller callee service function jsargs core now hv hfresh =>
    refine h.of_schedule.imp (fun h => ?_) ?_
    · have hset : HasTask ({ w with uuids := insert callee w.uuids }.onCore v.core fun k =>
          k.setReqStates (cbKey service callee) (.callback callee)) j t := h.congr rfl rfl
      exact (hset.of_onCore_same rfl rfl).congr rfl rfl
    · rintro ⟨rfl, hj⟩
      exact ⟨rfl, v, hv, hj⟩
  | deliverRun i prev_cpu task now msgs hm =>
    rcases h.of_runFunc with h | ⟨rfl, rfl⟩
    · refine .inl (h.of_core (fun m hmem => ?_) (fun _ hc => hc) id)
      rw [hm]
      exact Multiset.mem_cons_of_mem hmem
    · exact .inl (.sent prev_cpu (hm ▸ Multiset.mem_cons_self _ _))
  | deliverReply i sender req_id call_id service ret now msgs hm =>
    -- neither a reply nor its acknowledgement is a task
    have hreply :
        HasTask (World.reply P { w with msgs } i req_id call_id service ret now).1 j t := by
      rw [World.deliverReply] at h
      split at h
      · exact h.congr rfl rfl
      · exact h
    refine .inl (hreply.of_reply.of_core (fun m hmem => ?_) (fun _ hc => hc) id)
    rw [hm]
    exact Multiset.mem_cons_of_mem hmem
  | start i task now tasks ht =>
    have hstarted : HasTask (w.onCore i fun k => { k with tasks }) j t := h.congr rfl rfl
    -- the task that starts is taken from the ready ones
    have hold : HasTask w j t ∨ j = i ∧ False := by
      refine hstarted.of_onCore (fun c hc => .inl (.parked c hc)) fun hmem => .inl (.ready ?_)
      rw [ht]
      exact Multiset.mem_cons_of_mem hmem
    exact .inl (hold.resolve_right (by simp))
  | jsReply v call_id ret now hv => exact .inl (h.of_reply.congr rfl rfl)
  | jsThrow v call_id now hv hbody =>
    have hreply : HasTask (World.reply P (w.record (.left v.core v.task.call_id .threw)) v.core
        v.task.req_id v.task.call_id v.task.service Outcome.threw.text now).1 j t := by
      rw [World.jsThrow] at h
      split at h <;> exact h.congr rfl rfl
    exact .inl (hreply.of_reply.congr rfl rfl)
  | jsReturn v call_id now hv hbody => exact .inl (h.congr rfl rfl)
  | callbackDone i call_id service callbacks hc =>
    have hdone : HasTask (w.onCore i fun k => { k.delReqStates (cbKey service call_id) with
        callbacks }) j t := h.of_dispatch.congr rfl rfl
    exact .inl (hdone.of_onCore_same rfl rfl)
  | ack i acks hi => exact .inl (h.of_dispatch.congr rfl rfl)

/-! ### When start-up is over in time -/

/-- The step does not use the vector `cores` while it is empty, and does not enter a
core's context for a service that is still to be registered there. Requests to a core
without a scheduler are left out: they end the program in another way. -/
def StartedUp (s : Server n) : ServerLabel n → Prop
  | .sched (.newReq i ..) => i ∈ s.boot.schedulers → s.boot.cores ≠ 0
  | .sched (.call ..) => s.boot.cores ≠ 0
  | .sched (.start i task _) => task.service ∈ mainServices → task.service ∈ s.boot.registered i
  | _ => True

/-- A request comes to a core with a scheduler only once `cores` has its length, and a
call is made only if its service is registered on the core it is going to run on, or is
not one of `main`'s. The condition is on the state in which the call is made; it says
nothing about the steps that come later. -/
def ServerLabel.Late (s : Server n) : ServerLabel n → Prop
  | .sched l =>
    (∀ i req_id service function args place now,
      l = .newReq i req_id service function args place now → i ∈ s.boot.schedulers →
        s.boot.cores ≠ 0) ∧
    ∀ j service, l.Makes s.world j service → service ∈ mainServices →
      service ∈ s.boot.registered j
  | _ => True

/-- **What holds while calls are made late enough.** Before `cores` has its length
nothing has happened (or the program has ended), and every task that a core has, or will
get, is for a service that is registered there. -/
structure Server.Ready (s : Server n) : Prop where
  idle : s.boot.cores = 0 → s.world.crashed = true ∨ s.world = .initial n
  tasks : ∀ j t, HasTask s.world j t → t.service ∈ mainServices → t.service ∈ s.boot.registered j

/-- The vector `cores` does not become empty again. -/
theorem Boot.cores_of_execute {b : Boot n} {i : Fin n} {action : StartUp}
    (h : (b.execute i action).cores = 0) : b.cores = 0 := by
  cases action with
  | schedulerStart =>
    replace h : (if i.val = 0 then n else b.cores) = 0 := h
    have hn := i.pos
    split at h
    · omega
    · exact h
  | _ => exact h

/-- A service that is registered stays so. -/
theorem Boot.registered_execute {b : Boot n} (i j : Fin n) (action : StartUp) {service : String}
    (h : service ∈ b.registered j) : service ∈ (b.execute i action).registered j := by
  cases action with
  | registerService service' =>
    by_cases hj : j = i
    · subst hj
      simp [execute, h]
    · simpa [execute, hj] using h
  | _ => exact h

namespace Server.Ready

variable {readJson : String → Option (ℤ × String)} {s : Server n}

/-- Start-up goes on. -/
theorem of_boot (h : s.Ready) {boot : Boot n} (hcores : boot.cores = 0 → s.boot.cores = 0)
    (hregistered : ∀ j service, service ∈ s.boot.registered j → service ∈ boot.registered j) :
    Server.Ready { s with boot } where
  idle h0 := h.idle (hcores h0)
  tasks j t ht hmain := hregistered j _ (h.tasks j t ht hmain)

/-- Without calls the scheduler has nothing to do: while `cores` is empty the world is
the initial one, in which no inner step is possible. -/
theorem cores_of_move (h : s.Ready) (halive : s.world.crashed = false) {l : Label n}
    (hl : l.isInner) (hs : Move P s.world l w') : s.boot.cores ≠ 0 := by
  intro h0
  have hinitial := (h.idle h0).resolve_left (by simp [halive])
  rw [hinitial] at hs
  -- in the initial state there is nothing that such a step could take up
  cases hs with
  | newReq | start => cases hl
  | call v caller callee service function jsargs core now hv => cases hv
  | deliverRun i prev_cpu task now msgs hm => exact Multiset.zero_ne_cons hm
  | deliverReply i sender req_id call_id service ret now msgs hm => exact Multiset.zero_ne_cons hm
  | jsReply v call_id ret now hv => cases hv
  | jsThrow v call_id now hv => cases hv
  | jsReturn v call_id now hv => cases hv
  | callbackDone i call_id service callbacks hc => exact Multiset.zero_ne_cons hc
  | ack i acks hi => exact Multiset.zero_ne_cons hi

/-- A step that is late enough keeps what holds, and is one that start-up allows. -/
theorem step (h : s.Ready) (halive : s.world.crashed = false) {l : ServerLabel n} (hl : l.Late s)
    {s' : Server n} (hs : ServerMove readJson s l s') : s'.Ready ∧ StartedUp s l := by
  cases hs with
  | main stage stages hstages hawaited =>
    exact ⟨h.of_boot id fun _ _ hmem => hmem, trivial⟩
  | awaited i action msgs hmsgs =>
    exact ⟨h.of_boot Boot.cores_of_execute fun j _ hmem => Boot.registered_execute i j action hmem,
      trivial⟩
  | unawaited i action msgs hmsgs =>
    exact ⟨h.of_boot Boot.cores_of_execute fun j _ hmem => Boot.registered_execute i j action hmem,
      trivial⟩
  | accept i req_id service function args place now hlistening hfresh =>
    -- `cores` is not empty by assumption; or the core has no scheduler, and the program
    -- ends
    have hcores := hl.1 i req_id service function args place now rfl
    refine ⟨⟨fun h0 => ?_, fun j t ht hmain => ?_⟩, hcores⟩
    · left
      have hearly : ¬(i ∈ s.boot.schedulers ∧ s.boot.cores ≠ 0) := fun hready => hready.2 h0
      unfold Server.accept
      rw [if_neg hearly]
      rfl
    · unfold Server.accept at ht
      split at ht
      · have hmove : Move ⟨[], readJson⟩ s.world _ _ :=
          .newReq i req_id service function args place now hfresh
        rcases ht.of_move hmove with ht | hmakes
        · exact h.tasks j t ht hmain
        · exact hl.2 j _ hmakes hmain
      · exact h.tasks j t (ht.congr rfl rfl) hmain
  | start i task now tasks ht =>
    -- what is started is a task the core has, and so is for a service that is
    -- registered there
    have hmem : task ∈ (s.world.core i).tasks := by simp [ht]
    refine ⟨⟨fun h0 => ?_, fun j t ht' hmain => ?_⟩, h.tasks i task (.ready hmem)⟩
    · have hinitial := (h.idle h0).resolve_left (by simp [halive])
      rw [hinitial] at hmem
      cases hmem
    · unfold Server.start at ht'
      split at ht'
      · exact h.tasks j t (ht'.congr rfl rfl) hmain
      · have hmove : Move ⟨s.boot.registered i, readJson⟩ s.world _ _ := .start i task now tasks ht
        rcases ht'.of_move hmove with ht' | hmakes
        · exact h.tasks j t ht' hmain
        · exact hmakes.elim
  | inner l w' hinner hs =>
    -- an inner step needs a call, so `cores` is not empty; a call that it makes is late
    -- enough
    have hcores := h.cores_of_move halive hinner hs
    refine ⟨⟨fun h0 => (hcores h0).elim, fun j t ht hmain => ?_⟩, ?_⟩
    · rcases ht.of_move hs with ht | hmakes
      · exact h.tasks j t ht hmain
      · exact hl.2 j _ hmakes hmain
    · cases l with
      | newReq | start => cases hinner
      | call => exact hcores
      | _ => trivial

end Server.Ready

/-- **No call runs before start-up is complete**, in the runs in which calls are made
late enough: such a run is one in which no step uses an empty `cores` or enters a
context before its service is registered there. Start-up, requests and the scheduler
interleave in any way.

The invariant is `Server.Ready`: while `cores` is empty nothing has happened, and every
task that a core has, or will get, is for a service that is registered there. -/
theorem start_up_first (readJson : String → Option (ℤ × String)) (n : ℕ)
    (ls : List (ServerLabel n)) (s : Server n)
    (h : Run ((server readJson n).restrict fun s l => l.Late s) ls s) :
    Run ((server readJson n).restrict StartedUp) ls s := by
  have hready : Run ((server readJson n).restrict StartedUp) ls s ∧ s.Ready := by
    refine h.invariant
      (I := fun ls s => Run ((server readJson n).restrict StartedUp) ls s ∧ s.Ready) ?_ ?_
    -- there are no tasks in the beginning
    · rintro _ rfl
      refine ⟨.init rfl, fun _ => .inr rfl, fun j t ht _ => ?_⟩
      cases ht with
      | sent p hm => cases hm
      | parked c hc => cases hc
      | ready hmem => cases hmem
    · rintro ls s l s' - ⟨hrun, hready⟩ ⟨hl, halive, hs⟩
      obtain ⟨hready', hup⟩ := hready.step halive hl hs
      exact ⟨hrun.step ⟨hup, halive, hs⟩, hready'⟩
  exact hready.1

/-- One core: `user.js` is registered, then a request to it is accepted and started. -/
theorem start_up_first_user : ∃ ls s,
    Run ((server oneService.readJson 1).restrict StartedUp) ls s ∧
      s.world.log.getLast? = some (.started 0 firstUuid) := by
  have h₀ : Reachable ((server oneService.readJson 1).restrict fun s l => l.Late s)
      ⟨.initial 1, .initial 1⟩ := .of_init rfl
  have h₁ := (h₀.of_allowed ⟨rfl, .main _ _ rfl rfl⟩ trivial).of_allowed
    ⟨rfl, .awaited 0 .makeNetServer 0 rfl⟩ trivial
  have h₂ := (h₁.of_allowed ⟨rfl, .main _ _ rfl rfl⟩ trivial).of_allowed
    ⟨rfl, .unawaited 0 .netServerStart 0 rfl⟩ trivial
  have h₃ := (h₂.of_allowed ⟨rfl, .main _ _ rfl rfl⟩ trivial).of_allowed
    ⟨rfl, .awaited 0 .makeScheduler 0 rfl⟩ trivial
  have h₄ := (h₃.of_allowed ⟨rfl, .main _ _ rfl rfl⟩ trivial).of_allowed
    ⟨rfl, .awaited 0 .schedulerStart 0 rfl⟩ trivial
  have h₅ := (h₄.of_allowed ⟨rfl, .main _ _ rfl rfl⟩ trivial).of_allowed
    ⟨rfl, .awaited 0 .makeReqService 0 rfl⟩ trivial
  have h₆ := (h₅.of_allowed ⟨rfl, .main _ _ rfl rfl⟩ trivial).of_allowed
    ⟨rfl, .awaited 0 .reqServiceStart 0 rfl⟩ trivial
  -- main has started everything, and registers the service
  have h₇ := (h₆.of_allowed ⟨rfl, .main _ _ rfl rfl⟩ trivial).of_allowed
    ⟨rfl, .unawaited 0 (.registerService "user.js") 0 rfl⟩ trivial
  -- the service is registered on its core, so a request may come in
  have h₈ := h₇.of_allowed
    ⟨rfl, .accept 0 firstUuid "user.js" "f" "" 0 0 (by decide) (by decide)⟩ ⟨?_, ?_⟩
  · obtain ⟨ls, hrun⟩ := h₈.of_allowed
      ⟨rfl, .start 0 ⟨firstUuid, firstUuid, "user.js", "f", ""⟩ 0 0 rfl⟩
      ⟨nofun, fun _ _ hmakes => hmakes.elim⟩
    exact ⟨ls, _, start_up_first oneService.readJson 1 ls _ hrun, rfl⟩
  · intro _ _ _ _ _ _ _ _ _
    decide
  · rintro j service ⟨rfl, rfl⟩ -
    exact List.mem_singleton.2 rfl

/-- Two cores: the second one listens and has its scheduler, and a request comes before
the first one executes `scheduler::start`. -/
theorem request_before_cores : ¬∀ s s' l, Reachable (server oneService.readJson 2) s →
    (server oneService.readJson 2).step s l s' → StartedUp s l := by
  intro hup
  have h₀ : Reachable (server oneService.readJson 2) ⟨.initial 2, .initial 2⟩ := .of_init rfl
  have h₁ := ((h₀.of_step ⟨rfl, .main _ _ rfl rfl⟩).of_step
    ⟨rfl, .awaited 0 .makeNetServer {(1, .makeNetServer)} rfl⟩).of_step
      ⟨rfl, .awaited 1 .makeNetServer 0 rfl⟩
  have h₂ := ((h₁.of_step ⟨rfl, .main _ _ rfl rfl⟩).of_step
    ⟨rfl, .unawaited 0 .netServerStart {(1, .netServerStart)} rfl⟩).of_step
      ⟨rfl, .unawaited 1 .netServerStart 0 rfl⟩
  have h₃ := ((h₂.of_step ⟨rfl, .main _ _ rfl rfl⟩).of_step
    ⟨rfl, .awaited 0 .makeScheduler {(1, .makeScheduler)} rfl⟩).of_step
      ⟨rfl, .awaited 1 .makeScheduler 0 rfl⟩
  -- `net_server.start` has been called on both cores, and `scheduler.start` on none
  have hearly := hup _ _ _ h₃
    ⟨rfl, .accept 1 firstUuid "post.js" "compose" "" 1 0 (by decide) (by decide)⟩
  exact hearly (by decide) rfl

end Nanoservices
