import Nanoservices.Sched.Books
import Nanoservices.Sched.Estimates

/-!
# The samples of workflows

A workflow's statistics should have one sample for each of its requests that has been
replied to: the time from the request's start to its own reply. `rootsOf` reads these
times off the labels of a run. `reply` takes its samples elsewhere, at every call that
is answered from another core than the one it was made on; `statistics_whole_iff` says
for which runs this is the same.
-/

namespace Nanoservices

open World Lts OneCore

variable {n : ℕ} {P : Runtime} {w w' : World n} {c : Uuid} {ls : List (Label n)}

/-! ### What the statistics should be -/

/-- What should be known of requests: the workflow of each, when it arrived where it
runs, and the times that the requests of a workflow took which have been left. -/
structure Roots where
  func : Uuid → Option String
  start : Uuid → Option UInt64
  times : String → List UInt64

/-- The call is left. If it is a request that has arrived, the time since its start
counts; if it is a nested call, nothing does. -/
def Roots.complete (R : Roots) (c : Uuid) (now : UInt64) : Roots :=
  match R.func c, R.start c with
  | some func, some start =>
    { R with times := Function.update R.times func (R.times func ++ [now - start]) }
  | _, _ => R

/-- What a step says about requests, read off its label alone. -/
def Roots.after (R : Roots) : Label n → Roots
  | .newReq i req_id service function _ core now =>
    { R with
      func := Function.update R.func req_id (some (service ++ function))
      start := if core = i then Function.update R.start req_id (some now) else R.start }
  | .deliverRun _ _ task now =>
    if task.req_id = task.call_id then
      { R with start := Function.update R.start task.req_id (some now) }
    else R
  | .jsReply c _ now | .jsThrow c now => R.complete c now
  | _ => R

/-- What the labels of a run say about its requests. -/
def rootsOf (ls : List (Label n)) : Roots :=
  ls.foldl Roots.after ⟨fun _ => none, fun _ => none, fun _ => []⟩

/-- The statistics are those of the times: the number and the sum in the window, and as
`exec_time` the floor of their quotient. -/
structure WfStates.Counts (s : WfStates) (times : List UInt64) : Prop where
  count : s.count.toNat = (window 1000 times).length
  total : s.total_exec_time.toNat = (window 1000 times).sum % 2 ^ 64
  exec_time : times ≠ [] → s.exec_time.toInt = (s.total_exec_time.toNat / s.count.toNat : ℕ)

/-- The statistics of every workflow are those of its requests' times. -/
def CountsWhole (times : String → List UInt64) (w : World n) : Prop :=
  ∀ func, match w.wf_map func with
    | some states => states.Counts (times func)
    | none => times func = []

/-- **Statistics count whole workflows**, after each step of the run while the program
is alive. This is a property of the run as the labels tell it and of the worlds it goes
through. -/
def StatisticsWhole (P : Runtime) (ls : List (Label n)) : Prop :=
  ∀ before w, before <+: ls → Run (scheduler P n) before w → w.crashed = false →
    CountsWhole (rootsOf before).times w

/-- The floor of the window's mean, of the sum in 64 bits. It is the value that is to be
stored in an `int`. -/
def windowMean (times : List UInt64) : ℕ :=
  (window 1000 times).sum % 2 ^ 64 / (window 1000 times).length

/-- If a function leaves its call in this step, the call is a request that runs on
another core than accepted it, with a mean below `2 ^ 31`, or a nested call that runs
where it was made. A step that crashes the program counts nothing, and neither does
one that leaves no call. All of it can be read off the state before the step, and the
label. -/
def Label.CountsRoot (P : Runtime) (R : Roots) (w : World n) (l : Label n) : Prop :=
  l.Safe P w → ∀ i c o k, l.event w = some (.left i c o) → w.call c = some k →
    (k.caller = none ↔ k.place ≠ k.origin) ∧
      ∀ func, R.func c = some func → windowMean ((R.after l).times func) < 2 ^ 31

/-! ### Requests in the ledger -/

/-- The workflow of a request, which is named after the function it is for; none for a
nested call. -/
def World.request (w : World n) (c : Uuid) : Option String :=
  (w.call c).bind fun k =>
    if k.caller = none then some (k.task.service ++ k.task.function) else none

theorem request_of_call {k : Call n} (hk : w.call c = some k) (hroot : k.caller = none) :
    w.request c = some (k.task.service ++ k.task.function) := by
  simp [World.request, hk, hroot]

theorem request_of_nested {k : Call n} (hk : w.call c = some k) (hroot : k.caller ≠ none) :
    w.request c = none := by
  simp [World.request, hk, hroot]

/-- Only the step that accepts a request makes one, and no step takes one away. -/
theorem Accounted.request_of_step (h : Accounted P w) (h' : Accounted P w') {l : Label n}
    (hs : Move P w l w')
    (hnew : ∀ i task, l.event w = some (.called i none task) → task.call_id ≠ c) :
    w'.request c = w.request c := by
  have hsame : ∀ {k k' : Call n}, w.call c = some k → w'.call c = some k' → k'.task = k.task →
      k'.caller = k.caller → w'.request c = w.request c := by
    intro k k' hk hk' htask hcaller
    simp only [World.request, hk, hk', Option.bind_some, htask, hcaller]
  cases hk' : w'.call c with
  | none =>
    cases hk : w.call c with
    | none => simp [World.request, hk, hk']
    | some k =>
      obtain ⟨k'', hk''⟩ := call_stays hs hk
      cases hk'.symm.trans hk''
  | some k' =>
    -- the call was there before, was made just now below another one, or has just been
    -- left
    rcases h.call_cases hs hk' with ⟨k, hk, hf⟩ | ⟨i, hnone, he, hf⟩ | ⟨k, o, hk, -, -, hf⟩
    · exact hsame hk hk' hf.task hf.caller
    · have hnested : k'.caller ≠ none := fun hroot =>
        hnew i k'.task (hroot ▸ he) (h'.sound c k' hk').call_id
      rw [request_of_nested hk' hnested, World.request, hnone]
      rfl
    · exact hsame hk hk' hf.task hf.caller

/-- A request is placed on the core `get_core` chose, and sent there if that is another
one. -/
theorem placed_root {i prev_cpu core : Fin n} {task : Task} {now : UInt64}
    (hroot : task.req_id = task.call_id)
    (halive : (w.place i prev_cpu task core now).crashed = false) :
    (∃ fused, .placed core task.call_id fused ∈ (w.place i prev_cpu task core now).log) ∧
      (core ≠ i → .runFunc core prev_cpu task ∈ (w.place i prev_cpu task core now).msgs) := by
  rcases place_cases w i prev_cpu task core now with
    ⟨-, hnested, -⟩ | ⟨fuse, exec_time, -, -, hplace⟩ | ⟨-, hplace⟩
  · exact absurd hroot hnested
  -- it is placed, and sent unless it is handled here
  · have hmem : Event.placed core task.call_id fuse ∈
        ((w.getCore core exec_time task.call_id now).record (.placed core task.call_id fuse)).log :=
      List.mem_append_right _ List.mem_cons_self
    rw [hplace]
    split
    · next hcore => exact ⟨⟨fuse, (Quietly.runFunc ..).mem_log hmem⟩, fun hne => absurd hcore hne⟩
    · exact ⟨⟨fuse, hmem⟩, fun _ => Multiset.mem_cons_self _ _⟩
  · rw [hplace] at halive
    cases halive

/-- A request that has been accepted is placed, and sent unless it stays. -/
theorem InOrder.call_newReq (h' : InOrder P w') {i core : Fin n} {req_id : Uuid}
    {service function args : String} {now : UInt64}
    (hs : Move P w (.newReq i req_id service function args core now) w') :
    ∃ k, w'.call req_id = some k ∧ k.caller = none ∧
      k.task = ⟨req_id, req_id, service, function, args⟩ ∧ k.place = core ∧
      (core ≠ i → k.stage = .sent) := by
  have ha' := h'.accounted
  -- the step logs the request, so there is a call for it
  have hcalled : .called i none ⟨req_id, req_id, service, function, args⟩ ∈ w'.log := by
    obtain ⟨es, hlog, -⟩ := step_log hs
    rw [hlog]
    exact List.mem_append_left _ (List.mem_append_right _ List.mem_cons_self)
  obtain ⟨k, hk, hmem⟩ : ∃ k, w'.call req_id = some k ∧
      Event.called i none ⟨req_id, req_id, service, function, args⟩ ∈ k.events P :=
    ha'.call_of_mem hcalled
  obtain ⟨-, hroot, htask⟩ := (k.mem_events_called P _ _ _).1 hmem
  have halive := ha'.alive
  cases hs with
  | newReq _ _ _ _ _ _ _ hfresh =>
    unfold World.newReq at *
    rw [World.schedule] at *
    obtain ⟨⟨fused, hplaced⟩, hsent⟩ := placed_root rfl halive
    have hid : k.task.call_id = req_id := by rw [← htask]
    have hevent := (ha'.mem_log hk rfl).1 hplaced
    dsimp only at hevent
    rw [← hid] at hevent
    refine ⟨k, hk, hroot.symm, htask.symm, ((k.mem_events_placed P _ _).1 hevent).1.symm,
      fun hne => ?_⟩
    obtain ⟨k', hk', hstage, -⟩ := ha'.call_of_runFunc (hsent hne)
    obtain rfl := Option.some.inj (hk.symm.trans hk')
    exact hstage

/-- A call that was under way and is on its core now has arrived in this step. -/
theorem Accounted.deliverRun_of_here (h : Accounted P w) (h' : Accounted P w') {l : Label n}
    (hs : Move P w l w') {k k' : Call n} (hk : w.call c = some k) (hsent : k.stage = .sent)
    (hk' : w'.call c = some k') (hhere : k'.stage.isHere) :
    ∃ now, l = .deliverRun k.place k.origin k.task now := by
  -- the call had been sent, so its message was under way; it is here now, so the
  -- message has been taken
  have hm : .runFunc k.place k.origin k.task ∈ w.msgs := by
    have hmem : Msg.runFunc k.place k.origin k.task ∈ (w.view c).msgs := by
      rw [h.view_of_call hk]
      simp [Call.view, Call.msgs, hsent]
    exact (Multiset.mem_filter.1 hmem).1
  rcases mem_msgs_of_step hs hm with hm' | hm'
  · -- the message would still be under way
    obtain ⟨k'', hk'', hstage, -⟩ := h'.call_of_runFunc hm'
    rw [(h.sound c k hk).call_id] at hk''
    obtain rfl := Option.some.inj (hk'.symm.trans hk'')
    simp [hstage] at hhere
  · cases l <;> simp only [Label.msg, Option.some.injEq, reduceCtorEq] at hm'
    next core prev_cpu task now =>
    obtain ⟨rfl, rfl, rfl⟩ := Msg.runFunc.inj hm'
    exact ⟨now, rfl⟩

/-- A request that is new and on its core was placed on the core that accepted it. -/
theorem InOrder.newReq_of_here (h' : InOrder P w') {l : Label n} (hs : Move P w l w')
    {k' : Call n} (hk' : w'.call c = some k') (hhere : k'.stage.isHere) {i : Fin n}
    (he : l.event w = some (.called i none k'.task)) :
    ∃ service function args now, l = .newReq k'.place c service function args k'.place now := by
  cases l with
  | newReq j req_id service function args core now =>
    obtain ⟨k, hk, -, htask, hplace, hsent⟩ := h'.call_newReq hs
    simp only [Label.event, Option.some.injEq, Event.called.injEq, true_and] at he
    obtain ⟨rfl, he⟩ := he
    have hid : req_id = c := by
      rw [← (h'.accounted.sound c k' hk').call_id, ← he]
    subst hid
    obtain rfl := Option.some.inj (hk.symm.trans hk')
    -- had it been placed elsewhere it would still be under way
    obtain rfl : core = j := by
      by_contra hne
      simp [hsent hne] at hhere
    exact ⟨service, function, args, now, by rw [hplace]⟩
  | call caller callee service function jsargs core now =>
    cases hv : w.js caller <;> simp [Label.event, hv] at he
  | jsReply c' ret now =>
    cases hv : w.js c' <;> simp [Label.event, hv] at he
  | jsThrow c' now =>
    cases hv : w.js c' <;> simp [Label.event, hv] at he
  | _ => cases he

/-- **How a request comes to be on its core**: it was there before the step, or it
arrives in the step, or it is accepted and placed on the same core. In the first case
the step has not left it. -/
theorem InOrder.here_of_step (h : InOrder P w) (h' : InOrder P w') {l : Label n}
    (hs : Move P w l w') {k' : Call n} (hk' : w'.call c = some k') (hroot : k'.caller = none)
    (hhere : k'.stage.isHere) :
    (∃ k, w.call c = some k ∧ k.caller = none ∧ k.place = k'.place ∧ k.stage.isHere ∧
      ∀ i o, l.event w ≠ some (.left i c o)) ∨
    (∃ prev_cpu now, l = .deliverRun k'.place prev_cpu k'.task now) ∨
    ∃ service function args now, l = .newReq k'.place c service function args k'.place now := by
  have ha := h.accounted
  have ha' := h'.accounted
  have houtcome : k'.stage.outcome = none := by
    cases hst : k'.stage <;> simp [hst] at hhere ⊢
  rcases ha.call_cases hs hk' with ⟨k, hk, hf⟩ | ⟨i, hnone, he, hf⟩ | ⟨k, o, hk, -, -, hf⟩
  · have hplacing : k.stage ≠ .placing := fun hstage => h.placed c ⟨k, hk, hstage⟩
    obtain ⟨-, hplace, -⟩ := hf.placed hplacing
    by_cases hk_here : k.stage.isHere
    · refine .inl ⟨k, hk, hf.caller ▸ hroot, hplace.symm, hk_here, fun i o he => ?_⟩
      -- a call that is left is not there any more
      have hleft := (ha'.hasLeft_iff hk').1 ((hasLeft_of_step hs).2 (.inr ⟨i, o, he⟩))
      rw [houtcome] at hleft
      cases hleft
    · -- it was under way
      have hsent : k.stage = .sent := by
        have ho := hf.outcome
        rw [houtcome] at ho
        cases hst : k.stage <;> simp [hst] at ho hplacing hk_here ⊢
      obtain ⟨now, hl⟩ := ha.deliverRun_of_here ha' hs hk hsent hk' hhere
      exact .inr (.inl ⟨k.origin, now, by rw [hl, hplace, hf.task]⟩)
  · exact .inr (.inr (h'.newReq_of_here hs hk' hhere (by rw [← hroot]; exact he)))
  · rw [hf.outcome] at houtcome
    cases houtcome

/-! ### The sample of a call that is left -/

/-- A step that leaves a call: the times after it count the call if it is a request, and
the books after it are sampled if it came from another core. `CountsRoot` asks that
these be the same. -/
theorem InOrder.left_step (h : InOrder P w) {l : Label n} (hs : Move P w l w')
    (halive : w'.crashed = false) {i : Fin n} {o : Outcome} (he : l.event w = some (.left i c o))
    {k : Call n} (hk : w.call c = some k) :
    ∃ now, k.stage = .running ∧ (∀ R : Roots, R.after l = R.complete c now) ∧
      w'.books = w.books.leave k now := by
  have ha := h.accounted
  have hbooks := h.books_step hs halive
  obtain ⟨k₁, -, rfl, hk₁, hrunning, -⟩ := h.leaves hs (h.safe_of_alive hs halive) he
  obtain rfl := Option.some.inj (hk.symm.trans hk₁)
  -- the call that is left is the one whose JavaScript takes the step
  have hid : ∀ {c v}, w.js c = some v → v.task.call_id = c := by
    intro c v hv
    obtain ⟨k, hk, -, -, htask, -⟩ := ha.call_of_js hv
    rw [htask, (ha.sound _ k hk).call_id]
  cases hs with
  | jsReply v call_id ret now hv =>
    simp only [Label.event, hv, Option.map_some, Option.some.injEq, Event.left.injEq] at he
    obtain rfl : call_id = k.task.call_id := by rw [← he.2.1, hid hv]
    rw [Label.keep, hk, Option.elim_some] at hbooks
    exact ⟨now, hrunning, fun R => rfl, hbooks⟩
  | jsThrow v call_id now hv hbody =>
    simp only [Label.event, hv, Option.map_some, Option.some.injEq, Event.left.injEq] at he
    obtain rfl : call_id = k.task.call_id := by rw [← he.2.1, hid hv]
    rw [Label.keep, hk, Option.elim_some] at hbooks
    exact ⟨now, hrunning, fun R => rfl, hbooks⟩
  | call v caller callee service function jsargs core now hv hfresh =>
    simp [Label.event, hv] at he
  | _ => cases he

/-- A sample has changed the number in the window. -/
theorem length_window_append_ne (times : List UInt64) (time : UInt64) :
    (window 1000 (times ++ [time])).length ≠ (window 1000 times).length := by
  rw [length_window_append]
  rcases eq_or_ne times [] with rfl | hne
  · decide
  · have hpos := List.length_pos_of_ne_nil hne
    rw [length_window hne]
    omega

/-- The quotient that a sample stores is the window's mean. -/
theorem windowMean_eq (fuse : Bool) (times : List UInt64) (time : UInt64) :
    ((WfStates.run fuse (times ++ [time])).total_exec_time /
      (WfStates.run fuse (times ++ [time])).count.toUInt64).toNat =
      windowMean (times ++ [time]) := by
  obtain ⟨hcount, htotal⟩ := WfStates.run_eq fuse (times ++ [time])
  rw [UInt64.toNat_div, UInt32.toNat_toUInt64, hcount, htotal, windowMean]

/-- The statistics after samples of these times are right while the mean is small: the
number and the sum always are, but `exec_time` is 32 bits of the quotient. -/
theorem counts_run_iff (fuse : Bool) (times : List UInt64) :
    (WfStates.run fuse times).Counts times ↔ (times ≠ [] → windowMean times < 2 ^ 31) := by
  obtain ⟨hcount, htotal⟩ := WfStates.run_eq fuse times
  have hexec : times ≠ [] → ((WfStates.run fuse times).exec_time.toInt =
      ((WfStates.run fuse times).total_exec_time.toNat /
        (WfStates.run fuse times).count.toNat : ℕ) ↔ windowMean times < 2 ^ 31) := by
    intro hne
    -- after the last sample the mean is stored, in the width of an `int`
    obtain ⟨times, time, rfl⟩ := (List.eq_nil_or_concat' times).resolve_left hne
    have hmean := windowMean_eq fuse times time
    have hstored : (WfStates.run fuse (times ++ [time])).exec_time =
        toInt ((WfStates.run fuse (times ++ [time])).total_exec_time /
          (WfStates.run fuse (times ++ [time])).count.toUInt64) := by
      rw [WfStates.run_append]
      rfl
    rw [← hmean, ← toInt_toInt, hstored, UInt64.toNat_div, UInt32.toNat_toUInt64]
  exact ⟨fun h hne => (hexec hne).1 (h.exec_time hne),
    fun h => ⟨hcount, htotal, fun hne => (hexec hne).2 (h hne)⟩⟩

/-! ### The invariant -/

/-- **The books are kept of requests.**

* `func`, `workflow`: they are entered under their workflows, which have statistics;
* `start`: a request that is on its core has its start recorded there, and it is the
  right one;
* `stats`: the statistics are those after a sample of each time that counts, in order;
* `small`: the means are small enough to be stored.

The fields speak of requests that are still there; what is recorded of a request that
has been left does not matter any more. -/
structure Kept (R : Roots) (w : World n) : Prop where
  func : ∀ c, R.func c = w.request c
  workflow : ∀ {c func}, w.request c = some func →
    w.books.req_wf_map c = some func ∧ ∃ states, w.books.wf_map func = some states
  start : ∀ {c k}, w.call c = some k → k.caller = none → k.stage.isHere →
    ∃ start, R.start c = some start ∧ w.books.starts k.place c = some start
  stats : ∀ func, w.books.wf_map func = none ∧ R.times func = [] ∨
    ∃ fuse, w.books.wf_map func = some (.run fuse (R.times func))
  small : ∀ func, R.times func ≠ [] → windowMean (R.times func) < 2 ^ 31

/-- If the books are kept, the statistics are whole. -/
theorem Kept.countsWhole {R : Roots} (h : Kept R w) : CountsWhole R.times w := by
  intro func
  rcases h.stats func with ⟨hnone, htimes⟩ | ⟨fuse, hstates⟩
  · rw [show w.wf_map func = none from hnone]
    exact htimes
  · rw [show w.wf_map func = _ from hstates]
    exact (counts_run_iff fuse _).2 (h.small func)

/-- In the beginning there are neither requests nor statistics. -/
theorem Kept.initial : Kept (rootsOf ([] : List (Label n))) (.initial n) where
  func c := rfl
  workflow hc := by cases hc
  start hk := by simp at hk
  stats func := .inl ⟨rfl, rfl⟩
  small func hne := absurd rfl hne

/-- The statistics of a workflow are those after its requests' times. -/
theorem Kept.wf_map_of_some {R : Roots} (h : Kept R w) {func : String} {states : WfStates}
    (hstates : w.books.wf_map func = some states) :
    ∃ fuse, w.books.wf_map func = some (.run fuse (R.times func)) := by
  refine (h.stats func).resolve_left ?_
  rintro ⟨hnone, -⟩
  rw [hstates] at hnone
  cases hnone

/-- A workflow without statistics has had no request. -/
theorem Kept.times_of_none {R : Roots} (h : Kept R w) {func : String}
    (hnone : w.books.wf_map func = none) : R.times func = [] := by
  rcases h.stats func with ⟨-, htimes⟩ | ⟨fuse, hstates⟩
  · exact htimes
  · rw [hnone] at hstates
    cases hstates

/-- What a sample does: a time is added to the workflow the call is part of. -/
theorem Kept.sample {R : Roots} (h : Kept R w) (ha : Accounted P w) {k : Call n}
    (hk : w.call c = some k) (i : Fin n) (now : UInt64) :
    ∃ func fuse, w.request k.task.req_id = some func ∧
      w.books.wf_map func = some (.run fuse (R.times func)) ∧
      (w.books.sample i k.task.req_id now).wf_map = Function.update w.books.wf_map func
        (some (.run fuse
          (R.times func ++ [now - (w.books.starts i k.task.req_id).getD 0]))) := by
  -- the root of the call says which workflow gets the sample
  obtain ⟨r, hr, hroot⟩ := (ha.sound c k hk).root
  obtain ⟨hfunc, states, hstates⟩ := h.workflow (request_of_call hr hroot)
  obtain ⟨fuse, hrun⟩ := h.wf_map_of_some hstates
  refine ⟨_, fuse, request_of_call hr hroot, hrun, ?_⟩
  simp only [Books.sample, hfunc, Option.bind_eq_bind, Option.bind_some, hrun,
    WfStates.run_append]

@[simp] theorem Roots.func_complete (R : Roots) (now : UInt64) :
    (R.complete c now).func = R.func := by
  unfold Roots.complete
  split <;> rfl

@[simp] theorem Roots.start_complete (R : Roots) (now : UInt64) :
    (R.complete c now).start = R.start := by
  unfold Roots.complete
  split <;> rfl

/-- A nested call that is left does not count. -/
theorem Kept.complete_nested {R : Roots} (h : Kept R w) {k : Call n} (hk : w.call c = some k)
    (hroot : k.caller ≠ none) (now : UInt64) : R.complete c now = R := by
  rw [Roots.complete, h.func, request_of_nested hk hroot]

/-- A request that is left: the time that counts is the one of the sample. -/
theorem Kept.complete_root {R : Roots} (h : Kept R w) {k : Call n} (hk : w.call c = some k)
    (hroot : k.caller = none) (hhere : k.stage.isHere) {func : String}
    (hfunc : w.request c = some func) (now : UInt64) :
    (R.complete c now).times = Function.update R.times func
      (R.times func ++ [now - (w.books.starts k.place c).getD 0]) := by
  obtain ⟨start, hstart, hstarts⟩ := h.start hk hroot hhere
  rw [Roots.complete, h.func, hfunc, hstart, hstarts]
  rfl

/-- Nothing happens to the books. -/
theorem Kept.of_books {R : Roots} (h : Kept R w) (hbooks : w'.books = w.books)
    (hrequest : ∀ c, w'.request c = w.request c)
    (hhere : ∀ {c k'}, w'.call c = some k' → k'.caller = none → k'.stage.isHere →
      ∃ k, w.call c = some k ∧ k.caller = none ∧ k.place = k'.place ∧ k.stage.isHere) :
    Kept R w' where
  func c := (h.func c).trans (hrequest c).symm
  workflow hc := by
    rw [hbooks]
    exact h.workflow (by rw [← hrequest]; exact hc)
  -- the request was here before, on the same core
  start hk' hroot' hhere' := by
    obtain ⟨k, hk, hroot, hplace, hk_here⟩ := hhere hk' hroot' hhere'
    rw [hbooks, ← hplace]
    exact h.start hk hroot hk_here
  stats := by
    rw [hbooks]
    exact h.stats
  small := h.small

/-- The sample of a request is taken as it is left. -/
theorem Kept.of_sample {R : Roots} (h : Kept R w) (ha : Accounted P w) {k : Call n} {now : UInt64}
    (hk : w.call c = some k) (hroot : k.caller = none) (hhere : k.stage.isHere)
    (hbooks : w'.books = w.books.sample k.place c now)
    (hrequest : ∀ c, w'.request c = w.request c)
    (hothers : ∀ {c' k'}, w'.call c' = some k' → k'.caller = none → k'.stage.isHere →
      ∃ k, w.call c' = some k ∧ k.caller = none ∧ k.place = k'.place ∧ k.stage.isHere ∧ c' ≠ c)
    (hsmall : ∀ func, R.func c = some func →
      windowMean ((R.complete c now).times func) < 2 ^ 31) :
    Kept (R.complete c now) w' := by
  have hreq_id : k.task.req_id = c := (ha.sound _ k hk).caller_none.1 hroot
  obtain ⟨func, fuse, hfunc, -, hsample⟩ := h.sample ha hk k.place now
  rw [hreq_id, ← hbooks] at hsample
  rw [hreq_id] at hfunc
  have htimes := h.complete_root hk hroot hhere hfunc now
  refine ⟨fun c => ?_, fun hc => ?_, fun hk' hroot' hhere' => ?_, fun func' => ?_,
    fun func' => ?_⟩
  -- `func`
  · rw [Roots.func_complete, hrequest, h.func]
  -- `workflow`: the workflow of the request has new statistics, the others have their old ones
  · rw [hrequest] at hc
    obtain ⟨hreq, states, hold⟩ := h.workflow hc
    refine ⟨by rw [hbooks, Books.req_wf_map_sample, hreq], ?_⟩
    rw [hsample, Function.update_apply]
    split
    · exact ⟨_, rfl⟩
    · exact ⟨states, hold⟩
  -- `start`: the start that is erased is the request's own
  · obtain ⟨k₁, hk₁, hroot₁, hplace₁, hhere₁, hne⟩ := hothers hk' hroot' hhere'
    rw [Roots.start_complete, hbooks, Books.starts_sample_of_ne _ _ _ hne, ← hplace₁]
    exact h.start hk₁ hroot₁ hhere₁
  -- `stats`
  · rw [hsample, htimes]
    by_cases hf : func' = func
    · subst hf
      exact .inr ⟨fuse, by simp⟩
    · simpa [hf] using h.stats func'
  -- `small`
  · intro hne
    by_cases hf : func' = func
    · subst hf
      exact hsmall func' ((h.func _).trans hfunc)
    · rw [htimes, Function.update_of_ne hf] at hne ⊢
      exact h.small func' hne

/-- A call is left. A request ran on another core than accepted it, so a sample of it is
taken (`Kept.of_sample`); a nested call ran where it was made, so none is. -/
theorem InOrder.kept_leave {R : Roots} (h : InOrder P w) (h' : InOrder P w') (hkept : Kept R w)
    {l : Label n} (hs : Move P w l w') (hcounts : l.CountsRoot P R w) {i : Fin n} {o : Outcome}
    (he : l.event w = some (.left i c o)) : Kept (R.after l) w' := by
  have ha := h.accounted
  have hsafe := h.safe_of_alive hs h'.accounted.alive
  obtain ⟨k, -, rfl, hk, -⟩ := h.leaves hs hsafe he
  obtain ⟨now, hrunning, hafter, hbooks⟩ := h.left_step hs h'.accounted.alive he hk
  have hhere : k.stage.isHere := by simp [hrunning]
  obtain ⟨hwhere, hsmall⟩ := hcounts hsafe i _ o k he hk
  rw [Books.leave] at hbooks
  rw [hafter] at hsmall ⊢
  have hrequest : ∀ c, w'.request c = w.request c := fun c =>
    ha.request_of_step h'.accounted hs fun j task hcalled => by
      rw [he] at hcalled
      cases hcalled
  -- the requests that are still there
  have hothers : ∀ {c k'}, w'.call c = some k' → k'.caller = none → k'.stage.isHere →
      ∃ k₁, w.call c = some k₁ ∧ k₁.caller = none ∧ k₁.place = k'.place ∧ k₁.stage.isHere ∧
        c ≠ k.task.call_id := by
    intro c k' hk' hroot' hhere'
    rcases h.here_of_step h' hs hk' hroot' hhere' with
      ⟨k₁, hk₁, hroot₁, hplace₁, hhere₁, hnot⟩ | ⟨prev_cpu, t, rfl⟩ | ⟨service, func, args, t, rfl⟩
    · exact ⟨k₁, hk₁, hroot₁, hplace₁, hhere₁, fun hc => hnot i o (hc ▸ he)⟩
    · cases he
    · cases he
  by_cases hroot : k.caller = none
  · rw [if_neg (hwhere.1 hroot), (ha.sound _ k hk).caller_none.1 hroot] at hbooks
    exact hkept.of_sample ha hk hroot hhere hbooks hrequest hothers hsmall
  · -- a nested call takes no sample
    rw [if_pos (by_contra fun hplace => hroot (hwhere.2 hplace))] at hbooks
    rw [hkept.complete_nested hk hroot]
    refine hkept.of_books hbooks hrequest fun hk' hroot' hhere' => ?_
    obtain ⟨k₁, hk₁, hroot₁, hplace₁, hhere₁, -⟩ := hothers hk' hroot' hhere'
    exact ⟨k₁, hk₁, hroot₁, hplace₁, hhere₁⟩

/-- A request arrives where it runs, and has its start from now on. For a nested call
nothing changes. -/
theorem InOrder.kept_deliverRun {R : Roots} (h : InOrder P w) (h' : InOrder P w')
    (hkept : Kept R w) {i prev_cpu : Fin n} {task : Task} {now : UInt64}
    (hs : Move P w (.deliverRun i prev_cpu task now) w') :
    Kept (R.after (.deliverRun i prev_cpu task now)) w' := by
  have hbooks : w'.books = w.books.begin i task now := h.books_step hs h'.accounted.alive
  have hrequest : ∀ c, w'.request c = w.request c := fun c =>
    h.accounted.request_of_step h'.accounted hs fun j task hcalled => by cases hcalled
  have hsame : (R.after (.deliverRun i prev_cpu task now)).func = R.func ∧
      (R.after (.deliverRun i prev_cpu task now)).times = R.times := by
    simp only [Roots.after]
    split <;> exact ⟨rfl, rfl⟩
  refine ⟨fun c => ?_, fun hc => ?_, fun {c k'} hk' hroot' hhere' => ?_, ?_, ?_⟩
  -- `func`
  · rw [hsame.1, hrequest, hkept.func]
  -- `workflow`
  · rw [hbooks, Books.req_wf_map_begin, Books.wf_map_begin]
    exact hkept.workflow (by rw [← hrequest]; exact hc)
  -- `start`: the request that arrives has its start now, the others have theirs
  · rcases h.here_of_step h' hs hk' hroot' hhere' with
      ⟨k, hk, hroot, hplace, hhere, -⟩ | ⟨prev_cpu', t, hl⟩ | ⟨service, func, args, t, hl⟩
    · -- what arrives was under way
      have hne : c ≠ task.call_id := by
        rintro rfl
        cases hs with
        | deliverRun _ _ _ _ msgs hm =>
          obtain ⟨k₀, hk₀, hsent, -⟩ :=
            h.accounted.call_of_runFunc (hm ▸ Multiset.mem_cons_self _ _)
          obtain rfl := Option.some.inj (hk.symm.trans hk₀)
          simp [hsent] at hhere
      obtain ⟨start, hstart, hstarts⟩ := hkept.start hk hroot hhere
      rw [hbooks, Books.starts_begin_of_ne _ _ _ hne, ← hplace]
      refine ⟨start, ?_, hstarts⟩
      simp only [Roots.after]
      split
      · next hreq_id => simpa [hreq_id, hne] using hstart
      · exact hstart
    · -- it is the one that arrives
      obtain ⟨rfl, rfl, rfl, rfl⟩ := Label.deliverRun.inj hl
      have hsound := h'.accounted.sound _ k' hk'
      have hreq_id : k'.task.req_id = k'.task.call_id := by
        rw [hsound.call_id]
        exact hsound.caller_none.1 hroot'
      have hc : c = k'.task.req_id := (hsound.caller_none.1 hroot').symm
      refine ⟨now, ?_, ?_⟩
      · rw [Roots.after, if_pos hreq_id, hc]
        simp
      · rw [hbooks, hc]
        exact Books.starts_begin_self _ _ hreq_id now
    · cases hl
  · rw [hbooks, Books.wf_map_begin, hsame.2]
    exact hkept.stats
  · rw [hsame.2]
    exact hkept.small

/-- A request is accepted: it is entered, and begins if it stays on its core. Its
workflow may be new, or have statistics from earlier requests. -/
theorem InOrder.kept_newReq {R : Roots} (h : InOrder P w) (h' : InOrder P w') (hkept : Kept R w)
    {i core : Fin n} {req_id : Uuid} {service function args : String} {now : UInt64}
    (hs : Move P w (.newReq i req_id service function args core now) w') :
    Kept (R.after (.newReq i req_id service function args core now)) w' := by
  have hbooks := h.books_step hs h'.accounted.alive
  have hreq : w'.books.req_wf_map = _ := hbooks ▸ req_wf_map_keep_newReq ..
  have hwf : w'.books.wf_map = _ := hbooks ▸ wf_map_keep_newReq ..
  obtain ⟨k₀, hk₀, hroot₀, htask₀, -, -⟩ := h'.call_newReq hs
  have hfresh : w.call req_id = none := by
    cases hs with
    | newReq _ _ _ _ _ _ _ hfresh => exact h.accounted.call_of_fresh hfresh
  have hrequest : ∀ c, c ≠ req_id → w'.request c = w.request c := fun c hc =>
    h.accounted.request_of_step h'.accounted hs fun j task hcalled => by
      obtain ⟨-, -, rfl⟩ := Event.called.inj (Option.some.inj hcalled)
      exact hc.symm
  have hnew : w'.request req_id = some (service ++ function) := by
    rw [request_of_call hk₀ hroot₀, htask₀]
  have hentered := w.books.wf_map_enter req_id service (service ++ function)
  rw [← hwf] at hentered
  refine ⟨fun c => ?_, fun {c func} hc => ?_, fun {c k'} hk' hroot' hhere' => ?_,
    fun func => ?_, hkept.small⟩
  -- `func`: the request is entered on both sides
  · show Function.update R.func req_id (some (service ++ function)) c = _
    by_cases hc : c = req_id
    · rw [hc, hnew, Function.update_self]
    · rw [hrequest c hc, Function.update_of_ne hc, hkept.func]
  -- `workflow`: statistics that were there stay
  · by_cases hreq_id : c = req_id
    · subst hreq_id
      obtain rfl : service ++ function = func := Option.some.inj (hnew.symm.trans hc)
      refine ⟨by rw [hreq, Function.update_self], ?_⟩
      rcases hentered (service ++ function) with ⟨hsame, hsome⟩ | ⟨-, -, hmade⟩
      · rw [hsame]
        exact Option.ne_none_iff_exists'.1 (hsome rfl)
      · exact ⟨_, hmade⟩
    · rw [hrequest c hreq_id] at hc
      obtain ⟨hold, states, hstates⟩ := hkept.workflow hc
      refine ⟨by rw [hreq, Function.update_of_ne hreq_id, hold], ?_⟩
      rcases hentered func with ⟨hsame, -⟩ | ⟨-, -, hmade⟩
      · exact ⟨states, hsame.trans hstates⟩
      · exact ⟨_, hmade⟩
  -- `start`
  · rcases h.here_of_step h' hs hk' hroot' hhere' with
      ⟨k, hk, hroot, hplace, hhere, -⟩ | ⟨prev_cpu, t, hl⟩ | ⟨service', function', args', t, hl⟩
    · have hne : c ≠ req_id := by
        rintro rfl
        rw [hk] at hfresh
        cases hfresh
      obtain ⟨start, hstart, hstarts⟩ := hkept.start hk hroot hhere
      rw [hbooks, starts_keep_newReq_of_ne _ _ _ _ _ _ _ _ _ _ hne, ← hplace]
      refine ⟨start, ?_, hstarts⟩
      simp only [Roots.after]
      split
      · rw [Function.update_of_ne hne, hstart]
      · exact hstart
    · cases hl
    · -- it is the new one, and stays where it was accepted
      obtain ⟨rfl, rfl, rfl, rfl, rfl, rfl, rfl⟩ := Label.newReq.inj hl
      refine ⟨now, ?_, ?_⟩
      · simp only [Roots.after, if_true]
        exact Function.update_self ..
      · rw [hbooks, starts_keep_newReq_self]
  -- `stats`: new statistics are those of no request, and there was none of the workflow
  · show _ ∨ ∃ fuse, _ = some (WfStates.run fuse (R.times func))
    rcases hentered func with ⟨hsame, -⟩ | ⟨-, hnone, hmade⟩
    · rw [hsame]
      exact hkept.stats func
    · exact .inr ⟨_, by rw [hmade, hkept.times_of_none hnone]; rfl⟩

/-- **Every step keeps the books** while the sample is taken where a request is left.
Three kinds of steps have to do with requests, and each has its lemma; `hquiet` is for
all others. -/
theorem InOrder.kept_step {R : Roots} (h : InOrder P w) (h' : InOrder P w') (hkept : Kept R w)
    {l : Label n} (hs : Move P w l w') (hcounts : l.CountsRoot P R w) :
    Kept (R.after l) w' := by
  by_cases hleft : ∃ i c o, l.event w = some (.left i c o)
  · obtain ⟨i, c, o, he⟩ := hleft
    exact h.kept_leave h' hkept hs hcounts he
  · have hbooks := h.books_step hs h'.accounted.alive
    -- a step that is none of a request's
    have hquiet : (∀ i task, l.event w ≠ some (.called i none task)) →
        (∀ i prev_cpu task now, l ≠ .deliverRun i prev_cpu task now) →
        l.keep w w.books = w.books → Kept R w' := by
      intro hcalled hrun hkeep
      refine hkept.of_books (hbooks.trans hkeep)
        (fun c => h.accounted.request_of_step h'.accounted hs
          fun i task he => absurd he (hcalled i task)) fun {c k'} hk' hroot' hhere' => ?_
      rcases h.here_of_step h' hs hk' hroot' hhere' with
        ⟨k, hk, hroot, hplace, hhere, -⟩ | ⟨prev_cpu, t, hl⟩ | ⟨service, function, args, t, rfl⟩
      · exact ⟨k, hk, hroot, hplace, hhere⟩
      · exact absurd hl (hrun _ _ _ _)
      · exact absurd rfl (hcalled _ _)
    cases hs with
    | newReq i req_id service function args core now hfresh =>
      exact h.kept_newReq h' hkept (.newReq i req_id service function args core now hfresh)
    | deliverRun i prev_cpu task now msgs hm =>
      exact h.kept_deliverRun h' hkept (.deliverRun i prev_cpu task now msgs hm)
    | jsReply v c ret now hv => exact absurd ⟨_, _, _, by rw [Label.event, hv]; rfl⟩ hleft
    | jsThrow v c now hv hbody => exact absurd ⟨_, _, _, by rw [Label.event, hv]; rfl⟩ hleft
    | call v caller callee service function jsargs core now hv hfresh =>
      refine hquiet (fun i task he => ?_) (fun _ _ _ _ hl => by cases hl) rfl
      simp [Label.event, hv] at he
    | _ => exact hquiet (fun _ _ he => by cases he) (fun _ _ _ _ hl => by cases hl) rfl

/-- **Where the books go wrong**: statistics that are whole after a step have counted a
request in it, if anything was left. A sample that is missing, or one too many, shows in
the number of the window, since no sample leaves that number as it was
(`length_window_append_ne`). -/
theorem InOrder.countsRoot_of_step {R : Roots} (h : InOrder P w) (hkept : Kept R w) {l : Label n}
    (hs : Move P w l w') (hwhole : l.Safe P w → CountsWhole (R.after l).times w') :
    l.CountsRoot P R w := by
  intro hsafe i c o k he hk
  have ha := h.accounted
  obtain ⟨now, hrunning, hafter, hbooks⟩ :=
    h.left_step hs (h.step hsafe hs).accounted.alive he hk
  have hhere : k.stage.isHere := by simp [hrunning]
  rw [Books.leave] at hbooks
  have hwhole := hwhole hsafe
  rw [hafter] at hwhole ⊢
  obtain ⟨func, fuse, hfunc, hstates, hsample⟩ := hkept.sample ha hk k.place now
  have hwhole := hwhole func
  by_cases hroot : k.caller = none
  · rw [(ha.sound _ k hk).caller_none.1 hroot] at hfunc hsample hbooks
    -- a request: its time counts, so a sample must have been taken, and on the way to
    -- another core
    have htimes := hkept.complete_root hk hroot hhere hfunc now
    rw [htimes, Function.update_self] at hwhole
    have hplace : k.place ≠ k.origin := by
      intro hplace
      -- no sample has been taken
      rw [if_pos hplace] at hbooks
      rw [← hbooks] at hstates
      rw [show w'.wf_map func = _ from hstates] at hwhole
      have hcount := hwhole.count
      rw [(WfStates.run_eq fuse _).1] at hcount
      exact length_window_append_ne _ _ hcount.symm
    refine ⟨⟨fun _ => hplace, fun _ => hroot⟩, fun func' hf => ?_⟩
    obtain rfl : func = func' := Option.some.inj (hfunc.symm.trans ((hkept.func _).symm.trans hf))
    rw [if_neg hplace] at hbooks
    rw [← hbooks] at hsample
    have hstates' := congrFun hsample func
    rw [Function.update_self] at hstates'
    rw [show w'.wf_map func = _ from hstates'] at hwhole
    rw [htimes, Function.update_self]
    exact (counts_run_iff fuse _).1 hwhole (by simp)
  -- a nested call: its time does not count, so no sample may have been taken
  · rw [hkept.complete_nested hk hroot] at hwhole
    refine ⟨⟨fun hnone => absurd hnone hroot, fun hplace => ?_⟩, fun func' hf => ?_⟩
    · -- the nested call was taken for its request
      rw [if_neg hplace] at hbooks
      rw [← hbooks] at hsample
      have hstates' := congrFun hsample func
      rw [Function.update_self] at hstates'
      rw [show w'.wf_map func = _ from hstates'] at hwhole
      have hcount := hwhole.count
      rw [(WfStates.run_eq fuse _).1] at hcount
      exact absurd hcount (length_window_append_ne _ _)
    · rw [hkept.func, request_of_nested hk hroot] at hf
      cases hf

/-! ### Runs -/

/-- The labels are read one by one. -/
theorem rootsOf_append (l : Label n) : rootsOf (ls ++ [l]) = (rootsOf ls).after l := by
  rw [rootsOf, List.foldl_append]
  rfl

/-- The books are kept along a run, if each step counts a request where it is left. -/
theorem kept_of_run (h : Run (scheduler P n) ls w) (halive : w.crashed = false)
    (hcounts : ∀ before l w w', before ++ [l] <+: ls → Run (scheduler P n) before w →
      (scheduler P n).step w l w' → l.CountsRoot P (rootsOf before) w) :
    Kept (rootsOf ls) w := by
  induction h with
  | init h0 =>
    obtain rfl : _ = World.initial n := h0
    exact .initial
  | step hr hs ih =>
    -- each step counts, as its run is an initial part of the whole
    have hkept := ih hs.1 fun before l w w' hp => hcounts before l w w' (hp.trans ⟨_, rfl⟩)
    have h := inOrder_of_reachable ⟨_, hr⟩ hs.1
    have h' := inOrder_of_reachable ⟨_, hr.step hs⟩ halive
    rw [rootsOf_append]
    exact h.kept_step h' hkept hs.2 (hcounts _ _ _ _ List.prefix_rfl hr hs)

/-- **Workflow statistics count whole workflows** exactly in the runs in which every
request that is replied to ran on another core than accepted it, with a mean below
`2 ^ 31`, and every nested call that is replied to ran where it was made. From the
condition the books are kept by induction on the run; conversely the first step that
violates it makes the statistics wrong, since the books were kept until then. -/
theorem statistics_whole_iff (P : Runtime) (ls : List (Label n)) :
    StatisticsWhole P ls ↔ ∀ before l w w', before ++ [l] <+: ls →
      Run (scheduler P n) before w → (scheduler P n).step w l w' →
        l.CountsRoot P (rootsOf before) w := by
  constructor
  · induction ls using List.reverseRecOn with
    | nil => exact fun _ before l w w' hp => absurd (List.prefix_nil.1 hp) (by simp)
    | append_singleton ls l ih =>
      -- a step that is the last one of the run, or an earlier one
      intro hwhole before l' w w' hp hr hs
      have hbefore := ih fun before w hp' => hwhole before w (hp'.trans ⟨_, rfl⟩)
      rcases List.prefix_concat_iff.1 hp with heq | hp'
      · obtain ⟨rfl, hl⟩ := List.append_inj' heq rfl
        cases hl
        have h := inOrder_of_reachable ⟨_, hr⟩ hs.1
        refine h.countsRoot_of_step (kept_of_run hr hs.1 hbefore) hs.2 fun hsafe => ?_
        rw [← rootsOf_append]
        exact hwhole _ w' hp (hr.step hs) (h.step hsafe hs.2).accounted.alive
      · exact hbefore before l' w w' hp' hr hs
  -- conversely, all steps of a part of the run count, so it keeps the statistics
  · intro hcounts before w hp hr halive
    exact (kept_of_run hr halive fun before' l w w' hp' =>
      hcounts before' l w w' (hp'.trans hp)).countsWhole

/-- A request runs on the core that accepts it, and is replied to there. -/
def localRequest : List (Label 1) :=
  [.newReq 0 firstUuid "a.js" "f" "" 0 0, .start 0 rootTask 0,
    .jsReply firstUuid usableReply 5]

theorem run_localRequest : Run (scheduler oneService 1) localRequest
    (runningWorld.jsReply oneService runningJs usableReply 5) := by
  have h₀ : Run (scheduler oneService 1) [] (.initial 1) := .init rfl
  have h₁ := h₀.step ⟨rfl, .newReq 0 firstUuid "a.js" "f" "" 0 0 (by decide)⟩
  have h₂ := h₁.step ⟨rfl, .start 0 rootTask 0 0 rfl⟩
  exact h₂.step ⟨rfl, .jsReply runningJs firstUuid usableReply 5 rfl⟩

/-- The request is not in its workflow's statistics. -/
theorem local_request_uncounted :
    ¬∀ ls : List (Label 1), StatisticsWhole oneService ls := by
  intro hall
  have hwhole := hall localRequest _ _ List.prefix_rfl run_localRequest rfl "a.jsf"
  have hstates : (runningWorld.jsReply oneService runningJs usableReply 5).wf_map "a.jsf" =
      some { fuse := false } := rfl
  have htimes : (rootsOf localRequest).times "a.jsf" = [5] := rfl
  rw [hstates, htimes] at hwhole
  exact absurd hwhole.count (by decide)

end Nanoservices
