import Mathlib.Order.Interval.Finset.Fin
import Nanoservices.Library.ListScheduling
import Nanoservices.Sched.LeastLoaded

/-!
# How far the cores are booked

`get_core` books a call on the core it chooses: `busy_till` goes up by the call's
estimate. As it chooses a core that is booked no further than any big core, it does list
scheduling on the big cores, and so no core is ever booked further ahead than the big
cores' share of all estimates so far and one call more (`booked_balanced`). `reply`,
which books a core back to the current time when it has nothing left to do, only makes
this smaller; so does an estimate that is not known yet, and is negative.

A run is `metered`: it keeps the clock it has read last, the sum of the estimates and
the greatest one. Each placement is the one `get_core` makes, and the clock does not go
back.
-/

namespace Nanoservices

open World Lts ListScheduling

variable {n : ℕ} {P : Runtime} {w w' : World n}

namespace World

/-- Until when the cores are booked, by core. -/
def times (w : World n) (i : Fin n) : UInt64 := (w.core i).busy_till

/-- The estimate that `schedule` passes to `get_core`, for a call that has been
prepared. A nested call of a fused workflow is not placed. -/
def estimate (w : World n) (task : Task) : Option Int32 :=
  match w.wfOf task.req_id, w.func_map (task.service ++ task.function) with
  | some workflow_states, some function_states =>
    if workflow_states.fuse && task.req_id != task.call_id then none
    else some (if workflow_states.fuse then workflow_states.exec_time
      else function_states.exec_time)
  | _, _ => none

end World

/-- A core's time after `get_core` has put a call there. -/
def booked (busy_till : UInt64) (exec_time : Int32) (now : UInt64) : UInt64 :=
  max busy_till now + (if passed exec_time = 0 then 1 else passed exec_time)

/-! ### The times of the cores -/

@[simp] theorem times_record (e : Event n) : (w.record e).times = w.times := rfl

@[simp] theorem times_send (m : Msg n) : (w.send m).times = w.times := rfl

@[simp] theorem times_setJs (c : Uuid) (v : Invocation n) : (w.setJs c v).times = w.times := rfl

@[simp] theorem times_crash : w.crash.times = w.times := rfl

theorem times_onCore (i : Fin n) (f : Core n → Core n) :
    (w.onCore i f).times = Function.update w.times i (f (w.core i)).busy_till := by
  funext j
  by_cases hj : j = i
  · subst hj
    simp [World.times]
  · simp [World.times, hj]

/-- A change of a core that leaves its time alone. -/
theorem times_onCore_of_eq {i : Fin n} {f : Core n → Core n}
    (hf : (f (w.core i)).busy_till = (w.core i).busy_till) : (w.onCore i f).times = w.times := by
  rw [times_onCore, hf]
  exact Function.update_eq_self i w.times

@[simp] theorem times_dispatch (i : Fin n) : (w.dispatch i).times = w.times := by
  by_cases hd : Dispatchable w i
  · obtain ⟨c', rest, task, hq, ht, hwf⟩ := hd
    rw [dispatch_of_front hq ht hwf, popFront, times_record, times_onCore_of_eq rfl]
  · rw [dispatch_of_not hd]

/-- Preparing the states of a call books nothing, nor do the steps below. -/
theorem times_ensureReplyStates (i j : Fin n) (key : String) :
    (w.onCore i fun k => k.ensureReplyStates key j).times = w.times := by
  refine times_onCore_of_eq ?_
  unfold Core.ensureReplyStates
  split <;> rfl

@[simp] theorem times_ensureFuncStates (func : String) :
    (w.ensureFuncStates func).times = w.times := by
  unfold World.ensureFuncStates
  split <;> rfl

theorem times_receive (i : Fin n) (task : Task) (fuse : Bool) (now : UInt64) :
    (w.receive i task fuse now).times = w.times := by
  rw [World.receive, times_record]
  refine times_onCore_of_eq ?_
  unfold Core.receive
  dsimp only
  split <;> split <;> rfl

@[simp] theorem times_runFunc (i prev_cpu : Fin n) (task : Task) (now : UInt64) :
    (w.runFunc i prev_cpu task now).times = w.times := by
  unfold World.runFunc
  dsimp only
  split
  · rw [times_crash, times_ensureFuncStates, times_ensureReplyStates]
  · rw [times_dispatch, times_receive, times_ensureFuncStates, times_ensureReplyStates]

theorem times_prepare (i prev_cpu : Fin n) (task : Task) :
    (w.prepare i prev_cpu task).times = w.times := by
  have hensured : ((w.onCore i fun k => k.ensureReplyStates (replyKey task.service task.call_id)
      prev_cpu).ensureFuncStates (task.service ++ task.function)).times = w.times := by
    rw [times_ensureFuncStates, times_ensureReplyStates]
  rw [← hensured, World.prepare]
  split <;> rfl

/-- `get_core` books the call on the core it is given. -/
theorem times_getCore (core : Fin n) (exec_time : Int32) (call_id : Uuid) (now : UInt64) :
    (w.getCore core (passed exec_time) call_id now).times =
      Function.update w.times core (booked (w.times core) exec_time now) :=
  times_onCore ..

/-- **What `schedule` books**: the estimate of the call, on the core that was chosen. -/
theorem times_place (i prev_cpu core : Fin n) (task : Task) (now : UInt64) :
    (w.place i prev_cpu task core now).times =
      match w.estimate task with
      | none => w.times
      | some exec_time =>
        Function.update w.times core (booked (w.times core) exec_time now) := by
  unfold World.place World.estimate
  cases w.wfOf task.req_id with
  | none => rfl
  | some workflow_states =>
    cases w.func_map (task.service ++ task.function) with
    | none => rfl
    | some function_states =>
      dsimp only
      -- a nested call of a fused workflow is not booked; any other is booked once, here
      -- or there
      split
      · rw [times_runFunc, times_record]
      · split
        · rw [times_runFunc, times_record]
          exact times_getCore ..
        · rw [times_send, times_record]
          exact times_getCore ..

/-- A core that has nothing left to do is free from now on. -/
theorem times_retire (i : Fin n) (call_id : Uuid) (service : String) (now : UInt64) :
    (w.retire i call_id service now).times = w.times ∨
      (w.retire i call_id service now).times = Function.update w.times i now := by
  rw [World.retire, times_onCore]
  unfold Core.retire
  dsimp only
  split
  · exact .inr rfl
  · exact .inl (Function.update_eq_self i w.times)

/-- **What `reply` books**: at most, the core is free from now on. -/
theorem times_reply (i : Fin n) (req_id call_id : Uuid) (service ret : String) (now : UInt64) :
    (reply P w i req_id call_id service ret now).1.times = w.times ∨
      (reply P w i req_id call_id service ret now).1.times = Function.update w.times i now := by
  -- what follows the first lines of `reply` changes no clock
  have hreply : (reply P w i req_id call_id service ret now).1.times =
      (w.retire i call_id service now).times := by
    unfold World.reply
    dsimp only
    split
    · split
      · rfl
      · rw [times_dispatch, times_onCore_of_eq rfl, times_record]
    · split
      · unfold World.runCallback
        split
        · rw [times_record, times_onCore_of_eq rfl]
        · rfl
      · unfold World.replyRemote
        split
        · rw [times_send, times_onCore_of_eq rfl]
          rfl
        · rfl
    · rfl
  rw [hreply]
  exact times_retire ..

/-! ### Steps -/

/-- The clock that a step reads. -/
def Label.now : Label n → Option UInt64
  | .newReq _ _ _ _ _ _ now | .call _ _ _ _ _ _ now | .deliverRun _ _ _ now
  | .deliverReply _ _ _ _ _ _ now | .start _ _ now | .jsReply _ _ now | .jsThrow _ now
  | .jsReturn _ now => some now
  | .callbackDone .. | .ack _ => none

/-- A call in `schedule`: the prepared world, the core it is made on, and the core it
goes to. -/
structure Placement (n : ℕ) where
  world : World n
  origin : Fin n
  task : Task
  core : Fin n

/-- The call that a step makes. -/
def Label.placement (w : World n) : Label n → Option (Placement n)
  | .newReq i req_id service function args core _ =>
    let task : Task := ⟨req_id, req_id, service, function, args⟩
    let w := { w with uuids := insert req_id w.uuids }
    let w := w.onCore i fun k => k.setReqStates (replyKey service req_id) .localReply
    some ⟨(w.record (.called i none task)).prepare i i task, i, task, core⟩
  | .call caller callee service function jsargs core _ =>
    (w.js caller).map fun v =>
      let task : Task := ⟨v.task.req_id, callee, service, function, jsargs⟩
      let w := { w with uuids := insert callee w.uuids }
      let w := w.onCore v.core fun k => k.setReqStates (cbKey service callee) (.callback callee)
      ⟨(w.record (.called v.core (some caller) task)).prepare v.core v.core task, v.core, task,
        core⟩
  | _ => none

namespace Placement

/-- The estimate that is passed to `get_core`. -/
def estimate (p : Placement n) : Option Int32 := p.world.estimate p.task

/-- The core is the one `get_core` returns. -/
def Chosen (p : Placement n) (now : UInt64) : Prop :=
  ∀ exec_time, p.estimate = some exec_time →
    (p.world.chooseCore p.origin (passed exec_time) p.task.call_id now).map Prod.snd = some p.core

/-- The time that is booked for the call: an estimate below 0 books nothing. -/
def cost (p : Placement n) : ℕ :=
  p.estimate.elim 0 fun exec_time => if exec_time.toInt < 0 then 0 else max 1 exec_time.toInt.toNat

end Placement

/-- What a step books. -/
def Label.cost (w : World n) (l : Label n) : ℕ := (l.placement w).elim 0 Placement.cost

theorem Label.times_placement {l : Label n} {p : Placement n} (hp : l.placement w = some p) :
    p.world.times = w.times := by
  cases l with
  | newReq i req_id service function args core now =>
    obtain rfl := Option.some.inj hp
    dsimp only
    rw [times_prepare, times_record, times_onCore_of_eq rfl]
    rfl
  | call caller callee service function jsargs core now =>
    obtain ⟨v, -, rfl⟩ := Option.map_eq_some_iff.1 hp
    dsimp only
    rw [times_prepare, times_record, times_onCore_of_eq rfl]
    rfl
  | _ => cases hp

/-- A step that makes a call books its estimate, on the core it is placed on and from
the time the step reads. No other core's time changes. -/
def Label.BooksTime (w : World n) (l : Label n) (w' : World n) : Prop :=
  ∃ p exec_time now, l.placement w = some p ∧ p.estimate = some exec_time ∧ l.now = some now ∧
    w'.times = Function.update w.times p.core (booked (w.times p.core) exec_time now)

/-- A step that books nothing leaves the times alone, but that a core may be free from
now on: `reply` sets `busy_till` to the clock when it has taken the last call off the
queue. -/
structure Label.Frees (w : World n) (l : Label n) (w' : World n) : Prop where
  cost : l.cost w = 0
  times : w'.times = w.times ∨ ∃ i now, l.now = some now ∧ w'.times = Function.update w.times i now

/-- The end of `schedule`. -/
theorem Label.books_of_place {l : Label n} {p : Placement n} {now : UInt64}
    (hp : l.placement w = some p) (hnow : l.now = some now)
    (hw' : w' = p.world.place p.origin p.origin p.task p.core now) :
    l.BooksTime w w' ∨ l.Frees w w' := by
  have htimes := times_place (w := p.world) p.origin p.origin p.core p.task now
  rw [← hw', l.times_placement hp] at htimes
  -- a call without an estimate is fused with its request and books nothing
  cases hestimate : p.world.estimate p.task with
  | none =>
    rw [hestimate] at htimes
    refine .inr ⟨?_, .inl htimes⟩
    rw [Label.cost, hp]
    exact congrArg (Option.elim · _ _) hestimate
  | some exec_time =>
    rw [hestimate] at htimes
    exact .inl ⟨p, exec_time, now, hp, hestimate, hnow, htimes⟩

/-- **What a step does to the times of the cores**, one case for each transition: a
call that is made is placed, and all the others book nothing. Only a reply may free a
core. -/
theorem times_step {l : Label n} (hs : Move P w l w') : l.BooksTime w w' ∨ l.Frees w w' := by
  -- a step that places nothing costs nothing
  have hfrees : ∀ {l : Label n} {w₁ : World n}, l.placement w = none →
      (w₁.times = w.times ∨ ∃ i now, l.now = some now ∧
        w₁.times = Function.update w.times i now) → l.Frees w w₁ := by
    intro l w₁ hnone htimes
    refine ⟨?_, htimes⟩
    rw [Label.cost, hnone]
    rfl
  cases hs with
  -- the two steps that place a call
  | newReq i req_id service function args core now hfresh =>
    exact Label.books_of_place rfl rfl rfl
  | call v caller callee service function jsargs core now hv hfresh =>
    exact Label.books_of_place (by rw [Label.placement, hv]; rfl) rfl rfl
  | deliverRun i prev_cpu task now msgs hm =>
    exact .inr (hfrees rfl (.inl (times_runFunc ..)))
  | deliverReply i sender req_id call_id service ret now msgs hm =>
    refine .inr (hfrees rfl ?_)
    rw [World.deliverReply]
    rcases times_reply (P := P) (w := { w with msgs }) i req_id call_id service ret now with h | h
    · split <;> exact .inl h
    · split <;> exact .inr ⟨i, now, rfl, h⟩
  | start i task now tasks ht =>
    refine .inr (hfrees rfl (.inl ?_))
    rw [World.start, times_setJs, times_record, times_onCore_of_eq rfl]
  -- a reply may set the clock of its core to the time
  | jsReply v call_id ret now hv =>
    refine .inr (hfrees rfl ?_)
    rcases times_reply (P := P) (w := w.record (.left v.core v.task.call_id (.returned ret)))
      v.core v.task.req_id v.task.call_id v.serviceName ret now with h | h
    · exact .inl h
    · exact .inr ⟨v.core, now, rfl, h⟩
  | jsThrow v call_id now hv hbody =>
    refine .inr (hfrees rfl ?_)
    rw [World.jsThrow]
    rcases times_reply (P := P) (w := w.record (.left v.core v.task.call_id .threw))
      v.core v.task.req_id v.task.call_id v.task.service Outcome.threw.text now with h | h
    · split <;> exact .inl h
    · split <;> exact .inr ⟨v.core, now, rfl, h⟩
  | jsReturn v call_id now hv hbody => exact .inr (hfrees rfl (.inl rfl))
  | callbackDone i call_id service callbacks hc =>
    refine .inr (hfrees rfl (.inl ?_))
    rw [World.callbackDone, times_dispatch, times_record, times_onCore_of_eq rfl]
  | ack i acks hi => exact .inr (hfrees rfl (.inl (times_dispatch i)))

/-! ### The core that is chosen -/

/-- The big cores, which may get any call. -/
def bigCores (n : ℕ) : Finset (Fin n) := Finset.univ.filter fun i => HW_Q_COUNT ≤ i.val

theorem mem_bigCores {i : Fin n} : i ∈ bigCores n ↔ HW_Q_COUNT ≤ i.val := by simp [bigCores]

/-- All cores but the first `HW_Q_COUNT` are big. -/
theorem card_bigCores (hn : HW_Q_COUNT < n) : (bigCores n).card = n - HW_Q_COUNT := by
  have hset : bigCores n = Finset.Ici ⟨HW_Q_COUNT, hn⟩ := by
    ext i
    rw [mem_bigCores, Finset.mem_Ici, Fin.le_def]
  rw [hset, Fin.card_Ici]

/-- How far ahead of the clock a core is booked: nothing, when it is booked until a time
that has passed. -/
def ahead (busy_till now : UInt64) : ℕ := busy_till.toNat - now.toNat

/-- A core that is booked further is further ahead. -/
theorem ahead_le_of_le {a b : UInt64} (h : a ≤ b) (now : UInt64) : ahead a now ≤ ahead b now :=
  Nat.sub_le_sub_right (UInt64.le_iff_toNat_le.1 h) _

/-- A core that is booked until a time that has passed is free. -/
theorem ahead_of_le {a now : UInt64} (h : a ≤ now) : ahead a now = 0 :=
  Nat.sub_eq_zero_of_le (UInt64.le_iff_toNat_le.1 h)

/-- **The choice**: no big core is booked less far than the core that is taken. For a
long call that is so by `LowestMin.le`; for a short one the other core that is taken
beats the big core, or the clock, and then it is free. -/
theorem ahead_leastLoaded (w : World n) (hn : HW_Q_COUNT < n)
    (hbusy : ∀ j, w.times j < ULLONG_MAX) {exec_time now : UInt64} {core j : Fin n}
    (hcore : w.leastLoaded exec_time now = some core) (hj : HW_Q_COUNT ≤ j.val) :
    ahead (w.times core) now ≤ ahead (w.times j) now := by
  obtain ⟨big, hbig, hscan⟩ := w.scan_big hn hbusy
  have hle : ahead (w.times big) now ≤ ahead (w.times j) now := ahead_le_of_le (hbig.le j hj) now
  unfold leastLoaded at hcore
  simp only [hscan] at hcore
  split at hcore
  · -- a short call: another core is taken if it beats the big core and the clock
    obtain ⟨small, -, hsmall⟩ := w.scan_small hn
      (if (w.core big).busy_till < now then now else (w.core big).busy_till) big
    rw [hsmall] at hcore
    obtain rfl := Option.some.inj hcore
    -- taken for beating the later of the clock and the big core, or not taken
    by_cases hlt : (w.core small).busy_till <
        if (w.core big).busy_till < now then now else (w.core big).busy_till
    · rw [if_pos hlt]
      refine le_trans ?_ hle
      split at hlt
      · have hfree : ahead (w.times small) now = 0 := ahead_of_le (UInt64.le_of_lt hlt)
        rw [hfree]
        exact Nat.zero_le _
      · exact ahead_le_of_le (UInt64.le_of_lt hlt) now
    · rw [if_neg hlt]
      exact hle
  · obtain rfl := Option.some.inj hcore
    exact hle

/-- The core of a placement is one that `get_core` chooses, and so is booked no further
than any big core. -/
theorem ahead_chosen {p : Placement n} {exec_time : Int32} {now : UInt64} (hn : HW_Q_COUNT < n)
    (hbusy : ∀ j, p.world.times j < ULLONG_MAX) (hp : p.Chosen now)
    (hestimate : p.estimate = some exec_time) {j : Fin n} (hj : j ∈ bigCores n) :
    ahead (p.world.times p.core) now ≤ ahead (p.world.times j) now := by
  have hchosen := hp exec_time hestimate
  rw [p.world.chooseCore_of_lt _ _ _ _ hn, Option.map_map] at hchosen
  obtain ⟨core, hcore, rfl⟩ : ∃ core, p.world.leastLoaded (passed exec_time) now = some core ∧
      core = p.core := by
    simpa using hchosen
  exact ahead_leastLoaded p.world hn hbusy hcore (mem_bigCores.1 hj)

/-- The booking of a call takes a core ahead by its cost at most, while the sum stays
below 2^64 and the clock is not below 2^31. An estimate is a 32-bit number: a negative
one takes less than 2^31 from the time, by wrapping around, so the time must be at least
that for the sum to stay below it. At clock 0 it does not. -/
theorem ahead_booked {busy_till now : UInt64} {exec_time : Int32} {cost : ℕ}
    (hcost : cost = if exec_time.toInt < 0 then 0 else max 1 exec_time.toInt.toNat)
    (hclock : 2 ^ 31 ≤ now.toNat) (hroom : max busy_till.toNat now.toNat + cost < 2 ^ 64) :
    ahead (booked busy_till exec_time now) now ≤ ahead busy_till now + cost := by
  have hpassed := toNat_passed exec_time
  have hlow := exec_time.le_toInt
  have hzero : passed exec_time = 0 ↔ (passed exec_time).toNat = 0 :=
    ⟨fun h => by rw [h]; rfl, fun h => UInt64.toNat_inj.1 h⟩
  have hmax := toNat_max busy_till now
  rw [ahead, ahead, booked, UInt64.toNat_add, hmax]
  by_cases hneg : exec_time.toInt < 0
  · -- the sum wraps around, below the first summand
    rw [if_pos hneg] at hpassed hcost
    have hne : ¬passed exec_time = 0 := by
      rw [hzero]
      omega
    rw [if_neg hne]
    omega
  · rw [if_neg hneg] at hpassed hcost
    -- what is added is the cost: one cycle at least
    have hsummand : (if passed exec_time = 0 then 1 else passed exec_time).toNat = cost := by
      split
      · next h =>
        rw [hzero] at h
        show 1 = cost
        omega
      · next h =>
        rw [hzero] at h
        omega
    rw [hsummand, Nat.mod_eq_of_lt hroom]
    omega

/-! ### Runs -/

/-- A world, the clock that was read last, and the estimates so far: their sum and the
greatest. The last two are ghosts, which no step reads. -/
structure Metered (n : ℕ) where
  world : World n
  clock : UInt64
  total : ℕ
  top : ℕ

/-- The scheduler with a clock that does not go back, and with the placements of
`get_core`. The clock is at least 2^31 from the beginning (`ahead_booked`), which a
cycle counter is a second after the machine was started, and the estimates do not take
it to the end of its 64 bits. -/
def metered (P : Runtime) (n : ℕ) : System (Metered n) (Label n) where
  init m := m.world = .initial n ∧ 2 ^ 31 ≤ m.clock.toNat ∧ m.total = 0 ∧ m.top = 0
  step m l m' :=
    (scheduler P n).step m.world l m'.world ∧
      m'.clock = l.now.getD m.clock ∧ m.clock ≤ m'.clock ∧
      (∀ p, l.placement m.world = some p → p.Chosen m'.clock) ∧
      m'.total = m.total + l.cost m.world ∧ m'.top = max m.top (l.cost m.world) ∧
      m'.clock.toNat + m'.total < 2 ^ 64 - 1

/-- **The cores of a metered run are booked as list scheduling on the big cores books
them.** The loads are not the times themselves but how far these are ahead of the clock:
time that passes then takes load off every core at once, which keeps the balance. -/
structure Metered.Inv (m : Metered n) : Prop where
  balanced : Balanced (bigCores n) (fun i => ahead (m.world.times i) m.clock) m.total m.top
  clock : 2 ^ 31 ≤ m.clock.toNat

/-- In the beginning nothing is booked. -/
theorem Metered.Inv.init {m : Metered n} (hn : HW_Q_COUNT < n) (h : (metered P n).init m) :
    m.Inv := by
  obtain ⟨hworld, hclock, htotal, htop⟩ := h
  have hzero : (fun i => ahead (m.world.times i) m.clock) = fun _ => 0 := by
    funext i
    rw [hworld]
    exact ahead_of_le (UInt64.le_iff_toNat_le.2 (Nat.zero_le _))
  refine ⟨?_, hclock⟩
  rw [hzero, htotal, htop]
  exact balanced_zero ⟨⟨HW_Q_COUNT, hn⟩, mem_bigCores.2 le_rfl⟩

/-- **A step keeps the balance.** First the clock moves on, which only makes the loads
smaller. Then either a call is booked on the core that `get_core` chose, which is list
scheduling's own step (`Balanced.place`), or nothing is booked, and at most one core is
free from now on.

What the step needs of the numbers is `hbound`: no time is beyond the clock and all
estimates so far, which stay below 2^64. So no sum wraps around, and no core looks as if
there were none. -/
theorem Metered.Inv.step {m m' : Metered n} {l : Label n} (hn : HW_Q_COUNT < n) (h : m.Inv)
    (hs : (metered P n).step m l m') : m'.Inv := by
  obtain ⟨⟨-, hmove⟩, hnow, hle, hchosen, htotal, htop, hroom⟩ := hs
  have hclock : m.clock.toNat ≤ m'.clock.toNat := UInt64.le_iff_toNat_le.1 hle
  refine ⟨?_, h.clock.trans hclock⟩
  -- time passes
  have hpassed : Balanced (bigCores n) (fun i => ahead (m.world.times i) m'.clock) m.total m.top :=
    h.balanced.mono fun i => Nat.sub_le_sub_left hclock _
  have hbound : ∀ i, (m.world.times i).toNat ≤ m'.clock.toNat + m.total := by
    intro i
    have := hpassed.load_le_total i
    rw [ahead] at this
    omega
  rcases times_step hmove with ⟨p, exec_time, now, hp, hestimate, hlnow, htimes⟩ | ⟨hcost, htimes⟩
  -- a call is booked, at the clock that this step has read
  · obtain rfl : m'.clock = now := by rw [hnow, hlnow]; rfl
    have hsame := l.times_placement hp
    have hcost : l.cost m.world =
        if exec_time.toInt < 0 then 0 else max 1 exec_time.toInt.toNat := by
      rw [Label.cost, hp]
      show p.cost = _
      rw [Placement.cost, hestimate]
      rfl
    have hbusy : ∀ j, p.world.times j < ULLONG_MAX := by
      intro j
      rw [hsame, UInt64.lt_iff_toNat_lt]
      have := hbound j
      show _ < 18446744073709551615
      omega
    rw [htotal, htop]
    -- its core is booked no further than the big ones, gets the cost, and is the only
    -- one that changes
    refine hpassed.place (k := p.core) (fun i hi => ?_) ?_ (fun i hi => ?_)
    · rw [← hsame]
      exact ahead_chosen hn hbusy (hchosen p hp) hestimate hi
    · rw [htimes, Function.update_self]
      refine ahead_booked hcost (h.clock.trans hclock) ?_
      have := hbound p.core
      omega
    · rw [htimes, Function.update_of_ne hi]
  -- nothing is booked: neither the sum nor the greatest estimate changes, and a load
  -- may drop to 0
  · rw [htotal, htop, hcost, Nat.add_zero, Nat.max_zero]
    refine hpassed.mono fun i => ?_
    rcases htimes with htimes | ⟨k, now, hlnow, htimes⟩
    · rw [htimes]
    · obtain rfl : m'.clock = now := by rw [hnow, hlnow]; rfl
      by_cases hi : i = k
      · subst hi
        rw [htimes, Function.update_self, ahead_of_le (UInt64.le_refl _)]
        exact Nat.zero_le _
      · rw [htimes, Function.update_of_ne hi]

/-- **No core is booked far beyond the others.** In every run with more than
`HW_Q_COUNT` cores, over any services, each core is booked ahead of the clock by at most
the big cores' share of all estimates so far and the greatest estimate, less its share.
The bound is that of list scheduling, and is met (`booked_balanced_full`).

The invariant is that the loads are `ListScheduling.Balanced` with respect to the big
cores. A call goes to a core that is booked no further ahead than any big one, which is
list scheduling's own step (`Balanced.place`); a clock that goes on, and a core that is
declared idle, only make loads smaller. -/
theorem booked_balanced (hn : HW_Q_COUNT < n) {m : Metered n} (h : Reachable (metered P n) m)
    (i : Fin n) :
    (n - HW_Q_COUNT) * ((m.world.core i).busy_till.toNat - m.clock.toNat) ≤
      m.total + (n - HW_Q_COUNT - 1) * m.top := by
  have hinv := h.invariant (I := Metered.Inv) (fun _ h0 => .init hn h0)
    (fun _ _ _ hinv hs => hinv.step hn hs)
  rw [← card_bigCores hn]
  exact hinv.balanced.load_le i

section Booked

instance (p : Placement n) (now : UInt64) : Decidable (p.Chosen now) :=
  -- not by trying all numbers
  show Decidable (∀ exec_time ∈ p.estimate, _) from Option.decidableForallMem p.estimate

/-- A metered step, if the label can happen and the clock and the placement allow it. -/
def Metered.exec (P : Runtime) (m : Metered n) (l : Label n) : Option (Metered n) := do
  let world ← m.world.execIf (fun _ _ => True) P l
  let m' : Metered n :=
    { world
      clock := l.now.getD m.clock
      total := m.total + l.cost m.world
      top := max m.top (l.cost m.world) }
  if m.clock ≤ m'.clock ∧ (∀ p ∈ l.placement m.world, p.Chosen m'.clock) ∧
    m'.clock.toNat + m'.total < 2 ^ 64 - 1 then some m' else none

theorem Metered.step_of_exec {m m' : Metered n} {l : Label n} (h : m.exec P l = some m') :
    (metered P n).step m l m' := by
  obtain ⟨world, hworld, h⟩ := Option.bind_eq_some_iff.1 h
  obtain ⟨⟨hclock, hchosen, hroom⟩, h⟩ := Option.ite_none_right_eq_some.1 h
  obtain rfl := Option.some.inj h
  exact ⟨(step_of_execIf hworld).2, rfl, hclock, hchosen, rfl, rfl, hroom⟩

/-- Four requests for one function on ten cores, two of them big. The first is placed
with the estimate -1 and takes 20 million cycles; the others, with this estimate, go to
the cores 9, 8 and, as these are booked equally far then, 8 again. -/
def bookedSteps : List (Label 10) :=
  [.newReq 0 firstUuid "a.js" "f" "" 8 3000000000, .deliverRun 8 0 rootTask 3000000000,
    .start 8 rootTask 3000000000, .jsReply firstUuid usableReply 3020000000,
    .jsReturn firstUuid 3020000000, .newReq 0 secondUuid "a.js" "f" "" 9 3020000000,
    .newReq 0 thirdUuid "a.js" "f" "" 8 3020000000,
    .newReq 0 fourthUuid "a.js" "f" "" 8 3020000000]

/-- The clock is read for the first time. -/
def startMetered : Metered 10 := ⟨.initial 10, 3000000000, 0, 0⟩

def bookedMetered : Metered 10 :=
  (bookedSteps.foldlM (Metered.exec oneService) startMetered).getD startMetered

theorem reachable_bookedMetered : Reachable (metered oneService 10) bookedMetered := by
  have hsome : (bookedSteps.foldlM (Metered.exec oneService) startMetered).isSome := by
    decide +kernel
  obtain ⟨m, hm⟩ := Option.isSome_iff_exists.1 hsome
  rw [bookedMetered, hm]
  exact ⟨_, .of_foldlM (fun _ _ _ => Metered.step_of_exec) ⟨rfl, by decide, rfl, rfl⟩ hm⟩

/-- Core 8 is booked as far as it can be: 40 of the 60 million cycles in all. -/
theorem booked_balanced_full :
    (10 - HW_Q_COUNT) *
        ((bookedMetered.world.core 8).busy_till.toNat - bookedMetered.clock.toNat) ≤
      bookedMetered.total + (10 - HW_Q_COUNT - 1) * bookedMetered.top ∧
    (bookedMetered.world.core 8).busy_till.toNat - bookedMetered.clock.toNat = 40000000 ∧
    bookedMetered.total = 60000000 ∧ bookedMetered.top = 20000000 :=
  ⟨booked_balanced (by decide) reachable_bookedMetered 8, by decide +kernel, by decide +kernel,
    by decide +kernel⟩

end Booked

end Nanoservices
