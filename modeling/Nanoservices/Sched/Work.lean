import Mathlib.Algebra.BigOperators.Group.Finset.Piecewise
import Mathlib.Algebra.GroupWithZero.Nat
import Mathlib.Algebra.Order.BigOperators.Group.Finset
import Nanoservices.Sched.Books

/-!
# How many steps a call takes

The scheduler never runs on by itself: every step of a run pushes one call a little
further, and a call can be pushed eight times (`run_length_le`), whatever the services
do. The eight steps are that it is made, delivered, started and left, that its function
returns, that its reply is delivered and acknowledged, and that its callback is over.

Six of them are in the log. `Event.pays` says how many steps an event pays for; the two
that leave no event are paid for in advance, by the start of a function (`bodies`) and
by the answer of a call (`acks`).
-/

namespace Nanoservices

open World Lts OneCore

variable {n : ℕ} {P : Runtime} {w w' : World n} {c : Uuid}

/-! ### What the log pays for -/

/-- The steps an event pays for: its own, and one that it makes possible and that is not
logged. The start of a function pays for its return, and the answer of a call for an
acknowledgement. -/
def Event.pays : Event n → ℕ
  | .called .. | .arrived .. | .left .. | .callbackDone .. => 1
  | .started .. | .promiseSet .. | .unreadable .. | .callbackRun .. => 2
  | .placed .. | .dispatched .. => 0

/-- The steps that the log has paid for so far. -/
def World.paid (w : World n) : ℕ := (w.log.map Event.pays).sum

theorem paid_record (e : Event n) : (w.record e).paid = w.paid + e.pays := by
  simp [World.paid, World.record]

theorem paid_of_log (h : w'.log = w.log) : w'.paid = w.paid := by rw [World.paid, World.paid, h]

/-- The log only grows. -/
theorem Quietly.paid_le (h : Quietly w w') : w.paid ≤ w'.paid := by
  obtain ⟨es, hlog, -⟩ := h
  rw [World.paid, World.paid, hlog, List.map_append, List.sum_append]
  exact Nat.le_add_right _ _

/-- A call has been paid for eight steps at most, whichever way it goes. -/
theorem Call.pays_le (k : Call n) (P : Runtime) : ((k.events P).map Event.pays).sum ≤ 8 := by
  cases hstage : k.stage <;> cases hfused : k.fused <;> cases hcaller : k.caller <;>
    simp [Call.events, Call.eventsToLeft, Call.eventsToReady, Event.pays, hstage, hfused, hcaller]
  -- the request is over, and its promise is set or not
  all_goals
    unfold Call.rootEnd
    split <;> simp

/-- The events of a log by their calls. -/
theorem sum_pays_fiber {U : Finset Uuid} (log : List (Event n)) (h : ∀ e ∈ log, e.call_id ∈ U) :
    (log.map Event.pays).sum =
      ∑ c ∈ U, ((log.filter (·.call_id = c)).map Event.pays).sum := by
  induction log with
  | nil => simp
  | cons e log ih =>
    -- an event is paid for in the sum of its own call
    have hsplit : ∀ c, (((e :: log).filter (·.call_id = c)).map Event.pays).sum =
        (if e.call_id = c then e.pays else 0) +
          ((log.filter (·.call_id = c)).map Event.pays).sum := by
      intro c
      by_cases hc : e.call_id = c <;> simp [hc]
    simp only [hsplit]
    rw [Finset.sum_add_distrib, ← ih fun e' he' => h e' (List.mem_cons_of_mem _ he'),
      Finset.sum_ite_eq, if_pos (h e List.mem_cons_self), List.map_cons, List.sum_cons]

/-- **The log pays for eight steps a call.** Every event is that of a call whose id has
been generated. -/
theorem Accounted.paid_le (h : Accounted P w) : w.paid ≤ 8 * w.uuids.card := by
  -- every event is that of a known call
  have hknown : ∀ e ∈ w.log, e.call_id ∈ w.uuids := by
    intro e he
    obtain ⟨k, hk, -⟩ := h.call_of_mem he
    exact h.known _ k hk
  -- which has been paid for eight steps at most
  have hcall : ∀ c, ((w.log.filter (·.call_id = c)).map Event.pays).sum ≤ 8 := by
    intro c
    have hlog : w.log.filter (·.call_id = c) = (w.view c).log := rfl
    rw [hlog, h.view c]
    cases w.call c with
    | none => exact Nat.zero_le _
    | some k => exact k.pays_le P
  -- so the payments may be added up call by call
  calc w.paid
      = ∑ c ∈ w.uuids, ((w.log.filter (·.call_id = c)).map Event.pays).sum :=
        sum_pays_fiber _ hknown
    _ ≤ w.uuids.card * 8 := Finset.sum_le_card_nsmul _ _ 8 fun c _ => hcall c
    _ = 8 * w.uuids.card := Nat.mul_comm _ _

/-! ### What the log does not see -/

/-- The part of the world that only the steps themselves change, and no function of the
scheduler: what is owed is read off it. -/
def World.rest (w : World n) : (Uuid → Option (Invocation n)) × Finset Uuid × Multiset (Fin n) :=
  (w.js, w.uuids, w.acks)

@[simp] theorem rest_record (e : Event n) : (w.record e).rest = w.rest := rfl

@[simp] theorem rest_send (m : Msg n) : (w.send m).rest = w.rest := rfl

@[simp] theorem rest_onCore (i : Fin n) (f : Core n → Core n) : (w.onCore i f).rest = w.rest := rfl

@[simp] theorem rest_crash : w.crash.rest = w.rest := rfl

@[simp] theorem rest_dispatch (i : Fin n) : (w.dispatch i).rest = w.rest := by
  by_cases hd : Dispatchable w i
  · obtain ⟨c', rest, task, hq, ht, hwf⟩ := hd
    rw [dispatch_of_front hq ht hwf]
    rfl
  · rw [dispatch_of_not hd]

@[simp] theorem rest_ensureFuncStates (func : String) :
    (w.ensureFuncStates func).rest = w.rest := by
  unfold World.ensureFuncStates
  split <;> rfl

@[simp] theorem rest_runFunc (i prev_cpu : Fin n) (task : Task) (now : UInt64) :
    (w.runFunc i prev_cpu task now).rest = w.rest := by
  unfold World.runFunc
  dsimp only
  split <;> simp [World.receive]

theorem rest_prepare (i prev_cpu : Fin n) (task : Task) :
    (w.prepare i prev_cpu task).rest = w.rest := by
  have hensured : ((w.onCore i fun k => k.ensureReplyStates (replyKey task.service task.call_id)
      prev_cpu).ensureFuncStates (task.service ++ task.function)).rest = w.rest := by simp
  rw [← hensured, World.prepare]
  split <;> rfl

theorem rest_schedule (i prev_cpu core : Fin n) (task : Task) (now : UInt64) :
    (w.schedule i prev_cpu task core now).rest = w.rest := by
  rw [World.schedule]
  rcases place_cases (w.prepare i prev_cpu task) i prev_cpu task core now with
    ⟨-, -, hplace⟩ | ⟨fuse, exec_time, -, -, hplace⟩ | ⟨-, hplace⟩
  · rw [hplace, rest_runFunc, rest_record, rest_prepare]
  · rw [hplace]
    split
    · rw [rest_runFunc, rest_record, getCore, rest_onCore, rest_prepare]
    · rw [rest_send, rest_record, getCore, rest_onCore, rest_prepare]
  · rw [hplace, rest_crash, rest_prepare]

theorem rest_reply (i : Fin n) (req_id call_id : Uuid) (service ret : String) (now : UInt64) :
    (reply P w i req_id call_id service ret now).1.rest = w.rest := by
  unfold World.reply
  dsimp only
  -- whichever way the reply goes, only cores and messages change
  split
  · split
    · rfl
    · rw [rest_dispatch]
      rfl
  · split
    · unfold World.runCallback
      split <;> rfl
    · unfold World.replyRemote
      split <;> rfl
  · rfl

/-- The functions whose bodies run, and have their return still before them. -/
def World.bodies (w : World n) : Finset Uuid := w.uuids.filter fun c => (w.js c).any (·.inBody)

/-- The steps that have been paid for and not been taken: returns and acknowledgements. -/
def World.owed (w : World n) : ℕ := w.bodies.card + w.acks.card

theorem owed_of_rest (h : w'.rest = w.rest) : w'.owed = w.owed := by
  obtain ⟨hjs, huuids, hacks⟩ : w'.js = w.js ∧ w'.uuids = w.uuids ∧ w'.acks = w.acks := by
    simpa [World.rest] using h
  rw [World.owed, World.owed, World.bodies, World.bodies, hjs, huuids, hacks]

/-- An id that is new has no function, so that nothing is owed for it. -/
theorem Accounted.owed_insert (h : Accounted P w) (hfresh : c ∉ w.uuids) (w' : World n)
    (hrest : w'.rest = (w.js, insert c w.uuids, w.acks)) : w'.owed = w.owed := by
  obtain ⟨hjs, huuids, hacks⟩ : w'.js = w.js ∧ w'.uuids = insert c w.uuids ∧ w'.acks = w.acks := by
    simpa [World.rest] using hrest
  have hnone : w.js c = none := by
    cases hv : w.js c with
    | none => rfl
    | some v =>
      obtain ⟨k, hk, -⟩ := h.call_of_js hv
      exact absurd (h.known _ k hk) hfresh
  rw [World.owed, World.owed, World.bodies, World.bodies, hjs, huuids, hacks, Finset.filter_insert,
    if_neg (by simp [hnone])]

/-- A function starts, which is one more to return. -/
theorem bodies_setJs_le (w : World n) (v : Invocation n) :
    (w.setJs c v).bodies.card ≤ w.bodies.card + 1 := by
  have hsub : (w.setJs c v).bodies ⊆ insert c w.bodies := by
    intro c' hc'
    by_cases hne : c' = c
    · exact hne ▸ Finset.mem_insert_self _ _
    · obtain ⟨hknown, hrunning⟩ := Finset.mem_filter.1 hc'
      refine Finset.mem_insert_of_mem (Finset.mem_filter.2 ⟨hknown, ?_⟩)
      simpa [World.setJs, hne] using hrunning
  exact (Finset.card_le_card hsub).trans (Finset.card_insert_le _ _)

/-- A function is over: it returns or throws, and that is a step less to take. -/
theorem Accounted.owed_leaveBody (h : Accounted P w) {v : Invocation n} (hv : w.js c = some v)
    (hbody : v.inBody = true) (hrest : w'.rest = w.rest) :
    (w'.leaveBody v).owed + 1 = w.owed := by
  obtain ⟨hjs, huuids, hacks⟩ : w'.js = w.js ∧ w'.uuids = w.uuids ∧ w'.acks = w.acks := by
    simpa [World.rest] using hrest
  obtain ⟨k, hk, -, -, htask, -⟩ := h.call_of_js hv
  have hid : v.task.call_id = c := htask ▸ (h.sound c k hk).call_id
  have hmem : c ∈ w.bodies := Finset.mem_filter.2 ⟨h.known c k hk, by simp [hv, hbody]⟩
  -- the body that has been left is no longer owed, all others are
  have hbodies : (w'.leaveBody v).bodies = w.bodies.erase c := by
    ext c'
    by_cases hne : c' = c
    · subst hne
      simp [World.bodies, World.leaveBody, World.setJs, hid]
    · simp [World.bodies, World.leaveBody, World.setJs, hid, hne, hjs, huuids]
  have hacks' : (w'.leaveBody v).acks = w.acks := hacks
  have hcard := Finset.card_erase_add_one hmem
  rw [World.owed, World.owed, hbodies, hacks']
  omega

/-! ### Steps -/

/-- A call that arrives pays for its delivery. If it stays on its core there is no such
step, and it has paid too much. -/
theorem paid_runFunc (i prev_cpu : Fin n) (task : Task) (now : UInt64)
    (halive : (w.runFunc i prev_cpu task now).crashed = false) :
    w.paid + 1 ≤ (w.runFunc i prev_cpu task now).paid := by
  let w₁ := (w.onCore i fun k => k.ensureReplyStates (replyKey task.service task.call_id)
    prev_cpu).ensureFuncStates (task.service ++ task.function)
  have hlog : w₁.log = w.log := log_ensureFuncStates _
  cases hstates : w₁.wfOf task.req_id with
  | none =>
    have hrun : w.runFunc i prev_cpu task now = w₁.crash := by
      simp only [World.runFunc, w₁, hstates]
    rw [hrun] at halive
    cases halive
  | some states =>
    have hrun : w.runFunc i prev_cpu task now = (w₁.receive i task states.fuse now).dispatch i := by
      simp only [World.runFunc, w₁, hstates]
    -- receiving the call pays for one step; handing out others may pay for more
    have harrived : (w₁.receive i task states.fuse now).paid = w.paid + 1 := by
      rw [World.receive, paid_record]
      exact congrArg (· + 1) (paid_of_log hlog)
    rw [hrun, ← harrived]
    exact (Quietly.dispatch i).paid_le

/-- An answer where the call was made pays for two steps. -/
theorem paid_reply {i : Fin n} {req_id call_id : Uuid} {service ret : String} {now : UInt64}
    (hstates : (w.core i).req_map (replyKey service call_id) = some .localReply ∨
      (w.core i).req_map (replyKey service call_id) = some (.reply i))
    (halive : (reply P w i req_id call_id service ret now).1.crashed = false) :
    w.paid + 2 ≤ (reply P w i req_id call_id service ret now).1.paid := by
  rcases hstates with hstates | hstates
  · cases hjson : P.readJson ret with
    | none =>
      simp only [World.reply, hstates, hjson, paid_record]
      exact le_rfl
    | some res =>
      simp only [World.reply, hstates, hjson]
      refine le_trans ?_ (Quietly.dispatch i).paid_le
      show w.paid + 2 ≤
        ((w.retire i call_id service now).record (.promiseSet i call_id res.1 res.2)).paid
      rw [paid_record]
      exact le_rfl
  -- a nested call on the same core: its callback is run, which pays for two
  · simp only [World.reply, hstates, if_true, runCallback] at halive ⊢
    split at halive
    · next callee hcb =>
      simp only [paid_record]
      exact le_rfl
    · cases halive

/-- **A step is paid for**: by an event it logs, or in advance. What the log has paid
grows by the step itself and by what is owed from then on; a step that logs nothing
reduces what is owed.

One case for each transition. In each, `hlog` or its counterpart says what the log has
been paid, and `howed` what is owed afterwards. -/
theorem InOrder.paid_step (h : InOrder P w) {l : Label n} (hs : Move P w l w')
    (halive : w'.crashed = false) : 1 + w.paid + w'.owed ≤ w'.paid + w.owed := by
  have ha := h.accounted
  -- the event of the label, when it has one
  have hlog := (step_log hs).paid_le
  cases hs with
  | newReq i req_id service function args core now hfresh =>
    -- the event of the new call pays for the step, and a new id owes nothing
    have howed := ha.owed_insert hfresh (w.newReq i req_id service function args core now)
      (rest_schedule ..)
    rw [Label.event, World.recordEvent, paid_record, Event.pays] at hlog
    omega
  | call v caller callee service function jsargs core now hv hfresh =>
    have howed := ha.owed_insert hfresh
      (w.callFunction v caller callee service function jsargs core now) (rest_schedule ..)
    rw [Label.event, hv, Option.map_some, World.recordEvent, paid_record, Event.pays] at hlog
    omega
  | deliverRun i prev_cpu task now msgs hm =>
    -- the call arrives, in this very step
    have hpaid := paid_runFunc (w := { w with msgs }) i prev_cpu task now halive
    have howed := owed_of_rest (w := w) (rest_runFunc (w := { w with msgs }) i prev_cpu task now)
    have hsame : ({ w with msgs } : World n).paid = w.paid := rfl
    omega
  | deliverReply i sender req_id call_id service ret now msgs hm =>
    obtain ⟨k, o, hk, hstage, rfl, rfl, rfl, rfl, rfl, rfl⟩ :=
      ha.call_of_reply (hm ▸ Multiset.mem_cons_self _ _)
    -- the reply has come home: its answer pays for this step and for the acknowledgement
    have hstates := (ha.atHand_delivered hk hstage hm).req_map
    let r := reply P { w with msgs } k.origin k.task.req_id k.task.call_id k.task.service o.text now
    have halive' : r.1.crashed = false := by
      rw [World.deliverReply] at halive
      split at halive <;> exact halive
    have hpaid : w.paid + 2 ≤ r.1.paid := by
      refine paid_reply ?_ halive'
      rw [hstates, Call.originStates]
      cases k.caller with
      | none => exact .inl rfl
      | some p => exact .inr rfl
    have howed : r.1.owed = w.owed := owed_of_rest (rest_reply ..)
    rw [World.deliverReply]
    split
    · -- one more acknowledgement
      have hack : ({ r.1 with acks := k.place ::ₘ r.1.acks } : World n).owed = r.1.owed + 1 := by
        rw [World.owed, Multiset.card_cons]
        rfl
      show 1 + w.paid + ({ r.1 with acks := k.place ::ₘ r.1.acks } : World n).owed ≤ r.1.paid + _
      omega
    · show 1 + w.paid + r.1.owed ≤ r.1.paid + _
      omega
  | start i task now tasks ht =>
    -- the start pays for itself and for the return, which is owed from here on
    let w₁ := (w.onCore i fun k => { k with tasks }).record (.started i task.call_id)
    let v : Invocation n := ⟨i, task, P.serviceName task.service, true, now⟩
    have hbodies : (w₁.setJs task.call_id v).bodies.card ≤ w.bodies.card + 1 :=
      bodies_setJs_le w₁ v
    have hpaid : (w₁.setJs task.call_id v).paid = w.paid + 2 :=
      paid_record (w := w.onCore i fun k => { k with tasks }) (.started i task.call_id)
    show 1 + w.paid + (w₁.setJs task.call_id v).owed ≤ (w₁.setJs task.call_id v).paid + _
    rw [World.owed, World.owed, hpaid]
    have hacks : (w₁.setJs task.call_id v).acks = w.acks := rfl
    rw [hacks]
    omega
  | jsReply v call_id ret now hv =>
    -- the call is left, which is in the log
    have howed : (w.jsReply P v ret now).owed = w.owed := owed_of_rest (rest_reply ..)
    rw [Label.event, hv, Option.map_some, World.recordEvent, paid_record, Event.pays] at hlog
    omega
  | jsThrow v call_id now hv hbody =>
    let r := reply P (w.record (.left v.core v.task.call_id .threw)) v.core v.task.req_id
      v.task.call_id v.task.service Outcome.threw.text now
    -- an exception leaves the call and ends the body, which was owed: one step more than needed
    have howed : (r.1.leaveBody v).owed + 1 = w.owed :=
      ha.owed_leaveBody hv hbody (rest_reply ..)
    have howed' : (w.jsThrow P v now).owed = (r.1.leaveBody v).owed := by
      rw [World.jsThrow]
      split <;> rfl
    rw [Label.event, hv, Option.map_some, World.recordEvent, paid_record, Event.pays] at hlog
    omega
  | jsReturn v call_id now hv hbody =>
    -- a return logs nothing, and was owed
    have howed : (w.leaveBody v).owed + 1 = w.owed := ha.owed_leaveBody hv hbody rfl
    have howed' : (w.finish v now).owed = (w.leaveBody v).owed := rfl
    have hpaid : (w.finish v now).paid = w.paid := rfl
    omega
  | callbackDone i call_id service callbacks hc =>
    -- a callback is over, which is in the log
    let w₁ := w.onCore i fun k => { k.delReqStates (cbKey service call_id) with callbacks }
    have hpaid : (w₁.record (.callbackDone i call_id)).paid = w.paid + 1 := paid_record _
    have hmono := (Quietly.dispatch (w := w₁.record (.callbackDone i call_id)) i).paid_le
    have howed : (w.callbackDone i call_id service callbacks).owed = w.owed :=
      owed_of_rest (rest_dispatch i)
    rw [howed]
    show 1 + w.paid + w.owed ≤ ((w₁.record (.callbackDone i call_id)).dispatch i).paid + w.owed
    omega
  | ack i acks hi =>
    -- an acknowledgement logs nothing of its own, and was owed
    have hmono := (Quietly.dispatch (w := { w with acks }) i).paid_le
    have howed : ({ w with acks }.dispatch i).owed = ({ w with acks } : World n).owed :=
      owed_of_rest (rest_dispatch i)
    have hcard : w.acks.card = acks.card + 1 := by rw [hi, Multiset.card_cons]
    have hless : ({ w with acks } : World n).owed + 1 = w.owed := by
      rw [World.owed, World.owed, hcard]
      rfl
    have hsame : ({ w with acks } : World n).paid = w.paid := rfl
    omega

/-! ### Runs -/

/-- A request comes in, or a function calls `Call`: the steps whose number bounds all the
others'. -/
def Label.makesCall : Label n → Bool
  | .newReq .. | .call .. => true
  | _ => false

/-- The functions and the ids after a step, as a function of its label. -/
def Label.known (P : Runtime) (w : World n) :
    Label n → (Uuid → Option (Invocation n)) × Finset Uuid
  | .newReq _ req_id .. => (w.js, insert req_id w.uuids)
  | .call _ callee .. => (w.js, insert callee w.uuids)
  | .start i task now => (Function.update w.js task.call_id
      (some ⟨i, task, P.serviceName task.service, true, now⟩), w.uuids)
  | .jsReturn c _ | .jsThrow c _ => ((w.js c).elim w.js fun v =>
      Function.update w.js v.task.call_id (some { v with inBody := false }), w.uuids)
  | _ => (w.js, w.uuids)

theorem known_of_rest {t u : World n} (h : t.rest = u.rest) :
    (t.js, t.uuids) = (u.js, u.uuids) :=
  congrArg (fun r => (r.1, r.2.1)) h

/-- **How a step changes the functions and the ids.** -/
theorem known_step {l : Label n} (hs : Move P w l w') : (w'.js, w'.uuids) = l.known P w := by
  cases hs with
  | newReq i req_id service function args core now hfresh =>
    exact known_of_rest (u := { w with uuids := insert req_id w.uuids }) (rest_schedule ..)
  | call v caller callee service function jsargs core now hv hfresh =>
    exact known_of_rest (u := { w with uuids := insert callee w.uuids }) (rest_schedule ..)
  | deliverRun i prev_cpu task now msgs hm => exact known_of_rest (rest_runFunc ..)
  | deliverReply i sender req_id call_id service ret now msgs hm =>
    have hreply := known_of_rest (rest_reply (P := P) (w := { w with msgs }) i req_id call_id
      service ret now)
    rw [World.deliverReply]
    split <;> exact hreply
  | start i task now tasks ht => rfl
  | jsReply v call_id ret now hv => exact known_of_rest (rest_reply ..)
  -- an exception leaves the body, and is answered for as by a reply
  | jsThrow v call_id now hv hbody =>
    have hleave : ∀ {w₁ : World n}, w₁.rest = w.rest →
        ((w₁.leaveBody v).js, (w₁.leaveBody v).uuids) = Label.known P w (.jsThrow call_id now) := by
      intro w₁ h
      obtain ⟨hjs, huuids⟩ := Prod.mk.inj (known_of_rest h)
      simp [Label.known, World.leaveBody, World.setJs, hjs, huuids, hv]
    have hreply := hleave (rest_reply (P := P)
      (w := w.record (.left v.core v.task.call_id .threw)) v.core v.task.req_id v.task.call_id
      v.task.service Outcome.threw.text now)
    rw [World.jsThrow]
    split <;> exact hreply
  | jsReturn v call_id now hv hbody =>
    simp [Label.known, World.finish, World.leaveBody, World.setJs, hv]
  | callbackDone i call_id service callbacks hc => exact known_of_rest (rest_dispatch i)
  | ack i acks hi =>
    exact known_of_rest (u := { w with acks }) (rest_dispatch i)

/-- Ids are only taken by steps that make calls. -/
theorem uuids_step {l : Label n} (hs : Move P w l w') :
    w'.uuids.card = w.uuids.card + if l.makesCall then 1 else 0 := by
  have huuids : w'.uuids = (l.known P w).2 := congrArg Prod.snd (known_step hs)
  rw [huuids]
  cases hs with
  | newReq i req_id service function args core now hfresh =>
    exact Finset.card_insert_of_notMem hfresh
  | call v caller callee service function jsargs core now hv hfresh =>
    exact Finset.card_insert_of_notMem hfresh
  | _ => rfl

/-- The steps of a run have been paid for, but the one that crashed. The last clause is
what follows for the length of the run, and is kept along since a run that has crashed
is over. -/
theorem paid_run {ls : List (Label n)} (h : Run (scheduler P n) ls w) :
    w.uuids.card = ls.countP Label.makesCall ∧
      (w.crashed = false → ls.length + w.owed ≤ w.paid) ∧
      ls.length ≤ 8 * ls.countP Label.makesCall + 1 := by
  refine h.invariant (I := fun ls w => w.uuids.card = ls.countP Label.makesCall ∧
    (w.crashed = false → ls.length + w.owed ≤ w.paid) ∧
    ls.length ≤ 8 * ls.countP Label.makesCall + 1) ?_ ?_
  · rintro _ rfl
    exact ⟨rfl, fun _ => le_rfl, Nat.zero_le _⟩
  -- a step is paid for by what it adds to the log, and the log of `u` calls has eight
  -- for each
  · rintro ls w l w' hr ⟨huuids, hpaid, -⟩ ⟨hrun, hs⟩
    have horder := inOrder_of_reachable ⟨ls, hr⟩ hrun
    have hbound := horder.accounted.paid_le
    have hcards := uuids_step hs
    rw [List.length_append, List.countP_append, List.countP_singleton, List.length_singleton]
    have hbefore := hpaid hrun
    refine ⟨by rw [hcards, huuids], fun halive => ?_, by omega⟩
    have hstep := horder.paid_step hs halive
    omega

/-- **The scheduler takes eight steps a call at most**, whatever the services do, and
one more that crashes. So it never runs on by itself: between two calls it comes to
rest. The bound is on every run, of any length and on any number of cores, and is an
invariant of payments and debts (`InOrder.paid_step`).

Each step is paid for by an event of the log, and those of one call pay for at most
eight (`Call.pays_le`). Two kinds of steps leave no event: what has been paid for them
in advance is the debt. -/
theorem run_length_le {ls : List (Label n)} (h : Run (scheduler P n) ls w) :
    ls.length ≤ 8 * ls.countP Label.makesCall + 1 := (paid_run h).2.2

/-- The run with a nested call, of twelve steps. -/
theorem run_length_le_nested :
    nestedSteps.length ≤ 8 * nestedSteps.countP Label.makesCall + 1 :=
  run_length_le (run_of_exec (P := nestedServices) nestedSteps (by decide +kernel))

end Nanoservices
