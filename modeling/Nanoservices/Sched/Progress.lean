import Nanoservices.Sched.Workflows

/-!
# No call is stranded

`dispatch` starts one call at most, and does nothing while the front of the queue has
not arrived or a fused workflow is running. A queue is not forgotten all the same: a
core that could dispatch (`Dispatchable`) is about to, when a callback or an
acknowledgement is pending there (`Pending`), or it runs a call that it took from the
queue after every call that waits there now had arrived (`Awake`). Whatever else a core
does ends with a dispatch, or leaves its queue alone (`Rests`).

So where nothing is pending, a core with a waiting call runs a call that was taken from
the queue after the waiting one was made. A running call has an open nested call, made
after it was taken; if that one waits somewhere, that core runs a call taken later
still. As time is bounded, nothing waits (`no_call_stranded`).

All this needs that `reply` never throws: a request's reply that `read_json` rejects
loses the acknowledgement, and with it the dispatch.
-/

namespace Nanoservices

open World Lts OneCore

variable {n : ℕ} {P : Runtime} {w w' : World n} {c : Uuid} {j : Fin n}

/-! ### Cores at rest -/

/-- Something on core `j` ends with a dispatch there: an acknowledgement, a callback, or
a reply of the core whose acknowledgement is to come. -/
def Pending (w : World n) (j : Fin n) : Prop :=
  j ∈ w.acks ∨ (w.core j).callbacks ≠ 0 ∨
    ∃ core req_id call_id service ret, .reply core j req_id call_id service ret ∈ w.msgs

/-- A call arrives, is taken from the queue or is left on core `j`. Whether the core
could dispatch, and whether it runs something, can change at no other event. -/
def Event.isAt (j : Fin n) : Event n → Bool
  | .arrived i _ | .dispatched i _ | .left i _ _ => i = j
  | _ => false

/-- Core `j` has nothing more to do in `w'` than in `w`: if it could not dispatch it
still cannot, what was pending is pending, and nothing has happened to the calls there.
-/
structure Rests (j : Fin n) (w w' : World n) : Prop where
  dispatchable : Dispatchable w' j → Dispatchable w j
  pending : Pending w j → Pending w' j
  log : ∃ es, w'.log = w.log ++ es ∧ ∀ e ∈ es, e.isAt j = false

/-- Whether a core can dispatch depends on its queue, `task_map` and `curr_wf`. -/
theorem Dispatchable.congr (h : Dispatchable w j) (hq : (w'.core j).q = (w.core j).q)
    (ht : (w'.core j).task_map = (w.core j).task_map)
    (hwf : (w'.core j).curr_wf = (w.core j).curr_wf) : Dispatchable w' j := by
  obtain ⟨c, rest, task, hc, hparked, hnone⟩ := h
  exact ⟨c, rest, task, hq.trans hc, (congrFun ht c).trans hparked, hwf.trans hnone⟩

namespace Rests

theorem refl (w : World n) : Rests j w w := ⟨id, id, [], by simp, by simp⟩

theorem trans {w'' : World n} (h : Rests j w w') (h' : Rests j w' w'') : Rests j w w'' := by
  obtain ⟨es, hlog, hes⟩ := h.log
  obtain ⟨es', hlog', hes'⟩ := h'.log
  refine ⟨fun hd => h.dispatchable (h'.dispatchable hd), fun hp => h'.pending (h.pending hp),
    es ++ es', by rw [hlog', hlog, List.append_assoc], fun e he => ?_⟩
  exact (List.mem_append.1 he).elim (hes e) (hes' e)

/-- The core is the same, and what was pending still is. -/
theorem of_core (hcore : w'.core j = w.core j) (hpending : Pending w j → Pending w' j)
    (hlog : w'.log = w.log) : Rests j w w' := by
  refine ⟨fun hd => hd.congr ?_ ?_ ?_, hpending, [], by simp [hlog], by simp⟩ <;> rw [hcore]

/-- A core changes what has nothing to do with its queue. -/
theorem onCore {i : Fin n} {f : Core n → Core n} (hq : (f (w.core i)).q = (w.core i).q)
    (ht : (f (w.core i)).task_map = (w.core i).task_map)
    (hwf : (f (w.core i)).curr_wf = (w.core i).curr_wf)
    (hc : (f (w.core i)).callbacks = (w.core i).callbacks) : Rests j w (w.onCore i f) := by
  -- the core itself keeps what makes it dispatch, and the others do not change
  by_cases hj : j = i
  · subst hj
    refine ⟨fun hd => hd.congr ?_ ?_ ?_, ?_, [], by simp [World.onCore], by simp⟩
    · rw [onCore_core_self, hq]
    · rw [onCore_core_self, ht]
    · rw [onCore_core_self, hwf]
    · intro hp
      rw [Pending, onCore_core_self, hc]
      exact hp
  · refine .of_core (onCore_core_of_ne _ _ hj) (fun hp => ?_) rfl
    rw [Pending, onCore_core_of_ne _ _ hj]
    exact hp

/-- Another core changes. -/
theorem onCore_of_ne {i : Fin n} {f : Core n → Core n} (hj : j ≠ i) : Rests j w (w.onCore i f) := by
  refine .of_core (onCore_core_of_ne _ _ hj) (fun hp => ?_) rfl
  rw [Pending, onCore_core_of_ne _ _ hj]
  exact hp

theorem record {e : Event n} (he : e.isAt j = false) : Rests j w (w.record e) :=
  ⟨id, id, [e], rfl, by simpa using he⟩

theorem send (m : Msg n) : Rests j w (w.send m) := by
  refine .of_core rfl (fun hp => ?_) rfl
  refine hp.imp_right (.imp_right ?_)
  rintro ⟨core, req_id, call_id, service, ret, hm⟩
  exact ⟨core, req_id, call_id, service, ret, Multiset.mem_cons_of_mem hm⟩

theorem dispatch {i : Fin n} (hj : j ≠ i) : Rests j w (w.dispatch i) := by
  by_cases hd : Dispatchable w i
  · obtain ⟨c, rest, task, hq, ht, hwf⟩ := hd
    rw [dispatch_of_front hq ht hwf]
    exact (Rests.onCore_of_ne hj).trans (.record (by simp [Event.isAt, Ne.symm hj]))
  · rw [dispatch_of_not hd]
    exact .refl w

/-- A message is taken, other than one of this core's replies. -/
theorem take {msgs : Multiset (Msg n)} {m : Msg n} (hm : w.msgs = m ::ₘ msgs)
    (hne : ∀ core req_id call_id service ret, m ≠ .reply core j req_id call_id service ret) :
    Rests j w { w with msgs } := by
  refine .of_core rfl (fun hp => ?_) rfl
  refine hp.imp_right (.imp_right ?_)
  rintro ⟨core, req_id, call_id, service, ret, hmem⟩
  rw [hm] at hmem
  refine ⟨core, req_id, call_id, service, ret, ?_⟩
  exact (Multiset.mem_cons.1 hmem).resolve_left (hne _ _ _ _ _).symm

theorem ensureReplyStates {i k : Fin n} (key : String) :
    Rests j w (w.onCore i fun core => core.ensureReplyStates key k) := by
  have h : ∀ core : Core n, core.ensureReplyStates key k = core ∨
      core.ensureReplyStates key k = core.setReqStates key (.reply k) := by
    intro core
    unfold Core.ensureReplyStates
    split
    · exact .inr rfl
    · exact .inl rfl
  refine .onCore ?_ ?_ ?_ ?_ <;> rcases h (w.core i) with h | h <;> rw [h] <;> rfl

theorem ensureFuncStates (func : String) : Rests j w (w.ensureFuncStates func) := by
  unfold World.ensureFuncStates
  split
  · exact .of_core rfl id rfl
  · exact .refl w

theorem prepare (i prev_cpu : Fin n) (task : Task) : Rests j w (w.prepare i prev_cpu task) := by
  unfold World.prepare
  have hreply := Rests.ensureReplyStates (replyKey task.service task.call_id)
    (w := w) (j := j) (i := i) (k := prev_cpu)
  have h := hreply.trans (.ensureFuncStates (task.service ++ task.function))
  split
  · exact h.trans (.of_core rfl id rfl)
  · exact h

theorem arrive {i prev_cpu : Fin n} {task : Task} {fuse : Bool} {now : UInt64} (hj : j ≠ i) :
    Rests j w (w.arrive i prev_cpu task fuse now) := by
  unfold World.arrive World.receive
  refine Rests.trans ?_ (.record (by simp [Event.isAt, Ne.symm hj]))
  refine Rests.trans ?_ (.onCore_of_ne hj)
  exact (Rests.ensureReplyStates _).trans (.ensureFuncStates _)

/-- A call that has not arrived is put in the queue. It goes to the end, so that the
front stays or, in an empty queue, is the call itself, which is not there yet. -/
theorem getCore {core : Fin n} {exec_time now : UInt64} (hc : (w.core core).task_map c = none) :
    Rests j w (w.getCore core exec_time c now) := by
  by_cases hj : j = core
  · subst hj
    refine ⟨?_, fun hp => ?_, [], by simp [World.getCore, World.onCore], by simp⟩
    -- the new id at the front has no task, so the front that could be handed out was
    -- there before
    · rintro ⟨c', rest, task, hq, ht, hwf⟩
      rw [World.getCore, onCore_core_self] at hq ht hwf
      cases hfront : (w.core j).q with
      | nil =>
        simp only [hfront, List.nil_append, List.cons.injEq] at hq
        rw [← hq.1] at ht
        cases hc.symm.trans ht
      | cons c₁ rest₁ =>
        simp only [hfront, List.cons_append, List.cons.injEq] at hq
        exact ⟨c₁, rest₁, task, hfront, hq.1 ▸ ht, hwf⟩
    · rw [Pending, World.getCore, onCore_core_self]
      exact hp
  · exact .onCore_of_ne hj

end Rests

/-! ### Cores that are awake -/

/-- A core that could dispatch is about to, or runs a call that it took from the queue
when all that waits there now had been made. The second case is how a core may have a
startable call and still do nothing: `dispatch` has started another one, and will be
executed again when that one is left. -/
def Awake (w : World n) (j : Fin n) : Prop :=
  Dispatchable w j → Pending w j ∨ ∃ a k, w.call a = some k ∧ k.place = j ∧ k.fused = false ∧
    (k.stage = .ready ∨ k.stage = .running) ∧
    ∀ x kx, w.call x = some kx → kx.place = j → kx.stage = .waiting → kx.born ≤ k.popped

/-- The core dispatches, last of all, in a world in which everything is accounted for. -/
structure Woken (P : Runtime) (w₁ w' : World n) (j : Fin n) : Prop where
  accounted : Accounted P w₁
  core : w'.core j = (w₁.dispatch j).core j
  log : w'.log = (w₁.dispatch j).log

/-- **A dispatch leaves its core awake**: it has taken the front of the queue, and what
waits there has been made by now; or it could not, and still cannot. -/
theorem Woken.awake {w₁ : World n} (h : Woken P w₁ w' j) : Awake w' j := by
  intro hd
  have hcall := fun c => call_congr (w := w₁.dispatch j) h.log c
  by_cases hd₁ : Dispatchable w₁ j
  · obtain ⟨c, rest, task, hq, ht, hwf⟩ := hd₁
    rw [dispatch_of_front hq ht hwf] at hcall
    have ha := h.accounted
    -- the call taken from the queue
    have hparked : ((w₁.core j).view c).parked = some task := ht
    obtain ⟨k, hk⟩ : ∃ k, w₁.call c = some k := by
      cases hk : w₁.call c with
      | some k => exact ⟨k, rfl⟩
      | none =>
        have hview := congrArg (fun v => (v.core j).parked) (ha.view c)
        simp only [hk] at hview
        exact absurd (hparked.symm.trans hview) (by simp [View.empty])
    rw [ha.core hk j] at hparked
    obtain ⟨⟨hplace, hstage⟩, -⟩ : (j = k.place ∧ k.stage = .waiting) ∧ k.task = task := by
      simpa [Call.coreView] using hparked
    have hfused : k.fused = false := by
      simpa [Call.StageSound, hstage] using (ha.sound _ k hk).stage
    have hpopped : w'.call c = some { k with stage := .ready, popped := w₁.clock } := by
      rw [hcall]
      exact call_record_self _ rfl rfl hk (by simp [Call.after, hstage])
    refine .inr ⟨c, _, hpopped, hplace.symm, hfused, .inl rfl, fun x kx hx _ hwaiting => ?_⟩
    have hne : x ≠ c := by
      rintro rfl
      rw [hpopped] at hx
      obtain rfl := Option.some.inj hx
      cases hwaiting
    rw [hcall, World.popFront, call_record_of_ne _ (by exact hne)] at hx
    exact (ha.sound x kx hx).born_lt.le
  · have hcore : w'.core j = w₁.core j := by rw [h.core, dispatch_of_not hd₁]
    exact absurd (hd.congr (by rw [hcore]) (by rw [hcore]) (by rw [hcore])) hd₁

/-- **A core at rest stays awake.** The call it runs has not been left, as that would be
an event there, and what waits there now was waiting before, as otherwise it would have
arrived. -/
theorem Awake.of_rests (hawake : Awake w j) (ha : Accounted P w) (ha' : Accounted P w')
    {l : Label n} (hs : Move P w l w') (hr : Rests j w w') : Awake w' j := by
  obtain ⟨es, hlog, hes⟩ := hr.log
  have hold : ∀ {e : Event n}, e.isAt j → e ∈ w'.log → e ∈ w.log := by
    intro e he hmem
    rw [hlog] at hmem
    refine (List.mem_append.1 hmem).resolve_right fun hmem => ?_
    simp [hes e hmem] at he
  intro hd
  rcases hawake (hr.dispatchable hd) with hp | ⟨a, k, hk, hplace, hfused, hstage, hwaiting⟩
  · exact .inl (hr.pending hp)
  have hplaced : k.stage ≠ .placing := by rcases hstage with hs | hs <;> simp [hs]
  have hnot : k.stage.outcome = none := by rcases hstage with hs | hs <;> simp [hs]
  obtain ⟨k', hk'⟩ := call_stays hs hk
  -- the running call has not been left
  have hfollows : k.Follows k' := by
    rcases ha.call_cases hs hk' with
      ⟨k₀, hk₀, hf⟩ | ⟨i, hnone, -⟩ | ⟨k₀, o, hk₀, -, he, -⟩
    · obtain rfl := Option.some.inj (hk₀.symm.trans hk)
      exact hf
    · cases hnone.symm.trans hk
    · obtain rfl := Option.some.inj (hk₀.symm.trans hk)
      have hmem : .left k₀.place a o ∈ w.log := by
        refine hold (by simp [Event.isAt, hplace]) ?_
        obtain ⟨es, hlog, -⟩ := step_log hs
        rw [hlog, he]
        exact List.mem_append_left _ (by simp [World.recordEvent, World.record])
      cases hnot.symm.trans ((ha.left_mem_log hk).1 hmem).2
  -- it is where it was, as it was placed
  obtain ⟨-, hplace', hfused'⟩ := hfollows.placed hplaced
  have hstage' : (k'.stage = .ready ∨ k'.stage = .running) ∧ k'.popped = k.popped := by
    rcases hstage with hs | hs
    · exact hfollows.ready hs
    · rw [hfollows.running hs]
      exact ⟨.inr hs, rfl⟩
  refine .inr ⟨a, k', hk', hplace'.trans hplace, hfused'.trans hfused, hstage'.1, ?_⟩
  intro x kx' hx' hxplace hxstage
  -- what waits now was waiting before
  obtain rfl := (ha'.sound x kx' hx').call_id
  have harrived : .arrived j kx'.task.call_id ∈ w.log := by
    refine hold (by simp [Event.isAt]) ((ha'.mem_log hx' rfl).2 ?_)
    exact (kx'.mem_events_arrived P j).2 ⟨hxplace.symm, by simp [hxstage], by simp [hxstage]⟩
  have hout : kx'.stage.outcome = none := by simp [hxstage]
  rcases ha.call_cases hs hx' with
    ⟨kx, hx, hf⟩ | ⟨i, hnone, -⟩ | ⟨kx, o, hx, -, -, hf⟩
  · have hid : kx.task.call_id = kx'.task.call_id := by rw [hf.task]
    have hmem := (ha.mem_log hx rfl).1 harrived
    rw [← hid] at hmem
    obtain ⟨hxplace₀, hxplacing, hxsent⟩ := (kx.mem_events_arrived P j).1 hmem
    have hxwaiting : kx.stage = .waiting := by
      have ho := hf.outcome.symm.trans hout
      cases hkx : kx.stage with
      | waiting => rfl
      | placing => exact absurd hkx hxplacing
      | sent => exact absurd hkx hxsent
      -- a call cannot go back to waiting
      | ready =>
        obtain ⟨hs | hs, -⟩ := hf.ready hkx <;> cases hxstage.symm.trans hs
      | running =>
        rw [hf.running hkx, hkx] at hxstage
        cases hxstage
      | _ =>
        rw [hkx] at ho
        cases ho
    rw [hf.born, hstage'.2]
    exact hwaiting _ kx hx hxplace₀.symm hxwaiting
  -- a call just made has not arrived anywhere
  · obtain ⟨kx, hx, -⟩ : ∃ kx, w.call kx'.task.call_id = some kx ∧ _ := ha.call_of_mem harrived
    cases hnone.symm.trans hx
  · cases hf.outcome.symm.trans hout

/-! ### What a step leaves to the cores -/

/-- Core `j` is left at rest, has something pending, or has just dispatched. Each of the
three keeps a core awake, and every step does one of them to every core
(`InOrder.attended`). -/
def Attended (P : Runtime) (w w' : World n) (j : Fin n) : Prop :=
  Rests j w w' ∨ Pending w' j ∨ ∃ w₁, Woken P w₁ w' j

theorem Attended.of_rests {w₀ : World n} (h : Rests j w w₀) (h' : Attended P w₀ w' j) :
    Attended P w w' j := h'.imp_left h.trans

/-- What does not concern the cores does not matter. -/
theorem Attended.congr {w'' : World n} (h : Attended P w w' j) (hcore : w''.core = w'.core)
    (hmsgs : w''.msgs = w'.msgs) (hacks : w''.acks = w'.acks) (hlog : w''.log = w'.log) :
    Attended P w w'' j := by
  have hpending : Pending w' j → Pending w'' j := by
    intro hp
    rw [Pending, hcore, hmsgs, hacks]
    exact hp
  refine h.imp (fun hr => hr.trans (.of_core (by rw [hcore]) hpending hlog)) (.imp hpending ?_)
  rintro ⟨w₁, ha, hc, hl⟩
  exact ⟨w₁, ha, by rw [hcore, hc], hlog.trans hl⟩

/-- Placing a call: a core it arrives on dispatches, and the others rest. -/
theorem PlaceEnds.attended {k : Call n} {core : Fin n} {now : UInt64} (ha : Accounted P w)
    (hk : w.call k.task.call_id = some k) (hstage : k.stage = .placing)
    (h : PlaceEnds P w k core now w') : Attended P w w' j := by
  have hget : ∀ {exec_time fused}, Rests j w ((w.getCore core exec_time k.task.call_id now).record
      (.placed core k.task.call_id fused)) := by
    intro exec_time fused
    have hparked : (w.core core).task_map k.task.call_id = _ :=
      congrArg CoreView.parked (ha.core hk core)
    exact (Rests.getCore (hparked.trans (by simp [Call.coreView, hstage]))).trans (.record rfl)
  cases h with
  | sent exec_time fused _ heq _ _ =>
    rw [heq]
    exact .inl (hget.trans (.send _))
  | queued exec_time fused w₁ heq _ ha₁ =>
    -- where it is received, the core hands out whatever it can
    by_cases hj : j = k.origin
    · exact .inr (.inr ⟨w₁, ha₁, by rw [hj], by rw [hj]⟩)
    · rw [heq]
      exact .inl ((hget.trans (.arrive hj)).trans (.dispatch hj))
  | nested w₁ heq ha₁ =>
    by_cases hj : j = k.origin
    · exact .inr (.inr ⟨w₁, ha₁, by rw [hj], by rw [hj]⟩)
    · rw [heq]
      exact .inl (((Rests.record rfl).trans (.arrive hj)).trans (.dispatch hj))

/-- `schedule` for a new call. -/
theorem Accounted.schedule_attended (h : Accounted P w) {w₁ : World n} {k : Call n}
    (hm : Made P w w₁ k) (core : Fin n) (now : UInt64) (hr : Rests j w w₁) :
    Attended P w (w₁.schedule k.origin k.origin k.task core now) j := by
  have hends := (h.schedule hm core now).attended (j := j) (h.prepare hm)
    (call_prepare.trans hm.call) hm.placing
  exact hends.of_rests (hr.trans (.prepare ..))

/-- **The answer has come**: `reply` dispatches on the core the call was made on, or
runs a callback there. This is where `reply` must not throw, as it does for a root call
whose string is of no use: it would dispatch neither here nor, for want of an
acknowledgement, where the reply came from. -/
theorem Accounted.answer_attended (h : Accounted P w) {w₁ : World n} {k : Call n} {o : Outcome}
    {stage : Stage} (hk : w.call k.task.call_id = some { k with stage })
    (hr : AtHand P w₁ k o stage) (hsame : ∀ c', c' ≠ k.task.call_id → SameFor c' w w₁)
    (hfuse : ∀ r, w₁.fuseOf r = w.fuseOf r) (hclock : w.clock ≤ w₁.clock)
    (huuids : w₁.uuids = w.uuids) (hcrashed : w₁.crashed = w.crashed)
    (husable : k.caller = none → (P.readJson o.text).isSome)
    (hrests : j ≠ k.origin → Rests j w w₁) (now : UInt64) :
    (reply P w₁ k.origin k.task.req_id k.task.call_id k.task.service o.text now).2 = true ∧
      Attended P w (reply P w₁ k.origin k.task.req_id k.task.call_id k.task.service o.text now).1
        j := by
  by_cases hcaller : k.caller = none
  -- the reply to a request: its core dispatches, the others rest
  · have hclosed := h.answer_root hk hr hsame hfuse hclock huuids hcrashed hcaller now
    rw [hr.reply_readable hcaller (Option.isSome_iff_ne_none.1 (husable hcaller))]
    refine ⟨rfl, ?_⟩
    have hidle : Accounted P
        (((w₁.retire k.origin k.task.call_id k.task.service now).record (k.rootEnd P o)).onCore
          k.origin fun core => { core with curr_wf := core.curr_wf.erase k.task.req_id }) :=
      hclosed.idle (fun c' => .onCore rfl) (fun _ => rfl) rfl rfl rfl
    by_cases hj : j = k.origin
    · exact .inr (.inr ⟨_, hidle, by rw [hj], by rw [hj]⟩)
    -- what the request ends with is no event of a core
    · have hend : (k.rootEnd P o).isAt j = false := by
        unfold Call.rootEnd
        cases P.readJson o.text <;> rfl
      have hretire : Rests j w₁ (w₁.retire k.origin k.task.call_id k.task.service now) :=
        .onCore_of_ne hj
      exact .inl (((((hrests hj).trans hretire).trans (.record hend)).trans
        (.onCore_of_ne hj)).trans (.dispatch hj))
  -- the reply to a call: a callback is pending on the core it was made on
  · rw [hr.reply_nested hcaller]
    refine ⟨rfl, ?_⟩
    by_cases hj : j = k.origin
    · subst hj
      refine .inr (.inl (.inr (.inl ?_)))
      rw [core_record, onCore_core_self]
      exact Multiset.cons_ne_zero
    · have hretire : Rests j w₁ (w₁.retire k.origin k.task.call_id k.task.service now) :=
        .onCore_of_ne hj
      exact .inl ((((hrests hj).trans hretire).trans (.onCore_of_ne hj)).trans (.record rfl))

/-- A function leaves its call. Its core runs a callback, dispatches, or has sent a
reply and waits for the acknowledgement. -/
theorem Leaves.attended {k : Call n} {o : Outcome} {now : UInt64} (hl : Leaves P w w' k o now)
    (h : Accounted P w) (husable : k.caller = none → (P.readJson o.text).isSome) :
    Attended P w w' j := by
  refine Attended.congr ?_ hl.core hl.msgs hl.acks hl.log
  have hleft : j ≠ k.place → Rests j w (w.record (.left k.place k.task.call_id o)) := fun hj =>
    .record (by simp [Event.isAt, Ne.symm hj])
  -- a reply at the origin is followed by the dispatch there, and one to another core by
  -- a receipt
  by_cases hplace : k.place = k.origin
  · have hk : w.call k.task.call_id = some { k with stage := .running } := by
      rw [hl.call, ← hl.running]
    have hclock : w.clock ≤ (w.record (.left k.place k.task.call_id o)).clock := by
      rw [clock_record]
      exact Nat.le_succ _
    have hanswer := h.answer_attended (k := { k with stage := .returning o }) (j := j) hk
      (h.atHand_left hl.call hl.running hplace) (fun c' hc' => .record hc') (fun _ => rfl) hclock
      rfl rfl husable (fun hj => hleft (hplace ▸ hj)) now
    rw [← hplace] at hanswer
    exact hanswer.2
  · obtain ⟨wf_map, -, hreply⟩ := h.reply_remote hl.call hl.running hplace o now
    rw [hreply]
    -- the core that has sent the reply waits for the receipt
    by_cases hj : j = k.place
    · subst hj
      refine .inr (.inl (.inr (.inr ⟨_, _, _, _, _, Multiset.mem_cons_self _ _⟩)))
    · refine .inl ((hleft hj).trans (Rests.trans ?_ ((Rests.onCore_of_ne hj).trans (.send _))))
      exact .of_core rfl id rfl

/-- The replies to requests are of use, from when they are left on. -/
def Usable (P : Runtime) (w : World n) : Prop :=
  ∀ c k o, w.call c = some k → k.caller = none → k.stage.outcome = some o →
    (P.readJson o.text).isSome

/-- A step in which a call is left. -/
theorem InOrder.left_attended (h : InOrder P w) (h' : InOrder P w') (husable : Usable P w')
    {l : Label n} (hl : l.Safe P w) (hs : Move P w l w') (j : Fin n) {i : Fin n} {c : Uuid}
    {o : Outcome} (he : l.event w = some (.left i c o)) : Attended P w w' j := by
  have ha := h.accounted
  obtain ⟨k, now, rfl, hleaves⟩ := h.leaves hs hl he
  refine hleaves.attended ha fun hcaller => ?_
  -- the outcome is of use since the call has it after the step
  obtain ⟨k', hk'⟩ := call_stays hs hleaves.call
  have hleft : HasLeft w' k.task.call_id := (hasLeft_of_step hs).2 (.inr ⟨i, o, he⟩)
  rcases ha.call_cases hs hk' with
    ⟨k₀, hk₀, hf⟩ | ⟨i, hnone, -⟩ | ⟨k₀, o', hk₀, -, he', hf⟩
  · obtain rfl := Option.some.inj (hk₀.symm.trans hleaves.call)
    rw [h'.accounted.hasLeft_iff hk', hf.outcome, hleaves.running] at hleft
    cases hleft
  · cases hnone.symm.trans hleaves.call
  · obtain rfl := Option.some.inj (hk₀.symm.trans hleaves.call)
    obtain rfl : o' = o := by
      rw [he] at he'
      simp only [Option.some.injEq, Event.left.injEq] at he'
      exact he'.2.2.symm
    exact husable _ k' o' hk' (hf.caller.trans hcaller) hf.outcome

/-- A step in which a call is delivered. -/
theorem Accounted.deliverRun_attended (ha : Accounted P w) (j : Fin n) {i prev_cpu : Fin n}
    {task : Task} {now : UInt64} {msgs : Multiset (Msg n)}
    (hm : w.msgs = .runFunc i prev_cpu task ::ₘ msgs) :
    Attended P w ({ w with msgs }.runFunc i prev_cpu task now) j := by
  obtain ⟨k, hk, hstage, rfl, rfl, rfl⟩ :=
    ha.call_of_runFunc (hm ▸ Multiset.mem_cons_self _ _)
  have hfuse := (ha.sound _ k hk).fuse (by simp [hstage])
  rw [runFunc_eq (w := { w with msgs }) hfuse]
  by_cases hj : j = k.place
  · exact .inr (.inr ⟨_, ha.delivered_arrive hk hstage hm now, by rw [hj], by rw [hj]⟩)
  · have htake : Rests j w { w with msgs } := .take hm nofun
    exact .inl ((htake.trans (.arrive hj)).trans (.dispatch hj))

/-- A step in which a reply is delivered. -/
theorem InOrder.deliverReply_attended (h : InOrder P w) (j : Fin n) {i sender : Fin n}
    {req_id call_id : Uuid} {service ret : String} {now : UInt64} {msgs : Multiset (Msg n)}
    (hm : w.msgs = .reply i sender req_id call_id service ret ::ₘ msgs)
    (husable : Usable P ({ w with msgs }.deliverReply P i sender req_id call_id service ret now)) :
    Attended P w ({ w with msgs }.deliverReply P i sender req_id call_id service ret now) j := by
  have ha := h.accounted
  have hstep := Move.deliverReply (P := P) i sender req_id call_id service ret now msgs hm
  obtain ⟨k, o, hk, hstage, rfl, rfl, rfl, rfl, rfl, rfl⟩ :=
    ha.call_of_reply (hm ▸ Multiset.mem_cons_self _ _)
  -- the reply of a request can be read, since the call keeps its outcome
  have hroot : k.caller = none → (P.readJson o.text).isSome := by
    intro hcaller
    obtain ⟨k', hk'⟩ := call_stays hstep hk
    rcases ha.call_cases hstep hk' with
      ⟨k₀, hk₀, hf⟩ | ⟨i, hnone, -⟩ | ⟨k₀, o', -, -, he', -⟩
    · obtain rfl := Option.some.inj (hk₀.symm.trans hk)
      refine husable _ k' o hk' (hf.caller.trans hcaller) (hf.outcome.trans ?_)
      rw [hstage]
      rfl
    · cases hnone.symm.trans hk
    · cases he'
  by_cases hj : j = k.place
  · -- its reply has been delivered: the acknowledgement is under way
    have hanswer := ha.answer_attended (j := k.origin) (by rw [hk, ← hstage])
      (ha.atHand_delivered hk hstage hm) (fun c' hc' => sameFor_msgs hm hc') (fun _ => rfl)
      le_rfl rfl rfl hroot (fun hne => absurd rfl hne) now
    rw [World.deliverReply, if_pos hanswer.1]
    exact .inr (.inl (.inl (hj ▸ Multiset.mem_cons_self _ _)))
  · have hrests : Rests j w { w with msgs } := by
      refine .take hm fun core req_id call_id service ret heq => hj ?_
      simp only [Msg.reply.injEq] at heq
      exact heq.2.1.symm
    have hanswer := ha.answer_attended (j := j) (by rw [hk, ← hstage])
      (ha.atHand_delivered hk hstage hm) (fun c' hc' => sameFor_msgs hm hc') (fun _ => rfl)
      le_rfl rfl rfl hroot (fun _ => hrests) now
    rw [World.deliverReply, if_pos hanswer.1]
    -- the acknowledgement is one more for the sender only
    rcases hanswer.2 with hr | hp | ⟨w₁, haw, hc, hlog⟩
    · exact .inl (hr.trans (.of_core rfl (Or.imp_left Multiset.mem_cons_of_mem) rfl))
    · exact .inr (.inl (hp.imp_left Multiset.mem_cons_of_mem))
    · exact .inr (.inr ⟨w₁, haw, hc, hlog⟩)

/-- **What a step leaves to the cores.** One case for each transition. A new call
attends to the core it arrives on; a delivery, the end of a callback and an
acknowledgement dispatch; and starting a function or returning from it leaves every core
at rest. -/
theorem InOrder.attended (h : InOrder P w) (h' : InOrder P w') (husable : Usable P w')
    {l : Label n} (hl : l.Safe P w) (hs : Move P w l w') (j : Fin n) : Attended P w w' j := by
  have ha := h.accounted
  have hleave : ∀ {i c o}, l.event w = some (.left i c o) → Attended P w w' j :=
    fun he => h.left_attended h' husable hl hs j he
  cases hs with
  | newReq i req_id service function args core now hfresh =>
    -- what a step does to the bookkeeping of ids and events concerns no core
    refine ha.schedule_attended (ha.made_newReq hfresh i service function args) core now ?_
    have huuids : Rests j w { w with uuids := insert req_id w.uuids } := .of_core rfl id rfl
    exact (huuids.trans (.onCore rfl rfl rfl rfl)).trans (.record rfl)
  | call v caller callee service function jsargs core now hv hfresh =>
    refine ha.schedule_attended (ha.made_call hv hfresh service function jsargs) core now ?_
    have huuids : Rests j w { w with uuids := insert callee w.uuids } := .of_core rfl id rfl
    exact (huuids.trans (.onCore rfl rfl rfl rfl)).trans (.record rfl)
  | deliverRun i prev_cpu task now msgs hm => exact ha.deliverRun_attended j hm
  | deliverReply i sender req_id call_id service ret now msgs hm =>
    exact h.deliverReply_attended j hm husable
  | start i task now tasks ht =>
    refine .inl (Rests.trans (.onCore ?_ ?_ ?_ ?_)
      ((Rests.record ?_).trans (.of_core rfl id rfl))) <;> rfl
  | jsReply v call_id ret now hv =>
    have he : Label.event w (.jsReply call_id ret now) =
        some (.left v.core v.task.call_id (.returned ret)) := by
      simp [Label.event, hv]
    exact hleave he
  | jsThrow v call_id now hv hbody =>
    have he : Label.event w (.jsThrow call_id now) = some (.left v.core v.task.call_id .threw) := by
      simp [Label.event, hv]
    exact hleave he
  | jsReturn v call_id now hv hbody => exact .inl (.of_core rfl id rfl)
  | callbackDone i call_id service callbacks hc =>
    -- the core that ran the callback dispatches
    by_cases hj : j = i
    · exact .inr (.inr ⟨_, ha.callback_over hc, by rw [hj]; rfl, by rw [hj]; rfl⟩)
    · exact .inl (((Rests.onCore_of_ne hj).trans (.record rfl)).trans (.dispatch hj))
  | ack i acks hi =>
    by_cases hj : j = i
    · have hidle : Accounted P { w with acks } :=
        ha.idle (fun _ => ⟨rfl, rfl⟩) (fun _ => rfl) rfl rfl rfl
      exact .inr (.inr ⟨_, hidle, by rw [hj], by rw [hj]⟩)
    · have htake : Rests j w { w with acks } := by
        refine .of_core rfl (Or.imp_left fun hmem => ?_) rfl
        rw [hi] at hmem
        exact (Multiset.mem_cons.1 hmem).resolve_left hj
      exact .inl (htake.trans (.dispatch hj))

/-! ### Functions that keep to their calls -/

/-- The nested calls of the call have been answered. -/
def Served (w : World n) (c : Uuid) : Prop :=
  ∀ i task, .called i (some c) task ∈ w.log →
    ∃ j error ret, .callbackRun j task.call_id error ret ∈ w.log

/-- The nested call of `c` that the event makes. -/
def Event.nestedCall (c : Uuid) : Event n → Option Uuid
  | .called _ caller task => if caller = some c then some task.call_id else none
  | _ => none

/-- The same as a search of the log, which can be computed. -/
theorem served_iff_log : Served w c ↔ ∀ e ∈ w.log, ∀ d ∈ e.nestedCall c,
    ∃ e' ∈ w.log, (e' matches .callbackRun ..) ∧ e'.call_id = d := by
  constructor
  · intro h e he d hd
    -- only the event of a call mentions a nested one
    cases e with
    | called i caller task =>
      obtain ⟨rfl, rfl⟩ : caller = some c ∧ task.call_id = d := by
        simpa [Event.nestedCall] using hd
      obtain ⟨j, error, ret, hrun⟩ := h i task he
      exact ⟨_, hrun, rfl, rfl⟩
    | _ => cases hd
  · intro h i task he
    obtain ⟨e', he', hrun, hid⟩ := h _ he task.call_id (if_pos rfl)
    cases e' with
    | callbackRun j d error ret =>
      obtain rfl : d = task.call_id := hid
      exact ⟨j, error, ret, he'⟩
    | _ => cases hrun

/-- Whether the nested calls have been answered is looked up in the log. -/
instance (w : World n) (c : Uuid) : Decidable (Served w c) := decidable_of_iff _ served_iff_log.symm

/-- In this step no function leaves its call a second time, or before its nested calls
have been answered, and none makes a call after it has left its own. -/
def Label.Disciplined (w : World n) : Label n → Prop
  | .call caller _ _ _ _ _ _ => ¬HasLeft w caller
  | .jsReply c _ _ | .jsThrow c _ => ¬HasLeft w c ∧ Served w c
  | _ => True

instance Label.decidableDisciplined (w : World n) : (l : Label n) → Decidable (l.Disciplined w)
  | .call caller _ _ _ _ _ _ => inferInstanceAs (Decidable ¬HasLeft w caller)
  | .jsReply c _ _ | .jsThrow c _ => inferInstanceAs (Decidable (¬HasLeft w c ∧ Served w c))
  | .newReq .. | .deliverRun .. | .deliverReply .. | .start .. | .jsReturn .. | .callbackDone ..
  | .ack _ => inferInstanceAs (Decidable True)

/-- In this step no request is replied to with a string that `read_json` rejects. A
function that throws replies with the text of an exception. -/
def Label.Readable (P : Runtime) (w : World n) : Label n → Prop
  | .jsReply c ret _ => IsRoot w c → (P.readJson ret).isSome
  | .jsThrow c _ => IsRoot w c → (P.readJson "error\n").isSome
  | _ => True

instance Label.decidableReadable (P : Runtime) (w : World n) :
    (l : Label n) → Decidable (l.Readable P w)
  | .jsReply c ret _ => inferInstanceAs (Decidable (IsRoot w c → (P.readJson ret).isSome))
  | .jsThrow c _ => inferInstanceAs (Decidable (IsRoot w c → (P.readJson "error\n").isSome))
  | .newReq .. | .call .. | .deliverRun .. | .deliverReply .. | .start .. | .jsReturn ..
  | .callbackDone .. | .ack _ => inferInstanceAs (Decidable True)

/-- The nested calls of a call that has been left have been answered: open calls form a
tree with the request at its root. -/
def Nested (w : World n) : Prop :=
  ∀ c k p, w.call c = some k → k.caller = some p → HasLeft w p → k.stage.isOpen = false

/-- What a label that leaves a call says under the two conditions. -/
theorem Accounted.leaving (h : Accounted P w) {l : Label n} (hs : Move P w l w') {i : Fin n}
    {o : Outcome} (he : l.event w = some (.left i c o)) (hd : l.Disciplined w)
    (hr : l.Readable P w) : Served w c ∧ (IsRoot w c → (P.readJson o.text).isSome) := by
  -- an invocation is that of its call
  have hid : ∀ {v c₁}, w.js c₁ = some v → v.task.call_id = c₁ := by
    intro v c₁ hv
    obtain ⟨k, hk, -, -, htask, -⟩ := h.call_of_js hv
    rw [htask, (h.sound _ k hk).call_id]
  cases hs with
  | jsReply v call_id ret now hv =>
    simp only [Label.event, hv, Option.map_some, Option.some.injEq, Event.left.injEq] at he
    obtain ⟨-, rfl, rfl⟩ := he
    rw [hid hv]
    exact ⟨hd.2, hr⟩
  | jsThrow v call_id now hv hbody =>
    simp only [Label.event, hv, Option.map_some, Option.some.injEq, Event.left.injEq] at he
    obtain ⟨-, rfl, rfl⟩ := he
    rw [hid hv]
    exact ⟨hd.2, hr⟩
  | call v caller callee service function jsargs core now hv hfresh =>
    simp [Label.event, hv] at he
  | _ => cases he

/-- A served call's nested calls are not open. -/
theorem Accounted.not_isOpen_of_served (h : Accounted P w) {k : Call n} (hk : w.call c = some k)
    {p : Uuid} (hcaller : k.caller = some p) (hserved : Served w p) : k.stage.isOpen = false := by
  obtain ⟨j, error, ret, hrun⟩ := hserved k.origin k.task (hcaller ▸ h.called_mem_log hk)
  rw [(h.sound c k hk).call_id, h.callbackRun_mem_log hk] at hrun
  obtain ⟨-, -, -, o, -, hstage | hstage⟩ := hrun <;> rw [hstage] <;> rfl

/-- Calls are made by functions that have not left theirs, and left when their nested
calls have been answered. -/
theorem Nested.step (hn : Nested w) (h : Accounted P w) {l : Label n} (hs : Move P w l w')
    (hd : l.Disciplined w) (hr : l.Readable P w) : Nested w' := by
  intro c k' p hk' hcaller hleft
  have hbefore := (hasLeft_of_step hs).1 hleft
  -- the nested call was there, was made just now, or has just been left itself
  rcases h.call_cases hs hk' with
    ⟨k, hk, hf⟩ | ⟨i, hnone, he, -⟩ | ⟨k, o, hk, hrunning, he, hf⟩
  · have hcaller₀ : k.caller = some p := hf.caller.symm.trans hcaller
    have hopen : k.stage.isOpen = false := by
      rcases hbefore with hleft | ⟨i, o, he⟩
      · exact hn c k p hk hcaller₀ hleft
      · exact h.not_isOpen_of_served hk hcaller₀ (h.leaving hs he hd hr).1
    exact Bool.eq_false_iff.2 fun ho => absurd (hf.isOpen ho) (Bool.eq_false_iff.1 hopen)
  · -- it was made by a function that had not left its call
    have hleft₀ := hbefore.resolve_right (by simp [he])
    rw [hcaller] at he
    cases hs with
    | call v caller callee service function jsargs core now hv hfresh =>
      simp only [Label.event, hv, Option.map_some, Option.some.injEq, Event.called.injEq] at he
      obtain ⟨-, rfl, -⟩ := he
      exact absurd hleft₀ hd
    | newReq => simp [Label.event] at he
    | jsReply v call_id ret now hv => simp [Label.event, hv] at he
    | jsThrow v call_id now hv hbody => simp [Label.event, hv] at he
    | _ => cases he
  -- a running call is open, so its caller had not left before
  · have hcaller₀ : k.caller = some p := hf.caller.symm.trans hcaller
    obtain ⟨kp, hkp, -, -, -, hborn, -⟩ := (h.sound c k hk).caller p hcaller₀
    rcases hbefore with hleft | ⟨i, o', he'⟩
    · have hopen := hn c k p hk hcaller₀ hleft
      simp [hrunning] at hopen
    · -- no call is its own caller
      rw [he] at he'
      simp only [Option.some.injEq, Event.left.injEq] at he'
      obtain ⟨-, rfl, -⟩ := he'
      obtain rfl := Option.some.inj (hk.symm.trans hkp)
      exact absurd hborn (lt_irrefl _)

/-- **Open calls are part of open requests.** By induction on when they were made, from
a call to its caller. -/
theorem Nested.root (hn : Nested w) (h : Accounted P w) {k : Call n} (hk : w.call c = some k)
    (hleft : ¬HasLeft w c) : ¬HasLeft w k.task.req_id := by
  generalize hborn : k.born = born
  induction born using Nat.strong_induction_on generalizing c k with
  | h born ih =>
    subst hborn
    have hsound := h.sound c k hk
    cases hcaller : k.caller with
    | none => rwa [hsound.caller_none.1 hcaller]
    | some p =>
      -- a caller was made before its call, and is still open while the call is
      obtain ⟨kp, hkp, -, hreq, -, hborn, -⟩ := hsound.caller p hcaller
      rw [← hreq]
      refine ih kp.born hborn hkp (fun hp => hleft ?_) rfl
      have hopen := hn c k p hk hcaller hp
      rw [h.hasLeft_iff hk]
      cases hstage : k.stage <;> simp [hstage] at hopen ⊢

/-- A request that has just been left has the string that the step says. -/
theorem Usable.step (hu : Usable P w) (h : Accounted P w) {l : Label n} (hs : Move P w l w')
    (hd : l.Disciplined w) (hr : l.Readable P w) : Usable P w' := by
  intro c k' o hk' hcaller ho
  rcases h.call_cases hs hk' with
    ⟨k, hk, hf⟩ | ⟨i, -, -, hf⟩ | ⟨k, o', hk, -, he, hf⟩
  · exact hu c k o hk (hf.caller ▸ hcaller) (hf.outcome ▸ ho)
  · cases hf.outcome.symm.trans ho
  · obtain rfl : o' = o := Option.some.inj (hf.outcome.symm.trans ho)
    exact (h.leaving hs he hd hr).2 ((h.isRoot_iff hk).2 (hf.caller ▸ hcaller))

/-! ### The invariant -/

/-- What holds while functions keep to their calls, and requests are replied to with
strings of use. The last clause is the one that matters; the others are what it takes to
keep it. -/
structure Orderly (P : Runtime) (w : World n) : Prop where
  inOrder : InOrder P w
  usable : Usable P w
  nested : Nested w
  curr_wf : CurrWfSound w
  awake : ∀ j, Awake w j

theorem Orderly.initial (P : Runtime) : Orderly P (.initial n) where
  inOrder := .initial P
  usable c k o hk := by simp at hk
  nested c k p hk := by simp at hk
  curr_wf i r hmem := by simp [World.initial, Core.initial] at hmem
  awake j := by
    rintro ⟨c, rest, task, hq, -, -⟩
    cases hq

/-- Such steps keep to what fused workflows need: calls are made in open requests only,
and no reply to a request is rejected. -/
theorem Orderly.keepsWf (h : Orderly P w) {l : Label n} (hs : Move P w l w')
    (hd : l.Disciplined w) (hr : l.Readable P w) : l.KeepsWf P w := by
  have ha := h.inOrder.accounted
  have hroot : ∀ {c}, FusedHome w c → IsRoot w c := by
    rintro c ⟨i, task, hcalled, hid, -⟩
    exact ⟨i, task, hcalled, hid⟩
  -- the workflow is left by its root, and a nested call is made while the root is open
  cases hs with
  | call v caller callee service function jsargs core now hv hfresh =>
    intro v' hv' _
    obtain rfl := Option.some.inj (hv.symm.trans hv')
    obtain ⟨k, hk, -, -, htask, -⟩ := ha.call_of_js hv
    rw [htask]
    exact h.nested.root ha hk hd
  | jsReply => exact fun hhome => hr (hroot hhome)
  | jsThrow => exact fun hhome => hr (hroot hhome)
  | _ => trivial

/-- **One step** keeps all of it. Each core is attended to, and so is awake afterwards. -/
theorem Orderly.step (h : Orderly P w) {l : Label n} (hs : Move P w l w') (hl : l.Safe P w)
    (hd : l.Disciplined w) (hr : l.Readable P w) : Orderly P w' := by
  have horder := h.inOrder.step hl hs
  have ha := h.inOrder.accounted
  have ha' := horder.accounted
  have husable := h.usable.step ha hs hd hr
  refine ⟨horder, husable, h.nested.step ha hs hd hr,
    h.curr_wf.step h.inOrder horder hs (h.keepsWf hs hd hr), fun j => ?_⟩
  rcases h.inOrder.attended horder husable hl hs j with hrests | hpending | ⟨w₁, hwoken⟩
  · exact (h.awake j).of_rests ha ha' hs hrests
  · exact fun _ => .inl hpending
  · exact hwoken.awake

theorem orderly_of_reachable
    (h : Reachable ((scheduler P n).restrict fun w l => l.Disciplined w ∧ l.Readable P w) w)
    (halive : w.crashed = false) : Orderly P w := by
  have hinv : w.crashed = true ∨ Orderly P w := by
    refine h.invariant (I := fun w => w.crashed = true ∨ Orderly P w) ?_ ?_
    · rintro _ rfl
      exact .inr (.initial P)
    · rintro w l w' hw ⟨⟨hd, hr⟩, hrun, hs⟩
      have hw := hw.resolve_left (by simp [hrun])
      -- a step that is not safe crashes the program, after which nothing is to be shown
      by_cases hl : l.Safe P w
      · exact .inr (hw.step hs hl hd hr)
      · exact .inl (hw.inOrder.crash hl hs)
  exact hinv.resolve_left (by simp [halive])

/-! ### Quiescent worlds -/

/-- No task, no message and no continuation is pending: the system does nothing unless a
client or a function that has returned goes on by itself. -/
structure Quiescent (w : World n) : Prop where
  tasks : ∀ i, (w.core i).tasks = 0
  msgs : w.msgs = 0
  acks : w.acks = 0
  callbacks : ∀ i, (w.core i).callbacks = 0
  inBody : ∀ c v, w.js c = some v → v.inBody = false

/-- A function whose body is over, and whose nested calls have been answered, has left
its call. It has nothing left to wait for. -/
def Prompt (w : World n) : Prop :=
  ∀ c v, w.js c = some v → v.inBody = false → Served w c → HasLeft w c

/-- In a quiescent world a call waits, runs or is over: in every other stage something
is pending for it. -/
theorem InOrder.stage_of_quiescent (h : InOrder P w) (hq : Quiescent w) {k : Call n}
    (hk : w.call c = some k) :
    k.stage = .waiting ∨ k.stage = .running ∨ ∃ o, k.stage = .closed o := by
  have ha := h.accounted
  have hmsgs : w.msgs.filter (·.call_id = c) = k.msgs :=
    congrArg View.msgs (ha.view_of_call hk)
  rw [hq.msgs] at hmsgs
  -- in all other stages something of the call is still to come: a message, a task or a
  -- callback
  cases hstage : k.stage with
  | placing => exact absurd ⟨k, hk, hstage⟩ (h.placed c)
  | sent => simp [Call.msgs, hstage] at hmsgs
  | returning o => simp [Call.msgs, hstage] at hmsgs
  | ready =>
    have htasks : (w.core k.place).tasks.filter (·.call_id = c) = (k.coreView k.place).tasks :=
      congrArg CoreView.tasks (ha.core hk k.place)
    simp [hq.tasks, Call.coreView, hstage] at htasks
  | answering o =>
    have hcallbacks : (w.core k.origin).callbacks.filter (·.1 = c) =
        (k.coreView k.origin).callbacks := congrArg CoreView.callbacks (ha.core hk k.origin)
    simp [hq.callbacks, Call.coreView, hstage] at hcallbacks
  | waiting => exact .inl rfl
  | running => exact .inr (.inl rfl)
  | closed o => exact .inr (.inr ⟨o, rfl⟩)

/-- A running call has an open nested call, made after it was taken from the queue:
otherwise its function, whose body is over, would have left it. -/
theorem Orderly.open_nested (h : Orderly P w) (hq : Quiescent w) (hp : Prompt w) {k : Call n}
    (hk : w.call c = some k) (hrunning : k.stage = .running) :
    ∃ y ky, w.call y = some ky ∧ (ky.stage = .waiting ∨ ky.stage = .running) ∧
      ky.fused = k.fused ∧ k.born < ky.born ∧ k.popped < ky.born := by
  have ha := h.inOrder.accounted
  obtain ⟨v, hv⟩ : ∃ v, w.js c = some v := by
    have hjs : (w.js c).map _ = (k.view P).js := congrArg View.js (ha.view_of_call hk)
    cases hv : w.js c with
    | none => simp [hv, Call.view, hrunning] at hjs
    | some v => exact ⟨v, rfl⟩
  have hleft : ¬HasLeft w c := by
    rw [ha.hasLeft_iff hk, hrunning]
    simp
  have hserved : ¬Served w c := fun hs => hleft (hp c v hv (hq.inBody c v hv) hs)
  simp only [Served, not_forall] at hserved
  obtain ⟨i, task, hcalled, hnot⟩ := hserved
  obtain ⟨y, hy, hmem⟩ : ∃ y, w.call task.call_id = some y ∧
      Event.called i (some c) task ∈ y.events P := ha.call_of_mem hcalled
  obtain ⟨-, hcaller, -⟩ := (y.mem_events_called P _ _ _).1 hmem
  obtain ⟨kp, hkp, -, hreq, -, hborn, hpopped⟩ := (ha.sound _ y hy).caller c hcaller.symm
  obtain rfl := Option.some.inj (hk.symm.trans hkp)
  have hstage := h.inOrder.stage_of_quiescent hq hy
  have hopen : y.stage = .waiting ∨ y.stage = .running := by
    rcases hstage with hs | hs | ⟨o, hs⟩
    · exact .inl hs
    · exact .inr hs
    · exfalso
      refine hnot ⟨y.origin, none, o.text, (ha.callbackRun_mem_log hy).2 ⟨rfl, ?_, rfl, o, rfl, ?_⟩⟩
      · simp [← hcaller]
      · exact .inr hs
  refine ⟨task.call_id, y, hy, hopen, ?_, hborn, hpopped⟩
  -- both are part of one workflow
  have hfuse := (ha.sound _ y hy).fuse (by rcases hopen with hs | hs <;> simp [hs])
  have hfuse' := (ha.sound _ k hk).fuse (by simp [hrunning])
  rw [← hreq, hfuse'] at hfuse
  exact (Option.some.inj hfuse).symm

/-- No fused call runs. It would have an open nested call, which is fused as well and
does not wait, hence runs, and was made later; and so on without end. -/
theorem Orderly.not_running_fused (h : Orderly P w) (hq : Quiescent w) (hp : Prompt w) {k : Call n}
    (hk : w.call c = some k) (hfused : k.fused) : k.stage ≠ .running := by
  have ha := h.inOrder.accounted
  intro hrunning
  -- on the time left until now
  generalize hd : w.clock - k.born = d
  induction d using Nat.strong_induction_on generalizing c k with
  | h d ih =>
    obtain ⟨y, ky, hy, hopen, hyfused, hborn, -⟩ := h.open_nested hq hp hk hrunning
    have hyrunning : ky.stage = .running := by
      refine hopen.resolve_left fun hwaiting => ?_
      have hsound := (ha.sound y ky hy).stage
      simp only [Call.StageSound, hwaiting] at hsound
      simp [hsound, hfused] at hyfused
    have hlt := (ha.sound y ky hy).born_lt
    -- the nested call was made later
    exact ih _ (by omega) hy (hyfused.trans hfused) hyrunning rfl

/-- No fused workflow runs, so that no core is kept from dispatching by one. -/
theorem Orderly.curr_wf_empty (h : Orderly P w) (hq : Quiescent w) (hp : Prompt w) (i : Fin n) :
    (w.core i).curr_wf = ∅ := by
  have ha := h.inOrder.accounted
  rw [Finset.eq_empty_iff_forall_notMem]
  intro r hmem
  obtain ⟨k, hk, -, -, hfused, hout⟩ := ha.call_of_runsWf (h.curr_wf i r hmem)
  rcases h.inOrder.stage_of_quiescent hq hk with hs | hs | ⟨o, hs⟩
  · have hsound := (ha.sound r k hk).stage
    simp only [Call.StageSound, hs] at hsound
    simp [hsound] at hfused
  · exact h.not_running_fused hq hp hk hfused hs
  · simp [hs] at hout

/-- What is in the queue waits. Fused root calls are in queues too, but those run. -/
theorem Orderly.waiting_of_mem_q (h : Orderly P w) (hq : Quiescent w) (hp : Prompt w) {i : Fin n}
    (hc : c ∈ (w.core i).q) : ∃ k, w.call c = some k ∧ k.place = i ∧ k.stage = .waiting := by
  have ha := h.inOrder.accounted
  have hcount : (w.core i).q.count c ≠ 0 := by rwa [Ne, List.count_eq_zero, not_not]
  cases hk : w.call c with
  | none =>
    have hview := congrArg (fun v => (v.core i).queued) (ha.view c)
    simp only [hk] at hview
    exact absurd hview hcount
  | some k =>
    have hqueued : (w.core i).q.count c = (k.coreView i).queued :=
      congrArg CoreView.queued (ha.core hk i)
    rw [hqueued] at hcount
    obtain ⟨rfl, hin⟩ : i = k.place ∧ k.inQueue = true := by simpa [Call.coreView] using hcount
    refine ⟨k, rfl, rfl, ?_⟩
    -- a call in a queue waits or is a fused request that runs, and in a quiescent world
    -- none runs
    rcases h.inOrder.stage_of_quiescent hq hk with hs | hs | ⟨o, hs⟩
    · exact hs
    · simp only [Call.inQueue, hs, Bool.and_eq_true] at hin
      exact absurd hs (h.not_running_fused hq hp hk hin.1)
    · simp [Call.inQueue, hs] at hin

/-- Where a call waits, one runs that was taken from the queue later than the other was
made. The core could dispatch, since whatever is at the front has arrived and no fused
workflow runs; as nothing is pending, it is awake because of such a call. -/
theorem Orderly.running_of_waiting (h : Orderly P w) (hq : Quiescent w) (hp : Prompt w) {k : Call n}
    (hk : w.call c = some k) (hwaiting : k.stage = .waiting) :
    ∃ a ka, w.call a = some ka ∧ ka.stage = .running ∧ k.born ≤ ka.popped := by
  have ha := h.inOrder.accounted
  have hqueued : (w.core k.place).q.count c = (k.coreView k.place).queued :=
    congrArg CoreView.queued (ha.core hk k.place)
  have hfused := (ha.sound c k hk).stage
  simp only [Call.StageSound, hwaiting] at hfused
  have hmem : c ∈ (w.core k.place).q := by
    rw [← List.one_le_count_iff, hqueued]
    simp [Call.coreView, Call.inQueue, hwaiting, hfused]
  -- the front of the queue has arrived
  obtain ⟨c', rest, hfront⟩ := List.exists_cons_of_ne_nil (List.ne_nil_of_mem hmem)
  obtain ⟨k', hk', hplace', hwaiting'⟩ := h.waiting_of_mem_q hq hp (i := k.place) (c := c')
    (by simp [hfront])
  have hparked : (w.core k.place).task_map c' = (k'.coreView k.place).parked :=
    congrArg CoreView.parked (ha.core hk' k.place)
  have hdisp : Dispatchable w k.place := by
    refine ⟨c', rest, k'.task, hfront, ?_, h.curr_wf_empty hq hp _⟩
    rw [hparked]
    simp [Call.coreView, hplace', hwaiting']
  rcases h.awake k.place hdisp with hpending | ⟨a, ka, hka, -, -, hstage, hlate⟩
  · exfalso
    rcases hpending with hack | hcallback | ⟨_, _, _, _, _, hm⟩
    · simp [hq.acks] at hack
    · exact hcallback (hq.callbacks _)
    · simp [hq.msgs] at hm
  · refine ⟨a, ka, hka, ?_, hlate c k hk rfl hwaiting⟩
    rcases h.inOrder.stage_of_quiescent hq hka with hs | hs | ⟨o, hs⟩
    · rcases hstage with h | h <;> cases hs.symm.trans h
    · exact hs
    · rcases hstage with h | h <;> cases hs.symm.trans h

/-- Nothing runs. From a running call one gets to another whose time, the later of when
it was made and when it was taken from the queue, is later: its open nested call, or
what runs where that one waits. -/
theorem Orderly.not_running (h : Orderly P w) (hq : Quiescent w) (hp : Prompt w) {k : Call n}
    (hk : w.call c = some k) : k.stage ≠ .running := by
  have ha := h.inOrder.accounted
  intro hrunning
  generalize hd : w.clock - max k.born k.popped = d
  induction d using Nat.strong_induction_on generalizing c k with
  | h d ih =>
    obtain ⟨y, ky, hy, hopen, -, hborn, hpopped⟩ := h.open_nested hq hp hk hrunning
    have hlt := (ha.sound y ky hy).born_lt
    -- on the time left until now
    rcases hopen with hwaiting | hyrunning
    · obtain ⟨a, ka, hka, harunning, hlate⟩ := h.running_of_waiting hq hp hy hwaiting
      have hbefore := (ha.sound a ka hka).popped_lt
      exact ih _ (by omega) hka harunning rfl
    · exact ih _ (by omega) hy hyrunning rfl

/-- **No call is stranded**, in the runs in which functions leave their calls once, when
their nested calls have been answered, and requests with strings that `read_json`
accepts: when nothing is pending any more, the queues are empty and nothing is parked.

A call that waited would have a call running on its core that was taken from the queue
later than it was made (`Orderly.running_of_waiting`), and a running call leads to
another one later still (`Orderly.not_running`). The invariant behind both is that cores
are awake, which `Orderly` has along with what keeps it. -/
theorem no_call_stranded (P : Runtime) (n : ℕ) (w : World n)
    (h : Reachable ((scheduler P n).restrict fun w l => l.Disciplined w ∧ l.Readable P w) w)
    (halive : w.crashed = false) (hq : Quiescent w) (hp : Prompt w) (i : Fin n) :
    (w.core i).q = [] ∧ ∀ c, (w.core i).task_map c = none := by
  have horder := orderly_of_reachable h halive
  have ha := horder.inOrder.accounted
  -- a call that waits would have one in front of it that runs, and with nothing left to
  -- do none does
  have hnot : ∀ {c k}, w.call c = some k → k.stage ≠ .waiting := by
    intro c k hk hwaiting
    obtain ⟨a, ka, hka, hrunning, -⟩ := horder.running_of_waiting hq hp hk hwaiting
    exact horder.not_running hq hp hka hrunning
  -- so the queue has no call, and neither has the task map
  constructor
  · refine List.eq_nil_iff_forall_not_mem.2 fun c hc => ?_
    obtain ⟨k, hk, -, hwaiting⟩ := horder.waiting_of_mem_q hq hp hc
    exact hnot hk hwaiting
  · intro c
    have hview := congrArg (fun v => (v.core i).parked) (ha.view c)
    cases hk : w.call c with
    | none =>
      simp only [hk] at hview
      exact hview
    | some k =>
      have hparked : (w.core i).task_map c = (k.coreView i).parked :=
        congrArg CoreView.parked (ha.core hk i)
      rw [hparked]
      simp [Call.coreView, hnot hk]

/-- What holds of all JavaScript is looked up at the calls in the log: no other calls
have any. -/
theorem Accounted.forall_js (h : Accounted P w) {Q : Uuid → Invocation n → Prop}
    (hlog : ∀ e ∈ w.log, ∀ v ∈ w.js e.call_id, Q e.call_id v) (c : Uuid) (v : Invocation n)
    (hv : w.js c = some v) : Q c v := by
  obtain ⟨k, hk, -⟩ := h.call_of_js hv
  have hid : k.task.call_id = c := (h.sound c k hk).call_id
  have hcalled := hlog _ (h.called_mem_log hk) v
  rw [Event.call_id, hid] at hcalled
  exact hcalled hv

/-- In the run with a nested call nothing is left on the core that the call was placed
on. -/
theorem no_call_stranded_nested :
    (nestedWorld.core 1).q = [] ∧ ∀ c, (nestedWorld.core 1).task_map c = none := by
  have h : Reachable ((scheduler nestedServices 2).restrict fun w l =>
      l.Disciplined w ∧ l.Readable nestedServices w) nestedWorld :=
    ⟨_, run_after nestedSteps (by decide +kernel)⟩
  have ha := (inOrder_of_reachable h.of_restrict (by decide +kernel)).accounted
  refine no_call_stranded nestedServices 2 nestedWorld h (by decide +kernel)
    ⟨by decide +kernel, by decide +kernel, by decide +kernel, by decide +kernel, ?_⟩ ?_ 1
  · exact ha.forall_js (by decide +kernel)
  · exact ha.forall_js (by decide +kernel)

section Stranded

/-- A fused service and another one. -/
def twoServices : Runtime := { oneService with services := ["post.js", "a.js"] }

/-- A fused request's function throws when another request is in the queue. The other
has arrived, but cannot be started while the workflow is in `curr_wf`, and nothing takes
it out any more. -/
def strandedWorld : World 1 :=
  (((World.initial 1).newReq 0 firstUuid "post.js" "compose" "" 0 0).start twoServices 0 fusedTask
    0 0 |>.newReq 0 secondUuid "a.js" "f" "" 0 0).jsThrow twoServices fusedJs 0

/-- Its reply cannot be read, and the other request stays in the queue. -/
theorem call_stranded : ¬∀ w : World 1,
    Reachable ((scheduler twoServices 1).restrict fun w l => l.Disciplined w) w →
      w.crashed = false → Quiescent w → Prompt w →
        ∀ i, (w.core i).q = [] ∧ ∀ c, (w.core i).task_map c = none := by
  intro hall
  have h₀ : Reachable ((scheduler twoServices 1).restrict fun w l => l.Disciplined w)
      (.initial 1) := .of_init rfl
  have h₁ := h₀.of_allowed ⟨rfl, .newReq 0 firstUuid "post.js" "compose" "" 0 0 (by decide)⟩ trivial
  have h₂ := h₁.of_allowed ⟨rfl, .start 0 fusedTask 0 0 rfl⟩ trivial
  have h₃ := h₂.of_allowed ⟨rfl, .newReq 0 secondUuid "a.js" "f" "" 0 0 (by decide)⟩ trivial
  -- the exception of the first request leaves the second one in the queue
  have h₄ := h₃.of_allowed ⟨rfl, .jsThrow fusedJs firstUuid 0 rfl rfl⟩
    ⟨by decide, by decide⟩
  have ha := (inOrder_of_reachable h₄.of_restrict rfl).accounted
  have hempty := hall strandedWorld h₄ rfl ⟨by decide, rfl, rfl, by decide, ?_⟩ ?_ 0
  · exact absurd hempty.1 (by decide)
  · exact ha.forall_js (by decide)
  · exact ha.forall_js (by decide)

end Stranded

end Nanoservices
