import Nanoservices.Sched.Answering

/-!
# Reachable worlds

Every world the scheduler reaches without a crash is `Accounted`, whatever the services
do, and no call of it is still without a place.
-/

namespace Nanoservices

open World Lts

variable {n : ℕ} {P : Runtime} {w w' : World n} {c : Uuid}

/-! ### Every call has a place -/

/-- A call that has been made and has no place yet. Within a step there are such calls,
between `prepare` and `place`; that there are none between steps is what this section
shows, operation by operation. -/
def Unplaced (w : World n) (c : Uuid) : Prop := ∃ k, w.call c = some k ∧ k.stage = .placing

/-- A call that is without a place after an event was so before it, and the event does
not place it. -/
theorem Unplaced.of_record {e : Event n} (h : Unplaced (w.record e) c)
    (he : ∀ i caller task, e ≠ .called i caller task) :
    Unplaced w c ∧ ∀ i fused, e ≠ .placed i c fused := by
  obtain ⟨k', hk', hstage⟩ := h
  by_cases hc : c = e.call_id
  · subst hc
    have hnew : e.newCall w.clock = none := by
      cases e <;> first | rfl | exact absurd rfl (he _ _ _)
    rw [call_record, if_pos rfl, hnew] at hk'
    obtain ⟨k, hk, rfl⟩ := Option.map_eq_some_iff.1 hk'
    -- no event takes a call back to `placing`, and `placed` takes it on
    have hbefore : k.stage = .placing ∧ ∀ i c' fused, e ≠ .placed i c' fused := by
      cases e <;> cases hks : k.stage <;> simp [Call.after, hks] at hstage ⊢
      all_goals
        split at hstage
        all_goals simp at hstage
    exact ⟨⟨k, hk, hbefore.1⟩, fun i fused => hbefore.2 i _ fused⟩
  · rw [call_record_of_ne _ hc] at hk'
    refine ⟨⟨k', hk', hstage⟩, ?_⟩
    rintro i fused rfl
    exact hc rfl

theorem Unplaced.congr (hlog : w'.log = w.log) (h : Unplaced w' c) : Unplaced w c := by
  obtain ⟨k, hk, hstage⟩ := h
  exact ⟨k, (call_congr hlog c).symm.trans hk, hstage⟩

theorem Unplaced.of_dispatch {i : Fin n} (h : Unplaced (w.dispatch i) c) : Unplaced w c := by
  by_cases hd : Dispatchable w i
  · obtain ⟨c', rest, task, hq, ht, hwf⟩ := hd
    rw [dispatch_of_front hq ht hwf] at h
    exact (h.of_record (by simp)).1
  · rwa [dispatch_of_not hd] at h

theorem Unplaced.of_runFunc {i prev_cpu : Fin n} {task : Task} {now : UInt64}
    (h : Unplaced (w.runFunc i prev_cpu task now) c) : Unplaced w c := by
  have hlog := log_ensureFuncStates (w := w.onCore i fun k =>
    k.ensureReplyStates (replyKey task.service task.call_id) prev_cpu)
    (task.service ++ task.function)
  unfold World.runFunc at h
  dsimp only at h
  split at h
  · exact h.congr hlog
  · exact (h.of_dispatch.of_record (by simp)).1.congr hlog

/-- Placing leaves the other calls without a place that were so before, and not this
one, unless it crashes. -/
theorem Unplaced.of_place {i prev_cpu core : Fin n} {task : Task} {now : UInt64}
    (h : Unplaced (w.place i prev_cpu task core now) c)
    (halive : (w.place i prev_cpu task core now).crashed = false) :
    Unplaced w c ∧ c ≠ task.call_id := by
  have hplaced : ∀ {w₁ : World n} {j : Fin n} {fused : Bool}, w₁.log = w.log →
      Unplaced (w₁.record (.placed j task.call_id fused)) c → Unplaced w c ∧ c ≠ task.call_id := by
    intro w₁ j fused hlog h₁
    obtain ⟨h₁, hne⟩ := h₁.of_record (by simp)
    refine ⟨h₁.congr hlog, ?_⟩
    rintro rfl
    exact hne _ _ rfl
  -- however it is placed, that event comes first
  rcases place_cases w i prev_cpu task core now with
    ⟨-, -, hplace⟩ | ⟨fuse, exec_time, -, -, hplace⟩ | ⟨-, hplace⟩
  · rw [hplace] at h
    exact hplaced rfl h.of_runFunc
  · rw [hplace] at h
    split at h
    · exact hplaced rfl h.of_runFunc
    · exact hplaced (j := core) rfl h
  · rw [hplace] at halive
    cases halive

theorem Unplaced.of_reply {i : Fin n} {req_id call_id : Uuid} {service ret : String}
    {now : UInt64} (h : Unplaced (reply P w i req_id call_id service ret now).1 c) :
    Unplaced w c := by
  cases hs : (w.core i).req_map (replyKey service call_id) with
  | none =>
    simp only [reply, hs] at h
    exact h
  | some states =>
    -- a reply places nothing: each branch adds at most an answer and the start of
    -- another call
    cases states with
    | callback callee =>
      simp only [reply, hs] at h
      exact h
    | localReply =>
      cases hjson : P.readJson ret with
      | none =>
        simp only [reply, hs, hjson] at h
        exact (h.of_record (by simp)).1
      | some res =>
        simp only [reply, hs, hjson] at h
        exact (Unplaced.of_record h.of_dispatch (by simp)).1
    | reply prev_cpu =>
      by_cases hprev : prev_cpu = i
      · simp only [reply, hs, hprev, if_true, runCallback] at h
        split at h
        · exact (h.of_record (by simp)).1
        · exact h
      · simp only [reply, hs, hprev, if_false, replyRemote] at h
        split at h <;> exact h

/-- A call that is scheduled has a place afterwards. -/
theorem Unplaced.of_schedule {i prev_cpu core : Fin n} {caller : Option Uuid} {task : Task}
    {now : UInt64} (hlog : w'.log = w.log)
    (h : Unplaced ((w'.record (.called i caller task)).schedule i prev_cpu task core now) c)
    (halive : ((w'.record (.called i caller task)).schedule i prev_cpu task core now).crashed =
      false) : Unplaced w c := by
  unfold World.schedule at h halive
  obtain ⟨h₁, hne⟩ := h.of_place halive
  obtain ⟨k, hk, hstage⟩ := h₁.congr log_prepare
  rw [call_record_of_ne _ hne] at hk
  exact Unplaced.congr hlog ⟨k, hk, hstage⟩

/-! ### Every step keeps the books -/

/-- The world is as the ledger says, and every call has a place: the invariant of all
runs in which the program does not crash. -/
structure InOrder (P : Runtime) (w : World n) : Prop where
  accounted : Accounted P w
  placed : ∀ c, ¬Unplaced w c

theorem InOrder.initial (P : Runtime) : InOrder P (.initial n) where
  accounted := .initial P
  placed c := by
    rintro ⟨k, hk, -⟩
    simp at hk

/-- The step does not crash: the function that calls `Reply`, or throws, has not left
its call yet, and `Reply` is called from the call's own service. All other steps are
safe. -/
def Label.Safe (P : Runtime) (w : World n) : Label n → Prop
  | .jsReply c _ _ => ∃ k, w.call c = some k ∧ k.stage = .running ∧
      P.serviceName k.task.service = k.task.service
  | .jsThrow c _ => ∃ k, w.call c = some k ∧ k.stage = .running
  | _ => True

/-- **A safe step keeps the world in order.** There is one case for each transition, in
which the lemma on its operation gives `Accounted`, and the operation is followed to see
that it leaves no call without a place. -/
theorem InOrder.step (h : InOrder P w) {l : Label n} (hl : l.Safe P w) (hs : Move P w l w') :
    InOrder P w' := by
  have ha := h.accounted
  cases hs with
  | newReq i req_id service function args core now hfresh =>
    -- placing completes within the step, or the step crashes
    have ha' := ha.newReq hfresh i service function args core now
    refine ⟨ha', fun c hc => h.placed c ?_⟩
    have halive := ha'.alive
    unfold World.newReq at hc halive
    refine Unplaced.of_schedule ?_ hc halive
    rfl
  | call v caller callee service function jsargs core now hv hfresh =>
    have ha' := ha.callFunction hv hfresh service function jsargs core now
    refine ⟨ha', fun c hc => h.placed c ?_⟩
    have halive := ha'.alive
    unfold World.callFunction at hc halive
    refine Unplaced.of_schedule ?_ hc halive
    rfl
  | deliverRun i prev_cpu task now msgs hm =>
    exact ⟨ha.deliverRun hm now, fun c hc => h.placed c hc.of_runFunc⟩
  | deliverReply i sender req_id call_id service ret now msgs hm =>
    refine ⟨ha.deliverReply hm now, fun c hc => h.placed c ?_⟩
    rw [World.deliverReply] at hc
    split at hc
    · exact (Unplaced.of_reply (hc.congr rfl)).congr rfl
    · exact (Unplaced.of_reply hc).congr rfl
  | start i task now tasks ht =>
    exact ⟨ha.start ht now, fun c hc => h.placed c (Unplaced.of_record hc (by simp)).1⟩
  | jsReply v call_id ret now hv =>
    -- a body that replies leaves its call, which is running
    obtain ⟨k, hk, hrunning, hname⟩ := hl
    obtain ⟨k₀, hk₀, -, hcore, htask, hname₀⟩ := ha.call_of_js hv
    obtain rfl : k = k₀ := Option.some.inj (hk.symm.trans hk₀)
    obtain rfl := (ha.sound _ k hk).call_id
    refine ⟨ha.jsReply hk hcore htask hrunning (hname₀.trans hname) ret now, fun c hc => ?_⟩
    exact h.placed c (Unplaced.of_record (Unplaced.of_reply hc) (by simp)).1
  | jsThrow v call_id now hv hbody =>
    obtain ⟨k, hk, hrunning⟩ := hl
    obtain ⟨k₀, hk₀, -, hcore, htask, -⟩ := ha.call_of_js hv
    obtain rfl : k = k₀ := Option.some.inj (hk.symm.trans hk₀)
    obtain rfl := (ha.sound _ k hk).call_id
    rw [← htask] at hv
    refine ⟨ha.jsThrow hv hk hcore htask hrunning now, fun c hc => ?_⟩
    rw [World.jsThrow] at hc
    split at hc <;> exact h.placed c (Unplaced.of_record (Unplaced.of_reply hc) (by simp)).1
  | jsReturn v call_id now hv hbody =>
    obtain ⟨k, hk, -, hcore, htask, -⟩ := ha.call_of_js hv
    obtain rfl := (ha.sound _ k hk).call_id
    rw [← htask] at hv
    exact ⟨ha.finish hv now, fun c hc => h.placed c hc⟩
  | callbackDone i call_id service callbacks hc =>
    exact ⟨ha.callbackDone hc, fun c hc => h.placed c (hc.of_dispatch.of_record (by simp)).1⟩
  | ack i acks hi => exact ⟨ha.ack i acks, fun c hc => h.placed c hc.of_dispatch⟩

/-! ### Crashes -/

/-- Where a step executes `reply`, and the key it looks up. -/
def Label.replyAt (w : World n) : Label n → Option (Fin n × String)
  | .jsReply c _ _ => (w.js c).map fun v => (v.core, replyKey v.serviceName v.task.call_id)
  | .jsThrow c _ => (w.js c).map fun v => (v.core, replyKey v.task.service v.task.call_id)
  | .deliverReply core _ _ call_id service _ _ => some (core, replyKey service call_id)
  | _ => none

/-- Any other step executes `reply`, and there are no reply states for it. -/
theorem InOrder.req_map_of_unsafe (h : InOrder P w) {l : Label n} (hl : ¬l.Safe P w)
    (hs : Move P w l w') :
    ∃ i key, l.replyAt w = some (i, key) ∧ (w.core i).req_map key = none := by
  have ha := h.accounted
  cases hs with
  | jsReply v call_id ret now hv =>
    obtain ⟨k, hk, hstarted, hcore, htask, hname⟩ := ha.call_of_js hv
    obtain rfl := (ha.sound _ k hk).call_id
    -- the step is unsafe since the call has been left before, or is answered under
    -- another service
    have hleft : k.stage ≠ .running ∨ v.serviceName ≠ k.task.service := by
      rw [hname]
      by_contra hcon
      obtain ⟨hrunning, hservice⟩ := not_or.1 hcon
      exact hl ⟨k, hk, not_not.1 hrunning, not_not.1 hservice⟩
    refine ⟨v.core, replyKey v.serviceName v.task.call_id, by simp [Label.replyAt, hv], ?_⟩
    rw [hcore, htask]
    exact ha.req_map_of_left hk hstarted hleft
  | jsThrow v call_id now hv hbody =>
    obtain ⟨k, hk, hstarted, hcore, htask, -⟩ := ha.call_of_js hv
    obtain rfl := (ha.sound _ k hk).call_id
    have hleft : k.stage ≠ .running := fun hrunning => hl ⟨k, hk, hrunning⟩
    refine ⟨v.core, replyKey v.task.service v.task.call_id, by simp [Label.replyAt, hv], ?_⟩
    rw [hcore, htask]
    exact ha.req_map_of_left hk hstarted (.inl hleft)
  | _ => exact absurd trivial hl

/-- **Any other step crashes.** -/
theorem InOrder.crash (h : InOrder P w) {l : Label n} (hl : ¬l.Safe P w) (hs : Move P w l w') :
    w'.crashed = true := by
  -- the key that `reply` looks up is missing
  obtain ⟨i, key, hkey, hnone⟩ := h.req_map_of_unsafe hl hs
  cases hs with
  | jsReply v call_id ret now hv =>
    simp only [Label.replyAt, hv, Option.map_some, Option.some.injEq, Prod.mk.injEq] at hkey
    obtain ⟨rfl, rfl⟩ := hkey
    exact reply_of_absent hnone
  | jsThrow v call_id now hv hbody =>
    simp only [Label.replyAt, hv, Option.map_some, Option.some.injEq, Prod.mk.injEq] at hkey
    obtain ⟨rfl, rfl⟩ := hkey
    have hcrash : (reply P (w.record (.left v.core v.task.call_id .threw)) v.core v.task.req_id
        v.task.call_id v.task.service Outcome.threw.text now).1.crashed = true :=
      reply_of_absent hnone
    rw [World.jsThrow]
    split <;> exact hcrash
  | _ => exact absurd trivial hl

/-- **Every world reached without a crash is in order.** The services are arbitrary: a
run either keeps to safe steps, or has crashed at the first step that was not, after
which it does not go on. -/
theorem inOrder_of_reachable (h : Reachable (scheduler P n) w) (halive : w.crashed = false) :
    InOrder P w := by
  have hinv : w.crashed = true ∨ InOrder P w := by
    refine h.invariant (I := fun w => w.crashed = true ∨ InOrder P w) ?_ ?_
    · rintro _ rfl
      exact .inr (.initial P)
    · rintro w l w' hw ⟨hrun, hs⟩
      have hw := hw.resolve_left (by simp [hrun])
      by_cases hl : l.Safe P w
      · exact .inr (hw.step hl hs)
      · exact .inl (hw.crash hl hs)
  exact hinv.resolve_left (by simp [halive])

/-! ### The log -/

/-- Which events of a call are in the log is told by its stage. -/
theorem Accounted.mem_log (h : Accounted P w) {k : Call n} (hk : w.call c = some k) {e : Event n}
    (he : e.call_id = c) : e ∈ w.log ↔ e ∈ k.events P := by
  have hlog : w.log.filter (·.call_id = c) = k.events P :=
    congrArg View.log (h.view_of_call hk)
  rw [← hlog, List.mem_filter]
  simp [he]

theorem Accounted.count_log (h : Accounted P w) {k : Call n} (hk : w.call c = some k)
    {e : Event n} (he : e.call_id = c) : w.log.count e = (k.events P).count e := by
  have hlog : w.log.filter (·.call_id = c) = k.events P :=
    congrArg View.log (h.view_of_call hk)
  rw [← hlog, List.count_filter (by simp [he])]

/-- A call with an event is in the ledger. -/
theorem Accounted.call_of_mem (h : Accounted P w) {e : Event n} (he : e ∈ w.log) :
    ∃ k, w.call e.call_id = some k ∧ e ∈ k.events P := by
  cases hk : w.call e.call_id with
  | none =>
    have hlog := congrArg View.log (h.view e.call_id)
    rw [hk] at hlog
    have hmem : e ∈ w.log.filter (·.call_id = e.call_id) := List.mem_filter.2 ⟨he, by simp⟩
    rw [show w.log.filter (·.call_id = e.call_id) = [] from hlog] at hmem
    cases hmem
  | some k => exact ⟨k, rfl, (h.mem_log hk rfl).1 he⟩

end Nanoservices
