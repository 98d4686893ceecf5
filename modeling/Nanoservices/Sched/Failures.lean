import Nanoservices.Sched.Routing

/-!
# Failures

A function that throws is answered like one that replied: `req_service::run_func` hands
the text `error` to `reply`, and nothing marks it as an error. For a nested call it is
passed on with a null error argument, so that the caller takes it for a result. For a
request, and for any reply of a root function, `reply` reads it as JSON; when
`read_json` throws, which it does for that text, the promise is not set and the client
gets no response.

So no failure is answered as it should be, and of the replies to requests only the
usable ones are (`failure_answered_iff`). The call's entries on the cores are removed in
any case.
-/

namespace Nanoservices

open World Lts

variable {n : ℕ} {P : Runtime} {w : World n} {c : Uuid}

/-- The call is a request: `new_req` made it, and no function did. -/
def IsRoot (w : World n) (c : Uuid) : Prop :=
  ∃ i task, .called i none task ∈ w.log ∧ task.call_id = c

/-- The same as a search of the log, which can be computed. -/
theorem isRoot_iff_log :
    IsRoot w c ↔ ∃ e ∈ w.log, (e matches .called _ none _) ∧ e.call_id = c := by
  constructor
  · rintro ⟨i, task, he, hc⟩
    exact ⟨_, he, rfl, hc⟩
  · rintro ⟨e, he, hroot, hc⟩
    cases e with
    | called i caller task =>
      cases caller with
      | none => exact ⟨i, task, he, hc⟩
      | some p => cases hroot
    | _ => cases hroot

instance (w : World n) (c : Uuid) : Decidable (IsRoot w c) := decidable_of_iff _ isRoot_iff_log.symm

/-- Nothing is under way for the call: none of its messages, and not its callback. The
call may still be running; a call that has been left and is settled is over
(`Accounted.closed_of_settled`). -/
structure Settled (w : World n) (c : Uuid) : Prop where
  msgs : ∀ m ∈ w.msgs, m.call_id ≠ c
  callbacks : ∀ i, ∀ x ∈ (w.core i).callbacks, x.1 ≠ c

/-- No core has an entry for the call. -/
structure Removed (w : World n) (c : Uuid) : Prop where
  q : ∀ i, c ∉ (w.core i).q
  curr_req : ∀ i, c ∉ (w.core i).curr_req
  req_map : ∀ i s, (w.core i).req_map (replyKey s c) = none ∧ (w.core i).req_map (cbKey s c) = none

/-- The call, which its function has left as `o` says, is answered as a failure should
be: the promise of a request is set once, to an error status if there is no usable
reply; the callback of a nested call whose function threw runs once, with an error; and
the call's entries are removed. A nested call whose function replied has not failed, and
only the last clause is about it. -/
structure FailureAnswered (P : Runtime) (w : World n) (c : Uuid) (o : Outcome) : Prop where
  root : IsRoot w c → ∃ i status message,
    w.log.filter (·.isAnswer c) = [.promiseSet i c status message] ∧
      (P.readJson o.text = none → 400 ≤ status)
  nested : ¬IsRoot w c → o = .threw → ∃ i error ret,
    w.log.filter (·.isAnswer c) = [.callbackRun i c (some error) ret]
  removed : Removed w c

/-- Requests are the calls without a caller. -/
theorem Accounted.isRoot_iff (h : Accounted P w) {k : Call n} (hk : w.call c = some k) :
    IsRoot w c ↔ k.caller = none := by
  constructor
  · rintro ⟨i, task, hcalled, rfl⟩
    obtain ⟨-, hcaller, -⟩ := (k.mem_events_called P _ _ _).1 ((h.mem_log hk rfl).1 hcalled)
    exact hcaller.symm
  · intro hcaller
    refine ⟨k.origin, k.task, ?_, (h.sound c k hk).call_id⟩
    rw [← hcaller]
    exact h.called_mem_log hk

/-- A settled call that has been left is closed: in the two stages between, the message
or the callback would be under way. -/
theorem Accounted.closed_of_settled (h : Accounted P w) {k : Call n} (hk : w.call c = some k)
    {o : Outcome} (ho : k.stage.outcome = some o) (hs : Settled w c) : k.stage = .closed o := by
  have hview := h.view_of_call hk
  cases hstage : k.stage with
  -- its reply would be under way
  | returning o' =>
    have hmsgs : w.msgs.filter (·.call_id = c) = k.msgs := congrArg View.msgs hview
    have hmem : Msg.reply k.origin k.place k.task.req_id k.task.call_id k.task.service o'.text ∈
        w.msgs.filter (·.call_id = c) := by
      simp [hmsgs, Call.msgs, hstage]
    obtain ⟨hmem, hid⟩ := Multiset.mem_filter.1 hmem
    exact absurd hid (hs.msgs _ hmem)
  -- its callback would be running
  | answering o' =>
    have hcallbacks : (w.core k.origin).callbacks.filter (·.1 = c) =
        (k.coreView k.origin).callbacks := congrArg CoreView.callbacks (h.core hk k.origin)
    have hmem : (k.task.call_id, k.task.service) ∈
        (w.core k.origin).callbacks.filter (·.1 = c) := by
      simp [hcallbacks, Call.coreView, hstage]
    obtain ⟨hmem, hid⟩ := Multiset.mem_filter.1 hmem
    exact absurd hid (hs.callbacks _ _ hmem)
  | closed o' => simpa [hstage] using ho
  | _ => simp [hstage] at ho

/-- The entries of a closed call are gone, from the core it was made on and from the one
it ran on. -/
theorem Accounted.removed (h : Accounted P w) {k : Call n} (hk : w.call c = some k) {o : Outcome}
    (hstage : k.stage = .closed o) : Removed w c where
  q i := by
    have hqueued : (w.core i).q.count c = _ := congrArg CoreView.queued (h.core hk i)
    rw [← List.count_eq_zero, hqueued]
    simp [Call.coreView, Call.inQueue, hstage]
  curr_req i := by
    have hcurrent : (c ∈ (w.core i).curr_req) = _ := congrArg CoreView.current (h.core hk i)
    rw [hcurrent]
    simp [Call.coreView, hstage]
  -- the books of a closed call are empty
  req_map i s := by
    have hreply : (w.core i).req_map (replyKey s c) = _ :=
      congrFun (congrArg CoreView.reply (h.core hk i)) s
    have hcb : (w.core i).req_map (cbKey s c) = _ :=
      congrFun (congrArg CoreView.cb (h.core hk i)) s
    rw [hreply, hcb]
    simp [Call.coreView, hstage]

/-- **Failures are answered** exactly where there is none: where the function replied,
and to a request with a string of use. An exception is passed to a caller as if it were
a result, since `run_callback` always gives `null` for the error; and to a client it is
not passed at all, since the text of an exception is no JSON, which is the hypothesis on
`read_json`. The entries of the call are removed in either case. -/
theorem failure_answered_iff (herror : P.readJson "error\n" = none)
    (h : Reachable (scheduler P n) w) (halive : w.crashed = false) {i : Fin n} {o : Outcome}
    (hleft : .left i c o ∈ w.log) (hsettled : Settled w c) :
    FailureAnswered P w c o ↔
      ∃ ret, o = .returned ret ∧ (IsRoot w c → (P.readJson ret).isSome) := by
  have ha := (inOrder_of_reachable h halive).accounted
  obtain ⟨k, hk⟩ : ∃ k, w.call c = some k := by
    obtain ⟨k, hk, -⟩ := ha.call_of_mem hleft
    exact ⟨k, hk⟩
  have hstage := ha.closed_of_settled hk ((ha.left_mem_log hk).1 hleft).2 hsettled
  have hanswers := ha.filter_isAnswer hk
  rw [k.filter_isAnswer_events, hstage, (ha.sound c k hk).call_id] at hanswers
  have hroot := ha.isRoot_iff hk
  -- what a request needs for its promise to be set
  have husable : FailureAnswered P w c o → IsRoot w c → (P.readJson o.text).isSome := by
    intro hanswered hcase
    obtain ⟨j, status, message, hset, -⟩ := hanswered.root hcase
    by_contra hnone
    simp only [Option.not_isSome_iff_eq_none] at hnone
    simp [hset, hroot.1 hcase, hnone] at hanswers
  constructor
  · intro hanswered
    cases o with
    | returned ret => exact ⟨ret, rfl, husable hanswered⟩
    | threw =>
      exfalso
      by_cases hcase : IsRoot w c
      · have hsome := husable hanswered hcase
        simp [Outcome.text, herror] at hsome
      · -- the error argument is null
        obtain ⟨j, error, ret, hrun⟩ := hanswered.nested hcase rfl
        obtain ⟨p, hp⟩ := Option.ne_none_iff_exists'.1 (mt hroot.2 hcase)
        simp [hrun, hp] at hanswers
  · rintro ⟨ret, rfl, hsome⟩
    refine ⟨fun hcase => ?_, fun _ => by simp, ha.removed hk hstage⟩
    obtain ⟨⟨status, message⟩, hjson⟩ := Option.isSome_iff_exists.1 (hsome hcase)
    refine ⟨k.origin, status, message, ?_, ?_⟩
    · simp [hanswers, hroot.1 hcase, Outcome.text, hjson]
    · simp [Outcome.text, hjson]

/-- A request is replied to with a string of use. -/
theorem failure_answered_iff_request :
    let w := runningWorld.jsReply oneService runningJs usableReply 0
    FailureAnswered oneService w firstUuid (.returned usableReply) ↔
      ∃ ret, Outcome.returned usableReply = .returned ret ∧
        (IsRoot w firstUuid → (oneService.readJson ret).isSome) := by
  have hw := reachable_runningWorld.of_step (l := .jsReply firstUuid usableReply 0)
    ⟨rfl, .jsReply runningJs firstUuid usableReply 0 rfl⟩
  exact failure_answered_iff (by decide) hw rfl (i := 0) (by decide) ⟨by decide, by decide⟩

/-- A request's function throws: the request is never answered. -/
theorem failure_unanswered : ¬∀ (w : World 1) (c : Uuid) (i : Fin 1) (o : Outcome),
    Reachable (scheduler oneService 1) w → w.crashed = false → .left i c o ∈ w.log →
      Settled w c → FailureAnswered oneService w c o := by
  intro hall
  let w := runningWorld.jsThrow oneService runningJs 0
  have hw : Reachable (scheduler oneService 1) w :=
    reachable_runningWorld.of_step ⟨rfl, .jsThrow runningJs firstUuid 0 rfl rfl⟩
  have hanswered := hall w firstUuid 0 .threw hw rfl (by decide) ⟨by decide, by decide⟩
  obtain ⟨i, status, message, hset, -⟩ := hanswered.root ⟨0, rootTask, by decide, rfl⟩
  have hnone : w.log.filter (·.isAnswer firstUuid) = [] := by decide
  simp [hnone] at hset

end Nanoservices
