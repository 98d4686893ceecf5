import Nanoservices.Sched.Ledger

/-!
# The world is determined by the ledger

`Accounted`: all that the world holds for a call is what its entry in the ledger says.
-/

namespace Nanoservices

open World

variable {n : ℕ} {P : Runtime} {w w' : World n} {c : Uuid}

/-! ### Frames: what an operation on one call leaves to the others -/

section Core

variable {k : Core n} {c' : Uuid}

theorem view_setReqStates_reply (h : c ≠ c') (s : String) (e : ReqStates n) :
    (k.setReqStates (replyKey s c') e).view c = k.view c := by
  simp [Core.view, Core.setReqStates, h]

theorem view_setReqStates_cb (h : c ≠ c') (s : String) (e : ReqStates n) :
    (k.setReqStates (cbKey s c') e).view c = k.view c := by
  simp [Core.view, Core.setReqStates, h]

theorem view_ensureReplyStates (h : c ≠ c') (s : String) (i : Fin n) :
    (k.ensureReplyStates (replyKey s c') i).view c = k.view c := by
  unfold Core.ensureReplyStates
  split
  · exact view_setReqStates_reply h s _
  · rfl

theorem view_receive {task : Task} (h : c ≠ task.call_id) (fuse : Bool) (now : UInt64) :
    (k.receive task fuse now).view c = k.view c := by
  unfold Core.receive
  cases fuse <;> by_cases hroot : task.req_id = task.call_id <;>
    simp [Core.view, h, Ne.symm h, hroot]

end Core

/-- The two worlds hold the same for a call, and know the same of it. -/
structure SameFor (c : Uuid) (w w' : World n) : Prop where
  view : w'.view c = w.view c
  call : w'.call c = w.call c

namespace SameFor

theorem trans {w'' : World n} (h : SameFor c w w') (h' : SameFor c w' w'') : SameFor c w w'' :=
  ⟨h'.view.trans h.view, h'.call.trans h.call⟩

theorem onCore {i : Fin n} {f : Core n → Core n} (h : (f (w.core i)).view c = (w.core i).view c) :
    SameFor c w (w.onCore i f) where
  view := by
    ext1
    · funext j
      by_cases hj : j = i
      · subst hj
        simpa [World.view, World.onCore] using h
      · simp [World.view, World.onCore, hj]
    all_goals rfl
  call := rfl

theorem record {e : Event n} (h : c ≠ e.call_id) : SameFor c w (w.record e) where
  view := by
    ext1
    case log => simp [World.view, World.record, Ne.symm h]
    all_goals rfl
  call := w.call_record_of_ne h

theorem send {m : Msg n} (h : c ≠ m.call_id) : SameFor c w (w.send m) where
  view := by
    ext1
    case msgs => simp [World.view, World.send, Ne.symm h]
    all_goals rfl
  call := rfl

theorem setJs {c' : Uuid} {v : Invocation n} (h : c ≠ c') : SameFor c w (w.setJs c' v) where
  view := by
    ext1
    case js => simp [World.view, World.setJs, h]
    all_goals rfl
  call := rfl

end SameFor

/-! ### What an operation does for its own call -/

theorem view_onCore (i : Fin n) (f : Core n → Core n) :
    (w.onCore i f).view c =
      { w.view c with core := Function.update (w.view c).core i ((f (w.core i)).view c) } := by
  ext1
  case core =>
    funext j
    by_cases hj : j = i
    · subst hj
      simp [World.view, World.onCore]
    · simp [World.view, World.onCore, hj]
  all_goals rfl

theorem view_record {e : Event n} (he : e.call_id = c) :
    (w.record e).view c = { w.view c with log := (w.view c).log ++ [e] } := by
  ext1
  case log => simp [World.view, World.record, he]
  all_goals rfl

theorem view_send {m : Msg n} (hm : m.call_id = c) :
    (w.send m).view c = { w.view c with msgs := m ::ₘ (w.view c).msgs } := by
  ext1
  case msgs => simp [World.view, World.send, hm]
  all_goals rfl

theorem view_setJs (v : Invocation n) :
    (w.setJs c v).view c = { w.view c with js := some (v.core, v.task, v.serviceName) } := by
  ext1
  case js => simp [World.view, World.setJs]
  all_goals rfl

/-! ### The invariant -/

/-- All that the world holds for a call is what its entry in the ledger says. This is
the invariant that everything else about the scheduler is read off: since the view of a
call determines its stage, a step that finds a message, a task or an entry of a map
knows which call it meets and how far it has come.

`sound` says how calls are connected, `known` that the ids of calls have been generated,
and `alive` that no null pointer has been used. -/
structure Accounted (P : Runtime) (w : World n) : Prop where
  view : ∀ c, w.view c = match w.call c with
    | some k => k.view P
    | none => .empty n
  sound : ∀ c k, w.call c = some k → k.Sound w c
  known : ∀ c k, w.call c = some k → c ∈ w.uuids
  alive : w.crashed = false

theorem Accounted.initial (P : Runtime) : Accounted P (.initial n) where
  view c := by
    show _ = View.empty n
    ext <;> simp [World.view, World.initial, Core.view, Core.initial, View.empty]
  sound c k h := by simp at h
  known c k h := by simp at h
  alive := rfl

/-- A call stays connected when the calls go on and workflows stay fused. Every step
gives these three premises for the calls it is not about. -/
theorem Call.Sound.mono {k : Call n} (h : k.Sound w c)
    (hcalls : ∀ p kp, w.call p = some kp → ∃ kp', w'.call p = some kp' ∧ kp.EvolvesTo kp')
    (hfuse : ∀ r b, (w.call r).isSome → w.fuseOf r = some b → w'.fuseOf r = some b)
    (hclock : w.clock ≤ w'.clock) : k.Sound w' c where
  call_id := h.call_id
  caller_none := h.caller_none
  stage := h.stage
  -- the caller has started, so its place and its births stay while it evolves
  caller p hp := by
    obtain ⟨kp, hkp, hstarted, hreq, hplace, hborn, hpopped⟩ := h.caller p hp
    obtain ⟨kp', hkp', he⟩ := hcalls p kp hkp
    obtain ⟨hstarted', hplace', hpopped'⟩ := he.started hstarted
    refine ⟨kp', hkp', hstarted', ?_, hplace'.trans hplace, ?_, ?_⟩
    · rw [he.task, hreq]
    · rwa [he.born]
    · rwa [hpopped']
  -- the root of its request is still one
  root := by
    obtain ⟨r, hr, hroot⟩ := h.root
    obtain ⟨r', hr', he⟩ := hcalls _ r hr
    exact ⟨r', hr', he.caller.trans hroot⟩
  fuse hp := by
    obtain ⟨r, hr, -⟩ := h.root
    exact hfuse _ _ (by rw [hr]; rfl) (h.fuse hp)
  home := h.home
  born_lt := h.born_lt.trans_le hclock
  popped_lt := h.popped_lt.trans_le hclock

/-- **One call changes.** It is enough to look at this call: its new view must be the
one its new entry says, and all the others must have been left alone. Every operation of
the scheduler is about one call and is proved to keep `Accounted` by this rule, or by
`advance` where the call has been made before. -/
theorem Accounted.change (h : Accounted P w) {k' : Call n}
    (hsame : ∀ c', c' ≠ c → SameFor c' w w')
    (hcall : w'.call c = some k') (hview : w'.view c = k'.view P)
    (hevolves : ∀ k, w.call c = some k → k.EvolvesTo k')
    (hsound : k'.Sound w' c)
    (hfuse : ∀ r b, (w.call r).isSome → w.fuseOf r = some b → w'.fuseOf r = some b)
    (hclock : w.clock ≤ w'.clock) (hc : c ∈ w'.uuids) (huuids : w.uuids ⊆ w'.uuids)
    (hcrashed : w'.crashed = w.crashed) : Accounted P w' where
  -- only the one call and its view have changed
  view c' := by
    by_cases hc' : c' = c
    · subst hc'
      rw [hcall, hview]
    · rw [(hsame c' hc').view, (hsame c' hc').call, h.view c']
  -- the other calls stay sound, though their callers may be the one that has changed
  sound c' k hk := by
    by_cases hc' : c' = c
    · subst hc'
      obtain rfl : k' = k := Option.some.inj (hcall.symm.trans hk)
      exact hsound
    · rw [(hsame c' hc').call] at hk
      refine (h.sound c' k hk).mono ?_ hfuse hclock
      intro p kp hkp
      by_cases hp : p = c
      · subst hp
        exact ⟨k', hcall, hevolves kp hkp⟩
      · exact ⟨kp, (hsame p hp).call.trans hkp, .refl kp⟩
  known c' k hk := by
    by_cases hc' : c' = c
    · subst hc'
      exact hc
    · rw [(hsame c' hc').call] at hk
      exact huuids (h.known c' k hk)
  alive := hcrashed.trans h.alive

/-- Nothing changes for any call: only clocks, statistics and loads do. -/
theorem Accounted.idle (h : Accounted P w) (hsame : ∀ c, SameFor c w w')
    (hfuse : ∀ r, w'.fuseOf r = w.fuseOf r) (hclock : w'.clock = w.clock)
    (huuids : w'.uuids = w.uuids) (hcrashed : w'.crashed = w.crashed) : Accounted P w' where
  view c := by rw [(hsame c).view, (hsame c).call, h.view c]
  sound c k hk := by
    rw [(hsame c).call] at hk
    refine (h.sound c k hk).mono ?_ (fun r b _ hb => (hfuse r).trans hb) hclock.ge
    exact fun p kp hkp => ⟨kp, (hsame p).call.trans hkp, .refl kp⟩
  known c k hk := by
    rw [(hsame c).call] at hk
    exact huuids ▸ h.known c k hk
  alive := hcrashed.trans h.alive

/-- **One call goes on**, from a place to the next stage. What connects it to others
stays as it was, so that only the stage itself is to be justified. -/
theorem Accounted.advance (h : Accounted P w) {k : Call n} (stage : Stage) (popped : ℕ)
    (hk : w.call c = some k) (hplaced : k.stage ≠ .placing)
    (hsame : ∀ c', c' ≠ c → SameFor c' w w')
    (hcall : w'.call c = some { k with stage, popped })
    (hview : w'.view c = { k with stage, popped }.view P)
    (hstage : { k with stage, popped }.StageSound)
    (hstarted : k.stage.hasStarted → stage.hasStarted ∧ popped = k.popped)
    (hpopped : popped < w'.clock)
    (hfuse : ∀ r, w'.fuseOf r = w.fuseOf r)
    (hclock : w.clock ≤ w'.clock) (huuids : w'.uuids = w.uuids)
    (hcrashed : w'.crashed = w.crashed) : Accounted P w' := by
  have hevolves : k.EvolvesTo { k with stage, popped } :=
    ⟨rfl, rfl, rfl, rfl, fun hs => ⟨(hstarted hs).1, rfl, (hstarted hs).2⟩⟩
  -- what is known of the call stays known
  have hmono : k.Sound w' c := by
    refine (h.sound c k hk).mono ?_ (fun r b _ hb => (hfuse r).trans hb) hclock
    intro p kp hkp
    by_cases hp : p = c
    · subst hp
      obtain rfl : k = kp := Option.some.inj (hk.symm.trans hkp)
      exact ⟨_, hcall, hevolves⟩
    · exact ⟨kp, (hsame p hp).call.trans hkp, .refl kp⟩
  -- the entry changes in its stage and the time it was popped, which no connection mentions
  refine h.change hsame hcall hview ?_ ?_ (fun r b _ hb => (hfuse r).trans hb) hclock ?_ ?_
    hcrashed
  · intro k₀ hk₀
    obtain rfl : k = k₀ := Option.some.inj (hk.symm.trans hk₀)
    exact hevolves
  · exact {
      call_id := hmono.call_id
      caller_none := hmono.caller_none
      stage := hstage
      caller := hmono.caller
      root := hmono.root
      fuse := fun _ => hmono.fuse hplaced
      home := fun _ => hmono.home hplaced
      born_lt := hmono.born_lt
      popped_lt := hpopped }
  · rw [huuids]
    exact h.known c k hk
  · rw [huuids]

theorem Accounted.view_of_call (h : Accounted P w) {k : Call n} (hk : w.call c = some k) :
    w.view c = k.view P := by
  rw [h.view c, hk]

theorem Accounted.core (h : Accounted P w) {k : Call n} (hk : w.call c = some k) (i : Fin n) :
    (w.core i).view c = k.coreView i :=
  congrFun (congrArg View.core (h.view_of_call hk)) i

/-- One core changes what it holds for a call. -/
theorem update_coreView {k k' : Call n} {i : Fin n} {v : CoreView n} (hi : v = k'.coreView i)
    (hj : ∀ j, j ≠ i → k.coreView j = k'.coreView j) :
    Function.update k.coreView i v = k'.coreView := by
  funext j
  by_cases h : j = i
  · subst h
    rw [Function.update_self, hi]
  · rw [Function.update_of_ne h, hj j h]

/-! ### `dispatch` -/

/-- The call at the front of the queue has arrived, and no fused workflow is running. -/
def Dispatchable (w : World n) (i : Fin n) : Prop :=
  ∃ c rest task, (w.core i).q = c :: rest ∧ (w.core i).task_map c = some task ∧
    (w.core i).curr_wf = ∅

/-- Where one of the three conditions fails, `dispatch` does nothing. -/
theorem dispatch_of_not {i : Fin n} (h : ¬Dispatchable w i) : w.dispatch i = w := by
  unfold World.dispatch
  split
  · rfl
  · next c rest hq =>
    split
    · rfl
    · next task ht =>
      rw [if_neg fun hwf => h ⟨c, rest, task, hq, ht, hwf⟩]

theorem dispatch_of_front {i : Fin n} {rest : List Uuid} {task : Task}
    (hq : (w.core i).q = c :: rest) (ht : (w.core i).task_map c = some task)
    (hwf : (w.core i).curr_wf = ∅) : w.dispatch i = w.popFront i c rest task := by
  simp [World.dispatch, hq, ht, hwf]

/-- What stands at the front of the queue with its task parked is a call that waits on
this core: the view of its id has a task, and of all stages only `waiting` has one in
`task_map`. -/
theorem Accounted.popFront (h : Accounted P w) {i : Fin n} {rest : List Uuid} {task : Task}
    (hq : (w.core i).q = c :: rest) (ht : (w.core i).task_map c = some task) :
    Accounted P (w.popFront i c rest task) := by
  have hparked : ((w.core i).view c).parked = some task := ht
  -- an id without a call has no task parked
  cases hk : w.call c with
  | none =>
    have hview := congrArg (fun v => (v.core i).parked) (h.view c)
    simp only [hk] at hview
    exact absurd (hparked.symm.trans hview) (by simp [View.empty])
  | some k =>
  obtain rfl := (h.sound c k hk).call_id
  rw [h.core hk i] at hparked
  -- a parked task belongs to a call that waits on this core
  obtain ⟨⟨rfl, hstage⟩, rfl⟩ : (i = k.place ∧ k.stage = .waiting) ∧ k.task = task := by
    simpa [Call.coreView] using hparked
  have hfused : k.fused = false := by simpa [Call.StageSound, hstage] using (h.sound _ k hk).stage
  -- what is popped mentions no other id
  have hsame : ∀ c', c' ≠ k.task.call_id →
      SameFor c' w (w.popFront k.place k.task.call_id rest k.task) := by
    intro c' hc'
    refine (SameFor.onCore ?_).trans (.record hc')
    simp [Core.view, hq, hc', Ne.symm hc']
  have hview : (w.popFront k.place k.task.call_id rest k.task).view k.task.call_id =
      { k with stage := .ready, popped := w.clock }.view P := by
    -- the id leaves the queue, and its task goes to the ready ones
    have hcore : Core.view { w.core k.place with
          tasks := k.task ::ₘ (w.core k.place).tasks
          task_map := Function.update (w.core k.place).task_map k.task.call_id none
          q := rest } k.task.call_id =
        { k.coreView k.place with
          tasks := k.task ::ₘ (k.coreView k.place).tasks
          parked := none
          queued := (k.coreView k.place).queued - 1 } := by
      rw [← h.core hk k.place]
      ext1
      case queued => simp [Core.view, hq]
      all_goals simp [Core.view]
    rw [World.popFront, view_record, view_onCore, h.view_of_call hk, hcore]
    · ext1
      case core =>
        refine update_coreView ?_ fun j hj => ?_
        all_goals ext1 <;> simp [Call.coreView, Call.inQueue, Call.originStates, *]
      all_goals simp [Call.view, Call.msgs, Call.events, Call.eventsToReady, hstage, hfused]
    · rfl
  exact h.advance .ready w.clock hk (by simp [hstage]) hsame
    ((w.onCore _ _).call_record_self rfl rfl hk (by simp [Call.after, hstage])) hview trivial
    (by simp [hstage]) (by simp [popFront]) (fun _ => rfl) (by simp [popFront]) rfl rfl

theorem Accounted.dispatch (h : Accounted P w) (i : Fin n) : Accounted P (w.dispatch i) := by
  by_cases hd : Dispatchable w i
  · obtain ⟨c, rest, task, hq, ht, hwf⟩ := hd
    rw [dispatch_of_front hq ht hwf]
    exact h.popFront hq ht
  · rwa [dispatch_of_not hd]

end Nanoservices
