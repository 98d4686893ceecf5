import Nanoservices.Services.PostRuns

/-!
# Who waits for whom

What the replies and counters of the workflow say about the calls behind them, in every
run: a function that has made the call it waits for replies only after that has been
handled, and a counter that has reached its goal has handled all it counts (`Awaits`).
`Phases` is what a call of `compose_post_service.js` knows, and `join_run` reads the run
as one of `composing`.
-/

namespace Nanoservices

open Utf16 Json Lts

namespace PostFlow

variable {q : PostRequest} {w x w' : PostFlow} {sc : PostScript} {l : PostLabel} {t : PostTask}
  {dbs₀ : DbMap} {ls : List PostLabel}

/-- Every run is in order. -/
theorem ordered (h : Run (postFlow q dbs₀) ls w) : w.Ordered := by
  refine h.invariant (I := fun _ w => w.Ordered) ?_ fun _ w _ w' _ ih hs => ih.step hs
  rintro w hinit
  obtain rfl : w = _ := hinit
  refine ⟨fun t ht => ?_, fun t ht => ?_, fun t ht => ?_, List.nodup_nil, fun t ht => ?_,
    fun u hu => ?_⟩
  · cases ht
  · cases ht
  · cases ht
  · by_cases hcompose : t = .compose
    · rw [hcompose]
      trivial
    · simp [start, hcompose] at ht
  · cases hu

/-! ### What a step adds -/

/-- A task that is called after a step was called before, or is with it: then the step
is the one that calls it, and it has not been called before. -/
theorem Ordered.arg_cases (ho : w.Ordered) (h : w.effect q l = some (x, sc))
    (ht : (((l.note w.calls).exec sc).arg t).isSome) :
    (w.calls.arg t).isSome ∨
      (calledBy t l ∧ w.calls.arg t = none ∧ ∃ a, (t, some a) ∈ sc.calls) := by
  obtain ⟨a, ha⟩ := Option.isSome_iff_exists.1 ht
  rcases Calls.State.arg_exec ha with hold | hnew
  · rw [note_arg] at hold
    exact .inl (by rw [hold]; rfl)
  · have hby := caller h hnew
    exact .inr ⟨hby, ho.not_called h hby, a, hnew⟩

/-- A step that calls the task a function waits for with its last call does not answer the
function. -/
theorem Ordered.not_thrown (ho : w.Ordered) (h : w.effect q l = some (x, sc))
    (before : List (PostTask × Option JsString)) {o : Option JsString} {t' : PostTask}
    (hsc : sc.calls = before ++ [(t, o)]) (hnot : t ∉ before.map Prod.fst)
    (hanswer : sc.answer = none) (hcalled : (((l.note w.calls).exec sc).arg t).isSome)
    (hreply : (((l.note w.calls).exec sc).reply t').isSome) : (w.calls.reply t').isSome := by
  have hnew : w.calls.arg t = none :=
    ho.not_called h (caller h (o := o) (by rw [hsc]; simp))
  have hcompletes : sc.Completes := Calls.State.completes_of_last hsc hnot
    (by rwa [note_arg]) hcalled
  obtain ⟨r, hr⟩ := Option.isSome_iff_exists.1 hreply
  -- an old reply; a regular one, which this script has none of; or an exception, which
  -- makes no last call
  rcases answers_of_reply hr with hold | ⟨-, ha⟩ | ⟨hthrows, -⟩
  · rw [hold]
    rfl
  · rw [hanswer] at ha
    cases ha
  · exact absurd hcompletes hthrows

/-- A function that runs now has not been replied to. -/
theorem Ordered.not_ran (ho : w.Ordered) {t : PostTask} (h : w.effect q (.run t) = some (x, sc)) :
    w.calls.reply t = none := by
  obtain ⟨-, -, hran, -⟩ := effect_run h
  by_contra hne
  rw [ho.ran t (Option.ne_none_iff_isSome.1 hne)] at hran
  cases hran

/-! ### The calls of `compose_post_service.js` -/

/-- A step of a call of `compose_post_service.js`. It leaves the other calls alone; what
the call still has to store becomes less; a call that has thrown does nothing more; and
one that reads the parts goes on reading, or throws, until it has read them all. -/
theorem exec_phase {q : Composes Unit} {w r : ComposeWorld Unit} {l : ComposeLabel Unit}
    {u : Upload} (h : w.exec q l = some r) (hu : l.call = some u) :
    (∀ v, v ≠ u → r.phase ((), v) = w.phase ((), v)) ∧
      (r.phase ((), u)).rest <:+ (w.phase ((), u)).rest ∧
      w.phase ((), u) ≠ .failed ∧
      ∀ values, w.phase ((), u) = .uploading values → values.length < readOrder.length ∧
        ((∃ values', r.phase ((), u) = .uploading values') ∨ r.phase ((), u) = .failed) := by
  have hs : (composing q w.dbs).step w l r := ComposeWorld.step_of_exec h
  -- the four accesses: a part, the counter twice, and the parts when it enters
  cases l with
  | put c part rand ok =>
    obtain ⟨⟨⟩, v⟩ := c
    obtain rfl := Option.some.inj hu
    obtain ⟨rest, dbs, hc, -, rfl⟩ := hs
    refine ⟨fun v' hv => by simp [hv], ?_, by simp [hc], by simp [hc]⟩
    rw [hc]
    simp [CallPhase.rest]
  | getCount c enters =>
    obtain ⟨⟨⟩, v⟩ := c
    obtain rfl := Option.some.inj hu
    obtain ⟨buf, hc, -, -, rfl⟩ := hs
    refine ⟨fun v' hv => by simp [hv], ?_, by simp [hc], by simp [hc]⟩
    rw [hc]
    rcases checkUploadPost buf with _ | _ | _ <;> simp [CallPhase.rest, CallPhase.ofCount]
  | setCount c rand ok =>
    obtain ⟨⟨⟩, v⟩ := c
    obtain rfl := Option.some.inj hu
    obtain ⟨content, version, dbs, hc, -, rfl⟩ := hs
    refine ⟨fun v' hv => by simp [hv], ?_, by simp [hc], by simp [hc]⟩
    rw [hc]
    cases ok <;> simp [CallPhase.rest]
  | getPart c part =>
    obtain ⟨⟨⟩, v⟩ := c
    obtain rfl := Option.some.inj hu
    obtain ⟨values, buf, hc, hpart, -, rfl⟩ := hs
    refine ⟨fun v' hv => by simp [hv], ?_, by simp [hc], ?_⟩
    · cases ab2str buf <;> simp [CallPhase.rest]
    · intro values' hvalues
      obtain rfl := CallPhase.uploading.inj (hc.symm.trans hvalues)
      refine ⟨(List.getElem?_eq_some_iff.1 hpart).1, ?_⟩
      cases hbuf : ab2str buf <;> simp
  | other => cases hu

/-- **What the calls know.**

* `suffix`, `idle`: a call has its parts still to store, all of them until it runs;
* `parts`: once it has moved, all its parts could be read from its argument, or it has
  thrown at once;
* `replied`: one that has been replied to while it reads the parts has entered
  `upload_post`;
* `poster`: who has entered has read all parts. -/
structure Phases (w : PostFlow) : Prop where
  suffix : ∀ u, (w.phase u).rest <:+ u.parts
  idle : ∀ u, w.calls.ran (.upload u) = false → w.phase u = .storing u.parts
  /-- Their arguments can be read. -/
  parts : ∀ u, w.calls.ran (.upload u) = true →
    (w.calls.reply (.upload u) = none ∨ w.phase u ≠ .storing u.parts) →
    ∀ part ∈ u.parts, (w.part part).isSome
  replied : ∀ u values, (w.calls.reply (.upload u)).isSome → w.phase u = .uploading values →
    w.poster = some u
  poster : ∀ u, w.poster = some u →
    ∃ values, w.phase u = .uploading values ∧ values.length = readOrder.length

/-- A step leaves the calls of the compose join alone, or is a step of one of them. -/
theorem effect_phase (h : w.effect q l = some (x, sc)) :
    x.phase = w.phase ∨ ∃ l' u r, l = .join l' ∧ l'.call = some u ∧
      ComposeWorld.exec (w.composes q) ⟨w.dbs, fun c => w.phase c.2⟩ l' = some r ∧
      w.active (.upload u) = true ∧ (x.phase = fun v => r.phase ((), v)) ∧
      sc = (r.phase ((), u)).script u := by
  obtain ⟨hsame | ⟨l', rfl⟩, -⟩ := effect_frame h
  · exact .inl hsame
  · obtain ⟨u, r, hu, hr, hactive, rfl, rfl⟩ := effect_join h
    exact .inr ⟨l', u, r, rfl, hu, hr, hactive, rfl, rfl⟩

/-- A part that has been brought stays as it is. -/
theorem Ordered.part_of_some (ho : w.Ordered) (h : w.effect q l = some (x, sc)) {part : Part}
    {v : JsString} (hpart : w.part part = some v) :
    ({ x with calls := (l.note w.calls).exec sc } : PostFlow).part part = some v := by
  obtain ⟨args, hargs, hvalue⟩ := Option.bind_eq_some_iff.1 hpart
  exact Option.bind_eq_some_iff.2 ⟨args, ho.arg_of_some h hargs, hvalue⟩

/-- A reply that is not there after a step was not there before. -/
theorem reply_none_of_step (h : ((l.note w.calls).exec sc).reply t = none) :
    w.calls.reply t = none := by
  by_contra hne
  have hsome : ((l.note w.calls).reply t).isSome := by
    rw [note_reply]
    exact Option.ne_none_iff_isSome.1 hne
  have hafter : (((l.note w.calls).exec sc).reply t).isSome := Calls.State.isSome_reply_exec hsome
  rw [h] at hafter
  cases hafter

namespace Phases

variable (hp : w.Phases) (ho : w.Ordered) (h : w.effect q l = some (x, sc))

include hp h

/-- `suffix` after a step. -/
theorem suffix_step (u : Upload) : (x.phase u).rest <:+ u.parts := by
  rcases effect_phase h with hsame | ⟨l', v, r, -, hv, hr, -, hx, -⟩
  · rw [hsame]
    exact hp.suffix u
  · obtain ⟨hother, hrest, -⟩ := exec_phase hr hv
    rw [hx]
    by_cases huv : u = v
    · subst huv
      exact hrest.trans (hp.suffix u)
    · show (r.phase ((), u)).rest <:+ u.parts
      rw [hother u huv]
      exact hp.suffix u

/-- `idle` after a step: only a call that has run moves. -/
theorem idle_step {u : Upload} (hran : ((l.note w.calls).exec sc).ran (.upload u) = false) :
    x.phase u = .storing u.parts := by
  rw [Calls.State.exec_ran] at hran
  have hran' : w.calls.ran (.upload u) = false := by
    by_contra hne
    rw [(note_ran _ _ _).2 (.inl (Bool.eq_true_of_not_eq_false hne))] at hran
    cases hran
  -- the phase of `u` changes by a step of `u` itself only
  rcases effect_phase h with hsame | ⟨l', v, r, -, hv, hr, hactive, hx, -⟩
  · rw [hsame]
    exact hp.idle u hran'
  · -- only a call that runs makes a step
    have huv : u ≠ v := by
      rintro rfl
      rw [(active_iff.1 hactive).1] at hran'
      cases hran'
    rw [hx]
    exact ((exec_phase hr hv).1 u huv).trans (hp.idle u hran')

include ho in
/-- `parts` after a step. A call that runs now has not moved, so either it has thrown or
its parts could be read. -/
theorem parts_step {u : Upload} (hran : ((l.note w.calls).exec sc).ran (.upload u) = true)
    (hor : ((l.note w.calls).exec sc).reply (.upload u) = none ∨ x.phase u ≠ .storing u.parts)
    {part : Part} (hpart : part ∈ u.parts) :
    (({ x with calls := (l.note w.calls).exec sc } : PostFlow).part part).isSome := by
  have hkeep : (w.part part).isSome →
      (({ x with calls := (l.note w.calls).exec sc } : PostFlow).part part).isSome := by
    intro hsome
    obtain ⟨v, hv⟩ := Option.isSome_iff_exists.1 hsome
    rw [ho.part_of_some h hv]
    rfl
  rw [Calls.State.exec_ran, note_ran] at hran
  -- the call had run before, or runs in this step
  rcases hran with hran | rfl
  · refine hkeep (hp.parts u hran ?_ part hpart)
    rcases hor with hnone | hne
    · exact .inl (reply_none_of_step hnone)
    · rcases effect_phase h with hsame | ⟨l', v, r, -, hv, hr, hactive, hx, -⟩
      · exact .inr (by rwa [hsame] at hne)
      -- the step is one of this call, which has not replied, or of another one
      · by_cases huv : u = v
        · subst huv
          exact .inl (active_iff.1 hactive).2
        · have hsame : r.phase ((), u) = w.phase u := (exec_phase hr hv).1 u huv
          rw [hx] at hne
          exact .inr fun heq => hne (hsame.trans heq)
  · -- the call runs now: it has not moved, so it has not thrown
    obtain ⟨args, hargs, hran, rfl, rfl⟩ := effect_run h
    have hidle := hp.idle u hran
    have hnone := hor.resolve_right fun hne => hne hidle
    have hall : ∀ part ∈ u.parts, (uploadValue u args part).isSome := by
      by_contra hthrows
      simp [PostRequest.body, hthrows, throwing, Calls.State.exec, Calls.State.perform] at hnone
    obtain rfl : u = part.owner := mem_parts.1 hpart
    apply hkeep
    rw [PostFlow.part, hargs]
    exact hall part hpart

/-- `replied` after a step: a call in `upload_post` is answered by `upload_post` itself,
or by the counter of its three calls. While it still reads it does not reply. -/
theorem replied_step {u : Upload} {values : List Str}
    (hreply : (((l.note w.calls).exec sc).reply (.upload u)).isSome)
    (hvalues : x.phase u = .uploading values) : x.poster = some u := by
  have hposter : w.poster = some u → x.poster = some u := by
    intro hu
    rcases effect_poster h with hsame | ⟨v, -, hnone, -⟩
    · rw [hsame, hu]
    · rw [hnone] at hu
      cases hu
  -- the calls are where they were, and a reply is the poster's; or one of them moves
  rcases effect_phase h with hsame | ⟨l', v, r, rfl, hv, hr, hactive, hx, hsc⟩
  · rw [hsame] at hvalues
    rcases reply_or_answers hreply with hold | ha
    · exact hposter (hp.replied u values hold hvalues)
    · rcases answerer h ha with rfl | ⟨l', hl', rfl⟩ | rfl | ⟨t, hc, rfl⟩
      · -- a call that has not run yet has read nothing
        obtain ⟨-, -, hran, -⟩ := effect_run h
        rw [hp.idle u hran] at hvalues
        cases hvalues
      · -- a call that goes on reading does not reply
        obtain ⟨v, r, hv, hr, -, rfl, rfl⟩ := effect_join h
        obtain rfl := Option.some.inj (hv.symm.trans hl')
        have hsame' : r.phase ((), v) = .uploading values := (congrFun hsame v).trans hvalues
        rw [hsame'] at ha
        exact absurd ha answers_nil
      · obtain ⟨-, -, -, -, -, rfl, -⟩ := effect_post h
        rfl
      · exact hposter (answers_handle h hc ha).1
  · rw [hx] at hvalues
    by_cases huv : u = v
    · subst huv
      have hnot : ¬Answers sc (.upload u) := by
        have hvalues' : r.phase ((), u) = .uploading values := hvalues
        rw [hsc, hvalues']
        exact answers_nil
      have hold := (reply_or_answers hreply).resolve_right hnot
      rw [(active_iff.1 hactive).2] at hold
      cases hold
    · have hold := (reply_or_answers hreply).resolve_right
        fun ha => huv (PostTask.upload.inj (answers_script (hsc ▸ ha)))
      exact hposter (hp.replied u values hold (((exec_phase hr hv).1 u huv).symm.trans hvalues))

/-- `poster` after a step. -/
theorem poster_step {u : Upload} (hu : x.poster = some u) :
    ∃ values, x.phase u = .uploading values ∧ values.length = readOrder.length := by
  -- the call that posted has read all parts, and nothing changes that
  rcases effect_poster h with hsame | ⟨v, rfl, -, -, hv⟩
  · obtain ⟨values, hvalues, hlen⟩ := hp.poster u (hsame.symm.trans hu)
    rcases effect_phase h with hsame' | ⟨l', v, r, -, hv, hr, -, hx, -⟩
    · exact ⟨values, by rw [hsame', hvalues], hlen⟩
    · obtain ⟨hother, -, -, hread⟩ := exec_phase hr hv
      by_cases huv : u = v
      · -- it has nothing left to read
        subst huv
        exact absurd hlen (hread values hvalues).1.ne
      · exact ⟨values, by rw [hx]; exact (hother u huv).trans hvalues, hlen⟩
  · obtain rfl := Option.some.inj (hv.symm.trans hu)
    obtain ⟨values, hvalues, -, -, hlen, rfl, -⟩ := effect_post h
    exact ⟨values, hvalues, hlen⟩

end Phases

/-- The five parts together. -/
theorem Phases.step (hp : w.Phases) (ho : w.Ordered) (hs : w.exec q l = some w') :
    w'.Phases := by
  obtain ⟨x, sc, h, rfl⟩ := exec_eq_some.1 hs
  exact ⟨fun u => hp.suffix_step h u, fun u hran => hp.idle_step h hran,
    fun u hran hor part hpart => hp.parts_step ho h hran hor hpart,
    fun u values hreply hvalues => hp.replied_step h hreply hvalues,
    fun u hu => hp.poster_step h hu⟩

/-- So it is along every run. -/
theorem phases (h : Run (postFlow q dbs₀) ls w) : w.Phases := by
  refine h.invariant (I := fun _ w => w.Phases) ?_ fun _ w _ w' hr ih hs => ih.step (ordered hr) hs
  rintro w hinit
  obtain rfl : w = _ := hinit
  refine ⟨fun u => List.suffix_refl _, fun u _ => rfl, fun u hran => ?_, fun u values hreply => ?_,
    fun u hu => ?_⟩
  · cases hran
  · cases hreply
  · cases hu

end PostFlow

/-! ### The databases -/

/-- The database that a step may write. -/
def PostLabel.writes : PostLabel → Option String
  | .join _ => some composeDb
  | .store _ _ => some "post_storage.js"
  | .timeline _ => some "user_timeline_service.js"
  | _ => none

/-- The steps of the calls of `compose_post_service.js`. -/
def joinLabels (ls : List PostLabel) : List (ComposeLabel Unit) :=
  ls.filterMap fun
    | .join l => some l
    | _ => none

/-- The steps of the calls of `write_user_timeline`. -/
def writeLabels (ls : List PostLabel) : List (RetryLabel ℕ) :=
  ls.filterMap fun
    | .timeline l => some l
    | _ => none

/-- Another database is as it was. -/
theorem Elsewhere.eq {name : String} {dbs dbs' : DbMap} (h : Elsewhere name dbs dbs') :
    dbs' name = dbs name := by
  rcases h with rfl | ⟨name', key, content, version, rand, ok, hne, hset⟩
  · rfl
  · simp only [dbSet, Option.bind_eq_bind, Option.bind_eq_some_iff] at hset
    obtain ⟨db, -, ⟨ok', db'⟩, -, hdbs⟩ := hset
    obtain rfl := (Prod.mk.inj (Option.some.inj hdbs)).2
    exact Function.update_of_ne (Ne.symm hne) _ _

namespace PostFlow

variable {q : PostRequest} {w x w' : PostFlow} {sc : PostScript} {l : PostLabel} {t : PostTask}
  {dbs₀ : DbMap} {ls : List PostLabel}

/-- A call of `write_user_timeline` is a single loop. -/
theorem loops_cases {i j : ℕ} {l : Loop Post} (h : (w.loops q i)[j]? = some l) :
    j = 0 ∧ ∃ user_id post,
      l = ⟨"user_timeline_service.js", keyOf q.platform user_id, pushSorted comp post⟩ := by
  unfold loops at h
  cases hargs : (w.calls.arg (.writeUserTimeline i)).bind fun args =>
      timelineWrite q.platform args.1 with
  | none =>
    rw [hargs] at h
    cases h
  | some loops =>
    rw [hargs] at h
    obtain ⟨args, -, hwrite⟩ := Option.bind_eq_some_iff.1 hargs
    simp only [timelineWrite, Option.bind_eq_bind, Option.bind_eq_some_iff] at hwrite
    obtain ⟨user_id, -, -, -, -, -, post, -, hloops⟩ := hwrite
    obtain rfl := Option.some.inj hloops
    -- the function has one loop, so no other index is left
    match j with
    | 0 =>
      cases h
      exact ⟨rfl, user_id, post, rfl⟩
    | _ + 1 => cases h

/-- The loops stay, as the calls do. -/
theorem Ordered.loops_step (ho : w.Ordered) (h : w.effect q l = some (x, sc)) {i j : ℕ}
    {loop : Loop Post} (hloop : (w.loops q i)[j]? = some loop) :
    (({ x with calls := (l.note w.calls).exec sc } : PostFlow).loops q i)[j]? = some loop := by
  unfold loops at hloop ⊢
  -- arguments do not change, so neither do the loops
  cases hargs : w.calls.arg (.writeUserTimeline i) with
  | none =>
    rw [hargs] at hloop
    cases hloop
  | some args =>
    rw [hargs] at hloop
    rw [show ({ x with calls := (l.note w.calls).exec sc } : PostFlow).calls.arg
      (.writeUserTimeline i) = some args from ho.arg_of_some h hargs]
    exact hloop

/-- A step writes the database it may write, and no other. -/
theorem effect_elsewhere {name : String} (h : w.effect q l = some (x, sc))
    (hne : l.writes ≠ some name) : Elsewhere name w.dbs x.dbs := by
  -- the steps that write are the two of the compose join, `store_post` and
  -- `write_user_timeline`
  cases l with
  | run t =>
    obtain ⟨-, -, -, rfl, -⟩ := effect_run h
    exact .inl rfl
  | lookup =>
    obtain ⟨-, -, -, -, -, -, -, ⟨-, -, rfl, -⟩ | ⟨rfl, -⟩⟩ := effect_lookup h
    · exact .inl rfl
    · exact .inl rfl
  | mentions =>
    obtain ⟨-, -, -, -, -, rfl, -⟩ := effect_mentions h
    exact .inl rfl
  | join l =>
    obtain ⟨u, r, hu, hr, -, rfl, -⟩ := effect_join h
    have hname : composeDb ≠ name := fun heq => hne (congrArg some heq)
    have hs : (composing (w.composes q) w.dbs).step ⟨w.dbs, fun c => w.phase c.2⟩ l r :=
      ComposeWorld.step_of_exec hr
    cases l with
    | put c part rand ok =>
      obtain ⟨rest, dbs, -, hset, rfl⟩ := hs
      exact elsewhere_of_dbSet hset hname
    | getCount c enters =>
      obtain ⟨buf, -, -, -, rfl⟩ := hs
      exact .inl rfl
    | setCount c rand ok =>
      obtain ⟨content, version, dbs, -, hset, rfl⟩ := hs
      exact elsewhere_of_dbSet hset hname
    | getPart c part =>
      obtain ⟨values, buf, -, -, -, rfl⟩ := hs
      exact .inl rfl
    | other => cases hu
  | post u =>
    obtain ⟨-, -, -, -, -, rfl, -⟩ := effect_post h
    exact .inl rfl
  | store rand ok =>
    obtain ⟨args, post_id, dbs, -, -, hset, -, rfl, -⟩ := effect_store h
    exact elsewhere_of_dbSet hset fun heq => hne (congrArg some heq)
  | followers =>
    obtain ⟨-, rfl, -⟩ := effect_followers h
    exact .inl rfl
  | timeline l =>
    obtain ⟨i, r, hi, hr, -, rfl, -⟩ := effect_timeline h
    have hs : (retryLoops (w.loops q) w.dbs).step ⟨w.dbs, w.write⟩ l r :=
      RetryWorld.step_of_exec hr
    refine elsewhere_of_step hs (by rw [hi]; rfl) (fun c j loop hloop => ?_)
      fun heq => hne (congrArg some heq)
    obtain ⟨-, user_id, post, rfl⟩ := loops_cases hloop
    rfl
  | handle t =>
    obtain ⟨-, -, -, -, rfl⟩ := effect_handle h
    exact .inl rfl

/-- A step of `compose_post_service.js` depends on the part it stores only. -/
theorem exec_congr {value value' : Part → JsString} {w : ComposeWorld Unit} {l : ComposeLabel Unit}
    {u : Upload} (hu : l.call = some u)
    (hvalue : ∀ part ∈ (w.phase ((), u)).rest, value part = value' part) :
    w.exec (q.composes value) l = w.exec (q.composes value') l := by
  -- only a `DBSet` of a part looks at the values, and at one part that is still to be
  -- written
  cases l with
  | put c part rand ok =>
    obtain ⟨⟨⟩, v⟩ := c
    obtain rfl := Option.some.inj hu
    simp only [ComposeWorld.exec]
    cases hc : w.phase ((), v) with
    | storing rest =>
      cases rest with
      | nil => rfl
      | cons part' rest =>
        by_cases hpart : part' = part
        · subst hpart
          have heq : (q.composes value).value () part' = (q.composes value').value () part' :=
            hvalue part' (by rw [hc]; exact List.mem_cons_self)
          simp only [heq]
          rfl
        · simp [hpart]
    | _ => rfl
  | getCount | setCount | getPart => rfl
  | other => cases hu

/-- **The calls of `compose_post_service.js`** in a run are a run of the compose join:
the steps of the others, which may come in between, are steps of the rest of the world
there. `value` has the parts that the calls have brought; a part that has not been
brought does not matter, since it is not stored either. The counter sees the same
events. -/
theorem join_run (h : Run (postFlow q dbs₀) ls w) {value : Part → JsString}
    (hvalue : ∀ part v, w.part part = some v → value part = v) :
    ∃ ls', Run (composing (q.composes value) dbs₀) ls' ⟨w.dbs, fun c => w.phase c.2⟩ ∧
      countEvents () ls' = countEvents () (joinLabels ls) := by
  -- step by step: one of the join's own, or one that leaves its database alone
  induction h with
  | init h0 =>
    obtain rfl : _ = _ := h0
    exact ⟨[], .init rfl, rfl⟩
  | @step ls w w' l hr hs ih =>
    obtain ⟨x, sc, h, rfl⟩ := exec_eq_some.1 hs
    have ho := ordered hr
    obtain ⟨ls', hrun, hevents⟩ := ih fun part v hpart => hvalue part v (ho.part_of_some h hpart)
    by_cases hjoin : ∃ l', l = .join l'
    · -- one of its own steps
      obtain ⟨l', rfl⟩ := hjoin
      obtain ⟨u, r, hu, hexec, hactive, rfl, rfl⟩ := effect_join h
      obtain ⟨hran, hnone⟩ := active_iff.1 hactive
      have hp := phases hr
      -- the part it stores is one of its own
      have hsame : ∀ part ∈ (w.phase u).rest,
          value part = (w.part part).getD ⟨[], Nat.zero_le _⟩ := by
        intro part hpart
        obtain ⟨v, hv⟩ := Option.isSome_iff_exists.1
          (hp.parts u hran (.inl hnone) part ((hp.suffix u).subset hpart))
        rw [hv, Option.getD_some]
        exact hvalue part v (ho.part_of_some h hv)
      have hstep : (composing (q.composes value) dbs₀).step ⟨w.dbs, fun c => w.phase c.2⟩ l' r := by
        apply ComposeWorld.step_of_exec
        rw [← hexec]
        exact exec_congr hu hsame
      refine ⟨ls' ++ [l'], hrun.step hstep, ?_⟩
      rw [countEvents_append, hevents, ← countEvents_append]
      simp [joinLabels]
    · -- a step of the others: at most a `DBSet` of another database
      have hphase : x.phase = w.phase := (effect_frame h).1.resolve_right hjoin
      have hlabels : joinLabels (ls ++ [l]) = joinLabels ls := by
        cases l with
        | join l => exact absurd ⟨l, rfl⟩ hjoin
        | _ => simp [joinLabels]
      have hwrites : l.writes ≠ some composeDb := by
        cases l with
        | join l => exact absurd ⟨l, rfl⟩ hjoin
        | store | timeline => simp [PostLabel.writes, composeDb]
        | _ => simp [PostLabel.writes]
      rw [hlabels, hphase]
      obtain hdbs | ⟨name, key, content, version, rand, ok, hne, hset⟩ :=
        effect_elsewhere h hwrites
      · exact ⟨ls', hdbs ▸ hrun, hevents⟩
      · have hstep : (composing (q.composes value) dbs₀).step ⟨w.dbs, fun c => w.phase c.2⟩
            (.other name key content version rand ok) ⟨x.dbs, fun c => w.phase c.2⟩ :=
          ⟨x.dbs, hne, hset, rfl⟩
        refine ⟨ls' ++ [.other name key content version rand ok], hrun.step hstep, ?_⟩
        rw [countEvents_append, hevents]
        exact List.append_nil _

/-- **The loops of `write_user_timeline`** in a run are part of a run of retry loops. A
loop comes into being when its call is made, and stays. -/
theorem write_run (h : Run (postFlow q dbs₀) ls w) :
    PartOf (w.loops q) "user_timeline_service.js" dbs₀ (writeLabels ls) ⟨w.dbs, w.write⟩ := by
  induction h with
  | init h0 =>
    obtain rfl : _ = _ := h0
    exact .initial
  | @step ls w w' l hr hs ih =>
    obtain ⟨x, sc, h, rfl⟩ := exec_eq_some.1 hs
    have hle : ∀ (i j : ℕ) (loop : Loop Post), (w.loops q i)[j]? = some loop →
        (({ x with calls := (l.note w.calls).exec sc } : PostFlow).loops q i)[j]? = some loop :=
      fun i j loop hloop => (ordered hr).loops_step h hloop
    have ih' := ih.of_le hle
    -- the loops of `write_user_timeline` step by themselves; the others leave their
    -- database alone
    by_cases htimeline : ∃ l', l = .timeline l'
    · -- one of their own steps
      obtain ⟨l', rfl⟩ := htimeline
      obtain ⟨i, r, hi, hexec, -, rfl, rfl⟩ := effect_timeline h
      have hstep : (retryLoops (w.loops q) dbs₀).step ⟨w.dbs, w.write⟩ l' r :=
        RetryWorld.step_of_exec hexec
      have hlabels : writeLabels (ls ++ [.timeline l']) = writeLabels ls ++ [l'] := by
        simp [writeLabels]
      rw [hlabels]
      exact ih'.step (by rw [hi]; rfl) (step_of_le hle hstep)
    · -- a step of the others: at most a `DBSet` of another database
      have hwrite : x.write = w.write := (effect_frame h).2.2.2.2.resolve_right htimeline
      have hlabels : writeLabels (ls ++ [l]) = writeLabels ls := by
        cases l with
        | timeline l => exact absurd ⟨l, rfl⟩ htimeline
        | _ => simp [writeLabels]
      have hwrites : l.writes ≠ some "user_timeline_service.js" := by
        cases l with
        | timeline l => exact absurd ⟨l, rfl⟩ htimeline
        | join | store => simp [PostLabel.writes, composeDb]
        | _ => simp [PostLabel.writes]
      have hdbs : Elsewhere "user_timeline_service.js" w.dbs x.dbs := effect_elsewhere h hwrites
      rw [hlabels, hwrite]
      exact ih'.elsewhere hdbs

/-! ### Counters -/

/-- **What a reply says.** What a function that has made the call it waits for knows
when it has replied, and what the counters count.

* `relay`, `text`: a service has replied after the call of `compose_post_service.js` it
  made;
* `home`: `write_home_timeline` has replied after as many calls as `all` has items;
* `post`: the call that entered `upload_post` has been replied to after its three calls;
* `compose`: an acknowledgement comes after four replies;
* `count`: a counter counts the replies of its tasks that have been handled;
* `all`, `write`: the followers are known once they have been handled, and the calls of
  `write_user_timeline` are for them. -/
structure Awaits (w : PostFlow) : Prop where
  relay : ∀ u ∈ [Upload.media, .creator, .uniqueId], (w.calls.arg (.upload u)).isSome →
    (w.calls.reply (.service u)).isSome → .upload u ∈ w.calls.handled
  text : (w.calls.arg (.service .urls)).isSome → (w.calls.reply (.service .text)).isSome →
    .upload .text ∈ w.calls.handled
  home : (w.calls.arg .getFollowers).isSome → (w.calls.reply .writeHomeTimeline).isSome →
    ∃ all, w.all = some all ∧ all.length ≤ w.count .writeHomeTimeline
  post : ∀ u, w.poster = some u → (w.calls.arg .writeHomeTimeline).isSome →
    (w.calls.reply (.upload u)).isSome → 3 ≤ w.count .uploadPost
  compose : ∀ text, w.calls.reply .compose = some text → statusOf text = some 200 →
    4 ≤ w.count .compose
  count : ∀ c, w.count c = w.calls.handled.countP fun t => t.counter = some c
  all : w.all.isSome → .getFollowers ∈ w.calls.handled
  write : ∀ i, (w.calls.arg (.writeUserTimeline (i + 1))).isSome →
    ∃ all, w.all = some all ∧ i < all.length

/-- No counter goes down. -/
theorem count_le (h : w.effect q l = some (x, sc)) (c : Counter) : w.count c ≤ x.count c := by
  obtain ⟨-, ⟨hsame, -⟩ | ⟨t, rfl⟩, -⟩ := effect_frame h
  · rw [hsame]
  · obtain ⟨-, -, -, -, rfl⟩ := effect_handle h
    show w.count c ≤ t.counter.elim w.count (fun c => Function.update w.count c (w.count c + 1)) c
    cases t.counter with
    | none => exact le_rfl
    | some c' =>
      by_cases hc : c = c'
      · subst hc
        simp
      · simp [hc]

/-- The counter of a reply that is handled. -/
theorem count_handle {c : Counter} (h : w.effect q (.handle t) = some (x, sc))
    (hc : t.counter = some c) : x.count c = w.count c + 1 := by
  obtain ⟨-, -, -, -, rfl⟩ := effect_handle h
  simp [hc]

namespace Awaits

variable (ha : w.Awaits) (ho : w.Ordered) (h : w.effect q l = some (x, sc))

include ha ho h

omit ho in
/-- `all` stays. -/
theorem all_of_some {all : List Str} (hall : w.all = some all) : x.all = some all := by
  obtain ⟨-, ⟨-, hsame⟩ | ⟨t, rfl⟩, -⟩ := effect_frame h
  · rw [hsame, hall]
  · obtain ⟨result, -, -, hnot, rfl⟩ := effect_handle h
    have ht : t ≠ .getFollowers := by
      rintro rfl
      exact hnot (ha.all (by rw [hall]; rfl))
    show (if t = .getFollowers then w.recipients result else w.all) = some all
    rw [if_neg ht, hall]

/-- `relay` after a step. The service makes its call with its first step and answers
only when it is handled, or before it has made the call. -/
theorem relay_step {u : Upload} (hu : u ∈ [Upload.media, .creator, .uniqueId])
    (hcalled : (((l.note w.calls).exec sc).arg (.upload u)).isSome)
    (hreply : (((l.note w.calls).exec sc).reply (.service u)).isSome) :
    .upload u ∈ (l.note w.calls).handled := by
  have hby : ∀ l, calledBy (.upload u) l → l = .run (.service u) := by
    intro l hl
    simp only [List.mem_cons, List.not_mem_nil, or_false] at hu
    rcases hu with rfl | rfl | rfl <;> exact hl
  rw [note_handled]
  -- it had replied before, throws in its own run, or replies with what it was sent
  rcases (reply_or_answers hreply).imp_right (answerer h) with hold | rfl | rfl | ⟨rfl, -⟩
  · rcases ho.arg_cases h hcalled with hcalled | ⟨hl, -⟩
    · exact .inl (ha.relay u hu hcalled hold)
    · -- a service that only calls now has not replied
      obtain rfl := hby l hl
      rw [ho.not_ran h] at hold
      cases hold
  · -- it cannot have called and thrown
    obtain ⟨args, -, -, -, rfl⟩ := effect_run h
    have hsc : ∃ o, q.body args (.service u) = Nanoservices.relay u o := by
      simp only [List.mem_cons, List.not_mem_nil, or_false] at hu
      rcases hu with rfl | rfl | rfl <;> exact ⟨_, rfl⟩
    obtain ⟨o, ho'⟩ := hsc
    have hold := ho.not_thrown h [] (by rw [ho']; rfl) (by simp) (by rw [ho']; rfl)
      hcalled hreply
    rw [ho.not_ran h] at hold
    cases hold
  · exact .inr rfl
  · simp at hu

/-- `text` after a step. The last of the calls that `upload_text` makes is that of the
URLs. -/
theorem text_step (hcalled : (((l.note w.calls).exec sc).arg (.service .urls)).isSome)
    (hreply : (((l.note w.calls).exec sc).reply (.service .text)).isSome) :
    .upload .text ∈ (l.note w.calls).handled := by
  rw [note_handled]
  -- as for the relays: an old reply, an exception of the function itself, or the
  -- forwarded reply
  rcases (reply_or_answers hreply).imp_right (answerer h) with hold | rfl | rfl | ⟨hu, -⟩
  · rcases ho.arg_cases h hcalled with hcalled | ⟨hl, -⟩
    · exact .inl (ha.text hcalled hold)
    · obtain rfl : l = .run (.service .text) := hl
      rw [ho.not_ran h] at hold
      cases hold
  · obtain ⟨args, -, -, -, rfl⟩ := effect_run h
    have hold := ho.not_thrown h
      [(.service .userMentions, stringifyJs (matchValue (matchAll mentionLength args.1)))]
      rfl (by simp) rfl hcalled hreply
    rw [ho.not_ran h] at hold
    cases hold
  · exact .inr rfl
  · cases hu

/-- `home` after a step: the answer comes when the counter has reached the number of
`all`. -/
theorem home_step (hcalled : (((l.note w.calls).exec sc).arg .getFollowers).isSome)
    (hreply : (((l.note w.calls).exec sc).reply .writeHomeTimeline).isSome) :
    ∃ all, x.all = some all ∧ all.length ≤ x.count .writeHomeTimeline := by
  -- an old reply, an exception, or the reply sent when the last call has come back
  rcases (reply_or_answers hreply).imp_right fun ha => And.intro ha (answerer h ha) with
    hold | ⟨hanswers, rfl | ⟨i, rfl⟩⟩
  · rcases ho.arg_cases h hcalled with hcalled | ⟨hl, -⟩
    · obtain ⟨all, hall, hle⟩ := ha.home hcalled hold
      exact ⟨all, ha.all_of_some h hall, hle.trans (count_le h _)⟩
    · obtain rfl : l = .run .writeHomeTimeline := hl
      rw [ho.not_ran h] at hold
      cases hold
  · obtain ⟨args, -, -, -, rfl⟩ := effect_run h
    have hold := ho.not_thrown h [] rfl (by simp) rfl hcalled hreply
    rw [ho.not_ran h] at hold
    cases hold
  · -- the reply of the last call
    have hcount := count_handle h (c := .writeHomeTimeline) rfl
    obtain ⟨result, -, hreaction, -, -⟩ := effect_handle h
    obtain rfl : sc = _ := (Option.some.inj hreaction).symm
    obtain ⟨hgoal, -⟩ := answers_tally hanswers
    obtain ⟨all, hall, hlen⟩ := Option.map_eq_some_iff.1 hgoal.symm
    exact ⟨all, ha.all_of_some h hall, by rw [hcount, hlen]⟩

/-- `post` after a step. Once `write_home_timeline` has been called, the third of the
calls, `upload_post` has not thrown; so it is answered when its counter has reached
3. -/
theorem post_step (hp : w.Phases) {u : Upload} (hu : x.poster = some u)
    (hcalled : (((l.note w.calls).exec sc).arg .writeHomeTimeline).isSome)
    (hreply : (((l.note w.calls).exec sc).reply (.upload u)).isSome) :
    3 ≤ x.count .uploadPost := by
  have hor := (reply_or_answers hreply).imp_right fun ha => And.intro ha (answerer h ha)
  -- the poster has entered before this step, or enters in it
  rcases effect_poster h with hsame | ⟨v, rfl, -, hactive, hv⟩
  · -- a call that is in `upload_post` already: only the last of its three calls lets it reply
    have hposter : w.poster = some u := hsame.symm.trans hu
    rcases hor with hold | ⟨hanswers, rfl | ⟨l', hl', rfl⟩ | rfl | ⟨t, hc, rfl⟩⟩
    · rcases ho.arg_cases h hcalled with hcalled | ⟨⟨v, rfl⟩, -⟩
      · exact (ha.post u hposter hcalled hold).trans (count_le h _)
      · obtain ⟨-, -, -, hnone, -⟩ := effect_post h
        rw [hnone] at hposter
        cases hposter
    · obtain ⟨-, -, hran, -⟩ := effect_run h
      rw [ho.poster u hposter] at hran
      cases hran
    · -- a call that is in `upload_post` has read all parts
      obtain ⟨values, hvalues, hlen⟩ := hp.poster u hposter
      obtain ⟨v, r, hv, hexec, -⟩ := effect_join h
      obtain rfl := Option.some.inj (hv.symm.trans hl')
      exact absurd hlen ((exec_phase hexec hv).2.2.2 values hvalues).1.ne
    · obtain ⟨-, -, -, hnone, -⟩ := effect_post h
      rw [hnone] at hposter
      cases hposter
    · obtain ⟨-, hthree⟩ := answers_handle h hc hanswers
      rw [count_handle h hc, hthree]
  · -- a call that makes them now does not reply
    obtain rfl := Option.some.inj (hv.symm.trans hu)
    obtain ⟨values, -, -, -, hlen, -, rfl⟩ := effect_post h
    have hnone := (active_iff.1 hactive).2
    have hold : (w.calls.reply (.upload v)).isSome := by
      match values with
      | [text, post_id, post_type, creator, user_mentions, media, urls] =>
        exact ho.not_thrown h [_, _] rfl (by simp) rfl hcalled hreply
    rw [hnone] at hold
    cases hold

omit ha ho h in
/-- By itself `compose` only answers that it threw. -/
theorem compose_answers {args : JsString} {r : Str}
    (h : (q.body args .compose).answer = some (t, r) ∨
      (q.body args .compose).thrown = some (t, r)) : r = replyError := by
  simp only [PostRequest.body, PostRequest.compose] at h
  -- the three ways out of `compose_post`: no body, a part that throws, and all parts
  -- called
  split at h
  · rcases h with hs | hs
    · cases hs
      rfl
    · cases hs
  · split at h
    · rcases h with hs | hs
      · cases hs
      · cases hs
        rfl
    · rcases h with hs | hs
      · cases hs
        rfl
      · cases hs

omit ho in
/-- `compose` after a step: the status is 200 only where the counter has reached 4. -/
theorem compose_step {text : Str}
    (hreply : ((l.note w.calls).exec sc).reply .compose = some text)
    (hstatus : statusOf text = some 200) : 4 ≤ x.count .compose := by
  have hthrown : statusOf replyError ≠ some 200 := by decide
  -- the status 200 has been there before, or is that of this step, which is the fourth
  -- reply
  rcases answers_of_reply hreply with hold | hnew
  · exact (ha.compose text hold hstatus).trans (count_le h _)
  · have hanswers : Answers sc .compose := hnew.elim (fun hs => ⟨text, .inl hs.2⟩)
      fun hs => ⟨text, .inr hs.2⟩
    rcases answerer h hanswers with rfl | ⟨u, hu, rfl⟩
    · obtain ⟨args, -, -, -, rfl⟩ := effect_run h
      rw [compose_answers (hnew.imp And.right And.right)] at hstatus
      exact absurd hstatus hthrown
    · have hc : (PostTask.service u).counter = some .compose := by
        rw [PostTask.counter, if_pos hu]
      rw [count_handle h hc]
      obtain ⟨result, -, hreaction, -, -⟩ := effect_handle h
      cases reaction_cases hreaction with
      | @tally t c hc' =>
        obtain rfl := Option.some.inj (hc'.symm.trans hc)
        obtain ⟨hgoal, -⟩ := answers_tally hanswers
        exact (Option.some.inj hgoal).ge
      | urls => cases hu

/-- `write` after a step: the calls are made where `all` is set, one for each item. -/
theorem write_step {i : ℕ} (hcalled : (((l.note w.calls).exec sc).arg
    (.writeUserTimeline (i + 1))).isSome) : ∃ all, x.all = some all ∧ i < all.length := by
  rcases ho.arg_cases h hcalled with hcalled | ⟨hl, -, args, hcall⟩
  · obtain ⟨all, hall, hlt⟩ := ha.write i hcalled
    exact ⟨all, ha.all_of_some h hall, hlt⟩
  · obtain rfl : l = .handle .getFollowers := hl
    obtain ⟨result, -, hreaction, -, rfl⟩ := effect_handle h
    obtain rfl : sc = _ := (Option.some.inj hreaction).symm
    -- the call is made from the reply of `get_followers`, one for each recipient
    unfold fanOut at hcall
    split at hcall
    · next all post mentions hall _ =>
      obtain ⟨y, hy, heq⟩ := List.mem_map.1 hcall
      obtain ⟨hi, -⟩ := Prod.mk.inj heq
      obtain rfl : y.2 = i := Nat.succ.inj (PostTask.writeUserTimeline.inj hi)
      refine ⟨all, ?_, ?_⟩
      · show (if PostTask.getFollowers = .getFollowers then w.recipients result else w.all) = _
        rw [if_pos rfl, hall]
      · have hlt := (List.mem_zipIdx hy).2.1
        omega
    · cases hcall

end Awaits

/-- The eight parts together. -/
theorem Awaits.step (ha : w.Awaits) (ho : w.Ordered) (hp : w.Phases) (hs : w.exec q l = some w') :
    w'.Awaits := by
  obtain ⟨x, sc, h, rfl⟩ := exec_eq_some.1 hs
  have hhandled : ((l.note w.calls).exec sc).handled = (l.note w.calls).handled :=
    Calls.State.exec_handled sc
  refine ⟨fun u hu hcalled hreply => ?_, fun hcalled hreply => ?_,
    ha.home_step (x := x) ho h, fun u hu => ha.post_step (x := x) ho h hp hu,
    fun text => ha.compose_step (x := x) h, fun c => ?_, fun hall => ?_,
    fun i => ha.write_step (x := x) ho h⟩
  · rw [hhandled]
    exact ha.relay_step ho h hu hcalled hreply
  · rw [hhandled]
    exact ha.text_step ho h hcalled hreply
  -- `count`: the counter of a reply goes up when the reply is handled
  · show x.count c = ((l.note w.calls).exec sc).handled.countP _
    rw [hhandled]
    by_cases hhandle : ∃ t, l = .handle t
    · obtain ⟨t, rfl⟩ := hhandle
      show x.count c = (w.calls.handled ++ [t]).countP _
      rw [List.countP_append, ← ha.count c]
      by_cases hc : t.counter = some c
      · simp [count_handle h hc, hc]
      · obtain ⟨-, -, -, -, rfl⟩ := effect_handle h
        cases hcounter : t.counter with
        | none => simp [hcounter]
        | some c' =>
          have hne : c ≠ c' := fun heq => hc (by rw [hcounter, heq])
          simp [hcounter, hne, Ne.symm hne]
    · obtain ⟨-, ⟨hsame, -⟩ | hl, -⟩ := effect_frame h
      · rw [hsame]
        cases l with
        | handle t => exact absurd ⟨t, rfl⟩ hhandle
        | _ => exact ha.count c
      · exact absurd hl hhandle
  -- `all`: it is set where the reply of `get_followers` is handled
  · show PostTask.getFollowers ∈ ((l.note w.calls).exec sc).handled
    rw [hhandled, note_handled]
    obtain ⟨-, ⟨-, hsame⟩ | ⟨t, rfl⟩, -⟩ := effect_frame h
    · exact .inl (ha.all (by rw [← hsame]; exact hall))
    · obtain ⟨result, -, -, -, rfl⟩ := effect_handle h
      by_cases ht : t = .getFollowers
      · exact .inr (by rw [ht])
      · have hall' : (if t = .getFollowers then w.recipients result else w.all).isSome := hall
        rw [if_neg ht] at hall'
        exact .inl (ha.all hall')

/-- So it is along every run. -/
theorem awaits (h : Run (postFlow q dbs₀) ls w) : w.Awaits := by
  refine h.invariant (I := fun _ w => w.Awaits) ?_
    fun _ w _ w' hr ih hs => ih.step (ordered hr) (phases hr) hs
  rintro w hinit
  obtain rfl : w = _ := hinit
  refine ⟨fun u _ _ hreply => ?_, fun _ hreply => ?_, fun _ hreply => ?_, fun u hu => ?_,
    fun text hreply => ?_, fun c => rfl, fun hall => ?_, fun i hcalled => ?_⟩
  · cases hreply
  · cases hreply
  · cases hreply
  · cases hu
  · cases hreply
  · cases hall
  · cases hcalled

end PostFlow

end Nanoservices
