import Nanoservices.Db.Keys
import Nanoservices.Services.PostParts
import Nanoservices.Services.TimelineOrder
import Nanoservices.Services.Timelines

/-!
# What an acknowledgement means

`compose` answers its client with status 200 when four services have replied: those of
the unique id, the creator, the media and the text. The parts are put together by
whichever of six calls comes last, and the client need not have waited for it: the call
for the URLs and the call for the mentions are not among the four, and without a mention
the sixth call is never made. Where the four include it, or it has returned all the
same, the post is stored and in the timelines of the author and of the mentioned users
(`acknowledged_stored`). A text without a mention is acknowledged and lost
(`acknowledged_lost`).
-/

namespace Nanoservices

open Utf16 Json Lts

/-! ### The condition -/

/-- The user ids of the author and of the mentioned users. -/
def PostRequest.concerned (q : PostRequest) (form : Form) (dbs : DbMap) : List Str :=
  form.userid :: form.mentions.filterMap (q.userid dbs)

/-- A call that `compose` waits for is in `upload_post`, or a call has returned from it.
-/
def PostFlow.Covered (w : PostFlow) : Prop :=
  ∃ u : Upload, (w.phase u).enters = true ∧
    (u.awaited = true ∨ (w.calls.reply (.upload u)).isSome = true)

/-- The condition on a step, in the state before it.

* The fourth reply reaches `compose` when it is `Covered`.
* `upload_post` does not throw, which it does when a text becomes too long for V8.
* `write_user_timeline` does not throw for a user concerned, which it does on a timeline
  that cannot be read.

It says nothing about the post itself, and nothing about the steps after the
acknowledgement. -/
def PostLabel.Sound (q : PostRequest) (form : Form) (dbs : DbMap) (w : PostFlow) :
    PostLabel → Prop
  | .handle (.service u) => u.awaited = true → w.count .compose = 3 → w.Covered
  | .post u =>
    match w.phase u with
    | .uploading values => (q.uploadPost u values).Completes
    | _ => True
  | .timeline (.get i j) => ∀ l ∈ (w.loops q i)[j]?,
      l.key ∈ (q.concerned form dbs).map (keyOf q.platform) →
        ∀ buf ∈ dbGet w.dbs l.name l.key, (l.iterate buf).isSome = true
  | _ => True

instance {Task Arg Result : Type*} (sc : Calls.Script Task Arg Result) : Decidable sc.Completes :=
  inferInstanceAs (Decidable (∀ c ∈ sc.calls, c.2.isSome))

instance (w : PostFlow) : Decidable w.Covered :=
  inferInstanceAs (Decidable (∃ u : Upload, (w.phase u).enters = true ∧
    (u.awaited = true ∨ (w.calls.reply (.upload u)).isSome = true)))

instance (q : PostRequest) (form : Form) (dbs : DbMap) (w : PostFlow) :
    (l : PostLabel) → Decidable (l.Sound q form dbs w)
  | .handle (.service u) =>
    inferInstanceAs (Decidable (u.awaited = true → w.count .compose = 3 → w.Covered))
  | .post u =>
    match h : w.phase u with
    | .uploading values =>
      decidable_of_iff (q.uploadPost u values).Completes (by rw [PostLabel.Sound, h])
    | .storing _ | .incrementing .. | .replied | .failed =>
      isTrue (by rw [PostLabel.Sound, h]; trivial)
  | .timeline (.get i j) =>
    inferInstanceAs (Decidable (∀ l ∈ (w.loops q i)[j]?,
      l.key ∈ (q.concerned form dbs).map (keyOf q.platform) →
        ∀ buf ∈ dbGet w.dbs l.name l.key, (l.iterate buf).isSome = true))
  | .handle .compose | .handle (.upload _) | .handle .storePost | .handle .writeHomeTimeline
  | .handle .getFollowers | .handle (.writeUserTimeline _) | .run _ | .lookup | .mentions | .join _
  | .store .. | .followers | .timeline (.set ..) | .timeline (.other ..) => isTrue trivial

/-- **The post is stored**: it is the only new one in `post_storage.js`, with the text
of the form, in which each URL is a short one, and it is in the timelines of the author
and of the users that the text mentions. -/
structure PostStored (q : PostRequest) (form : Form) (dbs₀ : DbMap) (w : PostFlow) : Prop where
  post : ∃ token text, dbGet w.dbs "post_storage.js" (keyOf q.platform q.postId) =
      some (writeInt token ++ str2ab text) ∧
    parseField "text" text = some (shortened q.random form.text) ∧
    parseField "post_id" text = some q.postId
  only : ∀ key, key ≠ keyOf q.platform q.postId →
    dbGet w.dbs "post_storage.js" key = dbGet dbs₀ "post_storage.js" key
  timelines : ∀ user_id ∈ q.concerned form dbs₀, ∃ posts : List Post,
    readList w.dbs ("user_timeline_service.js", keyOf q.platform user_id) = some posts ∧
      q.post form ∈ posts

/-- A run of a new request with a plain form, from any timelines and with any other
content of the databases. The tokens of the counter, and those of each timeline, are not
0 and do not repeat, or nobody else writes them. -/
structure Composing (q : PostRequest) (form : Form) (dbs₀ : DbMap) (ls : List PostLabel)
    (w : PostFlow) : Prop where
  run : Run (postFlow q dbs₀) ls w
  content : parseField "content" q.args.1 = some form.body
  plain : form.Plain
  new : q.New dbs₀
  tokens : FreshCount ls
  timelines : ∀ key, ∃ init : Option (UInt32 × List Post),
    StoredList dbs₀ ("user_timeline_service.js", key) init ∧
      Optimistic.Undisturbed 0 init (keyEvents (w.loops q) ("user_timeline_service.js", key)
        (writeLabels ls))

namespace PostFlow

variable {q : PostRequest} {w x w' : PostFlow} {sc : PostScript} {l : PostLabel} {t : PostTask}
  {dbs₀ : DbMap} {ls : List PostLabel} {form : Form}

/-! ### Counting to the goal -/

/-- When a counter has counted as many replies as there are tasks it may count, it has
counted them all: none of them is handled twice. -/
theorem Ordered.mem_handled (ho : w.Ordered) (ha : w.Awaits) (c : Counter)
    (tasks : Finset PostTask)
    (htasks : ∀ t ∈ w.calls.handled, t.counter = some c → t ∈ tasks)
    (hcount : tasks.card ≤ w.count c) (ht : t ∈ tasks) : t ∈ w.calls.handled := by
  rw [ha.count c, List.countP_eq_length_filter] at hcount
  have hnodup := ho.nodup.filter fun t => decide (t.counter = some c)
  -- the tasks handled so far are among `tasks`, and they are as many
  have hsub : (w.calls.handled.filter fun t => decide (t.counter = some c)).toFinset ⊆ tasks := by
    intro t ht
    rw [List.mem_toFinset, List.mem_filter, decide_eq_true_eq] at ht
    exact htasks t ht.1 ht.2
  have heq := Finset.eq_of_subset_of_card_le hsub (by rwa [List.toFinset_card_of_nodup hnodup])
  rw [← heq, List.mem_toFinset, List.mem_filter] at ht
  exact ht.1

/-- The four services have replied. -/
theorem Ordered.awaited_handled (ho : w.Ordered) (ha : w.Awaits) (hcount : 4 ≤ w.count .compose)
    {u : Upload} (hu : u.awaited = true) : .service u ∈ w.calls.handled := by
  let awaited : Finset Upload := Finset.univ.filter fun u => u.awaited = true
  have hcard : (awaited.image PostTask.service).card = 4 := by decide
  refine ho.mem_handled ha .compose (awaited.image .service) ?_ (hcard ▸ hcount)
    (Finset.mem_image_of_mem _ (Finset.mem_filter.2 ⟨Finset.mem_univ u, hu⟩))
  intro t _ hc
  obtain ⟨v, hv, rfl⟩ := counter_eq hc
  exact Finset.mem_image_of_mem _ (Finset.mem_filter.2 ⟨Finset.mem_univ v, hv⟩)

/-- The three services that `upload_post` calls have replied. -/
theorem Ordered.posted_handled (ho : w.Ordered) (ha : w.Awaits)
    (hcount : 3 ≤ w.count .uploadPost) :
    .storePost ∈ w.calls.handled ∧ .writeUserTimeline 0 ∈ w.calls.handled ∧
      .writeHomeTimeline ∈ w.calls.handled := by
  let tasks : Finset PostTask := {.storePost, .writeHomeTimeline, .writeUserTimeline 0}
  have hcard : tasks.card = 3 := by decide
  have hmem : ∀ t ∈ tasks, t ∈ w.calls.handled := fun t ht => by
    refine ho.mem_handled ha .uploadPost tasks ?_ (hcard ▸ hcount) ht
    intro t _ hc
    rcases counter_eq hc with rfl | rfl | rfl <;> simp [tasks]
  exact ⟨hmem _ (by simp [tasks]), hmem _ (by simp [tasks]), hmem _ (by simp [tasks])⟩

/-- The calls of `write_user_timeline` for all of `all` have been replied to. -/
theorem Ordered.written_handled (ho : w.Ordered) (ha : w.Awaits) {all : List Str}
    (hall : w.all = some all) (hcount : all.length ≤ w.count .writeHomeTimeline) {i : ℕ}
    (hi : i < all.length) : .writeUserTimeline (i + 1) ∈ w.calls.handled := by
  refine ho.mem_handled ha .writeHomeTimeline
    ((Finset.range all.length).image fun i => PostTask.writeUserTimeline (i + 1)) ?_ ?_
    (Finset.mem_image.2 ⟨i, Finset.mem_range.2 hi, rfl⟩)
  · intro t ht hc
    obtain ⟨j, rfl⟩ := counter_eq hc
    obtain ⟨all', hall', hj⟩ := ha.write j (ho.called _ (ho.ran _ (ho.replied _ ht)))
    obtain rfl := Option.some.inj (hall.symm.trans hall')
    exact Finset.mem_image.2 ⟨j, Finset.mem_range.2 hj, rfl⟩
  · exact Finset.card_image_le.trans (by rwa [Finset.card_range])

/-! ### The call that completes the post -/

/-- A call enters `upload_post` when it begins to read the parts. -/
theorem enters_iff {phase : CallPhase} :
    phase.enters = true ↔ ∃ values, phase = .uploading values := by
  cases phase <;> simp [CallPhase.enters]

/-- A call in `upload_post` has run. -/
theorem Phases.ran_of_enters (hp : w.Phases) {u : Upload} (hu : (w.phase u).enters = true) :
    w.calls.ran (.upload u) = true := by
  by_contra hnot
  rw [hp.idle u (Bool.eq_false_of_not_eq_true hnot)] at hu
  cases hu

/-- A call in `upload_post` stays there, as it does not throw while it reads. -/
theorem enters_step (hnot : ∀ u, x.phase u ≠ .failed) (h : w.effect q l = some (x, sc))
    {u : Upload} (hu : (w.phase u).enters = true) : (x.phase u).enters = true := by
  rcases effect_phase h with hsame | ⟨l', v, r, -, hv, hr, -, hx, -⟩
  · rwa [hsame]
  · obtain ⟨hother, -, -, hread⟩ := exec_phase hr hv
    rw [hx]
    -- reading goes on, or throws, which is excluded; the other calls stand still
    by_cases huv : u = v
    · subst huv
      obtain ⟨values, hvalues⟩ := enters_iff.1 hu
      rcases (hread values hvalues).2 with huploading | hfailed
      · exact enters_iff.2 huploading
      · exact absurd (congrFun hx u |>.trans hfailed) (hnot u)
    · show (r.phase ((), u)).enters = true
      rwa [hother u huv]

/-- Replies stay. -/
theorem isSome_reply_step (h : (w.calls.reply t).isSome) :
    (((l.note w.calls).exec sc).reply t).isSome :=
  Calls.State.isSome_reply_exec (by rwa [note_reply])

/-- **A call that `compose` waits for has returned** when the four services have
replied: the service behind it replies after its call (`Awaits.relay`, `Awaits.text`),
and none of the four has thrown. -/
theorem Ordered.returned (ho : w.Ordered) (ha : w.Awaits) (hp : w.Phases)
    (hcount : 4 ≤ w.count .compose) {u : Upload} (hawaited : u.awaited = true)
    (hu : (w.phase u).enters = true) : (w.calls.reply (.upload u)).isSome := by
  have hreply := ho.replied _ (ho.awaited_handled ha hcount hawaited)
  have hcalled := ho.called _ (hp.ran_of_enters hu)
  apply ho.replied
  -- `compose` awaits four services, and each of them awaits its own call
  cases u with
  | text =>
    have hurls : .service .urls ∈ w.calls.handled := ho.caused _ hcalled
    exact ha.text (ho.called _ (ho.ran _ (ho.replied _ hurls))) hreply
  | media => exact ha.relay _ (by simp) hcalled hreply
  | creator => exact ha.relay _ (by simp) hcalled hreply
  | uniqueId => exact ha.relay _ (by simp) hcalled hreply
  | urls | userMentions => cases hawaited

/-- **In a run whose steps meet the condition**, a call has returned from `upload_post`
when the four services have replied. The condition speaks of the step with the fourth
reply; from then on the call that has entered stays so. -/
theorem exists_returned (hnew : q.New dbs₀)
    (h : Run ((postFlow q dbs₀).restrict fun w l => l.Sound q form dbs₀ w) ls w)
    (hfresh : FreshCount ls) (hcount : 4 ≤ w.count .compose) :
    ∃ u, (w.phase u).enters = true ∧ (w.calls.reply (.upload u)).isSome := by
  induction h with
  | init h0 =>
    obtain rfl : _ = _ := h0
    simp [start] at hcount
  | @step ls w w' l hr hs ih =>
    obtain ⟨hsound, hs⟩ := hs
    have hr' := hr.of_restrict
    have hrun : Run (postFlow q dbs₀) (ls ++ [l]) w' := hr'.step hs
    have hnot := not_failed hnew hrun hfresh
    obtain ⟨x, sc, h, rfl⟩ := exec_eq_some.1 hs
    by_cases hold : 4 ≤ w.count .compose
    · -- the call that entered stays so, and so does its reply
      obtain ⟨u, hu, hreply⟩ := ih hfresh.of_append hold
      exact ⟨u, enters_step (x := x) hnot h hu, isSome_reply_step hreply⟩
    · -- the fourth reply
      obtain ⟨t, rfl⟩ : ∃ t, l = .handle t := by
        obtain ⟨-, ⟨hsame, -⟩ | hl, -⟩ := effect_frame h
        · exact absurd (hcount.trans_eq (congrFun hsame _)) hold
        · exact hl
      have hcounter : t.counter = some .compose := by
        by_contra hne
        obtain ⟨result, -, -, -, rfl⟩ := effect_handle h
        have hcount' : 4 ≤ t.counter.elim w.count
            (fun c => Function.update w.count c (w.count c + 1)) .compose := hcount
        cases hc : t.counter with
        | none =>
          rw [hc] at hcount'
          exact hold hcount'
        | some c =>
          rw [hc, Option.elim_some,
            Function.update_of_ne fun heq => hne (by rw [hc, ← heq])] at hcount'
          exact hold hcount'
      obtain ⟨u, hu, rfl⟩ := counter_eq hcounter
      have hthree : w.count .compose = 3 := by
        have hnext : 4 ≤ x.count .compose := hcount
        rw [count_handle h hcounter] at hnext
        omega
      obtain ⟨v, hv, hcovered⟩ := hsound hu hthree
      have hv' := enters_step (x := x) hnot h hv
      refine ⟨v, hv', ?_⟩
      rcases hcovered with hawaited | hreply
      · exact (ordered hrun).returned (awaits hrun) (phases hrun) hcount hawaited hv'
      · exact isSome_reply_step hreply

/-! ### The calls that are made -/

/-- Calls stay. -/
theorem Ordered.isSome_arg_step (ho : w.Ordered) (h : w.effect q l = some (x, sc))
    (ht : (w.calls.arg t).isSome) : (((l.note w.calls).exec sc).arg t).isSome := by
  obtain ⟨args, hargs⟩ := Option.isSome_iff_exists.1 ht
  rw [ho.arg_of_some h hargs]
  rfl

/-- `upload_post` makes its three calls, since it does not throw. -/
theorem posted_called (h : Run ((postFlow q dbs₀).restrict fun w l => l.Sound q form dbs₀ w) ls w)
    (hposter : w.poster.isSome) :
    ∀ t ∈ [PostTask.storePost, .writeUserTimeline 0, .writeHomeTimeline],
      (w.calls.arg t).isSome := by
  induction h with
  | init h0 =>
    obtain rfl : _ = _ := h0
    cases hposter
  | @step ls w w' l hr hs ih =>
    obtain ⟨hsound, hs⟩ := hs
    obtain ⟨x, sc, h, rfl⟩ := exec_eq_some.1 hs
    intro t ht
    -- the post was made before, or is made in this step by a call that does not throw
    -- midway
    rcases effect_poster h with hsame | ⟨u, rfl, -, -, -⟩
    · exact (ordered hr.of_restrict).isSome_arg_step h (ih (hsame ▸ hposter) t ht)
    · obtain ⟨values, hvalues, -, -, hlen, -, rfl⟩ := effect_post h
      have hcompletes : (q.uploadPost u values).Completes := by
        rw [PostLabel.Sound, hvalues] at hsound
        exact hsound
      refine Calls.State.isSome_arg_exec hcompletes (.inl ?_)
      match values with
      | [text, post_id, post_type, creator, user_mentions, media, urls] => exact ht

/-- `write_home_timeline` calls `get_followers`. It would throw on a user id that is too
long, but that is part of its own argument. -/
theorem followers_called (h : Run (postFlow q dbs₀) ls w)
    (hc : ∀ ls w, Run (postFlow q dbs₀) ls w → FreshCount ls → Carries q form dbs₀ w)
    (hfresh : FreshCount ls) (hran : w.calls.ran .writeHomeTimeline = true) :
    (w.calls.arg .getFollowers).isSome := by
  induction h with
  | init h0 =>
    obtain rfl : _ = _ := h0
    cases hran
  | @step ls w w' l hr hs ih =>
    have hcarries := hc ls w hr hfresh.of_append
    obtain ⟨x, sc, h, rfl⟩ := exec_eq_some.1 hs
    rw [Calls.State.exec_ran, note_ran] at hran
    rcases hran with hran | rfl
    · exact (ordered hr).isSome_arg_step h (ih hfresh.of_append hran)
    · obtain ⟨args, hargs, -, -, rfl⟩ := effect_run h
      obtain ⟨mentions, ids, hobject, -, -⟩ := hcarries.arg _ _ hargs
      have huser : parseField "user_id" args.1 = some form.userid := by
        rw [parseField, parse_of_stringifyJs hobject]
        rfl
      -- the user id is a part of the argument, so it is not too long
      have hlen : form.userid.length ≤ kMaxLength := by
        have hle : form.userid.length ≤ (stringify (homeObject q form mentions)).length :=
          length_le_stringify List.mem_cons_self
        exact hle.trans ((jsString_eq hobject).symm ▸ args.2)
      refine Calls.State.isSome_arg_exec (fun c hc => ?_) (.inl ?_)
      · obtain rfl := List.mem_singleton.1 hc
        rw [huser, Option.bind_some, jsString, dif_pos hlen]
        rfl
      · exact List.mem_singleton.2 rfl

/-! ### The post -/

/-- The database of the posts before and after `store_post`: the only step that writes
it, which is made once. -/
theorem post_storage (h : Run (postFlow q dbs₀) ls w)
    (hc : ∀ ls w, Run (postFlow q dbs₀) ls w → FreshCount ls → Carries q form dbs₀ w)
    (hfresh : FreshCount ls) :
    (w.calls.reply .storePost = none → w.dbs "post_storage.js" = dbs₀ "post_storage.js") ∧
      ((w.calls.reply .storePost).isSome → ∃ args rand ok dbs',
        w.calls.arg .storePost = some args ∧
        dbSet dbs₀ "post_storage.js" (keyOf q.platform q.postId) (str2ab args.1) 0 rand =
          some (ok, dbs') ∧ w.dbs "post_storage.js" = dbs' "post_storage.js") := by
  induction h with
  | init h0 =>
    obtain rfl : _ = _ := h0
    exact ⟨fun _ => rfl, fun hreply => by cases hreply⟩
  | @step ls w w' l hr hs ih =>
    have hcarries := hc ls w hr hfresh.of_append
    obtain ⟨hbefore, hafter⟩ := ih hfresh.of_append
    have ho := ordered hr
    obtain ⟨x, sc, h, rfl⟩ := exec_eq_some.1 hs
    by_cases hstore : ∃ rand ok, l = .store rand ok
    · obtain ⟨rand, ok, rfl⟩ := hstore
      obtain ⟨args, post_id, dbs, hargs, hid, hset, hactive, rfl, rfl⟩ := effect_store h
      have hexpected : parseField "post_id" args.1 = some q.postId := (hcarries.arg _ _ hargs).2
      obtain rfl := Option.some.inj (hid.symm.trans hexpected)
      -- the database is still as it was at first
      obtain ⟨dbs', hset', hdbs⟩ := dbSet_congr (hbefore (active_iff.1 hactive).2) hset
      refine ⟨fun hnone => ?_, fun _ => ⟨args, rand, ok, dbs', ho.arg_of_some h hargs, hset', hdbs⟩⟩
      simp [Calls.State.exec, Calls.State.perform] at hnone
    · have hwrites : l.writes ≠ some "post_storage.js" := by
        cases l with
        | store rand ok => exact absurd ⟨rand, ok, rfl⟩ hstore
        | _ => simp [PostLabel.writes, composeDb]
      have hdbs : x.dbs "post_storage.js" = w.dbs "post_storage.js" :=
        (effect_elsewhere h hwrites).eq
      have hreply : (((l.note w.calls).exec sc).reply .storePost).isSome →
          (w.calls.reply .storePost).isSome := by
        intro hsome
        refine (reply_or_answers hsome).resolve_right fun ha => ?_
        rcases answerer h ha with rfl | hl
        · -- it does not throw
          obtain ⟨args, hargs, -, -, rfl⟩ := effect_run h
          have hexpected : parseField "post_id" args.1 = some q.postId :=
            (hcarries.arg _ _ hargs).2
          simp only [PostRequest.body, hexpected, Option.isSome_some, if_true] at ha
          exact answers_nil ha
        · exact hstore hl
      refine ⟨fun hnone => hdbs.trans (hbefore (reply_none_of_step hnone)), fun hsome => ?_⟩
      obtain ⟨args, rand, ok, dbs', hargs, hset, heq⟩ := hafter (hreply hsome)
      exact ⟨args, rand, ok, dbs', ho.arg_of_some h hargs, hset, hdbs.trans heq⟩

/-! ### The timelines -/

/-- What `write_user_timeline` reads from its argument. -/
theorem timelineWrite_of_args {p : Platform} {post : Post} {user_id : Str} {args : JsString}
    (h : timelineArgs post user_id = some args) :
    timelineWrite p args.1 = some (writeUserTimeline p user_id post) := by
  simp only [timelineArgs, Option.bind_eq_bind, Option.bind_eq_some_iff] at h
  obtain ⟨tmp, htmp, hargs⟩ := h
  have huser : parseField "user_id" args.1 = some user_id := by
    rw [parseField, parse_of_stringifyJs hargs]
    rfl
  have hpost : parseField "post" args.1 = some tmp.1 := by
    rw [parseField, parse_of_stringifyJs hargs]
    rfl
  -- the post goes through two texts, its own and that of the argument around it
  have hvalue : Post.ofValue post.toValue = some post := Item.ofValue_toValue post
  simp [timelineWrite, huser, hpost, parse_of_stringifyJs htmp, hvalue]

/-- The call of `write_user_timeline` for a user. -/
theorem loops_of_args {i : ℕ} {args : JsString} {post : Post} {user_id : Str}
    (hargs : w.calls.arg (.writeUserTimeline i) = some args)
    (h : timelineArgs post user_id = some args) :
    w.loops q i = writeUserTimeline q.platform user_id post := by
  rw [loops, hargs, Option.bind_some, timelineWrite_of_args h, Option.getD_some]

/-- The calls of `write_user_timeline` write the post. -/
theorem Carries.timeline (hc : Carries q form dbs₀ w) {i : ℕ} {args : JsString}
    (hargs : w.calls.arg (.writeUserTimeline i) = some args) :
    ∃ user_id, timelineArgs (q.post form) user_id = some args := by
  cases i with
  | zero => exact ⟨form.userid, hc.arg _ _ hargs⟩
  | succ i => exact hc.arg _ _ hargs

/-- A step of a call of `write_user_timeline` leaves the others alone. -/
theorem process_of_ne {program : ℕ → List (Loop Post)} {s r : RetryWorld ℕ} {l : RetryLabel ℕ}
    {i j : ℕ} (h : s.exec program l = some r) (hl : l.client = some j) (hij : i ≠ j) :
    r.process i = s.process i := by
  have hs : (retryLoops program s.dbs).step s l r := RetryWorld.step_of_exec h
  -- a step of a client is a `DBGet` or a `DBSet` of its own
  cases l with
  | get c k =>
    obtain rfl := Option.some.inj hl
    obtain ⟨loop, buf, -, -, -, rfl⟩ := hs
    exact Function.update_of_ne hij _ _
  | set c k rand ok =>
    obtain rfl := Option.some.inj hl
    obtain ⟨loop, content, version, dbs, -, -, -, rfl⟩ := hs
    exact Function.update_of_ne hij _ _
  | other => cases hl

/-- A call of `write_user_timeline` that has been replied to has left its loop, or
thrown in it. It does not throw before its first `DBGet`, as its argument can be
read. -/
theorem written_or_failed (h : Run (postFlow q dbs₀) ls w)
    (hc : ∀ ls w, Run (postFlow q dbs₀) ls w → FreshCount ls → Carries q form dbs₀ w)
    (hfresh : FreshCount ls) {i : ℕ} (hreply : (w.calls.reply (.writeUserTimeline i)).isSome) :
    (w.write i).loop = 1 ∨ (w.write i).phase = .failed := by
  induction h with
  | init h0 =>
    obtain rfl : _ = _ := h0
    cases hreply
  | @step ls w w' l hr hs ih =>
    have hcarries := hc ls w hr hfresh.of_append
    obtain ⟨x, sc, h, rfl⟩ := exec_eq_some.1 hs
    have hor := reply_or_answers hreply
    -- a step of some loop, or of something else
    by_cases htimeline : ∃ l', l = .timeline l'
    · obtain ⟨l', rfl⟩ := htimeline
      obtain ⟨j, r, hj, hexec, hactive, rfl, rfl⟩ := effect_timeline h
      by_cases hij : i = j
      · subst hij
        have ha := hor.resolve_left (by rw [(active_iff.1 hactive).2]; exact Bool.false_ne_true)
        show (r.process i).loop = 1 ∨ (r.process i).phase = .failed
        unfold Process.script at ha
        split at ha
        -- it replies out of its loop or on an exception, and only then
        · next hloop => exact .inl hloop
        · split at ha
          · next hfailed => exact .inr hfailed
          · exact absurd ha answers_nil
          · exact absurd ha answers_nil
      · have hold := hor.resolve_right fun ha => hij
          (PostTask.writeUserTimeline.inj (answers_process ha))
        show (r.process i).loop = 1 ∨ (r.process i).phase = .failed
        rw [process_of_ne hexec hj hij]
        exact ih hfresh.of_append hold
    · have hwrite : x.write = w.write := (effect_frame h).2.2.2.2.resolve_right htimeline
      have hold : (w.calls.reply (.writeUserTimeline i)).isSome := by
        refine hor.resolve_right fun ha => ?_
        rcases answerer h ha with rfl | ⟨l', -, rfl⟩
        · -- its argument can be read, so it does not throw before its first `DBGet`
          obtain ⟨args, hargs, -, -, rfl⟩ := effect_run h
          obtain ⟨user_id, huser⟩ := hcarries.timeline hargs
          simp only [PostRequest.body, timelineWrite_of_args huser, Option.isSome_some,
            if_true] at ha
          exact answers_nil ha
        · exact htimeline ⟨l', rfl⟩
      show (x.write i).loop = 1 ∨ (x.write i).phase = .failed
      rw [hwrite]
      exact ih hfresh.of_append hold

/-- **In a run whose steps meet the condition**, a call of `write_user_timeline` that
throws is not one for a user concerned. It throws at a `DBGet`, of a list that cannot be
read, and the condition is about this step. -/
theorem key_of_failed (h : Run ((postFlow q dbs₀).restrict fun w l => l.Sound q form dbs₀ w) ls w)
    {i : ℕ} (hfailed : (w.write i).phase = .failed) :
    ∃ loop, (w.loops q i)[0]? = some loop ∧
      loop.key ∉ (q.concerned form dbs₀).map (keyOf q.platform) := by
  induction h with
  | init h0 =>
    obtain rfl : _ = _ := h0
    cases hfailed
  | @step ls w w' l hr hs ih =>
    obtain ⟨hsound, hs⟩ := hs
    have ho := ordered hr.of_restrict
    obtain ⟨x, sc, h, rfl⟩ := exec_eq_some.1 hs
    have hkeep : (w.write i).phase = .failed → ∃ loop,
        (({ x with calls := (l.note w.calls).exec sc } : PostFlow).loops q i)[0]? = some loop ∧
          loop.key ∉ (q.concerned form dbs₀).map (keyOf q.platform) := by
      intro hold
      obtain ⟨loop, hloop, hkey⟩ := ih hold
      exact ⟨loop, ho.loops_step h hloop, hkey⟩
    by_cases htimeline : ∃ l', l = .timeline l'
    · obtain ⟨l', rfl⟩ := htimeline
      obtain ⟨j, r, hj, hexec, hactive, rfl, rfl⟩ := effect_timeline h
      have hfailed' : (r.process i).phase = .failed := hfailed
      by_cases hij : i = j
      · subst hij
        have hstep : (retryLoops (w.loops q) w.dbs).step ⟨w.dbs, w.write⟩ l' r :=
          RetryWorld.step_of_exec hexec
        cases l' with
        | get c k =>
          obtain rfl := Option.some.inj hj
          obtain ⟨loop, buf, -, hloop, hget, rfl⟩ := hstep
          obtain ⟨rfl, -⟩ := loops_cases hloop
          -- the list under a concerned user's key can be read
          refine ⟨loop, ho.loops_step h hloop, fun hkey => ?_⟩
          obtain ⟨out, hout⟩ := Option.isSome_iff_exists.1 (hsound loop hloop hkey buf hget)
          rw [show (Function.update w.write c ⟨0, loop.next buf⟩ c).phase = loop.next buf by
            rw [Function.update_self], Loop.next, hout] at hfailed'
          cases hfailed'
        | set c k rand ok =>
          obtain rfl := Option.some.inj hj
          obtain ⟨loop, content, version, dbs, -, -, -, rfl⟩ := hstep
          cases ok <;> simp at hfailed'
        | other => cases hj
      · rw [process_of_ne hexec hj hij] at hfailed'
        exact hkeep hfailed'
    · have hwrite : x.write = w.write := (effect_frame h).2.2.2.2.resolve_right htimeline
      exact hkeep (hwrite ▸ hfailed)

/-- What a change adds to a list stays in it. -/
theorem mem_foldl_of_grows {α β : Type} {f : List α → β → List α} (hgrows : ∀ xs b, xs ⊆ f xs b)
    {a : α} {b : β} (hadds : ∀ xs, a ∈ f xs b) {bs : List β} (hb : b ∈ bs) (xs : List α) :
    a ∈ bs.foldl f xs := by
  -- what is on the list once stays on it
  have hstays : ∀ (bs : List β) (xs : List α), xs ⊆ bs.foldl f xs := by
    intro bs
    induction bs with
    | nil => exact fun xs => List.Subset.refl xs
    | cons b bs ih => exact fun xs => List.Subset.trans (hgrows xs b) (ih _)
  induction bs generalizing xs with
  | nil => cases hb
  | cons c cs ih =>
    rcases List.mem_cons.1 hb with rfl | hb
    · exact hstays cs _ (hadds xs)
    · exact ih hb _

/-- **A timeline holds what has been written to it.** The loop has been left, so one of
its `DBSet`s was accepted; the lists that are stored are those of the accepted changes,
in order (`Optimistic`), and none of them takes anything out. -/
theorem timeline_mem (h : Run (postFlow q dbs₀) ls w) {i : ℕ} {user_id : Str} {post : Post}
    {init : Option (UInt32 × List Post)}
    (hinit : StoredList dbs₀ ("user_timeline_service.js", keyOf q.platform user_id) init)
    (hundisturbed : Optimistic.Undisturbed 0 init (keyEvents (w.loops q)
      ("user_timeline_service.js", keyOf q.platform user_id) (writeLabels ls)))
    (hloops : w.loops q i = writeUserTimeline q.platform user_id post)
    (hloop : (w.write i).loop = 1) :
    ∃ posts : List Post,
      readList w.dbs ("user_timeline_service.js", keyOf q.platform user_id) = some posts ∧
        post ∈ posts := by
  obtain ⟨final, hstored, -, hmem, hfold⟩ := (write_run h).applied_commits hinit hundisturbed
  refine ⟨_, hstored.readList, ?_⟩
  -- the loop has come to its end, so its change is one of those committed
  have hcommit : (i, 0) ∈ Optimistic.commits (keyEvents (w.loops q)
      ("user_timeline_service.js", keyOf q.platform user_id) (writeLabels ls)) := by
    rw [hmem]
    refine ⟨?_, ?_⟩
    · rw [target, hloops]
      rfl
    · show 0 < (w.write i).loop
      rw [hloop]
      exact Nat.zero_lt_one
  rw [hfold]
  -- no change takes a post off the list, and this one puts it on
  refine mem_foldl_of_grows (fun posts y => ?_) (fun posts => ?_) hcommit _
  · rw [changeOf]
    cases hy : (w.loops q y.1)[y.2]? with
    | none => exact List.Subset.refl posts
    | some loop =>
      obtain ⟨-, user_id', post', rfl⟩ := loops_cases hy
      exact (sublist_pushSorted post' posts).subset
  · rw [changeOf, hloops]
    exact (pushSorted_perm post posts).mem_iff.2 List.mem_cons_self

/-! ### Acknowledged -/

/-- An acknowledged request has had its three calls replied to, and all calls of
`write_user_timeline`. This goes back from the acknowledgement, reply by reply: four
replies to `compose`, so a call has returned from `upload_post`, so its three replies
have been handled, so `write_home_timeline` has replied, so all its calls have. -/
theorem replied (hnew : q.New dbs₀)
    (h : Run ((postFlow q dbs₀).restrict fun w l => l.Sound q form dbs₀ w) ls w)
    (hc : ∀ ls w, Run (postFlow q dbs₀) ls w → FreshCount ls → Carries q form dbs₀ w)
    (hfresh : FreshCount ls) (hack : w.Acknowledged) :
    (w.calls.reply .storePost).isSome ∧ (w.calls.reply (.writeUserTimeline 0)).isSome ∧
      ∃ all, w.all = some all ∧
        ∀ i < all.length, (w.calls.reply (.writeUserTimeline (i + 1))).isSome := by
  have hr := h.of_restrict
  have ho := ordered hr
  have ha := awaits hr
  obtain ⟨text, htext, hstatus⟩ := hack
  -- back from the reply of `compose_post`: the call of `upload_post` that entered has
  -- returned
  obtain ⟨u, hu, hreply⟩ := exists_returned hnew h hfresh (ha.compose text htext hstatus)
  obtain ⟨values, hvalues⟩ := enters_iff.1 hu
  have hposter := (phases hr).replied u values hreply hvalues
  have hcalled := posted_called h (by rw [hposter]; rfl)
  have hhome := hcalled .writeHomeTimeline (by simp)
  -- it returned because its three calls had, and `write_home_timeline` because those of
  -- the followers had
  obtain ⟨hstore, hauthor, hothers⟩ := ho.posted_handled ha (ha.post u hposter hhome hreply)
  have hfollowers := followers_called hr hc hfresh (ho.ran _ (ho.replied _ hothers))
  obtain ⟨all, hall, hle⟩ := ha.home hfollowers (ho.replied _ hothers)
  exact ⟨ho.replied _ hstore, ho.replied _ hauthor, all, hall,
    fun i hi => ho.replied _ (ho.written_handled ha hall hle hi)⟩

end PostFlow

section Acknowledged

variable {q : PostRequest} {form : Form} {dbs₀ : DbMap} {ls : List PostLabel} {w : PostFlow}

/-- All calls of the run are as expected. -/
theorem Composing.carries (h : Composing q form dbs₀ ls w) (ls : List PostLabel) (w : PostFlow)
    (hr : Run (postFlow q dbs₀) ls w) (hfresh : FreshCount ls) :
    PostFlow.Carries q form dbs₀ w :=
  PostFlow.carries h.new h.content h.plain hr hfresh

/-- A user concerned whose call of `write_user_timeline` has been replied to has the
post. -/
theorem Composing.timeline (h : Composing q form dbs₀ ls w)
    (hs : Run ((postFlow q dbs₀).restrict fun w l => l.Sound q form dbs₀ w) ls w) {i : ℕ}
    {user_id : Str} {args : JsString} (huser : user_id ∈ q.concerned form dbs₀)
    (hargs : w.calls.arg (.writeUserTimeline i) = some args)
    (hwrite : timelineArgs (q.post form) user_id = some args)
    (hreply : (w.calls.reply (.writeUserTimeline i)).isSome) :
    ∃ posts : List Post,
      readList w.dbs ("user_timeline_service.js", keyOf q.platform user_id) = some posts ∧
        q.post form ∈ posts := by
  -- a call that has replied has written the timeline, for the soundness condition
  -- excludes the failure
  have hloops := PostFlow.loops_of_args (q := q) hargs hwrite
  have hloop : (w.write i).loop = 1 := by
    refine (PostFlow.written_or_failed h.run h.carries h.tokens hreply).resolve_right
      fun hfailed => ?_
    obtain ⟨loop, hloop, hkey⟩ := PostFlow.key_of_failed hs hfailed
    rw [hloops] at hloop
    cases hloop
    exact hkey (List.mem_map_of_mem huser)
  obtain ⟨init, hinit, hundisturbed⟩ := h.timelines (keyOf q.platform user_id)
  exact PostFlow.timeline_mem h.run hinit hundisturbed hloops hloop

/-- The stored post, and no other. -/
theorem Composing.storage (h : Composing q form dbs₀ ls w)
    (hreply : (w.calls.reply .storePost).isSome) :
    (∃ token text, dbGet w.dbs "post_storage.js" (keyOf q.platform q.postId) =
        some (writeInt token ++ str2ab text) ∧
      parseField "text" text = some (shortened q.random form.text) ∧
      parseField "post_id" text = some q.postId) ∧
    ∀ key, key ≠ keyOf q.platform q.postId →
      dbGet w.dbs "post_storage.js" key = dbGet dbs₀ "post_storage.js" key := by
  obtain ⟨args, rand, ok, dbs', hargs, hset, hdbs⟩ :=
    (PostFlow.post_storage h.run h.carries h.tokens).2 hreply
  obtain ⟨htext, hid⟩ := (h.carries ls w h.run h.tokens).arg _ _ hargs
  obtain ⟨m₀, hm₀, -, hnone⟩ := h.new.absent
  have hn := isSome_of_dbSet hset
  refine ⟨⟨rand, args.1, ?_, htext, hid⟩, fun key hne => ?_⟩
  -- the database had nothing under the post's key, so the version 0 is accepted
  · obtain ⟨-, hm', hsome⟩ := hm₀.of_dbSet hset
    have hacc : Versioned.accepts Block.token m₀ (putOf "post_storage.js"
        (keyOf q.platform q.postId) (str2ab args.1) 0 rand) = true := by
      simp [Versioned.accepts, putOf, hnone]
    rw [dbGet_congr hdbs, hm'.dbGet ((hsome _).trans hn)]
    have hput := Versioned.put_snd_self hacc
    rw [show ("post_storage.js", keyOf q.platform q.postId) = (putOf "post_storage.js"
      (keyOf q.platform q.postId) (str2ab args.1) 0 rand).key from rfl, hput, Option.map_some,
      Option.getD_some]
    exact congrArg some (copy_newBlock rand args.fits)
  · rw [dbGet_congr hdbs]
    exact (dbSet_of_ne hm₀ hne hset).1

/-- **An acknowledged post is stored**, in the runs whose fourth reply to `compose`
covers the call that puts the post together, and in which neither `upload_post` nor
`write_user_timeline` of a user concerned throws. The steps of the nine services, and
of others on the same databases, may be interleaved in any way.

The acknowledgement says who has been replied to (`replied`), the calls say with what
they were made (`carries`), and from both the databases follow (`storage`,
`timeline`). -/
theorem acknowledged_stored (q : PostRequest) (form : Form) (dbs₀ : DbMap) (ls : List PostLabel)
    (w : PostFlow) (h : Composing q form dbs₀ ls w)
    (hs : Run ((postFlow q dbs₀).restrict fun w l => l.Sound q form dbs₀ w) ls w)
    (hack : w.Acknowledged) : PostStored q form dbs₀ w := by
  obtain ⟨hstore, hauthor, all, hall, hwritten⟩ :=
    PostFlow.replied h.new hs h.carries h.tokens hack
  obtain ⟨hpost, honly⟩ := h.storage hstore
  refine ⟨hpost, honly, fun user_id huser => ?_⟩
  have hc := h.carries ls w h.run h.tokens
  have ho := PostFlow.ordered h.run
  rcases List.mem_cons.1 huser with rfl | hmentioned
  -- the author's timeline is written by `upload_post` itself
  · obtain ⟨args, hargs⟩ := Option.isSome_iff_exists.1 (ho.called _ (ho.ran _ hauthor))
    exact h.timeline hs huser hargs (hc.arg _ _ hargs) hauthor
  · -- a mentioned user is one of `all`
    obtain ⟨name, hname, hid⟩ := List.mem_filterMap.1 hmentioned
    obtain ⟨followers, ids, rfl, hfound⟩ := hc.all all hall
    have hmem : user_id ∈ followers ++ ids := by
      have hsome : some user_id ∈ ids.map some := by
        rw [hfound, ← hid]
        exact List.mem_map_of_mem hname
      obtain ⟨id, hid, heq⟩ := List.mem_map.1 hsome
      exact List.mem_append_right _ (Option.some.inj heq ▸ hid)
    obtain ⟨i, hi, hget⟩ := List.mem_iff_getElem.1 hmem
    have hreply := hwritten i hi
    obtain ⟨args, hargs⟩ := Option.isSome_iff_exists.1 (ho.called _ (ho.ran _ hreply))
    obtain ⟨all, user_id', hall', hget', hwrite⟩ := hc.write i args hargs
    obtain rfl := Option.some.inj (hall.symm.trans hall')
    rw [List.getElem?_eq_getElem hi, hget] at hget'
    obtain rfl := Option.some.inj hget'
    exact h.timeline hs huser hargs hwrite hreply

end Acknowledged

/-! ### Two texts -/

/-- The databases of the services that compose a post. -/
def postDbs : DbMap :=
  ["user_mention_service.js", "social_graph_service.js", "user_timeline_service.js", composeDb,
    "post_storage.js"].foldl createDb fun _ => none

/-- `bob` has registered, with the user id `22`. -/
def bobDbs : DbMap :=
  ((dbSet postDbs "user_mention_service.js" (keyOf oneCompose.platform (lit "bob"))
    (str2ab (lit "22")) 0 5).getD (true, postDbs)).2

/-- A form with that text. It has no media: both lists are `[]`. -/
def annForm (text : Str) : Form := ⟨lit "ann", lit "1", text, lit "[]", lit "[]", lit "0"⟩

/-- `ann`, with the user id `1`, posts a text. -/
def annRequest (text : Str) : PostRequest where
  platform := oneCompose.platform
  reqId := lit "r"
  args := (stringifyJs (.obj [(lit "content", .str (annForm text).body)])).getD
    ⟨[], Nat.zero_le _⟩
  CoreID := 0
  uniqueIds := {}
  now := 7
  random _ _ := 1
  timestamp := 7

/-- A call of `compose_post_service.js` stores its parts and increments the counter. -/
def counted (u : Upload) (rand : UInt32) : List PostLabel :=
  .run (.upload u) :: (u.parts.map fun part => .join (.put ((), u) part 5 true)) ++
    [.join (.getCount ((), u) false), .join (.setCount ((), u) rand true)]

/-- A service has its part stored, and `compose` hears of it. -/
def relayed (u : Upload) (rand : UInt32) : List PostLabel :=
  .run (.service u) :: counted u rand ++ [.handle (.upload u), .handle (.service u)]

/-- Nobody is mentioned: `upload_user_mentions` throws. -/
def lostSteps : List PostLabel :=
  .run .compose :: relayed .uniqueId 1 ++ relayed .creator 2 ++ relayed .media 3 ++
    [.run (.service .text), .run (.service .userMentions), .run (.service .urls),
      .handle (.service .urls)] ++ counted .text 4 ++
    [.handle (.upload .text), .handle (.service .text)]

/-- The text comes last. -/
def keptSteps : List PostLabel :=
  .run .compose :: relayed .uniqueId 1 ++ relayed .creator 2 ++ relayed .media 3 ++
    [.run (.service .text), .run (.service .userMentions), .lookup, .mentions] ++
    counted .userMentions 4 ++ [.run (.service .urls)] ++ counted .urls 6 ++
    [.handle (.service .urls), .run (.upload .text), .join (.put ((), .text) .text 5 true),
      .join (.getCount ((), .text) true)] ++
    (readOrder.map fun part => .join (.getPart ((), .text) part)) ++
    [.post .text, .run .storePost, .store 8 true, .handle .storePost,
      .run (.writeUserTimeline 0), .timeline (.get 0 0), .timeline (.set 0 0 9 true),
      .handle (.writeUserTimeline 0), .run .writeHomeTimeline, .run .getFollowers, .followers,
      .handle .getFollowers, .run (.writeUserTimeline 1), .timeline (.get 1 0),
      .timeline (.set 1 0 10 true), .handle (.writeUserTimeline 1), .handle .writeHomeTimeline,
      .handle (.upload .text), .handle (.service .text)]

/-- The databases are new, and empty. -/
theorem holds_postDbs : Holds postDbs fun _ => none :=
  holds_foldl_createDb _ fun _ _ hdb => by cases hdb

/-- Apart from `bob`, the databases are empty. -/
theorem holds_bobDbs : ∃ m : Store, Holds bobDbs m ∧
    (bobDbs "user_timeline_service.js").isSome ∧
    ∀ name key, name ≠ "user_mention_service.js" → m (name, key) = none := by
  have hn : (postDbs "user_mention_service.js").isSome := rfl
  obtain ⟨dbs', hset, hm, hsome⟩ := holds_postDbs.dbSet hn
    (keyOf oneCompose.platform (lit "bob")) (str2ab (lit "22")) 0 5
  have hbob : bobDbs = dbs' := by
    rw [bobDbs, hset]
    rfl
  refine ⟨_, hbob ▸ hm, hbob ▸ (hsome _).trans rfl, fun name key hne => ?_⟩
  exact Versioned.put_snd_of_ne fun heq => hne (Prod.mk.inj heq).1

/-- The request is new there, whatever its text. -/
theorem annRequest_new (text : Str) : (annRequest text).New bobDbs := by
  obtain ⟨m, hm, -, hnone⟩ := holds_bobDbs
  exact ⟨oneCompose_noCollision, m, hm, fun _ => hnone _ _ (by decide), hnone _ _ (by decide)⟩

/-- A run of it from there. Nobody has a timeline yet. -/
theorem annRequest_composing {text : Str} {ls : List PostLabel} {w : PostFlow}
    (hrun : Run (postFlow (annRequest text) bobDbs) ls w)
    (hcontent : parseField "content" (annRequest text).args.1 = some (annForm text).body)
    (hplain : (annForm text).Plain) (htokens : FreshCount ls)
    (hzero : 0 ∉ drawn (writeLabels ls)) (hnodup : (drawn (writeLabels ls)).Nodup) :
    Composing (annRequest text) (annForm text) bobDbs ls w := by
  refine ⟨hrun, hcontent, hplain, annRequest_new text, htokens, fun key => ⟨none, ?_,
    undisturbed_of_drawn hzero hnodup⟩⟩
  obtain ⟨m, hm, hsome, hnone⟩ := holds_bobDbs
  exact CellAt.stored (e := none) (hnone _ key (by decide)) hm hsome

/-- **A text without a mention is acknowledged and lost.** `upload_user_mentions`
throws, which `compose` does not wait for; five of the six parts are stored, the four
services reply, and nobody enters `upload_post`. -/
theorem acknowledged_lost : ¬∀ (q : PostRequest) (form : Form) (dbs₀ : DbMap)
    (ls : List PostLabel) (w : PostFlow), Composing q form dbs₀ ls w → w.Acknowledged →
      PostStored q form dbs₀ w := by
  intro hall
  let q := annRequest (lit "http://a")
  -- the run ends with the status 200 and with nothing under the post's key
  have houtcome : ((lostSteps.foldlM (PostFlow.exec q) (.start q bobDbs)).map fun w =>
      ((w.calls.reply .compose).bind statusOf,
        dbGet w.dbs "post_storage.js" (keyOf q.platform q.postId))) =
      some (some 200, some []) := by
    decide +kernel
  obtain ⟨w, hw, heq⟩ := Option.map_eq_some_iff.1 houtcome
  obtain ⟨hack, hnone⟩ := Prod.mk.inj heq
  have hrun : Run (postFlow q bobDbs) lostSteps w := .of_foldlM (fun _ _ _ hs => hs) rfl hw
  obtain ⟨token, text, hstored, -⟩ := (hall q _ bobDbs lostSteps w
    (annRequest_composing hrun (by decide +kernel) (by unfold Form.Plain; decide +kernel)
      ⟨by decide, by decide⟩ (by decide) (by decide))
    (Option.bind_eq_some_iff.1 hack)).post
  rw [hnone] at hstored
  cases hstored

/-- A step that meets the condition. -/
def PostFlow.execSound (q : PostRequest) (form : Form) (dbs : DbMap) (w : PostFlow)
    (l : PostLabel) : Option PostFlow :=
  if l.Sound q form dbs w then w.exec q l else none

/-- Steps that have been executed, each of which meets the condition, are such a run. -/
theorem run_of_execSound {q : PostRequest} {form : Form} {dbs : DbMap} {ls : List PostLabel}
    {w : PostFlow} (h : ls.foldlM (PostFlow.execSound q form dbs) (.start q dbs) = some w) :
    Run ((postFlow q dbs).restrict fun w l => l.Sound q form dbs w) ls w := by
  refine .of_foldlM (fun w l w' hexec => ?_) rfl h
  unfold PostFlow.execSound at hexec
  split at hexec
  · next hsound => exact ⟨hsound, hexec⟩
  · cases hexec

/-- A post that mentions `bob`, with the text as the part that comes last: it is in the
timelines of `ann` and of `bob` when the client is told. -/
theorem acknowledged_stored_bob : ∃ w : PostFlow,
    PostStored (annRequest (lit "@bob http://a")) (annForm (lit "@bob http://a")) bobDbs w := by
  let q := annRequest (lit "@bob http://a")
  let form := annForm (lit "@bob http://a")
  have houtcome : ((keptSteps.foldlM (PostFlow.execSound q form bobDbs) (.start q bobDbs)).bind
      fun w => (w.calls.reply .compose).bind statusOf) = some 200 := by
    decide +kernel
  obtain ⟨w, hw, hack⟩ := Option.bind_eq_some_iff.1 houtcome
  have hs := run_of_execSound hw
  exact ⟨w, acknowledged_stored q form bobDbs keptSteps w
    (annRequest_composing hs.of_restrict (by decide +kernel) (by unfold Form.Plain; decide +kernel)
      ⟨by decide, by decide⟩ (by decide) (by decide)) hs (Option.bind_eq_some_iff.1 hack)⟩

end Nanoservices
