import Nanoservices.Services.PostFlow

/-!
# Who calls and who answers

Every task of the workflow is called at one place of the program (`calledBy`), and
answered at a few (`answeredBy`): that is all the steps do to the calls (`caller`,
`answerer`). So no task is called twice, and along every run a reply that is handled has
been made, by a function that has run, because it was called, after its caller had got
there (`Ordered`).
-/

namespace Nanoservices

open Utf16 Json Lts

namespace PostFlow

variable {q : PostRequest} {w x w' : PostFlow} {sc : PostScript} {l : PostLabel}

/-! ### Steps -/

/-- A step is its effect and its script. -/
theorem exec_eq_some : w.exec q l = some w' ↔
    ∃ x sc, w.effect q l = some (x, sc) ∧
      w' = { x with calls := (l.note w.calls).exec sc } := by
  rw [exec, Option.map_eq_some_iff]
  constructor
  · rintro ⟨⟨x, sc⟩, h, rfl⟩
    exact ⟨x, sc, h, rfl⟩
  · rintro ⟨x, sc, h, rfl⟩
    exact ⟨(x, sc), h, rfl⟩

/-- A function runs: it has been called and has not run, and nothing changes but the
calls it makes. This and the lemmas below say, one for each label, all that the step
needs and does. -/
theorem effect_run {t : PostTask} (h : w.effect q (.run t) = some (x, sc)) :
    ∃ args, w.calls.arg t = some args ∧ w.calls.ran t = false ∧ x = w ∧ sc = q.body args t := by
  simp only [effect, Option.bind_eq_bind, Option.bind_eq_some_iff] at h
  obtain ⟨args, hargs, h⟩ := h
  split at h
  · cases h
  · next hran =>
    cases h
    exact ⟨args, hargs, by simpa using hran, rfl, rfl⟩

/-- A `DBGet` of `upload_user_mentions` adds the user id it finds, or throws on a value
that is no text. -/
theorem effect_lookup (h : w.effect q .lookup = some (x, sc)) :
    ∃ names name buf, w.names = some names ∧ names[w.userids.length]? = some name ∧
      dbGet w.dbs "user_mention_service.js" (keyOf q.platform name) = some buf ∧
      w.active (.service .userMentions) = true ∧
      ((∃ userid, ab2str buf = some userid ∧ x = { w with userids := w.userids ++ [userid] } ∧
          sc = {}) ∨
        (x = w ∧ sc = throwing (.service .userMentions))) := by
  simp only [effect, Option.bind_eq_bind, Option.bind_eq_some_iff] at h
  obtain ⟨names, hnames, name, hname, buf, hbuf, h⟩ := h
  split at h
  · next hactive =>
    refine ⟨names, name, buf, hnames, hname, hbuf, hactive, ?_⟩
    -- the stored id is read, or `ab2str` throws on it
    cases hstr : ab2str buf with
    | some userid =>
      rw [hstr] at h
      cases h
      exact .inl ⟨userid, rfl, rfl, rfl⟩
    | none =>
      rw [hstr] at h
      cases h
      exact .inr ⟨rfl, rfl⟩
  · cases h

/-- `upload_user_mentions` has looked up all names, and calls `compose_post_service.js`
with the user ids. -/
theorem effect_mentions (h : w.effect q .mentions = some (x, sc)) :
    ∃ names, w.names = some names ∧ w.active (.service .userMentions) = true ∧
      w.calls.arg (.upload .userMentions) = none ∧ names.length = w.userids.length ∧ x = w ∧
      sc = relay .userMentions ((mentionsText names w.userids).bind jsString) := by
  simp only [effect, Option.bind_eq_bind, Option.bind_eq_some_iff] at h
  obtain ⟨names, hnames, h⟩ := h
  split at h
  · next hall =>
    cases h
    exact ⟨names, hnames, hall.1, Option.isNone_iff_eq_none.1 hall.2.1, hall.2.2, rfl, rfl⟩
  · cases h

/-- A step of a call of `compose_post_service.js`, which has run and has not been
replied to. -/
theorem effect_join {l : ComposeLabel Unit} (h : w.effect q (.join l) = some (x, sc)) :
    ∃ u r, l.call = some u ∧
      ComposeWorld.exec (w.composes q) ⟨w.dbs, fun c => w.phase c.2⟩ l = some r ∧
      w.active (.upload u) = true ∧
      x = { w with dbs := r.dbs, phase := fun v => r.phase ((), v) } ∧
      sc = (r.phase ((), u)).script u := by
  simp only [effect, Option.bind_eq_bind, Option.bind_eq_some_iff] at h
  obtain ⟨u, hu, r, hr, h⟩ := h
  -- a call takes its steps only while it is active
  split at h
  · next hactive =>
    cases h
    exact ⟨u, r, hu, hr, hactive, rfl, rfl⟩
  · cases h

/-- A call has read all parts, and enters `upload_post`, the first to do so. -/
theorem effect_post {u : Upload} (h : w.effect q (.post u) = some (x, sc)) :
    ∃ values, w.phase u = .uploading values ∧ w.active (.upload u) = true ∧ w.poster = none ∧
      values.length = readOrder.length ∧ x = { w with poster := some u } ∧
      sc = q.uploadPost u values := by
  simp only [effect] at h
  -- all parts have been read, and nobody has posted yet
  split at h
  · next values hvalues =>
    split at h
    · next hall =>
      cases h
      exact ⟨values, hvalues, hall.1, hall.2.1, hall.2.2, rfl, rfl⟩
    · cases h
  · cases h

/-- `store_post` makes its `DBSet`, under the id of the post, and replies whether or not
it is refused. -/
theorem effect_store {rand : UInt32} {ok : Bool} (h : w.effect q (.store rand ok) = some (x, sc)) :
    ∃ args post_id dbs, w.calls.arg .storePost = some args ∧
      parseField "post_id" args.1 = some post_id ∧
      dbSet w.dbs "post_storage.js" (keyOf q.platform post_id) (str2ab args.1) 0 rand =
        some (ok, dbs) ∧
      w.active .storePost = true ∧ x = { w with dbs } ∧
      sc = { answer := some (.storePost, replyOk) } := by
  simp only [effect, Option.bind_eq_bind, Option.bind_eq_some_iff] at h
  obtain ⟨args, hargs, post_id, hid, ⟨ok', dbs⟩, hset, h⟩ := h
  -- the answer of the `DBSet` is given by the label and must be the right one
  split at h
  · next hall =>
    obtain ⟨hactive, rfl⟩ := hall
    cases h
    exact ⟨args, post_id, dbs, hargs, hid, hset, hactive, rfl, rfl⟩
  · cases h

/-- `get_followers` replies with a text that is read from the database. -/
theorem effect_followers (h : w.effect q .followers = some (x, sc)) :
    w.active .getFollowers = true ∧ x = w ∧
      ∃ text, sc = { answer := some (.getFollowers, text) } := by
  simp only [effect, Option.bind_eq_bind, Option.bind_eq_some_iff] at h
  obtain ⟨user_id, huser, h⟩ := h
  split at h
  · next hactive =>
    -- the list of followers is replied, or the function throws and the error text is
    cases hget : getFollowers q.platform w.dbs user_id.1 with
    | some text =>
      rw [hget] at h
      cases h
      exact ⟨hactive, rfl, text, rfl⟩
    | none =>
      rw [hget] at h
      cases h
      exact ⟨hactive, rfl, replyError, rfl⟩
  · cases h

/-- A step of a call of `write_user_timeline`, which has run and has not been replied
to. -/
theorem effect_timeline {l : RetryLabel ℕ} (h : w.effect q (.timeline l) = some (x, sc)) :
    ∃ i r, l.client = some i ∧ RetryWorld.exec (w.loops q) ⟨w.dbs, w.write⟩ l = some r ∧
      w.active (.writeUserTimeline i) = true ∧
      x = { w with dbs := r.dbs, write := r.process } ∧ sc = (r.process i).script i := by
  simp only [effect, Option.bind_eq_bind, Option.bind_eq_some_iff] at h
  obtain ⟨i, hi, r, hr, h⟩ := h
  split at h
  · next hactive =>
    cases h
    exact ⟨i, r, hi, hr, hactive, rfl, rfl⟩
  · cases h

/-- A reply is handled, once: its counter goes up, and `all` is set by the reply of
`get_followers`. -/
theorem effect_handle {t : PostTask} (h : w.effect q (.handle t) = some (x, sc)) :
    ∃ result, w.calls.reply t = some result ∧ w.reaction result t = some sc ∧
      t ∉ w.calls.handled ∧
      x = { w with
        count := t.counter.elim w.count fun c => Function.update w.count c (w.count c + 1)
        all := if t = .getFollowers then w.recipients result else w.all } := by
  simp only [effect, Option.bind_eq_bind, Option.bind_eq_some_iff] at h
  obtain ⟨result, hresult, script, hscript, h⟩ := h
  -- a reply is handled once
  split at h
  · cases h
  · next hnot =>
    cases h
    exact ⟨result, hresult, hscript, hnot, rfl⟩

/-! ### Callers -/

end PostFlow

/-- The step that calls a task. Each task has one, read off the program; for an upload
it is the step of the service behind it. -/
def calledBy : PostTask → PostLabel → Prop
  | .compose, _ => False
  | .service .urls, l | .service .userMentions, l => l = .run (.service .text)
  | .service _, l => l = .run .compose
  | .upload .text, l => l = .handle (.service .urls)
  | .upload .userMentions, l => l = .mentions
  | .upload u, l => l = .run (.service u)
  | .storePost, l | .writeHomeTimeline, l | .writeUserTimeline 0, l => ∃ u, l = .post u
  | .getFollowers, l => l = .run .writeHomeTimeline
  | .writeUserTimeline (_ + 1), l => l = .handle .getFollowers

/-- The steps that may answer a task: the function itself, when it throws or does not
wait, and whatever it waits for. -/
def answeredBy : PostTask → PostLabel → Prop
  | .compose, l => l = .run .compose ∨ ∃ u : Upload, u.awaited = true ∧ l = .handle (.service u)
  | .service u, l => l = .run (.service u) ∨ l = .handle (.upload u) ∨
      (u = .userMentions ∧ (l = .lookup ∨ l = .mentions))
  | .upload u, l => l = .run (.upload u) ∨ (∃ l', l'.call = some u ∧ l = .join l') ∨
      l = .post u ∨ ∃ t : PostTask, t.counter = some .uploadPost ∧ l = .handle t
  | .storePost, l => l = .run .storePost ∨ ∃ rand ok, l = .store rand ok
  | .writeHomeTimeline, l => l = .run .writeHomeTimeline ∨
      ∃ i, l = .handle (.writeUserTimeline (i + 1))
  | .getFollowers, l => l = .followers
  | .writeUserTimeline i, l => l = .run (.writeUserTimeline i) ∨
      ∃ l', l'.client = some i ∧ l = .timeline l'

/-- What a script answers, at its end or for an exception. -/
def Answers (sc : PostScript) (t : PostTask) : Prop :=
  ∃ r, sc.answer = some (t, r) ∨ sc.thrown = some (t, r)

/-- A step that executes nothing answers nothing. -/
theorem answers_nil {t : PostTask} : ¬Answers {} t := by
  rintro ⟨r, h | h⟩
  · cases h
  · cases h

theorem answers_one {t t' : PostTask} {r : Str}
    (h : Answers { answer := some (t', r) } t) : t = t' := by
  obtain ⟨r', h | h⟩ := h
  · cases h
    rfl
  · cases h

section Scripts

variable {q : PostRequest} {w x : PostFlow} {sc : PostScript} {l : PostLabel} {t t' : PostTask}

/-- A service that throws answers for itself. -/
theorem answers_relay {u : Upload} {args : Option JsString} (h : Answers (relay u args) t) :
    t = .service u := by
  obtain ⟨r, h | h⟩ := h
  · cases h
  · cases h
    rfl

/-- A function answers for itself. -/
theorem answers_body {args : JsString} (h : Answers (q.body args t) t') : t' = t := by
  cases t with
  | compose =>
    -- by throwing on a form that it cannot read, or else on a call that throws
    simp only [PostRequest.body, PostRequest.compose] at h
    split at h
    · exact answers_one h
    · split at h
      · obtain ⟨r, h | h⟩ := h
        · cases h
        · cases h
          rfl
      · exact answers_one h
  | service u =>
    cases u with
    | uniqueId => exact answers_relay h
    | creator => exact answers_relay h
    | media => exact answers_relay h
    | text =>
      obtain ⟨r, h | h⟩ := h
      · cases h
      · cases h
        rfl
    | userMentions =>
      simp only [PostRequest.body, PostRequest.service] at h
      split at h
      · exact absurd h answers_nil
      · exact answers_one h
    | urls =>
      -- it replies next to its call, without waiting
      obtain ⟨r, h | h⟩ := h
      · obtain ⟨ret, -, hret⟩ := Option.map_eq_some_iff.1 h
        exact (Prod.mk.inj hret).1.symm
      · cases h
        rfl
  | upload u =>
    simp only [PostRequest.body] at h
    split at h
    · exact absurd h answers_nil
    · exact answers_one h
  | storePost =>
    simp only [PostRequest.body] at h
    split at h
    · exact absurd h answers_nil
    · exact answers_one h
  | writeHomeTimeline =>
    obtain ⟨r, h | h⟩ := h
    · cases h
    · cases h
      rfl
  | getFollowers => exact absurd h answers_nil
  | writeUserTimeline i =>
    simp only [PostRequest.body] at h
    split at h
    · exact absurd h answers_nil
    · exact answers_one h

/-- The calls of a function are made where it runs. -/
theorem calledBy_body {args : JsString} {o : Option JsString}
    (h : (t', o) ∈ (q.body args t).calls) : calledBy t' (.run t) := by
  -- one case for each function; those that only answer or throw have no calls
  cases t with
  | compose =>
    simp only [PostRequest.body, PostRequest.compose] at h
    split at h
    · cases h
    · split at h
      · simp only [List.mem_cons, List.not_mem_nil, or_false, Prod.mk.injEq] at h
        rcases h with ⟨rfl, -⟩ | ⟨rfl, -⟩ | ⟨rfl, -⟩ | ⟨rfl, -⟩ <;> rfl
      · cases h
  | service u =>
    cases u with
    | uniqueId | creator | media =>
      simp only [PostRequest.body, PostRequest.service, relay, List.mem_singleton,
        Prod.mk.injEq] at h
      obtain ⟨rfl, -⟩ := h
      rfl
    | text =>
      simp only [PostRequest.body, PostRequest.service, List.mem_cons, List.not_mem_nil, or_false,
        Prod.mk.injEq] at h
      rcases h with ⟨rfl, -⟩ | ⟨rfl, -⟩ <;> rfl
    | userMentions =>
      simp only [PostRequest.body, PostRequest.service] at h
      split at h <;> cases h
    | urls =>
      simp only [PostRequest.body, PostRequest.service, List.mem_singleton, Prod.mk.injEq] at h
      obtain ⟨rfl, -⟩ := h
      rfl
  | upload u =>
    simp only [PostRequest.body] at h
    split at h <;> cases h
  | storePost =>
    simp only [PostRequest.body] at h
    split at h <;> cases h
  | writeHomeTimeline =>
    simp only [PostRequest.body, List.mem_singleton, Prod.mk.injEq] at h
    obtain ⟨rfl, -⟩ := h
    rfl
  | getFollowers => cases h
  | writeUserTimeline i =>
    simp only [PostRequest.body] at h
    split at h <;> cases h

/-- A reaction that counts answers when its counter has reached the goal. -/
theorem answers_tally {result : Str} {c : Counter} (h : Answers (w.tally result c) t) :
    some (w.count c + 1) = w.goal c ∧ ∃ r, w.answer result c = some (t, r) := by
  unfold PostFlow.tally at h
  split at h
  · next hgoal =>
    obtain ⟨r, h | h⟩ := h
    · exact ⟨hgoal, r, h⟩
    · cases h
  · exact absurd h answers_nil

/-- The reaction to a reply. -/
inductive Reaction (w : PostFlow) (result : Str) : PostTask → PostScript → Prop
  | tally {t : PostTask} {c : Counter} : t.counter = some c →
      Reaction w result t (w.tally result c)
  | upload {u : Upload} : u ≠ .urls →
      Reaction w result (.upload u) { answer := some (.service u, replyOk) }
  | urls : Reaction w result (.service .urls) { calls := [(.upload .text, w.updated result)] }
  | followers : Reaction w result .getFollowers (w.fanOut result)

/-- A reaction counts, passes a reply on, or makes calls. -/
theorem reaction_cases {result : Str} (h : w.reaction result t = some sc) :
    Reaction w result t sc := by
  -- these calls are made without a handler of their reply
  match t with
  | .compose | .service .userMentions | .upload .urls => cases h
  | .service .urls =>
    cases h
    exact .urls
  | .service .text | .service .media | .service .creator | .service .uniqueId =>
    cases h
    exact .tally rfl
  | .upload .text | .upload .media | .upload .creator | .upload .uniqueId
  | .upload .userMentions =>
    cases h
    exact .upload (by decide)
  | .storePost | .writeHomeTimeline | .writeUserTimeline 0 | .writeUserTimeline (_ + 1) =>
    cases h
    exact .tally rfl
  | .getFollowers =>
    cases h
    exact .followers

/-- `write_home_timeline` does not answer where it calls `write_user_timeline`. -/
theorem not_answers_fanOut {result : Str} : ¬Answers (w.fanOut result) t := by
  unfold PostFlow.fanOut
  split
  · rintro ⟨r, h | h⟩
    · cases h
    · cases h
  · exact answers_nil

/-- The compose join makes no calls of its own. -/
theorem calls_script {u : Upload} (p : CallPhase) : (p.script u).calls = [] := by
  cases p <;> rfl

theorem calls_process {i : ℕ} (p : Process) : (p.script i).calls = [] := by
  unfold Process.script
  split
  · rfl
  · split <;> rfl

theorem calls_tally {result : Str} {c : Counter} : (w.tally result c).calls = [] := by
  unfold PostFlow.tally
  split <;> rfl

/-- `compose` counts the services it waits for. -/
theorem counter_service {u : Upload} {c : Counter} (h : (PostTask.service u).counter = some c) :
    u.awaited = true ∧ c = .compose := by
  rw [PostTask.counter] at h
  split at h
  · next hu =>
    cases h
    exact ⟨hu, rfl⟩
  · cases h

/-- What the tasks of a counter are. -/
theorem counter_eq {c : Counter} (h : t.counter = some c) :
    match c with
    | .compose => ∃ u : Upload, u.awaited = true ∧ t = .service u
    | .uploadPost => t = .storePost ∨ t = .writeHomeTimeline ∨ t = .writeUserTimeline 0
    | .writeHomeTimeline => ∃ i, t = .writeUserTimeline (i + 1) := by
  -- each counter counts the replies of its own calls
  match t with
  | .service u =>
    obtain ⟨hu, rfl⟩ := counter_service h
    exact ⟨u, hu, rfl⟩
  | .storePost | .writeHomeTimeline | .writeUserTimeline 0 =>
    cases h
    simp
  | .writeUserTimeline (i + 1) =>
    cases h
    exact ⟨i, rfl⟩
  | .compose | .upload _ | .getFollowers => cases h

/-- A call of the compose join answers for itself. -/
theorem answers_script {u : Upload} {phase : CallPhase} (h : Answers (phase.script u) t) :
    t = .upload u := by
  cases phase with
  | replied => exact answers_one h
  | failed => exact answers_one h
  | _ => exact absurd h answers_nil

theorem answers_process {i : ℕ} {p : Process} (h : Answers (p.script i) t) :
    t = .writeUserTimeline i := by
  unfold Process.script at h
  split at h
  · exact answers_one h
  · split at h
    · exact answers_one h
    · exact absurd h answers_nil
    · exact absurd h answers_nil

/-- `upload_post` throws for the call that entered it. -/
theorem answers_uploadPost {u : Upload} {values : List Str}
    (h : Answers (q.uploadPost u values) t) : t = .upload u := by
  unfold PostRequest.uploadPost at h
  split at h
  · obtain ⟨r, h | h⟩ := h
    · cases h
    · cases h
      rfl
  · exact absurd h answers_nil

theorem calledBy_uploadPost {u : Upload} {values : List Str} {o : Option JsString}
    (h : (t, o) ∈ (q.uploadPost u values).calls) : calledBy t (.post u) := by
  unfold PostRequest.uploadPost at h
  split at h
  · simp only [List.mem_cons, List.not_mem_nil, or_false, Prod.mk.injEq] at h
    rcases h with ⟨rfl, -⟩ | ⟨rfl, -⟩ | ⟨rfl, -⟩ <;> exact ⟨u, rfl⟩
  · cases h

/-- **Who calls a task.** A step that calls a task is the one that `calledBy` names; the
cases are the labels, and all but four of them call nothing. -/
theorem caller {o : Option JsString} (h : w.effect q l = some (x, sc)) (hc : (t, o) ∈ sc.calls) :
    calledBy t l := by
  cases l with
  | run t' =>
    obtain ⟨args, -, -, -, rfl⟩ := PostFlow.effect_run h
    exact calledBy_body hc
  -- accesses to a database call nothing
  | lookup =>
    obtain ⟨-, -, -, -, -, -, -, ⟨-, -, -, rfl⟩ | ⟨-, rfl⟩⟩ := PostFlow.effect_lookup h
    · cases hc
    · cases hc
  | mentions =>
    obtain ⟨names, -, -, -, -, -, rfl⟩ := PostFlow.effect_mentions h
    simp only [relay, List.mem_singleton, Prod.mk.injEq] at hc
    obtain ⟨rfl, -⟩ := hc
    rfl
  | join l =>
    obtain ⟨u, r, -, -, -, -, rfl⟩ := PostFlow.effect_join h
    rw [calls_script] at hc
    cases hc
  | post u =>
    obtain ⟨values, -, -, -, -, -, rfl⟩ := PostFlow.effect_post h
    exact calledBy_uploadPost hc
  | store rand ok =>
    obtain ⟨-, -, -, -, -, -, -, -, rfl⟩ := PostFlow.effect_store h
    cases hc
  | followers =>
    obtain ⟨-, -, text, rfl⟩ := PostFlow.effect_followers h
    cases hc
  | timeline l =>
    obtain ⟨i, r, -, -, -, -, rfl⟩ := PostFlow.effect_timeline h
    rw [calls_process] at hc
    cases hc
  -- of the callbacks, that of the URLs makes a call, and that of the followers one for each
  | handle t' =>
    obtain ⟨result, -, hreaction, -, -⟩ := PostFlow.effect_handle h
    cases reaction_cases hreaction with
    | tally =>
      rw [calls_tally] at hc
      cases hc
    | upload => cases hc
    | urls =>
      simp only [List.mem_singleton, Prod.mk.injEq] at hc
      obtain ⟨rfl, -⟩ := hc
      rfl
    | followers =>
      unfold PostFlow.fanOut at hc
      split at hc
      · obtain ⟨y, -, hy⟩ := List.mem_map.1 hc
        obtain rfl := (Prod.mk.inj hy).1.symm
        rfl
      · cases hc

/-- **Who answers a task.** A step that answers a task is one that `answeredBy` names.
The cases are the labels again. -/
theorem answerer (h : w.effect q l = some (x, sc)) (ha : Answers sc t) : answeredBy t l := by
  cases l with
  | run t' =>
    obtain ⟨args, -, -, -, rfl⟩ := PostFlow.effect_run h
    have ht := answers_body ha
    subst ht
    cases t with
    | getFollowers => exact absurd ha answers_nil
    | _ => exact .inl rfl
  | lookup =>
    obtain ⟨-, -, -, -, -, -, -, ⟨-, -, -, rfl⟩ | ⟨-, rfl⟩⟩ := PostFlow.effect_lookup h
    · exact absurd ha answers_nil
    · obtain rfl := answers_one ha
      exact .inr (.inr ⟨rfl, .inl rfl⟩)
  | mentions =>
    obtain ⟨names, -, -, -, -, -, rfl⟩ := PostFlow.effect_mentions h
    obtain rfl := answers_relay ha
    exact .inr (.inr ⟨rfl, .inr rfl⟩)
  | join l =>
    obtain ⟨u, r, hu, -, -, -, rfl⟩ := PostFlow.effect_join h
    obtain rfl := answers_script ha
    exact .inr (.inl ⟨l, hu, rfl⟩)
  | post u =>
    obtain ⟨values, -, -, -, -, -, rfl⟩ := PostFlow.effect_post h
    obtain rfl := answers_uploadPost ha
    exact .inr (.inr (.inl rfl))
  | store rand ok =>
    obtain ⟨-, -, -, -, -, -, -, -, rfl⟩ := PostFlow.effect_store h
    obtain rfl := answers_one ha
    exact .inr ⟨rand, ok, rfl⟩
  | followers =>
    obtain ⟨-, -, text, rfl⟩ := PostFlow.effect_followers h
    obtain rfl := answers_one ha
    rfl
  | timeline l =>
    obtain ⟨i, r, hi, -, -, -, rfl⟩ := PostFlow.effect_timeline h
    obtain rfl := answers_process ha
    exact .inr ⟨l, hi, rfl⟩
  -- a callback answers for the function that made the call, by way of its counter
  | handle t' =>
    obtain ⟨result, -, hreaction, -, -⟩ := PostFlow.effect_handle h
    cases reaction_cases hreaction with
    | @tally t' c hc =>
      obtain ⟨-, r, hr⟩ := answers_tally ha
      have hcounter := counter_eq hc
      cases c with
      | compose =>
        obtain ⟨u, hu, rfl⟩ := hcounter
        obtain ⟨text, -, hr⟩ := Option.map_eq_some_iff.1 hr
        obtain rfl := (Prod.mk.inj hr).1
        exact .inr ⟨u, hu, rfl⟩
      | uploadPost =>
        simp only [PostFlow.answer, Option.bind_eq_bind, Option.bind_eq_some_iff] at hr
        obtain ⟨u, -, text, -, hr⟩ := hr
        obtain rfl := (Prod.mk.inj (Option.some.inj hr)).1
        exact .inr (.inr (.inr ⟨t', hc, rfl⟩))
      | writeHomeTimeline =>
        obtain ⟨i, rfl⟩ := hcounter
        obtain rfl := (Prod.mk.inj (Option.some.inj hr)).1
        exact .inr ⟨i, rfl⟩
    | upload =>
      obtain rfl := answers_one ha
      exact .inr (.inl rfl)
    | urls =>
      obtain ⟨r, ha | ha⟩ := ha <;> cases ha
    | followers => exact absurd ha not_answers_fanOut

end Scripts

/-! ### Order -/

namespace PostFlow

/-- The caller of a task has got to where it calls it. -/
def Caused (w : PostFlow) : PostTask → Prop
  | .compose => True
  | .service .urls | .service .userMentions => w.calls.ran (.service .text) = true
  | .service _ => w.calls.ran .compose = true
  | .upload .text => .service .urls ∈ w.calls.handled
  | .upload u => w.calls.ran (.service u) = true
  | .storePost | .writeHomeTimeline | .writeUserTimeline 0 => w.poster.isSome
  | .getFollowers => w.calls.ran .writeHomeTimeline = true
  | .writeUserTimeline (_ + 1) => .getFollowers ∈ w.calls.handled

/-- **The order of a run.** What is handled was replied to, what was replied to has run,
what has run was called, and what was called was called by a caller that had got there.
Nothing is handled twice, and who enters `upload_post` has run. -/
structure Ordered (w : PostFlow) : Prop where
  called : ∀ t, w.calls.ran t = true → (w.calls.arg t).isSome
  ran : ∀ t, (w.calls.reply t).isSome → w.calls.ran t = true
  replied : ∀ t ∈ w.calls.handled, (w.calls.reply t).isSome
  nodup : w.calls.handled.Nodup
  caused : ∀ t, (w.calls.arg t).isSome → w.Caused t
  poster : ∀ u, w.poster = some u → w.calls.ran (.upload u) = true

end PostFlow

/-- Running or handling a task changes neither what it was called with nor its reply. -/
@[simp] theorem note_arg (calls : PostCalls) (l : PostLabel) : (l.note calls).arg = calls.arg := by
  cases l <;> rfl

@[simp] theorem note_reply (calls : PostCalls) (l : PostLabel) :
    (l.note calls).reply = calls.reply := by
  cases l <;> rfl

/-- A task has run if it had, or runs in this step. -/
theorem note_ran (calls : PostCalls) (l : PostLabel) (t : PostTask) :
    (l.note calls).ran t = true ↔ calls.ran t = true ∨ l = .run t := by
  cases l with
  | run t' =>
    by_cases ht : t = t'
    · subst ht
      simp [PostLabel.note, Calls.State.run]
    · have ht' : t' ≠ t := fun heq => ht heq.symm
      simp [PostLabel.note, Calls.State.run, Function.update_of_ne ht, ht']
  | _ => simp [PostLabel.note, Calls.State.handle]

/-- A reply is handled if it was, or is handled in this step. -/
theorem note_handled (calls : PostCalls) (l : PostLabel) (t : PostTask) :
    t ∈ (l.note calls).handled ↔ t ∈ calls.handled ∨ l = .handle t := by
  cases l with
  | handle t' => simp [PostLabel.note, Calls.State.handle, eq_comm]
  | _ => simp [PostLabel.note, Calls.State.run]

namespace PostFlow

variable {q : PostRequest} {w x w' : PostFlow} {sc : PostScript} {l : PostLabel} {t : PostTask}

/-- The variables that a step may change: each belongs to one kind of step, and all
other steps leave it alone. -/
theorem effect_frame (h : w.effect q l = some (x, sc)) :
    (x.phase = w.phase ∨ ∃ l', l = .join l') ∧
      ((x.count = w.count ∧ x.all = w.all) ∨ ∃ t, l = .handle t) ∧
      (x.userids = w.userids ∨ l = .lookup) ∧ (x.poster = w.poster ∨ ∃ u, l = .post u) ∧
      (x.write = w.write ∨ ∃ l', l = .timeline l') := by
  -- in each case the effect says which variable it is
  cases l with
  | run t =>
    obtain ⟨-, -, -, rfl, -⟩ := effect_run h
    simp
  | lookup =>
    obtain ⟨-, -, -, -, -, -, -, ⟨-, -, rfl, -⟩ | ⟨rfl, -⟩⟩ := effect_lookup h
    · simp
    · simp
  | mentions =>
    obtain ⟨-, -, -, -, -, rfl, -⟩ := effect_mentions h
    simp
  | join l =>
    obtain ⟨-, -, -, -, -, rfl, -⟩ := effect_join h
    simp
  | post u =>
    obtain ⟨-, -, -, -, -, rfl, -⟩ := effect_post h
    simp
  | store rand ok =>
    obtain ⟨-, -, -, -, -, -, -, rfl, -⟩ := effect_store h
    simp
  | followers =>
    obtain ⟨-, rfl, -⟩ := effect_followers h
    simp
  | timeline l =>
    obtain ⟨-, -, -, -, -, rfl, -⟩ := effect_timeline h
    simp
  | handle t =>
    obtain ⟨-, -, -, -, rfl⟩ := effect_handle h
    simp

/-- `upload_post` is entered once, by a call that is running. -/
theorem effect_poster (h : w.effect q l = some (x, sc)) :
    x.poster = w.poster ∨ ∃ u, l = .post u ∧ w.poster = none ∧ w.active (.upload u) = true ∧
      x.poster = some u := by
  obtain ⟨-, -, -, hsame | ⟨u, rfl⟩, -⟩ := effect_frame h
  · exact .inl hsame
  · obtain ⟨-, -, hactive, hnone, -, rfl, -⟩ := effect_post h
    exact .inr ⟨u, rfl, hnone, hactive, rfl⟩

/-- A counter's goal is reached by the last of its tasks. -/
theorem answers_handle {u : Upload} (h : w.effect q (.handle t) = some (x, sc))
    (hc : t.counter = some .uploadPost) (ha : Answers sc (.upload u)) :
    w.poster = some u ∧ w.count .uploadPost + 1 = 3 := by
  obtain ⟨result, -, hreaction, -, -⟩ := effect_handle h
  -- only a reaction that counts can answer the call that posts
  cases reaction_cases hreaction with
  | @tally t c hc' =>
    obtain rfl := Option.some.inj (hc'.symm.trans hc)
    obtain ⟨hgoal, r, hr⟩ := answers_tally ha
    simp only [answer, Option.bind_eq_bind, Option.bind_eq_some_iff] at hr
    obtain ⟨v, hposter, text, -, hr⟩ := hr
    obtain rfl := PostTask.upload.inj (Prod.mk.inj (Option.some.inj hr)).1
    exact ⟨hposter, Option.some.inj hgoal⟩
  | upload | urls | followers => cases hc

/-- A function is running from when it runs until it has been replied to. -/
theorem active_iff : w.active t = true ↔ w.calls.ran t = true ∧ w.calls.reply t = none := by
  simp [active]

/-- The place a step calls a task from is reached with that step. -/
theorem caused_of_calledBy (h : w.effect q l = some (x, sc)) (hc : calledBy t l) :
    ({ x with calls := (l.note w.calls).exec sc } : PostFlow).Caused t := by
  have hran : ∀ t', l = .run t' → ((l.note w.calls).exec sc).ran t' = true := fun t' hl => by
    rw [Calls.State.exec_ran, note_ran]
    exact .inr hl
  have hhandled : ∀ t', l = .handle t' → t' ∈ ((l.note w.calls).exec sc).handled := fun t' hl => by
    rw [Calls.State.exec_handled, note_handled]
    exact .inr hl
  have hposter : (∃ u, l = .post u) → x.poster.isSome := by
    rintro ⟨u, rfl⟩
    obtain ⟨-, -, -, -, -, rfl, -⟩ := effect_post h
    rfl
  -- the place is a function that runs, a reply that is handled, or `upload_post`
  match t with
  | .compose => trivial
  | .service .urls | .service .userMentions => exact hran _ hc
  | .service .text | .service .media | .service .creator | .service .uniqueId => exact hran _ hc
  | .upload .text => exact hhandled _ hc
  | .upload .userMentions =>
    obtain rfl : l = .mentions := hc
    obtain ⟨-, -, hactive, -⟩ := effect_mentions h
    show ((PostLabel.mentions.note w.calls).exec sc).ran (.service .userMentions) = true
    rw [Calls.State.exec_ran, note_ran]
    exact .inl (active_iff.1 hactive).1
  | .upload .media | .upload .urls | .upload .creator | .upload .uniqueId => exact hran _ hc
  | .storePost | .writeHomeTimeline | .writeUserTimeline 0 => exact hposter hc
  | .getFollowers => exact hran _ hc
  | .writeUserTimeline (_ + 1) => exact hhandled _ hc

/-- Before that step it has not been reached, and the task has not been called. So no
task is called twice. -/
theorem Ordered.not_called (ho : w.Ordered) (h : w.effect q l = some (x, sc))
    (hc : calledBy t l) : w.calls.arg t = none := by
  by_contra hne
  have hcaused := ho.caused t (Option.ne_none_iff_isSome.1 hne)
  -- each of the places is reached by a step that is made once
  have hrun : ∀ t', l = .run t' → w.calls.ran t' ≠ true := by
    rintro t' rfl
    obtain ⟨-, -, hran, -⟩ := effect_run h
    simp [hran]
  have hhandle : ∀ t', l = .handle t' → t' ∉ w.calls.handled := by
    rintro t' rfl
    obtain ⟨-, -, -, hnot, -⟩ := effect_handle h
    exact hnot
  have hpost : (∃ u, l = .post u) → ¬w.poster.isSome := by
    rintro ⟨u, rfl⟩
    obtain ⟨-, -, -, hnone, -⟩ := effect_post h
    simp [hnone]
  match t with
  | .compose => exact hc
  | .service .urls | .service .userMentions => exact hrun _ hc hcaused
  | .service .text | .service .media | .service .creator | .service .uniqueId =>
    exact hrun _ hc hcaused
  | .upload .text => exact hhandle _ hc hcaused
  | .upload .userMentions =>
    obtain rfl : l = .mentions := hc
    obtain ⟨-, -, -, hnone, -⟩ := effect_mentions h
    exact hne hnone
  | .upload .media | .upload .urls | .upload .creator | .upload .uniqueId =>
    exact hrun _ hc hcaused
  | .storePost | .writeHomeTimeline | .writeUserTimeline 0 => exact hpost hc hcaused
  | .getFollowers => exact hrun _ hc hcaused
  | .writeUserTimeline (_ + 1) => exact hhandle _ hc hcaused

/-- A place that has been reached stays reached: nothing that has run, or has been
handled, is taken back. -/
theorem Caused.step (hcaused : w.Caused t) (h : w.effect q l = some (x, sc)) :
    ({ x with calls := (l.note w.calls).exec sc } : PostFlow).Caused t := by
  have hran : ∀ t', w.calls.ran t' = true → ((l.note w.calls).exec sc).ran t' = true :=
    fun t' ht' => by
      rw [Calls.State.exec_ran, note_ran]
      exact .inl ht'
  have hhandled : ∀ t', t' ∈ w.calls.handled → t' ∈ ((l.note w.calls).exec sc).handled :=
    fun t' ht' => by
      rw [Calls.State.exec_handled, note_handled]
      exact .inl ht'
  have hposter : w.poster.isSome → x.poster.isSome := by
    intro hsome
    rcases effect_poster h with hsame | ⟨u, -, -, -, hu⟩
    · rwa [hsame]
    · rw [hu]
      rfl
  -- what caused the call is a run, a handled reply or the post, and none is ever taken
  -- back
  match t with
  | .compose => trivial
  | .service .urls | .service .userMentions => exact hran _ hcaused
  | .service .text | .service .media | .service .creator | .service .uniqueId =>
    exact hran _ hcaused
  | .upload .text => exact hhandled _ hcaused
  | .upload .userMentions | .upload .media | .upload .urls | .upload .creator
  | .upload .uniqueId => exact hran _ hcaused
  | .storePost | .writeHomeTimeline | .writeUserTimeline 0 => exact hposter hcaused
  | .getFollowers => exact hran _ hcaused
  | .writeUserTimeline (_ + 1) => exact hhandled _ hcaused

/-- A task whose reply has been made was called from a place that had been reached. -/
theorem Ordered.caused_of_reply (ho : w.Ordered) (h : (w.calls.reply t).isSome) : w.Caused t :=
  ho.caused t (ho.called t (ho.ran t h))

/-- So was one whose reply has been handled. -/
theorem Ordered.caused_of_handled (ho : w.Ordered) (h : t ∈ w.calls.handled) : w.Caused t :=
  ho.caused_of_reply (ho.replied t h)

/-- What a step answers has run, since the step itself runs it, or it is active, or its
reply comes from a task that it has called. -/
theorem Ordered.ran_of_answers (ho : w.Ordered) (h : w.effect q l = some (x, sc))
    (ha : Answers sc t) : (l.note w.calls).ran t = true := by
  rw [note_ran]
  have hby := answerer h ha
  have hreply : ∀ t', l = .handle t' → (w.calls.reply t').isSome := by
    rintro t' rfl
    obtain ⟨result, hresult, -⟩ := effect_handle h
    rw [hresult]
    rfl
  -- who may answer the task, and why it has run by then
  match t with
  | .compose =>
    rcases hby with rfl | ⟨u, hu, rfl⟩
    · exact .inr rfl
    · -- the service that has replied was called by `compose`
      have hcaused := ho.caused_of_reply (hreply _ rfl)
      cases u <;> first | exact .inl hcaused | cases hu
  | .service u =>
    rcases hby with rfl | rfl | ⟨rfl, rfl | rfl⟩
    · exact .inr rfl
    · -- the call that has returned was made by the service
      have hcaused := ho.caused_of_reply (hreply _ rfl)
      cases u with
      | text => exact .inl (ho.caused_of_handled hcaused)
      | _ => exact .inl hcaused
    · obtain ⟨-, -, -, -, -, -, hactive, -⟩ := effect_lookup h
      exact .inl (active_iff.1 hactive).1
    · obtain ⟨-, -, hactive, -⟩ := effect_mentions h
      exact .inl (active_iff.1 hactive).1
  | .upload u =>
    rcases hby with rfl | ⟨l', hl', rfl⟩ | rfl | ⟨t', hc, rfl⟩
    · exact .inr rfl
    · obtain ⟨v, r, hv, -, hactive, -⟩ := effect_join h
      obtain rfl := Option.some.inj (hv.symm.trans hl')
      exact .inl (active_iff.1 hactive).1
    · obtain ⟨-, -, hactive, -⟩ := effect_post h
      exact .inl (active_iff.1 hactive).1
    · exact .inl (ho.poster u (answers_handle h hc ha).1)
  | .storePost =>
    rcases hby with rfl | ⟨rand, ok, rfl⟩
    · exact .inr rfl
    · obtain ⟨-, -, -, -, -, -, hactive, -⟩ := effect_store h
      exact .inl (active_iff.1 hactive).1
  | .writeHomeTimeline =>
    rcases hby with rfl | ⟨i, rfl⟩
    · exact .inr rfl
    · -- it was called once `write_home_timeline` had its followers
      have hfollowers : w.Caused (.writeUserTimeline (i + 1)) := ho.caused_of_reply (hreply _ rfl)
      exact .inl (ho.caused_of_handled hfollowers)
  | .getFollowers =>
    obtain rfl : l = .followers := hby
    obtain ⟨hactive, -⟩ := effect_followers h
    exact .inl (active_iff.1 hactive).1
  | .writeUserTimeline i =>
    rcases hby with rfl | ⟨l', hl', rfl⟩
    · exact .inr rfl
    · obtain ⟨j, r, hj, -, hactive, -⟩ := effect_timeline h
      obtain rfl := Option.some.inj (hj.symm.trans hl')
      exact .inl (active_iff.1 hactive).1

/-- Calls stay as they were made. -/
theorem Ordered.arg_of_some (ho : w.Ordered) (h : w.effect q l = some (x, sc)) {args : JsString}
    (ht : w.calls.arg t = some args) : ((l.note w.calls).exec sc).arg t = some args := by
  apply Calls.State.arg_exec_of_some
  · rintro ⟨t', o⟩ hc
    rw [note_arg]
    exact ho.not_called h (caller h hc)
  · rwa [note_arg]

/-- A reply that a step makes, it answers. -/
theorem answers_of_reply {r : Str} (hr : ((l.note w.calls).exec sc).reply t = some r) :
    w.calls.reply t = some r ∨ (sc.Completes ∧ sc.answer = some (t, r)) ∨
      (¬sc.Completes ∧ sc.thrown = some (t, r)) := by
  have h := Calls.State.reply_exec hr
  rwa [note_reply] at h

/-- A reply that is there after a step was there before, or the step answers. -/
theorem reply_or_answers (h : (((l.note w.calls).exec sc).reply t).isSome) :
    (w.calls.reply t).isSome ∨ Answers sc t := by
  obtain ⟨r, hr⟩ := Option.isSome_iff_exists.1 h
  rcases answers_of_reply hr with hold | ⟨-, hanswer⟩ | ⟨-, hthrown⟩
  · exact .inl (by rw [hold]; rfl)
  · exact .inr ⟨r, .inl hanswer⟩
  · exact .inr ⟨r, .inr hthrown⟩

/-- A step keeps the order. What is called was not called before, so no argument
changes; what is answered has run; what is handled had been replied to. -/
theorem Ordered.step (ho : w.Ordered) (hs : w.exec q l = some w') : w'.Ordered := by
  obtain ⟨x, sc, h, rfl⟩ := exec_eq_some.1 hs
  refine ⟨?_, ?_, ?_, ?_, ?_, ?_⟩
  -- `called`
  · intro t ht
    rw [Calls.State.exec_ran, note_ran] at ht
    have hsome : (w.calls.arg t).isSome := by
      rcases ht with ht | rfl
      · exact ho.called t ht
      · obtain ⟨args, hargs, -⟩ := effect_run h
        rw [hargs]
        rfl
    obtain ⟨args, hargs⟩ := Option.isSome_iff_exists.1 hsome
    rw [ho.arg_of_some h hargs]
    rfl
  -- `ran`
  · intro t ht
    rw [Calls.State.exec_ran]
    rcases reply_or_answers ht with hold | hanswers
    · rw [note_ran]
      exact .inl (ho.ran t hold)
    · exact ho.ran_of_answers h hanswers
  -- `replied`: a reply is there when it is handled, and stays
  · intro t ht
    rw [Calls.State.exec_handled, note_handled] at ht
    apply Calls.State.isSome_reply_exec
    rw [note_reply]
    rcases ht with ht | rfl
    · exact ho.replied t ht
    · obtain ⟨result, hresult, -⟩ := effect_handle h
      rw [hresult]
      rfl
  -- `nodup`: a reply is handled once
  · rw [Calls.State.exec_handled]
    cases l with
    | handle t =>
      obtain ⟨-, -, -, hnot, -⟩ := effect_handle h
      exact List.nodup_append.2 ⟨ho.nodup, List.nodup_singleton t, by
        rintro a ha b hb rfl
        exact hnot (List.mem_singleton.1 hb ▸ ha)⟩
    | _ => exact ho.nodup
  -- `caused`: a new call is made from a place that the step reaches
  · intro t ht
    obtain ⟨args, hargs⟩ := Option.isSome_iff_exists.1 ht
    rcases Calls.State.arg_exec hargs with hold | hnew
    · rw [note_arg] at hold
      exact (ho.caused t (by rw [hold]; rfl)).step h
    · exact caused_of_calledBy h (caller h hnew)
  -- `poster`: only a call that runs enters `upload_post`
  · intro u hu
    rw [Calls.State.exec_ran, note_ran]
    rcases effect_poster h with hsame | ⟨v, -, -, hactive, hv⟩
    · exact .inl (ho.poster u (hsame.symm.trans hu))
    · obtain rfl := Option.some.inj (hv.symm.trans hu)
      exact .inl (active_iff.1 hactive).1

end PostFlow

end Nanoservices
