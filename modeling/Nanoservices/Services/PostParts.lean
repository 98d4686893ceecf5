import Nanoservices.Services.PostWaits

/-!
# What the workflow carries

The services hand strings to each other: what `compose` cuts out of the form comes back,
part by part, in `upload_post`, and from there goes into the stored post and the
timelines. `Expected` says what a task is called with, `ExpectedPart` what a call of
`compose_post_service.js` brings.

The functions and reactions keep to it (`expected_body`, `expected_uploadPost`), and
what `upload_post` has read are the parts the calls have brought (`uploading_values`,
from the compose join). So all calls of a run are as expected (`carries`).
-/

namespace Nanoservices

open Utf16 Json Lts

/-! ### Strings -/

/-- The names a text mentions. -/
def Form.mentions (f : Form) : List Str := (matchAll mentionLength f.text).map (List.drop 1)

/-- The entry of the timelines. -/
def PostRequest.post (q : PostRequest) (form : Form) : Post := ⟨form.userid, q.timestamp, q.postId⟩

/-- The user id of a name, as `upload_user_mentions` finds it. -/
def PostRequest.userid (q : PostRequest) (dbs : DbMap) (name : Str) : Option Str :=
  (dbGet dbs "user_mention_service.js" (keyOf q.platform name)).bind ab2str

/-- These are the user ids of the names that the text mentions. -/
def Found (q : PostRequest) (form : Form) (dbs : DbMap) (ids : List Str) : Prop :=
  ids.map some = form.mentions.map (q.userid dbs)

/-- A part as it should be stored. Of the creator and the mentions, which are texts of
objects, only what is read again matters; the type of the post, the media and the list
of URLs are handed on without being read. -/
def ExpectedPart (q : PostRequest) (form : Form) (dbs : DbMap) : Part → Str → Prop
  | .text, s => s = shortened q.random form.text
  | .postId, s => s = q.postId
  | .creator, s => parseField "user_id" s = some form.userid
  | .mentions, s => ∃ ids, mentionsUserids s = some ids ∧ Found q form dbs ids
  | .postType, _ | .media, _ | .urls, _ => True

/-- The argument of `write_home_timeline`: the post, and the mentions. -/
def homeObject (q : PostRequest) (form : Form) (mentions : Str) : Value :=
  .obj [(lit "user_id", .str form.userid), (lit "timestamp", .num q.timestamp),
    (lit "post_id", .str q.postId), (lit "mentions", .str mentions)]

/-- An argument with which a task should be called. What is not used on the way to the
stored post and the timelines is left open. -/
def Expected (q : PostRequest) (form : Form) (dbs : DbMap) : PostTask → JsString → Prop
  | .compose, args => args = q.args
  | .service .text, args => args.1 = form.text
  | .service .creator, args => parse args.1 =
      some (.obj [(lit "user_id", .str form.userid), (lit "username", .str form.username)])
  | .service .urls, args => args.1 = stringify (matchValue (matchAll urlLength form.text))
  | .service .userMentions, args =>
    args.1 = stringify (matchValue (matchAll mentionLength form.text))
  | .service .uniqueId, _ | .service .media, _ => True
  | .upload u, args => ∀ part ∈ u.parts, ∀ v, uploadValue u args part = some v →
      ExpectedPart q form dbs part v.1
  | .storePost, args => parseField "text" args.1 = some (shortened q.random form.text) ∧
      parseField "post_id" args.1 = some q.postId
  | .writeHomeTimeline, args => ∃ mentions ids,
      stringifyJs (homeObject q form mentions) = some args ∧
        mentionsUserids mentions = some ids ∧ Found q form dbs ids
  | .getFollowers, _ => True
  | .writeUserTimeline 0, args => timelineArgs (q.post form) form.userid = some args
  | .writeUserTimeline (_ + 1), args => ∃ user_id, timelineArgs (q.post form) user_id = some args

section Scripts

variable {q : PostRequest} {form : Form} {dbs : DbMap} {t t' : PostTask} {args a : JsString}

/-- **The functions keep to it**: called with an argument as expected, a function calls
others as expected. The cases are the functions, and in each the call is one of those
its body makes. -/
theorem expected_body (hcontent : parseField "content" q.args.1 = some form.body)
    (hplain : form.Plain) (ht : Expected q form dbs t args)
    (hc : (t', some a) ∈ (q.body args t).calls) : Expected q form dbs t' a := by
  match t with
  | .compose =>
    obtain rfl : args = q.args := ht
    simp only [PostRequest.body, PostRequest.compose, hcontent, Option.bind_some,
      parseForm_body hplain] at hc
    split at hc
    · simp only [List.mem_cons, List.not_mem_nil, or_false, Prod.mk.injEq] at hc
      rcases hc with ⟨rfl, -⟩ | ⟨rfl, ha⟩ | ⟨rfl, -⟩ | ⟨rfl, ha⟩
      · trivial
      · exact parse_of_stringifyJs ha.symm
      · trivial
      · exact jsString_eq ha.symm
    · cases hc
  | .service .uniqueId =>
    -- both parts go into one object, of which only the id is read again
    obtain ⟨rfl, ha⟩ := Prod.mk.inj (List.mem_singleton.1 hc)
    intro part hpart v hv
    obtain rfl | rfl : part = .postId ∨ part = .postType := by simpa [Upload.parts] using hpart
    · have hid : parseField "post_id" a.1 = some q.postId := by
        rw [parseField, parse_of_stringifyJs ha.symm]
        rfl
      rw [uploadValue, hid, Option.bind_some] at hv
      exact jsString_eq hv
    · trivial
  -- the object is taken apart and put together again, with the user id it had
  | .service .creator =>
    obtain ⟨rfl, ha⟩ := Prod.mk.inj (List.mem_singleton.1 hc)
    intro part hpart v hv
    obtain rfl : part = .creator := by simpa [Upload.parts] using hpart
    obtain rfl : a = v := Option.some.inj hv
    have hargs : parse args.1 = _ := ht
    rw [hargs] at ha
    show parseField "user_id" a.1 = some form.userid
    rw [parseField, parse_of_stringifyJs ha.symm]
    rfl
  | .service .media =>
    obtain ⟨rfl, -⟩ := Prod.mk.inj (List.mem_singleton.1 hc)
    intro part hpart v hv
    obtain rfl : part = .media := by simpa [Upload.parts] using hpart
    trivial
  -- the names and the URLs are those that are matched in the text
  | .service .text =>
    have hargs : args.1 = form.text := ht
    simp only [PostRequest.body, PostRequest.service, List.mem_cons, List.not_mem_nil, or_false,
      Prod.mk.injEq, hargs] at hc
    rcases hc with ⟨rfl, ha⟩ | ⟨rfl, ha⟩
    · exact jsString_eq ha.symm
    · exact jsString_eq ha.symm
  | .service .userMentions =>
    simp only [PostRequest.body, PostRequest.service] at hc
    split at hc <;> cases hc
  | .service .urls =>
    obtain ⟨rfl, -⟩ := Prod.mk.inj (List.mem_singleton.1 hc)
    intro part hpart v hv
    obtain rfl : part = .urls := by simpa [Upload.parts] using hpart
    trivial
  | .upload u =>
    simp only [PostRequest.body] at hc
    split at hc <;> cases hc
  | .storePost =>
    simp only [PostRequest.body] at hc
    split at hc <;> cases hc
  | .writeHomeTimeline =>
    obtain ⟨rfl, -⟩ := Prod.mk.inj (List.mem_singleton.1 hc)
    trivial
  | .getFollowers => cases hc
  | .writeUserTimeline i =>
    simp only [PostRequest.body] at hc
    split at hc <;> cases hc

/-- **So does `upload_post`**, with parts as expected: the object it stores has the text
and the id, and the calls for the timelines have the author, the time and the id. -/
theorem expected_uploadPost {u : Upload} {values : List Str} {value : Part → Str}
    (hvalues : values = readOrder.map value)
    (hparts : ∀ part, ExpectedPart q form dbs part (value part))
    (hc : (t, some a) ∈ (q.uploadPost u values).calls) : Expected q form dbs t a := by
  obtain rfl := hvalues
  obtain ⟨ids, hids, hfound⟩ := hparts .mentions
  have htext : value .text = shortened q.random form.text := hparts .text
  have hid : value .postId = q.postId := hparts .postId
  have hcreator : parseField "user_id" (value .creator) = some form.userid := hparts .creator
  simp only [readOrder, List.map_cons, List.map_nil, PostRequest.uploadPost, hcreator, htext, hid,
    Option.bind_some, List.mem_cons, List.not_mem_nil, or_false, Prod.mk.injEq] at hc
  -- `store_post`, the author's timeline and `write_home_timeline`, in the order of the
  -- calls
  rcases hc with ⟨rfl, ha⟩ | ⟨rfl, ha⟩ | ⟨rfl, ha⟩
  · have hparse := parse_of_stringifyJs ha.symm
    constructor
    · rw [parseField, hparse]
      rfl
    · rw [parseField, hparse]
      rfl
  · exact ha.symm
  · exact ⟨_, ids, ha.symm, hids, hfound⟩

/-- The list of the mentions, where there are any. -/
theorem mentionNames_matchValue {found : List Str} {names : List Str}
    (h : mentionNames (stringify (matchValue found)) = some names) :
    names = found.map (List.drop 1) := by
  unfold mentionNames matchValue at h
  split at h
  · rw [parseList, parse_stringify] at h
    cases h
  · rw [parseList_stringify] at h
    exact (Option.some.inj h).symm

/-- What `upload_urls` replies. -/
theorem urls_of_matchValue {found : List Str} {random : ℕ → ℕ → Fin 32} {ret : JsString}
    (h : (parseList (stringify (matchValue found))).bind (shortenedArgs random) = some ret) :
    shortenedArgs random found = some ret := by
  unfold matchValue at h
  split at h
  · rw [parseList, parse_stringify] at h
    cases h
  · rwa [parseList_stringify] at h

end Scripts

/-! ### What a call of `compose_post_service.js` has read -/

/-- The request is new: its keys in `compose_post_service.js` and the id of its post
have no entry, and its keys do not collide. Unique ids are what makes a request new;
that they are unique is another matter (`post_ids_unique_iff`). -/
structure PostRequest.New (q : PostRequest) (dbs₀ : DbMap) : Prop where
  noCollision : (q.composes fun _ => ⟨[], Nat.zero_le _⟩).NoCollision
  absent : ∃ m₀, Holds dbs₀ m₀ ∧
    (∀ part, m₀ (composeDb, keyOf q.platform (q.reqId ++ keySuffix part)) = none) ∧
    m₀ ("post_storage.js", keyOf q.platform q.postId) = none

/-- The tokens of the counter are not 0 and do not repeat. These are the hypotheses
under which the join is linearized. -/
def FreshCount (ls : List PostLabel) : Prop :=
  Optimistic.Fresh 0 (none : Option (UInt32 × List UInt8)) (countEvents () (joinLabels ls))

/-- Of a shorter run too. -/
theorem FreshCount.of_append {ls : List PostLabel} {l : PostLabel} (h : FreshCount (ls ++ [l])) :
    FreshCount ls := by
  rw [FreshCount, joinLabels, List.filterMap_append, countEvents_append] at h
  exact h.of_append

namespace PostFlow

variable {q : PostRequest} {w x w' : PostFlow} {sc : PostScript} {l : PostLabel} {t : PostTask}
  {dbs₀ : DbMap} {ls : List PostLabel} {form : Form}

/-- The compose join in a run of the workflow: the counter's events are linearized, and
the calls have stored what it counts. -/
theorem joined (hnew : q.New dbs₀) (h : Run (postFlow q dbs₀) ls w) (hfresh : FreshCount ls) :
    ∃ ls' m s, Optimistic.Linearized 0 (fun _ => nextCount) none (countEvents () ls') s ∧
      Joined (w.composes q) () ls' ⟨w.dbs, fun c => w.phase c.2⟩ m s := by
  obtain ⟨m₀, hm₀, habsent, -⟩ := hnew.absent
  have hvalue : ∀ part v, w.part part = some v →
      (w.part part).getD ⟨[], Nat.zero_le _⟩ = v := fun part v hv => by
    rw [hv, Option.getD_some]
  -- the steps of the six calls are a run of the join, with the values they will have
  -- brought
  obtain ⟨ls', hrun, hevents⟩ := join_run h hvalue
  have hfresh' : Optimistic.Fresh 0 (none : Option (UInt32 × List UInt8)) (countEvents () ls') :=
    hevents ▸ hfresh
  have hno : (w.composes q).NoCollision := hnew.noCollision
  obtain ⟨m, s, -, -, hj⟩ := Nanoservices.joined (r := ()) (fun _ _ _ => rfl) hno hm₀
    (fun _ part => habsent part) hrun hfresh'
  exact ⟨ls', m, s, Optimistic.linearized hj.sim.run hfresh', hj⟩

/-- No call of `compose_post_service.js` throws between its first step and
`upload_post`. -/
theorem not_failed (hnew : q.New dbs₀) (h : Run (postFlow q dbs₀) ls w) (hfresh : FreshCount ls)
    (u : Upload) : w.phase u ≠ .failed := by
  obtain ⟨ls', m, s, -, hj⟩ := joined hnew h hfresh
  exact hj.not_failed u

/-- **What `upload_post` has read** are the parts that the calls have brought: all of
them, since the counter let it in, and in the order of reading. Between the storing and
the reading no other request writes these keys. -/
theorem uploading_values (hnew : q.New dbs₀) (h : Run (postFlow q dbs₀) ls w)
    (hfresh : FreshCount ls) {u : Upload} {values : List Str}
    (hu : w.phase u = .uploading values) :
    (∀ part, (w.part part).isSome) ∧ values = (readOrder.take values.length).map fun part =>
      ((w.part part).getD ⟨[], Nat.zero_le _⟩).1 := by
  obtain ⟨ls', m, s, hlin, hj⟩ := joined hnew h hfresh
  obtain ⟨hlen, hvalues⟩ := hj.entered u values hu
  obtain ⟨hreplied, -⟩ := hj.sim.all_stored hlin hj.parts hlen (u := u)
    (fun heq => by cases hu.symm.trans heq)
    (by rw [show (⟨w.dbs, fun c => w.phase c.2⟩ : ComposeWorld Unit).phase ((), u) = _ from hu]
        rfl)
  -- a call that has left its loop has found all parts stored, so their calls have run
  refine ⟨fun part => ?_, hvalues⟩
  have hp := phases h
  have hmoved : w.phase part.owner ≠ .storing part.owner.parts := by
    by_cases hv : part.owner = u
    · rw [hv, hu]
      exact fun heq => by cases heq
    · rw [show w.phase part.owner = .replied from hreplied part.owner hv]
      exact fun heq => by cases heq
  have hran : w.calls.ran (.upload part.owner) = true := by
    by_contra hnot
    exact hmoved (hp.idle _ (Bool.eq_false_of_not_eq_true hnot))
  exact hp.parts part.owner hran (.inr hmoved) part (mem_parts.2 rfl)

/-! ### Runs -/

/-- **What the calls, replies and variables of a run hold**, of the form the request
came with.

* `arg`: every task has been called as expected;
* `urls`: `upload_urls` replies with the short URLs of the URLs in the text, or that it
  threw;
* `mentions`, `userids`: nobody writes the users' database, and the ids looked up so far
  are those of the names, in order;
* `all`: the recipients are the followers and then the mentioned users;
* `write`: the calls of `write_user_timeline` are those for `all`. -/
structure Carries (q : PostRequest) (form : Form) (dbs₀ : DbMap) (w : PostFlow) : Prop where
  arg : ∀ t args, w.calls.arg t = some args → Expected q form dbs₀ t args
  urls : ∀ r, w.calls.reply (.service .urls) = some r → r = replyError ∨
    ∃ ret, shortenedArgs q.random (matchAll urlLength form.text) = some ret ∧ r = ret.1
  mentions : w.dbs "user_mention_service.js" = dbs₀ "user_mention_service.js"
  userids : ∀ (i : ℕ) id, w.userids[i]? = some id →
    ∃ name, form.mentions[i]? = some name ∧ q.userid dbs₀ name = some id
  all : ∀ all, w.all = some all → ∃ followers ids, all = followers ++ ids ∧ Found q form dbs₀ ids
  /-- The calls of `write_user_timeline` are those for `all`. -/
  write : ∀ (i : ℕ) args, w.calls.arg (.writeUserTimeline (i + 1)) = some args →
    ∃ (all : List Str) (user_id : Str), w.all = some all ∧ all[i]? = some user_id ∧
      timelineArgs (q.post form) user_id = some args

namespace Carries

/-- The names that are looked up are those of the text. -/
theorem names_eq (hc : Carries q form dbs₀ w) {names : List Str} (h : w.names = some names) :
    names = form.mentions := by
  obtain ⟨args, hargs, hnames⟩ := Option.bind_eq_some_iff.1 h
  have hexpected : args.1 = _ := hc.arg _ _ hargs
  rw [hexpected] at hnames
  exact mentionNames_matchValue hnames

/-- Once all names have been looked up, these are their user ids. -/
theorem found (hc : Carries q form dbs₀ w) (h : form.mentions.length = w.userids.length) :
    Found q form dbs₀ w.userids := by
  apply List.ext_getElem?
  intro i
  rw [List.getElem?_map, List.getElem?_map]
  -- position by position; both lists have the same length
  cases hi : w.userids[i]? with
  | none =>
    have hlen := List.getElem?_eq_none_iff.1 hi
    rw [List.getElem?_eq_none (by omega)]
    rfl
  | some id =>
    obtain ⟨name, hname, hid⟩ := hc.userids i id hi
    rw [hname, Option.map_some, Option.map_some, hid]

/-- A part that has been brought. -/
theorem part (hc : Carries q form dbs₀ w) {part : Part} {v : JsString}
    (h : w.part part = some v) : ExpectedPart q form dbs₀ part v.1 := by
  obtain ⟨args, hargs, hv⟩ := Option.bind_eq_some_iff.1 h
  exact hc.arg _ _ hargs part (mem_parts.2 rfl) v hv

/-- What `write_home_timeline` has been called with. -/
theorem homeArgs (hc : Carries q form dbs₀ w) {post : Post} {mentions : Str}
    (h : w.homeArgs = some (post, mentions)) :
    post = q.post form ∧ ∃ ids, mentionsUserids mentions = some ids ∧ Found q form dbs₀ ids := by
  simp only [PostFlow.homeArgs, Option.bind_eq_bind, Option.bind_eq_some_iff] at h
  obtain ⟨args, hargs, obj, hobj, post', hpost, mentions', hmentions, heq⟩ := h
  obtain ⟨rfl, rfl⟩ := Prod.mk.inj (Option.some.inj heq)
  obtain ⟨mentions, ids, hargs', hids, hfound⟩ := hc.arg _ _ hargs
  obtain rfl := Option.some.inj (hobj.symm.trans (parse_of_stringifyJs hargs'))
  cases hpost
  cases hmentions
  exact ⟨rfl, ids, hids, hfound⟩

/-- `all` are the followers and the mentioned users. -/
theorem recipients (hc : Carries q form dbs₀ w) {result : Str} {all : List Str}
    (h : w.recipients result = some all) :
    ∃ followers ids, all = followers ++ ids ∧ Found q form dbs₀ ids := by
  simp only [PostFlow.recipients, Option.bind_eq_bind, Option.bind_eq_some_iff] at h
  obtain ⟨followers, -, ⟨post, mentions⟩, hhome, ids, hids, heq⟩ := h
  obtain rfl := Option.some.inj heq
  obtain ⟨-, ids', hids', hfound⟩ := hc.homeArgs hhome
  obtain rfl := Option.some.inj (hids.symm.trans hids')
  exact ⟨followers, ids, rfl, hfound⟩

/-- `updated_text` is the text with short URLs. -/
theorem updated (hc : Carries q form dbs₀ w) {result : Str} {v : JsString}
    (hresult : w.calls.reply (.service .urls) = some result) (h : w.updated result = some v) :
    v.1 = shortened q.random form.text := by
  simp only [PostFlow.updated, Option.bind_eq_bind, Option.bind_eq_some_iff] at h
  obtain ⟨val, hval, obj, hobj, h⟩ := h
  have htext : val.1 = form.text := hc.arg _ _ hval
  -- `update_text` reads the reply of `get_urls`: the error text, or the URLs and what
  -- they were shortened to
  rcases hc.urls result hresult with rfl | ⟨ret, hret, rfl⟩
  · -- `JSON.parse` throws on the reply of a function that threw
    have hnone : parse replyError = none := by decide
    rw [hnone] at hobj
    cases hobj
  · rw [parse_of_stringifyJs hret] at hobj
    obtain rfl := Option.some.inj hobj
    have hurls : ∀ found shorturls : List Str, Value.field (lit "urls")
        (.obj [(lit "urls", listValue found), (lit "shorturls", listValue shorturls)]) =
          some (.arr (found.map Item.toValue)) := fun _ _ => rfl
    have hshort : ∀ found shorturls : List Str, Value.field (lit "shorturls")
        (.obj [(lit "urls", listValue found), (lit "shorturls", listValue shorturls)]) =
          some (.arr (shorturls.map Item.toValue)) := fun _ _ => rfl
    simp only [htext, hurls, hshort, mapM_ofValue, Option.bind_some, List.take_length] at h
    exact jsString_eq h

/-- The reply of `upload_urls` of `url_shorten_service.js`. -/
theorem urls_body (hc : Carries q form dbs₀ w) {args : JsString} {r : Str}
    (hargs : w.calls.arg (.service .urls) = some args)
    (h : (q.body args (.service .urls)).answer = some (.service .urls, r)) :
    ∃ ret, shortenedArgs q.random (matchAll urlLength form.text) = some ret ∧ r = ret.1 := by
  obtain ⟨ret, hret, heq⟩ := Option.map_eq_some_iff.1 h
  have hexpected : args.1 = _ := hc.arg _ _ hargs
  rw [hexpected] at hret
  exact ⟨ret, urls_of_matchValue hret, (Prod.mk.inj heq).2.symm⟩

/-- **What a step calls** is as expected. The step is the one that makes the call, so by
`caller` there are four kinds: a function that runs, `upload_user_mentions` with its
ids, `upload_post` with the parts it has read, and a reply that is handled. -/
theorem expected (hc : Carries q form dbs₀ w) (hnew : q.New dbs₀)
    (hcontent : parseField "content" q.args.1 = some form.body) (hplain : form.Plain)
    (hr : Run (postFlow q dbs₀) ls w) (hfresh : FreshCount ls)
    (h : w.effect q l = some (x, sc)) {args : JsString} (hcall : (t, some args) ∈ sc.calls) :
    Expected q form dbs₀ t args := by
  cases l with
  | run t' =>
    obtain ⟨args', hargs, -, -, rfl⟩ := effect_run h
    exact expected_body hcontent hplain (hc.arg _ _ hargs) hcall
  | lookup =>
    obtain ⟨-, -, -, -, -, -, -, ⟨-, -, -, rfl⟩ | ⟨-, rfl⟩⟩ := effect_lookup h
    · cases hcall
    · cases hcall
  | mentions =>
    -- the ids are those found for the names, one for each
    obtain ⟨names, hnames, -, -, hlen, -, rfl⟩ := effect_mentions h
    obtain ⟨rfl, ha⟩ := Prod.mk.inj (List.mem_singleton.1 hcall)
    obtain ⟨text, htext, hargs⟩ := Option.bind_eq_some_iff.1 ha.symm
    rw [hc.names_eq hnames] at hlen
    intro part hpart v hv
    obtain rfl : part = .mentions := by simpa [Upload.parts] using hpart
    obtain rfl : args = v := Option.some.inj hv
    refine ⟨w.userids, ?_, hc.found hlen⟩
    rw [jsString_eq hargs]
    exact mentionsUserids_of_text htext
  | join l =>
    obtain ⟨u, r, -, -, -, -, rfl⟩ := effect_join h
    rw [calls_script] at hcall
    cases hcall
  | post u =>
    -- `upload_post` has read every part, as the uploads stored them
    obtain ⟨values, hvalues, -, -, hlen, -, rfl⟩ := effect_post h
    obtain ⟨hsome, heq⟩ := uploading_values hnew hr hfresh hvalues
    rw [hlen, List.take_length] at heq
    refine expected_uploadPost heq (fun part => ?_) hcall
    obtain ⟨v, hv⟩ := Option.isSome_iff_exists.1 (hsome part)
    rw [hv, Option.getD_some]
    exact hc.part hv
  | store rand ok =>
    obtain ⟨-, -, -, -, -, -, -, -, rfl⟩ := effect_store h
    cases hcall
  | followers =>
    obtain ⟨-, -, text, rfl⟩ := effect_followers h
    cases hcall
  | timeline l =>
    obtain ⟨i, r, -, -, -, -, rfl⟩ := effect_timeline h
    rw [calls_process] at hcall
    cases hcall
  | handle t' =>
    obtain ⟨result, hresult, hreaction, -, -⟩ := effect_handle h
    cases reaction_cases hreaction with
    | tally =>
      rw [calls_tally] at hcall
      cases hcall
    | upload => cases hcall
    | urls =>
      obtain ⟨rfl, ha⟩ := Prod.mk.inj (List.mem_singleton.1 hcall)
      intro part hpart v hv
      obtain rfl : part = .text := by simpa [Upload.parts] using hpart
      obtain rfl : args = v := Option.some.inj hv
      exact hc.updated hresult ha.symm
    | followers =>
      unfold fanOut at hcall
      split at hcall
      · next all post mentions _ hhome =>
        obtain ⟨y, -, heq⟩ := List.mem_map.1 hcall
        obtain ⟨rfl, ha⟩ := Prod.mk.inj heq
        obtain ⟨rfl, -⟩ := hc.homeArgs hhome
        exact ⟨y.1, ha⟩
      · cases hcall

end Carries

/-- `urls` after a step. -/
theorem Carries.urls_step (hc : Carries q form dbs₀ w) (h : w.effect q l = some (x, sc)) {r : Str}
    (hr : ((l.note w.calls).exec sc).reply (.service .urls) = some r) :
    r = replyError ∨
      ∃ ret, shortenedArgs q.random (matchAll urlLength form.text) = some ret ∧ r = ret.1 := by
  have hrun : Answers sc (.service .urls) → l = .run (.service .urls) := by
    intro ha
    rcases answerer h ha with hl | rfl | ⟨hu, -⟩
    · exact hl
    · -- nothing handles the reply of its call
      obtain ⟨result, -, hreaction, -⟩ := effect_handle h
      cases hreaction
    · cases hu
  -- only the function itself replies, with the short URLs or with the error text
  rcases answers_of_reply hr with hold | ⟨-, ha⟩ | ⟨-, ha⟩
  · exact hc.urls r hold
  · obtain rfl := hrun ⟨r, .inl ha⟩
    obtain ⟨args, hargs, -, -, rfl⟩ := effect_run h
    exact .inr (hc.urls_body hargs ha)
  · obtain rfl := hrun ⟨r, .inr ha⟩
    obtain ⟨args, -, -, -, rfl⟩ := effect_run h
    cases ha
    exact .inl rfl

/-- `userids` after a step: a `DBGet` adds the id of the next name. -/
theorem Carries.userids_step (hc : Carries q form dbs₀ w) (h : w.effect q l = some (x, sc)) {i : ℕ}
    {id : Str} (hi : x.userids[i]? = some id) :
    ∃ name, form.mentions[i]? = some name ∧ q.userid dbs₀ name = some id := by
  obtain ⟨-, -, hsame | rfl, -⟩ := effect_frame h
  · rw [hsame] at hi
    exact hc.userids i id hi
  · obtain ⟨names, name, buf, hnames, hname, hbuf, -, ⟨userid, hstr, rfl, -⟩ | ⟨rfl, -⟩⟩ :=
      effect_lookup h
    · rw [hc.names_eq hnames] at hname
      -- an id that was there, or the one the lookup has just appended
      rw [List.getElem?_append] at hi
      split at hi
      · exact hc.userids i id hi
      · obtain ⟨hlt, rfl⟩ := List.getElem?_eq_some_iff.1 hi
        obtain rfl : i = w.userids.length := by
          rw [List.length_singleton] at hlt
          omega
        refine ⟨name, hname, ?_⟩
        have hbuf' : dbGet dbs₀ "user_mention_service.js" (keyOf q.platform name) = some buf := by
          rw [← hbuf, dbGet_congr hc.mentions]
        rw [PostRequest.userid, hbuf', Option.bind_some, hstr]
        simp
    · exact hc.userids i id hi

/-- `write` after a step: the calls are made where `all` is set. -/
theorem Carries.write_step (hc : Carries q form dbs₀ w) (hr : Run (postFlow q dbs₀) ls w)
    (h : w.effect q l = some (x, sc)) {i : ℕ} {args : JsString}
    (hargs : ((l.note w.calls).exec sc).arg (.writeUserTimeline (i + 1)) = some args) :
    ∃ (all : List Str) (user_id : Str), x.all = some all ∧ all[i]? = some user_id ∧
      timelineArgs (q.post form) user_id = some args := by
  -- a call of `write_user_timeline` is an old one, or made from the reply of
  -- `get_followers`
  rcases Calls.State.arg_exec hargs with hold | hcall
  · rw [note_arg] at hold
    obtain ⟨all, user_id, hall, hi, hwrite⟩ := hc.write i args hold
    exact ⟨all, user_id, (awaits hr).all_of_some h hall, hi, hwrite⟩
  · obtain rfl : l = .handle .getFollowers := caller h hcall
    obtain ⟨result, -, hreaction, -, rfl⟩ := effect_handle h
    obtain rfl : sc = _ := (Option.some.inj hreaction).symm
    unfold fanOut at hcall
    split at hcall
    · next all post mentions hall hhome =>
      obtain ⟨⟨user_id, j⟩, hy, heq⟩ := List.mem_map.1 hcall
      obtain ⟨hi, ha⟩ := Prod.mk.inj heq
      obtain rfl : j = i := Nat.succ.inj (PostTask.writeUserTimeline.inj hi)
      obtain ⟨rfl, -⟩ := hc.homeArgs hhome
      refine ⟨all, user_id, ?_, List.mem_zipIdx_iff_getElem?.1 hy, ha⟩
      show (if PostTask.getFollowers = .getFollowers then w.recipients result else w.all) = _
      rw [if_pos rfl, hall]
    · cases hcall

/-- The six parts together. -/
theorem Carries.step (hc : Carries q form dbs₀ w) (hnew : q.New dbs₀)
    (hcontent : parseField "content" q.args.1 = some form.body) (hplain : form.Plain)
    (hr : Run (postFlow q dbs₀) ls w) (hfresh : FreshCount ls) (hs : w.exec q l = some w') :
    Carries q form dbs₀ w' := by
  obtain ⟨x, sc, h, rfl⟩ := exec_eq_some.1 hs
  -- one goal for each thing that is carried on: arguments, short URLs, the mentions'
  -- database, ids, recipients and timelines
  refine ⟨fun t args hargs => ?_, fun r hr => hc.urls_step h hr, ?_,
    fun i id hi => hc.userids_step h hi, fun all hall => ?_,
    fun i args hargs => hc.write_step hr h hargs⟩
  · rcases Calls.State.arg_exec hargs with hold | hcall
    · rw [note_arg] at hold
      exact hc.arg t args hold
    · exact hc.expected hnew hcontent hplain hr hfresh h hcall
  · have hwrites : l.writes ≠ some "user_mention_service.js" := by
      cases l <;> simp [PostLabel.writes, composeDb]
    exact (effect_elsewhere h hwrites).eq.trans hc.mentions
  · obtain ⟨-, ⟨-, hsame⟩ | ⟨t, rfl⟩, -⟩ := effect_frame h
    · exact hc.all all (hsame.symm.trans hall)
    · obtain ⟨result, -, -, -, rfl⟩ := effect_handle h
      have hall' : (if t = .getFollowers then w.recipients result else w.all) = some all := hall
      split at hall'
      · exact hc.recipients hall'
      · exact hc.all all hall'

/-- **All calls of a run are as expected.** By induction on the run: a step needs that
the calls before it were (`Carries.expected`), and that the parts that have been read
are those that were stored (`uploading_values`). -/
theorem carries (hnew : q.New dbs₀) (hcontent : parseField "content" q.args.1 = some form.body)
    (hplain : form.Plain) (h : Run (postFlow q dbs₀) ls w) (hfresh : FreshCount ls) :
    Carries q form dbs₀ w := by
  -- at the start only `compose_post` has been called, with the request's own body
  induction h with
  | init h0 =>
    obtain rfl : _ = _ := h0
    refine ⟨fun t args hargs => ?_, fun r hr => ?_, rfl, fun i id hi => ?_, fun all hall => ?_,
      fun i args hargs => ?_⟩
    · by_cases ht : t = .compose
      · subst ht
        exact (Option.some.inj hargs).symm
      · simp [start, ht] at hargs
    · cases hr
    · cases hi
    · cases hall
    · cases hargs
  | step hr hs ih =>
    exact (ih hfresh.of_append).step hnew hcontent hplain hr hfresh.of_append hs

end PostFlow

end Nanoservices
