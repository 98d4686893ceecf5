import Nanoservices.Services.Network
import Mathlib.Data.List.FinRange
import Mathlib.Data.List.Dedup

/-!
# Who gets a post

A post is written to one timeline for each of its `recipients`: the author, each name in
the list of followers, and the user id found for each mention. Nothing removes
repetitions, and a name that is not registered is written as the empty user id. So a
timeline holds the post as often as its key occurs among the keys of the recipients
(`Posted.occurrences`), and it is where it should be, once, exactly when these keys are
distinct and all mentioned names are registered (`posted_once_iff`).
-/

namespace Nanoservices

open Utf16 Json Lts

/-! ### Counting a post -/

/-- How often a post id occurs in a timeline. -/
def occurrences (post_id : Str) (posts : List Post) : ℕ := posts.countP fun q => q.post_id = post_id

/-- `push_sorted` adds one post. -/
theorem occurrences_pushSorted (post_id : Str) (post : Post) (posts : List Post) :
    occurrences post_id (pushSorted comp post posts) =
      occurrences post_id posts + if post.post_id = post_id then 1 else 0 := by
  have hsplit := congrArg (occurrences post_id)
    (List.take_append_drop (searchIndex comp post posts 0 posts.length) posts)
  simp only [occurrences, pushSorted, List.countP_append, List.countP_cons,
    decide_eq_true_eq] at hsplit ⊢
  omega

variable {F C : Type} [DecidableEq F] [DecidableEq C] {p : Platform} {follows : F → Str × Str}
  {composed : C → Composed} {dbs₀ : DbMap} {ls : List (NetworkLabel F C)} {w : Network F C} {c : C}

omit [DecidableEq C] in
/-- The calls of `write_user_timeline` against a key. -/
theorem target_timelineLoops {home : C → Option (List Str × List Str)} {key : UInt32}
    (x : (C × ℕ) × ℕ) :
    target (timelineLoops p composed home) x = some ("user_timeline_service.js", key) ↔
      x.2 = 0 ∧ ((recipients (composed x.1.1) (home x.1.1))[x.1.2]?).map (keyOf p) = some key := by
  obtain ⟨⟨d, i⟩, j⟩ := x
  simp only [target, timelineLoops]
  cases (recipients (composed d) (home d))[i]? with
  | none => simp
  | some user_id =>
    cases j with
    | zero => simp [writeUserTimeline]
    | succ j => simp [writeUserTimeline]

omit [DecidableEq C] in
/-- What a call of `write_user_timeline` changes. -/
theorem changeOf_timelineLoops {home : C → Option (List Str × List Str)} {key : UInt32}
    {x : (C × ℕ) × ℕ}
    (h : target (timelineLoops p composed home) x = some ("user_timeline_service.js", key))
    (posts : List Post) :
    changeOf (timelineLoops p composed home) x posts =
      pushSorted comp (composed x.1.1).post posts := by
  obtain ⟨hj, hkey⟩ := (target_timelineLoops x).1 h
  obtain ⟨user_id, huser, -⟩ := Option.map_eq_some_iff.1 hkey
  simp [changeOf, timelineLoops, hj, huser, writeUserTimeline]

/-- Each call of `write_user_timeline` for the post adds one occurrence. -/
theorem occurrences_foldl {home : C → Option (List Str × List Str)} {key : UInt32}
    (hnew : ∀ d, d ≠ c → (composed d).post.post_id ≠ (composed c).post.post_id)
    (as : List ((C × ℕ) × ℕ)) (posts : List Post)
    (has : ∀ x ∈ as,
      target (timelineLoops p composed home) x = some ("user_timeline_service.js", key)) :
    occurrences (composed c).post.post_id
        (as.foldl (fun posts x => changeOf (timelineLoops p composed home) x posts) posts) =
      occurrences (composed c).post.post_id posts + as.countP fun x => x.1.1 = c := by
  induction as generalizing posts with
  | nil => rfl
  | cons x as ih =>
    rw [List.foldl_cons, ih _ fun y hy => has y (List.mem_cons_of_mem _ hy),
      changeOf_timelineLoops (has x List.mem_cons_self), occurrences_pushSorted, List.countP_cons]
    -- ids are unique, so only a change of this post adds an occurrence
    have hiff : (composed x.1.1).post.post_id = (composed c).post.post_id ↔ x.1.1 = c :=
      ⟨fun heq => by_contra fun hne => hnew _ hne heq, fun heq => by rw [heq]⟩
    simp only [hiff, decide_eq_true_eq]
    omega

/-! ### A post that is new -/

/-- All calls of `write_user_timeline` for a post have completed. -/
def Network.Completed (composed : C → Composed) (w : Network F C) (c : C) : Prop :=
  (w.home c).isSome ∧
    ∀ i < (recipients (composed c) (w.home c)).length, (w.write (c, i)).loop = 1

/-- **A run to the completion of a post with a new id.** The calls that write a timeline
do not disturb each other: the tokens of their `DBSet`s are not 0 and do not repeat, or
there is one call only. Everything else that the network does may come in between, in
any order. -/
structure Posted (p : Platform) (follows : F → Str × Str) (composed : C → Composed)
    (dbs₀ : DbMap) (ls : List (NetworkLabel F C)) (w : Network F C) (c : C) : Prop where
  run : Run (network p follows composed dbs₀) ls w
  new : ∀ d, d ≠ c → (composed d).post.post_id ≠ (composed c).post.post_id
  timelines : ∀ key, ∃ init : Option (UInt32 × List Post),
    StoredList dbs₀ ("user_timeline_service.js", key) init ∧
      occurrences (composed c).post.post_id ((init.map Prod.snd).getD []) = 0 ∧
      Optimistic.Undisturbed 0 init (keyEvents (timelineLoops p composed w.home)
        ("user_timeline_service.js", key) (timelineLabels ls))
  completed : w.Completed composed c

/-- The keys under which a post is written, one for each recipient. Two recipients may
have the same. -/
def Network.keys (p : Platform) (composed : C → Composed) (w : Network F C) (c : C) :
    List UInt32 := (recipients (composed c) (w.home c)).map (keyOf p)

/-- The calls for the post that write a key, by the positions of their recipients. -/
theorem filter_perm (keys : List UInt32) (key : UInt32) {as : List ((C × ℕ) × ℕ)}
    (hnodup : as.Nodup)
    (hmem : ∀ x, x ∈ as ∧ x.1.1 = c ↔ x.1.1 = c ∧ x.2 = 0 ∧ keys[x.1.2]? = some key) :
    (as.filter fun x => x.1.1 = c).Perm
      (((List.finRange keys.length).filter fun i => keys.get i == key).map
        fun i => ((c, i.1), 0)) := by
  have hinj : Function.Injective fun i : Fin keys.length => ((c, i.1), 0) := by
    intro i j hij
    exact Fin.ext (Prod.mk.inj (Prod.mk.inj hij).1).2
  -- neither list repeats an element, so the same members are enough
  apply (List.perm_ext_iff_of_nodup (hnodup.filter _)
    (((List.nodup_finRange _).filter _).map hinj)).2
  rintro ⟨⟨d, i⟩, j⟩
  simp only [List.mem_filter, decide_eq_true_eq, hmem, List.mem_map, List.mem_finRange, true_and,
    beq_iff_eq, Prod.mk.injEq]
  constructor
  · rintro ⟨rfl, rfl, hi⟩
    obtain ⟨hlt, hget⟩ := List.getElem?_eq_some_iff.1 hi
    exact ⟨⟨i, hlt⟩, hget, ⟨rfl, rfl⟩, rfl⟩
  · rintro ⟨k, hk, ⟨rfl, rfl⟩, rfl⟩
    exact ⟨rfl, rfl, List.getElem?_eq_some_iff.2 ⟨k.2, hk⟩⟩

/-- Positions with a key are counted like the key. -/
theorem countP_finRange (keys : List UInt32) (key : UInt32) :
    (List.finRange keys.length).countP (fun i => keys.get i == key) = keys.count key :=
  calc (List.finRange keys.length).countP (fun i => keys.get i == key)
      = ((List.finRange keys.length).map keys.get).count key := by
        rw [List.count, List.countP_map]
        rfl
    _ = keys.count key := by rw [List.map_get_finRange]

/-- **How often a timeline holds the post**: as often as its key is among the
recipients'. Each call of `write_user_timeline` commits once (`applied_commits`), and
each commit of a call for this post adds one. -/
theorem Posted.occurrences (h : Posted p follows composed dbs₀ ls w c) (key : UInt32) :
    ∃ posts, readList w.dbs ("user_timeline_service.js", key) = some posts ∧
      Nanoservices.occurrences (composed c).post.post_id posts =
        (w.keys p composed c).count key := by
  obtain ⟨init, hinit, hnone, hundisturbed⟩ := h.timelines key
  obtain ⟨final, hstored, hnodup, hmem, hfold⟩ :=
    (timeline_run h.run).applied_commits hinit hundisturbed
  refine ⟨_, hstored.readList, ?_⟩
  -- the occurrences are the committed changes of this post, which are its calls for
  -- this key
  rw [hfold, occurrences_foldl h.new _ _ fun x hx => ((hmem x).1 hx).1, hnone, Nat.zero_add,
    List.countP_eq_length_filter, ← countP_finRange, List.countP_eq_length_filter]
  -- each of its calls has come to its end, so it is among the committed changes
  have hcalls : ∀ x, x ∈ Optimistic.commits (keyEvents (timelineLoops p composed w.home)
      ("user_timeline_service.js", key) (timelineLabels ls)) ∧ x.1.1 = c ↔
        x.1.1 = c ∧ x.2 = 0 ∧ (w.keys p composed c)[x.1.2]? = some key := by
    rintro ⟨⟨d, i⟩, j⟩
    rw [hmem, target_timelineLoops]
    simp only [Network.keys, List.getElem?_map]
    constructor
    · rintro ⟨⟨⟨rfl, hkey⟩, -⟩, rfl⟩
      exact ⟨rfl, rfl, hkey⟩
    · rintro ⟨rfl, rfl, hkey⟩
      refine ⟨⟨⟨rfl, hkey⟩, ?_⟩, rfl⟩
      obtain ⟨user_id, huser, -⟩ := Option.map_eq_some_iff.1 hkey
      rw [h.completed.2 i (List.getElem?_eq_some_iff.1 huser).1]
      exact Nat.zero_lt_one
  rw [(filter_perm _ key hnodup hcalls).length_eq, List.length_map]

/-! ### Once where it should be -/

/-- Whom a post concerns: the author, the followers `get_followers` returned, and the
mentioned users who are registered. -/
def Network.Concerns (composed : C → Composed) (w : Network F C) (c : C) (user_id : Str) : Prop :=
  user_id = (composed c).post.user_id ∨ (∃ home, w.home c = some home ∧ user_id ∈ home.1) ∨
    (true, user_id) ∈ w.mentions c

/-- The post is once in the timelines of those it concerns, and in no other timeline. -/
def PostedOnce (p : Platform) (composed : C → Composed) (w : Network F C) (c : C) : Prop :=
  (∀ user_id, w.Concerns composed c user_id →
    ∃ posts, readList w.dbs ("user_timeline_service.js", keyOf p user_id) = some posts ∧
      occurrences (composed c).post.post_id posts = 1) ∧
  ∀ key, (∀ user_id, w.Concerns composed c user_id → keyOf p user_id ≠ key) →
    ∃ posts, readList w.dbs ("user_timeline_service.js", key) = some posts ∧
      occurrences (composed c).post.post_id posts = 0

/-- The recipients are the author, the followers, and what was found for the mentions. -/
theorem Posted.recipients_eq (h : Posted p follows composed dbs₀ ls w c) :
    ∃ followers all, w.home c = some (followers, all) ∧
      recipients (composed c) (w.home c) =
        (composed c).post.user_id :: (followers ++ (w.mentions c).map Prod.snd) := by
  obtain ⟨⟨followers, all⟩, hhome⟩ := Option.isSome_iff_exists.1 h.completed.1
  refine ⟨followers, all, hhome, ?_⟩
  rw [hhome, ← (home_eq h.run hhome).2]
  rfl

/-- Those the post concerns are among the recipients. -/
theorem Posted.mem_keys (h : Posted p follows composed dbs₀ ls w c) {user_id : Str}
    (hu : w.Concerns composed c user_id) : keyOf p user_id ∈ w.keys p composed c := by
  obtain ⟨followers, all, hhome, hrecipients⟩ := h.recipients_eq
  apply List.mem_map_of_mem
  rw [hrecipients]
  rcases hu with rfl | ⟨home, hc, hmem⟩ | hmem
  · exact List.mem_cons_self
  · obtain rfl := Option.some.inj (hhome.symm.trans hc)
    exact List.mem_cons_of_mem _ (List.mem_append_left _ hmem)
  · exact List.mem_cons_of_mem _ (List.mem_append_right _ (List.mem_map_of_mem hmem))

/-- Distinct keys tell a mention that was not found from all those the post concerns. -/
theorem Posted.not_concerns (h : Posted p follows composed dbs₀ ls w c)
    (hnodup : (w.keys p composed c).Nodup) {userid : Str} (hm : (false, userid) ∈ w.mentions c)
    {user_id : Str} (hu : w.Concerns composed c user_id) : keyOf p user_id ≠ keyOf p userid := by
  obtain ⟨followers, all, hhome, hrecipients⟩ := h.recipients_eq
  rw [Network.keys, hrecipients, List.map_cons, List.map_append, List.map_map, List.nodup_cons,
    List.nodup_append] at hnodup
  obtain ⟨hauthor, -, hmentions, hdisjoint⟩ := hnodup
  have hkey : keyOf p userid ∈ (w.mentions c).map (keyOf p ∘ Prod.snd) :=
    List.mem_map.2 ⟨_, hm, rfl⟩
  intro heq
  -- the author, a follower or another mentioned user: in each case two keys would be
  -- one
  rcases hu with rfl | ⟨home, hc, hmem⟩ | hmem
  · exact hauthor (heq ▸ List.mem_append_right _ hkey)
  · obtain rfl := Option.some.inj (hhome.symm.trans hc)
    exact hdisjoint _ (List.mem_map_of_mem hmem) _ hkey heq
  · cases List.inj_on_of_nodup_map hmentions hmem hm heq

/-- **A post enters the timelines it should enter, once,** exactly when the keys of its
recipients are distinct and all mentioned names are registered. By `Posted.occurrences`
this is about the keys: each user concerned has one that occurs once, and no other key
occurs.

For the direction from right to left, a key of somebody concerned occurs once because
the keys are distinct, and each key is that of somebody concerned because all names are
registered. From left to right, a key that occurs twice is somebody's, or that of a name
that is not registered, which is nobody's and yet is written. -/
theorem posted_once_iff (h : Posted p follows composed dbs₀ ls w c) :
    PostedOnce p composed w c ↔
      (w.keys p composed c).Nodup ∧ ∀ m ∈ w.mentions c, m.1 = true := by
  constructor
  · rintro ⟨honce, hnowhere⟩
    -- a recipient's timeline has the post once, and no other timeline has it
    have hcount : ∀ key ∈ w.keys p composed c, (∃ user_id, w.Concerns composed c user_id ∧
        keyOf p user_id = key) ∧ (w.keys p composed c).count key = 1 := by
      intro key hkey
      obtain ⟨posts, hposts, hoccurs⟩ := h.occurrences key
      by_cases hu : ∃ user_id, w.Concerns composed c user_id ∧ keyOf p user_id = key
      · obtain ⟨user_id, hconcerns, rfl⟩ := hu
        obtain ⟨posts', hposts', hone⟩ := honce user_id hconcerns
        obtain rfl := Option.some.inj (hposts.symm.trans hposts')
        exact ⟨⟨user_id, hconcerns, rfl⟩, hoccurs.symm.trans hone⟩
      · obtain ⟨posts', hposts', hzero⟩ :=
          hnowhere key fun user_id hconcerns heq => hu ⟨user_id, hconcerns, heq⟩
        obtain rfl := Option.some.inj (hposts.symm.trans hposts')
        rw [hzero] at hoccurs
        exact absurd hkey (List.count_eq_zero.1 hoccurs.symm)
    have hnodup : (w.keys p composed c).Nodup := List.nodup_iff_count_le_one.2 fun key => by
      by_cases hkey : key ∈ w.keys p composed c
      · exact (hcount key hkey).2.le
      · rw [List.count_eq_zero.2 hkey]
        exact Nat.zero_le 1
    -- an unknown mention is a recipient that the post does not concern
    refine ⟨hnodup, ?_⟩
    rintro ⟨known, userid⟩ hm
    cases known with
    | true => rfl
    | false =>
      obtain ⟨followers, all, hhome, hrecipients⟩ := h.recipients_eq
      have hmem : keyOf p userid ∈ w.keys p composed c := by
        apply List.mem_map_of_mem
        rw [hrecipients]
        exact List.mem_cons_of_mem _ (List.mem_append_right _ (List.mem_map.2 ⟨_, hm, rfl⟩))
      obtain ⟨⟨user_id, hconcerns, heq⟩, -⟩ := hcount _ hmem
      exact absurd heq (h.not_concerns hnodup hm hconcerns)
  -- conversely, each recipient's key is there once, and the keys of no one else
  · rintro ⟨hnodup, hknown⟩
    constructor
    · intro user_id hconcerns
      obtain ⟨posts, hposts, hoccurs⟩ := h.occurrences (keyOf p user_id)
      refine ⟨posts, hposts, ?_⟩
      rw [hoccurs]
      exact List.count_eq_one_of_mem hnodup (h.mem_keys hconcerns)
    · intro key hkey
      obtain ⟨posts, hposts, hoccurs⟩ := h.occurrences key
      refine ⟨posts, hposts, ?_⟩
      rw [hoccurs, List.count_eq_zero]
      intro hmem
      obtain ⟨user_id, huser, rfl⟩ := List.mem_map.1 hmem
      -- every recipient is concerned
      obtain ⟨followers, all, hhome, hrecipients⟩ := h.recipients_eq
      rw [hrecipients, List.mem_cons, List.mem_append, List.mem_map] at huser
      refine hkey user_id ?_ rfl
      rcases huser with rfl | hfollower | ⟨⟨known, userid⟩, hm, rfl⟩
      · exact .inl rfl
      · exact .inr (.inl ⟨_, hhome, hfollower⟩)
      · obtain rfl : known = true := hknown _ hm
        exact .inr (.inr hm)

/-! ### A post with one mention -/

omit [DecidableEq F] in
/-- Calls that draw fresh tokens do not disturb each other. -/
theorem undisturbed_of_drawn {Client α : Type} {program : Client → List (Loop α)}
    {k : String × UInt32} {labels : List (RetryLabel Client)} (hzero : 0 ∉ drawn labels)
    (hnodup : (drawn labels).Nodup) :
    Optimistic.Undisturbed 0 (none : Option (UInt32 × List α)) (keyEvents program k labels) := by
  have hsub := tokens_sublist_drawn program k labels
  exact .inl ⟨fun hz => hzero (hsub.mem hz), hsub.nodup hnodup⟩

/-- The databases, empty. -/
def emptyDbs : DbMap :=
  networkDbs.foldl createDb fun _ => none

theorem holds_foldl_createDb (names : List String) {dbs : DbMap} (h : Holds dbs fun _ => none) :
    Holds (names.foldl createDb dbs) fun _ => none := by
  induction names generalizing dbs with
  | nil => exact h
  | cons name names ih =>
    have hcreated := h.createDb name
    simp only [ite_self] at hcreated
    exact ih hcreated

/-- No key holds a list there. -/
theorem emptyDbs_stored {α : Type} [Item α] {name : String} (hname : name ∈ networkDbs)
    (key : UInt32) : StoredList emptyDbs (name, key) (none : Option (UInt32 × List α)) := by
  refine ⟨⟨_, holds_foldl_createDb networkDbs fun name db hdb => by cases hdb⟩,
    Hashtable.init 1000000, ?_,
    (Hashtable.represents_init (by decide : (0 : UInt32) < 1000000)).htGet key⟩
  simp only [networkDbs, List.mem_cons, List.not_mem_nil, or_false] at hname
  rcases hname with rfl | rfl | rfl <;> rfl

/-- The user with the id `1` composes a post that mentions `user`, who has just
registered. -/
def mentioning (user : User) : Unit → Composed := fun _ =>
  ⟨⟨lit "1", 0, lit "9"⟩, [64 :: user.username]⟩

/-- The user registers, the name is looked up, and the post is written twice. -/
def mentioningSteps (user : User) : List (NetworkLabel Empty Unit) :=
  [.register user 5 true, .mention () true, .home (),
    .timeline (.get ((), 0) 0), .timeline (.set ((), 0) 0 7 true),
    .timeline (.get ((), 1) 0), .timeline (.set ((), 1) 0 8 true)]

/-- The steps, executed. -/
def mentioningRun (user : User) : Option (Network Empty Unit) :=
  (mentioningSteps user).foldlM (Network.exec asciiPlatform Empty.elim (mentioning user))
    (.start emptyDbs)

/-- If all of them can be executed and the calls complete, this is such a run. -/
theorem mentioning_posted {user : User} {w : Network Empty Unit}
    (hrun : mentioningRun user = some w) (hcompleted : w.Completed (mentioning user) ()) :
    Posted asciiPlatform Empty.elim (mentioning user) emptyDbs (mentioningSteps user) w () where
  run := run_of_foldlM hrun
  new d hd := absurd rfl hd
  timelines key := by
    refine ⟨none, emptyDbs_stored (by decide) key, rfl, undisturbed_of_drawn ?_ ?_⟩
    · show (0 : UInt32) ∉ [7, 8]
      decide
    · show [(7 : UInt32), 8].Nodup
      decide
  completed := hcompleted

/-- What the run leads to when the user is `bob`, and when the author mentions herself. -/
def Network.outcome (user : User) (w : Network Empty Unit) :
    List UInt32 × List (Bool × Str) × Bool :=
  (w.keys asciiPlatform (mentioning user) (), w.mentions (),
    decide ((w.home ()).isSome ∧ (w.write ((), 0)).loop = 1 ∧ (w.write ((), 1)).loop = 1))

/-- So the outcome of the run says what there is to know. -/
theorem mentioning_outcome (user : User) (keys : List UInt32) (mentions : List (Bool × Str))
    (h : (mentioningRun user).map (Network.outcome user) = some (keys, mentions, true))
    (hkeys : keys.length = 2) :
    ∃ w, Posted asciiPlatform Empty.elim (mentioning user) emptyDbs (mentioningSteps user) w () ∧
      w.keys asciiPlatform (mentioning user) () = keys ∧ w.mentions () = mentions := by
  obtain ⟨w, hw, houtcome⟩ := Option.map_eq_some_iff.1 h
  simp only [Network.outcome, Prod.mk.injEq, decide_eq_true_eq] at houtcome
  obtain ⟨hk, hm, hhome, hfirst, hsecond⟩ := houtcome
  refine ⟨w, mentioning_posted hw ⟨hhome, fun i hi => ?_⟩, hk, hm⟩
  have hlength : (recipients (mentioning user ()) (w.home ())).length = 2 := by
    rw [← hkeys, ← hk, Network.keys, List.length_map]
  rw [hlength] at hi
  -- there are two calls of `write_user_timeline`
  match i with
  | 0 => exact hfirst
  | 1 => exact hsecond

/-- Who mentions `bob` writes to `bob`. -/
theorem posted_once_bob : ∃ w : Network Empty Unit,
    PostedOnce asciiPlatform (mentioning ⟨lit "bob", lit "22"⟩) w () := by
  obtain ⟨w, hposted, hkeys, hmentions⟩ := mentioning_outcome
    ⟨lit "bob", lit "22"⟩ [1, 2] [(true, lit "22")]
    (by decide +kernel) rfl
  refine ⟨w, (posted_once_iff hposted).2 ⟨?_, ?_⟩⟩
  · rw [hkeys]
    decide
  · rw [hmentions]
    decide

/-- The author mentions herself: her timeline holds the post twice. -/
theorem posted_twice : ¬∀ (follows : Empty → Str × Str) (composed : Unit → Composed)
    (dbs₀ : DbMap) (ls : List (NetworkLabel Empty Unit)) (w : Network Empty Unit),
    Posted asciiPlatform follows composed dbs₀ ls w () →
      PostedOnce asciiPlatform composed w () := by
  intro hall
  obtain ⟨w, hposted, hkeys, hmentions⟩ := mentioning_outcome
    ⟨lit "eve", lit "1"⟩ [1, 1] [(true, lit "1")]
    (by decide +kernel) rfl
  -- the author mentions herself, so her key is that of two calls
  obtain ⟨posts, hposts, hone⟩ := (hall _ _ _ _ _ hposted).1 (lit "1") (.inl rfl)
  obtain ⟨posts', hposts', htwo⟩ := hposted.occurrences 1
  obtain rfl := Option.some.inj (hposts.symm.trans hposts')
  rw [hone, hkeys] at htwo
  exact absurd htwo (by decide)

end Nanoservices
