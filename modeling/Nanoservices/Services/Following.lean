import Nanoservices.Services.Timelines

/-!
# Whose posts a follower sees

`follow` works with user names: it puts the name of the follower on a list under the
name of the followee. A post is made with user ids: `get_followers` asks for the list
under the author's user id, the post is written under the items of that list, and a
timeline is read under a user id. So a follower gets the posts of a followee if the keys
agree (`Agree`): names and ids must be the same where the chain changes from one to the
other (`following_reaches`).
-/

namespace Nanoservices

open Utf16 Json Lts

variable {F C : Type} [DecidableEq F] [DecidableEq C] {p : Platform} {follows : F → Str × Str}
  {composed : C → Composed} {dbs₀ : DbMap} {ls : List (NetworkLabel F C)} {w : Network F C}
  {f : F} {c : C} {u v : User}

/-- **The keys agree.** The keys under which the calls for `u` and `v` write are those
under which the post's fan-out reads and writes. There are three ways: the list of
followers is under the same key and the follower's name is as good as the id; the two
lists are confused; or the follower has the followee's own timeline. -/
def Agree (p : Platform) (u v : User) : Prop :=
  (keyOf p (v.username ++ lit "followers") = keyOf p (v.user_id ++ lit "followers") ∧
      keyOf p u.username = keyOf p u.user_id) ∨
    -- the list of those whom `u` follows is taken for that of the followers of `v`
    (keyOf p u.username = keyOf p (v.user_id ++ lit "followers") ∧
      keyOf p v.username = keyOf p u.user_id) ∨
    keyOf p v.user_id = keyOf p u.user_id

/-- **A run in which a post follows a `follow`**: `u` and `v` register, the call `f`
lets `u` follow `v` and is answered, and after that the fan-out of the post `c` of `v`
begins and completes. The calls of `follow` do not disturb each other. Other calls and
posts may come in between. -/
structure FollowedThenPosted (p : Platform) (follows : F → Str × Str) (composed : C → Composed)
    (dbs₀ : DbMap) (ls : List (NetworkLabel F C)) (w : Network F C) (f : F) (c : C) (u v : User) :
    Prop where
  posted : Posted p follows composed dbs₀ ls w c
  registered : ∀ x ∈ [u, v], ∃ rand ok, .register x rand ok ∈ ls
  called : follows f = (u.username, v.username)
  author : (composed c).post.user_id = v.user_id
  order : ∃ before after, ls = before ++ .home c :: after ∧
    ∃ rand, .follow (.set f 1 rand true) ∈ before
  graph : ∀ key, ∃ init : Option (UInt32 × List Value),
    StoredList dbs₀ ("social_graph_service.js", key) init ∧
      Optimistic.Undisturbed 0 init
        (keyEvents (followLoops p follows) ("social_graph_service.js", key) (followLabels ls))

/-- The post is in the timeline stored under the user's id. -/
def Reaches (p : Platform) (composed : C → Composed) (w : Network F C) (c : C) (u : User) : Prop :=
  ∃ posts, readList w.dbs ("user_timeline_service.js", keyOf p u.user_id) = some posts ∧
    0 < occurrences (composed c).post.post_id posts

/-- That is so if a recipient has the key of the user's id, and only then. -/
theorem Posted.reaches_iff (h : Posted p follows composed dbs₀ ls w c) :
    Reaches p composed w c u ↔ keyOf p u.user_id ∈ w.keys p composed c := by
  obtain ⟨posts, hposts, hoccurs⟩ := h.occurrences (keyOf p u.user_id)
  rw [← List.count_pos_iff, ← hoccurs]
  constructor
  · rintro ⟨posts', hposts', hpos⟩
    obtain rfl := Option.some.inj (hposts.symm.trans hposts')
    exact hpos
  · exact fun hpos => ⟨posts, hposts, hpos⟩

/-! ### The list of followers -/

/-- The followers of a post's fan-out are those in the store when it begins. -/
theorem fetched (h : Run (network p follows composed dbs₀) ls w)
    {before after : List (NetworkLabel F C)} (hls : ls = before ++ .home c :: after) :
    ∃ w₁ text home, Run (network p follows composed dbs₀) before w₁ ∧
      getFollowers p w₁.dbs (composed c).post.user_id = some text ∧
      parseList text = some home.1 ∧ w.home c = some home := by
  induction h generalizing after with
  | init h0 => simp at hls
  | @step ls w w' l hrun hs ih =>
    -- the last step of the run is the one that fetched the followers, or comes after it
    rcases List.eq_nil_or_concat after with rfl | ⟨after, last, rfl⟩
    · obtain ⟨rfl, hl⟩ := List.append_inj' hls rfl
      obtain rfl := List.head_eq_of_cons_eq hl
      obtain ⟨text, followers, htext, hparse, -, -, rfl⟩ := Network.exec_home hs
      exact ⟨w, text, _, hrun, htext, hparse, Function.update_self ..⟩
    · rw [List.concat_eq_append, ← List.cons_append, ← List.append_assoc] at hls
      obtain ⟨rfl, -⟩ := List.append_inj' hls rfl
      obtain ⟨w₁, text, home, hbefore, htext, hparse, hhome⟩ := ih rfl
      exact ⟨w₁, text, home, hbefore, htext, hparse, Network.home_of_exec hs hhome⟩

/-- Names that can be read as strings are strings. -/
theorem values_of_mapM {values : List Value} {names : List Str}
    (h : values.mapM Item.ofValue = some names) : values = names.map Value.str := by
  induction values generalizing names with
  | nil =>
    obtain rfl := Option.some.inj h
    rfl
  | cons v values ih =>
    rw [List.mapM_cons, Option.bind_eq_bind, Option.bind_eq_some_iff] at h
    obtain ⟨name, hname, h⟩ := h
    rw [Option.bind_eq_bind, Option.bind_eq_some_iff] at h
    obtain ⟨rest, hrest, h⟩ := h
    obtain rfl := Option.some.inj h
    -- only strings are names
    cases v with
    | str s =>
      obtain rfl := Option.some.inj hname
      rw [ih hrest]
      rfl
    | null | bool | num | arr | obj => cases hname

/-- A list of names, read as a list of values. -/
theorem values_of_names {text : Str} {values : List Value} {names : List Str}
    (hvalues : parseList text = some values) (hnames : parseList text = some names) :
    values = names.map Value.str := by
  rw [parseList, Option.bind_eq_bind, Option.bind_eq_some_iff] at hvalues hnames
  obtain ⟨v, hv, hvalues⟩ := hvalues
  obtain ⟨v', hv', hnames⟩ := hnames
  obtain rfl := Option.some.inj (hv.symm.trans hv')
  -- the same text is read twice, as values and as strings
  cases v with
  | arr elems =>
    have helems : elems = values := by
      have hmap := mapM_ofValue elems
      exact Option.some.inj ((hmap.symm.trans (by simp [Item.toValue])).trans hvalues)
    rw [← helems]
    exact values_of_mapM hnames
  | null | bool | num | str | obj => cases hvalues

omit [DecidableEq F] [DecidableEq C] in
/-- Steps of a longer run. -/
theorem followLabels_append (ls ls' : List (NetworkLabel F C)) :
    followLabels (ls ++ ls') = followLabels ls ++ followLabels ls' := List.filterMap_append ..

/-- **What a call of `follow` has pushed** is on its list when the fan-out begins: the
second loop of the call has been left, so both its changes are among those that the list
under their key is made of, and nothing takes a name out. -/
theorem FollowedThenPosted.mem_followers
    (h : FollowedThenPosted p follows composed dbs₀ ls w f c u v) :
    ∃ home, w.home c = some home ∧
      (keyOf p (v.username ++ lit "followers") = keyOf p (v.user_id ++ lit "followers") →
        u.username ∈ home.1) ∧
      (keyOf p u.username = keyOf p (v.user_id ++ lit "followers") → v.username ∈ home.1) := by
  obtain ⟨before, after, hls, rand, hset⟩ := h.order
  obtain ⟨w₁, text, home, hrun, htext, hparse, hhome⟩ := fetched h.posted.run hls
  rw [h.author] at htext
  obtain ⟨init, hinit, hundisturbed⟩ := h.graph (keyOf p (v.user_id ++ lit "followers"))
  rw [hls, followLabels_append, keyEvents_append] at hundisturbed
  have hpart := follow_run hrun
  obtain ⟨final, hstored, -, hmem, hfold⟩ := hpart.applied_commits hinit hundisturbed.of_append
  obtain ⟨text', htext', hvalues⟩ := getFollowers_eq hstored
  obtain rfl := Option.some.inj (htext.symm.trans htext')
  have hnames := values_of_names hvalues hparse
  have hloop : 1 < (w₁.follow f).loop := hpart.loop_lt (List.mem_filterMap.2 ⟨_, hset, rfl⟩)
  -- a loop of the call against this list has pushed its name
  have hpushed : ∀ i name, i ≤ 1 → target (followLoops p follows) (f, i) =
      some ("social_graph_service.js", keyOf p (v.user_id ++ lit "followers")) →
      pushed follows (f, i) = some (.str name) → name ∈ home.1 := by
    intro i name hi htarget hpush
    have hcommit := (hmem (f, i)).2 ⟨htarget, hi.trans_lt hloop⟩
    have hvalue : Value.str name ∈ home.1.map Value.str := by
      rw [← hnames, hfold]
      exact (mem_foldl_follow _ _).2 (.inr ⟨_, hcommit, hpush⟩)
    obtain ⟨name', hname', heq⟩ := List.mem_map.1 hvalue
    obtain rfl := Value.str.inj heq
    exact hname'
  refine ⟨home, hhome, fun hkey => ?_, fun hkey => ?_⟩
  · refine hpushed 1 _ le_rfl ?_ (by simp [pushed, h.called])
    simp [target, followLoops, follow, h.called, hkey]
  · refine hpushed 0 _ (Nat.zero_le 1) ?_ (by simp [pushed, h.called])
    simp [target, followLoops, follow, h.called, hkey]

/-- **Following reaches the follower's timeline** if the keys agree, through the
whole chain: registration, the list of followers, the recipients of the post, and the
timelines. For a single post there is a criterion that is exact
(`Posted.reaches_iff`). -/
theorem following_reaches (h : FollowedThenPosted p follows composed dbs₀ ls w f c u v)
    (hagree : Agree p u v) : Reaches p composed w c u := by
  obtain ⟨home, hhome, hfollower, hfollowee⟩ := h.mem_followers
  rw [h.posted.reaches_iff]
  rcases hagree with ⟨hkey, hu⟩ | ⟨hkey, hv⟩ | hauthor
  · rw [← hu]
    exact h.posted.mem_keys (.inr (.inl ⟨home, hhome, hfollower hkey⟩))
  · rw [← hv]
    exact h.posted.mem_keys (.inr (.inl ⟨home, hhome, hfollowee hkey⟩))
  · rw [← hauthor, ← h.author]
    exact h.posted.mem_keys (.inl rfl)

/-! ### Two users -/

/-- The one call of `follow`. -/
def followsOnce (u v : User) : Unit → Str × Str := fun _ => (u.username, v.username)

/-- The post, with a mention of its author. -/
def composedOnce (v : User) : Unit → Composed := fun _ =>
  ⟨⟨v.user_id, 0, lit "9"⟩, [64 :: v.username]⟩

/-- What happens before the fan-out. -/
def followingBefore (u v : User) : List (NetworkLabel Unit Unit) :=
  [.register u 5 true, .register v 6 true, .follow (.get () 0), .follow (.set () 0 7 true),
    .follow (.get () 1), .follow (.set () 1 8 true), .mention () true]

/-- The calls of `write_user_timeline` for `n` recipients, one after the other. -/
def followingAfter (n : ℕ) : List (NetworkLabel Unit Unit) :=
  (List.range n).flatMap fun i =>
    [.timeline (.get ((), i) 0), .timeline (.set ((), i) 0 (UInt32.ofNat (9 + i)) true)]

/-- The whole run, executed. -/
def followingRun (u v : User) (n : ℕ) : Option (Network Unit Unit) :=
  (followingBefore u v ++ .home () :: followingAfter n).foldlM
    (Network.exec asciiPlatform (followsOnce u v) (composedOnce v)) (.start emptyDbs)

/-- The keys of the recipients, and whether their calls have completed. -/
def Network.reached (v : User) (w : Network Unit Unit) : List UInt32 × Bool :=
  (w.keys asciiPlatform (composedOnce v) (),
    (w.home ()).isSome && (List.range (recipients (composedOnce v ()) (w.home ())).length).all
      fun i => (w.write ((), i)).loop = 1)

/-- A run whose calls complete is such a run. What has to be looked up of it are the
keys. -/
theorem following_run (u v : User) (n : ℕ) (keys : List UInt32)
    (h : (followingRun u v n).map (Network.reached v) = some (keys, true))
    (hfresh : 0 ∉ drawn (timelineLabels (followingAfter n)) ∧
      (drawn (timelineLabels (followingAfter n))).Nodup) :
    ∃ w, FollowedThenPosted asciiPlatform (followsOnce u v) (composedOnce v) emptyDbs
        (followingBefore u v ++ .home () :: followingAfter n) w () () u v ∧
      w.keys asciiPlatform (composedOnce v) () = keys := by
  obtain ⟨w, hw, hreached⟩ := Option.map_eq_some_iff.1 h
  simp only [Network.reached, Prod.mk.injEq, Bool.and_eq_true, List.all_eq_true, List.mem_range,
    decide_eq_true_eq] at hreached
  obtain ⟨hkeys, hhome, hloops⟩ := hreached
  have htimeline : timelineLabels (followingBefore u v ++ .home () :: followingAfter n) =
      timelineLabels (followingAfter n) := rfl
  -- what the labels say about the two databases
  have hgraph : followLabels (followingBefore u v ++ .home () :: followingAfter n) =
      [.get () 0, .set () 0 7 true, .get () 1, .set () 1 8 true] := by
    have hafter : followLabels (followingAfter n) = [] := by
      apply List.filterMap_eq_nil_iff.2
      intro l hl
      obtain ⟨i, -, hi⟩ := List.mem_flatMap.1 hl
      simp only [List.mem_cons, List.not_mem_nil, or_false] at hi
      rcases hi with rfl | rfl <;> rfl
    rw [followLabels_append]
    show _ ++ followLabels (followingAfter n) = _
    rw [hafter]
    rfl
  refine ⟨w, ⟨⟨run_of_foldlM hw, fun d hd => absurd rfl hd, fun key => ?_, hhome, hloops⟩, ?_, rfl,
    rfl, ⟨_, _, rfl, 8, by simp [followingBefore]⟩, fun key => ?_⟩, hkeys⟩
  · refine ⟨none, emptyDbs_stored (by decide) key, rfl, ?_⟩
    rw [htimeline]
    exact undisturbed_of_drawn hfresh.1 hfresh.2
  · intro x hx
    simp only [List.mem_cons, List.not_mem_nil, or_false] at hx
    rcases hx with rfl | rfl
    · exact ⟨5, true, by simp [followingBefore]⟩
    · exact ⟨6, true, by simp [followingBefore]⟩
  · refine ⟨none, emptyDbs_stored (by decide) key, ?_⟩
    rw [hgraph]
    exact undisturbed_of_drawn (by decide) (by decide)

/-- Users whose names are their ids. -/
theorem following_reaches_ann : ∃ w : Network Unit Unit,
    Reaches asciiPlatform (composedOnce ⟨lit "joey", lit "joey"⟩) w () ⟨lit "ann", lit "ann"⟩ := by
  obtain ⟨w, hw, -⟩ := following_run ⟨lit "ann", lit "ann"⟩ ⟨lit "joey", lit "joey"⟩ 3 [4, 3, 4]
    (by decide +kernel) (by decide)
  exact ⟨w, following_reaches hw (.inl ⟨rfl, rfl⟩)⟩

/-- `ann` has the id `1` and follows `joey`, whose id is `22`: she does not get his
post. -/
theorem following_not_reaches : ¬∀ (u v : User) (follows : Unit → Str × Str)
    (composed : Unit → Composed) (dbs₀ : DbMap) (ls : List (NetworkLabel Unit Unit))
    (w : Network Unit Unit),
    FollowedThenPosted asciiPlatform follows composed dbs₀ ls w () () u v →
      Reaches asciiPlatform composed w () u := by
  intro hall
  obtain ⟨w, hw, hkeys⟩ := following_run ⟨lit "ann", lit "1"⟩ ⟨lit "joey", lit "22"⟩ 2 [2, 2]
    (by decide +kernel) (by decide)
  have hreached := hw.posted.reaches_iff.1 (hall _ _ _ _ _ _ _ hw)
  rw [hkeys] at hreached
  exact absurd hreached (by decide)

end Nanoservices
