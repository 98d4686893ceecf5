import Nanoservices.Services.Updates

/-!
# The order of a timeline

`push_sorted` looks for the place of a post by halving, with a comparison whose result
is never negative: it goes up while the post is newer than the one it looks at, and
stops at the first one that is not. So it only ever looks at the positions `probes`,
which depend on the length alone, and takes the first of them that is not before the
post's place. The timeline stays in order exactly when that one is not behind the post's
place either (`Lands`).

A post that is put in the wrong place stays there: a timeline is in order exactly when
every post that was written to it landed.
-/

namespace Nanoservices

open Utf16 Json Lts

/-- The timestamps ascend. -/
def InOrderOfTime (posts : List Post) : Prop := posts.Pairwise fun a b => a.timestamp ≤ b.timestamp

/-! ### Inserting into a sorted list -/

/-- The posts that are older. -/
def older (e : Post) (posts : List Post) : ℕ := posts.countP fun q => q.timestamp < e.timestamp

/-- The posts that are not newer. -/
def notNewer (e : Post) (posts : List Post) : ℕ := posts.countP fun q => q.timestamp ≤ e.timestamp

/-- In a sorted list, what is below a bound comes first. -/
theorem InOrderOfTime.lt_countP {posts : List Post} (h : InOrderOfTime posts) (below : ℤ → Bool)
    (hbelow : ∀ s t, s ≤ t → below t → below s) {k : ℕ} (hk : k < posts.length) :
    k < (posts.countP fun q => below q.timestamp) ↔ below posts[k].timestamp := by
  induction posts generalizing k with
  | nil => simp at hk
  | cons q posts ih =>
    obtain ⟨hq, hposts⟩ := List.pairwise_cons.1 h
    -- a list in order begins with the posts below the bound
    by_cases hb : below q.timestamp
    · rw [List.countP_cons_of_pos (by simpa using hb)]
      cases k with
      | zero => simp [hb]
      | succ k => simpa using ih hposts (k := k) (by simpa using hk)
    · -- nothing after a post above the bound is below it
      have hnone : (posts.countP fun q => below q.timestamp) = 0 := by
        rw [List.countP_eq_zero]
        intro q' hq' hb'
        exact hb (hbelow _ _ (hq q' hq') hb')
      rw [List.countP_cons_of_neg (by simpa using hb), hnone]
      cases k with
      | zero => simp [hb]
      | succ k =>
        have hk' : k < posts.length := by simpa using hk
        have hnot : ¬below posts[k].timestamp :=
          fun hb' => hb (hbelow _ _ (hq _ (List.getElem_mem hk')) hb')
        simpa using hnot

/-- In a sorted list the older posts come first. -/
theorem InOrderOfTime.lt_older {posts : List Post} (h : InOrderOfTime posts) (e : Post) {k : ℕ}
    (hk : k < posts.length) : k < older e posts ↔ posts[k].timestamp < e.timestamp := by
  simpa [older] using h.lt_countP (fun t => decide (t < e.timestamp))
    (by simpa using fun s t hst ht => lt_of_le_of_lt hst ht) hk

/-- So do those that are not newer. -/
theorem InOrderOfTime.lt_notNewer {posts : List Post} (h : InOrderOfTime posts) (e : Post) {k : ℕ}
    (hk : k < posts.length) : k < notNewer e posts ↔ posts[k].timestamp ≤ e.timestamp := by
  simpa [notNewer] using h.lt_countP (fun t => decide (t ≤ e.timestamp))
    (by simpa using fun s t hst ht => le_trans hst ht) hk

/-- **Where a post belongs**: behind the older ones, before the newer ones. Among posts
of its own time it may stand anywhere. -/
theorem InOrderOfTime.insert_iff {posts : List Post} (h : InOrderOfTime posts) (e : Post) {i : ℕ}
    (hi : i ≤ posts.length) :
    InOrderOfTime (posts.take i ++ e :: posts.drop i) ↔
      older e posts ≤ i ∧ i ≤ notNewer e posts := by
  -- the list around the new post is in order already
  have hsplit : InOrderOfTime (posts.take i ++ e :: posts.drop i) ↔
      (∀ q ∈ posts.drop i, e.timestamp ≤ q.timestamp) ∧
        ∀ q ∈ posts.take i, q.timestamp ≤ e.timestamp := by
    have hposts : InOrderOfTime (posts.take i ++ posts.drop i) := by rwa [List.take_append_drop]
    obtain ⟨htake, hdrop, hcross⟩ := List.pairwise_append.1 hposts
    constructor
    · intro hs
      obtain ⟨-, hs, hlow⟩ := List.pairwise_append.1 hs
      exact ⟨(List.pairwise_cons.1 hs).1, fun q hq => hlow q hq e List.mem_cons_self⟩
    · rintro ⟨hhigh, hlow⟩
      refine List.pairwise_append.2 ⟨htake, List.pairwise_cons.2 ⟨hhigh, hdrop⟩, ?_⟩
      intro q hq q' hq'
      rcases List.mem_cons.1 hq' with rfl | hq'
      · exact hlow q hq
      · exact hcross q hq q' hq'
  rw [hsplit]
  refine and_congr ⟨fun hhigh => ?_, fun hle q hq => ?_⟩ ⟨fun hlow => ?_, fun hle q hq => ?_⟩
  -- not below the older posts
  · by_contra hlt
    have hlen : i < posts.length := (not_le.1 hlt).trans_le List.countP_le_length
    have hold := (h.lt_older e hlen).1 (not_le.1 hlt)
    have hmem : posts[i] ∈ posts.drop i := List.mem_drop_iff_getElem.2 ⟨0, by simpa using hlen, rfl⟩
    exact absurd (hhigh _ hmem) (not_le.2 hold)
  · obtain ⟨j, hj, rfl⟩ := List.mem_drop_iff_getElem.1 hq
    refine not_lt.1 fun hold => ?_
    have := (h.lt_older e (by omega)).2 hold
    omega
  -- nor above the newer ones
  · by_contra hlt
    have hlen : i - 1 < posts.length := by omega
    have hnew := mt (h.lt_notNewer e hlen).2 (by omega)
    have hmem : posts[i - 1] ∈ posts.take i :=
      List.mem_take_iff_getElem.2 ⟨i - 1, by omega, rfl⟩
    exact hnew (hlow _ hmem)
  · obtain ⟨j, hj, rfl⟩ := List.mem_take_iff_getElem.1 hq
    exact (h.lt_notNewer e (by omega)).1 (by omega)

/-! ### Where the search looks -/

/-- The positions the search looks at as long as it goes up. -/
def probes (m n : ℕ) : List ℕ :=
  if m < n then (n - 1 + m) / 2 :: probes ((n - 1 + m) / 2 + 1) n else []
termination_by n - m

/-- A post lands in its place: the search looks at one of the positions between the
older posts and the newer ones, or all posts are older. Which positions the search looks
at depends on the number of posts alone (`probes`), so this is a condition on the times
of the posts, and does not run `push_sorted`. -/
def Lands (e : Post) (posts : List Post) : Prop :=
  older e posts = posts.length ∨
    ∃ k ∈ probes 0 posts.length, older e posts ≤ k ∧ k ≤ notNewer e posts

instance (e : Post) (posts : List Post) : Decidable (Lands e posts) := by
  unfold Lands
  infer_instance

/-- The search stays within its bounds. -/
theorem probes_bounds {m n k : ℕ} (hk : k ∈ probes m n) : m ≤ k ∧ k < n := by
  induction m using probes.induct n with
  | case1 m hlt ih =>
    rw [probes, if_pos hlt] at hk
    rcases List.mem_cons.1 hk with rfl | hk
    · omega
    · have := ih hk
      omega
  | case2 m hge =>
    rw [probes, if_neg hge] at hk
    cases hk

/-- The search goes up to the last position. -/
theorem last_mem_probes {m n : ℕ} (h : m < n) : n - 1 ∈ probes m n := by
  induction m using probes.induct n with
  | case1 m hlt ih =>
    rw [probes, if_pos hlt]
    by_cases hend : (n - 1 + m) / 2 + 1 < n
    · exact List.mem_cons_of_mem _ (ih hend)
    · have : n - 1 = (n - 1 + m) / 2 := by omega
      rw [← this]
      exact List.mem_cons_self
  | case2 m hge => exact absurd h hge

/-- **What the search finds** in a sorted list: the first probe that is not before the
older posts' end, or the end of the list if there is none. It goes up as long as the
post is newer than the one it looks at, and stops otherwise, as `comp` never returns
anything negative. -/
theorem searchIndex_spec {e : Post} {posts : List Post} (h : InOrderOfTime posts) {m : ℕ}
    (hm : m ≤ posts.length) :
    (searchIndex comp e posts m posts.length = posts.length ∧
        ∀ k ∈ probes m posts.length, k < older e posts) ∨
      searchIndex comp e posts m posts.length ∈ probes m posts.length ∧
        older e posts ≤ searchIndex comp e posts m posts.length ∧
        ∀ k ∈ probes m posts.length, older e posts ≤ k →
          searchIndex comp e posts m posts.length ≤ k := by
  generalize hn : posts.length = n
  rw [hn] at hm
  induction m using probes.induct n with
  | case1 m hlt ih =>
    have hk : (n - 1 + m) / 2 < posts.length := by omega
    rw [probes, if_pos hlt, searchIndex, dif_pos hlt]
    simp only [List.getElem?_eq_getElem hk]
    by_cases hold : posts[(n - 1 + m) / 2].timestamp < e.timestamp
    · -- the post is newer: the search goes up
      have hbefore := (h.lt_older e hk).2 hold
      have hcomp : 0 < comp e posts[(n - 1 + m) / 2] := by simp [comp, hold]
      rw [if_pos hcomp]
      -- the rest of the search, and the probe itself, which is of an older post
      rcases ih (by omega) with ⟨hend, hall⟩ | ⟨hmem, hle, hfirst⟩
      · refine .inl ⟨hend, ?_⟩
        intro k hk'
        rcases List.mem_cons.1 hk' with rfl | hk'
        · exact hbefore
        · exact hall k hk'
      · refine .inr ⟨List.mem_cons_of_mem _ hmem, hle, ?_⟩
        intro k hk' hle'
        rcases List.mem_cons.1 hk' with rfl | hk'
        · omega
        · exact hfirst k hk' hle'
    · -- the comparison is 0, which ends the search
      have hcomp : comp e posts[(n - 1 + m) / 2] = 0 := by simp [comp, hold]
      have hnot := mt (h.lt_older e hk).1 hold
      rw [hcomp, if_neg (lt_irrefl _), if_neg (lt_irrefl _)]
      refine .inr ⟨List.mem_cons_self, not_lt.1 hnot, ?_⟩
      intro k hk' _
      rcases List.mem_cons.1 hk' with rfl | hk'
      · exact le_rfl
      · have := (probes_bounds hk').1
        omega
  | case2 m hge =>
    rw [probes, if_neg hge, searchIndex, dif_neg hge]
    exact .inl ⟨by omega, by simp⟩

/-! ### One post -/

/-- The position is one of the list. -/
theorem searchIndex_le {e : Post} {posts : List Post} (h : InOrderOfTime posts) :
    searchIndex comp e posts 0 posts.length ≤ posts.length := by
  rcases searchIndex_spec (e := e) h (Nat.zero_le _) with ⟨hend, -⟩ | ⟨hmem, -⟩
  · exact hend.le
  · exact (probes_bounds hmem).2.le

/-- **`push_sorted` keeps a timeline in order exactly when the post lands.** The
position that is found is behind the older posts in any case; that it is not behind a
newer one is what landing says. -/
theorem InOrderOfTime.pushSorted_iff {posts : List Post} (h : InOrderOfTime posts) (e : Post) :
    InOrderOfTime (pushSorted comp e posts) ↔ Lands e posts := by
  rw [pushSorted, h.insert_iff e (searchIndex_le h)]
  have hlen : older e posts ≤ posts.length := List.countP_le_length
  -- the search runs off the end, or stops at the first probe that is not older
  rcases searchIndex_spec (e := e) h (Nat.zero_le _) with ⟨hend, hall⟩ | ⟨hmem, hle, hfirst⟩
  · -- the post is newer than the last one
    have hlast : older e posts = posts.length := by
      by_contra hne
      have := hall _ (last_mem_probes (by omega))
      omega
    have hnew : older e posts ≤ notNewer e posts :=
      List.countP_mono_left fun q _ hq => by
        simp only [decide_eq_true_eq] at hq ⊢
        exact hq.le
    rw [hend]
    exact iff_of_true ⟨hlen, hlast ▸ hnew⟩ (.inl hlast)
  · constructor
    · rintro ⟨-, hnew⟩
      exact .inr ⟨_, hmem, hle, hnew⟩
    · rintro (hlast | ⟨k, hk, holdk, hnewk⟩)
      · have := (probes_bounds hmem).2
        omega
      · exact ⟨hle, (hfirst k hk holdk).trans hnewk⟩

/-- No post is lost, and none is added but the one. -/
theorem pushSorted_perm (e : Post) (posts : List Post) :
    (pushSorted comp e posts).Perm (e :: posts) := by
  rw [pushSorted]
  refine List.perm_middle.trans ?_
  rw [List.take_append_drop]

/-- The posts that were there stay in their order. -/
theorem sublist_pushSorted (e : Post) (posts : List Post) :
    posts.Sublist (pushSorted comp e posts) := by
  rw [pushSorted]
  conv_lhs => rw [← List.take_append_drop (searchIndex comp e posts 0 posts.length) posts]
  exact (List.Sublist.refl _).append (List.sublist_cons_self _ _)

/-! ### Timelines -/

/-- The timeline that the calls of `write_user_timeline` for these posts make, one after
the other. -/
def timeline (p : Platform) (user_id : Str) (posts : List Post) : List Post :=
  (posts.flatMap (writeUserTimeline p user_id)).foldl (fun arr l => l.change arr) []

section Timeline

variable {p : Platform} {user_id : Str}

@[simp] theorem timeline_nil : timeline p user_id [] = [] := rfl

@[simp] theorem timeline_append (posts : List Post) (e : Post) :
    timeline p user_id (posts ++ [e]) = pushSorted comp e (timeline p user_id posts) := by
  simp [timeline, writeUserTimeline]

/-- A timeline has the posts that were written to it. -/
theorem timeline_perm (posts : List Post) : (timeline p user_id posts).Perm posts := by
  induction posts using List.reverseRecOn with
  | nil => exact .refl []
  | append_singleton posts e ih =>
    rw [timeline_append]
    calc pushSorted comp e (timeline p user_id posts)
      _ |>.Perm (e :: timeline p user_id posts) := pushSorted_perm e _
      _ |>.Perm (e :: posts) := ih.cons e
      _ |>.Perm (posts ++ [e]) := (List.perm_append_singleton e posts).symm

/-- Every post landed when it was written. -/
def AllLand (p : Platform) (user_id : Str) (posts : List Post) : Prop :=
  ∀ before e, before ++ [e] <+: posts → Lands e (timeline p user_id before)

/-- A post more has to land too. -/
theorem allLand_append (posts : List Post) (e : Post) :
    AllLand p user_id (posts ++ [e]) ↔
      AllLand p user_id posts ∧ Lands e (timeline p user_id posts) := by
  constructor
  · intro h
    refine ⟨fun before e' hbefore => h before e' ?_, h posts e (List.prefix_refl _)⟩
    exact hbefore.trans (List.prefix_append posts [e])
  · rintro ⟨h, he⟩ before e' hbefore
    -- the last post, or one of those before it
    rcases List.prefix_concat_iff.1 hbefore with heq | hbefore
    · obtain ⟨rfl, hsame⟩ := List.append_inj' heq rfl
      cases hsame
      exact he
    · exact h before e' hbefore

/-- A timeline is in order exactly when every post landed: one that did not stays behind
a newer one, as later posts do not move it. -/
theorem inOrderOfTime_timeline_iff (posts : List Post) :
    InOrderOfTime (timeline p user_id posts) ↔ AllLand p user_id posts := by
  induction posts using List.reverseRecOn with
  | nil =>
    refine iff_of_true List.Pairwise.nil fun before e h => ?_
    simp at h
  | append_singleton posts e ih =>
    rw [allLand_append, timeline_append, ← ih]
    constructor
    · intro h
      -- a timeline that is in order was so before its last post
      have hbefore : InOrderOfTime (timeline p user_id posts) :=
        List.Pairwise.sublist (sublist_pushSorted e _) h
      exact ⟨hbefore, (hbefore.pushSorted_iff e).1 h⟩
    · rintro ⟨hbefore, he⟩
      exact (hbefore.pushSorted_iff e).2 he

end Timeline

/-- **Timelines stay in order exactly when posts land.** The first part is about one
post and any timeline in order, the second about any sequence of posts, from an empty
timeline. The posts of a timeline are those that were written in both.

Which positions the search looks at depends on the number of posts alone, so that the
condition is about times only. Where the search stops in a timeline in order is
`searchIndex_spec`; the second part follows post by post. -/
theorem timelines_in_order_iff (p : Platform) (user_id : Str) :
    (∀ (posts : List Post) (e : Post), InOrderOfTime posts →
      ((InOrderOfTime (pushSorted comp e posts) ∧ (pushSorted comp e posts).Perm (e :: posts)) ↔
        Lands e posts)) ∧
    ∀ posts : List Post,
      (InOrderOfTime (timeline p user_id posts) ∧ (timeline p user_id posts).Perm posts) ↔
        AllLand p user_id posts := by
  refine ⟨fun posts e h => ?_, fun posts => ?_⟩
  · rw [and_iff_left (pushSorted_perm e posts), h.pushSorted_iff e]
  · rw [and_iff_left (timeline_perm posts), inOrderOfTime_timeline_iff]

/-- A post that is older than the three posts of a timeline is put behind the first. -/
theorem late_post_misplaced : ¬∀ (posts : List Post) (e : Post), InOrderOfTime posts →
    InOrderOfTime (pushSorted comp e posts) := by
  intro h
  have hposts : InOrderOfTime [⟨[], 10, []⟩, ⟨[], 20, []⟩, ⟨[], 30, []⟩] := by
    unfold InOrderOfTime
    decide
  have hsorted := h _ ⟨[], 5, []⟩ hposts
  have hlist : pushSorted comp ⟨[], 5, []⟩ [⟨[], 10, []⟩, ⟨[], 20, []⟩, ⟨[], 30, []⟩] =
      [⟨[], 10, []⟩, ⟨[], 5, []⟩, ⟨[], 20, []⟩, ⟨[], 30, []⟩] := by
    simp [pushSorted, searchIndex, comp]
  rw [hlist] at hsorted
  exact absurd ((List.pairwise_cons.1 hsorted).1 _ List.mem_cons_self) (by decide)

/-! ### Runs -/

/-- In a run of calls of `write_user_timeline`, which may overlap, for an empty
timeline: what is stored is the timeline of the posts in the order of the commits. -/
theorem timeline_of_run {Client : Type} [DecidableEq Client] (p : Platform)
    (calls : Client → Str × Post) (user_id : Str) {dbs₀ : DbMap} {ls : List (RetryLabel Client)}
    {w : RetryWorld Client}
    (hinit : StoredList dbs₀ ("user_timeline_service.js", keyOf p user_id)
      (none : Option (UInt32 × List Post)))
    (hrun : Run (retryLoops (fun c => writeUserTimeline p (calls c).1 (calls c).2) dbs₀) ls w)
    (honly : OnlyLoops ("user_timeline_service.js", keyOf p user_id) ls)
    (hundisturbed : Optimistic.Undisturbed 0 (none : Option (UInt32 × List Post))
      (keyEvents (fun c => writeUserTimeline p (calls c).1 (calls c).2)
        ("user_timeline_service.js", keyOf p user_id) ls)) :
    readList w.dbs ("user_timeline_service.js", keyOf p user_id) =
      some (timeline p user_id ((Optimistic.commits (keyEvents
        (fun c => writeUserTimeline p (calls c).1 (calls c).2)
        ("user_timeline_service.js", keyOf p user_id) ls)).map fun x => (calls x.1).2)) := by
  obtain ⟨final, hstored, -, hmem, hfold⟩ := applied_commits hinit hrun honly hundisturbed
  rw [hstored.readList, hfold]
  -- each call has one loop, its first
  have hfirst : ∀ x ∈ Optimistic.commits (keyEvents
      (fun c => writeUserTimeline p (calls c).1 (calls c).2)
      ("user_timeline_service.js", keyOf p user_id) ls), x.2 = 0 := by
    intro x hx
    have htarget := ((hmem x).1 hx).1
    unfold target at htarget
    match hi : x.2 with
    | 0 => rfl
    | j + 1 => simp [hi, writeUserTimeline] at htarget
  generalize Optimistic.commits (keyEvents
    (fun c => writeUserTimeline p (calls c).1 (calls c).2)
    ("user_timeline_service.js", keyOf p user_id) ls) = xs at hfirst
  congr 1
  induction xs using List.reverseRecOn with
  | nil => rfl
  | append_singleton xs x ih =>
    have hx : x.2 = 0 := hfirst x (by simp)
    rw [List.foldl_append, ih fun y hy => hfirst y (by simp [hy]), List.map_append]
    simp [changeOf, hx, writeUserTimeline]

end Nanoservices
