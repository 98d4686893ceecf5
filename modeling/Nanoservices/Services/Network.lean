import Nanoservices.Services.SocialGraph

/-!
# The social network

`register`, `follow` and the fan-out of a post over one set of databases. Any number of
calls of `follow` and of composed posts run at the same time; a step is one access to a
database, which is atomic:

* a `DBSet` of `user_register`, which gives a name its user id unless the name has one;
* a `DBGet` or `DBSet` of a call of `follow`;
* the `DBGet` with which `upload_user_mentions` looks up the next name a post mentions;
* the `DBGet` of `get_followers` for the author, from which `write_home_timeline` has
  its list `all`: the followers, then the user ids of the mentioned users;
* a `DBGet` or `DBSet` of one of the calls of `write_user_timeline`, for the author and
  for each item of `all`.

A post's text is taken as the list of the names it mentions, with the `@`. Seen from the
loops of `follow`, or from those of `write_user_timeline`, a run is one of `retryLoops`
in which all else is the work of other services (`follow_run`, `timeline_run`).
-/

namespace Nanoservices

open Utf16 Json Lts

instance : Item Str where
  toValue := .str
  ofValue
    | .str s => some s
    | _ => none
  ofValue_toValue _ := rfl

/-! ### Mentions -/

/-- What `upload_user_mentions` finds for a name: whether there is an entry, and
`userid`. -/
def findUserid (p : Platform) (dbs : DbMap) (username : Str) : Option (Bool × Str) := do
  let buf ← dbGet dbs "user_mention_service.js" (keyOf p username)
  let userid ← ab2str buf
  some (decide (0 < buf.length), userid)

/-- The text of `results`. -/
def mentionsText (usernames userids : List Str) : Option Str :=
  jsonStringify (.obj [(lit "usernames", listValue usernames), (lit "userids", listValue userids)])

/-- The `userids` that `write_home_timeline` takes from it. -/
def mentionsUserids (text : Str) : Option (List Str) := do
  match (← parse text).field (lit "userids") with
  | some (.arr userids) => userids.mapM Item.ofValue
  | _ => none

/-- The user ids arrive. -/
theorem mentionsUserids_of_text {usernames userids : List Str} {text : Str}
    (h : mentionsText usernames userids = some text) : mentionsUserids text = some userids := by
  unfold mentionsText jsonStringify at h
  split at h
  · cases h
    rw [mentionsUserids, parse_stringify]
    exact mapM_ofValue userids
  · cases h

/-! ### The system -/

/-- A user as registered. -/
structure User where
  username : Str
  user_id : Str
  deriving DecidableEq

/-- A composed post: the entry `upload_post` makes of it, with the author's user id, and
the names its text mentions. -/
structure Composed where
  post : Post
  mentions : List Str

/-- The databases, and where everything stands. `mentions` has what has been looked up
of the names that a post mentions; `home` holds what `get_followers` has returned to
`write_home_timeline`, and `all`. -/
structure Network (F C : Type) where
  dbs : DbMap
  follow : F → Process
  mentions : C → List (Bool × Str)
  home : C → Option (List Str × List Str)
  write : C × ℕ → Process

/-- The steps, as the module says. -/
inductive NetworkLabel (F C : Type)
  | register (user : User) (rand : UInt32) (ok : Bool)
  | follow (l : RetryLabel F)
  | mention (c : C) (known : Bool)
  | home (c : C)
  | timeline (l : RetryLabel (C × ℕ))
  /-- A `DBSet` of a service that is not part of the model. -/
  | other (name : String) (key : UInt32) (content : List UInt8) (version rand : UInt32) (ok : Bool)

/-- The databases of the services of the model. -/
def networkDbs : List String :=
  ["user_mention_service.js", "social_graph_service.js", "user_timeline_service.js"]

/-- The user ids under which a post is written. -/
def recipients (post : Composed) (home : Option (List Str × List Str)) : List Str :=
  post.post.user_id :: home.elim [] Prod.snd

variable {F C : Type}

/-- The loops of the calls of `follow`. -/
def followLoops (p : Platform) (follows : F → Str × Str) (f : F) : List (Loop Value) :=
  follow p (follows f).1 (follows f).2

/-- The loops of the calls of `write_user_timeline`: none until the recipient is known,
and then one. -/
def timelineLoops (p : Platform) (composed : C → Composed)
    (home : C → Option (List Str × List Str)) (x : C × ℕ) : List (Loop Post) :=
  match (recipients (composed x.1) (home x.1))[x.2]? with
  | some user_id => writeUserTimeline p user_id (composed x.1).post
  | none => []

variable [DecidableEq F] [DecidableEq C]

/-- A step. A lookup is of the next name, and `get_followers` comes after all of them;
`all` is set once. None if the step is not possible. -/
def Network.exec (p : Platform) (follows : F → Str × Str) (composed : C → Composed)
    (w : Network F C) : NetworkLabel F C → Option (Network F C)
  | .register user rand ok => do
    let (ok', dbs) ← dbSet w.dbs "user_mention_service.js" (keyOf p user.username)
      (str2ab user.user_id) 0 rand
    if ok' = ok then some { w with dbs } else none
  | .follow l => do
    let r ← RetryWorld.exec (followLoops p follows) ⟨w.dbs, w.follow⟩ l
    if l.client.isSome then some { w with dbs := r.dbs, follow := r.process } else none
  | .mention c known => do
    let name ← (composed c).mentions[(w.mentions c).length]?
    let (known', userid) ← findUserid p w.dbs (name.drop 1)
    if known' = known then
      some { w with mentions := Function.update w.mentions c (w.mentions c ++ [(known, userid)]) }
    else none
  | .home c => do
    let text ← mentionsText ((composed c).mentions.map (List.drop 1)) ((w.mentions c).map Prod.snd)
    let followers ← parseList (← getFollowers p w.dbs (composed c).post.user_id)
    let userids ← mentionsUserids text
    if (w.home c).isNone ∧ (w.mentions c).length = (composed c).mentions.length then
      some { w with home := Function.update w.home c (some (followers, followers ++ userids)) }
    else none
  | .timeline l => do
    let r ← RetryWorld.exec (timelineLoops p composed w.home) ⟨w.dbs, w.write⟩ l
    if l.client.isSome then some { w with dbs := r.dbs, write := r.process } else none
  | .other name key content version rand ok => do
    let (ok', dbs) ← dbSet w.dbs name key content version rand
    if ok' = ok ∧ name ∉ networkDbs then some { w with dbs } else none

/-- The network before the first step. -/
def Network.start (dbs₀ : DbMap) : Network F C :=
  ⟨dbs₀, fun _ => ⟨0, .reading⟩, fun _ => [], fun _ => none, fun _ => ⟨0, .reading⟩⟩

/-- The calls `follows` and the posts `composed`, over databases `dbs₀`. -/
def network (p : Platform) (follows : F → Str × Str) (composed : C → Composed) (dbs₀ : DbMap) :
    System (Network F C) (NetworkLabel F C) where
  init w := w = .start dbs₀
  step w l w' := w.exec p follows composed l = some w'

/-- Steps that have been executed are a run. -/
theorem run_of_foldlM {p : Platform} {follows : F → Str × Str} {composed : C → Composed}
    {dbs₀ : DbMap} {ls : List (NetworkLabel F C)} {w : Network F C}
    (h : ls.foldlM (Network.exec p follows composed) (.start dbs₀) = some w) :
    Run (network p follows composed dbs₀) ls w :=
  .of_foldlM (fun _ _ _ hs => hs) rfl h

/-! ### What a step does -/

section Steps

variable {p : Platform} {follows : F → Str × Str} {composed : C → Composed}
  {w w' : Network F C} {l : NetworkLabel F C}

/-- A `DBSet` of the databases, as a step makes it. -/
theorem elsewhere_of_dbSet {name name' : String} {dbs dbs' : DbMap} {key : UInt32}
    {content : List UInt8} {version rand : UInt32} {ok : Bool}
    (h : dbSet dbs name' key content version rand = some (ok, dbs')) (hne : name' ≠ name) :
    Elsewhere name dbs dbs' := .inr ⟨name', key, content, version, rand, ok, hne, h⟩

/-- A step of a call of `follow`. -/
theorem Network.exec_follow (dbs₀ : DbMap) {r : RetryLabel F}
    (h : w.exec p follows composed (.follow r) = some w') :
    r.client.isSome ∧
      (retryLoops (followLoops p follows) dbs₀).step ⟨w.dbs, w.follow⟩ r ⟨w'.dbs, w'.follow⟩ ∧
      w' = { w with dbs := w'.dbs, follow := w'.follow } := by
  simp only [exec, Option.bind_eq_bind, Option.bind_eq_some_iff] at h
  obtain ⟨x, hx, h⟩ := h
  split at h
  · next hr =>
    obtain rfl := Option.some.inj h
    exact ⟨hr, RetryWorld.step_of_exec hx, rfl⟩
  · cases h

/-- A step of a call of `write_user_timeline`. -/
theorem Network.exec_timeline (dbs₀ : DbMap) {r : RetryLabel (C × ℕ)}
    (h : w.exec p follows composed (.timeline r) = some w') :
    r.client.isSome ∧
      (retryLoops (timelineLoops p composed w.home) dbs₀).step ⟨w.dbs, w.write⟩ r
        ⟨w'.dbs, w'.write⟩ ∧
      w' = { w with dbs := w'.dbs, write := w'.write } := by
  simp only [exec, Option.bind_eq_bind, Option.bind_eq_some_iff] at h
  obtain ⟨x, hx, h⟩ := h
  split at h
  · next hr =>
    obtain rfl := Option.some.inj h
    exact ⟨hr, RetryWorld.step_of_exec hx, rfl⟩
  · cases h

/-- A lookup of a mentioned name. -/
theorem Network.exec_mention {c : C} {known : Bool}
    (h : w.exec p follows composed (.mention c known) = some w') :
    ∃ name userid, (composed c).mentions[(w.mentions c).length]? = some name ∧
      findUserid p w.dbs (name.drop 1) = some (known, userid) ∧
      w' = { w with
        mentions := Function.update w.mentions c (w.mentions c ++ [(known, userid)]) } := by
  simp only [exec, Option.bind_eq_bind, Option.bind_eq_some_iff] at h
  obtain ⟨name, hname, ⟨known', userid⟩, hfind, h⟩ := h
  split at h
  · next hknown =>
    subst hknown
    exact ⟨name, userid, hname, hfind, (Option.some.inj h).symm⟩
  · cases h

/-- The call of `get_followers`, and `all`: it is made when all names have been looked
up, and once. -/
theorem Network.exec_home {c : C} (h : w.exec p follows composed (.home c) = some w') :
    ∃ text followers, getFollowers p w.dbs (composed c).post.user_id = some text ∧
      parseList text = some followers ∧ w.home c = none ∧
      (w.mentions c).length = (composed c).mentions.length ∧
      w' = { w with
        home := Function.update w.home c
          (some (followers, followers ++ (w.mentions c).map Prod.snd)) } := by
  simp only [exec, Option.bind_eq_bind, Option.bind_eq_some_iff] at h
  obtain ⟨mentions, hmentions, text, htext, followers, hfollowers, userids, huserids, h⟩ := h
  -- the ids are read back from the text that was stored with the post
  rw [mentionsUserids_of_text hmentions] at huserids
  obtain rfl := Option.some.inj huserids
  split at h
  · next hnone =>
    exact ⟨text, followers, htext, hfollowers, Option.isNone_iff_eq_none.1 hnone.1, hnone.2,
      (Option.some.inj h).symm⟩
  · cases h

omit [DecidableEq F] in
/-- `follow` is against the social graph. -/
theorem followLoops_name (f : F) (i : ℕ) (l : Loop Value)
    (h : (followLoops p follows f)[i]? = some l) : l.name = "social_graph_service.js" := by
  match i with
  | 0 =>
    cases h
    rfl
  | 1 =>
    cases h
    rfl
  | _ + 2 => cases h

omit [DecidableEq C] in
/-- `write_user_timeline` is against the timelines. -/
theorem timelineLoops_name {home : C → Option (List Str × List Str)} (x : C × ℕ) (i : ℕ)
    (l : Loop Post) (h : (timelineLoops p composed home x)[i]? = some l) :
    l.name = "user_timeline_service.js" := by
  unfold timelineLoops at h
  split at h
  · match i with
    | 0 =>
      cases h
      rfl
    | _ + 1 => cases h
  · cases h

/-- A registration. -/
theorem Network.exec_register {user : User} {rand : UInt32} {ok : Bool}
    (h : w.exec p follows composed (.register user rand ok) = some w') :
    ∃ dbs, dbSet w.dbs "user_mention_service.js" (keyOf p user.username) (str2ab user.user_id) 0
      rand = some (ok, dbs) ∧ w' = { w with dbs } := by
  simp only [exec, Option.bind_eq_bind, Option.bind_eq_some_iff] at h
  obtain ⟨⟨ok', dbs⟩, hset, h⟩ := h
  split at h
  · next hok =>
    subst hok
    exact ⟨dbs, hset, (Option.some.inj h).symm⟩
  · cases h

/-- A `DBSet` of another service. -/
theorem Network.exec_other {name : String} {key : UInt32} {content : List UInt8}
    {version rand : UInt32} {ok : Bool}
    (h : w.exec p follows composed (.other name key content version rand ok) = some w') :
    name ∉ networkDbs ∧
      ∃ dbs, dbSet w.dbs name key content version rand = some (ok, dbs) ∧ w' = { w with dbs } := by
  simp only [exec, Option.bind_eq_bind, Option.bind_eq_some_iff] at h
  obtain ⟨⟨ok', dbs⟩, hset, h⟩ := h
  split at h
  · next hok =>
    obtain ⟨rfl, hname⟩ := hok
    exact ⟨hname, dbs, hset, (Option.some.inj h).symm⟩
  · cases h

/-- A step that is not one of the loops leaves their processes and their databases
alone. -/
theorem Network.exec_rest (h : w.exec p follows composed l = some w')
    (hf : ∀ r, l ≠ .follow r) (ht : ∀ r, l ≠ .timeline r) :
    w'.follow = w.follow ∧ w'.write = w.write ∧
      ∀ name ∈ ["social_graph_service.js", "user_timeline_service.js"],
        Elsewhere name w.dbs w'.dbs := by
  -- registrations and other functions write other databases, and the lookups only read
  cases l with
  | register user rand ok =>
    obtain ⟨dbs, hset, rfl⟩ := exec_register h
    refine ⟨rfl, rfl, fun name hname => elsewhere_of_dbSet hset ?_⟩
    rintro rfl
    revert hname
    decide
  | follow r => exact absurd rfl (hf r)
  | mention c known =>
    obtain ⟨name, userid, -, -, rfl⟩ := exec_mention h
    exact ⟨rfl, rfl, fun _ _ => .inl rfl⟩
  | home c =>
    obtain ⟨text, followers, -, -, -, -, rfl⟩ := exec_home h
    exact ⟨rfl, rfl, fun _ _ => .inl rfl⟩
  | timeline r => exact absurd rfl (ht r)
  | other name key content version rand ok =>
    obtain ⟨hother, dbs, hset, rfl⟩ := exec_other h
    refine ⟨rfl, rfl, fun name' hname' => elsewhere_of_dbSet hset ?_⟩
    rintro rfl
    exact hother (List.mem_cons_of_mem _ hname')

/-- What a post's fan-out knows: the names looked up, and what `get_followers` returned.
-/
def Network.knows (w : Network F C) (c : C) :
    List (Bool × Str) × Option (List Str × List Str) := (w.mentions c, w.home c)

/-- A step adds to what one post's fan-out knows, or to nothing. What is known never
changes. -/
theorem Network.knows_of_exec (h : w.exec p follows composed l = some w') (c : C) :
    w'.knows c = w.knows c ∨
      (∃ name userid known, (composed c).mentions[(w.mentions c).length]? = some name ∧
        w'.knows c = (w.mentions c ++ [(known, userid)], w.home c)) ∨
      ∃ followers, w.home c = none ∧ (w.mentions c).length = (composed c).mentions.length ∧
        w'.knows c =
          (w.mentions c, some (followers, followers ++ (w.mentions c).map Prod.snd)) := by
  -- only a lookup of a name and the reply of `get_followers` add to what a post knows
  cases l with
  | register user rand ok =>
    obtain ⟨dbs, -, rfl⟩ := exec_register h
    exact .inl rfl
  | follow r =>
    rw [(exec_follow w.dbs h).2.2]
    exact .inl rfl
  | mention d known =>
    obtain ⟨name, userid, hname, -, rfl⟩ := exec_mention h
    by_cases hd : c = d
    · subst hd
      exact .inr (.inl ⟨name, userid, known, hname, by simp [knows]⟩)
    · exact .inl (by simp [knows, hd])
  | home d =>
    obtain ⟨text, followers, -, -, hnone, hall, rfl⟩ := exec_home h
    by_cases hd : c = d
    · subst hd
      exact .inr (.inr ⟨followers, hnone, hall, by simp [knows]⟩)
    · exact .inl (by simp [knows, hd])
  | timeline r =>
    rw [(exec_timeline w.dbs h).2.2]
    exact .inl rfl
  | other name key content version rand ok =>
    obtain ⟨-, dbs, -, rfl⟩ := exec_other h
    exact .inl rfl

/-- What `get_followers` returned stays. -/
theorem Network.home_of_exec {c : C} {home : List Str × List Str}
    (h : w.exec p follows composed l = some w') (hc : w.home c = some home) :
    w'.home c = some home := by
  rcases knows_of_exec h c with hk | ⟨_, _, _, -, hk⟩ | ⟨_, hnone, -⟩
  · exact (congrArg Prod.snd hk).trans hc
  · exact (congrArg Prod.snd hk).trans hc
  · rw [hnone] at hc
    cases hc

end Steps

/-! ### Runs -/

/-- A step of a call of `follow`. -/
def NetworkLabel.follow? : NetworkLabel F C → Option (RetryLabel F)
  | .follow l => some l
  | _ => none

/-- A step of a call of `write_user_timeline`. -/
def NetworkLabel.timeline? : NetworkLabel F C → Option (RetryLabel (C × ℕ))
  | .timeline l => some l
  | _ => none

/-- The steps of the calls of `follow`. -/
def followLabels (ls : List (NetworkLabel F C)) : List (RetryLabel F) :=
  ls.filterMap NetworkLabel.follow?

/-- The steps of the calls of `write_user_timeline`. -/
def timelineLabels (ls : List (NetworkLabel F C)) : List (RetryLabel (C × ℕ)) :=
  ls.filterMap NetworkLabel.timeline?

section Runs

variable {p : Platform} {follows : F → Str × Str} {composed : C → Composed} {dbs₀ : DbMap}
  {ls : List (NetworkLabel F C)} {w w' : Network F C}

/-- **The loops of `follow`** in a run: whatever else happens is, for the social graph,
the work of other services that do not write it. -/
theorem follow_run (h : Run (network p follows composed dbs₀) ls w) :
    PartOf (followLoops p follows) "social_graph_service.js" dbs₀ (followLabels ls)
      ⟨w.dbs, w.follow⟩ := by
  induction h with
  | init h0 =>
    obtain rfl : _ = _ := h0
    exact .initial
  | @step ls w w' l _ hs ih =>
    have hlabels : followLabels (ls ++ [l]) = followLabels ls ++ l.follow?.toList := by
      cases h : l.follow? <;> simp [followLabels, h]
    rw [hlabels]
    -- a step of `follow`, of `write_user_timeline` or of neither; the last two leave
    -- its database alone
    cases hl : l with
    | follow r =>
      subst hl
      obtain ⟨hclient, hstep, -⟩ := Network.exec_follow dbs₀ hs
      exact ih.step hclient hstep
    | timeline r =>
      subst hl
      obtain ⟨hclient, hstep, hw'⟩ := Network.exec_timeline dbs₀ hs
      have hfollow : w'.follow = w.follow := by rw [hw']
      rw [hfollow]
      simpa [NetworkLabel.follow?] using
        ih.elsewhere (elsewhere_of_step hstep hclient timelineLoops_name (by decide))
    | register | mention | home | other =>
      obtain ⟨hfollow, -, hdbs⟩ := Network.exec_rest hs (by simp [hl]) (by simp [hl])
      rw [hfollow]
      simpa [NetworkLabel.follow?] using ih.elsewhere (hdbs _ (by simp))

omit [DecidableEq C] in
/-- Whom a post is written to once `all` is known, it was written to before. -/
theorem timelineLoops_mono {home home' : C → Option (List Str × List Str)}
    (hhome : ∀ c h, home c = some h → home' c = some h) (x : C × ℕ) (i : ℕ) (l : Loop Post)
    (h : (timelineLoops p composed home x)[i]? = some l) :
    (timelineLoops p composed home' x)[i]? = some l := by
  obtain ⟨c, j⟩ := x
  cases hc : home c with
  | some h' => simpa only [timelineLoops, hc, hhome c h' hc] using h
  | none =>
    cases j with
    | zero => exact h
    | succ j => simp [timelineLoops, recipients, hc] at h

/-- **The loops of `write_user_timeline`** in a run. Here the program itself grows: a
loop is there once its recipient is known, and stays. -/
theorem timeline_run (h : Run (network p follows composed dbs₀) ls w) :
    PartOf (timelineLoops p composed w.home) "user_timeline_service.js" dbs₀ (timelineLabels ls)
      ⟨w.dbs, w.write⟩ := by
  induction h with
  | init h0 =>
    obtain rfl : _ = _ := h0
    exact .initial
  | @step ls w w' l _ hs ih =>
    have hlabels : timelineLabels (ls ++ [l]) = timelineLabels ls ++ l.timeline?.toList := by
      cases h : l.timeline? <;> simp [timelineLabels, h]
    have ih' : PartOf (timelineLoops p composed w'.home) "user_timeline_service.js" dbs₀
        (timelineLabels ls) ⟨w.dbs, w.write⟩ :=
      ih.of_le (timelineLoops_mono fun c h => Network.home_of_exec hs)
    rw [hlabels]
    -- a step of these loops; the steps of `follow` and all others are elsewhere
    cases hl : l with
    | follow r =>
      subst hl
      obtain ⟨hclient, hstep, hw'⟩ := Network.exec_follow dbs₀ hs
      have hwrite : w'.write = w.write := by rw [hw']
      rw [hwrite]
      simpa [NetworkLabel.timeline?] using
        ih'.elsewhere (elsewhere_of_step hstep hclient followLoops_name (by decide))
    | timeline r =>
      subst hl
      obtain ⟨hclient, hstep, hw'⟩ := Network.exec_timeline dbs₀ hs
      have hhome : w'.home = w.home := by rw [hw']
      rw [hhome] at ih' ⊢
      exact ih'.step hclient hstep
    | register | mention | home | other =>
      obtain ⟨-, hwrite, hdbs⟩ := Network.exec_rest hs (by simp [hl]) (by simp [hl])
      rw [hwrite]
      simpa [NetworkLabel.timeline?] using ih'.elsewhere (hdbs _ (by simp))

/-- `all` is the followers, then what was found for the mentioned names, in their
order. -/
theorem home_eq (h : Run (network p follows composed dbs₀) ls w) {c : C}
    {home : List Str × List Str} (hc : w.home c = some home) :
    (w.mentions c).length = (composed c).mentions.length ∧
      home.2 = home.1 ++ (w.mentions c).map Prod.snd := by
  revert home
  refine h.invariant (I := fun _ w => ∀ {home}, w.home c = some home →
    (w.mentions c).length = (composed c).mentions.length ∧
      home.2 = home.1 ++ (w.mentions c).map Prod.snd) ?_ ?_
  · rintro w hinit home hc
    obtain rfl : w = _ := hinit
    cases hc
  · intro ls w l w' _ ih hs home hc
    -- untouched, one more name looked up, or the followers fetched in this step
    rcases Network.knows_of_exec hs c with hk | ⟨_, _, _, hname, hk⟩ | ⟨_, -, hall, hk⟩
    · obtain ⟨hm, hh⟩ := Prod.mk.inj hk
      rw [hm]
      exact ih (hh ▸ hc)
    · -- nothing is left to look up
      obtain ⟨-, hh⟩ := Prod.mk.inj hk
      obtain ⟨hall, -⟩ := ih (hh ▸ hc)
      rw [hall] at hname
      simp at hname
    · obtain ⟨hm, hh⟩ := Prod.mk.inj hk
      rw [hh] at hc
      obtain rfl := Option.some.inj hc
      rw [hm]
      exact ⟨hall, rfl⟩

end Runs

end Nanoservices
