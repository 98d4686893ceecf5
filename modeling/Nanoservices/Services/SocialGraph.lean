import Nanoservices.Services.Updates
import Mathlib.Data.Set.Function

/-!
# Follower lists

One database holds both directions of the follow relation: the list of those a user
follows is stored under the user's name, the list of a user's followers under the name
with `"followers"` behind it. When the keys of all these strings differ and all calls of
`follow` have completed, the list under a string `s` holds

* the `v` of each call `follow(s, v)`, and
* the `u` of each call `follow(u, v)` with `v ++ "followers" = s`

(`Followed.mem_list_iff`). So the lists mirror the relation unless a user is called like
another user with `"followers"` behind the name, whose list then is also the other one's
list of followers (`follower_lists_mirror_iff`).
-/

namespace Nanoservices

open Utf16 Json Lts

variable {Client : Type}

/-! ### The lists -/

/-- The text `get_followers` replies. -/
def getFollowers (p : Platform) (dbs : DbMap) (user_id : Str) : Option Str := do
  let tmp ← dbGet dbs "social_graph_service.js" (keyOf p (user_id ++ lit "followers"))
  if tmp.length ≠ 0 then ab2str tmp else some (lit "[]")

/-- The list `follow` reads under a user's name before it pushes the followee. -/
def getFollowees (p : Platform) (dbs : DbMap) (user_id : Str) : Option (List Value) :=
  readList dbs ("social_graph_service.js", keyOf p user_id)

/-- Some call was `follow(u, v)`. -/
def Follows (calls : Client → Str × Str) (u v : Str) : Prop := ∃ c, calls c = (u, v)

/-- Both lists say about `u` and `v` what the calls say: the list of the followers of
`v` has `u`, and the list of those whom `u` follows has `v`, exactly if somebody has
asked for it. -/
def Mirrors (p : Platform) (calls : Client → Str × Str) (dbs : DbMap) (u v : Str) : Prop :=
  ((∃ text followers, getFollowers p dbs v = some text ∧ parseList text = some followers ∧
      Value.str u ∈ followers) ↔ Follows calls u v) ∧
    ((∃ followees, getFollowees p dbs u = some followees ∧ Value.str v ∈ followees) ↔
      Follows calls u v)

/-- The tokens of the successful `DBSet`s of the clients, oldest first. -/
def drawn : List (RetryLabel Client) → List UInt32
  | [] => []
  | .set _ _ rand true :: ls => rand :: drawn ls
  | _ :: ls => drawn ls

variable [DecidableEq Client]

/-- **The calls have been made.** Users called `names` have made them and all have
completed. The social graph was empty, nothing else wrote it, the tokens were not 0 and
did not repeat, and the keys of the lists differ. -/
structure Followed (p : Platform) (names : Set Str) (calls : Client → Str × Str)
    (ls : List (RetryLabel Client)) (w : RetryWorld Client) : Prop where
  users : ∀ c, (calls c).1 ∈ names ∧ (calls c).2 ∈ names
  keys : Set.InjOn (keyOf p) (names ∪ (· ++ lit "followers") '' names)
  run : ∃ dbs₀, (∀ key, StoredList dbs₀ ("social_graph_service.js", key)
      (none : Option (UInt32 × List Value))) ∧
    Run (retryLoops (fun c => follow p (calls c).1 (calls c).2) dbs₀) ls w
  only : ∀ key, OnlyLoops ("social_graph_service.js", key) ls
  fresh : 0 ∉ drawn ls ∧ (drawn ls).Nodup
  completed : ∀ c, (w.process c).loop = 2

/-! ### What a list holds -/

section Lists

variable {p : Platform} {calls : Client → Str × Str}

/-- What a loop pushes to its list. -/
def pushed (calls : Client → Str × Str) (x : Client × ℕ) : Option Value :=
  match x.2 with
  | 0 => some (.str (calls x.1).2)
  | 1 => some (.str (calls x.1).1)
  | _ => none

omit [DecidableEq Client] in
/-- What a loop of `follow` changes. -/
theorem changeOf_follow (x : Client × ℕ) (xs : List Value) :
    changeOf (fun c => follow p (calls c).1 (calls c).2) x xs =
      xs ++ (pushed calls x).toList := by
  obtain ⟨c, i⟩ := x
  match i with
  | 0 => rfl
  | 1 => rfl
  | _ + 2 => exact (List.append_nil xs).symm

omit [DecidableEq Client] in
/-- A list has what was there, and what has been pushed. -/
theorem mem_foldl_follow {v : Value} (as : List (Client × ℕ)) (xs : List Value) :
    v ∈ as.foldl (fun xs x => changeOf (fun c => follow p (calls c).1 (calls c).2) x xs) xs ↔
      v ∈ xs ∨ ∃ x ∈ as, pushed calls x = some v := by
  induction as generalizing xs with
  | nil => simp
  | cons a as ih =>
    rw [List.foldl_cons, ih, changeOf_follow, List.mem_append, Option.mem_toList, or_assoc]
    simp

omit [DecidableEq Client] in
/-- The tokens of a key are among those drawn. -/
theorem tokens_sublist_drawn {α : Type} (program : Client → List (Loop α)) (k : String × UInt32)
    (ls : List (RetryLabel Client)) :
    (Optimistic.tokens (keyEvents program k ls)).Sublist (drawn ls) := by
  induction ls with
  | nil => exact .slnil
  | cons l ls ih =>
    cases l with
    | get c i =>
      rw [keyEvents]
      split
      · exact ih
      · exact ih
    | set c i rand ok =>
      rw [keyEvents]
      -- an accepted `DBSet` of the key contributes its draw, one of another key is left
      -- out
      cases ok with
      | true =>
        split
        · exact ih.cons_cons rand
        · exact ih.cons rand
      | false =>
        split
        · exact ih
        · exact ih
    | other => exact ih

omit [DecidableEq Client] in
/-- The loops against the list of a string. -/
theorem pushed_of_target {names : Set Str}
    (husers : ∀ c, (calls c).1 ∈ names ∧ (calls c).2 ∈ names)
    (hkeys : Set.InjOn (keyOf p) (names ∪ (· ++ lit "followers") '' names)) {s : Str}
    (hs : s ∈ names ∪ (· ++ lit "followers") '' names) (v : Value) :
    (∃ x, target (fun c => follow p (calls c).1 (calls c).2) x =
        some ("social_graph_service.js", keyOf p s) ∧ pushed calls x = some v) ↔
      (∃ followee, Follows calls s followee ∧ v = .str followee) ∨
        ∃ follower followee, Follows calls follower followee ∧ s = followee ++ lit "followers" ∧
          v = .str follower := by
  constructor
  · rintro ⟨⟨c, i⟩, htarget, hpushed⟩
    -- the first loop of `follow` writes the follower's own key
    match i with
    | 0 =>
      have hkey : keyOf p (calls c).1 = keyOf p s := (Prod.mk.inj (Option.some.inj htarget)).2
      obtain rfl := hkeys (.inl (husers c).1) hs hkey
      exact .inl ⟨(calls c).2, ⟨c, rfl⟩, (Option.some.inj hpushed).symm⟩
    -- the second one writes the followee's, under the longer name
    | 1 =>
      have hkey : keyOf p ((calls c).2 ++ lit "followers") = keyOf p s :=
        (Prod.mk.inj (Option.some.inj htarget)).2
      obtain rfl := hkeys (.inr ⟨_, (husers c).2, rfl⟩) hs hkey
      exact .inr ⟨(calls c).1, (calls c).2, ⟨c, rfl⟩, rfl, (Option.some.inj hpushed).symm⟩
    | _ + 2 => cases hpushed
  · rintro (⟨followee, ⟨c, hc⟩, rfl⟩ | ⟨follower, followee, ⟨c, hc⟩, rfl, rfl⟩)
    · refine ⟨(c, 0), ?_, ?_⟩
      · simp [target, follow, hc]
      · simp [pushed, hc]
    · refine ⟨(c, 1), ?_, ?_⟩
      · simp [target, follow, hc]
      · simp [pushed, hc]

/-- **What is in a list**: whom a user of that name follows, and who follows a user
whose name with `"followers"` behind it this is. Both kinds of entries can be under one
key only if a name ends in `"followers"`. -/
theorem Followed.mem_list_iff {names : Set Str} {ls : List (RetryLabel Client)}
    {w : RetryWorld Client} (h : Followed p names calls ls w) {s : Str}
    (hs : s ∈ names ∪ (· ++ lit "followers") '' names) :
    ∃ e : Option (UInt32 × List Value),
      StoredList w.dbs ("social_graph_service.js", keyOf p s) e ∧
      ∀ v, v ∈ (e.map Prod.snd).getD [] ↔
        (∃ followee, Follows calls s followee ∧ v = .str followee) ∨
          ∃ follower followee, Follows calls follower followee ∧ s = followee ++ lit "followers" ∧
            v = .str follower := by
  obtain ⟨dbs₀, hempty, hrun⟩ := h.run
  have hsub := tokens_sublist_drawn (fun c => follow p (calls c).1 (calls c).2)
    ("social_graph_service.js", keyOf p s) ls
  -- every `follow` has replied, so both of its loops are done
  have hdone : ∀ x, target (fun c => follow p (calls c).1 (calls c).2) x =
      some ("social_graph_service.js", keyOf p s) → x.2 < (w.process x.1).loop := by
    rintro ⟨c, i⟩ htarget
    rw [h.completed c]
    match i with
    | 0 => exact Nat.zero_lt_two
    | 1 => exact Nat.one_lt_two
    | _ + 2 => cases htarget
  obtain ⟨e, hstored, -, hmem, hfold⟩ := appliesOnce _ _ dbs₀ none ls w (hempty _) hrun
    (h.only _) ⟨fun hz => h.fresh.1 (hsub.mem hz), hsub.nodup h.fresh.2⟩ hdone
  refine ⟨e, hstored, fun v => ?_⟩
  rw [hfold, mem_foldl_follow, ← pushed_of_target h.users h.keys hs]
  simp [hmem]

end Lists

/-! ### Reading a list -/

/-- What `get_followers` replies is the text of the list. -/
theorem getFollowers_eq {p : Platform} {dbs : DbMap} {user_id : Str}
    {e : Option (UInt32 × List Value)}
    (h : StoredList dbs ("social_graph_service.js", keyOf p (user_id ++ lit "followers")) e) :
    ∃ text, getFollowers p dbs user_id = some text ∧
      parseList text = some ((e.map Prod.snd).getD []) := by
  rw [getFollowers, Stored.dbGet (k := (_, _)) h]
  cases e with
  | none => exact ⟨lit "[]", rfl, parseList_stringify ([] : List Value)⟩
  | some e =>
    refine ⟨stringify (listValue e.2), ?_, parseList_stringify e.2⟩
    simp only [Option.map_some, Option.getD_some, Option.bind_eq_bind, Option.bind_some]
    rw [if_pos (by simp), ab2str_writeInt_append]

/-! ### When the lists mirror the relation -/

section Mirror

variable {p : Platform} {names : Set Str} {calls : Client → Str × Str}
  {ls : List (RetryLabel Client)} {w : RetryWorld Client}

/-- Whom the two lists name: those they should, and perhaps others. Nobody who should be
there is missing. -/
theorem Followed.mirrors_iff (h : Followed p names calls ls w) {u v : Str} (hu : u ∈ names)
    (hv : v ∈ names) :
    Mirrors p calls w.dbs u v ↔ (Follows calls (v ++ lit "followers") u → Follows calls u v) ∧
      ∀ v', u = v' ++ lit "followers" → Follows calls v v' → Follows calls u v := by
  obtain ⟨e, he, hmem⟩ := h.mem_list_iff (s := v ++ lit "followers") (.inr ⟨v, hv, rfl⟩)
  obtain ⟨text, htext, hparse⟩ := getFollowers_eq he
  obtain ⟨e', he', hmem'⟩ := h.mem_list_iff (.inl hu)
  rw [Mirrors, getFollowees, he'.readList, htext]
  simp only [Option.some.injEq, exists_and_left, exists_eq_left', hparse, hmem, hmem',
    Value.str.injEq, List.append_cancel_right_eq]
  constructor
  -- each list also holds what was pushed on it under the name's other reading
  · rintro ⟨hfollowers, hfollowees⟩
    refine ⟨fun hfollows => hfollowers.1 (.inl ⟨u, hfollows, rfl⟩), fun v' hu' hfollows => ?_⟩
    exact hfollowees.1 (.inr ⟨v, v', hfollows, hu', rfl⟩)
  · rintro ⟨hfollowers, hfollowees⟩
    refine ⟨⟨?_, fun hfollows => .inr ⟨u, v, hfollows, rfl, rfl⟩⟩,
      ⟨?_, fun hfollows => .inl ⟨v, hfollows, rfl⟩⟩⟩
    · rintro (⟨_, hfollows, rfl⟩ | ⟨_, _, hfollows, rfl, rfl⟩)
      · exact hfollowers hfollows
      · exact hfollows
    · rintro (⟨_, hfollows, rfl⟩ | ⟨_, v', hfollows, hu', rfl⟩)
      · exact hfollows
      · exact hfollowees v' hu' hfollows

/-- **Follower lists mirror the follow relation** exactly when a user who is called like
another one with `"followers"` behind the name follows those, and only those, who follow
the other. This is for all names and calls, in any order and with any interleaving of
their loops.

Each list is what its key was written with (`Followed.mem_list_iff`), and one key can be
the key of a user's followees and of another one's followers. Which pairs this touches
is said by `Followed.mirrors_iff`. -/
theorem follower_lists_mirror_iff (h : Followed p names calls ls w) :
    (∀ u ∈ names, ∀ v ∈ names, Mirrors p calls w.dbs u v) ↔
      ∀ u ∈ names, ∀ v ∈ names, v ++ lit "followers" ∈ names →
        (Follows calls (v ++ lit "followers") u ↔ Follows calls u v) := by
  constructor
  -- one half from the pair itself, the other from the pair of the longer name
  · intro hall u hu v hv hvf
    refine ⟨((h.mirrors_iff hu hv).1 (hall u hu v hv)).1, fun hfollows => ?_⟩
    exact ((h.mirrors_iff hvf hu).1 (hall _ hvf u hu)).2 v rfl hfollows
  · intro hiff u hu v hv
    rw [h.mirrors_iff hu hv]
    constructor
    · intro hfollows
      obtain ⟨c, hc⟩ := id hfollows
      have hvf : v ++ lit "followers" ∈ names := by
        have huser := (h.users c).1
        rwa [hc] at huser
      exact (hiff u hu v hv hvf).1 hfollows
    · rintro v' rfl hfollows
      obtain ⟨c, hc⟩ := id hfollows
      have hv' : v' ∈ names := by
        have huser := (h.users c).2
        rwa [hc] at huser
      exact (hiff v hv v' hv' hu).2 hfollows

end Mirror

/-! ### A user called `bbfollowers` -/

/-- The one call `follow("a", "bb")`. -/
def aFollowsBb : Unit → Str × Str := fun _ => (lit "a", lit "bb")

/-- The databases after its first loop. -/
def followeePushed : DbMap :=
  ((dbSet emptyGraph "social_graph_service.js" 1 (str2ab (lit "[\"bb\"]")) 0 5).get rfl).2

/-- The databases after its second loop. -/
def followerPushed : DbMap :=
  ((dbSet followeePushed "social_graph_service.js" 11 (str2ab (lit "[\"a\"]")) 0 7).get rfl).2

/-- The steps of the call. -/
def aFollowsBbSteps : List (RetryLabel Unit) :=
  [.get () 0, .set () 0 5 true, .get () 1, .set () 1 7 true]

/-- The steps are a run. -/
theorem aFollowsBb_run : Run
    (retryLoops (fun c => follow asciiPlatform (aFollowsBb c).1 (aFollowsBb c).2) emptyGraph)
    aFollowsBbSteps ⟨followerPushed, fun _ => ⟨2, .reading⟩⟩ := by
  -- the two loops of the one `follow`, each a `DBGet` and an accepted `DBSet`
  set S := retryLoops (fun c => follow asciiPlatform (aFollowsBb c).1 (aFollowsBb c).2) emptyGraph
  have hget : S.step ⟨emptyGraph, fun _ => ⟨0, .reading⟩⟩ (.get () 0)
      ⟨emptyGraph, fun _ => ⟨0, .writing (str2ab (lit "[\"bb\"]")) 0⟩⟩ :=
    ⟨_, [], rfl, rfl, rfl, rfl⟩
  have hset : S.step ⟨emptyGraph, fun _ => ⟨0, .writing (str2ab (lit "[\"bb\"]")) 0⟩⟩
      (.set () 0 5 true) ⟨followeePushed, fun _ => ⟨1, .reading⟩⟩ :=
    ⟨_, _, _, _, rfl, rfl, rfl, rfl⟩
  have hget' : S.step ⟨followeePushed, fun _ => ⟨1, .reading⟩⟩ (.get () 1)
      ⟨followeePushed, fun _ => ⟨1, .writing (str2ab (lit "[\"a\"]")) 0⟩⟩ :=
    ⟨_, [], rfl, rfl, rfl, rfl⟩
  have hset' : S.step ⟨followeePushed, fun _ => ⟨1, .writing (str2ab (lit "[\"a\"]")) 0⟩⟩
      (.set () 1 7 true) ⟨followerPushed, fun _ => ⟨2, .reading⟩⟩ :=
    ⟨_, _, _, _, rfl, rfl, rfl, rfl⟩
  exact ((((Run.init rfl).step hget).step hset).step hget').step hset'

/-- The call has been made, among users that have other keys. -/
theorem aFollowsBb_followed {names : Set Str} (ha : lit "a" ∈ names) (hbb : lit "bb" ∈ names)
    (hkeys : Set.InjOn (keyOf asciiPlatform) (names ∪ (· ++ lit "followers") '' names)) :
    Followed asciiPlatform names aFollowsBb aFollowsBbSteps
      ⟨followerPushed, fun _ => ⟨2, .reading⟩⟩ where
  users _ := ⟨ha, hbb⟩
  keys := hkeys
  run := ⟨emptyGraph, emptyGraph_stored, aFollowsBb_run⟩
  only key name key' content version rand ok hmem := by simp [aFollowsBbSteps] at hmem
  fresh := by decide
  completed _ := rfl

/-- The keys of finitely many users' lists. -/
theorem injOn_keyOf {p : Platform} {names : List Str}
    (h : ∀ s ∈ names ++ names.map (· ++ lit "followers"),
      ∀ t ∈ names ++ names.map (· ++ lit "followers"), keyOf p s = keyOf p t → s = t) :
    Set.InjOn (keyOf p) ({s | s ∈ names} ∪ (· ++ lit "followers") '' {s | s ∈ names}) := by
  have hmem : ∀ s ∈ ({s | s ∈ names} ∪ (· ++ lit "followers") '' {s | s ∈ names} : Set Str),
      s ∈ names ++ names.map (· ++ lit "followers") := by
    rintro s (hs | ⟨v, hv, rfl⟩)
    · exact List.mem_append_left _ hs
    · exact List.mem_append_right _ (List.mem_map_of_mem hv)
  exact fun s hs t ht => h s (hmem s hs) t (hmem t ht)

/-- Among `a` and `bb` the lists mirror the relation. -/
theorem follower_lists_mirror_a_bb :
    Mirrors asciiPlatform aFollowsBb followerPushed (lit "a") (lit "bb") := by
  have hfollowed : Followed asciiPlatform {s | s ∈ [lit "a", lit "bb"]} aFollowsBb
      aFollowsBbSteps ⟨followerPushed, fun _ => ⟨2, .reading⟩⟩ :=
    aFollowsBb_followed (by simp) (by simp) (injOn_keyOf (by decide))
  have hnone : ∀ v ∈ [lit "a", lit "bb"], v ++ lit "followers" ∉ [lit "a", lit "bb"] := by decide
  exact (follower_lists_mirror_iff hfollowed).2 (fun u _ v hv hvf => absurd hvf (hnone v hv))
    (lit "a") (by simp) (lit "bb") (by simp)

/-- With a user `bbfollowers`, the list of those whom this user follows holds `a`. -/
theorem follower_lists_not_mirror : ¬∀ (names : Set Str) (calls : Unit → Str × Str)
    (ls : List (RetryLabel Unit)) (w : RetryWorld Unit),
    Followed asciiPlatform names calls ls w →
      ∀ u ∈ names, ∀ v ∈ names, Mirrors asciiPlatform calls w.dbs u v := by
  intro hall
  have hfollowed : Followed asciiPlatform {s | s ∈ [lit "a", lit "bb", lit "bbfollowers"]}
      aFollowsBb aFollowsBbSteps ⟨followerPushed, fun _ => ⟨2, .reading⟩⟩ :=
    aFollowsBb_followed (by simp) (by simp) (injOn_keyOf (by decide))
  have ha : lit "a" ∈ {s | s ∈ [lit "a", lit "bb", lit "bbfollowers"]} := by simp
  have hbbf : lit "bbfollowers" ∈ {s | s ∈ [lit "a", lit "bb", lit "bbfollowers"]} := by simp
  -- `bbfollowers` is a user too, whose followees are the followers of `bb`
  obtain ⟨-, hfollows⟩ := (hfollowed.mirrors_iff hbbf ha).1 (hall _ _ _ _ hfollowed _ hbbf _ ha)
  obtain ⟨c, hc⟩ := hfollows (lit "bb") rfl ⟨(), rfl⟩
  exact absurd (Prod.mk.inj hc).1 (by decide)

end Nanoservices
