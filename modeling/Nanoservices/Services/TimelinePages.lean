import Nanoservices.Services.PostTasks

/-!
# Reading a timeline

`read` of `user-timeline.js` asks `read_user_timeline` for the posts from one position
to another, which has `read_posts` of `post_storage.js` look them up. The page is cut
out with `slice`, but then its ids are taken from the whole timeline, so that the reply
has as many posts as the page, from the beginning: it is the page asked for when that
begins at 0 or is empty, and otherwise only when the timeline repeats itself
(`page_replied_iff`).
-/

namespace Nanoservices

open Utf16 Json

/-! ### The functions -/

/-- A value where JavaScript wants a number: a number, or its decimal numeral. -/
def numberOf : Value → Option ℤ
  | .num n => some n
  | .str s => (toNumber s).map fun n => (n : ℤ)
  | _ => none

/-- A position relative to the end if it is negative, within an array. -/
def relativeIndex (length : ℕ) (k : ℤ) : ℕ := min (if k < 0 then length + k else k).toNat length

/-- `Array.prototype.slice`. -/
def slice {α : Type} (arr : List α) (start stop : ℤ) : List α :=
  (arr.take (relativeIndex arr.length stop)).drop (relativeIndex arr.length start)

/-- `read` of `user-timeline.js`, up to its call of `read_user_timeline`: the argument. -/
def readArgs (args : Str) : Option Str := do
  let parameters ← (← parse args).field (lit "parameters")
  jsonStringify (.obj [(lit "user_id", ← parameters.field (lit "user_id")),
    (lit "start", ← parameters.field (lit "start")), (lit "end", ← parameters.field (lit "stop"))])

/-- `read_user_timeline`, up to its call of `read_posts`: the argument. The range is cut
out with `slice`, with both bounds clamped to the number of posts; its length is then
all that is used of it, as the ids are taken from `arr[i]`. -/
def readUserTimeline (p : Platform) (dbs : DbMap) (args : Str) : Option Str := do
  let req ← parse args
  let user_id ← stringField "user_id" req
  let start ← (req.field (lit "start")).bind numberOf
  let stop ← (req.field (lit "end")).bind numberOf
  let arr : List Post ← readList dbs ("user_timeline_service.js", keyOf p user_id)
  let range := slice arr (min start arr.length) (min stop arr.length + 1)
  let posts ← (List.range range.length).mapM fun i => arr[i]?.map Post.post_id
  jsonStringify (listValue posts)

/-- The post of an id in `post_storage.js`. -/
def storedPost (p : Platform) (dbs : DbMap) (post_id : Str) : Option Value := do
  parse (← ab2str (← dbGet dbs "post_storage.js" (keyOf p post_id)))

/-- `read_posts`: its reply. -/
def readPosts (p : Platform) (dbs : DbMap) (args : Str) : Option Str := do
  let arr : List Str ← parseList args
  let ret ← arr.mapM (storedPost p dbs)
  jsonStringify (.arr ret)

/-- What `read_user_timeline` replies. The posts may be read later than the timeline. -/
def timelineReply (p : Platform) (dbs dbs' : DbMap) (args : Str) : Option Str :=
  (readUserTimeline p dbs args).bind (readPosts p dbs')

/-! ### Pages -/

section Page

variable {α : Type}

/-- The items at the positions from `start` to `stop`. -/
def page (start stop : ℕ) (xs : List α) : List α := (xs.drop start).take (stop + 1 - start)

/-- The length of a page. -/
theorem length_page (start stop : ℕ) (xs : List α) :
    (page start stop xs).length = min (stop + 1 - start) (xs.length - start) := by
  simp [page]

/-- The items of a page. -/
theorem getElem?_page {start stop : ℕ} (hle : start ≤ stop) (xs : List α) (i : ℕ) :
    (page start stop xs)[i]? = if start + i ≤ stop then xs[start + i]? else none := by
  rw [page, List.getElem?_take, List.getElem?_drop]
  by_cases h : start + i ≤ stop
  · rw [if_pos h, if_pos (by omega)]
  · rw [if_neg h, if_neg (by omega)]

/-- What `slice` cuts out is the page: the clamped bounds are not negative, so they are
positions from the front. -/
theorem slice_eq_page (start stop : ℕ) (xs : List α) :
    slice xs (min (start : ℤ) xs.length) (min (stop : ℤ) xs.length + 1) = page start stop xs := by
  have hstart : relativeIndex xs.length (min (start : ℤ) xs.length) = min start xs.length := by
    unfold relativeIndex
    omega
  have hstop : relativeIndex xs.length (min (stop : ℤ) xs.length + 1) =
      min (stop + 1) xs.length := by
    unfold relativeIndex
    omega
  rw [slice, hstart, hstop, page, List.drop_take]
  -- behind the end of the timeline both are empty
  by_cases h : start ≤ xs.length
  · rw [min_eq_left h, List.take_eq_take_iff, List.length_drop]
    omega
  · rw [List.drop_eq_nil_of_le (by omega), List.drop_eq_nil_of_le (by omega), List.take_nil,
      List.take_nil]

/-- Consecutive pages make up the list. -/
theorem flatMap_page {size : ℕ} (hsize : 0 < size) (xs : List α) (m : ℕ) :
    (List.range m).flatMap (fun k => page (k * size) (k * size + size - 1) xs) =
      xs.take (m * size) := by
  induction m with
  | zero => simp
  | succ m ih =>
    have hpage : page (m * size) (m * size + size - 1) xs = (xs.drop (m * size)).take size := by
      rw [page]
      congr 1
      omega
    rw [List.range_succ, List.flatMap_append, ih, List.flatMap_singleton, hpage, ← List.take_add,
      Nat.succ_mul]

end Page

/-! ### What is asked for, and what is stored -/

/-- The argument of `read_user_timeline` asks for a page. -/
def AsksFor (args user_id : Str) (start stop : ℕ) : Prop :=
  ∃ req, parse args = some req ∧ stringField "user_id" req = some user_id ∧
    (req.field (lit "start")).bind numberOf = some (start : ℤ) ∧
    (req.field (lit "end")).bind numberOf = some (stop : ℤ)

/-- `read` asks for the page that its parameters name. -/
theorem asksFor_readArgs {args args' user_id : Str} {start stop : ℕ} {req parameters : Value}
    (hreq : parse args = some req) (hparameters : req.field (lit "parameters") = some parameters)
    (huser : stringField "user_id" parameters = some user_id)
    (hstart : (parameters.field (lit "start")).bind numberOf = some (start : ℤ))
    (hstop : (parameters.field (lit "stop")).bind numberOf = some (stop : ℤ))
    (h : readArgs args = some args') : AsksFor args' user_id start stop := by
  simp only [readArgs, hreq, hparameters, Option.bind_eq_bind, Option.bind_some,
    Option.bind_eq_some_iff] at h
  obtain ⟨u, hu, s, hs, e, he, htext⟩ := h
  rw [hs, Option.bind_some] at hstart
  rw [he, Option.bind_some] at hstop
  -- the arguments are passed on as a text, which is parsed again by the callee
  unfold jsonStringify at htext
  split at htext
  · cases htext
    refine ⟨_, parse_stringify _, ?_, hstart, hstop⟩
    rw [stringField, hu] at huser
    exact huser
  · cases htext

/-- The posts of a timeline are in `post_storage.js`, and `content` is what is stored of
each. -/
def AllStored (p : Platform) (dbs : DbMap) (posts : List Post) (content : Post → Value) : Prop :=
  ∀ q ∈ posts, storedPost p dbs q.post_id = some (content q)

variable {p : Platform} {dbs dbs' : DbMap} {posts : List Post} {content : Post → Value}

/-- The ids that are passed on: those of the first posts. -/
def passedIds (start stop : ℕ) (posts : List Post) : List Str :=
  (posts.take (page start stop posts).length).map Post.post_id

/-- The ids of the first posts. -/
theorem mapM_range_getElem? {β : Type} (f : Post → β) {m : ℕ} (hm : m ≤ posts.length) :
    ((List.range m).mapM fun i => posts[i]?.map f) = some ((posts.take m).map f) := by
  induction m with
  | zero => rfl
  | succ m ih =>
    have hlast : posts[m]? = some posts[m] := List.getElem?_eq_getElem hm
    rw [List.range_succ, List.mapM_append, ih (by omega), List.take_add_one, hlast]
    simp only [List.mapM_cons, List.mapM_nil, hlast, List.map_append]
    rfl

/-- What `read_user_timeline` passes on: as many ids as the page has, from the beginning
of the timeline. -/
theorem readUserTimeline_eq {args user_id : Str} {start stop : ℕ}
    (hargs : AsksFor args user_id start stop)
    (hposts : readList dbs ("user_timeline_service.js", keyOf p user_id) = some posts) :
    readUserTimeline p dbs args = jsonStringify (listValue (passedIds start stop posts)) := by
  obtain ⟨req, hreq, huser, hstart, hstop⟩ := hargs
  have hlen : (page start stop posts).length ≤ posts.length := by
    rw [length_page]
    omega
  simp only [readUserTimeline, hreq, huser, hstart, hstop, hposts, Option.bind_eq_bind,
    Option.bind_some, slice_eq_page, mapM_range_getElem? _ hlen]
  rfl

/-- What `read_posts` replies for these ids. -/
theorem readPosts_eq {ys : List Post} {text : Str} (hstored : AllStored p dbs' ys content)
    (htext : jsonStringify (listValue (ys.map Post.post_id)) = some text) :
    readPosts p dbs' text = jsonStringify (.arr (ys.map content)) := by
  -- each id is looked up by itself
  have hlookup : (ys.map Post.post_id).mapM (storedPost p dbs') = some (ys.map content) := by
    clear htext
    induction ys with
    | nil => rfl
    | cons q ys ih =>
      have htail := ih fun q' hq' => hstored q' (List.mem_cons_of_mem _ hq')
      simp [hstored q List.mem_cons_self, htail]
  unfold jsonStringify at htext
  split at htext
  · cases htext
    simp only [readPosts, parseList_stringify, Option.bind_eq_bind, Option.bind_some, hlookup]
  · cases htext

/-! ### The page that is replied -/

/-- The posts of the page are the first posts of the timeline: at each position the
content is the same as so many positions further on. -/
def Repeats (content : Post → Value) (start stop : ℕ) (posts : List Post) : Prop :=
  ∀ i q q', start + i ≤ stop → posts[i]? = some q → posts[start + i]? = some q' →
    content q = content q'

/-- The texts are not too long for a string: that of the ids, which is passed on, and
that of the posts, which is replied. -/
def PageFits (content : Post → Value) (start stop : ℕ) (posts : List Post) : Prop :=
  (stringify (listValue (passedIds start stop posts))).length ≤ kMaxLength ∧
    (stringify (.arr ((page start stop posts).map content))).length ≤ kMaxLength

/-- A page from 0 on. -/
theorem repeats_of_zero (stop : ℕ) : Repeats content 0 stop posts := by
  intro i q q' _ hq hq'
  rw [Nat.zero_add, hq] at hq'
  rw [Option.some.inj hq']

/-- An empty page. -/
theorem repeats_of_le {start : ℕ} (stop : ℕ) (h : posts.length ≤ start) :
    Repeats content start stop posts := by
  intro i q q' _ _ hq'
  rw [List.getElem?_eq_none (by omega)] at hq'
  cases hq'

/-- The first posts are the page if the timeline repeats itself. -/
theorem map_take_eq_iff {start stop : ℕ} (hle : start ≤ stop) :
    (posts.take (page start stop posts).length).map content = (page start stop posts).map content ↔
      Repeats content start stop posts := by
  have hlen := length_page start stop posts
  constructor
  -- position by position; behind the page both lists have ended
  · intro heq i q q' hi hq hq'
    have hlt : start + i < posts.length := (List.getElem?_eq_some_iff.1 hq').1
    have hitem := congrArg (fun xs => xs[i]?) heq
    simp only [List.getElem?_map, getElem?_page hle, if_pos hi, hq', List.getElem?_take,
      if_pos (show i < (page start stop posts).length by omega), hq] at hitem
    exact Option.some.inj hitem
  · intro hrepeats
    refine List.ext_getElem? fun i => ?_
    simp only [List.getElem?_map, getElem?_page hle, List.getElem?_take]
    by_cases hi : i < (page start stop posts).length
    · have hi' : i < posts.length ∧ start + i < posts.length ∧ start + i ≤ stop := by omega
      rw [if_pos hi, if_pos hi'.2.2, List.getElem?_eq_getElem hi'.1,
        List.getElem?_eq_getElem hi'.2.1, Option.map_some, Option.map_some]
      exact congrArg some (hrepeats i _ _ hi'.2.2 (List.getElem?_eq_getElem hi'.1)
        (List.getElem?_eq_getElem hi'.2.1))
    · rw [if_neg hi]
      split
      · rw [List.getElem?_eq_none (by omega)]
      · rfl

/-- **What is replied**, in terms of the timeline: the page that was asked for, exactly
when the first posts are those of the page and both texts fit. Two texts of lists are
equal only if the lists are, since they can be parsed. -/
theorem timelineReply_eq_some_iff {args user_id : Str} {start stop : ℕ} (hle : start ≤ stop)
    (hargs : AsksFor args user_id start stop)
    (hposts : readList dbs ("user_timeline_service.js", keyOf p user_id) = some posts)
    (hstored : AllStored p dbs' posts content) :
    timelineReply p dbs dbs' args = some (stringify (.arr ((page start stop posts).map content))) ↔
      (start = 0 ∨ posts.length ≤ start ∨ Repeats content start stop posts) ∧
        PageFits content start stop posts := by
  have hfirst : AllStored p dbs' (posts.take (page start stop posts).length) content :=
    fun q hq => hstored q (List.mem_of_mem_take hq)
  -- of the three ways, the first two are cases of the third
  have hcases : (start = 0 ∨ posts.length ≤ start ∨ Repeats content start stop posts) ↔
      Repeats content start stop posts := by
    constructor
    · rintro (rfl | h | h)
      · exact repeats_of_zero stop
      · exact repeats_of_le stop h
      · exact h
    · exact fun h => .inr (.inr h)
  rw [timelineReply, readUserTimeline_eq hargs hposts, hcases, PageFits]
  by_cases hids : (stringify (listValue (passedIds start stop posts))).length ≤ kMaxLength
  · have htext : jsonStringify (listValue (passedIds start stop posts)) =
        some (stringify (listValue (passedIds start stop posts))) := if_pos hids
    rw [htext, Option.bind_some, readPosts_eq hfirst htext, jsonStringify]
    by_cases hsame : Repeats content start stop posts
    · rw [(map_take_eq_iff hle).2 hsame]
      split
      · next hfits => exact iff_of_true rfl ⟨hsame, hids, hfits⟩
      · next hfits => exact iff_of_false (by simp) fun h => hfits h.2.2
    · refine iff_of_false (fun heq => hsame ?_) fun h => hsame h.1
      split at heq
      · have hparsed := congrArg parse (Option.some.inj heq)
        rw [parse_stringify, parse_stringify] at hparsed
        exact (map_take_eq_iff hle).1 (Value.arr.inj (Option.some.inj hparsed))
      · cases heq
  · have htext : jsonStringify (listValue (passedIds start stop posts)) = none := if_neg hids
    rw [htext]
    exact iff_of_false (by simp) fun h => hids h.2.1

/-- **A page is the page asked for** exactly when it begins at 0, lies behind the
timeline or repeats the timeline's first posts, and its texts fit strings. Then
consecutive pages have every post once. This is for every timeline, whatever is stored
of its posts, and every page that `read` can ask for.

What is replied are the first posts of the timeline, as many as the page has
(`timelineReply_eq_some_iff`): the ids are taken from `arr` where those of the slice
were meant. -/
theorem pages_replied_iff {user_id : Str} (ask : ℕ → ℕ → Str)
    (hask : ∀ start stop, AsksFor (ask start stop) user_id start stop)
    (hposts : readList dbs ("user_timeline_service.js", keyOf p user_id) = some posts)
    (hstored : AllStored p dbs' posts content) :
    (∀ start stop, start ≤ stop →
      (timelineReply p dbs dbs' (ask start stop) =
          some (stringify (.arr ((page start stop posts).map content))) ↔
        (start = 0 ∨ posts.length ≤ start ∨ Repeats content start stop posts) ∧
          PageFits content start stop posts)) ∧
    ∀ size m, 0 < size → posts.length ≤ m * size →
      (∀ k < m, (k * size = 0 ∨ posts.length ≤ k * size ∨
          Repeats content (k * size) (k * size + size - 1) posts) ∧
        PageFits content (k * size) (k * size + size - 1) posts) →
      ∃ replies : ℕ → List Value,
        (∀ k < m, timelineReply p dbs dbs' (ask (k * size) (k * size + size - 1)) =
          some (stringify (.arr (replies k)))) ∧
        (List.range m).flatMap replies = posts.map content := by
  refine ⟨fun start stop hle => timelineReply_eq_some_iff hle (hask start stop) hposts hstored, ?_⟩
  -- the pages one after the other are the list itself
  intro size m hsize hm hpages
  refine ⟨fun k => (page (k * size) (k * size + size - 1) posts).map content, ?_, ?_⟩
  · intro k hk
    exact (timelineReply_eq_some_iff (by omega) (hask _ _) hposts hstored).2 (hpages k hk)
  · rw [← List.map_flatMap, flatMap_page hsize, List.take_of_length_le hm]

/-! ### A timeline of two posts -/

/-- An argument of `read_user_timeline`. -/
def askFor (user_id : Str) (start stop : ℕ) : Str :=
  stringify
    (.obj [(lit "user_id", .str user_id), (lit "start", .num start), (lit "end", .num stop)])

/-- It asks for that page. -/
theorem asksFor_askFor (user_id : Str) (start stop : ℕ) :
    AsksFor (askFor user_id start stop) user_id start stop :=
  ⟨_, parse_stringify _, rfl, rfl, rfl⟩

/-- The timeline. -/
def twoPosts : List Post := [⟨lit "1", 10, lit "7"⟩, ⟨lit "1", 20, lit "88"⟩]

/-- The text of a post. -/
def postText (post_id : Str) : Str := stringify (.obj [(lit "post_id", .str post_id)])

/-- The databases with the posts and the timeline of the user `1`. -/
def twoPostsDbs : Option DbMap :=
  [("post_storage.js", 1, postText (lit "7")), ("post_storage.js", 2, postText (lit "88")),
    ("user_timeline_service.js", 1, stringify (listValue twoPosts))].foldlM
    (fun dbs (name, key, text) => (dbSet dbs name key (str2ab text) 0 5).map Prod.snd)
    (createDb (createDb (fun _ => none) "user_timeline_service.js") "post_storage.js")

/-- What they hold for a post. -/
def heldPost (dbs : DbMap) (q : Post) : Value :=
  (storedPost asciiPlatform dbs q.post_id).getD .null

/-- The databases can be made, and hold what they should. -/
theorem twoPosts_stored : ∃ dbs,
    readList dbs ("user_timeline_service.js", keyOf asciiPlatform (lit "1")) = some twoPosts ∧
      AllStored asciiPlatform dbs twoPosts (heldPost dbs) ∧
      twoPosts.map (fun q => stringify (heldPost dbs q)) =
        [postText (lit "7"), postText (lit "88")] := by
  -- the two posts are stored by the service's own writes, evaluated once
  have hall : (twoPostsDbs.map fun dbs =>
      (readList dbs ("user_timeline_service.js", keyOf asciiPlatform (lit "1")),
        twoPosts.all fun q => (storedPost asciiPlatform dbs q.post_id).isSome,
        twoPosts.map fun q => stringify (heldPost dbs q))) =
      some (some twoPosts, true, [postText (lit "7"), postText (lit "88")]) := by decide +kernel
  obtain ⟨dbs, -, hdbs⟩ := Option.map_eq_some_iff.1 hall
  simp only [Prod.mk.injEq] at hdbs
  obtain ⟨hposts, hstored, htexts⟩ := hdbs
  refine ⟨dbs, hposts, fun q hq => ?_, htexts⟩
  obtain ⟨v, hv⟩ := Option.isSome_iff_exists.1 (List.all_eq_true.1 hstored q hq)
  rw [heldPost, hv]
  rfl

/-- The first page of the timeline. -/
theorem pages_replied_first : ∃ dbs,
    timelineReply asciiPlatform dbs dbs (askFor (lit "1") 0 0) =
      some (stringify (.arr ((page 0 0 twoPosts).map (heldPost dbs)))) := by
  obtain ⟨dbs, hposts, hstored, htexts⟩ := twoPosts_stored
  refine ⟨dbs, ((pages_replied_iff (askFor (lit "1")) (asksFor_askFor (lit "1")) hposts hstored).1
    0 0 le_rfl).2 ⟨.inl rfl, ?_, ?_⟩⟩
  · decide
  · simp only [twoPosts, List.map_cons, List.cons.injEq] at htexts
    simp only [page, twoPosts, List.drop_zero, List.take_succ_cons, List.take_zero, List.map_cons,
      List.map_nil, stringify, stringifyElems, htexts.1]
    decide

/-- The second page has the first post. -/
theorem second_page_wrong : ¬∀ (dbs : DbMap) (posts : List Post) (content : Post → Value)
    (start stop : ℕ), start ≤ stop →
    readList dbs ("user_timeline_service.js", keyOf asciiPlatform (lit "1")) = some posts →
    AllStored asciiPlatform dbs posts content →
    timelineReply asciiPlatform dbs dbs (askFor (lit "1") start stop) =
      some (stringify (.arr ((page start stop posts).map content))) := by
  intro hall
  obtain ⟨dbs, hposts, hstored, htexts⟩ := twoPosts_stored
  have hreply := hall dbs twoPosts _ 1 1 le_rfl hposts hstored
  obtain ⟨hcases, -⟩ :=
    (timelineReply_eq_some_iff le_rfl (asksFor_askFor _ 1 1) hposts hstored).1 hreply
  -- the page starts at 1 of two posts, so it would have to repeat the first one
  rcases hcases with h | h | hrepeats
  · cases h
  · exact absurd h (by decide)
  · have hsame := congrArg stringify (hrepeats 0 _ _ le_rfl rfl rfl)
    simp only [twoPosts, List.map_cons, List.map_nil, List.cons.injEq, and_true] at htexts
    rw [htexts.1, htexts.2] at hsame
    exact absurd hsame (by decide)

end Nanoservices
