import Nanoservices.Library.FanOut
import Nanoservices.Services.TimelinePages

/-!
# The fan-outs

`write_home_timeline` has a post written to the timelines of the author's followers and
of the mentioned users, one call of `write_user_timeline` each, and `func` of
`fanout.js` makes as many calls as its header `NUM` says. Both are `FanOut.fanOut`s: the
one spreads when `get_followers` has replied, the other when it starts. So both answer
once unless there is nobody to call (`fan_outs_answer_iff`).
-/

namespace Nanoservices

open Utf16 Json Lts FanOut

/-! ### The functions -/

/-- What `concat` appends for a value: the elements of an array, any other value
itself. -/
def concatItems : Value → List Value
  | .arr elems => elems
  | v => [v]

/-- `all` in `write_home_timeline`, from its argument and what `get_followers` replied:
the followers, then the mentioned users. Nobody is left out who is in both. -/
def allRecipients (args result : Str) : Option (List Value) := do
  let obj ← parse args
  let followers ← parse result
  let mentions ← parse (← stringField "mentions" obj)
  some (concatItems followers ++ concatItems (← mentions.field (lit "userids")))

/-- `tmp` in `write_home_timeline`: the text of the post, with its three fields as they
came. -/
def homePost (args : Str) : Option Str := do
  let obj ← parse args
  jsonStringify (.obj [(lit "user_id", ← obj.field (lit "user_id")),
    (lit "timestamp", ← obj.field (lit "timestamp")), (lit "post_id", ← obj.field (lit "post_id"))])

/-- `new_args`, as text: the user whose timeline it is, and the post as a string inside
it. -/
def newArgs (tmp : Str) (user_id : Value) : Option Str :=
  jsonStringify (.obj [(lit "user_id", user_id), (lit "post", .str tmp)])

/-- The calls a loop makes before it throws. A value that cannot be written ends the
loop, and the calls behind it are not made. -/
def callsMade (args : List (Option Str)) : List Str := (args.takeWhile Option.isSome).reduceOption

/-- A loop makes no more calls than it has rounds. -/
theorem length_callsMade (args : List (Option Str)) : (callsMade args).length ≤ args.length :=
  (List.length_filterMap_le _ _).trans (List.takeWhile_prefix _).length_le

/-- The branches of `write_home_timeline`: as many as there are recipients, of which the
loop may call fewer. -/
def homeBranches (args result : Str) : Option (Branches Str) := do
  let all ← allRecipients args result
  let tmp ← homePost args
  some ⟨all.length, callsMade (all.map (newArgs tmp)),
    (length_callsMade _).trans_eq (List.length_map _)⟩

/-- `write_home_timeline`, from the reply of `get_followers` on: it spreads over the
recipients and replies `ok` when the last of them has answered. -/
def writeHomeTimeline (args : Str) : System (State Str Str) (FanOut.Label Str) :=
  fanOut (homeBranches args) (lit "ok")

/-- The header `NUM`, where it is the text of an integer. -/
def headerNum (args : Str) : Option ℤ := do
  let headers ← (← parse args).field (lit "headers")
  numberOf (← headers.field (lit "NUM"))

/-- The branches of `func` of `fanout.js`, which passes its argument on. A number that
is not positive gives none. -/
def funcBranches (args : Str) : Option (Branches Str) := do
  let num ← headerNum args
  some ⟨num.toNat, List.replicate num.toNat args, (List.length_replicate).le⟩

/-- `func` of `fanout.js`. -/
def fanoutFunc : System (State Str Str) (FanOut.Label Str) :=
  fanOut funcBranches
    (stringify (.obj [(lit "_status", .num 200), (lit "_message", .str (lit "OK"))]))

/-! ### When they answer -/

/-- **A fan-out answers once, after its last branch, exactly when it has a branch**: in
every run of `write_home_timeline` if there is a follower or a mentioned user, and in
every run of `func` if `NUM` is not 0.

Both count down in the callbacks and reply where the count has come to 0, which nothing
does if there is no callback. The runs are those of `FanOut.fanOut`, in whatever order
the branches answer. -/
theorem fan_outs_answer_iff (args result tmp : Str) (all : List Value) (request : Str) (num : ℕ)
    (hall : allRecipients args result = some all) (htmp : homePost args = some tmp)
    (hnum : headerNum request = some (num : ℤ)) :
    ((∀ ls s, Run (writeHomeTimeline args) ls s → .spread result ∈ ls →
      AnswersOnce all.length s) ↔ all ≠ []) ∧
    ((∀ ls s, Run fanoutFunc ls s → .spread request ∈ ls → AnswersOnce num s) ↔ num ≠ 0) := by
  -- one branch for each recipient, and one for each `i` below `NUM`
  have hhome : homeBranches args result =
      some ⟨all.length, callsMade (all.map (newArgs tmp)),
        (length_callsMade _).trans_eq (List.length_map _)⟩ := by
    simp [homeBranches, hall, htmp]
  have hfunc : funcBranches request =
      some ⟨num, List.replicate num request, (List.length_replicate).le⟩ := by
    simp [funcBranches, hnum]
  refine ⟨?_, answersOnce_iff hfunc⟩
  rw [← List.length_pos_iff, Nat.pos_iff_ne_zero]
  exact answersOnce_iff hhome

/-- An argument of `write_home_timeline` for a post without mentions. -/
def loneArgs : Str :=
  stringify (.obj [(lit "user_id", .str (lit "1")), (lit "timestamp", .num 0),
    (lit "post_id", .str (lit "7")),
    (lit "mentions", .str (stringify (.obj [(lit "userids", .arr [])])))])

/-- The recipients of that post are the followers. -/
theorem allRecipients_loneArgs (followers : List Value) :
    allRecipients loneArgs (stringify (.arr followers)) = some followers := by
  have hmentions : stringField "mentions" (.obj [(lit "user_id", .str (lit "1")),
      (lit "timestamp", .num 0), (lit "post_id", .str (lit "7")),
      (lit "mentions", .str (stringify (.obj [(lit "userids", .arr [])])))]) =
      some (stringify (.obj [(lit "userids", .arr [])])) := rfl
  have huserids :
      Value.field (lit "userids") (.obj [(lit "userids", .arr [])]) = some (.arr []) := rfl
  simp only [allRecipients, loneArgs, parse_stringify, Option.bind_eq_bind, Option.bind_some,
    hmentions, huserids, concatItems, List.append_nil]

/-- Its text can be written. -/
theorem homePost_loneArgs : (homePost loneArgs).isSome := by decide +kernel

/-- A request to `fanout.js` for two branches. -/
def twiceRequest : Str :=
  stringify (.obj [(lit "headers", .obj [(lit "NUM", .str (lit "2"))])])

/-- The header is read as 2. -/
theorem headerNum_twiceRequest : headerNum twiceRequest = some 2 := by
  have hheaders : Value.field (lit "headers")
      (.obj [(lit "headers", .obj [(lit "NUM", .str (lit "2"))])]) =
      some (.obj [(lit "NUM", .str (lit "2"))]) := rfl
  have hnum : Value.field (lit "NUM") (.obj [(lit "NUM", .str (lit "2"))]) =
      some (.str (lit "2")) := rfl
  simp only [headerNum, twiceRequest, parse_stringify, Option.bind_eq_bind, Option.bind_some,
    hheaders, hnum]
  decide

/-- The author has one follower, and the request asks for two branches. -/
theorem fan_outs_answer_iff_follower :
    (∀ ls s, Run (writeHomeTimeline loneArgs) ls s →
      .spread (stringify (.arr [.str (lit "2")])) ∈ ls → AnswersOnce 1 s) ∧
    ∀ ls s, Run fanoutFunc ls s → .spread twiceRequest ∈ ls → AnswersOnce 2 s := by
  obtain ⟨tmp, htmp⟩ := Option.isSome_iff_exists.1 homePost_loneArgs
  have hanswers := fan_outs_answer_iff loneArgs _ tmp _ twiceRequest 2
    (allRecipients_loneArgs [.str (lit "2")]) htmp headerNum_twiceRequest
  exact ⟨hanswers.1.2 (by simp), hanswers.2.2 (by simp)⟩

/-- The author has no followers: nothing is replied, and the caller waits. -/
theorem lone_author_unanswered : ¬∀ (args result : Str) (all : List Value),
    allRecipients args result = some all → (homePost args).isSome →
    ∀ ls s, Run (writeHomeTimeline args) ls s → .spread result ∈ ls →
      AnswersOnce all.length s := by
  intro hanswers
  obtain ⟨tmp, htmp⟩ := Option.isSome_iff_exists.1 homePost_loneArgs
  let b : Branches Str := ⟨0, [], le_rfl⟩
  have hb : homeBranches loneArgs (stringify (.arr [])) = some b := by
    simp only [homeBranches, allRecipients_loneArgs, htmp, Option.bind_eq_bind, Option.bind_some]
    rfl
  have hrun : Run (writeHomeTimeline loneArgs) [.spread (stringify (.arr []))]
      ⟨some b, ∅, 0, []⟩ :=
    Run.step (.init rfl) ⟨rfl, b, hb, rfl⟩
  -- all of no branches have answered, and there is no reply
  have honce := hanswers loneArgs _ [] (allRecipients_loneArgs []) homePost_loneArgs _ _ hrun
    (by simp)
  exact absurd (honce.once rfl) (by simp)

end Nanoservices
