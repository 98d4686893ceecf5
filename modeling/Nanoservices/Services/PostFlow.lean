import Nanoservices.Services.ComposeJoin
import Nanoservices.Services.PostTasks

/-!
# Runs of the workflow

The state of the workflow of a request to `compose`, its steps and its runs
(`postFlow`). A step has an `effect` on the databases and on the variables of the
functions, and a script of calls and answers.

`PostFlow.Acknowledged`: the client has been sent a reply with status 200.
-/

namespace Nanoservices

open Utf16 Json Lts

/-- The state: the databases, the calls, and the variables of the functions that wait. -/
structure PostFlow where
  dbs : DbMap
  calls : PostCalls
  count : Counter → ℕ
  /-- The calls of `compose_post_service.js`. -/
  phase : Upload → CallPhase
  /-- `results.userids` in `upload_user_mentions`. -/
  userids : List Str
  /-- The call that is in `upload_post` and has read the parts. -/
  poster : Option Upload
  /-- `all` in `write_home_timeline`. -/
  all : Option (List Str)
  /-- The calls of `write_user_timeline`. -/
  write : ℕ → Process

/-- A step: a function runs, `upload_user_mentions` makes a `DBGet` or has made all, a
call of `compose_post_service.js` makes a `DBGet` or a `DBSet`, `upload_post` has read
the parts, `store_post` makes its `DBSet`, `get_followers` its `DBGet`, a call of
`write_user_timeline` makes one of either, or a reply is handled. -/
inductive PostLabel
  | run (t : PostTask)
  | lookup
  | mentions
  | join (l : ComposeLabel Unit)
  | post (u : Upload)
  | store (rand : UInt32) (ok : Bool)
  | followers
  | timeline (l : RetryLabel ℕ)
  | handle (t : PostTask)

/-- The calls of `compose_post_service.js` that bring these parts. -/
def PostRequest.composes (q : PostRequest) (value : Part → JsString) : Composes Unit where
  platform := q.platform
  reqId _ := q.reqId
  value _ := value

namespace PostFlow

variable (q : PostRequest) (w : PostFlow)

/-- The function is running. -/
def active (t : PostTask) : Bool := w.calls.ran t && (w.calls.reply t).isNone

/-- A part, once the call that stores it has been made. -/
def part (part : Part) : Option JsString :=
  (w.calls.arg (.upload part.owner)).bind fun args => uploadValue part.owner args part

/-- The calls of `compose_post_service.js`. -/
def composes : Composes Unit := q.composes fun part => (w.part part).getD ⟨[], Nat.zero_le _⟩

/-- The loops of the calls of `write_user_timeline`. -/
def loops (i : ℕ) : List (Loop Post) :=
  ((w.calls.arg (.writeUserTimeline i)).bind fun args => timelineWrite q.platform args.1).getD []

/-- The names `upload_user_mentions` looks up. -/
def names : Option (List Str) :=
  (w.calls.arg (.service .userMentions)).bind fun args => mentionNames args.1

/-! ### Reactions -/

/-- What a counter is compared with. -/
def goal : Counter → Option ℕ
  | .compose => some 4
  | .uploadPost => some 3
  | .writeHomeTimeline => w.all.map List.length

/-- What is answered when a counter has reached its goal: `compose` its client with
status 200, `upload_post` the call of `compose_post_service.js` that entered it, and
`write_home_timeline` its caller. -/
def answer (result : Str) : Counter → Option (PostTask × Str)
  | .compose => (replyOf result).map (.compose, ·)
  | .uploadPost => do
    let u ← w.poster
    let text ← replyOf result
    some (.upload u, text)
  | .writeHomeTimeline => some (.writeHomeTimeline, replyOk)

/-- The reactions that count. The counter is incremented with the step (`effect`); the
reaction answers when this makes it the goal, and at no other time, so that it answers
once. -/
def tally (result : Str) (c : Counter) : PostScript :=
  if some (w.count c + 1) = w.goal c then { answer := w.answer result c } else {}

/-- `updated_text`, from what `upload_urls` replied. -/
def updated (result : Str) : Option JsString := do
  let val ← w.calls.arg (.service .text)
  let obj ← parse result
  match obj.field (lit "urls"), obj.field (lit "shorturls") with
  | some (.arr urls), some (.arr shorturls) =>
    jsString (updatedText val.1 ((← urls.mapM Item.ofValue).take (matchAll urlLength val.1).length)
      (← shorturls.mapM Item.ofValue))
  | _, _ => none

/-- `post` in `write_home_timeline`, and the text of the mentions. -/
def homeArgs : Option (Post × Str) := do
  let args ← w.calls.arg .writeHomeTimeline
  let obj ← parse args.1
  some (← Post.ofValue obj, ← stringField "mentions" obj)

/-- `all`, from what `get_followers` replied. -/
def recipients (result : Str) : Option (List Str) := do
  let followers ← parseList result
  let (_, mentions) ← w.homeArgs
  some (followers ++ (← mentionsUserids mentions))

/-- The calls of `write_user_timeline` that `write_home_timeline` makes. -/
def fanOut (result : Str) : PostScript :=
  match w.recipients result, w.homeArgs with
  | some all, some (post, _) =>
    { calls := all.zipIdx.map fun x => (.writeUserTimeline (x.2 + 1), timelineArgs post x.1) }
  | _, _ => {}

/-- The reaction to a reply. Nothing handles the replies of `upload_user_mentions` of
`user_mention_service.js` and of `upload_urls` of `compose_post_service.js`. -/
def reaction (result : Str) : PostTask → Option PostScript
  | .compose | .service .userMentions | .upload .urls => none
  | .service .urls => some { calls := [(.upload .text, w.updated result)] }
  | .service u => some (if u.awaited then w.tally result .compose else {})
  | .upload u => some { answer := some (.service u, replyOk) }
  | .storePost | .writeHomeTimeline | .writeUserTimeline 0 => some (w.tally result .uploadPost)
  | .getFollowers => some (w.fanOut result)
  | .writeUserTimeline (_ + 1) => some (w.tally result .writeHomeTimeline)

end PostFlow

/-! ### Steps -/

/-- A call of `compose_post_service.js` replies when it has returned from
`check_upload_post`. -/
def CallPhase.script (u : Upload) : CallPhase → PostScript
  | .replied => { answer := some (.upload u, replyOk) }
  | .failed => throwing (.upload u)
  | .storing _ | .incrementing _ _ | .uploading _ => {}

/-- A call of `write_user_timeline` replies when it has left its loop. -/
def Process.script (i : ℕ) (p : Process) : PostScript :=
  if p.loop = 1 then { answer := some (.writeUserTimeline i, replyOk) }
  else match p.phase with
    | .failed => throwing (.writeUserTimeline i)
    | .reading | .writing _ _ => {}

/-- The call that takes a step of the compose join. -/
def ComposeLabel.call : ComposeLabel Unit → Option Upload
  | .put c .. | .getCount c _ | .setCount c .. | .getPart c _ => some c.2
  | .other .. => none

namespace PostFlow

/-- What a step does to the databases and variables, and the script it executes; none if
the step is not possible. A function runs once, when it has been called. A step of the
compose join is one of `composing`, with the parts that have been brought so far; a step
of `write_user_timeline` is one of `retryLoops`. A reply is handled once. -/
def effect (q : PostRequest) (w : PostFlow) : PostLabel → Option (PostFlow × PostScript)
  | .run t => do
    let args ← w.calls.arg t
    if w.calls.ran t then none else some (w, q.body args t)
  | .lookup => do
    let name ← (← w.names)[w.userids.length]?
    let buf ← dbGet w.dbs "user_mention_service.js" (keyOf q.platform name)
    if w.active (.service .userMentions) then
      some (match ab2str buf with
        | some userid => ({ w with userids := w.userids ++ [userid] }, {})
        | none => (w, throwing (.service .userMentions)))
    else none
  | .mentions => do
    let names ← w.names
    if w.active (.service .userMentions) ∧ (w.calls.arg (.upload .userMentions)).isNone ∧
        names.length = w.userids.length then
      some (w, relay .userMentions ((mentionsText names w.userids).bind jsString))
    else none
  | .join l => do
    let u ← l.call
    let r ← ComposeWorld.exec (w.composes q) ⟨w.dbs, fun c => w.phase c.2⟩ l
    if w.active (.upload u) then
      some ({ w with dbs := r.dbs, phase := fun v => r.phase ((), v) }, (r.phase ((), u)).script u)
    else none
  | .post u =>
    match w.phase u with
    | .uploading values =>
      if w.active (.upload u) ∧ w.poster = none ∧ values.length = readOrder.length then
        some ({ w with poster := some u }, q.uploadPost u values)
      else none
    | _ => none
  | .store rand ok => do
    let args ← w.calls.arg .storePost
    let post_id ← parseField "post_id" args.1
    let (ok', dbs) ← dbSet w.dbs "post_storage.js" (keyOf q.platform post_id) (str2ab args.1) 0 rand
    if w.active .storePost ∧ ok' = ok then
      -- also when it was aborted
      some ({ w with dbs }, { answer := some (.storePost, replyOk) })
    else none
  | .followers => do
    let user_id ← w.calls.arg .getFollowers
    if w.active .getFollowers then
      some (w, match getFollowers q.platform w.dbs user_id.1 with
        | some text => { answer := some (.getFollowers, text) }
        | none => throwing .getFollowers)
    else none
  | .timeline l => do
    let i ← l.client
    let r ← RetryWorld.exec (w.loops q) ⟨w.dbs, w.write⟩ l
    if w.active (.writeUserTimeline i) then
      some ({ w with dbs := r.dbs, write := r.process }, (r.process i).script i)
    else none
  | .handle t => do
    let result ← w.calls.reply t
    let script ← w.reaction result t
    if t ∈ w.calls.handled then none
    else some ({ w with
      count := t.counter.elim w.count fun c => Function.update w.count c (w.count c + 1)
      all := if t = .getFollowers then w.recipients result else w.all }, script)

end PostFlow

/-- What the step itself does to the calls. -/
def PostLabel.note (calls : PostCalls) : PostLabel → PostCalls
  | .run t => calls.run t
  | .handle t => calls.handle t
  | _ => calls

/-- A step: its effect, and then its script, whose calls are made in order until one
throws. -/
def PostFlow.exec (q : PostRequest) (w : PostFlow) (l : PostLabel) : Option PostFlow :=
  (w.effect q l).map fun x => { x.1 with calls := (l.note w.calls).exec x.2 }

/-- The request has arrived: `compose` has been called, and nothing else has happened.
The databases may hold anything. -/
def PostFlow.start (q : PostRequest) (dbs₀ : DbMap) : PostFlow where
  dbs := dbs₀
  calls := ⟨fun t => if t = .compose then some q.args else none, fun _ => false, fun _ => none, []⟩
  count _ := 0
  phase u := .storing u.parts
  userids := []
  poster := none
  all := none
  write _ := ⟨0, .reading⟩

/-- The workflow of the request, over databases `dbs₀`. Its steps may come in any order
in which they are possible. -/
def postFlow (q : PostRequest) (dbs₀ : DbMap) : System PostFlow PostLabel where
  init w := w = .start q dbs₀
  step w l w' := w.exec q l = some w'

/-- The client has been sent a reply with status 200. Other replies, as for a function
that threw, do not acknowledge anything. -/
def PostFlow.Acknowledged (w : PostFlow) : Prop :=
  ∃ text, w.calls.reply .compose = some text ∧ statusOf text = some 200

end Nanoservices
