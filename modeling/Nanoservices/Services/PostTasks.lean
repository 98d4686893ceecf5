import Nanoservices.Library.Calls
import Nanoservices.Services.ComposePost
import Nanoservices.Services.PostText

/-!
# Composing a post

The workflow of one request to `compose` of `post.js`, through the functions of nine
services, from any content of the databases:

* `compose` calls four services and replies to the client with status 200 when all four
  have replied;
* those, and the two that `upload_text` of `text_service.js` calls, each have a part
  stored by `compose_post_service.js`, whose calls are those of `composing`;
* the one of these calls that enters `upload_post` stores the post and has it written to
  the timelines of the author, the followers and the mentioned users, with the loops of
  `write_user_timeline`.

A step is one function or reaction up to where it waits, or one access to a database. A
function that throws is replied to with the text `error`; a reaction that throws does
nothing more. What the clocks and `Math.random` return are fields of the request.
Strings pass unchanged from one service to another.
-/

namespace Nanoservices

open Utf16 Json Lts

/-! ### Tasks -/

/-- The invocations of functions, each of which is made once at most in a workflow. -/
inductive PostTask
  | compose
  /-- The service that has the part of `u` stored: `unique_id_service.js`,
  `user_service.js`, `media_service.js`, `text_service.js`, `url_shorten_service.js`,
  `user_mention_service.js`. -/
  | service (u : Upload)
  /-- The call of `compose_post_service.js` it makes. -/
  | upload (u : Upload)
  | storePost
  | writeHomeTimeline
  | getFollowers
  /-- `write_user_timeline` for the author, then for each item of `all`. -/
  | writeUserTimeline (i : ℕ)
  deriving DecidableEq

/-- The calls of a workflow: who has been called with what, has run, and has been
replied to. -/
abbrev PostCalls := Calls.State PostTask JsString Str

/-- What a function or a reaction does to the calls, up to where it waits: the calls it
makes, in order, and what it answers. An argument that cannot be built is none, and the
call throws. -/
abbrev PostScript := Calls.Script PostTask JsString Str

/-- The three variables called `count`. -/
inductive Counter
  | compose
  | uploadPost
  | writeHomeTimeline
  deriving DecidableEq

/-- `compose` reacts to the replies of these services. -/
def Upload.awaited : Upload → Bool
  | .text | .media | .creator | .uniqueId => true
  | .urls | .userMentions => false

/-- The counter that the reaction to a reply increments. -/
def PostTask.counter : PostTask → Option Counter
  | .service u => if u.awaited then some .compose else none
  | .storePost | .writeHomeTimeline | .writeUserTimeline 0 => some .uploadPost
  | .writeUserTimeline (_ + 1) => some .writeHomeTimeline
  | .compose | .upload _ | .getFollowers => none

/-! ### Strings -/

/-- A string of V8, which has a greatest length. -/
def jsString (s : Str) : Option JsString := if h : s.length ≤ kMaxLength then some ⟨s, h⟩ else none

/-- `JSON.stringify`, which throws when the text is too long. -/
def stringifyJs (v : Value) : Option JsString := jsString (stringify v)

/-- The string that is made is the text itself. -/
theorem jsString_eq {s : Str} {a : JsString} (h : jsString s = some a) : a.1 = s := by
  unfold jsString at h
  split at h
  · cases h
    rfl
  · cases h

/-- What `JSON.stringify` has made can be parsed, and is the value. -/
theorem parse_of_stringifyJs {v : Value} {a : JsString} (h : stringifyJs v = some a) :
    parse a.1 = some v := by
  rw [jsString_eq h, parse_stringify]

/-- A string in an object. -/
def stringField (name : String) (v : Value) : Option Str :=
  match v.field (lit name) with
  | some (.str s) => some s
  | _ => none

/-- A string in the object that a text stands for. -/
def parseField (name : String) (text : Str) : Option Str := (parse text).bind (stringField name)

/-- What a service replies that has done what it was called for. -/
def replyOk : Str := lit "ok"

/-- What `run_func` replies for a function that threw. -/
def replyError : Str := lit "error\n"

/-- The response of status 200. -/
def replyOf (result : Str) : Option Str :=
  jsonStringify (.obj [(lit "_status", .num 200), (lit "_message", .str result)])

/-- The status a response asks for. -/
def statusOf (text : Str) : Option ℤ :=
  match (parse text).bind (Value.field (lit "_status")) with
  | some (.num status) => some status
  | _ => none

/-! ### The functions -/

/-- A request to `compose`, and what its functions get from the clocks and from
`Math.random`. -/
structure PostRequest where
  platform : Platform
  reqId : Str
  args : JsString
  CoreID : ℕ
  uniqueIds : UniqueIdStates
  now : ℤ
  random : ℕ → ℕ → Fin 32
  timestamp : ℤ

/-- The id of the post. -/
def PostRequest.postId (q : PostRequest) : Str := (uploadUniqueId q.CoreID q.uniqueIds q.now).1

/-- A function that throws before it does anything. -/
def throwing (t : PostTask) : PostScript := { answer := some (t, replyError) }

/-- The service calls `compose_post_service.js`, and replies when that has replied. If
the argument cannot be built it throws. -/
def relay (u : Upload) (args : Option JsString) : PostScript :=
  { calls := [(.upload u, args)], thrown := some (.service u, replyError) }

/-- What `upload_user_mentions` looks up. -/
def mentionNames (arg : Str) : Option (List Str) := (parseList arg).map (List.map (List.drop 1))

/-- The part that a call of `compose_post_service.js` stores, from its argument. The
unique id and the type of the post come in one object, the other parts are the argument
itself. -/
def uploadValue (u : Upload) (args : JsString) (part : Part) : Option JsString :=
  match u, part with
  | .uniqueId, .postId => (parseField "post_id" args.1).bind jsString
  | .uniqueId, .postType => (parseField "post_type" args.1).bind jsString
  | _, _ => some args

/-- The loop of `write_user_timeline`, from its argument. -/
def timelineWrite (p : Platform) (args : Str) : Option (List (Loop Post)) := do
  let user_id ← parseField "user_id" args
  let post ← Post.ofValue (← parse (← parseField "post" args))
  some (writeUserTimeline p user_id post)

/-- The argument of `write_user_timeline`. -/
def timelineArgs (post : Post) (user_id : Str) : Option JsString := do
  let tmp ← stringifyJs post.toValue
  stringifyJs (.obj [(lit "user_id", .str user_id), (lit "post", .str tmp.1)])

/-- The text of `results` in `upload_urls`. -/
def shortenedArgs (random : ℕ → ℕ → Fin 32) (urls : List Str) : Option JsString :=
  stringifyJs (.obj [(lit "urls", listValue urls),
    (lit "shorturls", listValue ((List.range urls.length).map (shortUrl random)))])

/-- `compose`: the form is cut out of the request's body, and four services are called,
in the source's order. It throws, and then calls nobody, when the body cannot be cut or
a media field is not JSON. Media fields with numbers that are not whole, which `parse`
does not read, are left out. -/
def PostRequest.compose (q : PostRequest) (args : JsString) : PostScript :=
  match (parseField "content" args.1).bind parseForm with
  | none => throwing .compose
  | some form =>
    -- the media fields are JSON texts; `compose` throws where one of them is not, as an empty one
    match parse form.media_ids, parse form.media_types with
    | some media_ids, some media_types =>
      { calls := [(.service .uniqueId, jsString form.post_type),
          (.service .creator, stringifyJs (.obj [(lit "user_id", .str form.userid),
            (lit "username", .str form.username)])),
          (.service .media,
            stringifyJs (.obj [(lit "ids", media_ids), (lit "types", media_types)])),
          (.service .text, jsString form.text)],
        thrown := some (.compose, replyError) }
    | _, _ => throwing .compose

/-- The functions of the six services, up to where they wait; that of
`user_mention_service.js` up to its first `DBGet`. -/
def PostRequest.service (q : PostRequest) (args : JsString) : Upload → PostScript
  | .uniqueId => relay .uniqueId (stringifyJs (.obj [(lit "post_id", .str q.postId),
      (lit "post_type", .str args.1)]))
  | .creator => relay .creator do
      let obj ← parse args.1
      stringifyJs (.obj [(lit "username", .str (← stringField "username" obj)),
        (lit "user_id", .str (← stringField "user_id" obj))])
  | .media => relay .media (some args)
  | .text =>
    { calls := [(.service .userMentions,
          stringifyJs (matchValue (matchAll mentionLength args.1))),
        (.service .urls, stringifyJs (matchValue (matchAll urlLength args.1)))],
      thrown := some (.service .text, replyError) }
  | .userMentions => if (mentionNames args.1).isSome then {} else throwing (.service .userMentions)
  | .urls =>
    -- it replies without waiting for its call
    let ret := (parseList args.1).bind (shortenedArgs q.random)
    { calls := [(.upload .urls, ret)], answer := ret.map fun ret => (.service .urls, ret.1),
      thrown := some (.service .urls, replyError) }

/-- A function, from its argument, up to where it waits or to its first access to a
database. -/
def PostRequest.body (q : PostRequest) (args : JsString) : PostTask → PostScript
  | .compose => q.compose args
  | .service u => q.service args u
  | .upload u =>
    if ∀ part ∈ u.parts, (uploadValue u args part).isSome then {} else throwing (.upload u)
  | .storePost => if (parseField "post_id" args.1).isSome then {} else throwing .storePost
  | .writeHomeTimeline =>
    { calls := [(.getFollowers, (parseField "user_id" args.1).bind jsString)],
      thrown := some (.writeHomeTimeline, replyError) }
  | .getFollowers => {}
  | .writeUserTimeline i =>
    if (timelineWrite q.platform args.1).isSome then {} else throwing (.writeUserTimeline i)

/-- `upload_post` with the parts it has read, in the order in which it reads them. Of
the creator only the user id is used again; the object of the post holds the parts as
they are. The entry of the timelines is the post's id with its time and author. -/
def PostRequest.uploadPost (q : PostRequest) (u : Upload) : List Str → PostScript
  | [text, post_id, post_type, creator, user_mentions, media, urls] =>
    let user_id := parseField "user_id" creator
    { calls := [
        (.storePost, stringifyJs (.obj [(lit "text", .str text), (lit "post_id", .str post_id),
          (lit "timestamp", .num q.timestamp), (lit "post_type", .str post_type),
          (lit "creator", .str creator), (lit "user_mentions", .str user_mentions),
          (lit "media", .str media), (lit "urls", .str urls)])),
        (.writeUserTimeline 0, user_id.bind fun user_id =>
          timelineArgs ⟨user_id, q.timestamp, post_id⟩ user_id),
        (.writeHomeTimeline, user_id.bind fun user_id =>
          stringifyJs (.obj [(lit "user_id", .str user_id), (lit "timestamp", .num q.timestamp),
            (lit "post_id", .str post_id), (lit "mentions", .str user_mentions)]))],
      thrown := some (.upload u, replyError) }
  | _ => {}

end Nanoservices
