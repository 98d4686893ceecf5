import Nanoservices.Http.Response
import Nanoservices.Http.Routing
import Nanoservices.Library.Unicode
import Nanoservices.Sched.JoinTrees

/-!
# The network server

The connections of `network_server` and the scheduler, together. The loop of a
connection reads a request with `handle`, which hands it to the scheduler, and goes on
when the response has been written, so that at most one request of a connection is under
way. A client may send requests without waiting for the responses, and any number of
connections is open on any cores.

In every run each connection gets the responses to its own requests, in the order it
sent them, one each, and a response has what the promise of its request was set to
(`requests_answered_in_order`). This does not depend on what the services do: they may
call each other and reply when they like.

The parser of Seastar is a parameter, `HttpLibraries.parse`.
-/

namespace Nanoservices

open World Lts Framing OneCore TwoCores

/-! ### Requests in a stream -/

instance : DecidableEq Fields := fun f g =>
  decidable_of_iff (f.entries = g.entries) ⟨fun h => by cases f; cases g; cases h; rfl, congrArg _⟩

/-- What the parser reads: the version and the URL of the request line, and the
headers. -/
structure Head where
  version : Bytes
  url : Bytes
  headers : Fields
  deriving DecidableEq

/-- A request with the version that its response repeats. -/
structure HttpRequest extends Request where
  version : Bytes

/-- What is used of Seastar's parser, and of the libraries that `handle` uses. -/
structure HttpLibraries extends Seastar where
  parse : Reader UInt8 Head
  lib : Libraries
  npos : ℕ

/-- What is assumed of them: Seastar's replies can be read (`Seastar.Replies`), its
parser reads a stream, and no version has a line end in it. -/
structure HttpLibraries.Lawful (F : HttpLibraries) : Prop where
  replies : F.Replies
  /-- The parser works on what has come so far. -/
  parse : Streaming F.parse
  version : ∀ s head t, F.parse s = some (head, t) → 13 ∉ head.version

/-- `isspace` in the C locale. -/
def isSpaceByte (c : UInt8) : Bool := c = 32 || (9 ≤ c && c ≤ 13)

/-- `isdigit`. -/
def isDigitByte (c : UInt8) : Bool := 48 ≤ c && c ≤ 57

/-- The number the digits at the front of a text denote. -/
def leadingNat (s : Bytes) : ℕ :=
  (s.takeWhile isDigitByte).foldl (fun a c => 10 * a + (c.toNat - 48)) 0

/-- `strtol` to the base 10: blanks, a sign and digits, within the range of a `long`.
Where there are no digits it returns 0. -/
def strtol (s : Bytes) : ℤ :=
  match s.dropWhile isSpaceByte with
  | 45 :: s => max (-2 ^ 63) (-leadingNat s)
  | 43 :: s => min (2 ^ 63 - 1) (leadingNat s)
  | s => min (2 ^ 63 - 1) (leadingNat s)

/-- `content_length`, a `size_t`: a negative number becomes a large one. -/
def contentLength (length_header : Bytes) : ℕ := (strtol (cStr length_header) % 2 ^ 64).toNat

/-- The length of the body of a request. Without the header it is 0. -/
def Head.bodyLength (F : HttpLibraries) (head : Head) : ℕ :=
  contentLength ((F.find head.headers (bytes "Content-Length")).getD [])

/-- A request and its body, which may end early where the stream does: `read_exactly`
gives what there is. While the stream goes on, the whole body is waited for. -/
def takeRequest (F : HttpLibraries) (eof : Bool) : Reader UInt8 HttpRequest := fun s =>
  match F.parse s with
  | none => none
  | some (head, t) =>
    if head.bodyLength F ≤ t.length ∨ eof = true then
      some (⟨parsedRequest head.url head.headers (t.take (head.bodyLength F)), head.version⟩,
        t.drop (head.bodyLength F))
    else none

/-- The string of some bytes, as names of services and functions are compared: one
character for each byte. -/
def asString (b : Bytes) : String := String.ofList (b.map fun c => Char.ofNat c.toNat)

/-- The function `handle` calls, or `none` where it throws. Its argument is the text
`handle` has made. -/
def route (F : HttpLibraries) (req : Request) : Option Fn :=
  (handle F.npos F.lib req).map fun r => ⟨asString r.1, asString r.2.1, Utf16.decode r.2.2⟩

/-! ### Connections -/

/-- What the loop of a connection does: it reads a request, or waits for the promise of
one with the reply it has made, or is over. -/
inductive ConnPhase
  | reading
  | waiting (req_id : Uuid) (resp : Reply)
  | closed

/-- A request that has been handed to the scheduler, and when. The time is that of the
`Date` of its response. -/
structure Accepted where
  req_id : Uuid
  request : HttpRequest
  time : ℕ

/-- The reply made for it. -/
def Accepted.reply (F : HttpLibraries) (a : Accepted) : Reply :=
  newReply F.toSeastar a.request.version a.request.headers a.time

/-- A connection on a core. What has been sent and which requests have been accepted is
kept as a history; no transition reads it. `input` is what has come and has not been
read, `output` what has been written. -/
structure Connection (n : ℕ) where
  core : Fin n
  input : Bytes
  eof : Bool
  output : Bytes
  phase : ConnPhase
  sent : Bytes
  accepted : List Accepted

/-- A connection that has just come in. -/
def Connection.initial {n : ℕ} (core : Fin n) : Connection n where
  core
  input := []
  eof := false
  output := []
  phase := .reading
  sent := []
  accepted := []

/-- The scheduler and the connections that have come in, oldest first. -/
structure NetworkServer (n : ℕ) where
  world : World n
  conns : List (Connection n)

/-- The steps of a connection. The first two are the client's. -/
inductive ConnLabel (n : ℕ)
  | send (b : Bytes)
  | shutdown
  /-- `handle` calls `new_req`. -/
  | accept (core : Fin n) (req_id : Uuid) (f : Fn) (place : Fin n) (now : UInt64) (time : ℕ)
  /-- `handle` throws. -/
  | fail
  /-- `new_req` writes the response. -/
  | respond (status : ℤ) (message : String)
  | hangUp

/-- The steps of the server: a connection is named by its position. -/
inductive NetLabel (n : ℕ)
  | connect (core : Fin n)
  | conn (index : ℕ) (l : ConnLabel n)
  | sched (l : Label n)

variable {n : ℕ} {P : Runtime} {F : HttpLibraries}

/-- What happens to a connection. The client sends and stops sending; the rest is the
loop of `network_server::start`, with `handle`. A request is accepted only while none is
under way (`reading`), which is why the responses keep the order. -/
inductive Handles (F : HttpLibraries) (w : World n) (c : Connection n) :
    ConnLabel n → World n → Connection n → Prop
  | send (b : Bytes) : c.eof = false →
      Handles F w c (.send b) w { c with input := c.input ++ b, sent := c.sent ++ b }
  | shutdown : c.eof = false → Handles F w c .shutdown w { c with eof := true }
  | accept (request : HttpRequest) (rest : Bytes) (f : Fn) (req_id : Uuid) (place : Fin n)
      (now : UInt64) (time : ℕ) :
      c.phase = .reading → takeRequest F c.eof c.input = some (request, rest) →
      route F request.toRequest = some f → req_id ∉ w.uuids →
      Handles F w c (.accept c.core req_id f place now time)
        (w.newReq c.core req_id f.service f.function f.jsargs place now)
        { c with
          input := rest
          phase := .waiting req_id (newReply F.toSeastar request.version request.headers time)
          accepted := c.accepted ++ [⟨req_id, request, time⟩] }
  | fail (request : HttpRequest) (rest : Bytes) :
      c.phase = .reading → takeRequest F c.eof c.input = some (request, rest) →
      route F request.toRequest = none →
      Handles F w c .fail w { c with phase := .closed }
  | respond (req_id : Uuid) (resp : Reply) (status : ℤ) (message : String) :
      c.phase = .waiting req_id resp → .promiseSet c.core req_id status message ∈ w.log →
      Handles F w c (.respond status message) w
        { c with
          output := c.output ++ (resp.answer status (Utf8.utf8 message)).text F.toSeastar
          phase := .reading }
  | hangUp : c.phase = .reading → takeRequest F c.eof c.input = none → c.eof = true →
      Handles F w c .hangUp w { c with phase := .closed }

/-- The transitions of the server: a connection comes in, something happens to one, or
the scheduler takes a step. Requests come to the scheduler from connections only. -/
inductive Serves (P : Runtime) (F : HttpLibraries) (s : NetworkServer n) :
    NetLabel n → NetworkServer n → Prop
  | connect (core : Fin n) :
      Serves P F s (.connect core) { s with conns := s.conns ++ [.initial core] }
  | conn (before after : List (Connection n)) (c c' : Connection n) (l : ConnLabel n)
      (w' : World n) :
      s.conns = before ++ c :: after → Handles F s.world c l w' c' →
      Serves P F s (.conn before.length l) ⟨w', before ++ c' :: after⟩
  | sched (l : Label n) (w' : World n) :
      l.isRequest = false → Move P s.world l w' → Serves P F s (.sched l) { s with world := w' }

/-- The server as a system. It starts without connections, and stops where the scheduler
crashes. -/
def networkServer (P : Runtime) (F : HttpLibraries) (n : ℕ) :
    System (NetworkServer n) (NetLabel n) where
  init s := s = ⟨.initial n, []⟩
  step s l s' := s.world.crashed = false ∧ Serves P F s l s'

/-! ### Reading requests -/

/-- A request that is read comes from a head that is parsed, with the body behind it. -/
theorem takeRequest_spec {eof : Bool} {s t : Bytes} {r : HttpRequest}
    (h : takeRequest F eof s = some (r, t)) : ∃ head u, F.parse s = some (head, u) ∧
      r.version = head.version ∧ t = u.drop (head.bodyLength F) := by
  unfold takeRequest at h
  split at h
  · cases h
  · next head u hparse =>
    split at h
    · obtain ⟨rfl, rfl⟩ := Prod.mk.inj (Option.some.inj h)
      exact ⟨head, u, hparse, rfl, rfl⟩
    · cases h

/-- A request takes bytes. -/
theorem HttpLibraries.Lawful.shortens (hF : F.Lawful) (eof : Bool) :
    Shortens (takeRequest F eof) := by
  intro s r t h
  obtain ⟨head, u, hparse, -, rfl⟩ := takeRequest_spec h
  have hlt := hF.parse.shortens _ _ _ hparse
  rw [List.length_drop]
  omega

/-- More of the stream does not change a request that has come whole. -/
theorem HttpLibraries.Lawful.streaming (hF : F.Lawful) : Streaming (takeRequest F false) where
  shortens := hF.shortens false
  append s r t h u := by
    unfold takeRequest at h ⊢
    -- the head is parsed, and the body has come as far as its length says
    split at h
    · cases h
    · next head v hparse =>
      rw [hF.parse.append _ _ _ hparse u]
      dsimp only at h ⊢
      split at h
      · next hlength =>
        have hlength := hlength.resolve_right nofun
        obtain ⟨rfl, rfl⟩ := Prod.mk.inj (Option.some.inj h)
        rw [if_pos (.inl (by rw [List.length_append]; omega)),
          List.take_append_of_le_length hlength, List.drop_append_of_le_length hlength]
      · cases h

/-- Nor does the end of the stream: a request that has come whole stays the same. -/
theorem takeRequest_eof {s t : Bytes} {r : HttpRequest} (h : takeRequest F false s = some (r, t)) :
    takeRequest F true s = some (r, t) := by
  unfold takeRequest at h ⊢
  split at h
  · cases h
  · split at h
    · rw [if_pos (.inr rfl)]
      exact h
    · cases h

/-! ### What a connection keeps -/

/-- A request that has been answered, and with what. -/
structure AnsweredRequest extends Accepted where
  status : ℤ
  message : String

/-- The request and its answer, as they determine the response. -/
def AnsweredRequest.exchange (a : AnsweredRequest) : Exchange :=
  ⟨a.request.version, a.request.headers, a.time, a.status, Utf8.utf8 a.message⟩

/-- The accepted requests that wait: one, with the reply made for it, or none. -/
def ConnPhase.Waits (F : HttpLibraries) : ConnPhase → List Accepted → Prop
  | .waiting req_id resp, pending => ∃ a, pending = [a] ∧ a.req_id = req_id ∧ a.reply F = resp
  | _, pending => pending = []

/-- What holds of a connection: it has taken its requests off what the client has sent,
each has been called on its core, and the responses are those of its first requests, in
order.

`frames` ties the accepted requests and the input to the bytes sent, `answered` the
output to promises that have been set, and `closed` says why the loop has ended. -/
structure Connection.Kept (F : HttpLibraries) (w : World n) (c : Connection n) : Prop where
  frames : Frames (takeRequest F c.eof) c.sent (c.accepted.map (·.request)) c.input
  called : ∀ a ∈ c.accepted, 13 ∉ a.request.version ∧ ∃ f, route F a.request.toRequest = some f ∧
    .called c.core none ⟨a.req_id, a.req_id, f.service, f.function, f.jsargs⟩ ∈ w.log
  answered : ∃ (answered : List AnsweredRequest) (pending : List Accepted),
    c.accepted = answered.map (·.toAccepted) ++ pending ∧ c.phase.Waits F pending ∧
      c.output = answered.flatMap (fun a => (a.exchange.reply F.toSeastar).text F.toSeastar) ∧
        ∀ a ∈ answered, .promiseSet c.core a.req_id a.status a.message ∈ w.log
  closed : c.phase = .closed → (c.eof = true ∧ takeRequest F true c.input = none) ∨
    ∃ request rest, takeRequest F c.eof c.input = some (request, rest) ∧
      route F request.toRequest = none

variable {w w' : World n} {c c' : Connection n}

/-- A new connection has done nothing yet. -/
theorem Connection.Kept.initial (w : World n) (core : Fin n) :
    (Connection.initial core).Kept F w where
  frames := .nil
  called := nofun
  answered := ⟨[], [], rfl, rfl, rfl, nofun⟩
  closed := nofun

/-- What happens elsewhere does not matter: the log only grows. -/
theorem Connection.Kept.mono (h : c.Kept F w) (hlog : w.log ⊆ w'.log) : c.Kept F w' where
  frames := h.frames
  called a ha := by
    obtain ⟨hversion, f, hroute, hcalled⟩ := h.called a ha
    exact ⟨hversion, f, hroute, hlog hcalled⟩
  answered := by
    obtain ⟨answered, pending, haccepted, hwaits, houtput, hset⟩ := h.answered
    exact ⟨answered, pending, haccepted, hwaits, houtput, fun a ha => hlog (hset a ha)⟩
  closed := h.closed

/-- A request is in the log. -/
theorem called_mem_newReq {i place : Fin n} {req_id : Uuid} {service function args : String}
    {now : UInt64} (hfresh : req_id ∉ w.uuids) :
    .called i none ⟨req_id, req_id, service, function, args⟩ ∈
      (w.newReq i req_id service function args place now).log := by
  obtain ⟨es, hlog, -⟩ := step_log
    (Move.newReq (P := ⟨[], fun _ => none⟩) i req_id service function args place now hfresh)
  rw [hlog]
  exact List.mem_append_left _ (by simp [World.recordEvent, World.record, Label.event])

/-- A new request adds to the log. -/
theorem log_newReq {i place : Fin n} {req_id : Uuid} {service function args : String}
    {now : UInt64} (hfresh : req_id ∉ w.uuids) :
    w.log ⊆ (w.newReq i req_id service function args place now).log := fun _ he =>
  mem_log_of_step
    (Move.newReq (P := ⟨[], fun _ => none⟩) i req_id service function args place now hfresh) he

/-- What a connection does not do to the scheduler: it takes nothing out of the log. -/
theorem Handles.log {l : ConnLabel n} (hs : Handles F w c l w' c') : w.log ⊆ w'.log := by
  cases hs with
  | accept request rest f req_id place now time hphase htake hroute hfresh =>
    exact log_newReq hfresh
  | _ => exact List.Subset.refl _

/-- **What happens to a connection keeps it in order.** There is one case for each step:
bytes and the end of the stream do not change what has been read, accepting moves one
request from the input to those that wait, and responding moves it on to those that are
answered. -/
theorem Connection.Kept.step (hF : F.Lawful) (h : c.Kept F w) {l : ConnLabel n}
    (hs : Handles F w c l w' c') : c'.Kept F w' := by
  have hmono := h.mono hs.log
  cases hs with
  -- more bytes: requests already read stay, and so does the reason why a loop has ended
  | send b heof =>
    have hframes := h.frames
    have hclosed := h.closed
    refine ⟨?_, hmono.called, hmono.answered, fun hphase => ?_⟩
    · show Frames (takeRequest F c.eof) _ _ _
      rw [heof] at hframes ⊢
      exact hframes.append hF.streaming b
    · rcases hclosed hphase with ⟨htrue, -⟩ | ⟨request, rest, htake, hroute⟩
      · cases heof.symm.trans htrue
      · refine .inr ⟨request, rest ++ b, ?_, hroute⟩
        show takeRequest F c.eof _ = _
        rw [heof] at htake ⊢
        exact hF.streaming.append _ _ _ htake b
  -- the same for the end of the stream
  | shutdown heof =>
    have hframes := h.frames
    have hclosed := h.closed
    refine ⟨?_, hmono.called, hmono.answered, fun hphase => ?_⟩
    · rw [heof] at hframes
      exact hframes.mono fun _ _ _ htake => takeRequest_eof htake
    · rcases hclosed hphase with ⟨htrue, -⟩ | ⟨request, rest, htake, hroute⟩
      · cases heof.symm.trans htrue
      · rw [heof] at htake
        exact .inr ⟨request, rest, takeRequest_eof htake, hroute⟩
  -- one request goes from the input to the accepted ones; the loop was reading, so none
  -- waited
  | accept request rest f req_id place now time hphase htake hroute hfresh =>
    obtain ⟨answered, pending, haccepted, hwaits, houtput, hset⟩ := hmono.answered
    refine ⟨?_, ?_, ⟨answered, pending ++ [⟨req_id, request, time⟩], ?_, ?_, houtput, hset⟩, nofun⟩
    · simp only [List.map_append]
      exact h.frames.snoc htake
    · intro a ha
      rcases List.mem_append.1 ha with ha | ha
      · exact hmono.called a ha
      · obtain rfl := List.mem_singleton.1 ha
        obtain ⟨head, u, hparse, hversion, -⟩ := takeRequest_spec htake
        exact ⟨hversion ▸ hF.version _ _ _ hparse, f, hroute, called_mem_newReq hfresh⟩
    · simp only [haccepted, List.append_assoc]
    · rw [hphase] at hwaits
      obtain rfl : pending = [] := hwaits
      exact ⟨_, rfl, rfl, rfl⟩
  | fail request rest hphase htake hroute =>
    obtain ⟨answered, pending, haccepted, hwaits, houtput, hset⟩ := hmono.answered
    rw [hphase] at hwaits
    exact ⟨h.frames, hmono.called, ⟨answered, pending, haccepted, hwaits, houtput, hset⟩,
      fun _ => .inr ⟨request, rest, htake, hroute⟩⟩
  -- the one that waits is answered, with what its promise was set to
  | respond req_id resp status message hphase hnew =>
    obtain ⟨answered, pending, haccepted, hwaits, houtput, hset⟩ := hmono.answered
    rw [hphase] at hwaits
    obtain ⟨a, rfl, rfl, rfl⟩ := hwaits
    refine ⟨h.frames, hmono.called, ⟨answered ++ [⟨a, status, message⟩], [], ?_, rfl, ?_, ?_⟩,
      nofun⟩
    · simp [haccepted]
    · simp only [houtput, List.flatMap_append, List.flatMap_singleton]
      rfl
    · intro b hb
      rcases List.mem_append.1 hb with hb | hb
      · exact hset b hb
      · obtain rfl := List.mem_singleton.1 hb
        exact hnew
  | hangUp hphase htake heof =>
    obtain ⟨answered, pending, haccepted, hwaits, houtput, hset⟩ := hmono.answered
    rw [hphase] at hwaits
    rw [heof] at htake
    exact ⟨h.frames, hmono.called, ⟨answered, pending, haccepted, hwaits, houtput, hset⟩,
      fun _ => .inl ⟨heof, htake⟩⟩

/-! ### All connections -/

/-- The ids of the requests that have been accepted. -/
def Connection.ids (c : Connection n) : List Uuid := c.accepted.map (·.req_id)

/-- The connections are in order, and no two requests have one id. -/
structure NetworkServer.Kept (F : HttpLibraries) (s : NetworkServer n) : Prop where
  conns : ∀ c ∈ s.conns, c.Kept F s.world
  ids : ∀ id ∈ s.conns.flatMap Connection.ids, id ∈ s.world.uuids
  nodup : (s.conns.flatMap Connection.ids).Nodup

/-- No connections, no requests. -/
theorem NetworkServer.Kept.initial (F : HttpLibraries) :
    (⟨.initial n, []⟩ : NetworkServer n).Kept F where
  conns := nofun
  ids := nofun
  nodup := List.nodup_nil

/-- The ids of the requests of a connection change when it accepts one, by an id that
has not been generated before. -/
theorem Handles.ids {l : ConnLabel n} (hs : Handles F w c l w' c') :
    (c'.ids = c.ids ∧ w' = w) ∨ ∃ req_id, req_id ∉ w.uuids ∧ c'.ids = c.ids ++ [req_id] ∧
      w'.uuids = insert req_id w.uuids := by
  cases hs with
  | accept request rest f req_id place now time hphase htake hroute hfresh =>
    have hknown := known_step (Move.newReq (P := ⟨[], fun _ => none⟩) c.core req_id f.service
      f.function f.jsargs place now hfresh)
    exact .inr ⟨req_id, hfresh, List.map_append, congrArg Prod.snd hknown⟩
  | _ => exact .inl ⟨rfl, rfl⟩

/-- **Every step of the server keeps the connections in order.** A step of one
connection changes that one by `Connection.Kept.step` and leaves the others, of whose
promises the log keeps record. -/
theorem NetworkServer.Kept.step (hF : F.Lawful) {s s' : NetworkServer n} (h : s.Kept F)
    {l : NetLabel n} (hs : Serves P F s l s') : s'.Kept F := by
  cases hs with
  | connect core =>
    refine ⟨fun c hc => ?_, ?_, ?_⟩
    · rcases List.mem_append.1 hc with hc | hc
      · exact h.conns c hc
      · obtain rfl := List.mem_singleton.1 hc
        exact .initial _ core
    · simpa [Connection.ids, Connection.initial] using h.ids
    · simpa [Connection.ids, Connection.initial] using h.nodup
  -- one connection changes
  | conn before after c c' l w' hconns hc =>
    have hkept := h.conns
    have hids := h.ids
    have hnodup := h.nodup
    rw [hconns] at hkept hids hnodup
    refine ⟨fun d hd => ?_, ?_, ?_⟩
    · rcases List.mem_append.1 hd with hd | hd
      · exact (hkept d (List.mem_append_left _ hd)).mono hc.log
      · rcases List.mem_cons.1 hd with rfl | hd
        · exact (hkept c (by simp)).step hF hc
        · exact (hkept d (by simp [hd])).mono hc.log
    · rcases hc.ids with ⟨hsame, rfl⟩ | ⟨req_id, hfresh, hnew, huuids⟩
      · simpa [hsame] using hids
      · rw [huuids]
        intro id hid
        simp only [List.flatMap_append, List.flatMap_cons, hnew, List.mem_append,
          List.mem_singleton] at hid hids
        rcases hid with hid | (hid | rfl) | hid
        · exact Finset.mem_insert_of_mem (hids id (.inl hid))
        · exact Finset.mem_insert_of_mem (hids id (.inr (.inl hid)))
        · exact Finset.mem_insert_self _ _
        · exact Finset.mem_insert_of_mem (hids id (.inr (.inr hid)))
    · rcases hc.ids with ⟨hsame, -⟩ | ⟨req_id, hfresh, hnew, -⟩
      · simpa [hsame] using hnodup
      -- the new id is none of the old ones
      · have hperm : ((before ++ c' :: after).flatMap Connection.ids).Perm
            (req_id :: (before ++ c :: after).flatMap Connection.ids) := by
          simp only [List.flatMap_append, List.flatMap_cons, hnew, ← List.append_assoc]
          exact (List.perm_append_comm.append_right _).trans (by simp)
        rw [hperm.nodup_iff, List.nodup_cons]
        exact ⟨fun hmem => hfresh (hids _ hmem), hnodup⟩
  -- the scheduler's own steps only add to the log and to the ids
  | sched l w' hl hs =>
    exact ⟨fun c hc => (h.conns c hc).mono fun _ he => mem_log_of_step hs he,
      fun id hid => uuids_mono hs (h.ids id hid), h.nodup⟩

/-- The scheduler's part of a step: its own steps, and the request that is accepted. -/
def NetLabel.label : NetLabel n → Option (Label n)
  | .sched l => some l
  | .conn _ (.accept core req_id f place now _) =>
    some (.newReq core req_id f.service f.function f.jsargs place now)
  | _ => none

/-- A step of the server is a step of the scheduler, or leaves it alone. -/
theorem Serves.world {s s' : NetworkServer n} {l : NetLabel n} (hs : Serves P F s l s') :
    (l.label = none ∧ s'.world = s.world) ∨
      ∃ l', l.label = some l' ∧ Move P s.world l' s'.world := by
  cases hs with
  | connect core => exact .inl ⟨rfl, rfl⟩
  | conn before after c c' l w' hconns hc =>
    cases hc with
    | accept request rest f req_id place now time hphase htake hroute hfresh =>
      exact .inr ⟨_, rfl, .newReq _ _ _ _ _ _ _ hfresh⟩
    | _ => exact .inl ⟨rfl, rfl⟩
  | sched l w' hl hs => exact .inr ⟨l, rfl, hs⟩

/-- The server in which the scheduler takes only steps that an assumption permits. -/
def networkServerWith (P : Runtime) (F : HttpLibraries) (allowed : World n → Label n → Prop) :
    System (NetworkServer n) (NetLabel n) :=
  (networkServer P F n).restrict fun s l => ∀ l', l.label = some l' → allowed s.world l'

/-- Steps of the scheduler are steps of the server, with the connections left alone,
unless they are requests. -/
theorem steps_sched {allowed : World n → Label n → Prop} {w w' : World n} {ls : List (Label n)}
    (h : Steps ((scheduler P n).restrict allowed) w ls w') (hls : ∀ l ∈ ls, l.isRequest = false)
    (conns : List (Connection n)) :
    Steps (networkServerWith P F allowed) ⟨w, conns⟩ (ls.map .sched) ⟨w', conns⟩ := by
  induction h with
  | nil => exact .nil _
  | @cons w w' w'' l ls hs _ ih =>
    obtain ⟨hl, hrest⟩ := List.forall_mem_cons.1 hls
    obtain ⟨hallowed, halive, hmove⟩ := hs
    -- no step of the scheduler touches a connection, and none of these is a request
    have hstep : (networkServerWith P F allowed).step ⟨w, conns⟩ (.sched l) ⟨w', conns⟩ := by
      refine ⟨fun l' hl' => ?_, halive, .sched l w' hl hmove⟩
      obtain rfl := Option.some.inj hl'
      exact hallowed
    exact .cons hstep (ih hrest)

/-- **The scheduler runs as it does without connections.** What is proved of all its
runs holds in the server. -/
theorem run_world {allowed : World n → Label n → Prop} {ls : List (NetLabel n)}
    {s : NetworkServer n} (h : Run (networkServerWith P F allowed) ls s) :
    Run ((scheduler P n).restrict allowed) (ls.filterMap NetLabel.label) s.world := by
  induction h with
  | init h0 =>
    obtain rfl := h0
    exact .init rfl
  | @step ls s s' l hr hs ih =>
    obtain ⟨hallowed, halive, hs⟩ := hs
    -- a step of a connection alone is no step of the scheduler
    rcases hs.world with ⟨hnone, hworld⟩ | ⟨l', hsome, hmove⟩
    · rw [hworld]
      simpa [hnone] using ih
    · have hstep := ih.of_allowed ⟨halive, hmove⟩ (hallowed l' hsome)
      simpa [hsome] using hstep

/-- The same without an assumption. -/
theorem run_scheduler {ls : List (NetLabel n)} {s : NetworkServer n}
    (h : Run (networkServer P F n) ls s) :
    Run (scheduler P n) (ls.filterMap NetLabel.label) s.world := by
  have hany : Run (networkServerWith P F fun _ _ => True) ls s :=
    h.to_restrict fun _ _ _ _ _ _ => trivial
  exact (run_world hany).of_restrict

/-- The connections are in order in every state the server gets to. -/
theorem kept_of_reachable (hF : F.Lawful) {s : NetworkServer n}
    (h : Reachable (networkServer P F n) s) : s.Kept F := by
  refine h.invariant ?_ ?_
  · rintro _ rfl
    exact .initial F
  · rintro s l s' hs ⟨-, hstep⟩
    exact hs.step hF hstep

/-! ### The responses -/

/-- The promise of a request is set once: the log has one answer to it. -/
theorem Accounted.answers_of_promiseSet {c : Uuid} (h : Accounted P w) {i : Fin n} {status : ℤ}
    {message : String} (hset : .promiseSet i c status message ∈ w.log) :
    w.log.filter (·.isAnswer c) = [.promiseSet i c status message] := by
  obtain ⟨k, hk, -⟩ : ∃ k, w.call c = some k ∧ _ := h.call_of_mem hset
  obtain ⟨rfl, hcaller, o, hclosed, hread⟩ := (h.promiseSet_mem_log hk).1 hset
  rw [h.filter_isAnswer hk, k.filter_isAnswer_events, hclosed]
  simp only [hcaller, hread, (h.sound c k hk).call_id]

/-- What a connection has got: the requests it has sent have been accepted in order, and
the first of them have been answered, in order and each with what its promise was set
to, so that the client reads these responses and nothing else. At most one request is
under way. -/
structure Connection.Pipelined (F : HttpLibraries) (w : World n) (c : Connection n)
    (answered : List AnsweredRequest) (pending : List Accepted) : Prop where
  accepted : c.accepted = answered.map (·.toAccepted) ++ pending
  pending : pending.length ≤ 1
  requests : c.accepted.map (·.request) <+: (readAll (takeRequest F c.eof) c.sent).1
  called : ∀ a ∈ c.accepted, ∃ f, route F a.request.toRequest = some f ∧
    .called c.core none ⟨a.req_id, a.req_id, f.service, f.function, f.jsargs⟩ ∈ w.log
  promises : ∀ a ∈ answered,
    w.log.filter (·.isAnswer a.req_id) = [.promiseSet c.core a.req_id a.status a.message]
  responses : readAll readResponse c.output =
    (answered.map fun a => (a.exchange.reply F.toSeastar).response F.toSeastar, [])
  bodies : ∀ a ∈ answered,
    ((a.exchange.reply F.toSeastar).response F.toSeastar).body = Utf8.utf8 a.message

/-- At most one request waits. -/
theorem ConnPhase.Waits.length_le {phase : ConnPhase} {pending : List Accepted}
    (h : phase.Waits F pending) : pending.length ≤ 1 := by
  cases phase with
  | waiting req_id resp =>
    obtain ⟨a, rfl, -, -⟩ := h
    exact Nat.le_refl 1
  | _ =>
    obtain rfl : pending = [] := h
    exact Nat.zero_le 1

/-- A connection that is in order has got its responses. The output is the texts of
replies one after the other, which are read back one by one; and the log has one answer
to each id. -/
theorem Connection.Kept.pipelined (hF : F.Lawful) (h : c.Kept F w) (ha : Accounted P w) :
    ∃ answered pending, c.phase.Waits F pending ∧ c.Pipelined F w answered pending := by
  obtain ⟨answered, pending, haccepted, hwaits, houtput, hset⟩ := h.answered
  -- versions have no line end, so the status lines can be read
  have hversion : ∀ e ∈ answered.map AnsweredRequest.exchange, 13 ∉ e.version := by
    intro e he
    obtain ⟨a, hmem, rfl⟩ := List.mem_map.1 he
    refine (h.called a.toAccepted ?_).1
    rw [haccepted]
    exact List.mem_append_left _ (List.mem_map_of_mem hmem)
  obtain ⟨hread, hbody, -⟩ := responses_read hF.replies _ hversion
  rw [List.flatMap_map, ← houtput, List.map_map] at hread
  refine ⟨answered, pending, hwaits, haccepted, hwaits.length_le, ?_, ?_, ?_, hread, ?_⟩
  · rw [h.frames.readAll (hF.shortens c.eof)]
    exact List.prefix_append _ _
  · exact fun a hmem => (h.called a hmem).2
  · exact fun a hmem => ha.answers_of_promiseSet (hset a hmem)
  · exact fun a hmem => hbody _ (List.mem_map_of_mem hmem)

/-- **Requests are answered in order**, whatever the services do, in every state a
server of any number of connections gets to.

No two requests of any connections are mixed up. That their ids are different is so by
construction: a step that accepts a request takes a UUID that has not been generated
before, as `new_req` is supposed to. What has to be proved is that each answer has been
made for the request with its id, and is written to the connection that request came
from, in the order in which the requests came. `Connection.Kept` carries this: `frames`
ties the accepted requests to the bytes sent, `answered` ties the output to the promises
that have been set. A promise is set once at most, which is the scheduler's part
(`answers_of_promiseSet`), and why the status and message of each response are those of
one reply. -/
theorem requests_answered_in_order (hF : F.Lawful) {s : NetworkServer n}
    (h : Reachable (networkServer P F n) s) (halive : s.world.crashed = false) :
    (∀ c ∈ s.conns, ∃ answered pending, c.Pipelined F s.world answered pending) ∧
      (s.conns.flatMap Connection.ids).Nodup := by
  obtain ⟨ls, hrun⟩ := h
  have hkept := kept_of_reachable hF ⟨ls, hrun⟩
  have ha := (inOrder_of_reachable ⟨_, run_scheduler hrun⟩ halive).accounted
  refine ⟨fun c hc => ?_, hkept.nodup⟩
  obtain ⟨answered, pending, -, hpipelined⟩ := (hkept.conns c hc).pipelined hF ha
  exact ⟨answered, pending, hpipelined⟩

section OneRequest

/-- Reads a request line, and the fields up to an empty line. -/
def plainParse : Reader UInt8 Head := fun s => do
  let (line, s) ← cutAt crlf s
  let (lines, s) ← readBlock crlf s.length s
  let (_, target) ← cutAt (bytes " ") line
  let (url, version) ← cutAt (bytes " HTTP/") target
  let fields ← lines.mapM readField
  if 13 ∈ version then none
  else some (⟨version, url, fields.foldl (fun f e => f.set e.1 e.2) .empty⟩, s)

/-- What is read depends on the lines in front only, so it is the same in every text
with these lines. -/
theorem plainParse_eq_some {s t : Bytes} {head : Head} (h : plainParse s = some (head, t)) :
    ∃ line s₁ lines, cutAt crlf s = some (line, s₁) ∧
      readBlock crlf s₁.length s₁ = some (lines, t) ∧ 13 ∉ head.version ∧
      ∀ u s₂, cutAt crlf u = some (line, s₂) →
        ∀ t', readBlock crlf s₂.length s₂ = some (lines, t') → plainParse u = some (head, t') := by
  obtain ⟨⟨line, s₁⟩, hline, h⟩ := Option.bind_eq_some_iff.1 h
  obtain ⟨⟨lines, s₂⟩, hblock, h⟩ := Option.bind_eq_some_iff.1 h
  obtain ⟨⟨method, target⟩, hmethod, h⟩ := Option.bind_eq_some_iff.1 h
  obtain ⟨⟨url, version⟩, hurl, h⟩ := Option.bind_eq_some_iff.1 h
  obtain ⟨fields, hfields, h⟩ := Option.bind_eq_some_iff.1 h
  split at h
  · cases h
  · next hversion =>
    obtain ⟨rfl, rfl⟩ := Prod.mk.inj (Option.some.inj h)
    -- the head is read from the first line and the block of headers alone, whatever
    -- follows
    refine ⟨line, s₁, lines, hline, hblock, hversion, fun u s₂ hu t' hblock' => ?_⟩
    refine Option.bind_eq_some_iff.2 ⟨_, hu, Option.bind_eq_some_iff.2 ⟨_, hblock', ?_⟩⟩
    refine Option.bind_eq_some_iff.2 ⟨_, hmethod, Option.bind_eq_some_iff.2 ⟨_, hurl, ?_⟩⟩
    refine Option.bind_eq_some_iff.2 ⟨_, hfields, ?_⟩
    rw [if_neg hversion]

/-- It reads a stream, as its parts do. -/
theorem streaming_plainParse : Streaming plainParse where
  shortens s head t h := by
    obtain ⟨line, s₁, lines, hline, hblock, -⟩ := plainParse_eq_some h
    have hlen := length_of_cutAt hline
    have hlen' := length_of_readBlock hblock
    have hcrlf : crlf.length = 2 := rfl
    omega
  append s head t h u := by
    obtain ⟨line, s₁, lines, hline, hblock, -, hsame⟩ := plainParse_eq_some h
    have hcrlf : crlf ≠ [] := List.cons_ne_nil _ _
    have hlonger : s₁.length ≤ (s₁ ++ u).length := by
      rw [List.length_append]
      exact Nat.le_add_right _ _
    exact hsame _ _ ((streaming_cutAt hcrlf).append _ _ _ hline u) _
      (readBlock_extend hcrlf hlonger hblock u)

/-- This parser, with the libraries of the examples and the `npos` of a 64-bit
`size_t`. -/
def plainHttp : HttpLibraries where
  toSeastar := plainSeastar
  parse := plainParse
  lib := asciiLibraries
  npos := 2 ^ 64 - 1

/-- They are as assumed. -/
theorem plainHttp_lawful : plainHttp.Lawful where
  replies := plainSeastar_replies
  parse := streaming_plainParse
  version _ _ _ h := by
    obtain ⟨-, -, -, -, -, hversion, -⟩ := plainParse_eq_some h
    exact hversion

/-- A request for the function `l2` of `complex.js`, with one header. -/
def l2Text : Bytes :=
  bytes "GET /complex/l2 HTTP/1.1" ++ crlf ++ bytes "Host: x" ++ crlf ++ crlf

/-- Its head. -/
def l2Head : Head where
  version := bytes "1.1"
  url := bytes "/complex/l2"
  headers := Fields.empty.set (bytes "Host") (bytes "x")

/-- The request. -/
def l2Request : HttpRequest := ⟨parsedRequest l2Head.url l2Head.headers [], l2Head.version⟩

/-- The text is read as its head. -/
theorem parse_l2Text : plainHttp.parse l2Text = some (l2Head, []) := by decide +kernel

/-- And as the request, whatever follows. -/
theorem takeRequest_l2Text (rest : Bytes) :
    takeRequest plainHttp false (l2Text ++ rest) = some (l2Request, rest) := by
  have hlength : l2Head.bodyLength plainHttp = 0 := by decide +kernel
  have htake : takeRequest plainHttp false l2Text = some (l2Request, []) := by
    simp only [takeRequest, parse_l2Text, hlength]
    rfl
  exact plainHttp_lawful.streaming.append _ _ _ htake rest

/-- The argument of the function. -/
def l2Args : String :=
  "\x7b\"headers\":\x7b\"Host\":\"x\"\x7d,\"parameters\":\"\",\"content\":\"\"\x7d"

/-- The request goes to the function. -/
theorem route_l2Request : route plainHttp l2Request.toRequest =
    some ⟨"complex.js", "l2", l2Args⟩ := by decide +kernel

/-- The connection when the first request has been accepted, of those the client has
sent. -/
def l2Connection (rest : Bytes) : Connection 2 where
  core := 0
  input := rest
  eof := false
  output := []
  phase := .waiting firstUuid (newReply plainSeastar l2Request.version l2Request.headers 0)
  sent := l2Text ++ rest
  accepted := [⟨firstUuid, l2Request, 0⟩]

/-- The call has been placed on the other core. -/
def l2Accepted (rest : Bytes) : NetworkServer 2 :=
  ⟨(World.initial 2).newReq 0 firstUuid "complex.js" "l2" l2Args 1 0, [l2Connection rest]⟩

/-- A client connects, sends and has its first request accepted. -/
theorem run_l2Accepted (rest : Bytes) (allowed : World 2 → Label 2 → Prop)
    (hallowed : allowed (.initial 2) (.newReq 0 firstUuid "complex.js" "l2" l2Args 1 0)) :
    Run (networkServerWith P plainHttp allowed)
      [.connect 0, .conn 0 (.send (l2Text ++ rest)),
        .conn 0 (.accept 0 firstUuid ⟨"complex.js", "l2", l2Args⟩ 1 0 0)] (l2Accepted rest) := by
  have hfresh : firstUuid ∉ (World.initial 2).uuids := by decide
  have h₀ : Run (networkServerWith P plainHttp allowed) [] ⟨.initial 2, []⟩ := .init rfl
  -- a connection, the bytes of the request, and the request taken from them
  have h₁ := h₀.of_allowed (l := .connect 0) ⟨rfl, .connect 0⟩ nofun
  have h₂ := h₁.of_allowed (l := .conn 0 (.send (l2Text ++ rest)))
    ⟨rfl, .conn [] [] _ _ _ _ rfl (.send (l2Text ++ rest) rfl)⟩ nofun
  exact h₂.of_allowed ⟨rfl, .conn [] [] _ _ _ _ rfl
    (.accept l2Request rest _ firstUuid 1 0 0 rfl (takeRequest_l2Text rest) route_l2Request
      hfresh)⟩ fun l hl => by
    obtain rfl := Option.some.inj hl
    exact hallowed

/-- A client asks for `l2` twice, in one piece, of a service that answers at once. -/
def complexService : Runtime := { oneService with services := ["complex.js"] }

/-- The first is answered on the other core. -/
def firstAnswered : List (Label 2) :=
  let task : Task := ⟨firstUuid, firstUuid, "complex.js", "l2", l2Args⟩
  [.deliverRun 1 0 task 1, .start 1 task 2, .jsReply firstUuid usableReply 3,
    .deliverReply 0 1 firstUuid firstUuid "complex.js" usableReply 4]

/-- The scheduler then. -/
def firstAnsweredWorld : World 2 := (l2Accepted l2Text).world.after complexService firstAnswered

/-- The connection when the first has been answered. -/
def respondedConnection : Connection 2 :=
  { l2Connection l2Text with
    output := ((newReply plainSeastar l2Request.version l2Request.headers 0).answer 200
      (Utf8.utf8 "ok")).text plainSeastar
    phase := .reading }

/-- The connection when the second has been accepted. -/
def pipelinedConnection : Connection 2 :=
  { respondedConnection with
    input := []
    phase := .waiting secondUuid (newReply plainSeastar l2Request.version l2Request.headers 5)
    accepted := [⟨firstUuid, l2Request, 0⟩, ⟨secondUuid, l2Request, 5⟩] }

/-- The server then: the first request answered, the second under way. -/
def pipelined : NetworkServer 2 :=
  ⟨firstAnsweredWorld.newReq 0 secondUuid "complex.js" "l2" l2Args 0 5, [pipelinedConnection]⟩

/-- The server gets there: the request is accepted, the scheduler answers it, the
response is written, and the second request is accepted. -/
theorem reachable_pipelined : Reachable (networkServer complexService plainHttp 2) pipelined := by
  have haccepted := run_l2Accepted (P := complexService) l2Text (fun _ _ => True) trivial
  -- the first request is carried through the scheduler, answered, and then the second
  -- one is taken
  have hsched : Steps (networkServerWith complexService plainHttp fun _ _ => True)
      (l2Accepted l2Text) (firstAnswered.map .sched)
      ⟨firstAnsweredWorld, [l2Connection l2Text]⟩ :=
    steps_sched (steps_after firstAnswered (by decide +kernel)) (by decide) [l2Connection l2Text]
  have halive : firstAnsweredWorld.crashed = false := by decide +kernel
  have hset : .promiseSet 0 firstUuid 200 "ok" ∈ firstAnsweredWorld.log := by decide +kernel
  have hfresh : secondUuid ∉ firstAnsweredWorld.uuids := by decide +kernel
  have hresponds : Serves complexService plainHttp
      ⟨firstAnsweredWorld, [l2Connection l2Text]⟩ (.conn 0 (.respond 200 "ok"))
      ⟨firstAnsweredWorld, [respondedConnection]⟩ :=
    .conn [] [] _ _ _ _ rfl (.respond firstUuid _ 200 "ok" rfl hset)
  have haccepts : Serves complexService plainHttp ⟨firstAnsweredWorld, [respondedConnection]⟩
      (.conn 0 (.accept 0 secondUuid ⟨"complex.js", "l2", l2Args⟩ 0 5 5)) pipelined :=
    .conn [] [] _ _ _ _ rfl
      (.accept l2Request [] _ secondUuid 0 5 5 rfl (takeRequest_l2Text []) route_l2Request hfresh)
  have hresponded := (haccepted.append hsched).of_allowed ⟨halive, hresponds⟩ nofun
  exact ⟨_, (hresponded.of_allowed ⟨halive, haccepts⟩ fun _ _ => trivial).of_restrict⟩

/-- One of two pipelined requests has been answered, and the other is pending. -/
theorem requests_answered_in_order_pipelined :
    (∀ c ∈ pipelined.conns, ∃ answered pending,
      c.Pipelined plainHttp pipelined.world answered pending) ∧
      (pipelined.conns.flatMap Connection.ids).Nodup ∧
      pipelined.conns.map Connection.ids = [[firstUuid, secondUuid]] := by
  obtain ⟨hpipelined, hnodup⟩ :=
    requests_answered_in_order plainHttp_lawful reachable_pipelined (by decide +kernel)
  exact ⟨hpipelined, hnodup, rfl⟩

end OneRequest

end Nanoservices
