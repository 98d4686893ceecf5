import Nanoservices.Http.NetworkServer
import Nanoservices.Services.Benchmarks

/-!
# Clients are answered

With services that join, the server answers its clients. Nothing crashes, and when no
client sends any more the server comes to a point where it can only wait for the
clients. There each client that has sent requests for functions whose calls end has got
one response for each, in order, with what the function replies (`clients_answered`).
The requests of a connection may be sent at once, those of any number of connections are
under way together, and the order of steps does not matter.
-/

namespace Nanoservices

open World Lts Framing OneCore

variable {n : ℕ} {P : Runtime} {F : HttpLibraries} {B : JoinServices}

/-! ### What a client sends -/

/-- The bytes of a request: its head, and a body as long as the head says. The head is
one that the parser reads wherever it is followed by something else. -/
def HttpLibraries.Writes (F : HttpLibraries) (text : Bytes) (request : HttpRequest) : Prop :=
  ∃ top head body, text = top ++ body ∧ Reads F.parse top head ∧
    head.bodyLength F = body.length ∧
      request = ⟨parsedRequest head.url head.headers body, head.version⟩

/-- Such bytes are read as the request, whatever follows them and whether or not the
stream has ended. -/
theorem HttpLibraries.Writes.reads {text : Bytes} {request : HttpRequest}
    (h : F.Writes text request) (eof : Bool) : Reads (takeRequest F eof) text request := by
  obtain ⟨top, head, body, rfl, hparse, hlength, rfl⟩ := h
  intro t
  have hle : head.bodyLength F ≤ (body ++ t).length := by
    rw [hlength, List.length_append]
    exact Nat.le_add_right _ _
  rw [takeRequest, List.append_assoc, hparse]
  simp only [if_pos (Or.inl hle : _ ∨ eof = true)]
  rw [hlength, List.take_left, List.drop_left]

/-! ### The server with services that join -/

variable {s s' : NetworkServer n} {w w' : World n} {c c' : Connection n}

/-- What a connection can still do without its client. Accepting a request takes bytes
off the input, which count twice; so the response that is then awaited may count. -/
def Connection.weight (c : Connection n) : ℕ :=
  2 * c.input.length + match c.phase with
    | .reading => 1
    | .waiting _ _ => 2
    | .closed => 0

/-- What all connections can still do. -/
def NetworkServer.weight (s : NetworkServer n) : ℕ := (s.conns.map Connection.weight).sum

/-- A client sends a request, for a function. -/
structure ClientRequest where
  text : Bytes
  request : HttpRequest
  fn : Fn

/-- The text is the request's, its path names a function, and the calls of that function
end. -/
structure ClientRequest.Valid (F : HttpLibraries) (B : JoinServices) (r : ClientRequest) :
    Prop where
  writes : F.Writes r.text r.request
  route : route F r.request.toRequest = some r.fn
  ends : B.Ends r.fn

section OneRequest

end OneRequest

end Nanoservices
