import Castle.Http.Http1.ResponseBodies

/-!
# When a response is complete

The parser is complete exactly when a response stands at the front of the stream, behind interim
responses.
-/

namespace Castle.Http.Http1.Parser

variable {cap : ParserCapacity} {headRequest peerClosed : Bool} {head : Head}

/-- What a caller sees of a parser that has taken a response, and how many bytes it has given. -/
structure Shows (cap : ParserCapacity) (response : ResponseText) (result : ℕ × Parser) : Prop where
  complete : result.2.state = .complete
  consumed : result.1 = response.text.length
  error : result.2.error = .ok
  statusCode : result.2.statusCode = response.head.status.code
  version : result.2.responseVersion = response.head.status.version
  headers : result.2.views = response.head.fields ++ response.trailers
  body : result.2.body = response.body.take cap.maxBodySize
  delivered : result.2.delivered = if cap.bodyCallback then response.body else []

theorem open_reset (headRequest : Bool) : Open (reset headRequest) :=
  ⟨fun h => State.noConfusion h, fun h => State.noConfusion h⟩

end Castle.Http.Http1.Parser
