import Castle.Http.Http1.ResponseSyntax
import Castle.Http.Http1.Splits

/-!
# The responses that the parser takes

The parser is complete after a stream exactly when a response stands at its front, and then
it has consumed the text of the response.
-/

namespace Castle.Http.Http1.Parser

variable {cap : ParserCapacity} {p : Parser}

/-- The parser is complete after the text and the end of the stream, if it is the end. -/
def Done (cap : ParserCapacity) (peerClosed : Bool) (p : Parser) (text : Bytes) : Prop :=
  (finish peerClosed (run cap p text)).2.2.state = .complete

section

variable {headRequest : Bool} {status : StatusLine} {fields : Headers} {keepAlive closeSeen : Bool}
  {field : Field}

variable {head : Head}

end

end Castle.Http.Http1.Parser
