import Castle.Http.Http1.Responses

/-!
# The bodies that the parser takes

A piece of a body is retained as far as there is room, and the callback takes all of it.
-/

namespace Castle.Http.Http1.Parser

variable {cap : ParserCapacity} {p : Parser}

theorem room_iff {data more : Bytes} (h : BodyFits cap data) : more.length ≤ cap.maxBodySize -
    (data.take cap.maxBodySize).length ∨ cap.bodyCallback = true ↔ BodyFits cap (data ++ more) := by
  rw [BodyFits, List.length_append, List.length_take]
  cases hc : cap.bodyCallback with
  | true => simp
  | false =>
    have hsize := h.resolve_right (by rw [hc]; exact Bool.false_ne_true)
    simp only [Bool.false_eq_true, or_false]
    omega

section

variable {body text : Bytes} {peerClosed : Bool}

variable {data : Bytes} {size : ℕ}

variable {trailer : Trailer}

end

end Castle.Http.Http1.Parser
