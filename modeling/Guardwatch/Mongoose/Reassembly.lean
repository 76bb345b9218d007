import Guardwatch.Mongoose.Delivery
import Mathlib.Data.List.Find

/-! Requests whose bodies come in chunks: what the event handler gets of them, and when. -/

namespace Guardwatch.Mongoose

open CInput

/-! ### The headers of a request -/

/-- The names that are read are inside the head. -/
theorem parseHeaders_names {len fuel room : Nat} {s : List UInt8} {sizes : HttpSizes} :
    ∀ header ∈ (mgHttpParseHeaders len fuel room s sizes).1,
      header.1.len ≤ header.1.text.length := by
  induction fuel generalizing room s sizes with
  | zero => exact List.forall_mem_nil _
  | succ fuel ih =>
    cases room with
    | zero => exact List.forall_mem_nil _
    | succ room =>
      have inside : (mgSkip [58, 32] s).1.len ≤ (mgSkip [58, 32] s).1.text.length :=
        (List.takeWhile_prefix _).length_le
      rw [mgHttpParseHeaders]
      dsimp only
      split_ifs with skipped ends
      · exact ih
      · exact List.forall_mem_nil _
      · exact List.forall_mem_cons.mpr ⟨inside, ih⟩

theorem RequestText.names (r : RequestText) :
    ∀ header ∈ r.hm.headers, header.1.len ≤ header.1.text.length := by
  have read := (parseHttp_request r.parsed).2.2.2
  rw [parseHead] at read
  dsimp only at read
  split at read
  · cases read
  · have fields := (Parsed.request.inj read).2
    rw [← fields]
    exact parseHeaders_names

/-- `mg_get_http_header` finds the first header with the name. -/
theorem getHeader_text (r : RequestText) (name : List UInt8) :
    (mgGetHttpHeader r.hm name).map Token.bytes =
      (r.headers.find? fun h => h.name.map tolower == name.map tolower).map Header.value := by
  have same : ∀ header ∈ r.hm.headers,
      decide (header.1.len = name.length ∧ mgNcasecmp header.1.text name = true) =
        (header.1.bytes.map tolower == name.map tolower) := by
    intro header mem
    have inside := r.names header mem
    rw [mgNcasecmp, Token.bytes]
    by_cases len : header.1.len = name.length
    · rw [len]
      simp [beq_eq_decide]
    · have other : (header.1.text.take header.1.len).map tolower ≠ name.map tolower := by
        intro eq
        have length := congrArg List.length eq
        rw [List.length_map, List.length_map, List.length_take] at length
        omega
      rw [beq_eq_false_iff_ne.mpr other]
      simp [len]
  let named (header : List UInt8 × List UInt8) : Bool := header.1.map tolower == name.map tolower
  have pairs := congrArg (fun headers => (headers.find? named).map Prod.snd) r.reads.headers
  rw [List.find?_map, List.find?_map, Option.map_map, Option.map_map] at pairs
  rw [mgGetHttpHeader, List.find?_congr same, Option.map_map]
  exact pairs

/-- A request whose body comes in chunks. -/
structure ChunkedRequest where
  request : RequestText
  body : ChunkedBody
  coding : ((request.headers.find? fun h =>
    h.name.map tolower == transferEncodingName.map tolower).map fun h => h.value.map tolower) =
      some (chunkedValue.map tolower)
  no_socket : ∀ h ∈ request.headers, h.name.map tolower ≠ secWebSocketKeyName.map tolower
  unsized : lengthHeader request.headers = none
  sends : request.sends = true
  small : request.text.length ≤ mgMaxHttpRequestSize
  fits : request.text.length + body.bytes.length < sizeMax

def ChunkedRequest.bytes (w : ChunkedRequest) : List UInt8 := w.request.text ++ w.body.bytes

section Request

variable (w : ChunkedRequest)

theorem ChunkedRequest.sizes : w.request.hm.sizes = ⟨sizeMax, sizeMax, sizeMax⟩ := by
  rw [w.request.reads.sizes, RequestText.sizes, w.unsized, w.sends]
  rfl

theorem ChunkedRequest.chunked : w.request.hm.chunked = true := by
  obtain ⟨h, first, value⟩ := Option.map_eq_some_iff.mp w.coding
  have found := getHeader_text w.request transferEncodingName
  rw [first, Option.map_some] at found
  obtain ⟨token, got, bytes⟩ := Option.map_eq_some_iff.mp found
  rw [HttpHead.chunked, got]
  exact beq_iff_eq.mpr (bytes ▸ value)

theorem ChunkedRequest.webSocket : w.request.hm.webSocket = false := by
  have none_found : (w.request.headers.find? fun h =>
      h.name.map tolower == secWebSocketKeyName.map tolower) = none :=
    List.find?_eq_none.mpr fun h mem => by
      rw [beq_iff_eq]
      exact w.no_socket h mem
  have found := getHeader_text w.request secWebSocketKeyName
  rw [none_found, Option.map_none, Option.map_eq_none_iff] at found
  rw [HttpHead.webSocket, found]
  rfl

variable {w} {leavesOpen : Delivered → Bool} {c : Connection} {joined s body rest : List UInt8}
  {ended : Bool} {fuel : Nat}

/-- The data of a connection that has the head and what is joined of the body. -/
def chunkData (rcvd : Nat) (buf : List UInt8) (bodyLen : Nat) : HttpProtoData :=
  { rcvd, bodyRcvd := buf.length, finished := false, chunkBodyLen := bodyLen }

/-- The head has come, and a part of the body is joined. -/
structure Waiting (w : ChunkedRequest) (rcvd : Nat) (joined rest : List UInt8) (c : Connection) :
    Prop where
  io : c.io = w.request.text ++ (joined ++ rest)
  pd : ∃ buf, c.pd = some (chunkData rcvd buf joined.length)
  running : c.closing = false
  requests : c.requests = []

theorem Waiting.protoData {rcvd : Nat} (waiting : Waiting w rcvd joined rest c)
    (data : List UInt8) :
    ∃ buf, Mongoose.protoData { c with io := c.io ++ data } = chunkData rcvd buf joined.length := by
  obtain ⟨buf, pd⟩ := waiting.pd
  refine ⟨buf, ?_⟩
  rw [Mongoose.protoData, pd]
  rfl

/-- When the client closes its end, what is in the buffer goes with the request. -/
theorem Waiting.closed {rcvd : Nat} (waiting : Waiting w rcvd joined rest c) :
    ∃ d, c.close.requests = [d] ∧ Gets (w.request, joined ++ rest) d := by
  have nonempty : w.request.text ++ (joined ++ rest) ≠ [] := by
    have := w.request.text_pos
    simp [List.ne_nil_of_length_pos this]
  let d : Delivered := ⟨w.request.hm, ⟨joined ++ rest, (joined ++ rest).length⟩⟩
  refine ⟨d, ?_, w.request.reads, List.take_length⟩
  rw [Connection.close, waiting.io, if_neg nonempty, parseHttp_append w.request.parsed]
  dsimp only
  rw [deliverChunk_unsized (by rw [w.sizes]), List.length_append, Nat.add_sub_cancel_left,
    List.drop_left, waiting.requests]
  rfl

end Request

end Guardwatch.Mongoose
