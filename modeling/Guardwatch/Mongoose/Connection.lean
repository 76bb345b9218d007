import Guardwatch.Mongoose.Chunked

/-! `mg_http_handler` on a server's connection: the requests that it finds in what it receives.
Nothing is modelled of the file or the CGI program that the event handler may have opened for a
request, but that it is open. -/

namespace Guardwatch.Mongoose

/-- The fields of `mg_http_proto_data` for requests; `chunkBodyLen` is `chunk.body_len`. -/
structure HttpProtoData where
  rcvd : Nat
  bodyRcvd : Nat
  finished : Bool
  chunkBodyLen : Nat
deriving DecidableEq

/-- What the event handler gets with `MG_EV_HTTP_REQUEST`. -/
structure Delivered where
  hm : HttpHead
  body : Token
deriving DecidableEq

/-- A connection: `recv_mbuf`, `proto_data`, `MG_F_CLOSE_IMMEDIATELY`, and the requests so far. -/
structure Connection where
  io : List UInt8
  pd : Option HttpProtoData
  closing : Bool
  requests : List Delivered
deriving DecidableEq

def Connection.accepted : Connection := ⟨[], none, false, []⟩

/-- `mbuf_remove`. -/
def mbufRemove (n : Nat) (io : List UInt8) : List UInt8 := if n ≤ io.length then io.drop n else io

/-- The data of a new request, or those of the one that is not finished. -/
def protoData (c : Connection) : HttpProtoData :=
  match c.pd with
  | some pd => if pd.finished then ⟨c.io.length, 0, false, 0⟩ else pd
  | none => ⟨c.io.length, 0, false, 0⟩

/-- `deliver_chunk`: the length of the body so far. -/
def deliverChunk (hm : HttpHead) (io : List UInt8) (reqLen : Nat) : Nat :=
  if hm.sizes.contentLength ≠ sizeMax then min (io.length - reqLen) hm.sizes.contentLength
  else io.length - reqLen

/-- The body comes in chunks. -/
def HttpHead.chunked (hm : HttpHead) : Bool :=
  match mgGetHttpHeader hm transferEncodingName with
  | some s => mgVcasecmp s chunkedValue
  | none => false

def HttpHead.webSocket (hm : HttpHead) : Bool := (mgGetHttpHeader hm secWebSocketKeyName).isSome

/-- The buffer, its data and `message.len` once `mg_handle_chunked` has run where it has to. -/
def joinChunks (hm : HttpHead) (reqLen : Nat) (io : List UInt8) (pd : HttpProtoData) :
    List UInt8 × HttpProtoData × Nat :=
  if hm.chunked then
    let (buf, bodyLen, zeroChunkReceived) := mgHandleChunked (io.drop reqLen) pd.chunkBodyLen
    (io.take reqLen ++ buf, { pd with chunkBodyLen := bodyLen },
      if zeroChunkReceived then reqLen + buf.length else hm.sizes.messageLen)
  else (io, pd, hm.sizes.messageLen)

section Events

-- The event handler returns with `file.fp` or `cgi.cgi_nc` set for the request, and they stay set.
variable (leavesOpen : Delivered → Bool)

/-- The code behind `again`, at most `fuel` times; `none` where another handler goes on. -/
def again : Nat → Connection → Option Connection
  | 0, _ => none
  | fuel + 1, c =>
    match mgParseHttp c.io with
    | .malformed => some { c with closing := true }
    | .incomplete =>
      some (if c.io.length ≥ mgMaxHttpRequestSize then { c with closing := true } else c)
    | .request reqLen hm =>
      let (io, pd, messageLen) := joinChunks hm reqLen c.io (protoData c)
      if hm.webSocket then none
      else
        let bodyLen := deliverChunk hm io reqLen
        let pd := { pd with bodyRcvd := bodyLen }
        if messageLen > pd.rcvd ∧
            (hm.sizes.contentLength = sizeMax ∨ pd.bodyRcvd < hm.sizes.contentLength) then
          some { c with io := io, pd := some pd }
        else
          let request : Delivered := ⟨hm, ⟨io.drop reqLen, bodyLen⟩⟩
          let requestDone := !leavesOpen request
          let rcvd := (pd.rcvd + 2 ^ 64 - messageLen) % 2 ^ 64
          let c : Connection :=
            { c with
              io := mbufRemove (reqLen + bodyLen) io
              pd := some { pd with rcvd, bodyRcvd := 0, finished := requestDone }
              requests := c.requests ++ [request] }
          if requestDone = true ∧ c.io ≠ [] then again fuel c else some c

/-- `MG_EV_RECV`, with the bytes that are new in `recv_mbuf`. -/
def Connection.recv (c : Connection) (data : List UInt8) : Option Connection :=
  again leavesOpen (c.io.length + data.length + 1) { c with io := c.io ++ data }

/-- What is received in segments. -/
def Connection.recvAll (c : Connection) (segments : List (List UInt8)) : Option Connection :=
  segments.foldlM (Connection.recv leavesOpen) c

end Events

/-- `MG_EV_CLOSE`: a request whose head has arrived is delivered as it is. -/
def Connection.close (c : Connection) : Connection :=
  if c.io = [] then c
  else
    match mgParseHttp c.io with
    | .request reqLen hm =>
      { c with requests := c.requests ++
        [⟨hm, ⟨c.io.drop reqLen, deliverChunk hm c.io reqLen⟩⟩] }
    | _ => c

variable {hm : HttpHead} {reqLen : Nat} {io : List UInt8} {pd : HttpProtoData}

/-- A body that does not come in chunks. -/
theorem joinChunks_plain (plain : hm.chunked = false) :
    joinChunks hm reqLen io pd = (io, pd, hm.sizes.messageLen) := by
  rw [joinChunks, plain, if_neg Bool.false_ne_true]

end Guardwatch.Mongoose
