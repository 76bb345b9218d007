import Guardwatch.Mongoose.Connection

/-! Requests with a length in any segmentation: each one is delivered once, with its own body, and
none before its last byte has come. -/

namespace Guardwatch.Mongoose

/-- A request with the length of its body in its head, and with no other handler. -/
structure SizedRequest where
  head : List UInt8
  body : List UInt8
  hm : HttpHead
  parsed : mgParseHttp head = .request head.length hm
  sizes : hm.sizes = ⟨body.length, head.length + body.length, body.length⟩
  ordinary : hm.chunked = false ∧ hm.webSocket = false
  small : head.length ≤ mgMaxHttpRequestSize
  fits : head.length + body.length ≤ sizeMax

def SizedRequest.bytes (r : SizedRequest) : List UInt8 := r.head ++ r.body

/-- What the handler gets of a request: its head and its body. -/
def SizedRequest.content (r : SizedRequest) : HttpHead × List UInt8 := (r.hm, r.body)

def Delivered.content (d : Delivered) : HttpHead × List UInt8 := (d.hm, d.body.bytes)

/-- The event handler leaves nothing open for the request. -/
def SizedRequest.Finishes (leavesOpen : Delivered → Bool) (r : SizedRequest) : Prop :=
  ∀ d : Delivered, d.content = r.content → leavesOpen d = false

/-- Nothing is wrong with a connection, and no request has more bytes than there are. -/
structure Sound (c : Connection) : Prop where
  running : c.closing = false
  received : ∀ pd, c.pd = some pd → pd.finished = false → pd.rcvd ≤ c.io.length

variable {leavesOpen : Delivered → Bool} {fuel : Nat} {c : Connection} {r : SizedRequest}
  {more : List UInt8}

/-- The request whose head has come, with what has come of its body. -/
def SizedRequest.cut (q : List UInt8) : List SizedRequest → List (HttpHead × List UInt8)
  | [] => []
  | r :: _ => if r.head.length ≤ q.length then [(r.hm, q.drop r.head.length)] else []

end Guardwatch.Mongoose
