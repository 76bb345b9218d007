import Guardwatch.Mongoose.RoundTrip

/-! What the event handler gets of the requests that were sent, whatever the segments are. -/

namespace Guardwatch.Mongoose

open CInput

/-! ### The kinds of requests -/

/-- The body comes without chunks, and nobody asks for a WebSocket. -/
def RequestText.ordinary (r : RequestText) : Bool :=
  r.headers.all fun h =>
    h.name.map tolower != transferEncodingName.map tolower &&
      h.name.map tolower != secWebSocketKeyName.map tolower

/-- What `mg_parse_http` finds in the text. -/
noncomputable def RequestText.hm (r : RequestText) : HttpHead := (parseHttp_text r).choose

theorem RequestText.parsed (r : RequestText) :
    mgParseHttp r.text = .request r.text.length r.hm :=
  (parseHttp_text r).choose_spec.1

theorem RequestText.reads (r : RequestText) : Reads r r.hm := (parseHttp_text r).choose_spec.2

variable {leavesOpen : Delivered → Bool} {r : RequestText} {c : Connection} {body : List UInt8}

theorem getHeader_none {hm : HttpHead} {name : List UInt8}
    (other : ∀ header ∈ hm.headers, header.1.bytes.map tolower ≠ name.map tolower) :
    mgGetHttpHeader hm name = none := by
  rw [mgGetHttpHeader, Option.map_eq_none_iff, List.find?_eq_none]
  intro header mem found
  rw [decide_eq_true_eq] at found
  obtain ⟨len, same⟩ := found
  apply other header mem
  rw [Token.bytes, len]
  exact eq_of_beq same

theorem ordinary_text (ordinary : r.ordinary = true) :
    r.hm.chunked = false ∧ r.hm.webSocket = false := by
  have other : ∀ header ∈ r.hm.headers,
      header.1.bytes.map tolower ≠ transferEncodingName.map tolower ∧
        header.1.bytes.map tolower ≠ secWebSocketKeyName.map tolower := by
    intro header mem
    have pair : (header.1.bytes, header.2.bytes) ∈ r.headers.map (fun h => (h.name, h.value)) := by
      rw [← r.reads.headers]
      exact List.mem_map_of_mem mem
    obtain ⟨h, mem, same⟩ := List.mem_map.mp pair
    have names := List.all_eq_true.mp ordinary h mem
    rw [Bool.and_eq_true, bne_iff_ne, bne_iff_ne] at names
    obtain ⟨name, -⟩ := Prod.mk.inj same
    rw [← name]
    exact names
  rw [HttpHead.chunked, HttpHead.webSocket, getHeader_none fun header mem => (other header mem).1,
    getHeader_none fun header mem => (other header mem).2]
  exact ⟨rfl, rfl⟩

theorem RequestText.text_pos (r : RequestText) : 0 < r.text.length :=
  (parseHttp_request r.parsed).2.1

/-- A request with the length of its body. -/
structure Written where
  request : RequestText
  body : List UInt8
  length : (lengthHeader request.headers).map (fun h => decimal h.value) = some body.length
  ordinary : request.ordinary = true
  small : request.text.length ≤ mgMaxHttpRequestSize

def Written.bytes (w : Written) : List UInt8 := w.request.text ++ w.body

theorem Written.sizes (w : Written) :
    w.request.sizes = ⟨w.body.length, w.request.text.length + w.body.length, w.body.length⟩ ∧
      w.request.text.length + w.body.length ≤ sizeMax := by
  obtain ⟨h, last, length⟩ := Option.map_eq_some_iff.mp w.length
  have small := lengthHeader_small last
  have head := w.small
  rw [mgMaxHttpRequestSize] at head
  rw [RequestText.sizes, last, sizeMax]
  dsimp only
  rw [length] at small ⊢
  rw [Nat.mod_eq_of_lt (by omega)]
  exact ⟨rfl, by omega⟩

noncomputable def Written.sized (w : Written) : SizedRequest where
  head := w.request.text
  body := w.body
  hm := w.request.hm
  parsed := w.request.parsed
  sizes := w.request.reads.sizes.trans w.sizes.1
  ordinary := ordinary_text w.ordinary
  small := w.small
  fits := w.sizes.2

/-- The handler gets a request as it was written, with the body. -/
def Gets (sent : RequestText × List UInt8) (d : Delivered) : Prop :=
  Reads sent.1 d.hm ∧ d.body.bytes = sent.2

/-- The event handler leaves nothing open for the request. -/
def Finishes (leavesOpen : Delivered → Bool) (sent : RequestText × List UInt8) : Prop :=
  ∀ d, Gets sent d → leavesOpen d = false

/-- What was sent in a request. -/
def Written.sent (w : Written) : RequestText × List UInt8 := (w.request, w.body)

/-- A request with a method, a path and headers. -/
def requestFor (method uri : List UInt8) (headers : List Header)
    (graph : method.all isgraph = true ∧ uri.all isgraph = true) (ne : method ≠ [] ∧ uri ≠ [])
    (few : headers.length < mgMaxHttpHeaders) : RequestText where
  method
  uri
  proto := [72, 84, 84, 80]
  headers
  method_graph := List.all_eq_true.mp graph.1
  method_ne := ne.1
  uri_graph := List.all_eq_true.mp graph.2
  uri_ne := ne.2
  proto_graph := List.all_eq_true.mp (by decide)
  proto_ne := by decide
  few

/-- A request that has no body. -/
structure Plain (r : RequestText) : Prop where
  ordinary : r.ordinary = true
  unsized : lengthHeader r.headers = none
  sends : r.sends = false

/-- A request whose body goes on until the client closes its end. -/
structure Endless (r : RequestText) : Prop where
  ordinary : r.ordinary = true
  unsized : lengthHeader r.headers = none
  sends : r.sends = true
  small : r.text.length ≤ mgMaxHttpRequestSize

theorem Plain.sizes (plain : Plain r) : r.hm.sizes = ⟨0, r.text.length, sizeMax⟩ := by
  rw [r.reads.sizes, RequestText.sizes, plain.unsized, plain.sends]
  rfl

theorem Endless.sizes (endless : Endless r) : r.hm.sizes = ⟨sizeMax, sizeMax, sizeMax⟩ := by
  rw [r.reads.sizes, RequestText.sizes, endless.unsized, endless.sends]
  rfl

theorem deliverChunk_unsized {hm : HttpHead} {io : List UInt8} {reqLen : Nat}
    (unsized : hm.sizes.contentLength = sizeMax) :
    deliverChunk hm io reqLen = io.length - reqLen := by
  rw [deliverChunk, if_neg (not_not.mpr unsized)]

/-- All that is in the buffer behind the head goes with the request. -/
theorem recv_plain (plain : Plain r) (behind : List UInt8)
    (finishes : Finishes leavesOpen (r, behind)) (empty : c.io = [])
    (idle : ∀ pd, c.pd = some pd → pd.finished = true) :
    ∃ pd d, pd.finished = true ∧ Gets (r, behind) d ∧
      c.recv leavesOpen (r.text ++ behind) =
        some { c with io := [], pd := some pd, requests := c.requests ++ [d] } := by
  have data : protoData { c with io := r.text ++ behind } =
      ⟨(r.text ++ behind).length, 0, false, 0⟩ := by
    rw [protoData]
    cases pd : c.pd with
    | none => rfl
    | some last =>
      dsimp only
      rw [if_pos (idle last pd)]
  have length : (r.text ++ behind).length = r.text.length + behind.length := List.length_append
  have removed : mbufRemove (r.text.length + behind.length) (r.text ++ behind) = [] := by
    rw [mbufRemove, ← length, if_pos (Nat.le_refl _), List.drop_length]
  obtain ⟨plain_body, no_socket⟩ := ordinary_text plain.ordinary
  have gets : Gets (r, behind) ⟨r.hm, ⟨behind, behind.length⟩⟩ := ⟨r.reads, List.take_length⟩
  refine ⟨⟨((r.text ++ behind).length + 2 ^ 64 - r.hm.sizes.messageLen) % 2 ^ 64, 0, true, 0⟩,
    ⟨r.hm, ⟨behind, behind.length⟩⟩, rfl, gets, ?_⟩
  rw [Connection.recv, again, empty, List.nil_append, parseHttp_append r.parsed]
  dsimp only
  rw [data, joinChunks_plain plain_body]
  dsimp only
  rw [no_socket, if_neg Bool.false_ne_true, deliverChunk_unsized (by rw [plain.sizes]), length,
    Nat.add_sub_cancel_left, if_neg, removed, List.drop_left, finishes _ gets,
    if_neg fun more => more.2 rfl]
  · rfl
  · rw [plain.sizes]
    dsimp only
    omega

theorem recvAll_plain (sent : List (RequestText × List UInt8)) (plain : ∀ s ∈ sent, Plain s.1)
    (finish : ∀ s ∈ sent, Finishes leavesOpen s) (empty : c.io = [])
    (idle : ∀ pd, c.pd = some pd → pd.finished = true) :
    ∃ c' ds, c.recvAll leavesOpen (sent.map fun s => s.1.text ++ s.2) = some c' ∧ c'.io = [] ∧
      c'.requests = c.requests ++ ds ∧ List.Forall₂ Gets sent ds := by
  induction sent generalizing c with
  | nil => exact ⟨c, [], rfl, empty, (List.append_nil _).symm, .nil⟩
  | cons s sent ih =>
    rw [List.forall_mem_cons] at plain finish
    obtain ⟨pd, d, finished, gets, recv⟩ := recv_plain plain.1 s.2 finish.1 empty idle
    have idle' : ∀ pd', some pd = some pd' → pd'.finished = true := by
      rintro _ ⟨⟩
      exact finished
    obtain ⟨c', ds, run, left, requests, all⟩ := ih plain.2 finish.2
      (c := { c with io := [], pd := some pd, requests := c.requests ++ [d] }) rfl idle'
    refine ⟨c', d :: ds, ?_, left, ?_, .cons gets all⟩
    · rw [List.map_cons, Connection.recvAll, List.foldlM_cons, recv]
      exact run
    · rw [requests, List.append_assoc, List.singleton_append]

/-- Each segment gives one request: what is behind its head, other requests too, is its body. -/
theorem plain_swallows (leavesOpen : Delivered → Bool) (sent : List (RequestText × List UInt8))
    (plain : ∀ s ∈ sent, Plain s.1) (finish : ∀ s ∈ sent, Finishes leavesOpen s) :
    ∃ c, Connection.accepted.recvAll leavesOpen (sent.map fun s => s.1.text ++ s.2) = some c ∧
      c.io = [] ∧ List.Forall₂ Gets sent c.requests := by
  obtain ⟨c, ds, run, left, requests, all⟩ := recvAll_plain sent plain finish
    (c := .accepted) rfl (by rintro pd ⟨⟩)
  refine ⟨c, run, left, ?_⟩
  rw [requests]
  exact all

def getRoot : RequestText :=
  requestFor [71, 69, 84] [47] [] (by decide) (by decide) (by decide)

theorem plain_swallows_getRoot :
    ∃ c, Connection.accepted.recvAll (fun _ => false)
        ([(getRoot, getRoot.text), (getRoot, [])].map fun s => s.1.text ++ s.2) = some c ∧
      c.io = [] ∧ List.Forall₂ Gets [(getRoot, getRoot.text), (getRoot, [])] c.requests := by
  have plain : Plain getRoot := ⟨by decide, by decide, by decide⟩
  exact plain_swallows (fun _ => false) [(getRoot, getRoot.text), (getRoot, [])] (by simp [plain])
    (fun _ _ _ _ => rfl)

end Guardwatch.Mongoose
