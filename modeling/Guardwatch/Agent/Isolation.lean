import Guardwatch.Agent.Acknowledge

/-! Requests whose bodies json-c reads from the receive buffer. -/

/-! ### Readers that take one item at a time until they have a result -/

/-- A reader of a sequence of `α`, with the results `β`. -/
structure Scanner (α β : Type) where
  State : Type
  start : State
  step : State → α → State ⊕ β

namespace Scanner

variable {α β : Type} {scanner : Scanner α β} {state : scanner.State}

/-- The result within the items, or the state after the last of them. -/
def scan (scanner : Scanner α β) (state : scanner.State) : List α → scanner.State ⊕ β
  | [] => .inl state
  | item :: rest =>
    match scanner.step state item with
    | .inl next => scanner.scan next rest
    | .inr result => .inr result

/-- The items have a result, whatever follows them. -/
def Decides (scanner : Scanner α β) (items : List α) : Prop :=
  ∃ result, scanner.scan scanner.start items = .inr result

theorem scan_append (front rest : List α) :
    scanner.scan state (front ++ rest) =
      match scanner.scan state front with
      | .inl next => scanner.scan next rest
      | .inr result => .inr result := by
  induction front generalizing state with
  | nil => rfl
  | cons item front ih =>
    rw [List.cons_append, scan, scan]
    cases scanner.step state item with
    | inl next => exact ih
    | inr result => rfl

theorem scan_append_result {front : List α} {result : β}
    (decided : scanner.scan state front = .inr result) (rest : List α) :
    scanner.scan state (front ++ rest) = .inr result := by
  rw [scan_append, decided]

theorem scan_append_state {front : List α} {next : scanner.State}
    (undecided : scanner.scan state front = .inl next) (rest : List α) :
    scanner.scan state (front ++ rest) = scanner.scan next rest := by
  rw [scan_append, undecided]

/-- An item that always ends the reading decides a sequence that nothing before it has decided. -/
theorem scan_append_last {front : List α} {next : scanner.State} {last : α} {result : β}
    (undecided : scanner.scan state front = .inl next)
    (ends : ∀ state, scanner.step state last = .inr result) :
    scanner.scan state (front ++ [last]) = .inr result := by
  rw [scan_append_state undecided, scan, ends]

end Scanner

namespace Guardwatch

/-- `json_tokener_parse` and the lookup of `ackid`: the tokener reads until it has met a complete
value, a syntax error or a NUL, and its result is the text of the id, if the value has one. -/
structure JsonTokener extends Scanner UInt8 (Option CText) where
  /-- A NUL before the end of the value is an error. -/
  nul : ∀ state, step state 0 = .inr none

/-- The id that the handler finds in the body. The tokener gets the pointer and not the length, and
it has nothing left to read where the buffer ends before the value. -/
def JsonTokener.ackid (tokener : JsonTokener) (body : MgStr) : Option CText :=
  match tokener.scan tokener.start body.p with
  | .inl _ => none
  | .inr ackid => ackid

def tokenerEnv (tokener : JsonTokener) (osReport : OsReport → Option CText) : HttpdEnv where
  ackid := tokener.ackid
  osReport := osReport

/-- The bytes of the string itself. -/
def MgStr.bytes (s : MgStr) : List UInt8 := s.p.take s.len

/-- `other` is the request `hm` in a receive buffer that may go on otherwise after the body. -/
structure SameRequest (hm other : HttpMessage) : Prop where
  method : other.method = hm.method
  uri : other.uri = hm.uri
  len : other.body.len = hm.body.len
  bytes : other.body.bytes = hm.body.bytes

/-- In all receive buffers in which the tokener comes to an end, the request has the same reply and
leaves the same state. -/
def Isolated (sqlite : Sqlite) (tokener : JsonTokener) (osReport : OsReport → Option CText)
    (fuel : Nat) (hm : HttpMessage) (state : GwState) : Prop :=
  ∀ one other, SameRequest hm one → SameRequest hm other →
    tokener.Decides one.body.p → tokener.Decides other.body.p →
    gwHttpdEvent sqlite (tokenerEnv tokener osReport) fuel one state =
      gwHttpdEvent sqlite (tokenerEnv tokener osReport) fuel other state

/-- Some bytes after the body complete a value with an id. -/
def JsonTokener.Completes (tokener : JsonTokener) (body : List UInt8) : Prop :=
  ∃ rest ackid, tokener.scan tokener.start (body ++ rest) = .inr (some ackid)

/-- The request with `rest` after its body in the receive buffer. -/
def HttpMessage.followedBy (hm : HttpMessage) (rest : List UInt8) : HttpMessage :=
  { hm with
    body :=
      { p := hm.body.bytes ++ rest
        len := hm.body.len
        inside := by
          have inside := hm.body.inside
          simp only [MgStr.bytes, List.length_append, List.length_take]
          omega } }

theorem MgStr.bytes_length (s : MgStr) : s.bytes.length = s.len := by
  rw [bytes, List.length_take, Nat.min_eq_left s.inside]

theorem followedBy_sameRequest (hm : HttpMessage) (rest : List UInt8) :
    SameRequest hm (hm.followedBy rest) where
  method := rfl
  uri := rfl
  len := rfl
  bytes := by
    rw [HttpMessage.followedBy, MgStr.bytes]
    exact List.take_left' hm.body.bytes_length

/-- A buffer that holds the request goes on after the body with some bytes. -/
theorem SameRequest.p_eq {hm other : HttpMessage} (same : SameRequest hm other) :
    ∃ rest, other.body.p = hm.body.bytes ++ rest := by
  refine ⟨other.body.p.drop other.body.len, ?_⟩
  rw [← same.bytes, MgStr.bytes, List.take_append_drop]

/-! ### The reply tells whether there was an id -/

theorem text_of_strcpy {n : Nat} {src : CText} {copy : CBuffer n}
    (copied : src.strcpy n = some copy) : copy.text = src := by
  unfold CText.strcpy at copied
  split at copied
  · cases copied
    rfl
  · cases copied

theorem nameResponse_opening (agentName : CText) :
    (CText.ofString "\x7b\"d").bytes <+: (nameResponse agentName).bytes := by
  have opening : (CText.ofString "\x7b\"data\": \x7b\"agentName\":\"").bytes =
      (CText.ofString "\x7b\"d").bytes ++
        (CText.ofString "ata\": \x7b\"agentName\":\"").bytes := by decide +kernel
  simp only [nameResponse, CText.concat, List.flatMap_cons, opening, List.append_assoc]
  exact List.prefix_append _ _

theorem nameResponse_ne_missing (agentName : CText) :
    nameResponse agentName ≠ missingAckidResponse := by
  intro same
  have opening := nameResponse_opening agentName
  rw [same] at opening
  revert opening
  decide +kernel

theorem agentNameResponse_ne_missing (sqlite : Sqlite) (fuel : Nat) (table : SettingTable) :
    agentNameResponse sqlite fuel table ≠ some missingAckidResponse := by
  intro responded
  simp only [agentNameResponse, Option.bind_eq_bind, Option.bind_eq_some_iff] at responded
  obtain ⟨_, -, _, -, utf8AgentName, -, resp, formatted, same⟩ := responded
  rw [Option.some.injEq, text_of_strcpy formatted] at same
  exact nameResponse_ne_missing _ same

theorem acknowledge_ne_missing (sqlite : Sqlite) (fuel : Nat) (ackid : CText) (state : GwState) :
    (acknowledge sqlite fuel ackid state).1 ≠ some (.gwHttpdOk missingAckidResponse) := by
  unfold acknowledge
  split
  · nofun
  · dsimp only
    split
    · nofun
    · intro replied
      obtain ⟨response, responded, same⟩ := Option.map_eq_some_iff.mp replied
      cases same
      exact agentNameResponse_ne_missing _ _ _ responded

/-! ### The id is that of the body -/

/-- What the handler does with the id that it finds, if it does. -/
def ackidReply (sqlite : Sqlite) (fuel : Nat) (state : GwState) :
    Option CText → Option HttpdReply × GwState
  | none => (some (.gwHttpdOk missingAckidResponse), state)
  | some ackid => acknowledge sqlite fuel ackid state

section Request

variable {sqlite : Sqlite} {tokener : JsonTokener} {osReport : OsReport → Option CText}
  {fuel : Nat} {hm one : HttpMessage} {state : GwState}

theorem gwHttpdEvent_acknowledge (post : gwHttpdPrefixCheck hm.method gwHttpMethodPost = true)
    (route : gwHttpdPrefixCheck hm.uri gwHttpUriAcknowledge = true) (filled : hm.body.len > 0)
    (env : HttpdEnv) :
    gwHttpdEvent sqlite env fuel hm state = ackidReply sqlite fuel state (env.ackid hm.body) := by
  rw [gwHttpdEvent, post_apart post, post, route]
  simp only [Bool.false_eq_true, Bool.not_true, ↓reduceIte, filled]
  cases env.ackid hm.body <;> rfl

theorem gwHttpdEvent_empty (post : gwHttpdPrefixCheck hm.method gwHttpMethodPost = true)
    (route : gwHttpdPrefixCheck hm.uri gwHttpUriAcknowledge = true) (empty : hm.body.len = 0)
    (env : HttpdEnv) : gwHttpdEvent sqlite env fuel hm state = (some .mgServeHttp, state) := by
  rw [gwHttpdEvent, post_apart post, post, route]
  simp [empty]

theorem SameRequest.post (same : SameRequest hm one)
    (post : gwHttpdPrefixCheck hm.method gwHttpMethodPost = true) :
    gwHttpdPrefixCheck one.method gwHttpMethodPost = true := same.method ▸ post

theorem SameRequest.route (same : SameRequest hm one)
    (route : gwHttpdPrefixCheck hm.uri gwHttpUriAcknowledge = true) :
    gwHttpdPrefixCheck one.uri gwHttpUriAcknowledge = true := same.uri ▸ route

/-- A result within the body is the result in every buffer with the body. -/
theorem SameRequest.ackid_decided {ackid : Option CText} (same : SameRequest hm one)
    (decided : tokener.scan tokener.start hm.body.bytes = .inr ackid) :
    tokener.ackid one.body = ackid := by
  obtain ⟨rest, p_eq⟩ := same.p_eq
  rw [JsonTokener.ackid, p_eq, Scanner.scan_append_result decided]

theorem SameRequest.ackid_incomplete (same : SameRequest hm one)
    (incomplete : ¬tokener.Completes hm.body.bytes) : tokener.ackid one.body = none := by
  obtain ⟨rest, p_eq⟩ := same.p_eq
  unfold JsonTokener.ackid
  split
  · rfl
  · rename_i ackid decided
    cases ackid with
    | none => rfl
    | some ackid => exact absurd ⟨rest, ackid, p_eq ▸ decided⟩ incomplete

theorem isolated_of_ackid (post : gwHttpdPrefixCheck hm.method gwHttpMethodPost = true)
    (route : gwHttpdPrefixCheck hm.uri gwHttpUriAcknowledge = true) (filled : hm.body.len > 0)
    {ackid : Option CText}
    (found : ∀ one, SameRequest hm one → tokener.ackid one.body = ackid) :
    Isolated sqlite tokener osReport fuel hm state := by
  have event : ∀ one, SameRequest hm one →
      gwHttpdEvent sqlite (tokenerEnv tokener osReport) fuel one state =
        ackidReply sqlite fuel state ackid := by
    intro one same
    rw [gwHttpdEvent_acknowledge (same.post post) (same.route route) (same.len ▸ filled)]
    exact congrArg _ (found one same)
  intro one other same_one same_other _ _
  rw [event one same_one, event other same_other]

/-- An unfinished value has no id where a NUL follows it, and one where the rest of a value does. -/
theorem not_isolated (post : gwHttpdPrefixCheck hm.method gwHttpMethodPost = true)
    (route : gwHttpdPrefixCheck hm.uri gwHttpUriAcknowledge = true) (filled : hm.body.len > 0)
    (undecided : ¬tokener.Decides hm.body.bytes) (completes : tokener.Completes hm.body.bytes) :
    ¬Isolated sqlite tokener osReport fuel hm state := by
  intro isolated
  obtain ⟨rest, ackid, completed⟩ := completes
  have cut : tokener.scan tokener.start (hm.body.bytes ++ [0]) = .inr none := by
    cases scanned : tokener.scan tokener.start hm.body.bytes with
    | inl next => exact Scanner.scan_append_last scanned tokener.nul
    | inr result => exact absurd ⟨result, scanned⟩ undecided
  have same_rest := followedBy_sameRequest hm rest
  have same_cut := followedBy_sameRequest hm [0]
  have same := isolated _ _ same_rest same_cut ⟨_, completed⟩ ⟨_, cut⟩
  have with_id : (tokenerEnv tokener osReport).ackid (hm.followedBy rest).body = some ackid := by
    simp only [tokenerEnv, JsonTokener.ackid, HttpMessage.followedBy, completed]
  have without_id : (tokenerEnv tokener osReport).ackid (hm.followedBy [0]).body = none := by
    simp only [tokenerEnv, JsonTokener.ackid, HttpMessage.followedBy, cut]
  rw [gwHttpdEvent_acknowledge (same_rest.post post) (same_rest.route route) filled,
    gwHttpdEvent_acknowledge (same_cut.post post) (same_cut.route route) filled, with_id,
    without_id] at same
  exact acknowledge_ne_missing sqlite fuel ackid state (congrArg Prod.fst same)

/-- The request does not depend on the bytes after its body exactly where the body is empty, the
tokener comes to an end within it, or no bytes after it complete a value with an id. -/
theorem isolated_iff (post : gwHttpdPrefixCheck hm.method gwHttpMethodPost = true)
    (route : gwHttpdPrefixCheck hm.uri gwHttpUriAcknowledge = true) :
    Isolated sqlite tokener osReport fuel hm state ↔
      hm.body.len = 0 ∨ tokener.Decides hm.body.bytes ∨ ¬tokener.Completes hm.body.bytes := by
  by_cases empty : hm.body.len = 0
  · refine ⟨fun _ => .inl empty, fun _ one other same_one same_other _ _ => ?_⟩
    rw [gwHttpdEvent_empty (same_one.post post) (same_one.route route) (same_one.len.trans empty),
      gwHttpdEvent_empty (same_other.post post) (same_other.route route)
        (same_other.len.trans empty)]
  have filled : hm.body.len > 0 := Nat.pos_of_ne_zero empty
  constructor
  · intro isolated
    right
    by_contra neither
    rw [not_or, not_not] at neither
    exact not_isolated post route filled neither.1 neither.2 isolated
  · rintro (none_there | ⟨ackid, decided⟩ | incomplete)
    · exact absurd none_there empty
    · exact isolated_of_ackid post route filled fun one same => same.ackid_decided decided
    · exact isolated_of_ackid post route filled fun one same => same.ackid_incomplete incomplete

end Request

/-- The tokener after some bytes of `{"ackid":"…"}` with an id that needs no escapes: before the
bytes that are left of the opening, in the id, or after its closing quote, before the brace. -/
inductive AckidState
  | opening (left : List UInt8)
  | text (read : List UInt8)
  | closing (read : List UInt8)
deriving DecidableEq

def ackidStep : AckidState → UInt8 → AckidState ⊕ Option CText
  | .opening left, byte =>
    match left with
    | [] => .inr none
    | [last] => if byte = last then .inl (.text []) else .inr none
    | next :: left => if byte = next then .inl (.opening left) else .inr none
  | .text read, byte =>
    if byte = 34 then .inl (.closing read) else .inl (.text (read ++ [byte]))
  | .closing read, byte =>
    if byte = 125 then
      if nulFree : 0 ∉ read then .inr (some ⟨read, nulFree⟩) else .inr none
    else .inr none

/-- The tokener on such objects. -/
def ackidTokener : JsonTokener where
  State := AckidState
  start := .opening ackidOpening.bytes
  step state byte := if byte = 0 then .inr none else ackidStep state byte
  nul _ := rfl

instance : DecidableEq ackidTokener.State := inferInstanceAs (DecidableEq AckidState)

/-- The object is complete in the body, and the id is that of the body whatever follows it. -/
theorem isolated_iff_complete :
    Isolated (.ofOther fun _ => none) ackidTokener (fun _ => none) 0
      (ackidMessage plainAckid) oldState :=
  (isolated_iff (prefixCheck_self _) (prefixCheck_self _)).mpr
    (.inr (.inl ⟨some plainAckid, by decide +kernel⟩))

/-- A request whose body ends in the middle of the id. -/
def cutMessage : HttpMessage where
  method := gwHttpMethodPost
  uri := gwHttpUriAcknowledge
  body := mgMkStr (.ofString "\x7b\"ackid\":\"a")

/-- With `b"}` after it the body gives the id `ab`, and with a NUL it gives none. -/
theorem isolated_fails :
    ¬∀ (sqlite : Sqlite) (tokener : JsonTokener) (osReport : OsReport → Option CText) (fuel : Nat)
      (hm : HttpMessage) (state : GwState),
      gwHttpdPrefixCheck hm.method gwHttpMethodPost = true →
      gwHttpdPrefixCheck hm.uri gwHttpUriAcknowledge = true →
      Isolated sqlite tokener osReport fuel hm state := by
  intro every
  have isolated := every (.ofOther fun _ => none) ackidTokener (fun _ => none) 0 cutMessage oldState
    (prefixCheck_self _) (prefixCheck_self _)
  have undecided :
      (ackidTokener.scan ackidTokener.start cutMessage.body.bytes).isRight = false := by
    decide +kernel
  have completed : ackidTokener.scan ackidTokener.start
      (cutMessage.body.bytes ++ (CText.ofString "b\"\x7d").bytes) =
        .inr (some (.ofString "ab")) := by
    decide +kernel
  refine not_isolated (prefixCheck_self _) (prefixCheck_self _) (by decide +kernel) ?_
    ⟨_, _, completed⟩ isolated
  rintro ⟨result, decided⟩
  rw [decided] at undecided
  cases undecided

end Guardwatch
