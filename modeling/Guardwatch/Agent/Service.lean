import Guardwatch.Agent.Isolation
import Guardwatch.Mongoose.Delivery

/-! The loop of `gw_httpd_serve`: the connections of mongoose with the handler of `gw_httpd.c`, for
any interleaving of what the clients send. -/

namespace Guardwatch

open Mongoose

/-- A token as the handler sees it. -/
def tokenStr (token : Token) : MgStr where
  p := token.text
  len := min token.len token.text.length
  inside := Nat.min_le_right ..

def deliveredMessage (d : Delivered) : HttpMessage where
  method := tokenStr d.hm.method
  uri := tokenStr d.hm.uri
  body := tokenStr d.body

/-- The connections of the manager, the state of the agent, and the replies so far. -/
structure Server where
  connections : Nat → Connection
  state : GwState
  replies : List (Nat × HttpdReply)

def Server.start (state : GwState) : Server := ⟨fun _ => .accepted, state, []⟩

/-- `MG_EV_HTTP_REQUEST` on a connection; `none` where the handler does not answer at once. -/
def Server.handle (sqlite : Sqlite) (env : HttpdEnv) (fuel i : Nat) (s : Server) (d : Delivered) :
    Option Server :=
  match gwHttpdEvent sqlite env fuel (deliveredMessage d) s.state with
  | (none, _) => none
  | (some .mgServeHttp, _) => none
  | (some reply, state) => some { s with state, replies := s.replies ++ [(i, reply)] }

/-- The handler opens files with `mg_serve_http` only; `files` are the requests for which one is
open when that returns. -/
def Server.leavesOpen (sqlite : Sqlite) (env : HttpdEnv) (fuel : Nat) (files : Delivered → Bool)
    (s : Server) (d : Delivered) : Bool :=
  match (gwHttpdEvent sqlite env fuel (deliveredMessage d) s.state).1 with
  | some .mgServeHttp => files d
  | _ => false

/-- `MG_EV_RECV` on a connection, with the requests that it completes. -/
def Server.recv (sqlite : Sqlite) (env : HttpdEnv) (fuel : Nat) (files : Delivered → Bool)
    (s : Server) (event : Nat × List UInt8) : Option Server := do
  let c ← (s.connections event.1).recv (s.leavesOpen sqlite env fuel files) event.2
  (c.requests.drop (s.connections event.1).requests.length).foldlM
    (Server.handle sqlite env fuel event.1)
    { s with connections := Function.update s.connections event.1 c }

/-- The turns of `mg_mgr_poll`, each with what one connection has received. -/
def Server.run (sqlite : Sqlite) (env : HttpdEnv) (fuel : Nat) (files : Delivered → Bool)
    (s : Server) (events : List (Nat × List UInt8)) : Option Server :=
  events.foldlM (Server.recv sqlite env fuel files) s

/-- What a client asks for. -/
inductive ApiCall
  | acknowledge (ackid : CBuffer 1024)
  | heartbeat
  | options

/-- The request asks for it. The body of one with an id is a whole value that has the id, and there
is no quote in it. -/
def Asks (tokener : JsonTokener) (w : Written) : ApiCall → Prop
  | .acknowledge ackid =>
    gwHttpMethodPost.bytes <+: w.request.method ∧
      gwHttpUriAcknowledge.bytes <+: w.request.uri.takeWhile (· ≠ 63) ∧
      tokener.scan tokener.start w.body = .inr (some ackid.text) ∧
      SqlLiteral.quote ∉ ackid.text.bytes
  | .heartbeat =>
    gwHttpMethodPost.bytes <+: w.request.method ∧
      gwHttpUriHeartbeat.bytes <+: w.request.uri.takeWhile (· ≠ 63)
  | .options => gwHttpMethodOptions.bytes <+: w.request.method

structure ApiRequest (tokener : JsonTokener) where
  written : Written
  call : ApiCall
  asks : Asks tokener written call

/-- The state behind a call. -/
def ApiCall.after (sqlite : Sqlite) (state : GwState) : ApiCall → GwState
  | .acknowledge ackid =>
    { settings := state.settings.set ackid .acknowledgementId
      table := sqlite.gwSqliteExecute state.table (acknowledgeSql ackid.text) }
  | .heartbeat => state
  | .options => state

def emptyText : CText := CText.concat []

/-- The reply to a call, from the state behind it. -/
def ApiCall.reply (sqlite : Sqlite) (after : GwState) : ApiCall → HttpdReply
  | .acknowledge _ =>
    .gwHttpdOk (nameResponse
      (copiedName sqlite after.table ((after.table.val? keyAgentName).getD emptyText)))
  | .heartbeat => .gwHttpdOk heartbeatResponse
  | .options => .gwHttpd202

variable {sqlite : Sqlite} {tokener : JsonTokener} {osReport : OsReport → Option CText}
  {fuel i : Nat} {files : Delivered → Bool} {state : GwState} {s : Server}

theorem tokenStr_within {token : Token} {start : MgStr} (isPrefix : start.bytes <+: token.bytes) :
    gwHttpdPrefixCheck (tokenStr token) start = true := by
  have length : start.bytes.length = start.len := by
    rw [MgStr.bytes, List.length_take, Nat.min_eq_left start.inside]
  have long := isPrefix.length_le
  rw [length, Token.bytes, List.length_take] at long
  rw [gwHttpdPrefixCheck, Bool.and_eq_true, decide_eq_true_eq, beq_iff_eq]
  refine ⟨long, ?_⟩
  have whole : start.bytes <+: token.text := isPrefix.trans (List.take_prefix _ _)
  have taken := List.prefix_iff_eq_take.mp whole
  rw [length] at taken
  exact taken.symm

theorem table_after_acknowledge (sqlite : Sqlite) {ackid : CText}
    (plain : SqlLiteral.quote ∉ ackid.bytes) (table : SettingTable) :
    sqlite.gwSqliteExecute table (acknowledgeSql ackid) = table ∨
      sqlite.gwSqliteExecute table (acknowledgeSql ackid) =
        table.setVal keyAgentAcknowledgementId ackid := by
  rw [Sqlite.gwSqliteExecute]
  rcases sqlite.exec_literal _ table _ (updateLiteral_plain plain) with fails | runs
  · rw [fails]
    exact .inl rfl
  · rw [runs]
    exact .inr rfl

theorem ApiRequest.stocked (sqlite : Sqlite) (request : ApiRequest tokener)
    (stocked : state.table.Stocked) : (request.call.after sqlite state).table.Stocked := by
  have asks := request.asks
  cases call : request.call with
  | acknowledge ackid =>
    rw [call] at asks
    obtain ⟨-, -, -, plain⟩ := asks
    rcases table_after_acknowledge sqlite plain state.table with same | written
    · rw [ApiCall.after, same]
      exact stocked
    · rw [ApiCall.after, written]
      exact stocked.setVal ackid.text
  | heartbeat => exact stocked
  | options => exact stocked

/-- The id is read from the body of the request, whatever is behind it in the buffer. -/
theorem ackid_of_body {token : Token} {ackid : CText}
    (found : tokener.scan tokener.start token.bytes = .inr (some ackid)) :
    (tokenStr token).len > 0 ∧ tokener.ackid (tokenStr token) = some ackid := by
  constructor
  · show 0 < min token.len token.text.length
    rw [← List.length_take, List.length_pos_iff]
    intro empty
    rw [Token.bytes, empty] at found
    cases found
  · have whole : (tokenStr token).p = token.bytes ++ token.text.drop token.len :=
      (List.take_append_drop _ _).symm
    rw [JsonTokener.ackid, whole, Scanner.scan_append_result found]

/-- What the handler does for a request that it gets. -/
theorem gwHttpdEvent_call (sqlite : Sqlite) (osReport : OsReport → Option CText) (fuel : Nat)
    {d : Delivered} (request : ApiRequest tokener)
    (gets : Gets request.written.sent d) (stocked : state.table.Stocked) :
    gwHttpdEvent sqlite (tokenerEnv tokener osReport) fuel (deliveredMessage d) state =
      (some (request.call.reply sqlite (request.call.after sqlite state)),
        request.call.after sqlite state) := by
  obtain ⟨reads, body⟩ := gets
  have method : d.hm.method.bytes = request.written.request.method := reads.method
  have uri : d.hm.uri.bytes = request.written.request.uri.takeWhile (· ≠ 63) := reads.uri
  have after_stocked := request.stocked sqlite stocked
  have asks := request.asks
  cases call : request.call with
  | acknowledge ackid =>
    rw [call] at asks after_stocked
    obtain ⟨post, route, found, -⟩ := asks
    have body : d.body.bytes = request.written.body := body
    obtain ⟨filled, read⟩ := ackid_of_body (body ▸ found)
    obtain ⟨-, name, stored, fits⟩ := after_stocked
    have acknowledges : AcknowledgeRequest (tokenerEnv tokener osReport) (deliveredMessage d)
        ackid.text :=
      ⟨tokenStr_within (method ▸ post), tokenStr_within (uri ▸ route), filled, read⟩
    rw [gwHttpdEvent_stored acknowledges ackid.fits stored fits, ApiCall.reply, stored]
    rfl
  | heartbeat =>
    rw [call] at asks
    obtain ⟨post, route⟩ := asks
    have post : gwHttpdPrefixCheck (deliveredMessage d).method gwHttpMethodPost = true :=
      tokenStr_within (method ▸ post)
    have route : gwHttpdPrefixCheck (deliveredMessage d).uri gwHttpUriHeartbeat = true :=
      tokenStr_within (uri ▸ route)
    rw [gwHttpdEvent, post_apart post, post, heartbeat_apart route, route]
    rfl
  | options =>
    rw [call] at asks
    have options : gwHttpdPrefixCheck (deliveredMessage d).method gwHttpMethodOptions = true :=
      tokenStr_within (method ▸ asks)
    rw [gwHttpdEvent, options]
    rfl

theorem ApiRequest.finishes (request : ApiRequest tokener) (stocked : s.state.table.Stocked) :
    Finishes (s.leavesOpen sqlite (tokenerEnv tokener osReport) fuel files)
      request.written.sent := by
  intro d gets
  rw [Server.leavesOpen, gwHttpdEvent_call sqlite osReport fuel request gets stocked]
  cases request.call <;> rfl

/-! ### Runs -/

/-- The cached id is the value in its row, and all settings have values that fit. -/
structure Agrees (state : GwState) : Prop where
  ackid : state.table.val? keyAgentAcknowledgementId = some state.settings.acknowledgementId.text
  values : ∀ row ∈ state.table.rows, HasValue row

/-- Statements of the handler's form do not fail. -/
def Sqlite.Writes (sqlite : Sqlite) : Prop :=
  ∀ ackid : CText, SqlLiteral.quote ∉ ackid.bytes →
    ∀ table, (sqlite.exec (acknowledgeSql ackid) table).isSome = true

theorem values_setVal {table : SettingTable} (values : ∀ row ∈ table.rows, HasValue row)
    (key : CText) (val : CBuffer 1024) :
    ∀ row ∈ (table.setVal key val.text).rows, HasValue row := by
  intro row mem
  obtain ⟨old, was, rfl⟩ := List.mem_map.mp mem
  split
  · exact fun _ _ => ⟨val.text, rfl, val.fits⟩
  · exact values old was

/-- A call after which they agree, if they did before. -/
theorem ApiRequest.agrees (request : ApiRequest tokener) (writes : sqlite.Writes)
    (stocked : state.table.Stocked) (agrees : Agrees state) :
    Agrees (request.call.after sqlite state) := by
  have asks := request.asks
  cases call : request.call with
  | acknowledge ackid =>
    rw [call] at asks
    obtain ⟨-, -, -, plain⟩ := asks
    have written : sqlite.gwSqliteExecute state.table (acknowledgeSql ackid.text) =
        state.table.setVal keyAgentAcknowledgementId ackid.text := by
      rcases sqlite.exec_literal _ state.table _ (updateLiteral_plain plain) with fails | runs
      · have runs := writes ackid.text plain state.table
        rw [fails] at runs
        cases runs
      · rw [Sqlite.gwSqliteExecute, runs]
        rfl
    rw [ApiCall.after, written]
    exact ⟨SettingTable.val?_setVal_iff.mpr ⟨stocked.acknowledgementId, rfl⟩,
      values_setVal agrees.values _ ackid⟩
  | heartbeat => exact agrees
  | options => exact agrees

end Guardwatch
