import Guardwatch.Agent.Settings
import Guardwatch.Lib.SqlLiteral

/-! The request handler of `gw_httpd.c`. -/

namespace Guardwatch

/-- The string has `len` bytes of those that can be read from `p`. -/
structure MgStr where
  p : List UInt8
  len : Nat
  inside : len ≤ p.length

def mgMkStr (literal : CText) : MgStr := ⟨literal.bytes, literal.bytes.length, Nat.le_refl _⟩

/-- The fields of `http_message` that the handler reads. -/
structure HttpMessage where
  method : MgStr
  uri : MgStr
  body : MgStr

def gwHttpMethodOptions : MgStr := mgMkStr (.ofString "OPTIONS")
def gwHttpMethodPost : MgStr := mgMkStr (.ofString "POST")
def gwHttpUriOsCpu : MgStr := mgMkStr (.ofString "/api/agent/os/cpu")
def gwHttpUriOsMemory : MgStr := mgMkStr (.ofString "/api/agent/os/memory")
def gwHttpUriOsProcess : MgStr := mgMkStr (.ofString "/api/agent/os/process")
def gwHttpUriOsVolume : MgStr := mgMkStr (.ofString "/api/agent/os/volume")
def gwHttpUriAcknowledge : MgStr := mgMkStr (.ofString "/api/agent/acknowledge")
def gwHttpUriHeartbeat : MgStr := mgMkStr (.ofString "/api/agent/heartbeat")

/-- `gw_httpd_prefix_check`, of `uri` for `start`. -/
def gwHttpdPrefixCheck (uri start : MgStr) : Bool :=
  decide (uri.len ≥ start.len) && uri.p.take start.len == start.p.take start.len

/-- What the handler sends: the text that it passes to `gw_httpd_ok`, the header of `gw_httpd_202`,
or the file that `mg_serve_http` finds. -/
inductive HttpdReply
  | gwHttpdOk (jsonResponse : CText)
  | gwHttpd202
  | mgServeHttp
deriving DecidableEq

/-- The cached settings and the table. -/
structure GwState where
  settings : GwAppSettings
  table : SettingTable

/-- The value in the row of the key. -/
def SettingTable.val? (table : SettingTable) (key : CText) : Option CText :=
  (table.rows.find? fun row => row.stgcd = key).bind SettingRow.val

def updateHead : CText := .ofString "update tn_gw_stg set val = '"
def updateTail : CText :=
  .concat [.ofString " where stgcd = '", keyAgentAcknowledgementId, .ofString "'"]

/-- The statement that the handler formats to `sql`. -/
def acknowledgeSql (acknowledgementId : CText) : CText :=
  .concat [updateHead, acknowledgementId, .ofString "'", updateTail]

/-- The text of the literal in a statement of the handler's form, in which the literal ends right
before the `where` clause. -/
def updateLiteral (sql : CText) : Option CText := do
  let text ← sql.bytes.dropPrefix? updateHead.bytes
  let (value, rest) ← SqlLiteral.literal text
  if nulFree : 0 ∉ value then
    if rest = updateTail.bytes then some ⟨value, nulFree⟩ else none
  else none

/-- What SQLite does with the handler's statements. -/
structure Sqlite where
  /-- The table that a statement leaves, and `none` where it fails. -/
  exec : CText → SettingTable → Option SettingTable
  /-- The query for the agent's name does not fail. -/
  answers : SettingTable → Bool
  /-- A statement of the form above fails or writes its literal to the row that it names. -/
  exec_literal : ∀ sql table text, updateLiteral sql = some text → exec sql table = none ∨
    exec sql table = some (table.setVal keyAgentAcknowledgementId text)

/-- `gw_sqlite_execute`, where a statement that fails changes nothing. -/
def Sqlite.gwSqliteExecute (sqlite : Sqlite) (table : SettingTable) (sql : CText) : SettingTable :=
  (sqlite.exec sql table).getD table

/-- The rows that the query for the agent's name returns. -/
def Sqlite.nameRows (sqlite : Sqlite) (table : SettingTable) : List SettingRow :=
  if sqlite.answers table then table.rows.filter fun row => row.stgcd = keyAgentName else []

inductive OsReport
  | cpu
  | memory
  | process
  | volume

/-- What the handler uses besides SQLite. -/
structure HttpdEnv where
  /-- The text of `ackid` that json-c finds in the body, if it does. -/
  ackid : MgStr → Option CText
  /-- The text that a function of `gw_os.h` allocates, if it does. -/
  osReport : OsReport → Option CText

/-- The loop of the handler over the rows of the agent's name; `none` is a copy from `NULL` or past
the end of `agent_name`. -/
def copyAgentName (result : GfcList (GfcMap CText)) : Option (CBuffer 1024) :=
  (List.range (gfcListSize result)).foldlM (fun agentName i => do
    let row ← gfcListGet result i
    let key ← (gfcMapGet row columnStgcd).2
    if key = keyAgentName then
      let val ← (gfcMapGet row columnVal).2
      val.strcpy 1024
    else some agentName) (.zero 1024)

/-- `gfc_string_utf8` away from Windows. -/
def gfcStringUtf8 (len : Nat) (src : CText) : Option (CBuffer len) := src.strcpy len

/-- The text that the handler formats to `resp`. -/
def nameResponse (agentName : CText) : CText :=
  .concat [.ofString "\x7b\"data\": \x7b\"agentName\":\"", agentName, .ofString "\"\x7d\x7d"]

/-- The response to an acknowledgement, read from the table. -/
def agentNameResponse (sqlite : Sqlite) (fuel : Nat) (table : SettingTable) : Option CText := do
  let (_, result) ← gwSqliteQuery fuel ((sqlite.nameRows table).map SettingRow.columns)
  let agentName ← copyAgentName result
  let utf8AgentName ← gfcStringUtf8 1024 agentName.text
  let resp ← (nameResponse utf8AgentName.text).strcpy 2048
  some resp.text

/-- The handler's branch for an acknowledgement with an id. -/
def acknowledge (sqlite : Sqlite) (fuel : Nat) (ackid : CText) (state : GwState) :
    Option HttpdReply × GwState :=
  match ackid.strcpy 1024 with
  | none => (none, state)
  | some cached =>
    let state := { state with settings := state.settings.set cached .acknowledgementId }
    match (acknowledgeSql cached.text).strcpy 2048 with
    | none => (none, state)
    | some sql =>
      let state := { state with table := sqlite.gwSqliteExecute state.table sql.text }
      ((agentNameResponse sqlite fuel state.table).map .gwHttpdOk, state)

def missingAckidResponse : CText :=
  .ofString "\x7b\"error\":\x7b\"code\":-1,\"message\":\"参数中没有识别标识！\"\x7d"

def heartbeatResponse : CText :=
  .ofString "\x7b\"error\":\x7b\"code\":0,\"message\":\"success\"\x7d\x7d"

/-- The calls of the handler that set `result`. -/
def osResult (env : HttpdEnv) (uri : MgStr) : Option CText :=
  if gwHttpdPrefixCheck uri gwHttpUriOsCpu then env.osReport .cpu
  else if gwHttpdPrefixCheck uri gwHttpUriOsMemory then env.osReport .memory
  else if gwHttpdPrefixCheck uri gwHttpUriOsProcess then env.osReport .process
  else if gwHttpdPrefixCheck uri gwHttpUriOsVolume then env.osReport .volume
  else none

/-- `gw_httpd_event` for `MG_EV_HTTP_REQUEST`: the reply, and the state. There is no reply where a
copy overflows or reads `NULL`, and the state is then the one before that copy. -/
def gwHttpdEvent (sqlite : Sqlite) (env : HttpdEnv) (fuel : Nat) (hm : HttpMessage)
    (state : GwState) : Option HttpdReply × GwState :=
  if gwHttpdPrefixCheck hm.method gwHttpMethodOptions then (some .gwHttpd202, state)
  else if !gwHttpdPrefixCheck hm.method gwHttpMethodPost then (some .mgServeHttp, state)
  else if gwHttpdPrefixCheck hm.uri gwHttpUriAcknowledge then
    if hm.body.len > 0 then
      match env.ackid hm.body with
      | none => (some (.gwHttpdOk missingAckidResponse), state)
      | some ackid => acknowledge sqlite fuel ackid state
    else (some .mgServeHttp, state)
  else if gwHttpdPrefixCheck hm.uri gwHttpUriHeartbeat then
    (some (.gwHttpdOk heartbeatResponse), state)
  else
    match osResult env hm.uri with
    | some result => (some (.gwHttpdOk result), state)
    | none => (some .mgServeHttp, state)

/-! ### Routes -/

theorem prefixCheck_self (start : MgStr) : gwHttpdPrefixCheck start start = true := by
  simp [gwHttpdPrefixCheck]

theorem prefix_of_prefixCheck {uri start : MgStr} (passed : gwHttpdPrefixCheck uri start = true) :
    start.p.take start.len <+: uri.p := by
  rw [gwHttpdPrefixCheck, Bool.and_eq_true, beq_iff_eq] at passed
  rw [← passed.2]
  exact List.take_prefix _ _

/-- A string does not pass the checks for two texts of which neither continues the other. -/
theorem prefixCheck_apart {uri start other : MgStr} (passed : gwHttpdPrefixCheck uri start = true)
    (apart : ¬start.p.take start.len <+: other.p.take other.len ∧
      ¬other.p.take other.len <+: start.p.take start.len) :
    gwHttpdPrefixCheck uri other = false := by
  rw [Bool.eq_false_iff]
  intro both
  rcases List.prefix_or_prefix_of_prefix (prefix_of_prefixCheck passed)
    (prefix_of_prefixCheck both) with first | second
  · exact apart.1 first
  · exact apart.2 second

/-- A request to acknowledge, in whose body there is an id. -/
structure AcknowledgeRequest (env : HttpdEnv) (hm : HttpMessage) (ackid : CText) : Prop where
  post : gwHttpdPrefixCheck hm.method gwHttpMethodPost = true
  route : gwHttpdPrefixCheck hm.uri gwHttpUriAcknowledge = true
  body : hm.body.len > 0
  found : env.ackid hm.body = some ackid

theorem post_apart {method : MgStr} (post : gwHttpdPrefixCheck method gwHttpMethodPost = true) :
    gwHttpdPrefixCheck method gwHttpMethodOptions = false :=
  prefixCheck_apart post (by decide +kernel)

theorem heartbeat_apart {uri : MgStr} (route : gwHttpdPrefixCheck uri gwHttpUriHeartbeat = true) :
    gwHttpdPrefixCheck uri gwHttpUriAcknowledge = false :=
  prefixCheck_apart route (by decide +kernel)

variable {sqlite : Sqlite} {env : HttpdEnv} {fuel : Nat} {hm : HttpMessage} {state : GwState}

theorem gwHttpdEvent_ackid {ackid : CText} (request : AcknowledgeRequest env hm ackid) :
    gwHttpdEvent sqlite env fuel hm state = acknowledge sqlite fuel ackid state := by
  rw [gwHttpdEvent, post_apart request.post, request.post, request.route, request.found]
  simp [request.body]

/-- The statement for an id that fits in the settings fits in `sql`. -/
theorem acknowledgeSql_fits {ackid : CText} (fits : ackid.bytes.length < 1024) :
    (acknowledgeSql ackid).bytes.length < 2048 := by
  have short : updateHead.bytes.length + (CText.ofString "'").bytes.length +
      updateTail.bytes.length < 1024 := by decide +kernel
  simp only [acknowledgeSql, CText.concat, List.flatMap_cons, List.flatMap_nil, List.length_append,
    List.length_nil]
  omega

theorem acknowledge_fits {ackid : CText} (fits : ackid.bytes.length < 1024) :
    acknowledge sqlite fuel ackid state =
      let table := sqlite.gwSqliteExecute state.table (acknowledgeSql ackid)
      ((agentNameResponse sqlite fuel table).map .gwHttpdOk,
        { settings := state.settings.set ⟨ackid, fits⟩ .acknowledgementId, table }) := by
  rw [acknowledge, CText.strcpy_fits fits]
  dsimp only
  rw [CText.strcpy_fits (acknowledgeSql_fits fits)]

/-! ### The name in the response -/

theorem filter_stgcd {rows : List SettingRow} (unique : (rows.map SettingRow.stgcd).Nodup)
    (key : CText) : rows.filter (fun row => row.stgcd = key) =
      (rows.find? fun row => row.stgcd = key).toList := by
  induction rows with
  | nil => rfl
  | cons row rest ih =>
    obtain ⟨fresh, unique⟩ := List.nodup_cons.mp unique
    by_cases same : row.stgcd = key
    · have others : rest.filter (fun row => row.stgcd = key) = [] := by
        rw [List.filter_eq_nil_iff]
        intro other member equal
        rw [decide_eq_true_eq] at equal
        exact fresh (same.trans equal.symm ▸ List.mem_map_of_mem member)
      rw [List.filter_cons_of_pos (by simpa using same),
        List.find?_cons_of_pos (by simpa using same), others, Option.toList_some]
    · rw [List.filter_cons_of_neg (by simpa using same),
        List.find?_cons_of_neg (by simpa using same), ih unique]

/-- The name that the handler copies where the table has `name`. -/
def copiedName (sqlite : Sqlite) (table : SettingTable) (name : CText) : CText :=
  if sqlite.answers table then name else (CBuffer.zero 1024).text

/-- The columns that the handler reads in the map of a row of the name. -/
theorem faithful_columns {row : SettingRow} {map : GfcMap CText}
    (faithful : Faithful row.columns map) (key : row.stgcd = keyAgentName) :
    (gfcMapGet map columnStgcd).2 = some keyAgentName ∧ (gfcMapGet map columnVal).2 = row.val := by
  constructor
  · rw [faithful columnStgcd (some row.stgcd) (by simp [SettingRow.columns]), key]
  · rw [faithful columnVal row.val (by simp [SettingRow.columns])]
    cases row.val <;> rfl

/-- The values that the query passes on: that of the one row of the key, where it does not fail. -/
def storedNames (sqlite : Sqlite) (table : SettingTable) : List (Option CText) :=
  (sqlite.nameRows table).map SettingRow.val

theorem nameRows_key {table : SettingTable} {row : SettingRow}
    (member : row ∈ sqlite.nameRows table) : row.stgcd = keyAgentName := by
  unfold Sqlite.nameRows at member
  split at member
  · simpa using (List.mem_filter.mp member).2
  · cases member

/-- The query passes on one value, the stored one, or it fails or finds no row. -/
theorem storedNames_cases (sqlite : Sqlite) (table : SettingTable) :
    storedNames sqlite table = [] ∧
        ¬(sqlite.answers table = true ∧ ∃ name, table.val? keyAgentName = some name) ∨
      sqlite.answers table = true ∧ storedNames sqlite table = [table.val? keyAgentName] := by
  unfold storedNames Sqlite.nameRows SettingTable.val?
  by_cases answers : sqlite.answers table = true
  · rw [if_pos answers, filter_stgcd table.unique]
    cases table.rows.find? fun row => row.stgcd = keyAgentName with
    | none => exact .inl ⟨rfl, by simp⟩
    | some row => exact .inr ⟨answers, rfl⟩
  · rw [if_neg answers]
    exact .inl ⟨rfl, fun h => answers h.1⟩

theorem foldlM_faithful {order : List SettingRow} {maps : List (GfcMap CText)}
    (faithful : List.Forall₂ Faithful (order.map SettingRow.columns) maps)
    (keys : ∀ row ∈ order, row.stgcd = keyAgentName) (agentName : CBuffer 1024) :
    maps.foldlM (fun agentName row => do
        let key ← (gfcMapGet row columnStgcd).2
        if key = keyAgentName then
          let val ← (gfcMapGet row columnVal).2
          val.strcpy 1024
        else some agentName) agentName =
      (order.map SettingRow.val).foldlM (fun _ val => val.bind (CText.strcpy 1024)) agentName := by
  induction order generalizing maps agentName with
  | nil =>
    cases faithful
    rfl
  | cons row rest ih =>
    obtain ⟨map, none_left, first, others, rfl⟩ := List.forall₂_cons_left_iff.mp faithful
    rw [List.forall_mem_cons] at keys
    have columns := faithful_columns first keys.1
    rw [List.foldlM_cons, columns.1, List.map_cons, List.foldlM_cons]
    dsimp only [Option.bind_eq_bind, Option.bind_some]
    rw [if_pos rfl, columns.2]
    exact congrArg (Option.bind _) (funext fun agentName => ih others keys.2 agentName)

/-- The loop copies the values one after the other. -/
theorem copyAgentName_eq {table : SettingTable} {result : GfcList (GfcMap CText)} {rc : Nat}
    (query : gwSqliteQuery fuel ((sqlite.nameRows table).map SettingRow.columns) =
      some (rc, result)) :
    copyAgentName result =
      (storedNames sqlite table).foldlM (fun _ val => val.bind (CText.strcpy 1024))
        (CBuffer.zero 1024) := by
  obtain ⟨maps, faithful, r⟩ := gwSqliteQuery_rowMaps query
  refine (foldlM_gfcListGet r _ _).trans ?_
  exact foldlM_faithful faithful (fun row member => nameRows_key member) (CBuffer.zero 1024)

theorem foldlM_strcpy_isSome (vals : List (Option CText)) (agentName : CBuffer 1024) :
    (vals.foldlM (fun _ val => Option.bind val (CText.strcpy 1024)) agentName).isSome = true ↔
      ∀ val ∈ vals, ∃ name, val = some name ∧ name.bytes.length < 1024 := by
  induction vals generalizing agentName with
  | nil => exact iff_of_true rfl nofun
  | cons val rest ih =>
    rw [List.foldlM_cons, List.forall_mem_cons]
    cases val with
    | none => exact iff_of_false Bool.false_ne_true nofun
    | some name =>
      rw [Option.bind_some]
      by_cases fits : name.bytes.length < 1024
      · rw [CText.strcpy_fits fits, Option.bind_eq_bind, Option.bind_some, ih]
        exact (and_iff_right ⟨name, rfl, fits⟩).symm
      · rw [CText.strcpy, dif_neg fits]
        refine iff_of_false Bool.false_ne_true ?_
        rintro ⟨⟨_, same, fits'⟩, -⟩
        cases same
        exact fits fits'

theorem nameResponse_fits {name : CText} (fits : name.bytes.length < 1024) :
    (nameResponse name).bytes.length < 2048 := by
  have short : (CText.ofString "\x7b\"data\": \x7b\"agentName\":\"").bytes.length +
      (CText.ofString "\"\x7d\x7d").bytes.length < 1024 := by decide +kernel
  simp only [nameResponse, CText.concat, List.flatMap_cons, List.flatMap_nil, List.length_append,
    List.length_nil]
  omega

/-- The buffers behind `agent_name` have room for what is in it. -/
theorem agentNameResponse_eq (sqlite : Sqlite) (fuel : Nat) (table : SettingTable) :
    agentNameResponse sqlite fuel table =
      ((storedNames sqlite table).foldlM (fun _ val => Option.bind val (CText.strcpy 1024))
        (CBuffer.zero 1024)).map fun agentName => nameResponse agentName.text := by
  obtain ⟨result, query⟩ := gwSqliteQuery_settings fuel (sqlite.nameRows table)
  rw [← copyAgentName_eq query, agentNameResponse, query]
  dsimp only [Option.bind_eq_bind, Option.bind_some]
  cases copyAgentName result with
  | none => rfl
  | some copy =>
    dsimp only [Option.bind_some]
    rw [gfcStringUtf8, CText.strcpy_fits copy.fits]
    dsimp only [Option.bind_some]
    rw [CText.strcpy_fits (nameResponse_fits copy.fits)]
    rfl

theorem agentNameResponse_isSome_iff {table : SettingTable} :
    (agentNameResponse sqlite fuel table).isSome = true ↔
      ∀ val ∈ storedNames sqlite table, ∃ name, val = some name ∧ name.bytes.length < 1024 := by
  rw [agentNameResponse_eq, Option.isSome_map, foldlM_strcpy_isSome]

theorem agentNameResponse_stored {table : SettingTable} {name : CText}
    (stored : table.val? keyAgentName = some name) (fits : name.bytes.length < 1024) :
    agentNameResponse sqlite fuel table = some (nameResponse (copiedName sqlite table name)) := by
  rw [agentNameResponse_eq, copiedName]
  rcases storedNames_cases sqlite table with ⟨none_stored, absent⟩ | ⟨answers, passed⟩
  · rw [none_stored, if_neg fun answers => absent ⟨answers, name, stored⟩]
    rfl
  · rw [passed, stored, if_pos answers, List.foldlM_cons, Option.bind_some,
      CText.strcpy_fits fits]
    rfl

/-- The reply to a request with an id that fits, and the state after it. -/
theorem gwHttpdEvent_stored {ackid name : CText} (request : AcknowledgeRequest env hm ackid)
    (fits : ackid.bytes.length < 1024)
    (stored : (sqlite.gwSqliteExecute state.table (acknowledgeSql ackid)).val? keyAgentName =
      some name) (name_fits : name.bytes.length < 1024) :
    gwHttpdEvent sqlite env fuel hm state = (some (.gwHttpdOk (nameResponse
      (copiedName sqlite (sqlite.gwSqliteExecute state.table (acknowledgeSql ackid)) name))),
      { settings := state.settings.set ⟨ackid, fits⟩ .acknowledgementId
        table := sqlite.gwSqliteExecute state.table (acknowledgeSql ackid) }) := by
  rw [gwHttpdEvent_ackid request, acknowledge_fits fits]
  dsimp only
  rw [agentNameResponse_stored stored name_fits, Option.map_some]

end Guardwatch
