import Guardwatch.Agent.Acknowledge

/-! The strings that the handler copies for an acknowledgement, against the sizes of the buffers
that it copies them to. -/

namespace Guardwatch

/-- The fields of `gw_app_settings_t`, in the order of the structure. -/
inductive GwAppField
  | acknowledgementId
  | serverAddress
  | serverSnmpPort
  | serverWebPort
  | serverWebRoot
  | agentName
  | agentSnmpPort
  | agentWebPort
  | cpuRrdFile
  | memRrdFile
  | volRrdFile
deriving DecidableEq

namespace GwAppField

def size : GwAppField → Nat
  | .cpuRrdFile | .memRrdFile | .volRrdFile => 2048
  | _ => 1024

def inOrder : List GwAppField :=
  [.acknowledgementId, .serverAddress, .serverSnmpPort, .serverWebPort, .serverWebRoot, .agentName,
    .agentSnmpPort, .agentWebPort, .cpuRrdFile, .memRrdFile, .volRrdFile]

def offset (field : GwAppField) : Nat :=
  ((inOrder.takeWhile fun before => before != field).map size).sum

theorem offset_of_ne {field : GwAppField} (other : field ≠ .acknowledgementId) :
    acknowledgementId.size ≤ field.offset := by
  revert other
  cases field <;> decide

end GwAppField

/-- `strcpy` to an address: the bytes and a NUL, wherever they end. -/
def strcpyTo (memory : Nat → UInt8) (dst : Nat) (src : CText) (i : Nat) : UInt8 :=
  if dst ≤ i ∧ i ≤ dst + src.bytes.length then src.bytes.getD (i - dst) 0 else memory i

/-- The buffers of the handler's branch for an acknowledgement. -/
inductive Destination
  | acknowledgementId
  | sql
  | agentName
  | utf8AgentName
  | resp

def Destination.size : Destination → Nat
  | .acknowledgementId => GwAppField.acknowledgementId.size
  | .sql => 2048
  | .agentName => 1024
  | .utf8AgentName => 1024
  | .resp => 2048

structure Copy where
  destination : Destination
  text : CText

/-- The text has room with its NUL. -/
def Copy.Fits (copy : Copy) : Prop := copy.text.bytes.length < copy.destination.size

/-- The values that the handler finds in the rows of the agent's name. -/
def rowNames (result : GfcList (GfcMap CText)) : List (Option CText) :=
  (List.range (gfcListSize result)).filterMap fun i => (gfcListGet result i).bind fun row =>
    (gfcMapGet row columnStgcd).2.bind fun key =>
      if key = keyAgentName then some (gfcMapGet row columnVal).2 else none

/-- The copies of the handler's loop and after it, with the text that `agent_name` has. The handler
does not get past a copy from `NULL`. -/
def nameCopies : CText → List (Option CText) → List Copy
  | agentName, [] => [⟨.utf8AgentName, agentName⟩, ⟨.resp, nameResponse agentName⟩]
  | _, some val :: rest => ⟨.agentName, val⟩ :: nameCopies val rest
  | _, none :: _ => []

/-- The copies of the handler's branch for an acknowledgement with an id. -/
def acknowledgeCopies (sqlite : Sqlite) (fuel : Nat) (ackid : CText) (state : GwState) :
    List Copy :=
  let table := sqlite.gwSqliteExecute state.table (acknowledgeSql ackid)
  ⟨.acknowledgementId, ackid⟩ :: ⟨.sql, acknowledgeSql ackid⟩ ::
    match gwSqliteQuery fuel ((sqlite.nameRows table).map SettingRow.columns) with
    | some (_, result) => nameCopies (CBuffer.zero 1024).text (rowNames result)
    | none => []

/-- The id of a request to acknowledge, as `gw_httpd_event` gets to it. -/
def requestAckid (env : HttpdEnv) (hm : HttpMessage) : Option CText :=
  if gwHttpdPrefixCheck hm.method gwHttpMethodOptions then none
  else if !gwHttpdPrefixCheck hm.method gwHttpMethodPost then none
  else if gwHttpdPrefixCheck hm.uri gwHttpUriAcknowledge then
    if hm.body.len > 0 then env.ackid hm.body else none
  else none

def eventCopies (sqlite : Sqlite) (env : HttpdEnv) (fuel : Nat) (hm : HttpMessage)
    (state : GwState) : List Copy :=
  match requestAckid env hm with
  | some ackid => acknowledgeCopies sqlite fuel ackid state
  | none => []

/-- The bytes of `_gw_app_settings` after the request. -/
def eventMemory (env : HttpdEnv) (hm : HttpMessage) (memory : Nat → UInt8) : Nat → UInt8 :=
  match requestAckid env hm with
  | some ackid => strcpyTo memory GwAppField.acknowledgementId.offset ackid
  | none => memory

/-- Every copy fits its buffer, and no field but the id changes. -/
structure KeepsBounds (sqlite : Sqlite) (env : HttpdEnv) (fuel : Nat) (hm : HttpMessage)
    (state : GwState) (memory : Nat → UInt8) : Prop where
  fits : ∀ copy ∈ eventCopies sqlite env fuel hm state, copy.Fits
  others : ∀ field : GwAppField, field ≠ .acknowledgementId → ∀ i < field.size,
    eventMemory env hm memory (field.offset + i) = memory (field.offset + i)

/-- The id fits its field, and the name that is stored once the id has been written fits the
handler's buffer, where the query finds it. -/
structure ShortTexts (sqlite : Sqlite) (ackid : CText) (state : GwState) : Prop where
  id_fits : ackid.bytes.length < 1024
  name_fits : ∀ name, sqlite.answers (sqlite.gwSqliteExecute state.table (acknowledgeSql ackid)) = true →
    (sqlite.gwSqliteExecute state.table (acknowledgeSql ackid)).val? keyAgentName = some name →
    name.bytes.length < 1024

variable {sqlite : Sqlite} {env : HttpdEnv} {fuel : Nat} {hm : HttpMessage} {state : GwState}
  {ackid : CText} {table : SettingTable}

theorem requestAckid_eq_some : requestAckid env hm = some ackid ↔
    AcknowledgeRequest env hm ackid := by
  constructor
  · intro found
    unfold requestAckid at found
    split at found
    · cases found
    split at found
    · cases found
    rename_i post
    split at found
    · rename_i route
      split at found
      · rename_i body
        exact ⟨by simpa using post, route, body, found⟩
      · cases found
    · cases found
  · intro request
    rw [requestAckid, post_apart request.post, request.post, request.route, request.found]
    simp [request.body]

/-! ### The values of the rows -/

theorem filterMap_faithful {order : List SettingRow} {maps : List (GfcMap CText)}
    (faithful : List.Forall₂ Faithful (order.map SettingRow.columns) maps)
    (keys : ∀ row ∈ order, row.stgcd = keyAgentName) :
    maps.filterMap (fun row => (gfcMapGet row columnStgcd).2.bind fun key =>
      if key = keyAgentName then some (gfcMapGet row columnVal).2 else none) =
      order.map SettingRow.val := by
  induction order generalizing maps with
  | nil =>
    cases faithful
    rfl
  | cons row rest ih =>
    obtain ⟨map, none_left, first, others, rfl⟩ := List.forall₂_cons_left_iff.mp faithful
    rw [List.forall_mem_cons] at keys
    have columns := faithful_columns first keys.1
    rw [List.filterMap_cons, columns.1, Option.bind_some, if_pos rfl, columns.2, List.map_cons,
      ih others keys.2]

theorem rowNames_eq {result : GfcList (GfcMap CText)} {rc : Nat}
    (query : gwSqliteQuery fuel ((sqlite.nameRows table).map SettingRow.columns) =
      some (rc, result)) : rowNames result = storedNames sqlite table := by
  obtain ⟨maps, faithful, r⟩ := gwSqliteQuery_rowMaps query
  rw [rowNames, filterMap_gfcListGet r]
  exact filterMap_faithful faithful fun row member => nameRows_key member

/-! ### The copies -/

theorem acknowledgeCopies_eq (sqlite : Sqlite) (fuel : Nat) (ackid : CText) (state : GwState) :
    acknowledgeCopies sqlite fuel ackid state =
      ⟨.acknowledgementId, ackid⟩ :: ⟨.sql, acknowledgeSql ackid⟩ ::
        nameCopies (CBuffer.zero 1024).text (storedNames sqlite
          (sqlite.gwSqliteExecute state.table (acknowledgeSql ackid))) := by
  obtain ⟨result, query⟩ := gwSqliteQuery_settings fuel
    (sqlite.nameRows (sqlite.gwSqliteExecute state.table (acknowledgeSql ackid)))
  rw [acknowledgeCopies, query, ← rowNames_eq query]

/-- After the loop every text has room where the name has. -/
theorem nameCopies_nil_fits {agentName : CText} (fits : agentName.bytes.length < 1024) :
    ∀ copy ∈ nameCopies agentName [], copy.Fits := by
  rw [nameCopies, List.forall_mem_cons, List.forall_mem_cons]
  exact ⟨fits, nameResponse_fits fits, nofun⟩

theorem nameCopies_fits (sqlite : Sqlite) (table : SettingTable) :
    (∀ copy ∈ nameCopies (CBuffer.zero 1024).text (storedNames sqlite table), copy.Fits) ↔
      ∀ name, sqlite.answers table = true → table.val? keyAgentName = some name →
        name.bytes.length < 1024 := by
  have blank := nameCopies_nil_fits (CBuffer.zero 1024).fits
  rcases storedNames_cases sqlite table with ⟨none_stored, absent⟩ | ⟨answers, stored⟩
  · rw [none_stored]
    exact iff_of_true blank fun name answers val => absurd ⟨answers, name, val⟩ absent
  · rw [stored]
    cases val : table.val? keyAgentName with
    | none => exact iff_of_true nofun nofun
    | some name =>
      rw [nameCopies, List.forall_mem_cons]
      constructor
      · rintro ⟨fits, -⟩ other - same
        cases same
        exact fits
      · intro short
        have fits := short name answers rfl
        exact ⟨fits, nameCopies_nil_fits fits⟩

theorem acknowledgeCopies_fits : (∀ copy ∈ acknowledgeCopies sqlite fuel ackid state, copy.Fits) ↔
    ShortTexts sqlite ackid state := by
  rw [acknowledgeCopies_eq, List.forall_mem_cons, List.forall_mem_cons, nameCopies_fits]
  constructor
  · rintro ⟨id_fits, -, name_fits⟩
    exact ⟨id_fits, name_fits⟩
  · rintro ⟨id_fits, name_fits⟩
    exact ⟨id_fits, acknowledgeSql_fits id_fits, name_fits⟩

/-- A text that fits the first field leaves the others as they are. -/
theorem strcpyTo_other {field : GwAppField} (other : field ≠ .acknowledgementId)
    (fits : ackid.bytes.length < 1024) (memory : Nat → UInt8) (i : Nat) :
    strcpyTo memory GwAppField.acknowledgementId.offset ackid (field.offset + i) =
      memory (field.offset + i) := by
  have start : GwAppField.acknowledgementId.offset = 0 := by decide
  have beyond : 1024 ≤ field.offset := GwAppField.offset_of_ne other
  rw [strcpyTo, if_neg]
  omega

/-- The handler keeps the bounds of its buffers and of the field for the id if and only if the id of
a request to acknowledge and the name that is then stored are short enough. -/
theorem keepsBounds_iff (sqlite : Sqlite) (env : HttpdEnv) (fuel : Nat) (hm : HttpMessage)
    (state : GwState) (memory : Nat → UInt8) :
    KeepsBounds sqlite env fuel hm state memory ↔
      ∀ ackid, AcknowledgeRequest env hm ackid → ShortTexts sqlite ackid state := by
  constructor
  · rintro ⟨fits, -⟩ ackid request
    rw [eventCopies, requestAckid_eq_some.mpr request] at fits
    exact acknowledgeCopies_fits.mp fits
  · intro short
    cases found : requestAckid env hm with
    | none =>
      refine ⟨?_, fun field _ i _ => ?_⟩
      · rw [eventCopies, found]
        exact nofun
      · rw [eventMemory, found]
    | some ackid =>
      have texts := short ackid (requestAckid_eq_some.mp found)
      refine ⟨?_, fun field other i _ => ?_⟩
      · rw [eventCopies, found]
        exact acknowledgeCopies_fits.mpr texts
      · rw [eventMemory, found]
        exact strcpyTo_other other texts.id_fits memory i

theorem storedNames_fit : (∀ val ∈ storedNames sqlite table, ∃ name, val = some name ∧
      name.bytes.length < 1024) ↔
    (∀ name, sqlite.answers table = true → table.val? keyAgentName = some name →
      name.bytes.length < 1024) ∧ none ∉ storedNames sqlite table := by
  rcases storedNames_cases sqlite table with ⟨none_stored, absent⟩ | ⟨answers, stored⟩
  · rw [none_stored]
    exact iff_of_true nofun
      ⟨fun name answers val => absurd ⟨answers, name, val⟩ absent, List.not_mem_nil⟩
  · rw [stored, List.forall_mem_singleton, List.mem_singleton]
    constructor
    · rintro ⟨name, val, fits⟩
      rw [val]
      refine ⟨fun other _ same => ?_, nofun⟩
      cases same
      exact fits
    · rintro ⟨short, filled⟩
      obtain ⟨name, val⟩ := Option.ne_none_iff_exists'.mp (Ne.symm filled)
      exact ⟨name, val, short name answers val⟩

/-- The reply needs all its copies: the handler answers a request with an id where they fit and no
stored name is `NULL`. -/
theorem gwHttpdEvent_isSome_iff (request : AcknowledgeRequest env hm ackid) :
    (gwHttpdEvent sqlite env fuel hm state).1.isSome = true ↔
      (∀ copy ∈ eventCopies sqlite env fuel hm state, copy.Fits) ∧
        none ∉ storedNames sqlite (sqlite.gwSqliteExecute state.table (acknowledgeSql ackid)) := by
  have copies : eventCopies sqlite env fuel hm state =
      acknowledgeCopies sqlite fuel ackid state := by
    rw [eventCopies, requestAckid_eq_some.mpr request]
  rw [gwHttpdEvent_ackid request, copies, acknowledgeCopies_fits]
  by_cases fits : ackid.bytes.length < 1024
  · rw [acknowledge_fits fits]
    dsimp only
    rw [Option.isSome_map, agentNameResponse_isSome_iff, storedNames_fit]
    exact and_congr_left fun _ => ⟨fun short => ⟨fits, short⟩, fun texts => texts.name_fits⟩
  · rw [acknowledge, CText.strcpy, dif_neg fits]
    exact iff_of_false Bool.false_ne_true fun h => fits h.1.id_fits

/-- An id of 1024 bytes, for which the field has no room. -/
def longAckid : CText where
  bytes := List.replicate 1024 97
  nulFree member := absurd (List.mem_replicate.mp member).2 (by decide)

theorem keepsBounds_fails :
    ¬∀ (sqlite : Sqlite) (env : HttpdEnv) (fuel : Nat) (hm : HttpMessage) (state : GwState)
      (memory : Nat → UInt8), KeepsBounds sqlite env fuel hm state memory := by
  intro every
  have fits := (every (.ofOther fun _ => none) (ackidEnv longAckid) 0 (ackidMessage longAckid)
    oldState fun _ => 0).fits
  rw [eventCopies, requestAckid_eq_some.mpr (ackidMessage_request longAckid)] at fits
  have short := (acknowledgeCopies_fits.mp fits).id_fits
  rw [longAckid, List.length_replicate] at short
  omega

end Guardwatch
