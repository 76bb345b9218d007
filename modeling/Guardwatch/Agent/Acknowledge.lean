import Guardwatch.Agent.Httpd

/-! Acknowledgement ids in the cache and in the table. -/

namespace Guardwatch

/-! ### The literal of the statement -/

theorem acknowledgeSql_bytes (ackid : CText) : ∃ rest, updateTail.bytes = 32 :: rest ∧
    (acknowledgeSql ackid).bytes =
      updateHead.bytes ++ (ackid.bytes ++ SqlLiteral.quote :: 32 :: rest) := by
  have tail : updateTail.bytes = 32 :: updateTail.bytes.tail := by decide +kernel
  have quote : (CText.ofString "'").bytes = [SqlLiteral.quote] := by decide +kernel
  refine ⟨_, tail, ?_⟩
  simp only [acknowledgeSql, CText.concat, List.flatMap_cons, List.flatMap_nil, quote,
    List.append_nil, List.singleton_append]
  rw [← tail]

theorem updateLiteral_plain {ackid : CText} (plain : SqlLiteral.quote ∉ ackid.bytes) :
    updateLiteral (acknowledgeSql ackid) = some ackid := by
  obtain ⟨rest, tail, bytes⟩ := acknowledgeSql_bytes ackid
  have read := SqlLiteral.literal_plain plain (by decide : (32 : UInt8) ≠ SqlLiteral.quote) rest
  have head := List.dropPrefix?_append_of_beq
    (ackid.bytes ++ SqlLiteral.quote :: 32 :: rest) (BEq.refl updateHead.bytes)
  simp only [updateLiteral, bytes, head, read, tail, ackid.nulFree, Option.bind_eq_bind,
    Option.bind_some, not_false_eq_true, ↓reduceDIte, ↓reduceIte]

theorem plain_of_updateLiteral {ackid : CText}
    (itself : updateLiteral (acknowledgeSql ackid) = some ackid) :
    SqlLiteral.quote ∉ ackid.bytes := by
  obtain ⟨rest, tail, bytes⟩ := acknowledgeSql_bytes ackid
  have head := List.dropPrefix?_append_of_beq
    (ackid.bytes ++ SqlLiteral.quote :: 32 :: rest) (BEq.refl updateHead.bytes)
  simp only [updateLiteral, bytes, head, Option.bind_eq_bind, Option.bind_some] at itself
  obtain ⟨⟨value, left⟩, read, itself⟩ := Option.bind_eq_some_iff.mp itself
  dsimp only at itself
  split at itself
  · split at itself
    · cases itself
      exact SqlLiteral.plain_of_literal (by decide) read
    · cases itself
  · cases itself

/-- An engine that runs statements of the form as it has to, and all others as `other` says. -/
def Sqlite.ofOther (other : SettingTable → Option SettingTable) : Sqlite where
  exec sql table :=
    match updateLiteral sql with
    | some text => some (table.setVal keyAgentAcknowledgementId text)
    | none => other table
  answers _ := true
  exec_literal sql table text literal := by
    right
    rw [literal]

/-! ### The value of the row -/

theorem SettingTable.find?_key {table : SettingTable} {key : CText}
    (stored : ∃ row ∈ table.rows, row.stgcd = key) :
    ∃ row ∈ table.rows, row.stgcd = key ∧
      table.rows.find? (fun row => row.stgcd = key) = some row := by
  have found : (table.rows.find? fun row => row.stgcd = key).isSome := by
    rw [List.find?_isSome]
    simpa using stored
  obtain ⟨row, found⟩ := Option.isSome_iff_exists.mp found
  exact ⟨row, List.mem_of_find?_eq_some found, by simpa using List.find?_some found, found⟩

theorem SettingTable.setVal_find? (table : SettingTable) (key val other : CText) :
    (table.setVal key val).rows.find? (fun row => row.stgcd = other) =
      (table.rows.find? fun row => row.stgcd = other).map fun row =>
        if row.stgcd = key then { row with val := some val } else row := by
  have same_key : ∀ row : SettingRow,
      (if row.stgcd = key then { row with val := some val } else row).stgcd = row.stgcd := by
    intro row
    split <;> rfl
  rw [SettingTable.setVal, List.find?_map]
  simp only [Function.comp_def, same_key]

/-- The row of the key gets the value, if there is one. -/
theorem SettingTable.val?_setVal_iff {table : SettingTable} {key val other : CText} :
    (table.setVal key val).val? key = some other ↔
      (∃ row ∈ table.rows, row.stgcd = key) ∧ val = other := by
  rw [SettingTable.val?, SettingTable.setVal_find?]
  constructor
  · intro read
    obtain ⟨row', updated, read⟩ := Option.bind_eq_some_iff.mp read
    obtain ⟨row, found, rfl⟩ := Option.map_eq_some_iff.mp updated
    have key_eq : row.stgcd = key := by simpa using List.find?_some found
    rw [if_pos key_eq] at read
    exact ⟨⟨row, List.mem_of_find?_eq_some found, key_eq⟩, Option.some.inj read⟩
  · rintro ⟨stored, rfl⟩
    obtain ⟨row, -, key_eq, found⟩ := SettingTable.find?_key stored
    rw [found, Option.map_some, Option.bind_some, if_pos key_eq]

theorem SettingTable.val?_setVal_of_ne {table : SettingTable} {key other : CText}
    (apart : other ≠ key) (val : CText) : (table.setVal key val).val? other = table.val? other := by
  rw [SettingTable.val?, SettingTable.setVal_find?, SettingTable.val?]
  cases found : table.rows.find? fun row => row.stgcd = other with
  | none => rfl
  | some row =>
    have key_eq : row.stgcd = other := by simpa using List.find?_some found
    rw [Option.map_some, if_neg fun same => apart (key_eq.symm.trans same)]

/-- A table with the row of the id, and the row of the agent's name with a value for it. -/
structure SettingTable.Stocked (table : SettingTable) : Prop where
  acknowledgementId : ∃ row ∈ table.rows, row.stgcd = keyAgentAcknowledgementId
  agentName : ∃ name, table.val? keyAgentName = some name ∧ name.bytes.length < 1024

/-- Every start leaves such a table. -/
theorem stocked_gwSqliteOpen {now : Nat → CText} {db : SettingDatabase} {table : SettingTable}
    (values : ∀ stg ∈ db.rows, HasValue stg) (opened : gwSqliteOpen now db = some table) :
    table.Stocked := by
  obtain ⟨table', opened', rows⟩ := gwSqliteOpen_rows now db
  obtain rfl := Option.some.inj (opened'.symm.trans opened)
  refine ⟨gwSqliteOpen_setting rows .acknowledgementId, ?_⟩
  obtain ⟨row, member, key, found⟩ :=
    SettingTable.find?_key (gwSqliteOpen_setting rows .agentName)
  obtain ⟨name, val, fits⟩ := gwSqliteOpen_values rows values row member .agentName key
  refine ⟨name, ?_, fits⟩
  rw [SettingTable.val?, show keyAgentName = Setting.key .agentName from rfl, found]
  exact val

/-- So does every update of the id. -/
theorem SettingTable.Stocked.setVal {table : SettingTable} (stocked : table.Stocked)
    (ackid : CText) : (table.setVal keyAgentAcknowledgementId ackid).Stocked := by
  obtain ⟨⟨row, member, key⟩, name, val, fits⟩ := stocked
  have apart : keyAgentName ≠ keyAgentAcknowledgementId := by decide +kernel
  refine ⟨⟨_, List.mem_map_of_mem member, ?_⟩, name, ?_, fits⟩
  · rw [if_pos key]
    exact key
  · rw [SettingTable.val?_setVal_of_ne apart, val]

/-- The row of the agent's name, if there is one, has a value that `agent_name` has room for. -/
def SettingTable.NameFits (table : SettingTable) : Prop :=
  ∀ row ∈ table.rows, row.stgcd = keyAgentName →
    ∃ name, row.val = some name ∧ name.bytes.length < 1024

theorem SettingTable.Stocked.nameFits {table : SettingTable} (stocked : table.Stocked) :
    table.NameFits := by
  obtain ⟨name, val, fits⟩ := stocked.agentName
  obtain ⟨row, found, val⟩ := Option.bind_eq_some_iff.mp val
  have alone := filter_stgcd table.unique keyAgentName
  rw [found, Option.toList_some] at alone
  intro row' member key
  have same : row' ∈ [row] := alone ▸ List.mem_filter.mpr ⟨member, by simpa using key⟩
  obtain rfl := List.mem_singleton.mp same
  exact ⟨name, val, fits⟩

theorem SettingTable.nameFits_setVal {table : SettingTable} {val : CText} :
    (table.setVal keyAgentAcknowledgementId val).NameFits ↔ table.NameFits := by
  have apart : keyAgentName ≠ keyAgentAcknowledgementId := by decide +kernel
  simp only [SettingTable.NameFits, SettingTable.setVal, List.forall_mem_map]
  refine forall₂_congr fun row member => ?_
  by_cases key : row.stgcd = keyAgentAcknowledgementId
  · rw [if_pos key, key]
    exact iff_of_true (fun same => absurd same.symm apart) fun same => absurd same.symm apart
  · rw [if_neg key]

/-- The handler gets past its copies of the name where the query fails or the name fits. -/
theorem agentNameResponse_isSome {sqlite : Sqlite} {fuel : Nat} {table : SettingTable} :
    (agentNameResponse sqlite fuel table).isSome = true ↔
      (sqlite.answers table = true → table.NameFits) := by
  rw [agentNameResponse_isSome_iff, storedNames, List.forall_mem_map, Sqlite.nameRows]
  by_cases answers : sqlite.answers table = true
  · rw [if_pos answers, forall_prop_of_true answers]
    simp only [List.mem_filter, decide_eq_true_eq, and_imp, SettingTable.NameFits]
  · rw [if_neg answers]
    exact iff_of_true nofun fun yes => absurd yes answers

/-- The update has its effect where it does not fail; the handler replies, with no copy from `NULL`
or past the end of a buffer; and then the cached id is the value in the row. -/
structure Acknowledged (sqlite : Sqlite) (env : HttpdEnv) (fuel : Nat) (hm : HttpMessage)
    (state : GwState) (ackid : CText) : Prop where
  written : (sqlite.exec (acknowledgeSql ackid) state.table).isSome = true →
    (gwHttpdEvent sqlite env fuel hm state).2.table =
      state.table.setVal keyAgentAcknowledgementId ackid
  replies : (gwHttpdEvent sqlite env fuel hm state).1.isSome = true
  agree : (gwHttpdEvent sqlite env fuel hm state).2.table.val? keyAgentAcknowledgementId =
    some (gwHttpdEvent sqlite env fuel hm state).2.settings.acknowledgementId.text

variable {env : HttpdEnv} {fuel : Nat} {hm : HttpMessage} {state : GwState} {ackid : CText}

theorem acknowledged_fields {sqlite : Sqlite} (request : AcknowledgeRequest env hm ackid)
    (fits : ackid.bytes.length < 1024) {table : SettingTable}
    (after : sqlite.gwSqliteExecute state.table (acknowledgeSql ackid) = table) :
    Acknowledged sqlite env fuel hm state ackid ↔
      ((sqlite.exec (acknowledgeSql ackid) state.table).isSome = true →
        table = state.table.setVal keyAgentAcknowledgementId ackid) ∧
      (sqlite.answers table = true → table.NameFits) ∧
      table.val? keyAgentAcknowledgementId = some ackid := by
  have event : gwHttpdEvent sqlite env fuel hm state = acknowledge sqlite fuel ackid state :=
    gwHttpdEvent_ackid request
  rw [acknowledge_fits fits] at event
  simp only [after] at event
  constructor
  · rintro ⟨written, replies, agree⟩
    rw [event] at written replies agree
    rw [Option.isSome_map] at replies
    exact ⟨written, agentNameResponse_isSome.mp replies, agree⟩
  · rintro ⟨written, copied, agree⟩
    refine ⟨?_, ?_, ?_⟩
    · rw [event]
      exact written
    · rw [event, Option.isSome_map]
      exact agentNameResponse_isSome.mpr copied
    · rw [event]
      exact agree

/-- Where the statement writes a text to the row of the id, that is the id, and there is the row. -/
theorem acknowledged_ran {sqlite : Sqlite} (request : AcknowledgeRequest env hm ackid)
    (fits : ackid.bytes.length < 1024) {text : CText}
    (run : sqlite.exec (acknowledgeSql ackid) state.table =
      some (state.table.setVal keyAgentAcknowledgementId text)) :
    Acknowledged sqlite env fuel hm state ackid ↔
      (text = ackid ∧ ∃ row ∈ state.table.rows, row.stgcd = keyAgentAcknowledgementId) ∧
      (sqlite.answers (state.table.setVal keyAgentAcknowledgementId text) = true →
        state.table.NameFits) := by
  have after : sqlite.gwSqliteExecute state.table (acknowledgeSql ackid) =
      state.table.setVal keyAgentAcknowledgementId text := by
    rw [Sqlite.gwSqliteExecute, run, Option.getD_some]
  rw [acknowledged_fields request fits after, SettingTable.val?_setVal_iff,
    SettingTable.nameFits_setVal]
  constructor
  · rintro ⟨-, copied, stored, same⟩
    exact ⟨⟨same, stored⟩, copied⟩
  · rintro ⟨⟨rfl, stored⟩, copied⟩
    exact ⟨fun _ => rfl, copied, stored, rfl⟩

/-- The cache has the id also where the update fails. -/
theorem acknowledged_failed {sqlite : Sqlite} (request : AcknowledgeRequest env hm ackid)
    (fits : ackid.bytes.length < 1024)
    (fails : sqlite.exec (acknowledgeSql ackid) state.table = none) :
    Acknowledged sqlite env fuel hm state ackid ↔
      state.table.val? keyAgentAcknowledgementId = some ackid ∧
        (sqlite.answers state.table = true → state.table.NameFits) := by
  have after : sqlite.gwSqliteExecute state.table (acknowledgeSql ackid) = state.table := by
    rw [Sqlite.gwSqliteExecute, fails, Option.getD_none]
  rw [acknowledged_fields request fits after, fails, and_comm (b := _ = _)]
  exact and_iff_right nofun

/-- An engine that runs the statement, and writes the id only where it has no quote: a quote ends
the literal early or is doubled. -/
theorem Sqlite.exists_runs (ackid : CText) (table : SettingTable) :
    ∃ (sqlite : Sqlite) (text : CText), sqlite.exec (acknowledgeSql ackid) table =
      some (table.setVal keyAgentAcknowledgementId text) ∧
    (∀ table, sqlite.answers table = true) ∧
    (text = ackid → SqlLiteral.quote ∉ ackid.bytes) := by
  let sqlite := Sqlite.ofOther fun table => some
    (table.setVal keyAgentAcknowledgementId (CBuffer.zero 1024).text)
  refine ⟨sqlite, ?_⟩
  cases literal : updateLiteral (acknowledgeSql ackid) with
  | some text =>
    refine ⟨text, by simp only [sqlite, Sqlite.ofOther, literal], fun _ => rfl, ?_⟩
    rintro rfl
    exact plain_of_updateLiteral literal
  | none =>
    refine ⟨(CBuffer.zero 1024).text, by simp only [sqlite, Sqlite.ofOther, literal],
      fun _ => rfl, ?_⟩
    rintro rfl
    exact List.not_mem_nil

/-- The row and the cache get the id, whatever SQLite makes of other statements, exactly where the
id has no quote, the table has its row and the stored name fits; where the statement fails, exactly
where the row had the id before and the name fits, if its query does not fail. -/
theorem acknowledged_iff (request : AcknowledgeRequest env hm ackid)
    (fits : ackid.bytes.length < 1024) :
    ((∀ sqlite : Sqlite, (sqlite.exec (acknowledgeSql ackid) state.table).isSome = true →
        Acknowledged sqlite env fuel hm state ackid) ↔
      SqlLiteral.quote ∉ ackid.bytes ∧
        (∃ row ∈ state.table.rows, row.stgcd = keyAgentAcknowledgementId) ∧
        state.table.NameFits) ∧
      ∀ sqlite : Sqlite, sqlite.exec (acknowledgeSql ackid) state.table = none →
        (Acknowledged sqlite env fuel hm state ackid ↔
          state.table.val? keyAgentAcknowledgementId = some ackid ∧
            (sqlite.answers state.table = true → state.table.NameFits)) := by
  refine ⟨⟨fun every => ?_, ?_⟩, fun sqlite fails => acknowledged_failed request fits fails⟩
  · obtain ⟨sqlite, text, run, answers, plain⟩ := Sqlite.exists_runs ackid state.table
    obtain ⟨⟨same, stored⟩, copied⟩ :=
      (acknowledged_ran request fits run).mp (every sqlite (by rw [run]; rfl))
    exact ⟨plain same, stored, copied (answers _)⟩
  · rintro ⟨plain, stored, nameFits⟩ sqlite ran
    rcases sqlite.exec_literal _ state.table ackid (updateLiteral_plain plain) with fails | run
    · rw [fails] at ran
      cases ran
    · exact (acknowledged_ran request fits run).mpr ⟨⟨rfl, stored⟩, fun _ => nameFits⟩

/-- The agent has the id `old`, in the cache and in the table. -/
def oldState : GwState where
  settings := GwAppSettings.zero.set (.ofString 1024 "old") .acknowledgementId
  table :=
    { rows := [
        ⟨keyAgentAcknowledgementId, none, none, some (.ofString "old"), none, none, none, none⟩,
        ⟨keyAgentName, none, none, some agent7, none, none, none, none⟩]
      unique := by decide +kernel }

theorem oldState_stocked : oldState.table.Stocked :=
  ⟨⟨_, List.mem_cons_self, rfl⟩, agent7, by decide +kernel, by decide +kernel⟩

def ackidOpening : CText := .ofString "\x7b\"ackid\":\""

/-- The body is the object with the id, which has no character that JSON escapes. -/
def ackidMessage (ackid : CText) : HttpMessage where
  method := gwHttpMethodPost
  uri := gwHttpUriAcknowledge
  body := mgMkStr (.concat [ackidOpening, ackid, .ofString "\"\x7d"])

def ackidEnv (ackid : CText) : HttpdEnv where
  ackid _ := some ackid
  osReport _ := none

theorem ackidMessage_request (ackid : CText) :
    AcknowledgeRequest (ackidEnv ackid) (ackidMessage ackid) ackid where
  post := prefixCheck_self _
  route := prefixCheck_self _
  body := by
    have opening : ackidOpening.bytes.length > 0 := by decide +kernel
    simp only [ackidMessage, mgMkStr, CText.concat, List.flatMap_cons, List.length_append]
    omega
  found := rfl

def plainAckid : CText := .ofString "a1b2"

theorem acknowledged_iff_plain :
    ((∀ sqlite : Sqlite,
        (sqlite.exec (acknowledgeSql plainAckid) oldState.table).isSome = true →
        Acknowledged sqlite (ackidEnv plainAckid) 0 (ackidMessage plainAckid)
          oldState plainAckid) ↔
      SqlLiteral.quote ∉ plainAckid.bytes ∧
        (∃ row ∈ oldState.table.rows, row.stgcd = keyAgentAcknowledgementId) ∧
        oldState.table.NameFits) ∧
      ∀ sqlite : Sqlite,
        sqlite.exec (acknowledgeSql plainAckid) oldState.table = none →
        (Acknowledged sqlite (ackidEnv plainAckid) 0 (ackidMessage plainAckid)
          oldState plainAckid ↔
          oldState.table.val? keyAgentAcknowledgementId = some plainAckid ∧
            (sqlite.answers oldState.table = true → oldState.table.NameFits)) :=
  acknowledged_iff (ackidMessage_request _) (by decide +kernel)

/-- The id `a'b` makes a statement that fails, after which the cache has it and the row does not. -/
theorem acknowledged_fails :
    ¬∀ (sqlite : Sqlite) (env : HttpdEnv) (fuel : Nat) (hm : HttpMessage) (state : GwState)
      (ackid : CText), AcknowledgeRequest env hm ackid → ackid.bytes.length < 1024 →
      state.table.Stocked →
      Acknowledged sqlite env fuel hm state ackid := by
  intro every
  have literal : updateLiteral (acknowledgeSql (.ofString "a'b")) = none := by decide +kernel
  have fails : (Sqlite.ofOther fun _ => none).exec (acknowledgeSql (.ofString "a'b"))
      oldState.table = none := by
    simp only [Sqlite.ofOther, literal]
  have request := ackidMessage_request (.ofString "a'b")
  have fits : (CText.ofString "a'b").bytes.length < 1024 := by decide +kernel
  obtain ⟨before, -⟩ := (acknowledged_failed request fits fails).mp
    (every _ _ 0 _ oldState _ request fits oldState_stocked)
  revert before
  decide +kernel

end Guardwatch
