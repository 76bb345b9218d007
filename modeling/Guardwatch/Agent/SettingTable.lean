import Guardwatch.Lib.CString
import Mathlib.Data.List.Nodup

/-! The table `tn_gw_stg` of `gw_sqlite.c` and the statements that `gw_sqlite_open` runs on it. -/

namespace Guardwatch

def keyServerAddress : CText := .ofString "SERVER.ADDRESS"
def keyServerSnmpPort : CText := .ofString "SERVER.SNMP.PORT"
def keyServerWebPort : CText := .ofString "SERVER.WEB.PORT"
def keyAgentSnmpPort : CText := .ofString "AGENT.SNMP.PORT"
def keyAgentWebPort : CText := .ofString "AGENT.WEB.PORT"
def keyAgentName : CText := .ofString "AGENT.NAME"
def keyAgentAcknowledgementId : CText := .ofString "AGENT.ACKNOWLEDGEMENT.ID"

/-- A row of `tn_gw_stg`; `NULL` is `none`. -/
structure SettingRow where
  stgcd : CText
  stgnm : Option CText
  stgtyp : Option CText
  val : Option CText
  opt : Option CText
  nt : Option CText
  sta : Option CText
  lmt : Option CText
deriving DecidableEq

/-- The rows of the table. Its primary key is `stgcd`. -/
structure SettingTable where
  rows : List SettingRow
  unique : (rows.map SettingRow.stgcd).Nodup

theorem SettingTable.ext {table table' : SettingTable} (same : table.rows = table'.rows) :
    table = table' := by
  cases table
  cases table'
  cases same
  rfl

/-- A database, `none` before the table is created. -/
abbrev SettingDatabase := Option SettingTable

def SettingDatabase.rows : SettingDatabase → List SettingRow
  | some table => table.rows
  | none => []

/-- The rows of the table with `val` in the row of the key. -/
def SettingTable.setVal (table : SettingTable) (key val : CText) : SettingTable where
  rows := table.rows.map fun row => if row.stgcd = key then { row with val := some val } else row
  unique := by
    rw [List.map_map]
    convert table.unique using 2
    funext row
    by_cases same : row.stgcd = key <;> simp [same]

inductive SettingStatement
  | create
  | insert (row : SettingRow)

def SettingTable.insert (table : SettingTable) (row : SettingRow)
    (fresh : row.stgcd ∉ table.rows.map SettingRow.stgcd) : SettingTable where
  rows := table.rows ++ [row]
  unique := by
    rw [List.map_append, List.nodup_append]
    refine ⟨table.unique, List.nodup_singleton _, fun key member key' last => ?_⟩
    rintro rfl
    rw [List.map_singleton, List.mem_singleton] at last
    exact fresh (last ▸ member)

/-- What a statement does, or `none` where it fails: the table exists, or its key does. -/
def SettingStatement.run (db : SettingDatabase) : SettingStatement → Option SettingDatabase
  | .create =>
    match db with
    | none => some (some ⟨[], .nil⟩)
    | some _ => none
  | .insert row =>
    match db with
    | none => none
    | some table =>
      if fresh : row.stgcd ∉ table.rows.map SettingRow.stgcd then some (some (table.insert row fresh))
      else none

/-- `gw_sqlite_execute`, where a statement that fails changes nothing. -/
def gwSqliteExecute (db : SettingDatabase) (sql : SettingStatement) : SettingDatabase :=
  (sql.run db).getD db

/-- The texts of an insert statement. -/
structure Seed where
  stgcd : CText
  stgnm : CText
  stgtyp : CText
  val : CText

/-- The row of an insert statement, which also names `sta` with `'E'` and `lmt` with the time. -/
def Seed.row (seed : Seed) (now : CText) : SettingRow where
  stgcd := seed.stgcd
  stgnm := some seed.stgnm
  stgtyp := some seed.stgtyp
  val := some seed.val
  opt := none
  nt := none
  sta := some (.ofString "E")
  lmt := some now

def mssqlSlowQuery : CText := .concat [
  .ofString "\n",
  .ofString "select top 100\n",
  .ofString "  creation_time,\n",
  .ofString "  last_execution_time,\n",
  .ofString "  total_worker_time,\n",
  .ofString "  total_elapsed_time,\n",
  .ofString "  substring(st.text, qs.statement_start_offset / 2 + 1, (\n",
  .ofString "    case statement_end_offset\n",
  .ofString "    when -1 THEN DATALENGTH(st.text)\n",
  .ofString "    else qs.statement_end_offset\n",
  .ofString "    end - qs.statement_start_offset) / 2 + 1\n",
  .ofString "  ) as statement_text\n",
  .ofString "from sys.dm_exec_query_stats as qs\n",
  .ofString "cross apply sys.dm_exec_sql_text(qs.sql_handle) as st\n",
  .ofString "where 1 = 1\n",
  .ofString "and last_execution_time > \x7b\x7b\x7b\x7blastExecutionTime\x7d\x7d\x7d\x7d\n",
  .ofString "order by total_worker_time desc;\n"]

def mssqlLock : CText := .concat [
  .ofString "\n",
  .ofString "SELECT  L.request_session_id AS SPID, \n",
  .ofString "    DB_NAME(L.resource_database_id) AS DatabaseName,\n",
  .ofString "    O.Name AS LockedObjectName, \n",
  .ofString "    P.object_id AS LockedObjectId, \n",
  .ofString "    L.resource_type AS LockedResource, \n",
  .ofString "    L.request_mode AS LockType,\n",
  .ofString "    ST.text AS SqlStatementText,        \n",
  .ofString "    ES.login_name AS LoginName,\n",
  .ofString "    ES.host_name AS HostName,\n",
  .ofString "    TST.is_user_transaction as IsUserTransaction,\n",
  .ofString "    AT.name as TransactionName,\n",
  .ofString "    CN.auth_scheme as AuthenticationMethod\n",
  .ofString "FROM    sys.dm_tran_locks L\n",
  .ofString "    JOIN sys.partitions P ON P.hobt_id = L.resource_associated_entity_id\n",
  .ofString "    JOIN sys.objects O ON O.object_id = P.object_id\n",
  .ofString "    JOIN sys.dm_exec_sessions ES ON ES.session_id = L.request_session_id\n",
  .ofString "    JOIN sys.dm_tran_session_transactions TST ON ES.session_id = TST.session_id\n",
  .ofString "    JOIN sys.dm_tran_active_transactions AT ON TST.transaction_id = AT.transaction_id\n",
  .ofString "    JOIN sys.dm_exec_connections CN ON CN.session_id = ES.session_id\n",
  .ofString "    CROSS APPLY sys.dm_exec_sql_text(CN.most_recent_sql_handle) AS ST\n",
  .ofString "WHERE   resource_database_id = db_id()\n",
  .ofString "ORDER BY L.request_session_id"]

/-- The doubled quotes of the statement stand for single ones. -/
def mssqlDeadLock : CText := .concat [
  .ofString "\n",
  .ofString "SELECT XEvent.query('(event/data/value/deadlock)[1]') AS DeadlockGraph\n",
  .ofString "FROM ( \n",
  .ofString "  SELECT XEvent.query('.') AS XEvent\n",
  .ofString "  FROM ( \n",
  .ofString "    SELECT CAST(target_data AS XML) AS TargetData\n",
  .ofString "    FROM sys.dm_xe_session_targets st\n",
  .ofString "    JOIN sys.dm_xe_sessions s\n",
  .ofString "    ON s.address = st.event_session_address\n",
  .ofString "    WHERE s.name = 'system_health'\n",
  .ofString "    AND st.target_name = 'ring_buffer'\n",
  .ofString "  ) AS Data\n",
  .ofString "  CROSS APPLY \n",
  .ofString "  TargetData.nodes ('RingBufferTarget/event[@name=\"xml_deadlock_report\"]') AS XEventData (XEvent)\n",
  .ofString ") AS src"]

/-- The insert statements of `gw_sqlite_open`, in turn. -/
def seeds : List Seed := [
  ⟨keyAgentAcknowledgementId, .ofString "服务器识别编码", .ofString "AGENT", .ofString ""⟩,
  ⟨keyServerAddress, .ofString "网管中心服务地址", .ofString "AGENT", .ofString "192.168.0.207"⟩,
  ⟨keyServerSnmpPort, .ofString "网管中心网管端口", .ofString "AGENT", .ofString "6162"⟩,
  ⟨keyServerWebPort, .ofString "网管中心应用端口", .ofString "AGENT", .ofString "8088"⟩,
  ⟨keyAgentName, .ofString "本地机器名称", .ofString "AGENT", .ofString "机器名称"⟩,
  ⟨keyAgentSnmpPort, .ofString "本地网管端口", .ofString "AGENT", .ofString "6161"⟩,
  ⟨keyAgentWebPort, .ofString "本地应用端口", .ofString "AGENT", .ofString "10086"⟩,
  ⟨.ofString "AGENT.MSSQL.ADDRESS", .ofString "MSSQL数据库地址", .ofString "AGENT",
    .ofString "localhost"⟩,
  ⟨.ofString "AGENT.MSSQL.PORT", .ofString "MSSQL数据库端口", .ofString "AGENT", .ofString "1433"⟩,
  ⟨.ofString "AGENT.MSSQL.USERNAME", .ofString "MSSQL数据库用户", .ofString "AGENT",
    .ofString "sa"⟩,
  ⟨.ofString "AGENT.MSSQL.PASSWORD", .ofString "MSSQL数据库密码", .ofString "AGENT", .ofString ""⟩,
  ⟨.ofString "MSSQL.SLOW_QUERY", .ofString "慢查询查询", .ofString "MSSQL", mssqlSlowQuery⟩,
  ⟨.ofString "MSSQL.LOCK", .ofString "死锁查询", .ofString "MSSQL", mssqlLock⟩,
  ⟨.ofString "MSSQL.DEAD_LOCK", .ofString "死锁查询", .ofString "MSSQL", mssqlDeadLock⟩]

/-- The rows that `gw_sqlite_open` inserts, where `now` gives the time of each insert. -/
def seedRows (now : Nat → CText) : List SettingRow :=
  seeds.zipIdx.map fun (seed, i) => seed.row (now i)

/-- The statements of `gw_sqlite_open`, once the database is open. -/
def gwSqliteOpen (now : Nat → CText) (db : SettingDatabase) : SettingDatabase :=
  (.create :: (seedRows now).map .insert).foldl gwSqliteExecute db

theorem gwSqliteExecute_insert (table : SettingTable) (row : SettingRow) :
    ∃ table', gwSqliteExecute (some table) (.insert row) = some table' ∧
      table'.rows = table.rows ++
        if row.stgcd ∈ table.rows.map SettingRow.stgcd then [] else [row] := by
  by_cases present : row.stgcd ∈ table.rows.map SettingRow.stgcd
  · exact ⟨table, by simp only [gwSqliteExecute, SettingStatement.run, present, not_true_eq_false,
      ↓reduceDIte, Option.getD_none], by simp only [present, ↓reduceIte, List.append_nil]⟩
  · exact ⟨table.insert row present, by simp only [gwSqliteExecute, SettingStatement.run, present,
      not_false_eq_true, ↓reduceDIte, Option.getD_some], by
      simp only [SettingTable.insert, present, ↓reduceIte]⟩

/-- Inserts of rows with distinct keys add those whose key is absent. -/
theorem foldl_insert {seeds : List SettingRow} (distinct : (seeds.map SettingRow.stgcd).Nodup)
    (table : SettingTable) :
    ∃ table', (seeds.map .insert).foldl gwSqliteExecute (some table) = some table' ∧
      table'.rows = table.rows ++
        seeds.filter fun seed => seed.stgcd ∉ table.rows.map SettingRow.stgcd := by
  induction seeds generalizing table with
  | nil => exact ⟨table, rfl, by simp⟩
  | cons seed rest ih =>
    obtain ⟨fresh, distinct⟩ := List.nodup_cons.mp distinct
    obtain ⟨table₁, insert, rows₁⟩ := gwSqliteExecute_insert table seed
    obtain ⟨table', inserts, rows'⟩ := ih distinct table₁
    refine ⟨table', by rw [List.map_cons, List.foldl_cons, insert, inserts], ?_⟩
    -- The key of the first seed is none of the other seeds', so its row decides about none of them.
    have same : ∀ other ∈ rest, (other.stgcd ∉ table₁.rows.map SettingRow.stgcd ↔
        other.stgcd ∉ table.rows.map SettingRow.stgcd) := by
      intro other member
      have ne : other.stgcd ≠ seed.stgcd := fun same =>
        fresh (same ▸ List.mem_map_of_mem member)
      rw [rows₁, List.map_append, List.mem_append]
      split <;> simp [ne]
    have kept : rest.filter (fun other => other.stgcd ∉ table₁.rows.map SettingRow.stgcd) =
        rest.filter fun other => other.stgcd ∉ table.rows.map SettingRow.stgcd :=
      List.filter_congr fun other member => decide_eq_decide.mpr (same other member)
    rw [rows', kept, rows₁, List.filter_cons, List.append_assoc]
    congr 1
    by_cases present : seed.stgcd ∈ table.rows.map SettingRow.stgcd
    · rw [if_pos present, if_neg (by simpa using present), List.nil_append]
    · rw [if_neg present, if_pos (by simpa using present), List.singleton_append]

theorem seedRows_keys (now : Nat → CText) :
    (seedRows now).map SettingRow.stgcd = seeds.map Seed.stgcd := rfl

theorem seeds_distinct : (seeds.map Seed.stgcd).Nodup := by
  decide +kernel

theorem gwSqliteOpen_rows (now : Nat → CText) (db : SettingDatabase) :
    ∃ table, gwSqliteOpen now db = some table ∧
      table.rows = db.rows ++
        (seedRows now).filter fun seed => seed.stgcd ∉ db.rows.map SettingRow.stgcd := by
  obtain ⟨table, created, same⟩ : ∃ table : SettingTable,
      gwSqliteExecute db .create = some table ∧ table.rows = db.rows := by
    cases db with
    | none => exact ⟨⟨[], .nil⟩, rfl, rfl⟩
    | some table => exact ⟨table, rfl, rfl⟩
  have distinct : ((seedRows now).map SettingRow.stgcd).Nodup := by
    rw [seedRows_keys]
    exact seeds_distinct
  obtain ⟨table', opened, rows⟩ := foldl_insert distinct table
  rw [same] at rows
  exact ⟨table', by rw [gwSqliteOpen, List.foldl_cons, created, opened], rows⟩

/-- Where every seed's key is there, nothing changes. -/
theorem gwSqliteOpen_seeded {now : Nat → CText} {table : SettingTable}
    (seeded : ∀ seed ∈ seedRows now, seed.stgcd ∈ table.rows.map SettingRow.stgcd) :
    gwSqliteOpen now (some table) = some table := by
  obtain ⟨table', opened, rows⟩ := gwSqliteOpen_rows now (some table)
  have nothing : (seedRows now).filter (fun seed =>
      seed.stgcd ∉ table.rows.map SettingRow.stgcd) = [] :=
    List.filter_eq_nil_iff.mpr fun seed member => by simpa using seeded seed member
  rw [SettingDatabase.rows, nothing, List.append_nil] at rows
  rw [opened, SettingTable.ext rows]

/-- Opening the database again changes nothing. -/
theorem gwSqliteOpen_again {now : Nat → CText} {db : SettingDatabase} {table : SettingTable}
    (opened : gwSqliteOpen now db = some table) (later : Nat → CText) :
    gwSqliteOpen later (some table) = some table := by
  obtain ⟨table', opened', rows⟩ := gwSqliteOpen_rows now db
  obtain rfl := Option.some.inj (opened'.symm.trans opened)
  refine gwSqliteOpen_seeded fun seed member => ?_
  have key : seed.stgcd ∈ (seedRows now).map SettingRow.stgcd := by
    have := List.mem_map_of_mem (f := SettingRow.stgcd) member
    rwa [seedRows_keys later, ← seedRows_keys now] at this
  obtain ⟨seed', member', same⟩ := List.mem_map.mp key
  rw [rows, List.map_append, List.mem_append]
  by_cases present : seed.stgcd ∈ db.rows.map SettingRow.stgcd
  · exact .inl present
  · refine .inr (List.mem_map.mpr ⟨seed', List.mem_filter.mpr ⟨member', ?_⟩, same⟩)
    rw [same]
    simpa using present

end Guardwatch
