import Guardwatch.Agent.SettingTable
import Guardwatch.Agent.Sqlite

/-! The settings that `gw_app_start` caches from the rows of `tn_gw_stg`. -/

namespace Guardwatch

/-- The fields of `gw_app_settings_t` that have a row in the table. -/
structure GwAppSettings where
  acknowledgementId : CBuffer 1024
  serverAddress : CBuffer 1024
  serverSnmpPort : CBuffer 1024
  serverWebPort : CBuffer 1024
  agentName : CBuffer 1024
  agentSnmpPort : CBuffer 1024
  agentWebPort : CBuffer 1024

inductive Setting
  | acknowledgementId
  | serverAddress
  | serverSnmpPort
  | serverWebPort
  | agentSnmpPort
  | agentWebPort
  | agentName
deriving DecidableEq

def Setting.key : Setting → CText
  | .acknowledgementId => keyAgentAcknowledgementId
  | .serverAddress => keyServerAddress
  | .serverSnmpPort => keyServerSnmpPort
  | .serverWebPort => keyServerWebPort
  | .agentSnmpPort => keyAgentSnmpPort
  | .agentWebPort => keyAgentWebPort
  | .agentName => keyAgentName

def GwAppSettings.get (settings : GwAppSettings) : Setting → CBuffer 1024
  | .acknowledgementId => settings.acknowledgementId
  | .serverAddress => settings.serverAddress
  | .serverSnmpPort => settings.serverSnmpPort
  | .serverWebPort => settings.serverWebPort
  | .agentSnmpPort => settings.agentSnmpPort
  | .agentWebPort => settings.agentWebPort
  | .agentName => settings.agentName

def GwAppSettings.set (settings : GwAppSettings) (val : CBuffer 1024) : Setting → GwAppSettings
  | .acknowledgementId => { settings with acknowledgementId := val }
  | .serverAddress => { settings with serverAddress := val }
  | .serverSnmpPort => { settings with serverSnmpPort := val }
  | .serverWebPort => { settings with serverWebPort := val }
  | .agentSnmpPort => { settings with agentSnmpPort := val }
  | .agentWebPort => { settings with agentWebPort := val }
  | .agentName => { settings with agentName := val }

/-- A zeroed structure. -/
def GwAppSettings.zero : GwAppSettings :=
  let empty := CBuffer.zero 1024
  ⟨empty, empty, empty, empty, empty, empty, empty⟩

def columnStgcd : MapKey := .ofString 1024 "stgcd"
def columnVal : MapKey := .ofString 1024 "val"

/-- A row as the query `GW_SQL_SETTING_FIND` passes it. -/
def SettingRow.columns (row : SettingRow) : SqliteRow := [
  (columnStgcd, some row.stgcd),
  (.ofString 1024 "stgnm", row.stgnm),
  (.ofString 1024 "stgtyp", row.stgtyp),
  (columnVal, row.val),
  (.ofString 1024 "opt", row.opt),
  (.ofString 1024 "nt", row.nt),
  (.ofString 1024 "sta", row.sta),
  (.ofString 1024 "lmt", row.lmt)]

/-- One of the seven comparisons of the loop: the value of the row is copied where the key is that
of the setting. `none` is a copy from `NULL` or past the end of the field. -/
def copySetting (row : GfcMap CText) (key : CText) (settings : GwAppSettings) (setting : Setting) :
    Option GwAppSettings :=
  if key = setting.key then do
    let val ← (gfcMapGet row columnVal).2
    let field ← val.strcpy 1024
    some (settings.set field setting)
  else some settings

/-- The comparisons in the order of the source. -/
def comparedSettings : List Setting :=
  [.acknowledgementId, .serverAddress, .serverSnmpPort, .serverWebPort, .agentSnmpPort,
    .agentWebPort, .agentName]

def loadRow (row : GfcMap CText) (settings : GwAppSettings) : Option GwAppSettings := do
  let key ← (gfcMapGet row columnStgcd).2
  comparedSettings.foldlM (copySetting row key) settings

/-- The loop of `gw_app_start` over the result of the query. -/
def loadSettings (result : GfcList (GfcMap CText)) (settings : GwAppSettings) :
    Option GwAppSettings :=
  (List.range (gfcListSize result)).foldlM (fun settings i => do
    let row ← gfcListGet result i
    loadRow row settings) settings

/-! ### One row -/

theorem get_set (settings : GwAppSettings) (val : CBuffer 1024) (setting other : Setting) :
    (settings.set val setting).get other = if other = setting then val else settings.get other := by
  cases setting <;> cases other <;> rfl

theorem mem_comparedSettings (setting : Setting) : setting ∈ comparedSettings := by
  cases setting <;> decide

theorem foldlM_copySetting {row : GfcMap CText} {key val : CText}
    (fits : val.bytes.length < 1024) {compared : List Setting}
    (at_val : ∀ setting ∈ compared, key = setting.key →
      (gfcMapGet row columnVal).2 = some val) (settings : GwAppSettings) :
    ∃ settings', compared.foldlM (copySetting row key) settings = some settings' ∧
      ∀ setting, settings'.get setting =
        if setting ∈ compared ∧ key = setting.key then ⟨val, fits⟩ else settings.get setting := by
  induction compared generalizing settings with
  | nil => exact ⟨settings, rfl, fun _ => by simp⟩
  | cons first rest ih =>
    have at_rest : ∀ setting ∈ rest, key = setting.key → (gfcMapGet row columnVal).2 = some val :=
      fun setting member => at_val setting (List.mem_cons_of_mem _ member)
    by_cases same : key = first.key
    · have copied : copySetting row key settings first = some (settings.set ⟨val, fits⟩ first) := by
        rw [copySetting, if_pos same, at_val first List.mem_cons_self same]
        show (val.strcpy 1024).bind _ = _
        rw [CText.strcpy_fits fits]
        rfl
      obtain ⟨settings', done, all⟩ := ih at_rest (settings.set ⟨val, fits⟩ first)
      refine ⟨settings', by rw [List.foldlM_cons, copied]; exact done, fun setting => ?_⟩
      rw [all, get_set]
      by_cases this : setting = first
      · simp [this, same]
      · simp [this]
    · have kept : copySetting row key settings first = some settings := if_neg same
      obtain ⟨settings', done, all⟩ := ih at_rest settings
      refine ⟨settings', by rw [List.foldlM_cons, kept]; exact done, fun setting => ?_⟩
      rw [all]
      by_cases this : setting = first
      · simp [this, same]
      · simp [this]

/-- The row has a value for a field, if it is the row of a setting. -/
def HasValue (row : SettingRow) : Prop :=
  ∀ setting : Setting, row.stgcd = setting.key → ∃ val, row.val = some val ∧ val.bytes.length < 1024

theorem loadRow_spec {stg : SettingRow} {row : GfcMap CText} (faithful : Faithful stg.columns row)
    (value : HasValue stg) (settings : GwAppSettings) :
    ∃ settings', loadRow row settings = some settings' ∧ ∀ setting : Setting,
      (stg.stgcd = setting.key → stg.val = some (settings'.get setting).text) ∧
      (stg.stgcd ≠ setting.key → settings'.get setting = settings.get setting) := by
  have at_key : (gfcMapGet row columnStgcd).2 = some stg.stgcd := by
    rw [faithful columnStgcd (some stg.stgcd) (by simp [SettingRow.columns])]
  have at_val : (gfcMapGet row columnVal).2 = stg.val := by
    rw [faithful columnVal stg.val (by simp [SettingRow.columns])]
    cases stg.val <;> rfl
  have start : loadRow row settings = comparedSettings.foldlM (copySetting row stg.stgcd) settings := by
    rw [loadRow, at_key]
    rfl
  rw [start]
  by_cases matched : ∃ setting : Setting, stg.stgcd = setting.key
  · obtain ⟨setting, same⟩ := matched
    obtain ⟨val, val_eq, fits⟩ := value setting same
    obtain ⟨settings', done, all⟩ := foldlM_copySetting fits
      (fun _ _ _ => at_val.trans val_eq) settings
    refine ⟨settings', done, fun other => ⟨fun same => ?_, fun apart => ?_⟩⟩
    · rw [all, if_pos ⟨mem_comparedSettings other, same⟩, val_eq]
    · rw [all, if_neg fun h => apart h.2]
  · obtain ⟨settings', done, all⟩ := foldlM_copySetting (CBuffer.zero 1024).fits
      (fun setting _ same => absurd ⟨setting, same⟩ matched) settings
    refine ⟨settings', done, fun other => ⟨fun same => absurd ⟨other, same⟩ matched, fun apart => ?_⟩⟩
    rw [all, if_neg fun h => apart h.2]

/-! ### The whole loop -/

theorem foldlM_loadRow {order : List SettingRow} {maps : List (GfcMap CText)}
    (faithful : List.Forall₂ Faithful (order.map SettingRow.columns) maps)
    (distinct : (order.map SettingRow.stgcd).Nodup) (values : ∀ stg ∈ order, HasValue stg)
    (settings : GwAppSettings) :
    ∃ settings', maps.foldlM (fun settings row => loadRow row settings) settings = some settings' ∧
      ∀ setting : Setting,
        (∀ stg ∈ order, stg.stgcd = setting.key → stg.val = some (settings'.get setting).text) ∧
        ((∀ stg ∈ order, stg.stgcd ≠ setting.key) →
          settings'.get setting = settings.get setting) := by
  induction order generalizing maps settings with
  | nil =>
    cases faithful
    exact ⟨settings, rfl, fun _ => ⟨nofun, fun _ => rfl⟩⟩
  | cons stg rest ih =>
    obtain ⟨row, maps, first, others, rfl⟩ := List.forall₂_cons_left_iff.mp faithful
    obtain ⟨fresh, apart⟩ := List.nodup_cons.mp distinct
    obtain ⟨settings₁, loaded, one⟩ := loadRow_spec first (values stg List.mem_cons_self) settings
    obtain ⟨settings', done, all⟩ := ih others apart
      (fun stg member => values stg (List.mem_cons_of_mem _ member)) settings₁
    refine ⟨settings', by rw [List.foldlM_cons, loaded]; exact done, fun setting => ⟨?_, ?_⟩⟩
    · intro other member same
      rcases List.mem_cons.mp member with rfl | member
      · -- No row after this one has its key.
        have last : ∀ later ∈ rest, later.stgcd ≠ setting.key := by
          intro later member' same'
          exact fresh (same.trans same'.symm ▸ List.mem_map_of_mem member')
        rw [(all setting).2 last]
        exact (one setting).1 same
      · exact (all setting).1 other member same
    · intro absent
      rw [(all setting).2 fun later member => absent later (List.mem_cons_of_mem _ member)]
      exact (one setting).2 (absent stg List.mem_cons_self)

/-- The list has a faithful map of each row, in the order of the rows. -/
def RowMaps (order : List SettingRow) (result : GfcList (GfcMap CText)) : Prop :=
  ∃ maps, List.Forall₂ Faithful (order.map SettingRow.columns) maps ∧
    result.Represents (maps.map some)

def settingColumns : List MapKey :=
  [columnStgcd, .ofString 1024 "stgnm", .ofString 1024 "stgtyp", columnVal, .ofString 1024 "opt",
    .ofString 1024 "nt", .ofString 1024 "sta", .ofString 1024 "lmt"]

theorem SettingRow.columns_names (stg : SettingRow) :
    stg.columns.map Prod.fst = settingColumns := rfl

theorem SettingRow.columns_distinct (stg : SettingRow) : (stg.columns.map Prod.fst).Nodup := by
  rw [stg.columns_names]
  decide +kernel

/-- What `gw_sqlite_query` makes of the rows, once its puts return. -/
theorem gwSqliteQuery_rowMaps {fuel : Nat} {order : List SettingRow} {rc : Nat}
    {result : GfcList (GfcMap CText)}
    (done : gwSqliteQuery fuel (order.map SettingRow.columns) = some (rc, result)) :
    RowMaps order result := by
  refine gwSqliteQuery_maps (fun columns member => ?_) done
  obtain ⟨stg, -, rfl⟩ := List.mem_map.mp member
  exact stg.columns_distinct

/-- The columns of the table start their chains at different slots of a new map. -/
theorem settingColumns_apart : (settingColumns.map fun name => (hashKey name).toNat % 256).Nodup := by
  decide +kernel

/-- A query of the table returns. -/
theorem gwSqliteQuery_settings (fuel : Nat) (order : List SettingRow) :
    ∃ result, gwSqliteQuery fuel (order.map SettingRow.columns) = some (gwSqliteOk, result) := by
  refine @gwSqliteQuery_returns fuel (fun name => (hashKey name).toNat % 256) ?_ _ ?_ ?_
  · intro row size_eq
    funext name
    rw [gfcMapHashInt, size_eq]
  · intro columns member
    obtain ⟨stg, -, rfl⟩ := List.mem_map.mp member
    have apart := settingColumns_apart
    rwa [← stg.columns_names, List.map_map] at apart
  · intro columns member
    obtain ⟨stg, -, rfl⟩ := List.mem_map.mp member
    have length : stg.columns.length = 8 := rfl
    omega

theorem loadSettings_rowMaps {order : List SettingRow} {result : GfcList (GfcMap CText)}
    (rowMaps : RowMaps order result) (distinct : (order.map SettingRow.stgcd).Nodup)
    (values : ∀ stg ∈ order, HasValue stg) (settings : GwAppSettings) :
    ∃ settings', loadSettings result settings = some settings' ∧ ∀ setting : Setting,
      ∀ stg ∈ order, stg.stgcd = setting.key → stg.val = some (settings'.get setting).text := by
  obtain ⟨maps, faithful, r⟩ := rowMaps
  obtain ⟨settings', done, all⟩ := foldlM_loadRow faithful distinct values settings
  refine ⟨settings', ?_, fun setting => (all setting).1⟩
  rw [← done]
  exact foldlM_gfcListGet r (fun settings row => loadRow row settings) settings

/-! ### A start after any earlier use -/

/-- The seeds of the settings have short values. -/
theorem seeds_values : ∀ seed ∈ seeds, ∀ setting ∈ comparedSettings,
    seed.stgcd = setting.key → seed.val.bytes.length < 1024 := by
  decide +kernel

theorem seeds_settings : ∀ setting ∈ comparedSettings, setting.key ∈ seeds.map Seed.stgcd := by
  decide +kernel

theorem seedRows_values (now : Nat → CText) : ∀ stg ∈ seedRows now, HasValue stg := by
  intro stg member setting same
  obtain ⟨⟨seed, i⟩, numbered, rfl⟩ := List.mem_map.mp member
  have listed : seed ∈ seeds := List.fst_mem_of_mem_zipIdx numbered
  exact ⟨seed.val, rfl, seeds_values seed listed setting (mem_comparedSettings setting) same⟩

theorem gwSqliteOpen_setting {now : Nat → CText} {db : SettingDatabase} {table : SettingTable}
    (rows : table.rows = db.rows ++
      (seedRows now).filter fun seed => seed.stgcd ∉ db.rows.map SettingRow.stgcd)
    (setting : Setting) : ∃ stg ∈ table.rows, stg.stgcd = setting.key := by
  have seeded := seeds_settings setting (mem_comparedSettings setting)
  rw [← seedRows_keys now] at seeded
  obtain ⟨seed, member, same⟩ := List.mem_map.mp seeded
  rw [rows]
  by_cases present : setting.key ∈ db.rows.map SettingRow.stgcd
  · obtain ⟨stg, member, same⟩ := List.mem_map.mp present
    exact ⟨stg, List.mem_append_left _ member, same⟩
  · refine ⟨seed, List.mem_append_right _ (List.mem_filter.mpr ⟨member, ?_⟩), same⟩
    rw [same]
    simpa using present

theorem gwSqliteOpen_values {now : Nat → CText} {db : SettingDatabase} {table : SettingTable}
    (rows : table.rows = db.rows ++
      (seedRows now).filter fun seed => seed.stgcd ∉ db.rows.map SettingRow.stgcd)
    (values : ∀ stg ∈ db.rows, HasValue stg) : ∀ stg ∈ table.rows, HasValue stg := by
  intro stg member
  rw [rows] at member
  rcases List.mem_append.mp member with prior | seed
  · exact values stg prior
  · exact seedRows_values now stg (List.mem_filter.mp seed).1

/-- A start keeps every row, adds the seeds that are missing, and caches for each setting the value
of its row, in whatever order the rows are returned. -/
theorem settings_survive (now : Nat → CText) (db : SettingDatabase)
    (values : ∀ stg ∈ db.rows, HasValue stg) :
    ∃ table, gwSqliteOpen now db = some table ∧
      table.rows = db.rows ++
        (seedRows now).filter (fun seed => seed.stgcd ∉ db.rows.map SettingRow.stgcd) ∧
      (∀ later, gwSqliteOpen later (some table) = some table) ∧
      ∀ order result, order.Perm table.rows → RowMaps order result → ∀ settings,
        ∃ settings', loadSettings result settings = some settings' ∧
          ∀ setting : Setting, ∃ stg ∈ table.rows, stg.stgcd = setting.key ∧
            stg.val = some (settings'.get setting).text := by
  obtain ⟨table, opened, rows⟩ := gwSqliteOpen_rows now db
  refine ⟨table, opened, rows, gwSqliteOpen_again opened, fun order result perm rowMaps settings => ?_⟩
  have all_values : ∀ stg ∈ order, HasValue stg := fun stg member =>
    gwSqliteOpen_values rows values stg (perm.mem_iff.mp member)
  have distinct : (order.map SettingRow.stgcd).Nodup :=
    (perm.map SettingRow.stgcd).nodup_iff.mpr table.unique
  obtain ⟨settings', done, all⟩ := loadSettings_rowMaps rowMaps distinct all_values settings
  refine ⟨settings', done, fun setting => ?_⟩
  obtain ⟨stg, member, same⟩ := gwSqliteOpen_setting rows setting
  exact ⟨stg, member, same, all setting stg (perm.mem_iff.mpr member) same⟩

/-- A table with one row, in which the user has named the agent. -/
def agent7 : CText := .ofString "agent 7"

def renamed : SettingTable where
  rows := [⟨keyAgentName, none, none, some agent7, none, none, none, none⟩]
  unique := List.nodup_singleton _

theorem settings_survive_renamed :
    ∃ table, gwSqliteOpen (fun _ => .ofString "2024-02-29 12:00:00") (some renamed) = some table ∧
      table.rows = renamed.rows ++ (seedRows fun _ => .ofString "2024-02-29 12:00:00").filter
        (fun seed => seed.stgcd ∉ renamed.rows.map SettingRow.stgcd) ∧
      ∀ order result, order.Perm table.rows → RowMaps order result →
        ∃ settings', loadSettings result .zero = some settings' ∧
          ∀ setting : Setting, ∃ stg ∈ table.rows, stg.stgcd = setting.key ∧
            stg.val = some (settings'.get setting).text := by
  obtain ⟨table, opened, rows, -, loaded⟩ :=
    settings_survive (fun _ => .ofString "2024-02-29 12:00:00") (some renamed) (by
      intro stg member setting _
      obtain rfl := List.mem_singleton.mp member
      exact ⟨_, rfl, by decide +kernel⟩)
  exact ⟨table, opened, rows, fun order result perm rowMaps => loaded order result perm rowMaps .zero⟩

end Guardwatch
