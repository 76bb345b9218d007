import Guardwatch.Gfc.List
import Guardwatch.Gfc.MapDictionary
import Mathlib.Data.List.Forall2

/-! Query results of `gw_sqlite.c`: a list with one map for each row, from column names to texts. -/

namespace Guardwatch

open LinearProbe

def gwSqliteOk : Nat := 0

/-- A row as SQLite passes it to a callback: the column names, each with its text or `NULL`. -/
abbrev SqliteRow := List (MapKey × Option CText)

/-- The loop of `gw_sqlite_callback` over the columns. -/
def putColumns (fuel : Nat) : SqliteRow → GfcMap CText → Option (GfcMap CText)
  | [], row => some row
  | (name, value) :: rest, row =>
    match value with
    | none => putColumns fuel rest row
    | some text => do
      let (_, row) ← gfcMapPut (zeroFilled CText) fuel row name (some text)
      putColumns fuel rest row

/-- Fresh blocks are filled with zeros; `none` is a put that does not return. -/
def gwSqliteCallback (fuel : Nat) (result : GfcList (GfcMap CText)) (columns : SqliteRow) :
    Option (GfcList (GfcMap CText)) := do
  let row ← gfcMapNew (zeroFilled CText)
  let row ← putColumns fuel columns row
  some (gfcListAppend (fun _ => none) result (some row))

/-- `gw_sqlite_query`, where `sqlite3_exec` succeeds and calls the callback for each row in turn. -/
def gwSqliteQuery (fuel : Nat) (rows : List SqliteRow) :
    Option (Nat × GfcList (GfcMap CText)) := do
  let result ← rows.foldlM (gwSqliteCallback fuel) (gfcListNew fun _ => none)
  some (gwSqliteOk, result)

/-- The map has the texts of the columns under their names, and nothing else. -/
def Faithful (columns : SqliteRow) (row : GfcMap CText) : Prop :=
  ∀ name value, (name, value) ∈ columns →
    gfcMapGet row name =
      match value with
      | some text => (gfcErrorMapOk, some text)
      | none => (gfcErrorMapMissing, none)

theorem putColumns_holds {fuel : Nat} {columns : SqliteRow}
    (distinct : (columns.map Prod.fst).Nodup) {row row' : GfcMap CText}
    {d : MapKey → Option (Option CText)} (holds : row.Holds d) (packed : row.Packed)
    (done : putColumns fuel columns row = some row') :
    ∃ d', row'.Holds d' ∧ (∀ name ∉ columns.map Prod.fst, d' name = d name) ∧
      ∀ name value, (name, value) ∈ columns →
        d' name = match value with
          | some text => some (some text)
          | none => d name := by
  induction columns generalizing row d with
  | nil =>
    cases done
    exact ⟨d, holds, fun _ _ => rfl, nofun⟩
  | cons column rest ih =>
    obtain ⟨name, value⟩ := column
    obtain ⟨fresh, apart⟩ := List.nodup_cons.mp distinct
    cases value with
    | none =>
      obtain ⟨d', holds', others, columns⟩ := ih apart holds packed done
      refine ⟨d', holds', fun other absent => ?_, fun other value member => ?_⟩
      · exact others other fun member => absent (List.mem_cons_of_mem _ member)
      · rcases List.mem_cons.mp member with same | member
        · cases same
          exact others name fresh
        · exact columns other value member
    | some text =>
      obtain ⟨⟨rc, row₁⟩, put, done⟩ := Option.bind_eq_some_iff.mp done
      obtain ⟨-, holds₁, keeps⟩ := gfcMapPut_holds supplies_zeroFilled fuel holds (packed.shown name) put
      obtain ⟨d', holds', others, columns⟩ := ih apart holds₁ (keeps packed) done
      have other_ne : ∀ other ∈ rest.map Prod.fst, other ≠ name := by
        rintro other member rfl
        exact fresh member
      refine ⟨d', holds', fun other absent => ?_, fun other value member => ?_⟩
      · have ne : other ≠ name := by
          rintro rfl
          exact absent List.mem_cons_self
        rw [others other fun member => absent (List.mem_cons_of_mem _ member),
          Function.update_of_ne ne]
      · rcases List.mem_cons.mp member with same | member
        · cases same
          exact (others name fresh).trans (Function.update_self ..)
        · rw [columns other value member]
          cases value with
          | some text => rfl
          | none => exact Function.update_of_ne (other_ne other (List.mem_map_of_mem member)) ..

/-- Columns whose chains start at different slots are put there without a collision. -/
theorem putColumns_returns {fuel : Nat} {slot : MapKey → Nat}
    (hashed : ∀ row : GfcMap CText, row.tableSize = 256 → gfcMapHashInt row = slot)
    {columns : SqliteRow} (distinct : (columns.map fun column => slot column.1).Nodup)
    {row : GfcMap CText} (size_eq : row.tableSize = 256) (half : row.size + columns.length < 128)
    (unused : ∀ column ∈ columns, (row.data (slot column.1)).inUse = 0) :
    ∃ row', putColumns fuel columns row = some row' := by
  induction columns generalizing row with
  | nil => exact ⟨row, rfl⟩
  | cons column rest ih =>
    obtain ⟨name, value⟩ := column
    rw [List.map_cons, List.nodup_cons] at distinct
    obtain ⟨fresh, apart⟩ := distinct
    have unused_rest := fun column member => unused column (List.mem_cons_of_mem _ member)
    rw [List.length_cons] at half
    cases value with
    | none => exact ih apart size_eq (by omega) unused_rest
    | some text =>
      have inside : slot name < 256 := by
        have := hashInt_lt (by omega : 0 < row.tableSize) name
        rwa [hashed row size_eq, size_eq] at this
      have index : gfcMapHash row name = slot name := by
        have free := unused _ List.mem_cons_self
        rw [gfcMapHash, if_neg (by rw [size_eq]; omega), hashed row size_eq]
        simp [maxChainLength, scan, free]
      have put : gfcMapPut (zeroFilled CText) fuel row name (some text) =
          some (gfcErrorMapOk, storeAt row (slot name) name (some text)) := by
        have valid : slot name ≠ gfcErrorMapFull := by
          unfold gfcErrorMapFull
          omega
        unfold gfcMapPut
        simp only [index, ne_eq, valid, not_false_eq_true, ↓reduceIte]
      have unused_after : ∀ column ∈ rest,
          ((storeAt row (slot name) name (some text)).data (slot column.1)).inUse = 0 := by
        intro column member
        have other : slot column.1 ≠ slot name := by
          intro same
          exact fresh (same ▸ List.mem_map_of_mem (f := fun column => slot column.1) member)
        simpa [storeAt, other] using unused_rest column member
      obtain ⟨row', done⟩ := @ih apart (storeAt row (slot name) name (some text)) size_eq
        (by simp only [storeAt]; omega) unused_after
      refine ⟨row', ?_⟩
      rw [putColumns, put]
      exact done

theorem gwSqliteCallback_newMap (fuel : Nat) (result : GfcList (GfcMap CText))
    (columns : SqliteRow) : gwSqliteCallback fuel result columns =
      (putColumns fuel columns (newMap CText)).bind fun row =>
        some (gfcListAppend (fun _ => none) result (some row)) := by
  rw [gwSqliteCallback, gfcMapNew_zeroFilled]
  rfl

/-- Columns whose chains start at different slots of a new map make a row. -/
theorem gwSqliteCallback_returns {fuel : Nat} {slot : MapKey → Nat}
    (hashed : ∀ row : GfcMap CText, row.tableSize = 256 → gfcMapHashInt row = slot)
    {columns : SqliteRow} (distinct : (columns.map fun column => slot column.1).Nodup)
    (few : columns.length < 128) (result : GfcList (GfcMap CText)) :
    ∃ result', gwSqliteCallback fuel result columns = some result' := by
  have empty : (newMap CText).size = 0 := rfl
  have half : (newMap CText).size + columns.length < 128 := by
    rw [empty]
    omega
  obtain ⟨row, put⟩ := putColumns_returns hashed distinct rfl half fun _ _ => newMap_inUse _
  rw [gwSqliteCallback_newMap, put]
  exact ⟨_, rfl⟩

/-- So a query of such rows returns. -/
theorem gwSqliteQuery_returns {fuel : Nat} {slot : MapKey → Nat}
    (hashed : ∀ row : GfcMap CText, row.tableSize = 256 → gfcMapHashInt row = slot)
    {rows : List SqliteRow}
    (distinct : ∀ columns ∈ rows, (columns.map fun column => slot column.1).Nodup)
    (few : ∀ columns ∈ rows, columns.length < 128) :
    ∃ result, gwSqliteQuery fuel rows = some (gwSqliteOk, result) := by
  have fold : ∀ result, ∃ result', rows.foldlM (gwSqliteCallback fuel) result = some result' := by
    induction rows with
    | nil => exact fun result => ⟨result, rfl⟩
    | cons columns rest ih =>
      intro result
      obtain ⟨result₁, first⟩ := gwSqliteCallback_returns hashed
        (distinct columns List.mem_cons_self) (few columns List.mem_cons_self) result
      obtain ⟨result', done⟩ := ih (fun c member => distinct c (List.mem_cons_of_mem _ member))
        (fun c member => few c (List.mem_cons_of_mem _ member)) result₁
      exact ⟨result', by rw [List.foldlM_cons, first]; exact done⟩
  obtain ⟨result, done⟩ := fold (gfcListNew fun _ => none)
  exact ⟨result, by rw [gwSqliteQuery, done]; rfl⟩

theorem gwSqliteCallback_appends {fuel : Nat} {columns : SqliteRow}
    (distinct : (columns.map Prod.fst).Nodup) {result result' : GfcList (GfcMap CText)}
    {items : List (Option (GfcMap CText))} (r : result.Represents items)
    (done : gwSqliteCallback fuel result columns = some result') :
    ∃ row, Faithful columns row ∧ result'.Represents (items ++ [some row]) := by
  rw [gwSqliteCallback_newMap] at done
  obtain ⟨row, put, done⟩ := Option.bind_eq_some_iff.mp done
  cases done
  obtain ⟨d, holds, -, cells⟩ := putColumns_holds distinct newMap_holds newMap_packed put
  refine ⟨row, fun name value member => ?_, gfcListAppend_represents r _ _⟩
  rw [gfcMapGet_eq holds, cells name value member]
  cases value <;> rfl

/-- The result list has the map of each row at the row's position. -/
theorem foldlM_gwSqliteCallback {fuel : Nat} {rows : List SqliteRow}
    (distinct : ∀ columns ∈ rows, (columns.map Prod.fst).Nodup)
    {result result' : GfcList (GfcMap CText)} {items : List (Option (GfcMap CText))}
    (r : result.Represents items)
    (done : rows.foldlM (gwSqliteCallback fuel) result = some result') :
    ∃ maps, List.Forall₂ Faithful rows maps ∧ result'.Represents (items ++ maps.map some) := by
  induction rows generalizing result items with
  | nil =>
    cases done
    exact ⟨[], .nil, by simpa using r⟩
  | cons columns rest ih =>
    rw [List.foldlM_cons] at done
    obtain ⟨result₁, callback, done⟩ := Option.bind_eq_some_iff.mp done
    obtain ⟨row, faithful, r₁⟩ :=
      gwSqliteCallback_appends (distinct columns List.mem_cons_self) r callback
    obtain ⟨maps, all, r'⟩ := ih (fun c member => distinct c (List.mem_cons_of_mem _ member)) r₁ done
    exact ⟨row :: maps, .cons faithful all, by simpa using r'⟩

theorem gwSqliteQuery_maps {fuel : Nat} {rows : List SqliteRow}
    (distinct : ∀ columns ∈ rows, (columns.map Prod.fst).Nodup) {rc : Nat}
    {list : GfcList (GfcMap CText)} (done : gwSqliteQuery fuel rows = some (rc, list)) :
    ∃ maps, List.Forall₂ Faithful rows maps ∧ list.Represents (maps.map some) := by
  obtain ⟨result, fold, done⟩ := Option.bind_eq_some_iff.mp done
  cases done
  simpa using foldlM_gwSqliteCallback distinct (gfcListNew_represents _) fold

/-- The result of a query has the rows in their order, and in the map of a row each column has its
text, or is missing where it is `NULL`. -/
theorem gwSqliteQuery_faithful {fuel : Nat} {rows : List SqliteRow}
    (distinct : ∀ columns ∈ rows, (columns.map Prod.fst).Nodup) {rc : Nat}
    {list : GfcList (GfcMap CText)} (done : gwSqliteQuery fuel rows = some (rc, list)) :
    gfcListSize list = rows.length ∧
      ∀ i (inside : i < rows.length), ∃ row, gfcListGet list i = some row ∧
        ∀ name value, (name, value) ∈ rows[i] →
          gfcMapGet row name =
            match value with
            | some text => (gfcErrorMapOk, some text)
            | none => (gfcErrorMapMissing, none) := by
  obtain ⟨maps, faithful, r⟩ := gwSqliteQuery_maps distinct done
  have length := faithful.length_eq
  refine ⟨by simpa [length, gfcListSize] using r.size_eq, fun i inside => ?_⟩
  have inside' : i < maps.length := by omega
  refine ⟨maps[i], ?_, ?_⟩
  · rw [gfcListGet_represents r, List.getElem?_map, List.getElem?_eq_getElem inside']
    rfl
  · exact List.Forall₂.get faithful inside inside'

def twoRows : List SqliteRow :=
  [[(keyG, some (.ofString "1")), (keyHJ, none)],
    [(keyG, some (.ofString "2")), (keyHJ, some (.ofString "3"))]]

theorem gwSqliteQuery_faithful_twoRows :
    ∃ rc list, gwSqliteQuery 0 twoRows = some (rc, list) ∧ gfcListSize list = twoRows.length ∧
      ∀ i (inside : i < twoRows.length), ∃ row, gfcListGet list i = some row ∧
        ∀ name value, (name, value) ∈ twoRows[i] →
          gfcMapGet row name =
            match value with
            | some text => (gfcErrorMapOk, some text)
            | none => (gfcErrorMapMissing, none) := by
  have returns : (gwSqliteQuery 0 twoRows).isSome = true := by decide +kernel
  obtain ⟨⟨rc, list⟩, done⟩ := Option.isSome_iff_exists.mp returns
  exact ⟨rc, list, done, gwSqliteQuery_faithful (by decide +kernel) done⟩

end Guardwatch
