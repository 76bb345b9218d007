import Guardwatch.Mustach.Inline

/-! The statements of `gw_sqlite.c` for the settings, and `gw_sql_get`. -/

namespace Guardwatch.Mustach

open CInput

/-- A name in braces, behind a mark. -/
def tripleBraces (name : List UInt8) : List UInt8 := [123, 123, 123] ++ name ++ [125, 125, 125]

def sectionTag (mark : UInt8) (name : List UInt8) : List UInt8 :=
  opening ++ mark :: name ++ closing

def stgcd : List UInt8 := CText.utf8 "stgcd"

/-- The columns of a setting. -/
def settingNames : List (List UInt8) :=
  ["stgcd", "stgnm", "stgtyp", "val", "opt", "nt", "sta", "lmt"].map CText.utf8

def gwSqlSettingInsert : CText where
  bytes := CText.utf8 "insert into tn_gw_stg (" ++
    CText.utf8 "  stgcd, stgnm, stgtyp, val, opt, nt, sta, lmt" ++ CText.utf8 ") values (" ++
    CText.utf8 "  " ++ (CText.utf8 ", ").intercalate (settingNames.map tripleBraces) ++
    CText.utf8 " " ++ CText.utf8 ")"
  nulFree := by decide +kernel

def gwSqlSettingUpdate : CText where
  bytes := CText.utf8 "update tn_gw_stg " ++ CText.utf8 "set    " ++
    (CText.utf8 ", ").intercalate
      (settingNames.map fun name => name ++ CText.utf8 " = " ++ tripleBraces name) ++
    CText.utf8 " " ++ CText.utf8 "where  stgcd = " ++ tripleBraces stgcd
  nulFree := by decide +kernel

def gwSqlSettingDelete : CText where
  bytes := CText.utf8 "delete from tn_gw_stg \n" ++ CText.utf8 "where  stgcd = " ++
    tripleBraces stgcd ++ CText.utf8 "\n"
  nulFree := by decide +kernel

def gwSqlSettingFind : CText where
  bytes := CText.utf8 "select stgcd, stgnm, stgtyp, val, opt, nt, sta, lmt " ++
    CText.utf8 "from   tn_gw_stg " ++ CText.utf8 "where  1 = 1 " ++ sectionTag 35 stgcd ++
    CText.utf8 "and    stgcd = " ++ tripleBraces stgcd ++ CText.utf8 " " ++ sectionTag 47 stgcd
  nulFree := by decide +kernel

def settingStatements : List CText :=
  [gwSqlSettingInsert, gwSqlSettingUpdate, gwSqlSettingDelete, gwSqlSettingFind]

variable {α : Type}

/-- `gw_sql_get`, with the text and the return code in one; `params` is what json-c reads in a
text, a null where it is no JSON. -/
def gwSqlGet (json : JsonC α) (files : List UInt8 → Option (List UInt8)) (params : CText → α)
    (fuel : Nat) (tpl jsonParams : CText) : Option (Except MustachError (List UInt8)) :=
  mustachJsonCMem json files fuel tpl.bytes (params jsonParams)

theorem settingStatements_trees : ∀ tpl ∈ settingStatements,
    (Body.ofTemplate noExtensions tpl.bytes).inline false ∧
      (Body.ofTemplate noExtensions tpl.bytes).clean ∧
      (Body.ofTemplate noExtensions tpl.bytes).nesting ≤ 1 := by
  decide +kernel

/-- For all parameters, each statement is its template with the values in the places of their
names, and there are no errors. -/
theorem gwSqlGet_statements (json : JsonC α) (files : List UInt8 → Option (List UInt8))
    (params : CText → α) (jsonParams : CText) :
    ∀ tpl ∈ settingStatements, ∃ fuel sql,
      gwSqlGet json files params fuel tpl jsonParams = some (.ok sql) ∧
      (Body.ofTemplate noExtensions tpl.bytes).expand json [params jsonParams] =
        some (.ok sql) := by
  intro tpl member
  obtain ⟨isInline, clean, shallow⟩ := settingStatements_trees tpl member
  exact inline_returns files isInline clean (Nat.add_le_add_left shallow 1 |>.trans (by decide))

theorem gwSqlGet_statements_find :
    ∃ fuel sql,
      gwSqlGet stringValues (fun _ => none) CText.bytes fuel gwSqlSettingFind (CText.concat []) =
        some (.ok sql) ∧
      (Body.ofTemplate noExtensions gwSqlSettingFind.bytes).expand stringValues
        [(CText.concat []).bytes] = some (.ok sql) :=
  gwSqlGet_statements stringValues (fun _ => none) CText.bytes (CText.concat []) gwSqlSettingFind
    (by simp [settingStatements])

theorem gwSqlSettingFind_tree : Body.ofTemplate noExtensions gwSqlSettingFind.bytes =
    .nested (CText.utf8 "select stgcd, stgnm, stgtyp, val, opt, nt, sta, lmt " ++
        CText.utf8 "from   tn_gw_stg " ++ CText.utf8 "where  1 = 1 ") false stgcd
      (.replacement (CText.utf8 "and    stgcd = ") stgcd false (.close (CText.utf8 " ")))
      (.finish []) := by
  decide +kernel

theorem expand_condition {json : JsonC α} {text name behind : List UInt8} {root : α} :
    (fun value => (Body.replacement text name false (.close behind)).expand json [value, root]) =
      fun value =>
        some (.ok (text ++ (getoptional json [value, root] name).getD [] ++ behind)) := by
  funext value
  rw [List.append_assoc]
  rfl

/-- The query for settings has a condition for each value of the parameter. -/
theorem gwSqlGet_find (json : JsonC α) (files : List UInt8 → Option (List UInt8))
    (params : CText → α) (jsonParams : CText) :
    ∃ fuel, gwSqlGet json files params fuel gwSqlSettingFind jsonParams =
      some (.ok (CText.utf8 "select stgcd, stgnm, stgtyp, val, opt, nt, sta, lmt " ++
        CText.utf8 "from   tn_gw_stg " ++ CText.utf8 "where  1 = 1 " ++
        (((select json [params jsonParams] stgcd).elim [] (instances json)).flatMap fun value =>
          CText.utf8 "and    stgcd = " ++
            (getoptional json [value, params jsonParams] stgcd).getD [] ++ CText.utf8 " "))) := by
  obtain ⟨isInline, clean, shallow⟩ :=
    settingStatements_trees gwSqlSettingFind (by simp [settingStatements])
  obtain ⟨fuel, sql, returns, expand⟩ := @inline_returns _ json files _ (params jsonParams) isInline
    clean (Nat.add_le_add_left shallow 1 |>.trans (by decide))
  refine ⟨fuel, returns.trans ?_⟩
  have found : sectionObjs json [params jsonParams] stgcd =
      .ok ((select json [params jsonParams] stgcd).elim [] (instances json)) := by
    rw [sectionObjs]
    cases select json [params jsonParams] stgcd <;> rfl
  rw [gwSqlSettingFind_tree, Body.expand, found] at expand
  rw [← expand]
  cases (select json [params jsonParams] stgcd).elim [] (instances json) with
  | nil => rfl
  | cons first more =>
    rw [show (Body.finish []).expand json [params jsonParams] = some (.ok []) from rfl]
    simp only [List.isEmpty_cons, if_true, Bool.false_eq_true, if_false, expand_condition, all_ok]
    rw [Expansion.andThen]
    simp only [Expansion.andThen, Option.map_some, Except.map, List.append_nil]

end Guardwatch.Mustach
