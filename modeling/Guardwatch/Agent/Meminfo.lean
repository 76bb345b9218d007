import Guardwatch.Agent.Metrics
import Guardwatch.Lib.CInput
import Mathlib.Algebra.Order.Field.Rat
import Mathlib.Tactic.Positivity

/-! The percentage of used memory that `gw_os_memory_monitor` of `linux/gw_os.c` computes from
`/proc/meminfo`. -/

namespace Guardwatch

open Bytes CInput

def colon : UInt8 := 58

/-- `"MemTotal"` and `"MemFree"`. -/
def memTotal : List UInt8 := CText.utf8 "MemTotal"

def memFree : List UInt8 := CText.utf8 "MemFree"

/-- The loop over the lines that are read, with the strings `line_total` and `line_free`. -/
def scanMeminfo : (lines : List (List UInt8)) → (lineTotal lineFree : List UInt8) →
    List UInt8 × List UInt8
  | [], lineTotal, lineFree => (lineTotal, lineFree)
  | line :: lines, lineTotal, lineFree =>
    if lineTotal ≠ [] ∧ lineFree ≠ [] then (lineTotal, lineFree)
    else
      let line := cString line
      scanMeminfo lines
        (if (strstr memTotal line).isSome then line else lineTotal)
        (if (strstr memFree line).isSome then line else lineFree)

/-- The number behind the colon, and `none` where there is no colon. -/
def numberOf (line : List UInt8) : Option Int := do
  let token ← strstr [colon] line
  atoi (token.drop 1)

/-- The update of a database with a percentage, before it is rounded to `N:%.2f`; `none` is one that
is not finite. -/
structure RrdUpdate where
  rrdFile : CText
  percent : Option Rat

/-- What `rrd_update` is called with; `none` is a call that is undefined. The product of an `int`
and 100 is a `double`, and only the division rounds. -/
def gwOsMemoryMonitor (settings : RrdFiles) (meminfo : List UInt8) : Option RrdUpdate := do
  let (lineTotal, lineFree) := scanMeminfo (fgetsAll 4096 [] meminfo) [] []
  let totalMem ← numberOf lineTotal
  let freeMem ← numberOf lineFree
  let used ← toInt (totalMem - freeMem)
  some
    { rrdFile := settings.memRrdFile.text
      percent := if totalMem = 0 then none else some ((used : Rat) * 100 / totalMem) }

/-- A line of the form `name: spaces decimal kB` with the word in its name. -/
def UsualLine (word : List UInt8) (value : Nat) (line : List UInt8) : Prop :=
  ∃ name spaces digits, word <:+: name ∧ colon ∉ name ∧ 0 ∉ name ∧
    digits ≠ [] ∧ (∀ d ∈ digits, isdigit d = true) ∧ decimal digits = value ∧
    line = name ++ colon :: (List.replicate spaces 32 ++ (digits ++ CText.utf8 " kB"))

/-- The word occurs in one line, which has the usual form. -/
def OccursOnce (word : List UInt8) (value : Nat) (meminfo : List UInt8) : Prop :=
  ∃ line, (meminfo.splitOn newline).filter (word <:+: ·) = [line] ∧ UsualLine word value line

/-- A content of `/proc/meminfo` with the two numbers of kilobytes. -/
structure Meminfo (meminfo : List UInt8) (total free : Nat) : Prop where
  short : ∀ line ∈ meminfo.splitOn newline, line.length < 4096
  total_once : OccursOnce memTotal total meminfo
  free_once : OccursOnce memFree free meminfo
  free_le : free ≤ total
  total_pos : 0 < total
  total_lt : total < 2 ^ 63

/-- The percentage is the exact one. -/
def PercentExact (settings : RrdFiles) (meminfo : List UInt8) (total free : Nat) : Prop :=
  ∃ update percent, gwOsMemoryMonitor settings meminfo = some update ∧
    update.percent = some percent ∧ percent = ((total : Rat) - free) * 100 / total ∧
      0 ≤ percent ∧ percent ≤ 100

variable {meminfo word kept line read back : List UInt8} {lines : List (List UInt8)} {value : Nat}

/-! ### Lines -/

/-- The test of the loop for a word. -/
def finds (word line : List UInt8) : Bool := (strstr word (cString line)).isSome

theorem finds_iff : finds word line = true ↔ word <:+: cString line := strstr_isSome

theorem numberOf_usual (usual : UsualLine word value line) (back : List UInt8) :
    numberOf (line ++ back) = toInt value := by
  obtain ⟨name, spaces, digits, -, clean, -, nonempty, all, rfl, rfl⟩ := usual
  have unit : CText.utf8 " kB" = [32, 107, 66] := by decide +kernel
  have behind :
      name ++ colon :: (List.replicate spaces 32 ++ (digits ++ CText.utf8 " kB")) ++ back =
        name ++ colon :: (List.replicate spaces 32 ++ (digits ++ 32 :: (107 :: 66 :: back))) := by
    simp [unit]
  rw [numberOf, behind, strstr_byte clean]
  exact atoi_digits spaces all nonempty rfl

theorem usual_nulFree (usual : UsualLine word value line) : 0 ∉ line := by
  obtain ⟨name, spaces, digits, -, -, nulFree, -, all, rfl, rfl⟩ := usual
  have unit : CText.utf8 " kB" = [32, 107, 66] := by decide +kernel
  have number : 0 ∉ digits := by
    intro member
    exact absurd (all 0 member) (by decide)
  simp [unit, nulFree, number, colon]

/-- The line of a word is read once, and the number behind its colon is that of the line. -/
theorem read_once (once : OccursOnce word value meminfo)
    (short : ∀ line ∈ meminfo.splitOn newline, line.length < 4096) (nonempty : word ≠ [])
    (clean : newline ∉ word) :
    ∃ read, (fgetsAll 4096 [] meminfo).filter (finds word) = [read] ∧
      numberOf (cString read) = toInt value := by
  obtain ⟨line, occurs, usual⟩ := once
  have nulFree := usual_nulFree usual
  have empty : finds word [] = false := by
    rw [Bool.eq_false_iff, ne_eq, finds_iff]
    exact mt List.eq_nil_of_infix_nil nonempty
  have ended : ∀ line, finds word (line ++ [newline]) = finds word line := by
    intro line
    rw [Bool.eq_iff_iff, finds_iff, finds_iff]
    exact infix_newline clean nonempty line
  -- The test looks at the part of a line in front of a NUL only.
  have found : (meminfo.splitOn newline).filter (finds word) = [line] := by
    have member : line ∈ (meminfo.splitOn newline).filter (word <:+: ·) := by
      rw [occurs]
      exact List.mem_cons_self
    have inside := of_decide_eq_true (List.mem_filter.mp member).2
    have narrower : ∀ l, finds word l = (finds word l && decide (word <:+: l)) := by
      intro l
      cases at_l : finds word l with
      | false => rfl
      | true =>
        have within := (finds_iff.mp at_l).trans (cString_within l)
        simp [within]
    rw [funext narrower, ← List.filter_filter, occurs, List.filter_cons, if_pos]
    · rfl
    · rw [finds_iff, cString_self nulFree]
      exact inside
  have reads := fgetsAll_filter empty ended meminfo short
  rw [found] at reads
  obtain ⟨read, rest, same, none, split⟩ := List.forall₂_cons_left_iff.mp reads
  rw [List.forall₂_nil_left_iff] at none
  refine ⟨read, by rw [split, none], ?_⟩
  rcases same with rfl | rfl
  · rw [cString_self nulFree, ← numberOf_usual usual [], List.append_nil]
  · rw [cString_nulFree nulFree]
    exact numberOf_usual usual _

/-! ### The loop -/

/-- The line of a word is still to be read, or it has been kept and is not to come again. -/
def Pending (word kept read : List UInt8) (lines : List (List UInt8)) : Prop :=
  kept = [] ∧ lines.filter (finds word) = [read] ∨
    kept = cString read ∧ lines.filter (finds word) = []

theorem Pending.next (pending : Pending word kept read (line :: lines)) :
    Pending word (if finds word line then cString line else kept) read lines := by
  unfold Pending at pending ⊢
  rw [List.filter_cons] at pending
  by_cases found : finds word line = true
  · rw [if_pos found] at pending ⊢
    rcases pending with ⟨-, first⟩ | ⟨-, none⟩
    · obtain ⟨rfl, rest⟩ := List.cons.inj first
      exact .inr ⟨rfl, rest⟩
    · cases none
  · rwa [if_neg found] at pending ⊢

/-- The line after the two words have been found is read and left. -/
theorem scanMeminfo_pending {lineTotal lineFree total free : List UInt8}
    (total_pending : Pending memTotal lineTotal total lines)
    (free_pending : Pending memFree lineFree free lines) :
    scanMeminfo lines lineTotal lineFree = (cString total, cString free) := by
  induction lines generalizing lineTotal lineFree with
  | nil =>
    rcases total_pending with ⟨-, none⟩ | ⟨rfl, -⟩
    · cases none
    · rcases free_pending with ⟨-, none⟩ | ⟨rfl, -⟩
      · cases none
      · rfl
  | cons line lines ih =>
    rw [scanMeminfo]
    split
    · rename_i both
      rcases total_pending with ⟨empty, -⟩ | ⟨rfl, -⟩
      · exact absurd empty both.1
      · rcases free_pending with ⟨empty, -⟩ | ⟨rfl, -⟩
        · exact absurd empty both.2
        · rfl
    · exact ih total_pending.next free_pending.next

/-! ### The percentage -/

theorem percent_bounds {total free : Nat} (less : free ≤ total) (positive : 0 < total) :
    0 ≤ ((total : Rat) - free) * 100 / total ∧ ((total : Rat) - free) * 100 / total ≤ 100 := by
  have total_pos : (0 : Rat) < total := Nat.cast_pos.mpr positive
  have difference : (0 : Rat) ≤ total - free := sub_nonneg.mpr (Nat.cast_le.mpr less)
  constructor
  · positivity
  · rw [div_le_iff₀ total_pos, mul_comm]
    have free_nonneg : (0 : Rat) ≤ free := Nat.cast_nonneg free
    exact mul_le_mul_of_nonneg_left (sub_le_self _ free_nonneg) (by norm_num)

theorem gwOsMemoryMonitor_eq {total free : Nat} (form : Meminfo meminfo total free)
    (settings : RrdFiles) :
    gwOsMemoryMonitor settings meminfo =
      if total < 2 ^ 31 then
        some ⟨settings.memRrdFile.text, some (((total : Rat) - free) * 100 / total)⟩
      else none := by
  obtain ⟨read_total, total_read, total_number⟩ :=
    read_once form.total_once form.short (by decide +kernel) (by decide +kernel)
  obtain ⟨read_free, free_read, free_number⟩ :=
    read_once form.free_once form.short (by decide +kernel) (by decide +kernel)
  have scanned := scanMeminfo_pending (.inl ⟨rfl, total_read⟩) (.inl ⟨rfl, free_read⟩)
  rw [gwOsMemoryMonitor, scanned]
  dsimp only
  rw [total_number, free_number]
  have less := form.free_le
  have positive := form.total_pos
  by_cases small : total < 2 ^ 31
  · have used : toInt ((total : Int) - free) = some ((total : Int) - free) :=
      if_pos ⟨by omega, by omega⟩
    rw [if_pos small, toInt_of_lt small, toInt_of_lt (Nat.lt_of_le_of_lt less small)]
    simp only [Option.bind_eq_bind, Option.pure_def, Option.bind_some, used]
    rw [if_neg (by omega)]
    push_cast
    rfl
  · rw [if_neg small, toInt_of_ge (Nat.le_of_not_lt small)]
    rfl

/-- The percentage is exact if and only if the number of kilobytes is one of an `int`. -/
theorem percentExact_iff {total free : Nat} (form : Meminfo meminfo total free)
    (settings : RrdFiles) : PercentExact settings meminfo total free ↔ total < 2 ^ 31 := by
  obtain ⟨least, most⟩ := percent_bounds form.free_le form.total_pos
  rw [PercentExact, gwOsMemoryMonitor_eq form]
  constructor
  · rintro ⟨update, percent, called, -⟩
    by_contra large
    rw [if_neg large] at called
    cases called
  · intro small
    rw [if_pos small]
    exact ⟨_, _, rfl, rfl, rfl, least, most⟩

/-- The free memory first, and another line of memory. -/
def smallMeminfo : List UInt8 :=
  CText.utf8 "MemFree:    500 kB\nMemAvailable:    900 kB\nMemTotal:   2000 kB"

theorem smallMeminfo_form : Meminfo smallMeminfo 2000 500 where
  short := by decide +kernel
  total_once := ⟨CText.utf8 "MemTotal:   2000 kB", by decide +kernel,
    memTotal, 3, CText.utf8 "2000", by decide +kernel⟩
  free_once := ⟨CText.utf8 "MemFree:    500 kB", by decide +kernel,
    memFree, 4, CText.utf8 "500", by decide +kernel⟩
  free_le := by decide
  total_pos := by decide
  total_lt := by decide

theorem percentExact_iff_small : PercentExact rootFiles smallMeminfo 2000 500 :=
  (percentExact_iff smallMeminfo_form rootFiles).mpr (by decide)

/-- The memory of a server with 3 terabytes, a third of it free. -/
def largeMeminfo : List UInt8 := CText.utf8 "MemTotal: 3000000000 kB\nMemFree: 1000000000 kB\n"

theorem largeMeminfo_form : Meminfo largeMeminfo 3000000000 1000000000 where
  short := by decide +kernel
  total_once := ⟨CText.utf8 "MemTotal: 3000000000 kB", by decide +kernel,
    memTotal, 1, CText.utf8 "3000000000", by decide +kernel⟩
  free_once := ⟨CText.utf8 "MemFree: 1000000000 kB", by decide +kernel,
    memFree, 1, CText.utf8 "1000000000", by decide +kernel⟩
  free_le := by decide
  total_pos := by decide
  total_lt := by decide

/-- The number of kilobytes is not one of an `int`. -/
theorem percentExact_fails :
    ¬∀ (settings : RrdFiles) (meminfo : List UInt8) (total free : Nat),
      Meminfo meminfo total free → PercentExact settings meminfo total free := by
  intro every
  obtain ⟨update, percent, called, -⟩ := every rootFiles largeMeminfo _ _ largeMeminfo_form
  have undefined : (gwOsMemoryMonitor rootFiles largeMeminfo).isNone = true := by decide +kernel
  rw [called] at undefined
  cases undefined

end Guardwatch
