import Guardwatch.Lib.Bytes
import Guardwatch.Lib.CString
import Mathlib.Data.List.Basic

/-! The series of samples that `gw_os_cpu` and `gw_os_memory` of `linux/gw_os.c` report. -/

namespace Guardwatch

/-- The fields of `_gw_app_settings` that name the two databases. -/
structure RrdFiles where
  cpuRrdFile : CBuffer 2048
  memRrdFile : CBuffer 2048

/-- What `rrd_fetch` returns and sets; `values` is the memory at the samples, whose numbers have the
type `rrd_value_t`. -/
structure RrdFetch (ρ : Type) where
  rc : Int
  start : Int64
  stop : Int64
  step : UInt64
  dsCnt : UInt64
  dsNames : List CText
  values : Nat → ρ

/-- The object with the arrays that is printed as JSON. -/
structure MetricSeries (ρ : Type) where
  name : Option CText
  times : List Int32
  values : List ρ

variable {ρ : Type} (isnan : ρ → Bool) (minusOne : ρ) (rrdFetch : List CText → RrdFetch ρ)

def fetchArguments (file : CText) : List CText := [
  .ofString "fetch", file, .ofString "AVERAGE",
  .ofString "--resolution", .ofString "5s",
  .ofString "--start", .ofString "now-60",
  .ofString "--end", .ofString "now"]

/-- The `int` that the loop counts to: `end - start` and what follows are `unsigned long`. -/
def sampleCount (fetch : RrdFetch ρ) : Int32 :=
  ((fetch.stop - fetch.start).toUInt64 / fetch.step - 1).toUInt32.toInt32

/-- What both functions do with the database that they read; `none` where the fetch fails and
`*result` is not set. -/
def fetchSeries (file : CText) : Option (MetricSeries ρ) :=
  let fetch := rrdFetch (fetchArguments file)
  if fetch.rc = 0 then
    let indices := List.range (sampleCount fetch).toInt.toNat
    some
      { name := fetch.dsNames[0]?
        times := indices.map fun i =>
          (fetch.start.toUInt64 + UInt64.ofNat i * fetch.step).toUInt32.toInt32
        values := indices.map fun i =>
          if !isnan (fetch.values i) then fetch.values i else minusOne }
  else none

def gwOsCpu (settings : RrdFiles) : Option (MetricSeries ρ) :=
  fetchSeries isnan minusOne rrdFetch settings.cpuRrdFile.text

def gwOsMemory (settings : RrdFiles) : Option (MetricSeries ρ) :=
  fetchSeries isnan minusOne rrdFetch settings.memRrdFile.text

/-- The result of a fetch as it is documented: one data source, and times on the grid of the
step. -/
structure RrdFetch.Documented (fetch : RrdFetch ρ) : Prop where
  succeeds : fetch.rc = 0
  one_source : fetch.dsCnt = 1 ∧ fetch.dsNames.length = 1
  step_pos : 0 < fetch.step
  start_aligned : (fetch.step.toNat : Int) ∣ fetch.start.toInt
  stop_aligned : (fetch.step.toNat : Int) ∣ fetch.stop.toInt
  start_lt : fetch.start < fetch.stop

/-- The number of samples fetched. -/
def RrdFetch.rows (fetch : RrdFetch ρ) : Nat :=
  ((fetch.stop.toInt - fetch.start.toInt) / fetch.step.toNat).toNat

/-- Every sample, in order, with the time of its row. -/
structure MetricSeries.Labels (series : MetricSeries ρ) (fetch : RrdFetch ρ) : Prop where
  times_length : series.times.length = fetch.rows
  values_length : series.values.length = fetch.rows
  times : ∀ i < fetch.rows, (series.times[i]?).map Int32.toInt =
    some (fetch.start.toInt + (i + 1) * fetch.step.toNat)
  values : ∀ i < fetch.rows, series.values[i]? =
    some (if isnan (fetch.values i) then minusOne else fetch.values i)

/-! ### The number of samples -/

theorem toInt32_toInt_le (n : UInt64) : n.toUInt32.toInt32.toInt ≤ n.toNat := by
  have toInt : n.toUInt32.toInt32.toInt = n.toUInt32.toBitVec.toInt := rfl
  have toNat : n.toUInt32.toBitVec.toNat = n.toNat % 2 ^ 32 := UInt64.toNat_toUInt32 n
  rw [toInt, BitVec.toInt_eq_toNat_cond, toNat]
  omega

theorem rows_eq {fetch : RrdFetch ρ} (documented : fetch.Documented) :
    fetch.rows = ((fetch.stop - fetch.start).toUInt64 / fetch.step).toNat := by
  have difference : ((fetch.stop - fetch.start).toUInt64.toNat : Int) =
      fetch.stop.toInt - fetch.start.toInt :=
    Bytes.toUInt64_sub_toNat (Int64.le_of_lt documented.start_lt)
  rw [RrdFetch.rows, ← difference, ← Int.natCast_ediv, Int.toNat_natCast, UInt64.toNat_div]

theorem rows_pos {fetch : RrdFetch ρ} (documented : fetch.Documented) : 0 < fetch.rows := by
  have order : fetch.start.toInt < fetch.stop.toInt := Int64.lt_iff_toInt_lt.mp documented.start_lt
  have step_pos : 0 < fetch.step.toNat := UInt64.lt_iff_toNat_lt.mp documented.step_pos
  have aligned := Int.dvd_sub documented.stop_aligned documented.start_aligned
  have least := Int.le_of_dvd (by omega) aligned
  have quotient := Int.ediv_le_ediv (Int.natCast_pos.mpr step_pos) least
  rw [Int.ediv_self (by omega)] at quotient
  rw [RrdFetch.rows]
  omega

/-- The loop stops before the last sample. -/
theorem sampleCount_lt {fetch : RrdFetch ρ} (documented : fetch.Documented) :
    (sampleCount fetch).toInt.toNat < fetch.rows := by
  have rows := rows_eq documented
  have positive := rows_pos documented
  have truncated := toInt32_toInt_le ((fetch.stop - fetch.start).toUInt64 / fetch.step - 1)
  have one : (1 : UInt64) ≤ (fetch.stop - fetch.start).toUInt64 / fetch.step := by
    rw [UInt64.le_iff_toNat_le, ← rows]
    exact positive
  rw [UInt64.toNat_sub_of_le _ _ one, ← rows] at truncated
  have : (1 : UInt64).toNat = 1 := rfl
  unfold sampleCount
  omega

theorem fetchSeries_not_labels (file : CText)
    (documented : (rrdFetch (fetchArguments file)).Documented) :
    ∃ series, fetchSeries isnan minusOne rrdFetch file = some series ∧
      ¬series.Labels isnan minusOne (rrdFetch (fetchArguments file)) := by
  refine ⟨_, if_pos documented.succeeds, fun labels => ?_⟩
  have length := labels.times_length
  rw [List.length_map, List.length_range] at length
  exact absurd length (Nat.ne_of_lt (sampleCount_lt documented))

/-- Whatever is fetched, neither function reports every sample with the time of its row. -/
theorem gwOs_not_labels (settings : RrdFiles) :
    ((rrdFetch (fetchArguments settings.cpuRrdFile.text)).Documented →
      ∃ series, gwOsCpu isnan minusOne rrdFetch settings = some series ∧
        ¬series.Labels isnan minusOne (rrdFetch (fetchArguments settings.cpuRrdFile.text))) ∧
    ((rrdFetch (fetchArguments settings.memRrdFile.text)).Documented →
      ∃ series, gwOsMemory isnan minusOne rrdFetch settings = some series ∧
        ¬series.Labels isnan minusOne (rrdFetch (fetchArguments settings.memRrdFile.text))) :=
  ⟨fetchSeries_not_labels isnan minusOne rrdFetch settings.cpuRrdFile.text,
    fetchSeries_not_labels isnan minusOne rrdFetch settings.memRrdFile.text⟩

/-- Three samples of five seconds; the numbers are percents, and `none` is not a number. -/
def threeSamples (_ : List CText) : RrdFetch (Option Int) where
  rc := 0
  start := 100
  stop := 115
  step := 5
  dsCnt := 1
  dsNames := [.ofString "CPU"]
  values i := if i = 1 then none else some 20

theorem threeSamples_documented (arguments : List CText) : (threeSamples arguments).Documented where
  succeeds := rfl
  one_source := ⟨rfl, rfl⟩
  step_pos := show (0 : UInt64) < 5 by decide
  start_aligned := ⟨20, rfl⟩
  stop_aligned := ⟨23, rfl⟩
  start_lt := show (100 : Int64) < 115 by decide

/-- The files of an agent that runs in `/`. -/
def rootFiles : RrdFiles where
  cpuRrdFile := .ofString 2048 "/rrd/cpu.rrd"
  memRrdFile := .ofString 2048 "/rrd/memory.rrd"

theorem gwOs_not_labels_three :
    (∃ series, gwOsCpu Option.isNone (some (-1)) threeSamples rootFiles = some series ∧
      ¬series.Labels Option.isNone (some (-1))
        (threeSamples (fetchArguments rootFiles.cpuRrdFile.text))) ∧
    ∃ series, gwOsMemory Option.isNone (some (-1)) threeSamples rootFiles = some series ∧
      ¬series.Labels Option.isNone (some (-1))
        (threeSamples (fetchArguments rootFiles.memRrdFile.text)) :=
  have both := gwOs_not_labels Option.isNone (some (-1)) threeSamples rootFiles
  ⟨both.1 (threeSamples_documented _), both.2 (threeSamples_documented _)⟩

/-- Of three samples two are reported, the first with the time of the row before it. -/
theorem gwOs_labels_fails :
    ¬∀ (isnan : Option Int → Bool) (minusOne : Option Int)
      (rrdFetch : List CText → RrdFetch (Option Int)) (settings : RrdFiles),
      (rrdFetch (fetchArguments settings.cpuRrdFile.text)).Documented →
        ∃ series, gwOsCpu isnan minusOne rrdFetch settings = some series ∧
          series.Labels isnan minusOne (rrdFetch (fetchArguments settings.cpuRrdFile.text)) := by
  intro every
  obtain ⟨series, fetched, labels⟩ := every Option.isNone (some (-1)) threeSamples rootFiles
    (threeSamples_documented _)
  have times : series.times = [100, 105] := by
    cases fetched
    decide +kernel
  have first := labels.times 0 (by decide)
  rw [times] at first
  exact absurd first (by decide)

end Guardwatch
