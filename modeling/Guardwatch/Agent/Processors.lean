import Guardwatch.Lib.Bytes
import Mathlib.Logic.Function.Basic

/-! The processor times that `gw_os_cpu` of `windows/gw_os.c` reports: the differences of counters
between two calls, with the last counters of each core in static arrays. -/

namespace Guardwatch.Windows

/-- The counters of a core in `SYSTEM_PROCESSOR_PERFORMANCE_INFORMATION`. -/
structure ProcessorTimes where
  idleTime : Int64
  kernelTime : Int64
  userTime : Int64

/-- The static arrays, which have 32 entries each. -/
structure CpuHistory where
  sysIdleOld : Fin 32 → UInt64
  sysKernelOld : Fin 32 → UInt64
  sysUserOld : Fin 32 → UInt64

/-- The arrays before the first call. -/
def CpuHistory.zero : CpuHistory := ⟨fun _ => 0, fun _ => 0, fun _ => 0⟩

/-- The object for a core, with its numbers before they are made `double`. -/
structure CpuRow where
  processed : UInt64
  total : UInt64

/-- The object that is printed as JSON. -/
structure CpuUsage where
  data : List CpuRow
  accum : Float32

/-- A turn of the loop for a core whose index is inside the arrays. -/
def sampleCore (history : CpuHistory) (ii : Fin 32) (spi : ProcessorTimes) :
    CpuRow × CpuHistory :=
  let sysIdle := spi.idleTime.toUInt64
  let sysKernel := spi.kernelTime.toUInt64
  let sysUser := spi.userTime.toUInt64
  let kernelTime := sysKernel - history.sysKernelOld ii
  let usertime := sysUser - history.sysUserOld ii
  let idletime := sysIdle - history.sysIdleOld ii
  ({ processed := kernelTime + usertime - idletime, total := kernelTime + usertime },
    { sysKernelOld := Function.update history.sysKernelOld ii sysKernel
      sysUserOld := Function.update history.sysUserOld ii sysUser
      sysIdleOld := Function.update history.sysIdleOld ii sysIdle })

/-- The loop from the core `ii` on, and `none` where it leaves the arrays. -/
def sampleCores : (ii : Nat) → List ProcessorTimes → CpuHistory →
    Option (List CpuRow × CpuHistory)
  | _, [], history => some ([], history)
  | ii, spi :: rest, history =>
    if inside : ii < 32 then do
      let (row, history) := sampleCore history ⟨ii, inside⟩ spi
      let (rows, history) ← sampleCores (ii + 1) rest history
      some (row :: rows, history)
    else none

/-- `usage` for a core. -/
def CpuRow.usage (row : CpuRow) : Float32 :=
  (row.processed * 100).toFloat32 / row.total.toFloat32

/-- `spi` has the entries that the system returns for its cores: `number_of_cores` is their
number. -/
def gwOsCpu (history : CpuHistory) (spi : List ProcessorTimes) :
    Option (CpuUsage × CpuHistory) := do
  let (rows, history) ← sampleCores 0 spi history
  let usageAccum := rows.foldl (fun accum row => accum + row.usage) (0 : UInt64).toFloat32
  let usageAccum := usageAccum / (Int32.ofNat spi.length).toFloat32
  some ({ data := rows, accum := usageAccum }, history)

/-! ### Runs -/

def ProcessorTimes.zero : ProcessorTimes := ⟨0, 0, 0⟩

/-- The counters that were reported last for each core, those of the sample included. -/
def reported (last : Nat → ProcessorTimes) (spi : List ProcessorTimes) (ii : Nat) :
    ProcessorTimes := spi[ii]?.getD (last ii)

/-- No counter decreases, and the time in the kernel includes the idle time. -/
structure Grows (last spi : ProcessorTimes) : Prop where
  idle : last.idleTime ≤ spi.idleTime
  kernel : last.kernelTime ≤ spi.kernelTime
  user : last.userTime ≤ spi.userTime
  includes : spi.idleTime.toInt - last.idleTime.toInt ≤ spi.kernelTime.toInt - last.kernelTime.toInt

instance (last spi : ProcessorTimes) : Decidable (Grows last spi) :=
  decidable_of_iff (last.idleTime ≤ spi.idleTime ∧ last.kernelTime ≤ spi.kernelTime ∧
      last.userTime ≤ spi.userTime ∧
        spi.idleTime.toInt - last.idleTime.toInt ≤ spi.kernelTime.toInt - last.kernelTime.toInt)
    ⟨fun ⟨idle, kernel, user, includes⟩ => ⟨idle, kernel, user, includes⟩,
      fun ⟨idle, kernel, user, includes⟩ => ⟨idle, kernel, user, includes⟩⟩

/-- The counters grow from each sample to the next one. -/
def Growing : (last : Nat → ProcessorTimes) → List (List ProcessorTimes) → Prop
  | _, [] => True
  | last, spi :: samples =>
    (∀ ii (inside : ii < spi.length), Grows (last ii) spi[ii]) ∧
      Growing (reported last spi) samples

instance Growing.decidable : ∀ (last : Nat → ProcessorTimes) (samples : List (List ProcessorTimes)),
    Decidable (Growing last samples)
  | _, [] => .isTrue trivial
  | last, spi :: samples =>
    have : Decidable (Growing (reported last spi) samples) := Growing.decidable _ samples
    inferInstanceAs (Decidable (_ ∧ Growing (reported last spi) samples))

/-- The numbers of a core are those of the unbounded integers, and in order. -/
structure RowExact (last spi : ProcessorTimes) (row : CpuRow) : Prop where
  total : (row.total.toNat : Int) = (spi.kernelTime.toInt - last.kernelTime.toInt) +
    (spi.userTime.toInt - last.userTime.toInt)
  processed : (row.processed.toNat : Int) =
    row.total.toNat - (spi.idleTime.toInt - last.idleTime.toInt)
  ordered : row.processed ≤ row.total

/-- There is a row for each core, and it is exact. -/
structure RowsExact (last : Nat → ProcessorTimes) (spi : List ProcessorTimes)
    (rows : List CpuRow) : Prop where
  length : rows.length = spi.length
  exact : ∀ ii core row, spi[ii]? = some core → rows[ii]? = some row → RowExact (last ii) core row

/-- Every call stays inside the arrays and reports exact rows. -/
def SamplesExact : CpuHistory → (last : Nat → ProcessorTimes) → List (List ProcessorTimes) → Prop
  | _, _, [] => True
  | history, last, spi :: samples =>
    ∃ usage history', gwOsCpu history spi = some (usage, history') ∧
      RowsExact last spi usage.data ∧ SamplesExact history' (reported last spi) samples

variable {history history' : CpuHistory} {last : Nat → ProcessorTimes} {core : ProcessorTimes}
  {spi : List ProcessorTimes} {rows : List CpuRow} {ii : Nat}

/-- The arrays hold the counters that were reported last, which are not negative. -/
structure Tracks (history : CpuHistory) (last : Nat → ProcessorTimes) : Prop where
  idle : ∀ ii, history.sysIdleOld ii = (last ii).idleTime.toUInt64
  kernel : ∀ ii, history.sysKernelOld ii = (last ii).kernelTime.toUInt64
  user : ∀ ii, history.sysUserOld ii = (last ii).userTime.toUInt64
  kernel_nonneg : ∀ ii, 0 ≤ (last ii).kernelTime
  user_nonneg : ∀ ii, 0 ≤ (last ii).userTime

theorem tracks_zero : Tracks .zero fun _ => .zero :=
  ⟨fun _ => rfl, fun _ => rfl, fun _ => rfl, fun _ => Int64.le_refl 0, fun _ => Int64.le_refl 0⟩

/-! ### A core -/

theorem counter_lt {a b : Int64} (nonneg : 0 ≤ a) (order : a ≤ b) :
    0 ≤ b.toInt - a.toInt ∧ b.toInt - a.toInt < 2 ^ 63 := by
  have start : 0 ≤ a.toInt := Int64.le_iff_toInt_le.mp nonneg
  have order : a.toInt ≤ b.toInt := Int64.le_iff_toInt_le.mp order
  have bound := b.toInt_lt
  omega

/-- Two increments of counters have a sum of 64 bits, and the idle time is inside of it. -/
theorem sampleCore_exact (tracks : Tracks history last) (ii : Fin 32)
    (grows : Grows (last ii) core) : RowExact (last ii) core (sampleCore history ii core).1 := by
  obtain ⟨kernel_pos, kernel_lt⟩ := counter_lt (tracks.kernel_nonneg ii) grows.kernel
  obtain ⟨user_pos, user_lt⟩ := counter_lt (tracks.user_nonneg ii) grows.user
  have kernel := Bytes.toUInt64_sub_toNat grows.kernel
  have user := Bytes.toUInt64_sub_toNat grows.user
  have idle := Bytes.toUInt64_sub_toNat grows.idle
  have includes := grows.includes
  rw [← tracks.kernel ii] at kernel
  rw [← tracks.user ii] at user
  rw [← tracks.idle ii] at idle
  unfold sampleCore
  dsimp only
  generalize core.kernelTime.toUInt64 - history.sysKernelOld ii = kernelTime at kernel
  generalize core.userTime.toUInt64 - history.sysUserOld ii = usertime at user
  generalize core.idleTime.toUInt64 - history.sysIdleOld ii = idletime at idle
  have total : (kernelTime + usertime).toNat = kernelTime.toNat + usertime.toNat := by
    rw [UInt64.toNat_add, Nat.mod_eq_of_lt (by omega)]
  have inside : idletime ≤ kernelTime + usertime := by
    rw [UInt64.le_iff_toNat_le, total]
    omega
  have processed := UInt64.toNat_sub_of_le _ _ inside
  constructor
  case total =>
    show ((kernelTime + usertime).toNat : Int) = _
    omega
  case processed =>
    show ((kernelTime + usertime - idletime).toNat : Int) = (kernelTime + usertime).toNat - _
    omega
  case ordered =>
    show kernelTime + usertime - idletime ≤ kernelTime + usertime
    rw [UInt64.le_iff_toNat_le, processed]
    exact Nat.sub_le _ _

/-- After the turn for a core the arrays hold its counters. -/
theorem Tracks.sampleCore (tracks : Tracks history last) (ii : Fin 32)
    (grows : Grows (last ii) core) :
    Tracks (sampleCore history ii core).2 (Function.update last ii core) := by
  have moved : ∀ jj : Fin 32, (jj : Nat) = ii ↔ jj = ii := fun jj => Fin.val_inj
  unfold Windows.sampleCore
  constructor
  case idle =>
    intro jj
    simp only [Function.update_apply, moved, tracks.idle]
    split <;> rfl
  case kernel =>
    intro jj
    simp only [Function.update_apply, moved, tracks.kernel]
    split <;> rfl
  case user =>
    intro jj
    simp only [Function.update_apply, moved, tracks.user]
    split <;> rfl
  case kernel_nonneg =>
    intro jj
    rw [Function.update_apply]
    split
    · exact Int64.le_trans (tracks.kernel_nonneg ii) grows.kernel
    · exact tracks.kernel_nonneg jj
  case user_nonneg =>
    intro jj
    rw [Function.update_apply]
    split
    · exact Int64.le_trans (tracks.user_nonneg ii) grows.user
    · exact tracks.user_nonneg jj

/-! ### A call -/

/-- The counters that were reported last once the loop is through, from the core `ii` on. -/
def reportedFrom (ii : Nat) (last : Nat → ProcessorTimes) (spi : List ProcessorTimes) (jj : Nat) :
    ProcessorTimes := if jj < ii then last jj else spi[jj - ii]?.getD (last jj)

theorem reportedFrom_cons (ii : Nat) (last : Nat → ProcessorTimes) (core : ProcessorTimes)
    (spi : List ProcessorTimes) :
    reportedFrom (ii + 1) (Function.update last ii core) spi =
      reportedFrom ii last (core :: spi) := by
  funext jj
  unfold reportedFrom
  rcases Nat.lt_trichotomy jj ii with before | rfl | behind
  · simp [before, Nat.lt_succ_of_lt before, Nat.ne_of_lt before]
  · simp
  · obtain ⟨k, rfl⟩ := Nat.exists_eq_add_of_lt behind
    have other : ii + k + 1 ≠ ii := by omega
    have index : ii + k + 1 - ii = k + 1 := by omega
    have index' : ii + k + 1 - (ii + 1) = k := by omega
    simp [Nat.not_lt_of_gt behind, show ¬ii + k + 1 < ii + 1 by omega, other, index, index']

theorem sampleCores_inside (here : ii < 32) :
    sampleCores ii (core :: spi) history =
      (sampleCores (ii + 1) spi (sampleCore history ⟨ii, here⟩ core).2).map fun sampled =>
        ((sampleCore history ⟨ii, here⟩ core).1 :: sampled.1, sampled.2) := by
  rw [sampleCores, dif_pos here]
  generalize sampleCore history ⟨ii, here⟩ core = sampled
  obtain ⟨row, history⟩ := sampled
  cases at_rest : sampleCores (ii + 1) spi history <;> simp [at_rest]

theorem sampleCores_exact (tracks : Tracks history last)
    (grows : ∀ k (inside : k < spi.length), Grows (last (ii + k)) spi[k])
    (inside : ii + spi.length ≤ 32) :
    ∃ rows history', sampleCores ii spi history = some (rows, history') ∧
      RowsExact (fun k => last (ii + k)) spi rows ∧
        Tracks history' (reportedFrom ii last spi) := by
  induction spi generalizing ii history last with
  | nil =>
    refine ⟨[], history, rfl, ⟨rfl, nofun⟩, ?_⟩
    have same : reportedFrom ii last [] = last := by
      funext jj
      simp [reportedFrom]
    rwa [same]
  | cons core spi ih =>
    rw [List.length_cons] at inside
    have here : ii < 32 := by omega
    have first : Grows (last ii) core := grows 0 (Nat.succ_pos _)
    have later : ∀ k (inside : k < spi.length),
        Grows (Function.update last ii core (ii + 1 + k)) spi[k] := by
      intro k inside
      rw [Function.update_of_ne (by omega), Nat.add_assoc, Nat.add_comm 1]
      exact grows (k + 1) (Nat.succ_lt_succ inside)
    obtain ⟨rows, history', sampled, exact_rows, tracks'⟩ :=
      ih (tracks.sampleCore ⟨ii, here⟩ first) later (by omega)
    refine ⟨(sampleCore history ⟨ii, here⟩ core).1 :: rows, history', ?_, ?_, ?_⟩
    · rw [sampleCores_inside here, sampled]
      rfl
    · refine ⟨congrArg Nat.succ exact_rows.length, fun k core' row at_spi at_rows => ?_⟩
      cases k with
      | zero =>
        cases at_spi
        cases at_rows
        exact sampleCore_exact tracks ⟨ii, here⟩ first
      | succ k =>
        have exact_row := exact_rows.exact k core' row at_spi at_rows
        have other : ii + 1 + k ≠ ii := by omega
        rwa [Function.update_of_ne other, Nat.add_assoc, Nat.add_comm 1] at exact_row
    · rwa [← reportedFrom_cons]

theorem sampleCores_none (small : ii ≤ 32) (outside : 32 < ii + spi.length) :
    sampleCores ii spi history = none := by
  induction spi generalizing ii history with
  | nil => exact absurd outside (Nat.not_lt_of_ge small)
  | cons core spi ih =>
    rw [List.length_cons] at outside
    by_cases here : ii < 32
    · rw [sampleCores_inside here, ih here (by omega)]
      rfl
    · exact dif_neg here

theorem gwOsCpu_exact (tracks : Tracks history last)
    (grows : ∀ ii (inside : ii < spi.length), Grows (last ii) spi[ii])
    (inside : spi.length ≤ 32) :
    ∃ usage history', gwOsCpu history spi = some (usage, history') ∧
      RowsExact last spi usage.data ∧ Tracks history' (reported last spi) := by
  obtain ⟨rows, history', sampled, exact_rows, tracks'⟩ :=
    @sampleCores_exact history last spi 0 tracks (by simpa using grows) (by simpa using inside)
  have later : reportedFrom 0 last spi = reported last spi := by
    funext jj
    simp [reportedFrom, reported]
  simp only [Nat.zero_add] at exact_rows
  rw [later] at tracks'
  obtain ⟨accum, called⟩ : ∃ accum, gwOsCpu history spi = some (⟨rows, accum⟩, history') := by
    rw [gwOsCpu, sampled]
    exact ⟨_, rfl⟩
  exact ⟨⟨rows, accum⟩, history', called, exact_rows, tracks'⟩

theorem gwOsCpu_none (outside : 32 < spi.length) : gwOsCpu history spi = none := by
  rw [gwOsCpu, sampleCores_none (Nat.zero_le 32) (by simpa using outside)]
  rfl

/-! ### Runs of calls -/

theorem samplesExact_of_tracks {samples : List (List ProcessorTimes)}
    (tracks : Tracks history last) (growing : Growing last samples) :
    SamplesExact history last samples ↔ ∀ spi ∈ samples, spi.length ≤ 32 := by
  induction samples generalizing history last with
  | nil => exact iff_of_true trivial nofun
  | cons spi samples ih =>
    obtain ⟨grows, growing⟩ := growing
    rw [List.forall_mem_cons]
    by_cases inside : spi.length ≤ 32
    · obtain ⟨usage, history', called, exact_rows, tracks'⟩ := gwOsCpu_exact tracks grows inside
      rw [and_iff_right inside, ← ih tracks' growing]
      constructor
      · rintro ⟨_, _, called', -, later⟩
        cases called.symm.trans called'
        exact later
      · exact fun later => ⟨usage, history', called, exact_rows, later⟩
    · refine iff_of_false ?_ fun every => inside every.1
      rintro ⟨_, _, called, -⟩
      rw [gwOsCpu_none (Nat.lt_of_not_le inside)] at called
      cases called

/-- While the counters grow, every call stays inside the arrays and reports exact rows if and only
if no call finds more than 32 cores. -/
theorem samplesExact_iff (samples : List (List ProcessorTimes))
    (growing : Growing (fun _ => .zero) samples) :
    SamplesExact .zero (fun _ => .zero) samples ↔ ∀ spi ∈ samples, spi.length ≤ 32 :=
  samplesExact_of_tracks tracks_zero growing

/-- Two cores, in two calls. -/
def twoSamples : List (List ProcessorTimes) :=
  [[⟨50, 70, 30⟩, ⟨0, 10, 5⟩], [⟨90, 120, 60⟩, ⟨0, 10, 5⟩]]

theorem samplesExact_iff_twoSamples : SamplesExact .zero (fun _ => .zero) twoSamples :=
  (samplesExact_iff twoSamples (by decide +kernel)).mpr (by decide)

/-- On 33 cores the first call leaves the arrays. -/
theorem samplesExact_fails :
    ¬∀ samples : List (List ProcessorTimes), Growing (fun _ => .zero) samples →
      SamplesExact .zero (fun _ => .zero) samples := by
  intro every
  obtain ⟨usage, history', called, -⟩ := every [List.replicate 33 .zero] (by decide +kernel)
  rw [gwOsCpu_none (by decide)] at called
  cases called

end Guardwatch.Windows
