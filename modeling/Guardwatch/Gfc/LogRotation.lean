import Guardwatch.Gfc.Log
import Guardwatch.Lib.Runs
import Mathlib.Data.List.Count

/-! Rotation of the log over runs of log calls and restarts: every line stays in a file, and the
files of past days have the lines of their day, as long as a restarted process reads the right date
off the file it finds. -/

namespace Guardwatch

open CivilDate Labelled

/-! ### One call -/

theorem localtime_date (offset t : Int) :
    (localtime offset t).date = ofDays ((t + offset) / 86400) := rfl

/-- The days on which two clock readings fall. -/
theorem days_le {offset t t' : Int} (later : t ≤ t') :
    (t + offset) / 86400 ≤ (t' + offset) / 86400 := by
  omega

/-- What `gfc_log_open` does to the directory, where the date it knows for the current file is that
of the last line. -/
theorem gfcLogOpen_cases {offset t : Int} {log : GfcLog} {dir : LogDir}
    (known : ∀ file, dir .log = some file →
      (knownDate (localtime offset t) log dir).date = (localtime offset file.changed).date)
    (absent : dir .log = none → log.date.year = 0) (opened : log.file = true → dir .log ≠ none) :
    (gfcLogOpen offset t log dir).1.date = (localtime offset t).date ∧
    match dir .log with
    | none => (gfcLogOpen offset t log dir).2 = Function.update dir .log (some ⟨[], t⟩)
    | some file =>
      if (localtime offset file.changed).date = (localtime offset t).date then
        (gfcLogOpen offset t log dir).2 = dir
      else
        (gfcLogOpen offset t log dir).2 = Function.update (Function.update dir
          (.backup (localtime offset file.changed).date) (some file)) .log (some ⟨[], t⟩) := by
  cases current : dir .log with
  | none =>
    have unset := absent current
    have closed : log.file = false := by
      by_contra opened'
      exact opened (by simpa using opened') current
    simp [gfcLogOpen, knownDate, unset, current, closed, fopenAppend]
  | some file =>
    have date := known file current
    by_cases today : (localtime offset file.changed).date = (localtime offset t).date
    · simp only [gfcLogOpen, date, today, ne_eq, not_true_eq_false, ↓reduceIte]
      split
      · exact ⟨date.trans today, rfl⟩
      · exact ⟨rfl, by simp [fopenAppend, current]⟩
    · have moved : rename dir .log (.backup (localtime offset file.changed).date) =
          Function.update (Function.update dir (.backup (localtime offset file.changed).date)
            (some file)) .log none := by simp [rename, current]
      simp [gfcLogOpen, date, today, moved, fopenAppend]

/-! ### Runs of calls and restarts -/

inductive LogAction
  | log (level : LogLevel) (opened stamped written : Int) (text : String)
  | restart

/-- The process and its directory, the last reading of the clock, and the lines logged so far. -/
structure LogState where
  log : GfcLog
  dir : LogDir
  now : Int
  logged : List LogLine

/-- The clock does not go back. A restart resets the static variables. -/
def logStep (offset : Int) (s : LogState) : LogAction → Option LogState
  | .log level opened stamped written text =>
    if s.now ≤ opened ∧ opened ≤ stamped ∧ stamped ≤ written then
      let (log, dir) := logLine level offset opened stamped written text s.log s.dir
      some ⟨log, dir, written, s.logged ++ [⟨level, localtime offset stamped, text⟩]⟩
    else none
  | .restart => some { s with log := gfcLogStatics }

def LogSteps (offset : Int) (s : LogState) (a : LogAction) (t : LogState) : Prop :=
  logStep offset s a = some t

/-- A process with an empty directory. -/
def logStart (now : Int) : LogState := ⟨gfcLogStatics, fun _ => none, now, []⟩

structure RotationKept (s : LogState) : Prop where
  kept : ∀ line ∈ s.logged, ∃ name file, s.dir name = some file ∧
    file.lines.count line = s.logged.count line
  dated : ∀ date file, s.dir (.backup date) = some file → ∀ line ∈ file.lines, line.tm.date = date

/-- No midnight passes during a call; and the call of a process that has logged nothing yet finds
no file that was last changed on different dates of the universal and of the local time. -/
def DatesAgree (offset : Int) (s : LogState) : LogAction → Prop
  | .log _ opened _ written _ =>
    (localtime offset opened).date = (localtime offset written).date ∧
      (s.log.date.year = 0 → ∀ file ∈ s.dir .log,
        (gmtime file.changed).date = (localtime offset file.changed).date)
  | .restart => True

/-- Each file has the lines of one day, and the current file those of the last. -/
structure RotationInvariant (offset : Int) (s : LogState) : Prop where
  current : ∀ file, s.dir .log = some file → file.changed ≤ s.now ∧
    file.lines = s.logged.filter fun line => line.tm.date = (localtime offset file.changed).date
  backups : ∀ date file, s.dir (.backup date) = some file →
    file.lines = (s.logged.filter fun line => line.tm.date = date) ∧
    ∃ last day, s.dir .log = some last ∧ date = ofDays day ∧
      day < (last.changed + offset) / 86400
  covered : ∀ line ∈ s.logged, ∃ last, s.dir .log = some last ∧
    (line.tm.date = (localtime offset last.changed).date ∨
      ∃ file, s.dir (.backup line.tm.date) = some file)
  statics : s.log.date.year ≠ 0 → ∃ file, s.dir .log = some file ∧
    s.log.date = (localtime offset file.changed).date
  opened : s.log.file = true → s.dir .log ≠ none

theorem RotationInvariant.kept {offset : Int} {s : LogState} (rotation : RotationInvariant offset s) :
    RotationKept s := by
  refine ⟨fun line member => ?_, fun date file at_date line member => ?_⟩
  · obtain ⟨last, at_log, today | ⟨file, at_date⟩⟩ := rotation.covered line member
    · refine ⟨.log, last, at_log, ?_⟩
      rw [(rotation.current last at_log).2, List.count_filter (by simpa using today)]
    · refine ⟨.backup line.tm.date, file, at_date, ?_⟩
      rw [(rotation.backups _ file at_date).1, List.count_filter (by simp)]
  · rw [(rotation.backups date file at_date).1] at member
    simpa using (List.mem_filter.mp member).2

theorem RotationInvariant.known {offset t : Int} {s : LogState}
    (rotation : RotationInvariant offset s) (agree : s.log.date.year = 0 → ∀ file ∈ s.dir .log,
      (gmtime file.changed).date = (localtime offset file.changed).date) :
    ∀ file, s.dir .log = some file →
      (knownDate (localtime offset t) s.log s.dir).date = (localtime offset file.changed).date := by
  intro file current
  unfold knownDate
  split
  · rw [current]
    exact agree ‹_› file current
  · obtain ⟨last, at_log, date⟩ := rotation.statics ‹_›
    rw [current] at at_log
    cases at_log
    exact date

theorem RotationInvariant.absent {offset : Int} {s : LogState} (rotation : RotationInvariant offset s)
    (none : s.dir .log = none) : s.log.date.year = 0 := by
  by_contra set
  obtain ⟨file, at_log, -⟩ := rotation.statics set
  rw [none] at at_log
  cases at_log

/-- The directory once the file is open at time `t`: the current file has the lines of that day,
and the backups those of earlier days. -/
structure OpenedToday (offset t : Int) (dir : LogDir) (logged : List LogLine) : Prop where
  current : ∃ file, dir .log = some file ∧
    file.lines = logged.filter fun line => line.tm.date = (localtime offset t).date
  backups : ∀ date file, dir (.backup date) = some file →
    file.lines = (logged.filter fun line => line.tm.date = date) ∧
    ∃ day, date = ofDays day ∧ day < (t + offset) / 86400
  covered : ∀ line ∈ logged, line.tm.date = (localtime offset t).date ∨
    ∃ file, dir (.backup line.tm.date) = some file

theorem openedToday_first {offset t : Int} {s : LogState} (rotation : RotationInvariant offset s)
    (none : s.dir .log = none) :
    OpenedToday offset t (Function.update s.dir .log (some ⟨[], t⟩)) s.logged := by
  have nothing : s.logged = [] := by
    refine List.eq_nil_iff_forall_not_mem.mpr fun line member => ?_
    obtain ⟨last, at_log, -⟩ := rotation.covered line member
    rw [none] at at_log
    cases at_log
  refine ⟨⟨_, Function.update_self .., by simp [nothing]⟩, fun past file at_past => ?_,
    by simp [nothing]⟩
  rw [Function.update_of_ne (by simp)] at at_past
  obtain ⟨-, last, -, at_log, -⟩ := rotation.backups past file at_past
  rw [none] at at_log
  cases at_log

theorem openedToday_same {offset t : Int} {s : LogState} (rotation : RotationInvariant offset s)
    {file : LogFile} (current : s.dir .log = some file)
    (today : (localtime offset file.changed).date = (localtime offset t).date) :
    OpenedToday offset t s.dir s.logged := by
  have day : (file.changed + offset) / 86400 = (t + offset) / 86400 := ofDays_injective today
  refine ⟨⟨file, current, by rw [(rotation.current file current).2, today]⟩,
    fun past file' at_past => ?_, fun line member => ?_⟩
  · obtain ⟨lines, last, day', at_log, past_eq, earlier⟩ := rotation.backups past file' at_past
    obtain rfl := Option.some.inj (current.symm.trans at_log)
    exact ⟨lines, day', past_eq, by omega⟩
  · obtain ⟨last, at_log, now | backup⟩ := rotation.covered line member
    · obtain rfl := Option.some.inj (current.symm.trans at_log)
      exact .inl (now.trans today)
    · exact .inr backup

/-- A file of an earlier day becomes the backup of its day, which there is none of yet. -/
theorem openedToday_next {offset t : Int} {s : LogState} (rotation : RotationInvariant offset s)
    (later : s.now ≤ t) {file : LogFile} (current : s.dir .log = some file)
    (past : (localtime offset file.changed).date ≠ (localtime offset t).date) :
    OpenedToday offset t (Function.update (Function.update s.dir
      (.backup (localtime offset file.changed).date) (some file)) .log (some ⟨[], t⟩)) s.logged := by
  obtain ⟨before, lines⟩ := rotation.current file current
  have day : (file.changed + offset) / 86400 < (t + offset) / 86400 := by
    have ordered : (file.changed + offset) / 86400 ≤ (t + offset) / 86400 :=
      days_le (Int.le_trans before later)
    have other : (file.changed + offset) / 86400 ≠ (t + offset) / 86400 :=
      fun same => past (congrArg ofDays same)
    omega
  have earlier : ∀ date file', s.dir (.backup date) = some file' →
      ∃ day', date = ofDays day' ∧ day' < (file.changed + offset) / 86400 := by
    intro date file' at_date
    obtain ⟨-, last, day', at_log, date_eq, earlier⟩ := rotation.backups date file' at_date
    obtain rfl := Option.some.inj (current.symm.trans at_log)
    exact ⟨day', date_eq, earlier⟩
  have covered : ∀ line ∈ s.logged, line.tm.date = (localtime offset file.changed).date ∨
      ∃ file', s.dir (.backup line.tm.date) = some file' := by
    intro line member
    obtain ⟨last, at_log, covered⟩ := rotation.covered line member
    obtain rfl := Option.some.inj (current.symm.trans at_log)
    exact covered
  refine ⟨⟨_, Function.update_self .., ?_⟩, fun date file' at_date => ?_, fun line member => .inr ?_⟩
  · symm
    rw [List.filter_eq_nil_iff]
    intro line member today
    have today : line.tm.date = (localtime offset t).date := by simpa using today
    rcases covered line member with last | ⟨file', at_date⟩
    · exact past (last.symm.trans today)
    · obtain ⟨day', date_eq, less⟩ := earlier _ file' at_date
      have := ofDays_injective (date_eq.symm.trans today)
      omega
  · rw [Function.update_of_ne (by simp)] at at_date
    by_cases last : date = (localtime offset file.changed).date
    · subst last
      rw [Function.update_self] at at_date
      cases at_date
      exact ⟨lines, _, localtime_date offset file.changed, day⟩
    · rw [Function.update_of_ne (by simpa using last)] at at_date
      obtain ⟨day', date_eq, less⟩ := earlier date file' at_date
      exact ⟨(rotation.backups date file' at_date).1, day', date_eq, by omega⟩
  · rw [Function.update_of_ne (by simp)]
    by_cases last : line.tm.date = (localtime offset file.changed).date
    · exact ⟨file, by rw [last, Function.update_self]⟩
    · rw [Function.update_of_ne (by simpa using last)]
      exact (covered line member).resolve_left last

/-- Writing a line on the day on which the file was opened. -/
theorem OpenedToday.written {offset opened written : Int} {log : GfcLog} {dir : LogDir}
    {logged : List LogLine} {line : LogLine} (today : OpenedToday offset opened dir logged)
    (day : (opened + offset) / 86400 = (written + offset) / 86400)
    (date : log.date = (localtime offset written).date)
    (line_date : line.tm.date = (localtime offset written).date) :
    RotationInvariant offset
      ⟨log, fprintLine written dir .log line, written, logged ++ [line]⟩ := by
  have same : (localtime offset opened).date = (localtime offset written).date :=
    congrArg ofDays day
  obtain ⟨file, at_log, lines⟩ := today.current
  generalize after : fprintLine written dir .log line = dir'
  have current : dir' .log = some ⟨file.lines ++ [line], written⟩ := by
    rw [← after]
    simp [fprintLine, at_log]
  have others : ∀ date, dir' (.backup date) = dir (.backup date) := fun date => by
    rw [← after]
    simp [fprintLine, at_log]
  refine ⟨fun file' at_log' => ?_, fun past file' at_past => ?_, fun line' member => ?_,
    fun _ => ⟨_, current, date⟩, fun _ => by simp [current]⟩
  · obtain rfl := Option.some.inj (current.symm.trans at_log')
    refine ⟨Int.le_refl _, ?_⟩
    simp [List.filter_append, line_date, lines, same]
  · obtain ⟨lines', day', past_eq, earlier⟩ := today.backups past file' ((others past).symm.trans at_past)
    refine ⟨?_, _, day', current, past_eq, by rw [← day]; exact earlier⟩
    -- Today is no earlier day, so the new line is not one of the backup's.
    have other : line.tm.date ≠ past := by
      rw [line_date, past_eq, localtime_date]
      intro same
      have := ofDays_injective same
      omega
    simp [List.filter_append, other, lines']
  · refine ⟨_, current, ?_⟩
    rcases List.mem_append.mp member with old | new
    · rcases today.covered line' old with now | ⟨file', backup⟩
      · exact .inl (now.trans same)
      · exact .inr ⟨file', (others _).trans backup⟩
    · rw [List.mem_singleton.mp new]
      exact .inl line_date

theorem rotationInvariant_step {offset : Int} {s t : LogState} {a : LogAction}
    (rotation : RotationInvariant offset s) (agree : DatesAgree offset s a)
    (step : LogSteps offset s a t) : RotationInvariant offset t := by
  unfold LogSteps at step
  cases a with
  | restart =>
    cases step
    exact ⟨rotation.current, rotation.backups, rotation.covered, fun h => absurd rfl h, nofun⟩
  | log level opened stamped written text =>
    obtain ⟨⟨later, h₂, h₃⟩, step⟩ := Option.ite_none_right_eq_some.mp step
    cases step
    obtain ⟨same, agree⟩ := agree
    have day : (opened + offset) / 86400 = (written + offset) / 86400 := ofDays_injective same
    have line_date : (localtime offset stamped).date = (localtime offset written).date := by
      rw [localtime_date, localtime_date]
      congr 1
      omega
    obtain ⟨date, dir⟩ := gfcLogOpen_cases (t := opened) (rotation.known agree) rotation.absent
      rotation.opened
    show RotationInvariant offset ⟨(gfcLogOpen offset opened s.log s.dir).1,
      fprintLine written (gfcLogOpen offset opened s.log s.dir).2 .log
        ⟨level, localtime offset stamped, text⟩, written,
      s.logged ++ [⟨level, localtime offset stamped, text⟩]⟩
    refine OpenedToday.written ?_ day (date.trans same) line_date
    cases current : s.dir .log with
    | none =>
      rw [current] at dir
      rw [dir]
      exact openedToday_first rotation current
    | some file =>
      rw [current] at dir
      dsimp only at dir
      split at dir
      · rw [dir]
        exact openedToday_same rotation current ‹_›
      · rw [dir]
        exact openedToday_next rotation later current ‹_›

/-- Log calls and restarts lose no line and mix no days, as long as no midnight passes during a
call and each process that finds a file finds one last changed on the same universal and local
date. -/
theorem rotationKept_of_datesAgree (offset start : Int) {trace : List (LogAction × LogState)}
    (run : Run (LogSteps offset) (logStart start) trace)
    (agree : EveryStep (DatesAgree offset) (logStart start) trace) :
    EveryState RotationKept (logStart start) trace :=
  (run.everyState (J := RotationInvariant offset)
    ⟨nofun, nofun, nofun, fun h => absurd rfl h, nofun⟩
    (fun _ _ _ rotation agree step => rotationInvariant_step rotation agree step)
    agree).mono fun _ rotation => rotation.kept

instance (offset : Int) (s : LogState) : ∀ a, Decidable (DatesAgree offset s a)
  | .log _ opened _ written _ =>
    inferInstanceAs (Decidable ((localtime offset opened).date = (localtime offset written).date ∧
      (s.log.date.year = 0 → ∀ file ∈ s.dir .log,
        (gmtime file.changed).date = (localtime offset file.changed).date)))
  | .restart => .isTrue trivial

/-- Eight hours ahead of the universal time: lines at noon of two days, and after a restart. -/
def noonLines : List LogAction :=
  [.log .info 8654400 8654400 8654400 "a", .log .warn 8740800 8740800 8740801 "b", .restart,
    .log .error 8744400 8744400 8744400 "c"]

theorem rotationKept_of_datesAgree_noon :
    EveryState RotationKept (logStart 0) (traced (logStep 28800) (logStart 0) noonLines) := by
  have agree : EveryStep (DatesAgree 28800) (logStart 0)
      (traced (logStep 28800) (logStart 0) noonLines) := by decide +kernel
  -- The trace is kept as a variable: the elaborator would otherwise evaluate it.
  generalize eq : traced (logStep 28800) (logStart 0) noonLines = trace at agree ⊢
  exact rotationKept_of_datesAgree 28800 0 (eq ▸ run_traced _ _ _) agree

/-- Eight hours ahead of the universal time: a line at noon, and one at two o'clock of the next day,
which is still the first day in universal time. After a restart the file of the second line is
renamed after the first day. -/
def nightLines : List LogAction :=
  [.log .info 8654400 8654400 8654400 "a", .log .info 8704800 8704800 8704800 "b", .restart,
    .log .info 8708400 8708400 8708400 "c"]

/-- The line of the first day is in no file any more. -/
theorem rotationKept_fails :
    ¬∀ offset start trace, Run (LogSteps offset) (logStart start) trace →
      EveryState RotationKept (logStart start) trace := by
  refine fun every => traced_fails (f := logStep 28800) nightLines (fun _ _ _ step => step)
    (fun rotation => ?_) (every 28800 0)
  have logged : ⟨.info, localtime 28800 8654400, "a"⟩ ∈
      (final (logStart 0) (traced (logStep 28800) (logStart 0) nightLines)).logged := by
    decide +kernel
  have lost : ∀ name ∈ [FileName.log, .backup (localtime 28800 8654400).date], ∀ file ∈
      (final (logStart 0) (traced (logStep 28800) (logStart 0) nightLines)).dir name,
      ⟨.info, localtime 28800 8654400, "a"⟩ ∉ file.lines := by decide +kernel
  obtain ⟨name, file, at_name, count⟩ := rotation.kept _ logged
  have member : ⟨.info, localtime 28800 8654400, "a"⟩ ∈ file.lines :=
    List.count_pos_iff.mp (by rw [count]; exact List.count_pos_iff.mpr logged)
  cases name with
  | log => exact lost .log (by simp) file at_name member
  | backup date =>
    -- Only the backup of its own day could have the line.
    obtain rfl := rotation.dated date file at_name _ member
    exact lost _ (by simp) file at_name member

end Guardwatch
