import Guardwatch.Lib.CivilDate

/-! The log files of `gfc_log.c`: one current file, which is renamed after the date of its lines
when the first line of another day is logged. -/

namespace Guardwatch

open CivilDate

/-- The fields of a `struct tm` that the log reads. -/
structure Tm where
  date : Date
  hour : Int
  min : Int
  sec : Int
deriving DecidableEq

def gmtime (t : Int) : Tm :=
  { date := ofDays (t / 86400)
    hour := t % 86400 / 3600
    min := t % 3600 / 60
    sec := t % 60 }

/-- The local time is so many seconds ahead of the universal time. -/
def localtime (offset t : Int) : Tm := gmtime (t + offset)

inductive LogLevel
  | info
  | debug
  | warn
  | error
deriving DecidableEq

/-- A line as it is printed: level, local time and text. -/
structure LogLine where
  level : LogLevel
  tm : Tm
  text : String
deriving DecidableEq

/-- `<app>.log` and `<app>-<year><month><day>.log`. -/
inductive FileName
  | log
  | backup (date : Date)
deriving DecidableEq

/-- The lines of a file, and the time of its last change. -/
structure LogFile where
  lines : List LogLine
  changed : Int

abbrev LogDir := FileName → Option LogFile

/-- `rename`, which replaces a file of the new name. -/
def rename (dir : LogDir) (old new : FileName) : LogDir :=
  match dir old with
  | some file => Function.update (Function.update dir new (some file)) old none
  | none => dir

/-- `fopen` with mode `a+`. -/
def fopenAppend (t : Int) (dir : LogDir) (name : FileName) : LogDir :=
  match dir name with
  | some _ => dir
  | none => Function.update dir name (some ⟨[], t⟩)

/-- Lines that are printed to an open file. -/
def fprintLine (t : Int) (dir : LogDir) (name : FileName) (line : LogLine) : LogDir :=
  match dir name with
  | some file => Function.update dir name (some ⟨file.lines ++ [line], t⟩)
  | none => dir

/-- The static variables: the date and the time of the current file, and whether `_gfc_log_file` is
open. It is open on the current file only, and closed before that is renamed. -/
structure GfcLog where
  date : Date
  hour : Int
  min : Int
  file : Bool

/-- The static variables of a process that starts. -/
def gfcLogStatics : GfcLog := ⟨⟨0, 0, 0⟩, 0, 0, false⟩

/-- Where no date is known yet, it is that of the last change of the file, in universal time, or
today's if there is no file. -/
def knownDate (tm : Tm) (log : GfcLog) (dir : LogDir) : GfcLog :=
  if log.date.year = 0 then
    match dir .log with
    | some file =>
      { log with
        date := (gmtime file.changed).date
        hour := (gmtime file.changed).hour + 8
        min := (gmtime file.changed).min }
    | none => { log with date := tm.date, hour := tm.hour, min := tm.min }
  else log

/-- `gfc_log_open`, at time `t`. -/
def gfcLogOpen (offset t : Int) (log : GfcLog) (dir : LogDir) : GfcLog × LogDir :=
  let tm := localtime offset t
  let log := knownDate tm log dir
  let (log, dir) :=
    if log.date ≠ tm.date then
      ({ date := tm.date, hour := tm.hour, min := tm.min, file := false },
        rename dir .log (.backup log.date))
    else (log, dir)
  if log.file then (log, dir) else ({ log with file := true }, fopenAppend t dir .log)

/-- The body of the four functions that log a line. The clock is read when the file is opened and
again for the line, and the file changes when the line is written. -/
def logLine (level : LogLevel) (offset opened stamped written : Int) (text : String) (log : GfcLog)
    (dir : LogDir) : GfcLog × LogDir :=
  let (log, dir) := gfcLogOpen offset opened log dir
  (log, fprintLine written dir .log ⟨level, localtime offset stamped, text⟩)

def gfcLogInfo := logLine .info
def gfcLogDebug := logLine .debug
def gfcLogWarn := logLine .warn
def gfcLogError := logLine .error

end Guardwatch
