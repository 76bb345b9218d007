import Guardwatch.Lib.Runs
import Mathlib.Data.List.Basic

/-! The worker threads of the agent and the running flags they share with `gw_app_start` and
`gw_app_stop`. A call of either function, the statements of a thread before its loop, a test of
its loop flag, and its loop body are each one step. The threads are those that `gw_app_start`
creates, of `gw_snmpd_trap`, `gw_snmpd_serve`, `gw_os_start` and `gw_httpd_serve`; each has yet to
run, is about to test its loop flag, is about to run its loop body, or has returned. -/

namespace Guardwatch.Threads

/-- The flags that `gw_main.c` defines: `_gw_snmp_daemon_running`, `_gw_snmp_trap_running`,
`_gw_http_web_running` and `_gw_os_collect_running`. -/
structure RunningFlags where
  snmpDaemonRunning : Int
  snmpTrapRunning : Int
  httpWebRunning : Int
  osCollectRunning : Int
deriving DecidableEq, Repr

inductive Worker
  | snmpdTrap
  | snmpdServe
  | osStart
  | httpdServe
deriving DecidableEq, Repr

inductive Phase
  | created
  | test
  | body
  | finished
deriving DecidableEq, Repr

structure Thread where
  worker : Worker
  phase : Phase
deriving DecidableEq, Repr

/-- The statements of a worker before its loop. `agentInit` is the outcome of `init_agent` and
`init_master_agent`, which `gw_snmpd_serve` calls unless the flag is 2. -/
def Worker.enter (agentInit : Bool) (flags : RunningFlags) : Worker → RunningFlags × Phase
  | .snmpdTrap => ({ flags with snmpTrapRunning := 1 }, .test)
  | .snmpdServe =>
    if flags.snmpDaemonRunning = 2 then (flags, .test)
    else if agentInit then (flags, .test)
    else (flags, .finished)
  | .osStart => (flags, .test)
  | .httpdServe => ({ flags with httpWebRunning := 1 }, .test)

/-- The loop test of a worker: two loops run while their flag is not zero, and two leave when
their flag is not 1. -/
def Worker.loops (flags : RunningFlags) : Worker → Bool
  | .snmpdTrap => flags.snmpTrapRunning != 0
  | .snmpdServe => flags.snmpDaemonRunning != 0
  | .osStart => flags.osCollectRunning == 1
  | .httpdServe => flags.httpWebRunning == 1

/-- The last call: none yet, `gw_app_start`, or `gw_app_stop`. -/
inductive Control
  | fresh
  | started
  | stopped
deriving DecidableEq, Repr

structure AgentState where
  flags : RunningFlags
  threads : List Thread
  control : Control
deriving DecidableEq, Repr

def initial : AgentState := ⟨⟨1, 1, 1, 1⟩, [], .fresh⟩

def createdThreads : List Thread :=
  [⟨.snmpdTrap, .created⟩, ⟨.snmpdServe, .created⟩, ⟨.osStart, .created⟩, ⟨.httpdServe, .created⟩]

def gwAppStart (s : AgentState) : AgentState where
  flags :=
    if s.flags.snmpDaemonRunning = 0 then { s.flags with snmpDaemonRunning := 2 } else s.flags
  threads := s.threads ++ createdThreads
  control := .started

def gwAppStop (s : AgentState) : AgentState :=
  { s with flags := ⟨0, 0, 0, 0⟩, control := .stopped }

inductive Action
  | start
  | stop
  | enter (i : Nat) (agentInit : Bool)
  | test (i : Nat)
  | body (i : Nat)
deriving DecidableEq, Repr

/-- The state after a call or after a step of the thread with index `i`, in the order of creation,
and `none` where the action is not possible. The tray menu offers the stop while the agent is
started, and otherwise the start. -/
def step (s : AgentState) : Action → Option AgentState
  | .start => if s.control = .started then none else some (gwAppStart s)
  | .stop => if s.control = .started then some (gwAppStop s) else none
  | .enter i agentInit =>
    match s.threads[i]? with
    | some ⟨worker, .created⟩ =>
      some { s with
        flags := (worker.enter agentInit s.flags).1
        threads := s.threads.set i ⟨worker, (worker.enter agentInit s.flags).2⟩ }
    | _ => none
  | .test i =>
    match s.threads[i]? with
    | some ⟨worker, .test⟩ =>
      some { s with
        threads := s.threads.set i ⟨worker, if worker.loops s.flags then .body else .finished⟩ }
    | _ => none
  | .body i =>
    match s.threads[i]? with
    | some ⟨worker, .body⟩ => some { s with threads := s.threads.set i ⟨worker, .test⟩ }
    | _ => none

abbrev Steps (s : AgentState) (a : Action) (t : AgentState) : Prop := step s a = some t

theorem step_start {s t : AgentState} (h : step s .start = some t) :
    s.control ≠ .started ∧ t = gwAppStart s := by
  simp only [step] at h
  split at h
  · cases h
  · exact ⟨‹_›, (Option.some.inj h).symm⟩

theorem step_stop {s t : AgentState} (h : step s .stop = some t) :
    s.control = .started ∧ t = gwAppStop s := by
  simp only [step] at h
  split at h
  · exact ⟨‹_›, (Option.some.inj h).symm⟩
  · cases h

theorem step_enter {s t : AgentState} {i : Nat} {agentInit : Bool}
    (h : step s (.enter i agentInit) = some t) :
    ∃ worker : Worker, s.threads[i]? = some ⟨worker, .created⟩ ∧
      t = { s with
        flags := (worker.enter agentInit s.flags).1
        threads := s.threads.set i ⟨worker, (worker.enter agentInit s.flags).2⟩ } := by
  simp only [step] at h
  split at h
  · exact ⟨_, ‹_›, (Option.some.inj h).symm⟩
  · cases h

theorem step_test {s t : AgentState} {i : Nat} (h : step s (.test i) = some t) :
    ∃ worker : Worker, s.threads[i]? = some ⟨worker, .test⟩ ∧
      t = { s with
        threads := s.threads.set i ⟨worker, if worker.loops s.flags then .body else .finished⟩ } := by
  simp only [step] at h
  split at h
  · exact ⟨_, ‹_›, (Option.some.inj h).symm⟩
  · cases h

theorem step_body {s t : AgentState} {i : Nat} (h : step s (.body i) = some t) :
    ∃ worker : Worker, s.threads[i]? = some ⟨worker, .body⟩ ∧
      t = { s with threads := s.threads.set i ⟨worker, .test⟩ } := by
  simp only [step] at h
  split at h
  · exact ⟨_, ‹_›, (Option.some.inj h).symm⟩
  · cases h

/-- A step of a thread leaves the last call as it was, and changes the phase of one thread that
has not returned. -/
theorem step_thread {s t : AgentState} {a : Action} (h : step s a = some t)
    (calls : a ≠ .start ∧ a ≠ .stop) :
    t.control = s.control ∧ ∃ (i : Nat) (worker : Worker) (before after : Phase),
      s.threads[i]? = some ⟨worker, before⟩ ∧ before ≠ .finished ∧
      t.threads = s.threads.set i ⟨worker, after⟩ := by
  cases a with
  | start => exact absurd rfl calls.1
  | stop => exact absurd rfl calls.2
  | enter i agentInit =>
    obtain ⟨worker, at_i, rfl⟩ := step_enter h
    exact ⟨rfl, i, worker, _, _, at_i, by decide, rfl⟩
  | test i =>
    obtain ⟨worker, at_i, rfl⟩ := step_test h
    exact ⟨rfl, i, worker, _, _, at_i, by decide, rfl⟩
  | body i =>
    obtain ⟨worker, at_i, rfl⟩ := step_body h
    exact ⟨rfl, i, worker, _, _, at_i, by decide, rfl⟩

end Guardwatch.Threads
