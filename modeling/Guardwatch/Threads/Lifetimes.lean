import Guardwatch.Threads.Model
import Mathlib.Data.List.Count

/-! What calls of `gw_app_start` and `gw_app_stop` do to the worker threads, over every interleaving
with the steps of the threads: when at most one thread of each worker is alive, when a stop is
kept, and when a start brings every worker back to its loop body. -/

namespace Guardwatch.Threads

open Labelled

/-! ### One thread of each worker -/

/-- The threads of a worker that are past their creation and have not left their loop. -/
def AgentState.alive (s : AgentState) (worker : Worker) : Nat :=
  s.threads.countP fun thread => thread.worker = worker ∧ thread.phase ≠ .finished

def OneOfEach (s : AgentState) : Prop := ∀ worker, s.alive worker ≤ 1

def StartsIdle (s : AgentState) (a : Action) : Prop :=
  a = .start → ∀ thread ∈ s.threads, thread.phase = .finished

theorem alive_start (s : AgentState) (worker : Worker) :
    (gwAppStart s).alive worker = s.alive worker + 1 := by
  cases worker <;> simp [AgentState.alive, gwAppStart, createdThreads]

theorem alive_thread {s t : AgentState} {a : Action} (h : step s a = some t)
    (calls : a ≠ .start ∧ a ≠ .stop) (worker : Worker) : t.alive worker ≤ s.alive worker := by
  obtain ⟨-, i, other, before, after, at_i, running, threads⟩ := step_thread h calls
  obtain ⟨inside, at_i⟩ := List.getElem?_eq_some_iff.mp at_i
  simp only [AgentState.alive, threads, List.countP_set inside, at_i, running, ne_eq,
    not_false_eq_true, and_true, decide_eq_true_eq]
  by_cases same : other = worker
  · have counted : 0 < s.alive worker :=
      List.countP_pos_iff.mpr ⟨_, List.getElem_mem inside, by simp [at_i, same, running]⟩
    simp only [AgentState.alive, ne_eq] at counted
    simp only [same, true_and, ↓reduceIte]
    split <;> omega
  · simp [same]

theorem idle_of_alive {s : AgentState} (none : ∀ worker, s.alive worker = 0) :
    ∀ thread ∈ s.threads, thread.phase = .finished := by
  intro thread member
  have := List.countP_eq_zero.mp (none thread.worker) thread member
  simpa using this

theorem alive_of_idle {s : AgentState} (idle : ∀ thread ∈ s.threads, thread.phase = .finished)
    (worker : Worker) : s.alive worker = 0 :=
  List.countP_eq_zero.mpr fun thread member => by simp [idle thread member]

theorem oneOfEach_step {s t : AgentState} {a : Action} (one : OneOfEach s) (idle : StartsIdle s a)
    (h : step s a = some t) : OneOfEach t := by
  intro worker
  by_cases start : a = .start
  · obtain rfl := (step_start (start ▸ h)).2
    have := alive_of_idle (idle start) worker
    rw [alive_start]
    omega
  by_cases stop : a = .stop
  · obtain rfl := (step_stop (stop ▸ h)).2
    exact one worker
  · exact Nat.le_trans (alive_thread h ⟨start, stop⟩ worker) (one worker)

theorem startsIdle_of_oneOfEach {s t : AgentState} {a : Action} (h : step s a = some t)
    (one : OneOfEach t) : StartsIdle s a := by
  rintro rfl
  obtain rfl := (step_start h).2
  refine idle_of_alive fun worker => ?_
  have := one worker
  rw [alive_start] at this
  omega

/-- At most one thread of each worker can run another loop body, in every state of a run, if and
only if every start of the run is made when all threads have returned. -/
theorem oneOfEach_iff {trace : List (Action × AgentState)} (run : Run Steps initial trace) :
    EveryState OneOfEach initial trace ↔ EveryStep StartsIdle initial trace :=
  run.everyState_iff (J := OneOfEach) (fun worker => by simp [AgentState.alive, initial])
    (fun _ one => one) (fun _ _ _ one idle h => oneOfEach_step one idle h)
    (fun _ _ _ _ h one => startsIdle_of_oneOfEach h one)

/-- A heartbeat thread sleeps in its loop body over a stop and the next start, which leaves two
threads about to send a heartbeat. -/
def restartDuringHeartbeat : List Action :=
  [.start, .enter 0 true, .test 0, .stop, .start, .enter 4 true, .test 4, .body 0, .test 0]

theorem oneOfEach_iff_restart :
    EveryState OneOfEach initial (traced step initial restartDuringHeartbeat) ↔
      EveryStep StartsIdle initial (traced step initial restartDuringHeartbeat) :=
  oneOfEach_iff (run_traced _ _ _)

theorem oneOfEach_fails :
    ¬∀ trace, Run Steps initial trace → EveryState OneOfEach initial trace := by
  refine traced_fails (f := step) restartDuringHeartbeat (fun _ _ _ h => h) fun one => ?_
  have two : (final initial (traced step initial restartDuringHeartbeat)).alive .snmpdTrap = 2 := by
    decide
  have := one .snmpdTrap
  omega

/-! ### A stop that is kept -/

def FlagsLowered (s : AgentState) : Prop := s.flags = ⟨0, 0, 0, 0⟩

/-- From a stop to the next start all flags are zero, and a thread that tests its flag returns. -/
def StopKept (s : AgentState) : Prop :=
  s.control = .stopped → FlagsLowered s ∧
    ∀ i t, step s (.test i) = some t → t.threads[i]?.map Thread.phase = some .finished

/-- A heartbeat or web server thread runs its first statement only while the agent is not
stopped. -/
def EntersUnstopped (s : AgentState) (a : Action) : Prop :=
  ∀ i agentInit worker, a = .enter i agentInit → s.threads[i]? = some ⟨worker, .created⟩ →
    worker = .snmpdTrap ∨ worker = .httpdServe → s.control ≠ .stopped

theorem loops_lowered {s : AgentState} (lowered : FlagsLowered s) (worker : Worker) :
    worker.loops s.flags = false := by
  cases worker <;> simp [Worker.loops, show s.flags = ⟨0, 0, 0, 0⟩ from lowered]

theorem stopKept_of_lowered {s : AgentState} (lowered : s.control = .stopped → FlagsLowered s) :
    StopKept s := by
  intro stopped
  refine ⟨lowered stopped, fun i t h => ?_⟩
  obtain ⟨worker, at_i, rfl⟩ := step_test h
  obtain ⟨inside, -⟩ := List.getElem?_eq_some_iff.mp at_i
  simp [List.getElem?_set_self inside, loops_lowered (lowered stopped)]

theorem enter_flags (agentInit : Bool) (flags : RunningFlags) (worker : Worker) :
    (worker.enter agentInit flags).1 =
      match worker with
      | .snmpdTrap => { flags with snmpTrapRunning := 1 }
      | .httpdServe => { flags with httpWebRunning := 1 }
      | _ => flags := by
  cases worker with
  | snmpdServe => simp only [Worker.enter]; split_ifs <;> rfl
  | _ => rfl

theorem lowered_step {s t : AgentState} {a : Action}
    (lowered : s.control = .stopped → FlagsLowered s) (enters : EntersUnstopped s a)
    (h : step s a = some t) : t.control = .stopped → FlagsLowered t := by
  intro stopped
  cases a with
  | start => obtain ⟨-, rfl⟩ := step_start h; cases stopped
  | stop => obtain ⟨-, rfl⟩ := step_stop h; rfl
  | enter i agentInit =>
    obtain ⟨worker, at_i, rfl⟩ := step_enter h
    have quiet := enters i agentInit worker rfl at_i
    simp only [FlagsLowered, enter_flags]
    cases worker with
    | snmpdTrap => exact absurd stopped (quiet (.inl rfl))
    | httpdServe => exact absurd stopped (quiet (.inr rfl))
    | snmpdServe => exact lowered stopped
    | osStart => exact lowered stopped
  | test i => obtain ⟨_, -, rfl⟩ := step_test h; exact lowered stopped
  | body i => obtain ⟨_, -, rfl⟩ := step_body h; exact lowered stopped

theorem entersUnstopped_of_stopKept {s t : AgentState} {a : Action} (h : step s a = some t)
    (kept : StopKept t) : EntersUnstopped s a := by
  rintro i agentInit worker rfl at_i raises stopped
  obtain ⟨other, at_i', rfl⟩ := step_enter h
  obtain ⟨rfl⟩ : worker = other := by simpa [at_i] using at_i'
  have lowered : FlagsLowered _ := (kept stopped).1
  simp only [FlagsLowered, enter_flags] at lowered
  rcases raises with rfl | rfl <;> simp at lowered

/-- All flags stay zero from each stop to the next start, in every state of a run, if and only if
no heartbeat or web server thread runs its first statement in between. -/
theorem stopKept_iff {trace : List (Action × AgentState)} (run : Run Steps initial trace) :
    EveryState StopKept initial trace ↔ EveryStep EntersUnstopped initial trace :=
  run.everyState_iff (J := fun s => s.control = .stopped → FlagsLowered s) (fun h => by cases h)
    (fun _ => stopKept_of_lowered) (fun _ _ _ lowered enters h => lowered_step lowered enters h)
    (fun _ _ _ _ h kept => entersUnstopped_of_stopKept h kept)

/-- The heartbeat thread of a start runs its first statement after the stop, and raises its flag. -/
def stopBeforeFirstStatement : List Action := [.start, .stop, .enter 0 true, .test 0]

theorem stopKept_iff_pending :
    EveryState StopKept initial (traced step initial stopBeforeFirstStatement) ↔
      EveryStep EntersUnstopped initial (traced step initial stopBeforeFirstStatement) :=
  stopKept_iff (run_traced _ _ _)

theorem stopKept_fails :
    ¬∀ trace, Run Steps initial trace → EveryState StopKept initial trace := by
  refine traced_fails (f := step) stopBeforeFirstStatement (fun _ _ _ h => h) fun kept => ?_
  have raised : (final initial (traced step initial stopBeforeFirstStatement)).flags =
      ⟨0, 1, 0, 0⟩ := by decide
  have lowered := (kept (by decide)).1
  rw [FlagsLowered, raised] at lowered
  exact absurd lowered (by decide)

/-! ### A start that revives every worker -/

/-- The threads from index `n` on stay alive, and those that test their flag go on to their loop
body. -/
def Revived (n : Nat) (s : AgentState) : Prop :=
  ∀ thread ∈ s.threads.drop n, thread.phase ≠ .finished ∧
    (thread.phase = .test → thread.worker.loops s.flags = true)

def Action.OfThread (agentInit : Bool) : Action → Prop
  | .start => False
  | .stop => False
  | .enter _ outcome => outcome = agentInit
  | .test _ => True
  | .body _ => True

/-- In every run of the threads after a start in `s`, each thread the start creates finds its loop
test true and goes on to its loop body. -/
def Revives (agentInit : Bool) (s : AgentState) : Prop :=
  ∀ later, Run Steps (gwAppStart s) later →
    EveryStep (fun _ a => a.OfThread agentInit) (gwAppStart s) later →
    EveryState (Revived s.threads.length) (gwAppStart s) later

/-- What holds before every call: the first start finds all flags raised and no thread, and after
a stop the collector's flag stays zero. -/
structure BeforeCall (s : AgentState) : Prop where
  fresh : s.control = .fresh → s = initial
  stopped : s.control = .stopped → s.flags.osCollectRunning = 0

theorem enter_osCollect (agentInit : Bool) (flags : RunningFlags) (worker : Worker) :
    (worker.enter agentInit flags).1.osCollectRunning = flags.osCollectRunning := by
  rw [enter_flags]
  cases worker <;> rfl

theorem beforeCall_initial : BeforeCall initial := ⟨fun _ => rfl, nofun⟩

theorem beforeCall_step {s t : AgentState} {a : Action} (before : BeforeCall s)
    (h : step s a = some t) : BeforeCall t := by
  by_cases start : a = .start
  · obtain ⟨-, rfl⟩ := step_start (start ▸ h)
    exact ⟨nofun, nofun⟩
  by_cases stop : a = .stop
  · obtain ⟨-, rfl⟩ := step_stop (stop ▸ h)
    exact ⟨nofun, fun _ => rfl⟩
  obtain ⟨control, i, worker, phase, after, at_i, -⟩ := step_thread h ⟨start, stop⟩
  refine ⟨fun fresh => ?_, fun stopped => ?_⟩
  · -- Before the first start there is no thread that could take the step.
    rw [before.fresh (control ▸ fresh)] at at_i
    simp [initial] at at_i
  · have lowered := before.stopped (control ▸ stopped)
    cases a with
    | start => exact absurd rfl start
    | stop => exact absurd rfl stop
    | enter i agentInit => obtain ⟨_, -, rfl⟩ := step_enter h; rwa [enter_osCollect]
    | test i => obtain ⟨_, -, rfl⟩ := step_test h; exact lowered
    | body i => obtain ⟨_, -, rfl⟩ := step_body h; exact lowered

structure AllRaised (s : AgentState) : Prop where
  flags : s.flags = ⟨1, 1, 1, 1⟩
  alive : ∀ thread ∈ s.threads, thread.phase ≠ .finished

theorem enter_raised (worker : Worker) :
    worker.enter true ⟨1, 1, 1, 1⟩ = (⟨1, 1, 1, 1⟩, .test) := by
  cases worker <;> rfl

theorem loops_raised (worker : Worker) : worker.loops ⟨1, 1, 1, 1⟩ = true := by
  cases worker <;> rfl

theorem AllRaised.set {s : AgentState} (raised : AllRaised s) (i : Nat) (thread : Thread)
    (running : thread.phase ≠ .finished) :
    AllRaised { s with threads := s.threads.set i thread } :=
  ⟨raised.flags, fun other member => by
    rcases List.mem_or_eq_of_mem_set member with member | rfl
    · exact raised.alive other member
    · exact running⟩

theorem allRaised_step {s t : AgentState} {a : Action} (raised : AllRaised s)
    (ofThread : a.OfThread true) (h : step s a = some t) : AllRaised t := by
  cases a with
  | start => exact ofThread.elim
  | stop => exact ofThread.elim
  | enter i agentInit =>
    obtain rfl : agentInit = true := ofThread
    obtain ⟨worker, -, rfl⟩ := step_enter h
    rw [raised.flags, enter_raised]
    exact ⟨rfl, (raised.set i ⟨worker, .test⟩ nofun).alive⟩
  | test i =>
    obtain ⟨worker, -, rfl⟩ := step_test h
    have looping : worker.loops s.flags = true := by rw [raised.flags, loops_raised]
    rw [looping]
    exact raised.set i ⟨worker, .body⟩ nofun
  | body i =>
    obtain ⟨worker, -, rfl⟩ := step_body h
    exact raised.set i ⟨worker, .test⟩ nofun

theorem AllRaised.revived {s : AgentState} (raised : AllRaised s) (n : Nat) : Revived n s :=
  fun thread member => ⟨raised.alive thread (List.mem_of_mem_drop member),
    fun _ => by rw [raised.flags, loops_raised]⟩

theorem allRaised_first : AllRaised (gwAppStart initial) := ⟨by decide, by decide⟩

theorem revives_first : Revives true initial := fun _ run ofThread =>
  (run.everyState allRaised_first (fun _ _ _ raised ofThread h => allRaised_step raised ofThread h)
    ofThread).mono fun _ raised => raised.revived _

theorem not_revives_uninitialised : ¬Revives false initial := by
  intro revives
  have every := revives _ (run_traced step _ [.enter 1 false])
    (by simp [traced, initial, gwAppStart, createdThreads, step, EveryStep, Action.OfThread])
  have finished := every.final ⟨.snmpdServe, .finished⟩ (by decide)
  exact finished.1 rfl

theorem collector_created (s : AgentState) :
    (gwAppStart s).threads[s.threads.length + 2]? = some ⟨.osStart, .created⟩ := by
  simp [gwAppStart, createdThreads]

/-- With its flag at zero the collector thread fails its first loop test. -/
theorem not_revives_collector {s : AgentState} (lowered : s.flags.osCollectRunning = 0)
    (agentInit : Bool) : ¬Revives agentInit s := by
  intro revives
  let i := s.threads.length + 2
  have created := collector_created s
  let entered : AgentState :=
    { gwAppStart s with threads := (gwAppStart s).threads.set i ⟨.osStart, .test⟩ }
  have enters : step (gwAppStart s) (.enter i agentInit) = some entered := by
    simp [step, i, created, entered, Worker.enter]
  have every := revives [(.enter i agentInit, entered)] (.next enters (.done _)) ⟨rfl, trivial⟩
  have member : (⟨.osStart, .test⟩ : Thread) ∈ entered.threads.drop s.threads.length := by
    refine List.mem_iff_getElem?.mpr ⟨2, ?_⟩
    obtain ⟨inside, -⟩ := List.getElem?_eq_some_iff.mp created
    rw [List.getElem?_drop]
    exact List.getElem?_set_self inside
  have looping := (every.final _ member).2 rfl
  have flag : entered.flags.osCollectRunning = 0 := by
    simp only [entered, gwAppStart]
    split <;> exact lowered
  simp [Labelled.final, Worker.loops, flag] at looping

theorem stop_mem_of_stopped {s : AgentState} {trace : List (Action × AgentState)}
    (run : Run Steps s trace) (stopped : (final s trace).control = .stopped) :
    s.control = .stopped ∨ .stop ∈ trace.map Prod.fst := by
  induction run with
  | done _ => exact .inl stopped
  | @next s t a rest taken _ ih =>
    rcases ih stopped with h | h
    · by_cases stop : a = .stop
      · simp [stop]
      by_cases start : a = .start
      · obtain ⟨-, rfl⟩ := step_start (start ▸ taken); cases h
      · exact .inl ((step_thread taken ⟨start, stop⟩).1 ▸ h)
    · exact .inr (List.mem_cons_of_mem _ h)

theorem not_stop_mem_of_fresh {s : AgentState} {trace : List (Action × AgentState)}
    (run : Run Steps s trace) (fresh : (final s trace).control = .fresh) :
    s.control = .fresh ∧ .stop ∉ trace.map Prod.fst := by
  induction run with
  | done _ => exact ⟨fresh, by simp⟩
  | @next s t a rest taken _ ih =>
    obtain ⟨h, absent⟩ := ih fresh
    by_cases start : a = .start
    · obtain ⟨-, rfl⟩ := step_start (start ▸ taken); cases h
    by_cases stop : a = .stop
    · obtain ⟨-, rfl⟩ := step_stop (stop ▸ taken); cases h
    · exact ⟨(step_thread taken ⟨start, stop⟩).1 ▸ h, by simp [Ne.symm stop, absent]⟩

/-- The last start of a run revives every worker if and only if the run has no stop and the agent
initialises. That the earlier threads have returned is not needed. -/
theorem revives_iff {trace : List (Action × AgentState)} {s : AgentState} (agentInit : Bool)
    (run : Run Steps initial trace) (start : step (final initial trace) .start = some s) :
    Revives agentInit (final initial trace) ↔
      .stop ∉ trace.map Prod.fst ∧ agentInit = true := by
  have before := (run.invariant beforeCall_initial fun _ _ _ => beforeCall_step).final
  cases control : (final initial trace).control with
  | fresh =>
    rw [before.fresh control]
    cases agentInit with
    | true => simp [revives_first, (not_stop_mem_of_fresh run control).2]
    | false => simp [not_revives_uninitialised]
  | started => exact absurd control (step_start start).1
  | stopped =>
    have stop := (stop_mem_of_stopped run control).resolve_left (by decide)
    simp [not_revives_collector (before.stopped control), stop]

def stopAndFinish : List Action :=
  [.start, .enter 0 true, .enter 1 true, .enter 2 true, .enter 3 true, .stop, .test 0, .test 1,
    .test 2, .test 3]

theorem revives_iff_restart :
    Revives true (final initial (traced step initial stopAndFinish)) ↔
      .stop ∉ (traced step initial stopAndFinish).map Prod.fst ∧ true = true :=
  revives_iff true (run_traced _ _ _)
    (s := gwAppStart (final initial (traced step initial stopAndFinish))) (by decide)

/-- After that run, with every thread returned, a start does not revive the collector. -/
theorem revives_fails :
    ¬∀ trace s, Run Steps initial trace → step (final initial trace) .start = some s →
      (∀ thread ∈ (final initial trace).threads, thread.phase = .finished) →
      Revives true (final initial trace) := by
  intro every
  exact not_revives_collector (by decide) true
    (every _ _ (run_traced step initial stopAndFinish)
      (show _ = some (gwAppStart (final initial (traced step initial stopAndFinish))) by decide)
      (by decide))

end Guardwatch.Threads
