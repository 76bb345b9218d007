/-! Runs of labelled transition systems. A run lists its actions, each with the state it leads to;
a property of every state of a run follows from what one step keeps. -/

universe u v

namespace Labelled

variable {σ : Type u} {α : Type v}

/-- From `s`, the listed actions lead in turn to the states listed with them. -/
inductive Run (step : σ → α → σ → Prop) : σ → List (α × σ) → Prop
  | done (s : σ) : Run step s []
  | next {s t : σ} {a : α} {rest : List (α × σ)} :
      step s a t → Run step t rest → Run step s ((a, t) :: rest)

/-- The last state of a run from `s`. -/
def final : σ → List (α × σ) → σ
  | s, [] => s
  | _, (_, t) :: rest => final t rest

/-- `P` holds of every state of a run from `s`, and of `s`. -/
def EveryState (P : σ → Prop) : σ → List (α × σ) → Prop
  | s, [] => P s
  | s, (_, t) :: rest => P s ∧ EveryState P t rest

/-- `Ok` holds of every action of a run from `s` in the state where it is taken. -/
def EveryStep (Ok : σ → α → Prop) : σ → List (α × σ) → Prop
  | _, [] => True
  | s, (a, t) :: rest => Ok s a ∧ EveryStep Ok t rest

instance EveryStep.decidable {Ok : σ → α → Prop} [∀ s a, Decidable (Ok s a)] :
    ∀ (s : σ) (trace : List (α × σ)), Decidable (EveryStep Ok s trace)
  | _, [] => .isTrue trivial
  | s, (a, t) :: rest =>
    have : Decidable (EveryStep Ok t rest) := EveryStep.decidable t rest
    inferInstanceAs (Decidable (Ok s a ∧ EveryStep Ok t rest))

/-- The run of a deterministic system that takes the listed actions, as far as they are possible. -/
def traced (step : σ → α → Option σ) : σ → List α → List (α × σ)
  | _, [] => []
  | s, a :: rest =>
    match step s a with
    | some t => (a, t) :: traced step t rest
    | none => []

theorem run_traced (step : σ → α → Option σ) (s : σ) (actions : List α) :
    Run (fun s a t => step s a = some t) s (traced step s actions) := by
  induction actions generalizing s with
  | nil => exact .done s
  | cons a rest ih =>
    simp only [traced]
    split
    · exact .next ‹_› (ih _)
    · exact .done s

theorem mem_of_mem_traced {step : σ → α → Option σ} {s : σ} {actions : List α} {p : α × σ}
    (h : p ∈ traced step s actions) : p.1 ∈ actions := by
  induction actions generalizing s with
  | nil => cases h
  | cons a rest ih =>
    rw [traced] at h
    split at h
    · rcases List.mem_cons.mp h with rfl | h
      · exact List.mem_cons_self
      · exact List.mem_cons_of_mem _ (ih h)
    · cases h

variable {step : σ → α → σ → Prop} {P J : σ → Prop} {Ok : σ → α → Prop} {s : σ}
  {trace : List (α × σ)}

theorem EveryState.first (every : EveryState P s trace) : P s := by
  cases trace with
  | nil => exact every
  | cons _ _ => exact every.1

theorem EveryState.final (every : EveryState P s trace) : P (final s trace) := by
  induction trace generalizing s with
  | nil => exact every
  | cons _ _ ih => exact ih every.2

theorem EveryState.mono {Q : σ → Prop} (every : EveryState P s trace) (weaker : ∀ t, P t → Q t) :
    EveryState Q s trace := by
  induction trace generalizing s with
  | nil => exact weaker s every
  | cons _ _ ih => exact ⟨weaker s every.1, ih every.2⟩

theorem Run.mono {step' : σ → α → σ → Prop} (run : Run step s trace)
    (wider : ∀ s a t, step s a t → step' s a t) : Run step' s trace := by
  induction run with
  | done s => exact .done s
  | next taken _ ih => exact .next (wider _ _ _ taken) ih

theorem final_snoc (s : σ) (trace : List (α × σ)) (a : α) (t : σ) :
    final s (trace ++ [(a, t)]) = t := by
  induction trace generalizing s with
  | nil => rfl
  | cons _ _ ih => exact ih _

theorem Run.snoc {a : α} {t : σ} (run : Run step s trace) (taken : step (Labelled.final s trace) a t) :
    Run step s (trace ++ [(a, t)]) := by
  induction run with
  | done s => exact .next taken (.done t)
  | next first _ ih => exact .next first (ih taken)

/-- One run of listed actions refutes a property of every run. -/
theorem traced_fails {f : σ → α → Option σ} (actions : List α)
    (taken : ∀ s a t, f s a = some t → step s a t) (bad : ¬P (final s (traced f s actions))) :
    ¬∀ trace, Run step s trace → EveryState P s trace := fun every =>
  bad (every _ ((run_traced f s actions).mono taken)).final

/-- The invariant rule: what holds first and is kept by every allowed step holds throughout a run
whose steps are all allowed. -/
theorem Run.everyState (run : Run step s trace) (start : J s)
    (keeps : ∀ s a t, J s → Ok s a → step s a t → J t) (allowed : EveryStep Ok s trace) :
    EveryState J s trace := by
  induction run with
  | done _ => exact start
  | next taken _ ih => exact ⟨start, ih (keeps _ _ _ start allowed.1 taken) allowed.2⟩

/-- The invariant rule for steps that are all allowed. -/
theorem Run.invariant (run : Run step s trace) (start : J s)
    (keeps : ∀ s a t, J s → step s a t → J t) : EveryState J s trace := by
  induction run with
  | done _ => exact start
  | next taken _ ih => exact ⟨start, ih (keeps _ _ _ start taken)⟩

/-- A run that takes only actions in `Q` is allowed where the invariant those keep says so. -/
theorem Run.everyStep {Q : α → Prop} (run : Run step s trace) (start : J s)
    (keeps : ∀ s a t, J s → Q a → step s a t → J t) (takes : ∀ p ∈ trace, Q p.1)
    (ok : ∀ s a, J s → Q a → Ok s a) : EveryStep Ok s trace := by
  induction run with
  | done _ => trivial
  | next taken _ ih =>
    have first := takes _ List.mem_cons_self
    exact ⟨ok _ _ start first, ih (keeps _ _ _ start first taken)
      fun p member => takes p (List.mem_cons_of_mem _ member)⟩

/-- The exact form of the invariant rule. `J` implies `P` and is kept by the steps that are
allowed, and a step that is not allowed leads out of `P`: then `P` holds throughout a run if and
only if every step of the run is allowed. -/
theorem Run.everyState_iff (run : Run step s trace) (start : J s) (holds : ∀ s, J s → P s)
    (keeps : ∀ s a t, J s → Ok s a → step s a t → J t)
    (needs : ∀ s a t, J s → step s a t → P t → Ok s a) :
    EveryState P s trace ↔ EveryStep Ok s trace := by
  constructor
  · intro every
    induction run with
    | done _ => trivial
    | next taken _ ih =>
      have allowed := needs _ _ _ start taken every.2.first
      exact ⟨allowed, ih (keeps _ _ _ start allowed taken) every.2⟩
  · intro allowed
    exact (run.everyState start keeps allowed).mono holds

end Labelled
