/-! Programs on a state that record something of what they do, such as the accesses of an array:
a program gives its result, the state after it, and its records in order. -/

namespace Recording

variable {ρ σ α β : Type}

structure Outcome (ρ σ α : Type) where
  value : α
  state : σ
  records : List ρ

def Recorder (ρ σ α : Type) : Type := σ → Outcome ρ σ α

def Recorder.run (m : Recorder ρ σ α) (s : σ) : Outcome ρ σ α := m s

instance : Monad (Recorder ρ σ) where
  pure a := fun s => ⟨a, s, []⟩
  bind m f := fun s =>
    let first := m s
    let rest := f first.value first.state
    ⟨rest.value, rest.state, first.records ++ rest.records⟩

/-- The state, read without a record. -/
def look : Recorder ρ σ σ := fun s => ⟨s, s, []⟩

/-- A change of the state without a record. -/
def change (f : σ → σ) : Recorder ρ σ Unit := fun s => ⟨(), f s, []⟩

def reads (record : σ → ρ) (f : σ → α) : Recorder ρ σ α := fun s => ⟨f s, s, [record s]⟩

def writes (record : σ → ρ) (f : σ → σ) : Recorder ρ σ Unit := fun s => ⟨(), f s, [record s]⟩

@[simp] theorem run_pure (a : α) (s : σ) :
    (pure a : Recorder ρ σ α).run s = ⟨a, s, []⟩ := rfl

@[simp] theorem run_bind (m : Recorder ρ σ α) (f : α → Recorder ρ σ β) (s : σ) :
    (m >>= f).run s =
      ⟨((f (m.run s).value).run (m.run s).state).value,
        ((f (m.run s).value).run (m.run s).state).state,
        (m.run s).records ++ ((f (m.run s).value).run (m.run s).state).records⟩ := rfl

@[simp] theorem run_look (s : σ) : (look : Recorder ρ σ σ).run s = ⟨s, s, []⟩ := rfl

@[simp] theorem run_change (f : σ → σ) (s : σ) :
    (change f : Recorder ρ σ Unit).run s = ⟨(), f s, []⟩ := rfl

@[simp] theorem run_reads (record : σ → ρ) (f : σ → α) (s : σ) :
    (reads record f).run s = ⟨f s, s, [record s]⟩ := rfl

@[simp] theorem run_writes (record : σ → ρ) (f : σ → σ) (s : σ) :
    (writes record f).run s = ⟨(), f s, [record s]⟩ := rfl

/-- From `s` the program gives the value and leaves the state, and `Ok` holds of all its records. -/
structure Within (Ok : ρ → Prop) (m : Recorder ρ σ α) (s : σ) (a : α) (t : σ) : Prop where
  value_eq : (m.run s).value = a
  state_eq : (m.run s).state = t
  records : ∀ r ∈ (m.run s).records, Ok r

variable {Ok : ρ → Prop} {m : Recorder ρ σ α} {f : α → Recorder ρ σ β} {s t u : σ} {a : α} {b : β}

theorem Within.pure (a : α) (s : σ) : Within Ok (Pure.pure a : Recorder ρ σ α) s a s :=
  ⟨rfl, rfl, nofun⟩

theorem Within.look (s : σ) : Within Ok (look : Recorder ρ σ σ) s s s := ⟨rfl, rfl, nofun⟩

theorem Within.change (f : σ → σ) (s : σ) : Within Ok (change f : Recorder ρ σ Unit) s () (f s) :=
  ⟨rfl, rfl, nofun⟩

theorem Within.reads {record : σ → ρ} (ok : Ok (record s)) (f : σ → α) :
    Within Ok (reads record f) s (f s) s :=
  ⟨rfl, rfl, fun r member => by rwa [List.mem_singleton.mp member]⟩

theorem Within.writes {record : σ → ρ} (ok : Ok (record s)) (f : σ → σ) :
    Within Ok (writes record f) s () (f s) :=
  ⟨rfl, rfl, fun r member => by rwa [List.mem_singleton.mp member]⟩

theorem Within.bind (first : Within Ok m s a t) (rest : Within Ok (f a) t b u) :
    Within Ok (m >>= f) s b u := by
  obtain ⟨rfl, rfl, firsts⟩ := first
  refine ⟨rest.value_eq, rest.state_eq, fun r member => ?_⟩
  rcases List.mem_append.mp member with early | late
  · exact firsts r early
  · exact rest.records r late

end Recording
