import Mathlib.Data.List.Basic

/-! Sequences that are compressed in blocks of `n` items, with a buffer for the block that is not
full yet. -/

namespace BlockHash

variable {α σ : Type} (n : Nat) (compress : σ → List α → σ)

/-- One more item: a full buffer is compressed. -/
def feed (absorbed : σ × List α) (item : α) : σ × List α :=
  let buffer := absorbed.2 ++ [item]
  if buffer.length = n then (compress absorbed.1 buffer, []) else (absorbed.1, buffer)

def feedAll (absorbed : σ × List α) (items : List α) : σ × List α :=
  items.foldl (feed n compress) absorbed

/-- The full blocks of a sequence. -/
def blocks (items : List α) : List (List α) :=
  (List.range (items.length / n)).map fun i => (items.drop (i * n)).take n

variable {n : Nat} {compress : σ → List α → σ} {state : σ} {buffer items : List α}

theorem feedAll_append {absorbed : σ × List α} (first second : List α) :
    feedAll n compress absorbed (first ++ second) =
      feedAll n compress (feedAll n compress absorbed first) second :=
  List.foldl_append ..

/-- Less than is missing in the buffer. -/
theorem feedAll_short (short : buffer.length + items.length < n) :
    feedAll n compress (state, buffer) items = (state, buffer ++ items) := by
  induction items generalizing buffer with
  | nil => simp [feedAll]
  | cons item items ih =>
    rw [List.length_cons] at short
    have kept : feed n compress (state, buffer) item = (state, buffer ++ [item]) := by
      rw [feed, if_neg (by simp only [List.length_append, List.length_singleton]; omega)]
    rw [feedAll, List.foldl_cons, kept]
    refine (ih (by simp only [List.length_append, List.length_singleton]; omega)).trans ?_
    rw [List.append_assoc, List.singleton_append]

/-- What is missing in the buffer. -/
theorem feedAll_full (ne : items ≠ []) (full : buffer.length + items.length = n) :
    feedAll n compress (state, buffer) items = (compress state (buffer ++ items), []) := by
  obtain ⟨front, last, rfl⟩ := items.eq_nil_or_concat.resolve_left ne
  rw [List.concat_eq_append] at full ⊢
  rw [List.length_append, List.length_singleton] at full
  have front_kept : feedAll n compress (state, buffer) front = (state, buffer ++ front) :=
    feedAll_short (by omega)
  rw [feedAll_append, front_kept]
  show feed n compress (state, buffer ++ front) last = _
  rw [feed, if_pos (by simp only [List.length_append, List.length_singleton]; omega),
    List.append_assoc]

theorem blocks_short (short : items.length < n) : blocks n items = [] := by
  rw [blocks, Nat.div_eq_of_lt short]
  rfl

theorem blocks_cons (pos : 0 < n) (long : n ≤ items.length) :
    blocks n items = items.take n :: blocks n (items.drop n) := by
  have count : items.length / n = (items.drop n).length / n + 1 := by
    rw [List.length_drop, Nat.div_eq_sub_div pos long]
  rw [blocks, blocks, count, List.range_succ_eq_map, List.map_cons, List.map_map, Nat.zero_mul,
    List.drop_zero]
  congr 1
  refine List.map_congr_left fun i _ => ?_
  show (items.drop ((i + 1) * n)).take n = ((items.drop n).drop (i * n)).take n
  rw [List.drop_drop, Nat.succ_mul, Nat.add_comm]

/-- Feeding compresses the full blocks in their order and keeps the rest. -/
theorem feedAll_blocks (pos : 0 < n) (state : σ) (items : List α) :
    feedAll n compress (state, []) items =
      ((blocks n items).foldl compress state, items.drop (items.length / n * n)) := by
  generalize len : items.length / n = k
  induction k generalizing state items with
  | zero =>
    have short : items.length < n := Nat.lt_of_div_eq_zero pos len
    rw [blocks_short short, Nat.zero_mul, List.drop_zero]
    exact feedAll_short (by rwa [List.length_nil, Nat.zero_add])
  | succ k ih =>
    have long : n ≤ items.length := by
      by_contra short
      rw [Nat.div_eq_of_lt (Nat.lt_of_not_le short)] at len
      cases len
    have rest : (items.drop n).length / n = k := by
      have := Nat.div_eq_sub_div pos long
      rw [List.length_drop]
      omega
    have taken : (items.take n).length = n := List.length_take_of_le long
    have first : feedAll n compress (state, []) (items.take n) =
        (compress state (items.take n), []) :=
      feedAll_full (List.ne_nil_of_length_pos (by omega)) (by rw [List.length_nil, taken]; omega)
    have split : feedAll n compress (state, []) items =
        feedAll n compress (feedAll n compress (state, []) (items.take n)) (items.drop n) := by
      rw [← feedAll_append, List.take_append_drop]
    rw [split, first, ih _ _ rest, blocks_cons pos long, List.foldl_cons, List.drop_drop,
      Nat.succ_mul, Nat.add_comm]

/-- A sequence of whole blocks leaves nothing in the buffer. -/
theorem feedAll_whole (pos : 0 < n) (whole : n ∣ items.length) (state : σ) :
    feedAll n compress (state, []) items = ((blocks n items).foldl compress state, []) := by
  rw [feedAll_blocks pos, Nat.div_mul_cancel whole, List.drop_length]

end BlockHash
