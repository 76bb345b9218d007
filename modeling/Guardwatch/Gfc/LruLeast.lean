import Guardwatch.Gfc.LruMemory

/-! The item that `gfc_lru_item_abandon` takes out of a cache whose items were all used at different
times. -/

namespace Guardwatch

open LinkedList

variable {α : Type}

/-- Chains that end, of allocated items, no two of which were used last at the same time. The keys
of the items may be anything. -/
structure LruDistinct (lru : GfcLru α) (chains : Nat → List Nat) : Prop where
  linked : ∀ i, Linked lru.next (lru.items i) (chains i)
  inside : ∀ i, ∀ p ∈ chains i, i < lru.hashTableSize.toNat
  allocated : ∀ i, ∀ p ∈ chains i, p < lru.itemCount
  distinct : ((visitOrder lru chains).map fun p => (lru.heap p).accessCount).Nodup

/-- What is left of the cache without its least recently used item: that item alone is unlinked and
put in front of the free items, and its memory is free. -/
structure LruAbandoned (lru lru' : GfcLru α) (chains : Nat → List Nat) (p : Nat) : Prop where
  member : ∃ i, p ∈ chains i
  least : ∀ i, ∀ q ∈ chains i, q ≠ p → (lru.heap p).accessCount < (lru.heap q).accessCount
  linked : ∀ i, Linked lru'.next (lru'.items i) ((chains i).erase p)
  others : ∀ q, q ≠ p → lru'.heap q = { lru.heap q with next := lru'.next q }
  freeMemory : lru'.freeMemory = lru.freeMemory + (lru.heap p).valueLength.toUInt64
  first_free : lru'.freeItems = some p ∧ lru'.next p = lru.freeItems
  free_linked : ∀ free, Linked lru.next lru.freeItems free → (∀ i, ∀ q ∈ chains i, q ∉ free) →
    Linked lru'.next lru'.freeItems (p :: free)

/-- The eviction takes the least recently used item, or leaves an empty cache as it is. -/
def AbandonsLeast (lru : GfcLru α) (chains : Nat → List Nat) : Prop :=
  ∃ lru' keys, gfcLruItemAbandon lru = some (lru', keys) ∧
    ((∀ i, chains i = []) ∧ lru' = lru ∨ ∃ p, LruAbandoned lru lru' chains p)

variable {lru lru' : GfcLru α} {chains : Nat → List Nat} {p q i : Nat}

namespace LruDistinct

theorem nodup (lists : LruDistinct lru chains) : (visitOrder lru chains).Nodup :=
  lists.distinct.of_map _

theorem placed (lists : LruDistinct lru chains) : LruPlaced lru chains := by
  refine ⟨lists.linked, lists.inside, fun i j p at_i at_j => ?_, lists.allocated⟩
  have disjoint := (List.nodup_flatMap.mp lists.nodup).2
  have : Std.Symm (Function.onFun List.Disjoint chains) := ⟨fun _ _ => List.Disjoint.symm⟩
  by_contra other
  exact disjoint.forall (List.mem_range.mpr (lists.inside i p at_i))
    (List.mem_range.mpr (lists.inside j p at_j)) other at_i at_j

/-- Two items that were used last at the same time are the same. -/
theorem eq_of_count (lists : LruDistinct lru chains) {j : Nat} (at_i : p ∈ chains i)
    (at_j : q ∈ chains j) (same : (lru.heap p).accessCount = (lru.heap q).accessCount) : p = q :=
  List.inj_on_of_nodup_map lists.distinct (lists.placed.mem_visitOrder.mpr ⟨i, at_i⟩)
    (lists.placed.mem_visitOrder.mpr ⟨j, at_j⟩) same

end LruDistinct

/-! ### The removal -/

/-- Beside the item itself, only the link of the one before it changes. -/
theorem gfcLruItemRemove_heap {prev : Option Nat}
    (removed : gfcLruItemRemove lru prev p i = some lru') (other : q ≠ p) :
    lru'.heap q = { lru.heap q with next := lru'.next q } := by
  unfold gfcLruItemRemove at removed
  obtain ⟨freed, free, rfl⟩ := Option.map_eq_some_iff.mp removed
  obtain ⟨keys, rfl, -⟩ := freeKey_some free
  have at_other : ∀ item : LruItem α,
      Function.update (lru.setLink prev i (lru.heap p).next).heap p item q =
        (lru.setLink prev i (lru.heap p).next).heap q :=
    fun item => Function.update_of_ne other _ _
  simp only [GfcLru.next, GfcLru.setItem, at_other, setLink_heap]
  split <;> rfl

theorem erase_chain {front back : List Nat} (lists : LruPlaced lru chains)
    (chain : chains i = front ++ p :: back) (j : Nat) :
    (chains j).erase p = Function.update chains i (front ++ back) j := by
  by_cases same : j = i
  · subst same
    have distinct := (lists.linked j).nodup
    rw [chain, List.nodup_middle, List.nodup_cons, List.mem_append, not_or] at distinct
    rw [Function.update_self, chain, List.erase_append_right _ distinct.1.1, List.erase_cons_head]
  · rw [Function.update_of_ne same, List.erase_of_not_mem]
    exact fun member => same (lists.apart j i p member (chain ▸ List.mem_append_cons_self))

theorem LruDistinct.remove {front back : List Nat} (lists : LruDistinct lru chains)
    (chain : chains i = front ++ p :: back)
    (least : ∀ j, ∀ q ∈ chains j, (lru.heap p).accessCount ≤ (lru.heap q).accessCount)
    (removed : gfcLruItemRemove lru front.getLast? p i = some lru') :
    LruAbandoned lru lru' chains p := by
  obtain ⟨change, -⟩ := gfcLruItemRemove_some removed
  have at_i : p ∈ chains i := chain ▸ List.mem_append_cons_self
  constructor
  case member => exact ⟨i, at_i⟩
  case least =>
    intro j q at_j other
    refine UInt64.lt_of_le_of_ne (least j q at_j) fun same => other ?_
    exact lists.eq_of_count at_j at_i same.symm
  case linked =>
    intro j
    rw [erase_chain lists.placed chain]
    exact lists.placed.removed_linked chain change j
  case others => exact fun q other => gfcLruItemRemove_heap removed other
  case freeMemory => exact change.freeMemory
  case first_free => exact ⟨change.freeItems, change.next_self⟩
  case free_linked =>
    intro free linked unused
    rw [change.freeItems]
    refine ⟨rfl, ?_⟩
    rw [change.next_self]
    refine linked.congr fun q member => removed_next change ?_ fun before => ?_
    · rintro rfl
      exact unused i q at_i member
    · exact unused i q (chain ▸ List.mem_append_left _ before) member

/-! ### The eviction -/

/-- The item with the smallest count is taken out, and nothing else happens, exactly where its key
has not been freed. -/
theorem abandonsLeast_iff (lists : LruDistinct lru chains) :
    AbandonsLeast lru chains ↔ ∀ i, ∀ p ∈ chains i,
      (∀ j, ∀ q ∈ chains j, (lru.heap p).accessCount ≤ (lru.heap q).accessCount) →
        ¬lru.Stale p := by
  rcases lists.placed.abandon with ⟨empty, kept⟩ | ⟨i, front, p, back, chain, least, -, abandoned⟩
  · refine iff_of_true ⟨lru, [], kept, .inl ⟨empty, rfl⟩⟩ fun i p member => ?_
    rw [empty i] at member
    cases member
  · have at_i : p ∈ chains i := chain ▸ List.mem_append_cons_self
    cases removed : gfcLruItemRemove lru front.getLast? p i with
    | none =>
      rw [removed] at abandoned
      have stale : lru.Stale p := gfcLruItemRemove_none.mp removed
      refine iff_of_false ?_ fun intact => intact i p at_i least stale
      rintro ⟨lru', keys, returned, -⟩
      cases abandoned.symm.trans returned
    | some lru' =>
      rw [removed] at abandoned
      refine iff_of_true ⟨lru', _, abandoned, .inr ⟨p, lists.remove chain least removed⟩⟩ ?_
      intro j q at_j first stale
      have same : (lru.heap q).accessCount = (lru.heap p).accessCount :=
        UInt64.le_antisymm (first i p at_i) (least j q at_j)
      obtain rfl := lists.eq_of_count at_j at_i same
      rw [gfcLruItemRemove_none.mpr stale] at removed
      cases removed

/-- The chains of a cache that has been set up by calls, where the counts are different. -/
theorem lruDistinct_of_visited (formed : LruChained lru chains)
    (distinct : (lru.visited.map fun p => (lru.heap p).accessCount).Nodup) :
    LruDistinct lru chains :=
  ⟨formed.linked, formed.inside, formed.allocated, formed.visited ▸ distinct⟩

/-- Two items in one chain. -/
theorem abandonsLeast_iff_twoItems :
    ∃ lru₁ ∈ lruReturned 1 (gfcLruNew 100 100 0 : GfcLru Nat) (.set keyA (some 1) 6),
      ∃ lru₂ ∈ lruReturned 1 lru₁ (.set keyB (some 2) 5),
        ∃ chains, LruDistinct lru₂ chains ∧ AbandonsLeast lru₂ chains := by
  obtain ⟨lru₁, returned₁, lru₂, returned₂, ends, unused, distinct, intact⟩ :
      ∃ lru₁ ∈ lruReturned 1 (gfcLruNew 100 100 0 : GfcLru Nat) (.set keyA (some 1) 6),
        ∃ lru₂ ∈ lruReturned 1 lru₁ (.set keyB (some 2) 5),
          SetEnds (some lru₁) (.set keyB (some 2) 5) ∧ lru₂.freeItems = none ∧
          (lru₂.visited.map fun p => (lru₂.heap p).accessCount).Nodup ∧
            ∀ p ∈ lru₂.visited, ¬lru₂.Stale p := by
    decide +kernel
  have tidy := lruTidy_set (lruTidy_new 100 0 100) (by decide +kernel) (.returns 1 returned₁)
  obtain ⟨chains, spare, formed⟩ :=
    lruTidy_wellFormed (lruTidy_set tidy ends (.returns 1 returned₂)) unused
  have lists := lruDistinct_of_visited formed.toLruChained distinct
  refine ⟨lru₁, returned₁, lru₂, returned₂, chains, lists, ?_⟩
  exact (abandonsLeast_iff lists).mpr fun i p member _ =>
    intact p (formed.visited ▸ lists.placed.mem_visitOrder.mpr ⟨i, member⟩)

/-- After a second value for a key, the eviction frees the item's key once more. -/
theorem abandonsLeast_fails :
    ¬∀ (lru : GfcLru Nat) (chains : Nat → List Nat), LruDistinct lru chains →
      (∀ i, ∀ p ∈ chains i, (lru.heap p).accessCount < -1) → AbandonsLeast lru chains := by
  intro every
  obtain ⟨lru₁, returned₁, lru₂, returned₂, ends, unused, distinct, below, missing⟩ :
      ∃ lru₁ ∈ lruReturned 1 (gfcLruNew 100 100 0 : GfcLru Nat) (.set keyA (some 1) 6),
        ∃ lru₂ ∈ lruReturned 1 lru₁ (.set keyA (some 2) 6),
          SetEnds (some lru₁) (.set keyA (some 2) 6) ∧ lru₂.freeItems = none ∧
          (lru₂.visited.map fun p => (lru₂.heap p).accessCount).Nodup ∧
          (∀ p ∈ lru₂.visited, (lru₂.heap p).accessCount < -1) ∧
            (gfcLruItemAbandon lru₂).isNone = true := by
    decide +kernel
  have tidy := lruTidy_set (lruTidy_new 100 0 100) (by decide +kernel) (.returns 1 returned₁)
  obtain ⟨chains, spare, formed⟩ :=
    lruTidy_wellFormed (lruTidy_set tidy ends (.returns 1 returned₂)) unused
  have lists := lruDistinct_of_visited formed.toLruChained distinct
  obtain ⟨lru', keys, returned, -⟩ := every lru₂ chains lists fun i p member =>
    below p (formed.visited ▸ lists.placed.mem_visitOrder.mpr ⟨i, member⟩)
  rw [returned] at missing
  cases missing

end Guardwatch
