import Guardwatch.Gfc.LruEviction

/-! The order in which items are evicted, and what the loop that evicts leaves of them, also where
items without a key have come into a chain. -/

namespace Guardwatch

open LinkedList

variable {α : Type}

namespace GfcLru

/-- The items of all chains, in the order in which they are visited for the least recently used
one. -/
def visited (lru : GfcLru α) : List Nat :=
  (List.range lru.hashTableSize.toNat).flatMap fun i =>
    lru.chain (lru.itemCount + 1) (lru.items i)

/-- The memory of those items in the chains that have the property. -/
def memoryOf (lru : GfcLru α) (within : Nat → Prop) [DecidablePred within] : Nat :=
  ∑ p ∈ lru.cached.filter within, (lru.heap p).valueLength.toNat

/-- The memory of all items in the chains. -/
def held (lru : GfcLru α) : Nat := ∑ p ∈ lru.cached, (lru.heap p).valueLength.toNat

/-- The key of the item has been freed, and removing the item would free it again. -/
def Stale (lru : GfcLru α) (item : Nat) : Prop := lru.freeKey (lru.heap item).key = none

instance (lru : GfcLru α) (item : Nat) : Decidable (lru.Stale item) :=
  inferInstanceAs (Decidable (_ = _))

/-- The item comes before each whose key has been freed. -/
def Unblocked (lru : GfcLru α) (before : Nat → Nat → Prop) (item : Nat) : Prop :=
  ∀ q ∈ lru.cached, lru.Stale q → before item q

instance (lru : GfcLru α) (before : Nat → Nat → Prop) [DecidableRel before] (item : Nat) :
    Decidable (lru.Unblocked before item) :=
  inferInstanceAs (Decidable (∀ _ ∈ _, _))

/-- The item is evicted before the other one, where one of the items may have been updated. -/
def Before (lru : GfcLru α) (updated : Option Nat) (item other : Nat) : Prop :=
  item ≠ other ∧
    if [item, other].Sublist lru.visited then
      Sooner (lru.lastUse updated item) (lru.lastUse updated other)
    else ¬Sooner (lru.lastUse updated other) (lru.lastUse updated item)

instance (lru : GfcLru α) (updated : Option Nat) (item other : Nat) :
    Decidable (lru.Before updated item other) :=
  inferInstanceAs (Decidable (_ ∧ _))

end GfcLru

variable {lru lru' lru₁ lru₂ last : GfcLru α} {chains : Nat → List Nat} {p q i rounds : Nat}
  {before : Nat → Nat → Prop} {required : UInt32} {evicted keys : List LruKey}

/-! ### The order -/

theorem LruChained.visited (lists : LruChained lru chains) :
    lru.visited = visitOrder lru chains := by
  simp only [GfcLru.visited, visitOrder, fun i => chain_linked (lists.linked i) (lists.placed.short i)]

/-- No item is visited twice. -/
theorem LruChained.nodup (lists : LruChained lru chains) : (visitOrder lru chains).Nodup := by
  rw [visitOrder, List.nodup_flatMap]
  refine ⟨fun i _ => (lists.linked i).nodup, ?_⟩
  refine List.nodup_range.imp fun {i j} other => ?_
  rw [Function.onFun, List.disjoint_iff_ne]
  rintro p at_i q at_j rfl
  exact other (lists.apart i j p at_i at_j)

/-- The chains, and which of two items is evicted first. -/
structure LruOrdered (before : Nat → Nat → Prop) (lru : GfcLru α) (chains : Nat → List Nat) :
    Prop extends LruChained lru chains where
  irrefl : ∀ p, ¬before p p
  order : (visitOrder lru chains).Pairwise fun p q =>
    if Sooner (lru.heap p).accessCount (lru.heap q).accessCount then before p q ∧ ¬before q p
    else before q p ∧ ¬before p q

theorem sublist_swap {l : List Nat} (distinct : l.Nodup) (first : [p, q].Sublist l) :
    ¬[q, p].Sublist l := by
  induction l with
  | nil => cases first
  | cons a l ih =>
    obtain ⟨new, distinct⟩ := List.nodup_cons.mp distinct
    intro second
    cases first with
    | cons _ first =>
      cases second with
      | cons _ second => exact ih distinct first second
      | cons_cons _ second => exact new (first.subset (by simp))
    | cons_cons _ first =>
      cases second with
      | cons _ second => exact new (second.subset (by simp))
      | cons_cons _ second => exact new (first.subset (by simp))

theorem LruChained.ordered (lists : LruChained lru chains) :
    LruOrdered (lru.Before none) lru chains := by
  refine ⟨lists, fun p same => same.1 rfl, ?_⟩
  rw [List.pairwise_iff_forall_sublist]
  intro p q first
  have distinct := lists.nodup
  have apart : p ≠ q := by
    rintro rfl
    exact absurd (distinct.sublist first) (by simp)
  have second := sublist_swap distinct first
  simp only [GfcLru.Before, lists.visited, first, second, GfcLru.lastUse, if_true, if_false,
    reduceCtorEq]
  split
  · rename_i kept
    exact ⟨⟨apart, kept⟩, fun other => other.2 kept⟩
  · rename_i taken
    exact ⟨⟨apart.symm, taken⟩, fun other => taken other.2⟩

/-! ### Evictions -/

theorem stale_iff : lru.Stale p ↔
    ∃ buffer, (lru.heap p).key = some buffer ∧ lru.keys buffer = none := by
  unfold GfcLru.Stale GfcLru.freeKey
  cases (lru.heap p).key with
  | none => simp
  | some buffer => simp

/-- What an eviction changes. -/
structure LruEvicted (lru lru' : GfcLru α) (p : Nat) : Prop where
  cached : lru'.cached = lru.cached.erase p
  freeMemory : lru'.freeMemory = lru.freeMemory + (lru.heap p).valueLength.toUInt64
  valueLength : ∀ q ∈ lru'.cached, (lru'.heap q).valueLength = (lru.heap q).valueLength
  stale : ∀ q ∈ lru'.cached, (lru'.Stale q ↔ lru.Stale q)

theorem visitOrder_removed {front back : List Nat} (chain : chains i = front ++ p :: back)
    (size : lru'.hashTableSize = lru.hashTableSize) :
    (visitOrder lru' (Function.update chains i (front ++ back))).Sublist
      (visitOrder lru chains) := by
  rw [visitOrder, visitOrder, size]
  induction List.range lru.hashTableSize.toNat with
  | nil => exact List.Sublist.refl []
  | cons j slots ih =>
    rw [List.flatMap_cons, List.flatMap_cons]
    refine List.Sublist.append ?_ ih
    by_cases same : j = i
    · subst same
      rw [Function.update_self, chain]
      exact (List.Sublist.refl front).append (List.sublist_cons_self p back)
    · rw [Function.update_of_ne same]

theorem LruOrdered.remove {front back : List Nat} (lists : LruOrdered before lru chains)
    (chain : chains i = front ++ p :: back)
    (removed : gfcLruItemRemove lru front.getLast? p i = some lru') :
    LruOrdered before lru' (Function.update chains i (front ++ back)) ∧ LruEvicted lru lru' p := by
  have chained := lists.toLruChained.remove chain removed
  obtain ⟨change, unkeyed⟩ := gfcLruItemRemove_some removed
  have apart := lists.placed.removed_apart chain
  refine ⟨⟨chained, lists.irrefl, ?_⟩, ⟨lists.cached_removed chain chained, change.freeMemory,
    fun q member => ?_, fun q member => ?_⟩⟩
  · have kept := lists.order.sublist (visitOrder_removed chain change.table.size)
    refine kept.imp_of_mem fun {q r} at_q at_r ordered => ?_
    obtain ⟨j, at_q⟩ := chained.placed.mem_visitOrder.mp at_q
    obtain ⟨k, at_r⟩ := chained.placed.mem_visitOrder.mp at_r
    rw [(change.use q (apart j q at_q)).accessCount, (change.use r (apart k r at_r)).accessCount]
    exact ordered
  · obtain ⟨j, member⟩ := chained.mem_cached.mp member
    exact (change.use q (apart j q member)).valueLength
  · obtain ⟨j, member⟩ := chained.mem_cached.mp member
    have key := lists.removed_key chain removed j q member
    rw [stale_iff, stale_iff, key]
    refine exists_congr fun buffer => and_congr_right fun at_q => ?_
    rw [(change.entry q (apart j q member) fun same => apart j q member ?_).buffer buffer at_q]
    exact lists.buffers j i q p buffer (mem_update_chains chain member)
      (chain ▸ List.mem_append_cons_self) at_q (same.symm.trans at_q)

/-- The item comes before all others. -/
structure Foremost (before : Nat → Nat → Prop) (lru : GfcLru α) (p : Nat) : Prop where
  member : p ∈ lru.cached
  not_before : ∀ q ∈ lru.cached, ¬before q p
  before : ∀ q ∈ lru.cached, q ≠ p → before p q

/-- An eviction takes the foremost item; it goes wrong where the key of that item has been freed. -/
theorem LruOrdered.abandon (lists : LruOrdered before lru chains) :
    (lru.cached = ∅ ∧ gfcLruItemAbandon lru = some (lru, [])) ∨
      ∃ p, Foremost before lru p ∧
        ((lru.Stale p ∧ gfcLruItemAbandon lru = none) ∨
          ∃ lru' chains' keys, gfcLruItemAbandon lru = some (lru', keys) ∧ ¬lru.Stale p ∧
            LruOrdered before lru' chains' ∧ LruEvicted lru lru' p) := by
  rcases lists.placed.abandon with ⟨empty, kept⟩ |
      ⟨i, front, p, back, chain, -, ⟨earlier, later, visited, sooner, others⟩, abandoned⟩
  · left
    refine ⟨Finset.eq_empty_of_forall_notMem fun q member => ?_, kept⟩
    obtain ⟨j, member⟩ := lists.mem_cached.mp member
    rw [empty j] at member
    cases member
  · right
    have foremost : ∀ q ∈ lru.cached, q ≠ p → before p q ∧ ¬before q p := by
      intro q member other
      have order := lists.order
      rw [visited, List.pairwise_append, List.pairwise_cons] at order
      obtain ⟨-, ⟨behind, -⟩, across⟩ := order
      have at_q := lists.placed.mem_visitOrder.mpr (lists.mem_cached.mp member)
      rw [visited, List.mem_append, List.mem_cons] at at_q
      rcases at_q with at_q | rfl | at_q
      · have ordered := across q at_q p List.mem_cons_self
        rwa [if_neg (sooner q at_q)] at ordered
      · exact absurd rfl other
      · have ordered := behind q at_q
        rwa [if_pos (others q at_q)] at ordered
    have cached := lists.cached_of_chain chain
    refine ⟨p, ⟨cached, fun q member => ?_, fun q member other => (foremost q member other).1⟩, ?_⟩
    · by_cases same : q = p
      · rw [same]
        exact lists.irrefl p
      · exact (foremost q member same).2
    · cases removed : gfcLruItemRemove lru front.getLast? p i with
      | none =>
        rw [removed] at abandoned
        exact .inl ⟨gfcLruItemRemove_none.mp removed, abandoned⟩
      | some lru' =>
        rw [removed] at abandoned
        obtain ⟨lists', evicted⟩ := lists.remove chain removed
        refine .inr ⟨lru', _, _, abandoned, fun stale => ?_, lists', evicted⟩
        rw [gfcLruItemRemove_none.mpr stale] at removed
        cases removed

theorem LruEvicted.mem (change : LruEvicted lru lru' p) (member : q ∈ lru.cached)
    (other : q ≠ p) : q ∈ lru'.cached := by
  rw [change.cached]
  exact Finset.mem_erase.mpr ⟨other, member⟩

theorem LruEvicted.mem_stale (change : LruEvicted lru lru' p) (member : q ∈ lru.cached)
    (stale : lru.Stale q) (intact : ¬lru.Stale p) : q ∈ lru'.cached ∧ lru'.Stale q := by
  have other : q ≠ p := by
    rintro rfl
    exact intact stale
  have member' := change.mem member other
  exact ⟨member', (change.stale q member').mpr stale⟩

theorem LruEvicted.of_mem (change : LruEvicted lru lru' p) (member : q ∈ lru'.cached) :
    q ∈ lru.cached ∧ q ≠ p := by
  rw [change.cached, Finset.mem_erase] at member
  exact member.symm

/-- The memory of the evicted item is no longer that of an item. -/
theorem LruEvicted.memoryOf (change : LruEvicted lru lru' p) (member : p ∈ lru.cached)
    (within : Nat → Prop) [DecidablePred within] (at_p : within p) :
    lru.memoryOf within = (lru.heap p).valueLength.toNat + lru'.memoryOf within := by
  have in_filter : p ∈ lru.cached.filter within := Finset.mem_filter.mpr ⟨member, at_p⟩
  rw [GfcLru.memoryOf, GfcLru.memoryOf, ← Finset.add_sum_erase _ _ in_filter,
    ← Finset.filter_erase, ← change.cached]
  congr 1
  refine Finset.sum_congr rfl fun q at_q => ?_
  rw [change.valueLength q (Finset.mem_filter.mp at_q).1]

theorem GfcLru.held_eq : lru.held = lru.memoryOf fun _ => True := by
  simp [GfcLru.held, GfcLru.memoryOf]

/-- Nothing lies before the foremost item. -/
theorem Foremost.memoryOf [DecidableRel before] (foremost : Foremost before lru p) :
    lru.memoryOf (before · p) = 0 := by
  have none_before : lru.cached.filter (before · p) = ∅ :=
    Finset.filter_eq_empty_iff.mpr fun _ member => foremost.not_before _ member
  rw [GfcLru.memoryOf, none_before, Finset.sum_empty]

/-! ### The loop -/

/-- What every eviction keeps holds where the loop ends. -/
theorem LruOrdered.evict_keeps {P : GfcLru α → Prop} (lists : LruOrdered before lru chains)
    (step : ∀ lru lru' p, lru.freeMemory.toNat < required.toNat → Foremost before lru p →
      ¬lru.Stale p → LruEvicted lru lru' p → P lru → P lru')
    (start : P lru)
    (returned : lruEvict required.toUInt64 rounds lru evicted = .returned last keys) :
    P last ∧ required.toNat ≤ last.freeMemory.toNat := by
  induction rounds generalizing lru chains evicted with
  | zero => cases returned
  | succ rounds ih =>
    rw [lruEvict] at returned
    split at returned
    · rename_i little
      rw [UInt64.lt_iff_toNat_lt, UInt32.toNat_toUInt64] at little
      rcases lists.abandon with ⟨-, kept⟩ | ⟨p, foremost, ⟨-, wrong⟩ | abandoned⟩
      · rw [kept] at returned
        exact ih lists start returned
      · rw [wrong] at returned
        cases returned
      · obtain ⟨lru', chains', keys', abandoned, intact, lists', change⟩ := abandoned
        rw [abandoned] at returned
        exact ih lists' (step lru lru' p little foremost intact change start) returned
    · rename_i enough
      rw [UInt64.lt_iff_toNat_lt, UInt32.toNat_toUInt64] at enough
      cases returned
      exact ⟨start, Nat.le_of_not_lt enough⟩

/-- The loop ends where there is an item to evict in every round. -/
theorem LruOrdered.evict_returns {P : GfcLru α → Prop} (lists : LruOrdered before lru chains)
    (step : ∀ lru lru' p, lru.freeMemory.toNat < required.toNat → Foremost before lru p →
      ¬lru.Stale p → LruEvicted lru lru' p → P lru → P lru')
    (runs : ∀ lru, lru.freeMemory.toNat < required.toNat → P lru →
      lru.cached.Nonempty ∧ ∀ p, Foremost before lru p → ¬lru.Stale p)
    (start : P lru) (many : lru.cached.card < rounds) (evicted : List LruKey) :
    ∃ last keys, lruEvict required.toUInt64 rounds lru evicted = .returned last keys := by
  induction rounds generalizing lru chains evicted with
  | zero => exact absurd many (Nat.not_lt_zero _)
  | succ rounds ih =>
    rw [lruEvict]
    split
    · rename_i little
      rw [UInt64.lt_iff_toNat_lt, UInt32.toNat_toUInt64] at little
      obtain ⟨⟨q, some_item⟩, intact⟩ := runs lru little start
      rcases lists.abandon with ⟨empty, -⟩ | ⟨p, foremost, ⟨stale, -⟩ | abandoned⟩
      · rw [empty] at some_item
        exact absurd some_item (Finset.notMem_empty q)
      · exact absurd stale (intact p foremost)
      · obtain ⟨lru', chains', keys', abandoned, intact, lists', change⟩ := abandoned
        rw [abandoned]
        apply ih lists' (step lru lru' p little foremost intact change start)
        rw [change.cached]
        exact Nat.lt_of_lt_of_le (Finset.card_erase_lt_of_mem foremost.member)
          (Nat.le_of_lt_succ many)
    · exact ⟨lru, evicted, rfl⟩

theorem LruEvicted.freeMemory_toNat (change : LruEvicted lru lru' p)
    (little : lru.freeMemory.toNat < required.toNat) :
    lru'.freeMemory.toNat = lru.freeMemory.toNat + (lru.heap p).valueLength.toNat := by
  rw [change.freeMemory, freeMemory_add little]

/-- The loop moves memory from items to the free memory. -/
theorem LruOrdered.evict_held (lists : LruOrdered before lru chains)
    (returned : lruEvict required.toUInt64 rounds lru evicted = .returned last keys) :
    last.freeMemory.toNat + last.held = lru.freeMemory.toNat + lru.held ∧
      required.toNat ≤ last.freeMemory.toNat := by
  refine lists.evict_keeps (P := fun next =>
    next.freeMemory.toNat + next.held = lru.freeMemory.toNat + lru.held) ?_ rfl returned
  intro lru₁ lru₂ p little foremost intact change kept
  have released := change.memoryOf foremost.member (fun _ => True) trivial
  rw [← kept, change.freeMemory_toNat little, GfcLru.held_eq, GfcLru.held_eq, released]
  exact Nat.add_assoc _ _ _

/-- An item whose key has been freed is not evicted, nor is one behind it. -/
theorem LruOrdered.evict_stale (lists : LruOrdered before lru chains) (member : p ∈ lru.cached)
    (stale : lru.Stale p)
    (returned : lruEvict required.toUInt64 rounds lru evicted = .returned last keys) :
    p ∈ last.cached ∧ ∀ q ∈ lru.cached, before p q → q ∈ last.cached := by
  have step : ∀ (lru₁ lru₂ : GfcLru α) (r : Nat),
      lru₁.freeMemory.toNat < required.toNat → Foremost before lru₁ r → ¬lru₁.Stale r →
      LruEvicted lru₁ lru₂ r →
      (p ∈ lru₁.cached ∧ lru₁.Stale p ∧ ∀ q ∈ lru.cached, before p q → q ∈ lru₁.cached) →
      p ∈ lru₂.cached ∧ lru₂.Stale p ∧ ∀ q ∈ lru.cached, before p q → q ∈ lru₂.cached := by
    rintro lru₁ lru₂ r little foremost intact change ⟨at_p, stale, kept⟩
    obtain ⟨at_p', stale'⟩ := change.mem_stale at_p stale intact
    refine ⟨at_p', stale', fun q at_q behind => ?_⟩
    refine change.mem (kept q at_q behind) ?_
    rintro rfl
    exact foremost.not_before p at_p behind
  obtain ⟨⟨at_p, -, kept⟩, -⟩ :=
    lists.evict_keeps step ⟨member, stale, fun q at_q _ => at_q⟩ returned
  exact ⟨at_p, kept⟩

section Memory

variable [DecidableRel before]

/-- One eviction adds to the free memory what it takes from the items before another one. -/
theorem LruEvicted.memory_before (change : LruEvicted lru lru' p) (foremost : Foremost before lru p)
    (little : lru.freeMemory.toNat < required.toNat) (at_q : q ∈ lru.cached) (other : q ≠ p) :
    lru'.freeMemory.toNat + lru'.memoryOf (before · q) =
      lru.freeMemory.toNat + lru.memoryOf (before · q) := by
  have released := change.memoryOf foremost.member (before · q) (foremost.before q at_q other)
  rw [change.freeMemory_toNat little, released]
  exact Nat.add_assoc _ _ _

/-- An item is not evicted where the ones before it are enough. -/
theorem LruOrdered.evict_enough (lists : LruOrdered before lru chains) (member : q ∈ lru.cached)
    (enough : required.toNat ≤ lru.freeMemory.toNat + lru.memoryOf (before · q))
    (returned : lruEvict required.toUInt64 rounds lru evicted = .returned last keys) :
    q ∈ last.cached := by
  refine (lists.evict_keeps (P := fun next => q ∈ next.cached ∧
    required.toNat ≤ next.freeMemory.toNat + next.memoryOf (before · q)) ?_
    ⟨member, enough⟩ returned).1.1
  rintro lru₁ lru₂ p little foremost intact change ⟨at_q, enough⟩
  have other : q ≠ p := by
    rintro rfl
    rw [foremost.memoryOf] at enough
    exact absurd enough (Nat.not_le_of_lt little)
  rw [change.memory_before foremost little at_q other]
  exact ⟨change.mem at_q other, enough⟩

/-- An item is evicted where the ones before it are not enough. -/
theorem LruOrdered.evict_out (lists : LruOrdered before lru chains)
    (short : lru.freeMemory.toNat + lru.memoryOf (before · q) < required.toNat)
    (returned : lruEvict required.toUInt64 rounds lru evicted = .returned last keys) :
    q ∉ last.cached := by
  have step : ∀ (lru₁ lru₂ : GfcLru α) (p : Nat),
      lru₁.freeMemory.toNat < required.toNat → Foremost before lru₁ p → ¬lru₁.Stale p →
      LruEvicted lru₁ lru₂ p →
      (q ∈ lru₁.cached →
        lru₁.freeMemory.toNat + lru₁.memoryOf (before · q) < required.toNat) →
      q ∈ lru₂.cached →
        lru₂.freeMemory.toNat + lru₂.memoryOf (before · q) < required.toNat := by
    intro lru₁ lru₂ p little foremost intact change kept member
    obtain ⟨at_q, other⟩ := change.of_mem member
    rw [change.memory_before foremost little at_q other]
    exact kept at_q
  obtain ⟨kept, enough⟩ := lists.evict_keeps step (fun _ => short) returned
  exact fun member => absurd (kept member) (by omega)

/-- The loop evicts only items that come before those whose keys have been freed. -/
theorem LruEvicted.memory_unblocked (change : LruEvicted lru₁ lru₂ p)
    (foremost : Foremost before lru₁ p) (little : lru₁.freeMemory.toNat < required.toNat)
    (intact : ¬lru₁.Stale p)
    (kept : ∀ q ∈ lru.cached, lru.Stale q → q ∈ lru₁.cached ∧ lru₁.Stale q) :
    lru₂.freeMemory.toNat + lru₂.memoryOf (lru.Unblocked before) =
      lru₁.freeMemory.toNat + lru₁.memoryOf (lru.Unblocked before) := by
  have unblocked : lru.Unblocked before p := by
    intro q member stale
    obtain ⟨at_q, stale⟩ := kept q member stale
    refine foremost.before q at_q ?_
    rintro rfl
    exact intact stale
  rw [change.freeMemory_toNat little, change.memoryOf foremost.member _ unblocked]
  exact Nat.add_assoc _ _ _

/-- The loop never ends where the items that come before those whose keys have been freed are not
enough. -/
theorem LruOrdered.evict_stuck (lists : LruOrdered before lru chains)
    (short : lru.freeMemory.toNat + lru.memoryOf (lru.Unblocked before) < required.toNat) :
    lruEvict required.toUInt64 rounds lru evicted ≠ .returned last keys := by
  intro returned
  have step : ∀ (lru₁ lru₂ : GfcLru α) (p : Nat),
      lru₁.freeMemory.toNat < required.toNat → Foremost before lru₁ p → ¬lru₁.Stale p →
      LruEvicted lru₁ lru₂ p →
      ((∀ q ∈ lru.cached, lru.Stale q → q ∈ lru₁.cached ∧ lru₁.Stale q) ∧
        lru₁.freeMemory.toNat + lru₁.memoryOf (lru.Unblocked before) < required.toNat) →
      (∀ q ∈ lru.cached, lru.Stale q → q ∈ lru₂.cached ∧ lru₂.Stale q) ∧
        lru₂.freeMemory.toNat + lru₂.memoryOf (lru.Unblocked before) < required.toNat := by
    rintro lru₁ lru₂ p little foremost intact change ⟨kept, short⟩
    rw [change.memory_unblocked foremost little intact kept]
    refine ⟨fun q member stale => ?_, short⟩
    obtain ⟨at_q, stale⟩ := kept q member stale
    exact change.mem_stale at_q stale intact
  obtain ⟨⟨-, short⟩, enough⟩ :=
    lists.evict_keeps step ⟨fun q member stale => ⟨member, stale⟩, short⟩ returned
  omega

/-- The loop ends where those items are enough. -/
theorem LruOrdered.evict_ends (lists : LruOrdered before lru chains)
    (enough : required.toNat ≤ lru.freeMemory.toNat + lru.memoryOf (lru.Unblocked before)) :
    ∃ rounds last keys, lruEvict required.toUInt64 rounds lru [] = .returned last keys := by
  refine ⟨lru.cached.card + 1, lists.evict_returns (P := fun next =>
    (∀ q ∈ next.cached, next.Stale q → q ∈ lru.cached ∧ lru.Stale q) ∧
    (∀ q ∈ lru.cached, lru.Stale q → q ∈ next.cached ∧ next.Stale q) ∧
      required.toNat ≤ next.freeMemory.toNat + next.memoryOf (lru.Unblocked before)) ?_ ?_
    ⟨fun q member stale => ⟨member, stale⟩, fun q member stale => ⟨member, stale⟩, enough⟩
    (Nat.lt_succ_self _) []⟩
  · rintro lru₁ lru₂ p little foremost intact change ⟨same, kept, enough⟩
    rw [change.memory_unblocked foremost little intact kept]
    refine ⟨fun q member stale => ?_, fun q member stale => ?_, enough⟩
    · exact same q (change.of_mem member).1 ((change.stale q member).mp stale)
    · obtain ⟨at_q, stale⟩ := kept q member stale
      exact change.mem_stale at_q stale intact
  · rintro lru₁ little ⟨same, kept, enough⟩
    have positive : lru₁.memoryOf (lru.Unblocked before) ≠ 0 := by omega
    obtain ⟨q, at_q, -⟩ := Finset.exists_ne_zero_of_sum_ne_zero positive
    obtain ⟨member, unblocked⟩ := Finset.mem_filter.mp at_q
    refine ⟨⟨q, member⟩, fun p foremost stale => ?_⟩
    obtain ⟨cached, stale⟩ := same p foremost.member stale
    exact foremost.not_before q member (unblocked p cached stale)

/-- The loop ends where it can evict an item that is large enough. -/
theorem LruOrdered.evict_large (lists : LruOrdered before lru chains) (member : q ∈ lru.cached)
    (intact : ¬lru.Stale q) (ahead : ∀ p ∈ lru.cached, lru.Stale p → ¬before p q)
    (large : required.toNat ≤ (lru.heap q).valueLength.toNat) :
    ∃ rounds last keys, lruEvict required.toUInt64 rounds lru [] = .returned last keys := by
  refine ⟨lru.cached.card + 1, lists.evict_returns (P := fun next =>
    required.toNat ≤ next.freeMemory.toNat ∨ (q ∈ next.cached ∧ ¬next.Stale q ∧
      (∀ p ∈ next.cached, next.Stale p → ¬before p q) ∧
      required.toNat ≤ (next.heap q).valueLength.toNat)) ?_ ?_
    (.inr ⟨member, intact, ahead, large⟩) (Nat.lt_succ_self _) []⟩
  · rintro lru₁ lru₂ p little foremost intact change (enough | ⟨at_q, intact_q, ahead, large⟩)
    · omega
    · by_cases same : q = p
      · subst same
        rw [change.freeMemory_toNat little]
        exact .inl (Nat.le_add_left_of_le large)
      · have at_q' := change.mem at_q same
        refine .inr ⟨at_q', mt (change.stale q at_q').mp intact_q, fun r at_r stale => ?_, ?_⟩
        · exact ahead r (change.of_mem at_r).1 ((change.stale r at_r).mp stale)
        · rwa [change.valueLength q at_q']
  · rintro lru₁ little (enough | ⟨at_q, intact_q, ahead, large⟩)
    · omega
    · refine ⟨⟨q, at_q⟩, fun p foremost stale => ?_⟩
      by_cases same : q = p
      · exact intact_q (same ▸ stale)
      · exact ahead p foremost.member stale (foremost.before q at_q same)

end Memory

/-- The loop is entered where less memory is free than is required, which is then taken from what
is free. -/
theorem lruReclaim_returned : lruReclaim rounds lru required = .returned lru' keys ↔
    ∃ last : GfcLru α,
      lru' = { last with freeMemory := last.freeMemory - required.toUInt64 } ∧
        ((required.toNat ≤ lru.freeMemory.toNat ∧ last = lru ∧ keys = []) ∨
          (lru.freeMemory.toNat < required.toNat ∧
            lruEvict required.toUInt64 rounds lru [] = .returned last keys)) := by
  have entered : (required > 0 ∧ required.toUInt64 > lru.freeMemory) ↔
      lru.freeMemory.toNat < required.toNat := by
    rw [gt_iff_lt, gt_iff_lt, UInt32.lt_iff_toNat_lt, UInt64.lt_iff_toNat_lt,
      UInt32.toNat_toUInt64]
    exact ⟨fun more => more.2, fun less => ⟨Nat.zero_lt_of_lt less, less⟩⟩
  unfold lruReclaim
  by_cases little : lru.freeMemory.toNat < required.toNat
  · rw [if_pos (entered.mpr little)]
    cases lruEvict required.toUInt64 rounds lru [] <;>
      simp [little, Nat.not_le_of_lt little, eq_comm]
  · rw [if_neg (mt entered.mp little)]
    simp [little, Nat.le_of_not_lt little, eq_comm]

end Guardwatch
