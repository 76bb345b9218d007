import Guardwatch.Gfc.LruOrder

/-! The memory of the cache: what is free and what the items in the chains take, after each call. -/

namespace Guardwatch

open LinkedList

variable {α : Type}

namespace GfcLru

/-- The free memory and the memory of the items make up that of the cache. -/
def Accounted (total : UInt64) (lru : GfcLru α) : Prop :=
  lru.freeMemory.toNat + lru.held = total.toNat

instance (total : UInt64) (lru : GfcLru α) : Decidable (lru.Accounted total) :=
  inferInstanceAs (Decidable (_ = _))

/-- The item that `gfc_lru_set` gives the value. -/
def target (lru : GfcLru α) (key : LruKey) : Option Nat :=
  (lru.find key).map fun
    | (_, some item) => item
    | (_, none) => (gfcLruItemPop lru).1

/-- The item can be evicted before the updated one and any other whose key has been freed. -/
def Releasable (lru : GfcLru α) (updated : Nat) (item : Nat) : Prop :=
  ∀ q ∈ lru.cached, updated = q ∨ lru.Stale q → lru.Before (some updated) item q

instance (lru : GfcLru α) (updated item : Nat) : Decidable (lru.Releasable updated item) :=
  inferInstanceAs (Decidable (∀ _ ∈ _, _))

/-- The items that are visited before a new one at the end of the chain. -/
def visitedUpTo (lru : GfcLru α) (hashIndex : Nat) : List Nat :=
  (List.range (hashIndex + 1)).flatMap fun i => lru.chain (lru.itemCount + 1) (lru.items i)

/-- The item is evicted before a new one at the end of the chain. -/
def Ahead (lru : GfcLru α) (hashIndex : Nat) (item : Nat) : Prop :=
  if item ∈ lru.visitedUpTo hashIndex then
    Sooner (lru.heap item).accessCount (lru.accessCount + 1)
  else ¬Sooner (lru.accessCount + 1) (lru.heap item).accessCount

instance (lru : GfcLru α) (hashIndex item : Nat) : Decidable (lru.Ahead hashIndex item) :=
  inferInstanceAs (Decidable (if item ∈ lru.visitedUpTo hashIndex then _ else _))

end GfcLru

/-- The items of the chains, and beside them those that the free list leads to, which have been
cleared. -/
structure LruWellFormed (lru : GfcLru α) (chains : Nat → List Nat) (spare : Set Nat) : Prop
    extends LruChained lru chains where
  first : ∀ p, lru.freeItems = some p → p ∈ spare
  closed : ∀ p ∈ spare, ∀ q, lru.next p = some q → q ∈ spare
  unused : ∀ i, ∀ p ∈ chains i, p ∉ spare
  spare_allocated : ∀ p ∈ spare, p < lru.itemCount
  cleared : ∀ p ∈ spare, lru.heap p = { LruItem.zero with next := lru.next p }

/-- The call leaves the memory accounted for, and the item that it sets in its chain where its value
is no longer than the cache is large. -/
def KeepsAccount (total : UInt64) (lru : GfcLru α) : LruCall α → Prop
  | .set key value valueLength => ∀ rounds lru',
      lruReturned rounds lru (.set key value valueLength) = some lru' →
        lru'.Accounted total ∧
          (valueLength.toNat ≤ total.toNat → ∃ p ∈ lru.target key, p ∈ lru'.cached)
  | .get key => ∃ lru', lruReturned 0 lru (.get key) = some lru' ∧ lru'.Accounted total
  | .remove key => ∃ lru', lruReturned 0 lru (.remove key) = some lru' ∧ lru'.Accounted total

/-- What the lookup of `gfc_lru_set` finds lets it keep the account, or not return: a value is not
made shorter, and a new item not evicted for itself. -/
def SetBalances (total : UInt64) (lru : GfcLru α) (key : LruKey) (valueLength : UInt32) :
    Option (Option Nat × Option Nat) → Prop
  | none => True
  | some (_, some item) => (lru.heap item).valueLength ≤ valueLength ∨
      lru.freeMemory.toNat + lru.memoryOf (lru.Releasable item) <
        (valueLength - (lru.heap item).valueLength).toNat
  | some (_, none) => total.toNat < valueLength.toNat ∨
      valueLength.toNat ≤
        lru.freeMemory.toNat + lru.memoryOf (lru.Ahead (gfcLruHash lru key)) ∨
      (∃ p ∈ lru.cached, lru.Stale p ∧ lru.Ahead (gfcLruHash lru key) p) ∨
      ¬∃ free, Linked lru.next lru.freeItems free

/-- The call keeps the account, or does not return. -/
def Balances (total : UInt64) (lru : GfcLru α) : LruCall α → Prop
  | .set key _ valueLength =>
      lru.hashTableSize = 0 ∨ SetBalances total lru key valueLength (lru.find key)
  | .get key => lru.hashTableSize ≠ 0 ∧ lru.find key ≠ none
  | .remove key => lru.hashTableSize ≠ 0 ∧ lru.find key ≠ none

variable {lru lru' last : GfcLru α} {chains chains' : Nat → List Nat} {spare : Set Nat}
  {key : LruKey} {p q i rounds : Nat} {total : UInt64}

/-! ### The items of the chains -/

theorem LruChained.cached_congr (lists : LruChained lru chains)
    (lists' : LruChained lru' chains) : lru'.cached = lru.cached := by
  ext p
  rw [lists'.mem_cached, lists.mem_cached]

theorem LruChained.update (lists : LruChained lru chains) (p buffer : Nat) (value : Option α)
    (valueLength : UInt32) : LruChained (lruUpdated lru p buffer value valueLength) chains :=
  lists.congr rfl lruUpdated_next rfl rfl (Nat.le_refl _) fun _ => lruUpdated_key

/-- A new buffer is not that of an item. -/
theorem LruChained.stale_ownKey (lists : LruChained lru chains) (key : LruKey)
    (member : p ∈ lru.cached) :
    (lru.ownKey key).Stale p ↔ lru.Stale p := by
  obtain ⟨i, in_chain⟩ := lists.mem_cached.mp member
  rw [stale_iff, stale_iff]
  refine exists_congr fun buffer => and_congr_right fun at_p => ?_
  rw [(lists.ownKey_same key i p in_chain).buffer buffer at_p]

/-! ### Lookups and removals -/

theorem LruChained.get (lists : LruChained lru chains) (account : lru.Accounted total)
    (found : lru.find key ≠ none) :
    ∃ lru', (gfcLruGet lru key).map Prod.snd = some lru' ∧ lru'.Accounted total := by
  obtain ⟨⟨prev, at_key⟩, found⟩ := Option.ne_none_iff_exists'.mp found
  unfold gfcLruGet
  rw [found]
  cases at_key with
  | none => exact ⟨lru, rfl, account⟩
  | some p =>
    refine ⟨_, rfl, ?_⟩
    rw [GfcLru.Accounted, ← account, GfcLru.held, GfcLru.held,
      lists.cached_congr (lists.access p)]
    congr 1
    refine Finset.sum_congr rfl fun q _ => ?_
    rw [access_heap]
    split <;> simp [*]

theorem LruChained.removeCall (lists : LruChained lru chains) (account : lru.Accounted total)
    (found : lru.find key ≠ none) :
    ∃ lru', gfcLruRemove lru key = some lru' ∧ lru'.Accounted total := by
  obtain ⟨result, found⟩ := Option.ne_none_iff_exists'.mp found
  unfold gfcLruRemove
  rcases lists.find_some found with rfl | ⟨front, p, back, chain, intact, rfl⟩
  · rw [found]
    exact ⟨lru, rfl, account⟩
  · obtain ⟨lru', removed, -⟩ :=
      gfcLruItemRemove_intact intact front.getLast? (gfcLruHash lru key)
    obtain ⟨-, change⟩ := lists.ordered.remove chain removed
    have released := change.memoryOf (lists.cached_of_chain chain) (fun _ => True) trivial
    rw [← GfcLru.held_eq, ← GfcLru.held_eq] at released
    have whole := total.toNat_lt
    rw [found]
    refine ⟨lru', removed, ?_⟩
    rw [GfcLru.Accounted] at account ⊢
    rw [change.freeMemory, UInt64.toNat_add, UInt32.toNat_toUInt64, Nat.mod_eq_of_lt (by omega)]
    omega

/-! ### The memory that is required -/

theorem chain_congr (next : lru'.next = lru.next) (steps : Nat) (item : Option Nat) :
    lru'.chain steps item = lru.chain steps item := by
  induction steps generalizing item with
  | zero => rfl
  | succ steps ih =>
    cases item with
    | none => rfl
    | some p => rw [GfcLru.chain, GfcLru.chain, ih, next]

theorem cached_paid (free : UInt64) :
    GfcLru.cached { lru with freeMemory := free } = lru.cached := by
  have same : ∀ steps item,
      GfcLru.chain { lru with freeMemory := free } steps item = lru.chain steps item :=
    chain_congr rfl
  simp only [GfcLru.cached, same]

theorem held_paid (free : UInt64) :
    GfcLru.held { lru with freeMemory := free } = lru.held := by
  simp only [GfcLru.held, cached_paid]

section Reclaim

variable {before : Nat → Nat → Prop} {required : UInt32} {keys : List LruKey}

theorem toNat_sub_required {free : UInt64} (enough : required.toNat ≤ free.toNat) :
    (free - required.toUInt64).toNat = free.toNat - required.toNat := by
  rw [UInt64.toNat_sub_of_le, UInt32.toNat_toUInt64]
  rwa [UInt64.le_iff_toNat_le, UInt32.toNat_toUInt64]

/-- The memory that was required is neither free any more nor that of an item. -/
theorem LruOrdered.reclaim_held (lists : LruOrdered before lru chains)
    (returned : lruReclaim rounds lru required = .returned lru' keys) :
    lru'.freeMemory.toNat + lru'.held + required.toNat = lru.freeMemory.toNat + lru.held := by
  obtain ⟨last, rfl, paid⟩ := lruReclaim_returned.mp returned
  have account : last.freeMemory.toNat + last.held = lru.freeMemory.toNat + lru.held ∧
      required.toNat ≤ last.freeMemory.toNat := by
    rcases paid with ⟨enough, rfl, -⟩ | ⟨-, evicted⟩
    · exact ⟨rfl, enough⟩
    · exact lists.evict_held evicted
  obtain ⟨account, enough⟩ := account
  rw [held_paid, toNat_sub_required enough, ← account]
  omega

/-- An item whose key has been freed is still there when the call returns. -/
theorem LruOrdered.reclaim_stale (lists : LruOrdered before lru chains) (member : p ∈ lru.cached)
    (stale : lru.Stale p) (returned : lruReclaim rounds lru required = .returned lru' keys) :
    p ∈ lru'.cached := by
  obtain ⟨last, rfl, paid⟩ := lruReclaim_returned.mp returned
  rw [cached_paid]
  rcases paid with ⟨-, rfl, -⟩ | ⟨-, evicted⟩
  · exact member
  · exact (lists.evict_stale member stale evicted).1

theorem LruOrdered.reclaim_iff [DecidableRel before] (lists : LruOrdered before lru chains) :
    (∃ rounds lru' keys, lruReclaim rounds lru required = .returned lru' keys) ↔
      required.toNat ≤ lru.freeMemory.toNat + lru.memoryOf (lru.Unblocked before) := by
  constructor
  · rintro ⟨rounds, lru', keys, returned⟩
    by_contra short
    obtain ⟨last, -, ⟨enough, -⟩ | ⟨-, evicted⟩⟩ := lruReclaim_returned.mp returned
    · omega
    · exact lists.evict_stuck (Nat.lt_of_not_le short) evicted
  · intro enough
    by_cases little : lru.freeMemory.toNat < required.toNat
    · obtain ⟨rounds, last, keys, evicted⟩ := lists.evict_ends enough
      exact ⟨rounds, _, keys, lruReclaim_returned.mpr ⟨last, rfl, .inr ⟨little, evicted⟩⟩⟩
    · refine ⟨0, _, [], lruReclaim_returned.mpr ⟨lru, rfl, .inl ⟨?_, rfl, rfl⟩⟩⟩
      exact Nat.le_of_not_lt little

end Reclaim

/-! ### Updates -/

section Update

variable {buffer : Nat} {value : Option α} {valueLength : UInt32}

theorem LruChained.updated (lists : LruChained lru chains) (key : LruKey) (p buffer : Nat)
    (value : Option α) (valueLength : UInt32) :
    LruChained (lruUpdated (lru.ownKey key) p buffer value valueLength) chains :=
  (lists.ownKey key).update p buffer value valueLength

theorem updated_length :
    ((lruUpdated (lru.ownKey key) p buffer value valueLength).heap q).valueLength =
      if q = p then valueLength else (lru.heap q).valueLength := by
  rw [lruUpdated_heap]
  split <;> rfl

theorem LruChained.updated_held (lists : LruChained lru chains) (key : LruKey) (buffer : Nat)
    (value : Option α) (valueLength : UInt32) (member : p ∈ lru.cached) :
    (lruUpdated (lru.ownKey key) p buffer value valueLength).held +
        (lru.heap p).valueLength.toNat = lru.held + valueLength.toNat := by
  rw [GfcLru.held, GfcLru.held, lists.cached_congr (lists.updated key p buffer value valueLength),
    ← Finset.add_sum_erase _ _ member, ← Finset.add_sum_erase _ _ member]
  have others : ∀ q ∈ lru.cached.erase p,
      ((lruUpdated (lru.ownKey key) p buffer value valueLength).heap q).valueLength.toNat =
        (lru.heap q).valueLength.toNat := by
    intro q at_q
    rw [updated_length, if_neg (Finset.ne_of_mem_erase at_q)]
  rw [updated_length, if_pos rfl, Finset.sum_congr rfl others]
  omega

/-- The item that is updated keeps the key that has been freed. -/
theorem LruChained.updated_stale (lists : LruChained lru chains) (cached : p ∈ lru.cached)
    (at_item : (lru.heap p).key = some buffer) (member : q ∈ lru.cached) :
    (lruUpdated (lru.ownKey key) p buffer value valueLength).Stale q ↔ p = q ∨ lru.Stale q := by
  have keyed : ((lruUpdated (lru.ownKey key) p buffer value valueLength).heap q).key =
      (lru.heap q).key := lruUpdated_key
  have keys : (lruUpdated (lru.ownKey key) p buffer value valueLength).keys =
      Function.update (lru.ownKey key).keys buffer none := rfl
  rw [stale_iff, keyed, keys]
  by_cases same : p = q
  · subst same
    refine iff_of_true ⟨buffer, at_item, ?_⟩ (.inl rfl)
    exact Function.update_self _ _ _
  · rw [or_iff_right same, ← lists.stale_ownKey key member, stale_iff]
    refine exists_congr fun other => and_congr_right fun at_q => ?_
    rw [Function.update_of_ne]
    rintro rfl
    obtain ⟨i, at_i⟩ := lists.mem_cached.mp cached
    obtain ⟨j, at_j⟩ := lists.mem_cached.mp member
    exact same (lists.buffers i j p q _ at_i at_j at_item at_q)

theorem LruChained.updated_before (lists : LruChained lru chains) (q r : Nat) :
    (lruUpdated (lru.ownKey key) p buffer value valueLength).Before none q r ↔
      lru.Before (some p) q r := by
  have visited : (lruUpdated (lru.ownKey key) p buffer value valueLength).visited =
      lru.visited := by
    rw [lists.visited, (lists.updated key p buffer value valueLength).visited]
    rfl
  have lastUse : ∀ q, (lruUpdated (lru.ownKey key) p buffer value valueLength).lastUse none q =
      lru.lastUse (some p) q := by
    intro q
    rw [GfcLru.lastUse, GfcLru.lastUse, lruUpdated_heap, if_neg (Option.some_ne_none q).symm]
    by_cases same : q = p
    · rw [if_pos same, if_pos (congrArg some same.symm)]
      rfl
    · rw [if_neg same, if_neg fun at_q => same (Option.some.inj at_q).symm]
      rfl
  rw [GfcLru.Before, GfcLru.Before, visited, lastUse, lastUse]

theorem LruChained.updated_memoryOf (lists : LruChained lru chains) (key : LruKey)
    (value : Option α) (valueLength : UInt32) (cached : p ∈ lru.cached)
    (at_item : (lru.heap p).key = some buffer) :
    (lruUpdated (lru.ownKey key) p buffer value valueLength).memoryOf
        ((lruUpdated (lru.ownKey key) p buffer value valueLength).Unblocked
          ((lruUpdated (lru.ownKey key) p buffer value valueLength).Before none)) =
      lru.memoryOf (lru.Releasable p) := by
  have same_cached := lists.cached_congr (lists.updated key p buffer value valueLength)
  rw [GfcLru.memoryOf, GfcLru.memoryOf, same_cached]
  refine Finset.sum_congr (Finset.filter_congr fun q member => ?_) fun q at_q => ?_
  · rw [GfcLru.Unblocked, GfcLru.Releasable, same_cached]
    refine forall₂_congr fun r at_r => ?_
    rw [lists.updated_stale cached at_item at_r, lists.updated_before]
  · have first := (Finset.mem_filter.mp at_q).2 p cached (.inl rfl)
    rw [updated_length, if_neg first.1]

theorem keepsAccount_set (size : lru.hashTableSize ≠ 0) :
    KeepsAccount total lru (.set key value valueLength) ↔
      ∀ rounds lru' keys, gfcLruSet rounds lru key value valueLength = .returned lru' keys →
        lru'.Accounted total ∧
          (valueLength.toNat ≤ total.toNat → ∃ p ∈ lru.target key, p ∈ lru'.cached) := by
  constructor
  · intro keeps rounds lru' keys returned
    exact keeps rounds lru' (lruReturned_set.mpr ⟨size, keys, returned⟩)
  · intro keeps rounds lru' returned
    obtain ⟨-, keys, returned⟩ := lruReturned_set.mp returned
    exact keeps rounds lru' keys returned

/-- A shorter value wraps the memory that is required around, so that the account is 2^32 bytes
short where the call returns. -/
theorem LruChained.keepsAccount_found {prev : Option Nat} (lists : LruChained lru chains)
    (account : lru.Accounted total) (size : lru.hashTableSize ≠ 0)
    (found : lru.find key = some (prev, some p)) :
    KeepsAccount total lru (.set key value valueLength) ↔
      SetBalances total lru key valueLength (lru.find key) := by
  obtain ⟨cached, buffer, at_item, reclaims⟩ := lists.gfcLruSet_found found
  have ordered := (lists.updated key p buffer value valueLength).ordered
  have held := lists.updated_held key buffer value valueLength cached
  have free : (lruUpdated (lru.ownKey key) p buffer value valueLength).freeMemory =
      lru.freeMemory := rfl
  have settled : ∀ {rounds lru' keys},
      lruReclaim rounds (lruUpdated (lru.ownKey key) p buffer value valueLength)
        (valueLength - (lru.heap p).valueLength) = .returned lru' keys →
      lru'.freeMemory.toNat + lru'.held + (valueLength - (lru.heap p).valueLength).toNat +
        (lru.heap p).valueLength.toNat = total.toNat + valueLength.toNat := by
    intro rounds lru' keys returned
    have paid := ordered.reclaim_held returned
    rw [GfcLru.Accounted] at account
    rw [free] at paid
    omega
  rw [keepsAccount_set size, found, SetBalances]
  simp only [reclaims]
  rcases Nat.lt_or_ge valueLength.toNat (lru.heap p).valueLength.toNat with shorter | longer
  · have wrapped : (valueLength - (lru.heap p).valueLength).toNat +
        (lru.heap p).valueLength.toNat = 2 ^ 32 + valueLength.toNat := by
      have length_lt := (lru.heap p).valueLength.toNat_lt
      rw [UInt32.toNat_sub, Nat.mod_eq_of_lt (by omega)]
      omega
    have not_longer : ¬(lru.heap p).valueLength ≤ valueLength := by
      rw [UInt32.le_iff_toNat_le]
      exact Nat.not_le_of_lt shorter
    rw [or_iff_right not_longer, ← Nat.not_le, ← free,
      ← lists.updated_memoryOf key value valueLength cached at_item, ← ordered.reclaim_iff]
    constructor
    · rintro keeps ⟨rounds, lru', keys, returned⟩
      have account' := (keeps rounds lru' keys returned).1
      have paid := settled returned
      rw [GfcLru.Accounted] at account'
      omega
    · intro stuck rounds lru' keys returned
      exact absurd ⟨rounds, lru', keys, returned⟩ stuck
  · have longer' : (lru.heap p).valueLength ≤ valueLength := UInt32.le_iff_toNat_le.mpr longer
    refine iff_of_true (fun rounds lru' keys returned => ⟨?_, fun _ => ⟨p, ?_, ?_⟩⟩) (.inl longer')
    · have paid := settled returned
      rw [UInt32.toNat_sub_of_le _ _ longer'] at paid
      rw [GfcLru.Accounted]
      omega
    · rw [GfcLru.target, found]
      rfl
    · refine ordered.reclaim_stale ?_ ?_ returned
      · rwa [lists.cached_congr (lists.updated key p buffer value valueLength)]
      · exact (lists.updated_stale cached at_item cached).mpr (.inl rfl)

end Update

/-! ### Insertions -/

theorem gfcLruItemPop_origin (lru : GfcLru α) : lru.freeItems = some (gfcLruItemPop lru).1 ∨
    lru.freeItems = none ∧ (gfcLruItemPop lru).1 = lru.itemCount := by
  unfold gfcLruItemPop
  cases lru.freeItems with
  | some p => exact .inl rfl
  | none => exact .inr ⟨rfl, rfl⟩

theorem gfcLruItemPop_ownKey :
    (gfcLruItemPop (lru.ownKey key)).1 = (gfcLruItemPop lru).1 := by
  cases at_free : lru.freeItems <;> simp [gfcLruItemPop, GfcLru.ownKey, at_free]

theorem gfcLruItemPop_heap (other : q ≠ (gfcLruItemPop lru).1) :
    (gfcLruItemPop lru).2.heap q = lru.heap q := by
  revert other
  unfold gfcLruItemPop
  cases lru.freeItems with
  | some p => exact fun _ => rfl
  | none => exact fun other => Function.update_of_ne other _ _

theorem gfcLruItemPop_next :
    (gfcLruItemPop lru).2.next (gfcLruItemPop lru).1 = lru.freeItems.bind lru.next := by
  unfold gfcLruItemPop
  cases lru.freeItems with
  | some p => rfl
  | none =>
    have zeroed : (lru.setItem lru.itemCount .zero).heap lru.itemCount = .zero :=
      Function.update_self _ _ _
    exact congrArg LruItem.next zeroed

/-- Beside the free list and the items, popping an item changes nothing. -/
theorem gfcLruItemPop_rest (lru : GfcLru α) :
    let popped := (gfcLruItemPop lru).2
    popped.hashTableSize = lru.hashTableSize ∧ popped.items = lru.items ∧
      popped.accessCount = lru.accessCount ∧ popped.keys = lru.keys ∧
      popped.keyCount = lru.keyCount ∧ popped.freeMemory = lru.freeMemory ∧
      lru.itemCount ≤ popped.itemCount := by
  unfold gfcLruItemPop
  cases lru.freeItems with
  | some p => exact ⟨rfl, rfl, rfl, rfl, rfl, rfl, Nat.le_refl _⟩
  | none => exact ⟨rfl, rfl, rfl, rfl, rfl, rfl, Nat.le_succ _⟩

theorem gfcLruItemPop_inside (allocated : ∀ p, lru.freeItems = some p → p < lru.itemCount) :
    (gfcLruItemPop lru).1 < (gfcLruItemPop lru).2.itemCount := by
  unfold gfcLruItemPop
  cases at_free : lru.freeItems with
  | some p => exact allocated p at_free
  | none => exact Nat.lt_succ_self _

/-- What the insertion of an item changes, which keeps the link that it had on the free list. -/
structure LruGrown (lru lru' : GfcLru α) (prev : Option Nat) (i p buffer : Nat)
    (valueLength : UInt32) : Prop where
  origin : lru.freeItems = some p ∨ lru.freeItems = none ∧ p = lru.itemCount
  size : lru'.hashTableSize = lru.hashTableSize
  items : lru'.items = if prev = none then Function.update lru.items i (some p) else lru.items
  next_self : lru'.next p = lru.freeItems.bind lru.next
  next_prev : ∀ q, q ≠ p → prev = some q → lru'.next q = some p
  next_other : ∀ q, q ≠ p → prev ≠ some q → lru'.next q = lru.next q
  has_key : (lru'.heap p).key = some buffer
  has_valueLength : (lru'.heap p).valueLength = valueLength
  has_accessCount : (lru'.heap p).accessCount = lru.accessCount + 1
  key : ∀ q, q ≠ p → (lru'.heap q).key = (lru.heap q).key
  use : ∀ q, q ≠ p → SameUse lru lru' q
  itemCount : lru.itemCount ≤ lru'.itemCount
  inside : p < lru'.itemCount
  keys : lru'.keys = lru.keys
  keyCount : lru'.keyCount = lru.keyCount
  freeMemory : lru'.freeMemory = lru.freeMemory

theorem lruInsert_grown {prev : Option Nat} {buffer : Nat} (key : LruKey) (value : Option α)
    {valueLength : UInt32} (apart : prev ≠ some (gfcLruItemPop lru).1)
    (allocated : ∀ p, lru.freeItems = some p → p < lru.itemCount) :
    LruGrown lru (lruInsert lru prev i buffer key value valueLength) prev i (gfcLruItemPop lru).1
      buffer valueLength := by
  obtain ⟨popped_size, popped_items, popped_accessCount, popped_keys, popped_keyCount,
    popped_freeMemory, popped_itemCount⟩ := gfcLruItemPop_rest lru
  obtain ⟨inserted_table, inserted_items, -, inserted_itemCount, inserted_keys,
    inserted_keyCount, inserted_freeMemory⟩ :=
    lruInsert_rest lru prev i buffer key value valueLength
  constructor
  case origin => exact gfcLruItemPop_origin lru
  case size => exact inserted_table.size.trans popped_size
  case items => rw [inserted_items, popped_items]
  case next_self =>
    rw [GfcLru.next, lruInsert_heap apart, if_pos rfl]
    exact gfcLruItemPop_next
  case next_prev =>
    intro q other before
    rw [GfcLru.next, lruInsert_heap apart, if_neg other, if_pos before]
  case next_other =>
    intro q other before
    rw [GfcLru.next, lruInsert_heap apart, if_neg other, if_neg before, gfcLruItemPop_heap other]
    rfl
  case has_key => rw [lruInsert_heap apart, if_pos rfl]
  case has_valueLength => rw [lruInsert_heap apart, if_pos rfl]
  case has_accessCount =>
    rw [lruInsert_heap apart, if_pos rfl, popped_accessCount]
  case key =>
    intro q other
    rw [lruInsert_heap apart, if_neg other, gfcLruItemPop_heap other]
    split <;> rfl
  case use =>
    intro q other
    constructor
    all_goals
      rw [lruInsert_heap apart, if_neg other, gfcLruItemPop_heap other]
      split <;> rfl
  case itemCount => rwa [inserted_itemCount]
  case inside =>
    rw [inserted_itemCount]
    exact gfcLruItemPop_inside allocated
  case keys => exact inserted_keys.trans popped_keys
  case keyCount => exact inserted_keyCount.trans popped_keyCount
  case freeMemory => exact inserted_freeMemory.trans popped_freeMemory

theorem chain_of_segment {front : List Nat} {start stop : Option Nat}
    (linked : Segment lru.next start front stop) {steps : Nat} (enough : front.length ≤ steps) :
    lru.chain steps start = front ++ lru.chain (steps - front.length) stop := by
  induction front generalizing start steps with
  | nil =>
    obtain rfl : start = stop := linked
    rfl
  | cons p front ih =>
    obtain ⟨rfl, linked⟩ := linked
    obtain ⟨steps, rfl⟩ := Nat.exists_eq_add_one_of_ne_zero
      (Nat.ne_of_gt (Nat.lt_of_lt_of_le (Nat.succ_pos _) enough))
    rw [GfcLru.chain, ih linked (Nat.le_of_succ_le_succ enough), List.length_cons,
      Nat.add_sub_add_right, List.cons_append]

theorem chain_within {nodes : Set Nat} {start : Option Nat}
    (first : ∀ p, start = some p → p ∈ nodes)
    (closed : ∀ p ∈ nodes, ∀ q, lru.next p = some q → q ∈ nodes) (steps : Nat) :
    ∀ p ∈ lru.chain steps start, p ∈ nodes := by
  induction steps generalizing start with
  | zero => exact nofun
  | succ steps ih =>
    cases start with
    | none => exact nofun
    | some a =>
      have member := first a rfl
      intro p at_p
      rcases List.mem_cons.mp at_p with rfl | behind
      · exact member
      · exact ih (closed a member) p behind

theorem sublist_flatMap {f : Nat → List Nat} {l : List Nat} (member : i ∈ l) :
    (f i).Sublist (l.flatMap f) := by
  obtain ⟨front, back, rfl⟩ := List.append_of_mem member
  rw [List.flatMap_append, List.flatMap_cons]
  exact (List.sublist_append_left _ _).trans (List.sublist_append_right _ _)

theorem pair_sublist_flatMap {f : Nat → List Nat} {i j n : Nat} (less : i < j) (below : j < n)
    (at_i : p ∈ f i) (at_j : q ∈ f j) : [p, q].Sublist ((List.range n).flatMap f) := by
  obtain ⟨k, rfl⟩ := Nat.exists_eq_add_of_lt below
  rw [Nat.add_assoc, List.range_add, List.flatMap_append]
  show ([p] ++ [q]).Sublist _
  apply List.Sublist.append
  · rw [List.singleton_sublist, List.mem_flatMap]
    exact ⟨i, List.mem_range.mpr less, at_i⟩
  · rw [List.singleton_sublist, List.mem_flatMap]
    exact ⟨j, List.mem_map.mpr ⟨0, by simp, rfl⟩, at_j⟩

theorem LruChained.mem_visitedUpTo (lists : LruChained lru chains) {slot : Nat} :
    p ∈ lru.visitedUpTo slot ↔ ∃ i ≤ slot, p ∈ chains i := by
  simp only [GfcLru.visitedUpTo, List.mem_flatMap, List.mem_range, Nat.lt_succ_iff,
    fun i => chain_linked (lists.linked i) (lists.placed.short i)]

theorem abandonChain_ends {steps : Nat} {prev item : Option Nat} {min min' : LruMin}
    (ended : abandonChain lru i steps prev item min = some min') :
    ∃ l, Linked lru.next item l := by
  induction steps generalizing prev item min with
  | zero => cases ended
  | succ steps ih =>
    cases item with
    | none => exact ⟨[], rfl⟩
    | some p =>
      obtain ⟨l, linked⟩ := ih ended
      exact ⟨p :: l, rfl, linked⟩

theorem foldlM_stepped {β γ : Type} {f : β → γ → Option β} {l : List γ} {first result : β}
    (folded : l.foldlM f first = some result) : ∀ a ∈ l, ∃ b c, f b a = some c := by
  induction l generalizing first with
  | nil => exact nofun
  | cons a l ih =>
    rw [List.foldlM_cons] at folded
    obtain ⟨next, stepped, folded⟩ := Option.bind_eq_some_iff.mp folded
    intro b member
    rcases List.mem_cons.mp member with rfl | behind
    · exact ⟨first, next, stepped⟩
    · exact ih folded b behind

/-- Each chain is walked to its end for the least recently used item. -/
theorem gfcLruItemAbandon_ends {result : GfcLru α × List LruKey}
    (abandoned : gfcLruItemAbandon lru = some result) (inside : i < lru.hashTableSize.toNat) :
    ∃ l, Linked lru.next (lru.items i) l := by
  obtain ⟨min, folded, -⟩ := Option.bind_eq_some_iff.mp abandoned
  obtain ⟨before, after, walked⟩ := foldlM_stepped folded i (List.mem_range.mpr inside)
  exact abandonChain_ends walked

theorem lruEvict_ends {required : UInt64} {evicted keys : List LruKey}
    (little : lru.freeMemory < required)
    (returned : lruEvict required rounds lru evicted = .returned last keys)
    (inside : i < lru.hashTableSize.toNat) : ∃ l, Linked lru.next (lru.items i) l := by
  cases rounds with
  | zero => cases returned
  | succ rounds =>
    rw [lruEvict, if_pos little] at returned
    cases abandoned : gfcLruItemAbandon lru with
    | none =>
      rw [abandoned] at returned
      cases returned
    | some result => exact gfcLruItemAbandon_ends abandoned inside

/-- An item with a key of its own is put at the end of a chain of a well-formed cache. -/
structure LruGrowth (lru lru' : GfcLru α) (chains : Nat → List Nat) (spare : Set Nat)
    (slot p buffer : Nat) (valueLength : UInt32) : Prop where
  formed : LruWellFormed lru chains spare
  grown : LruGrown lru lru' (chains slot).getLast? slot p buffer valueLength
  inside : slot < lru.hashTableSize.toNat
  below : buffer < lru.keyCount
  content : (lru.keys buffer).isSome = true
  own : ∀ i, ∀ q ∈ chains i, (lru.heap q).key ≠ some buffer

namespace LruGrowth

variable {slot buffer : Nat} {valueLength : UInt32} {tail : List Nat}
  (grows : LruGrowth lru lru' chains spare slot p buffer valueLength)

include grows

theorem new (i : Nat) : p ∉ chains i := by
  intro member
  rcases grows.grown.origin with popped | ⟨-, rfl⟩
  · exact grows.formed.unused i p member (grows.formed.first p popped)
  · exact Nat.lt_irrefl _ (grows.formed.allocated i _ member)

theorem not_cached : p ∉ lru.cached := by
  intro cached
  obtain ⟨i, in_chain⟩ := grows.formed.mem_cached.mp cached
  exact grows.new i in_chain

theorem spare_next (member : q ∈ spare) : lru'.next q = lru.next q := by
  by_cases same : q = p
  · rw [same, grows.grown.next_self]
    rcases grows.grown.origin with popped | ⟨-, rfl⟩
    · rw [popped, Option.bind_some]
    · exact absurd (grows.formed.spare_allocated q member) (by rw [same]; exact Nat.lt_irrefl _)
  · refine grows.grown.next_other q same fun last => ?_
    exact grows.formed.unused slot q (List.mem_of_getLast? last) member

/-- Behind the new item lie only items of the free list. -/
theorem behind_spare :
    (∀ q, lru'.next p = some q → q ∈ spare) ∧
      ∀ q ∈ spare, ∀ r, lru'.next q = some r → r ∈ spare := by
  constructor
  · intro q at_q
    rw [grows.grown.next_self] at at_q
    obtain ⟨first, at_first, at_q⟩ := Option.bind_eq_some_iff.mp at_q
    exact grows.formed.closed first (grows.formed.first first at_first) q at_q
  · intro q member r at_r
    rw [grows.spare_next member] at at_r
    exact grows.formed.closed q member r at_r

theorem cleared (member : q ∈ spare) (other : q ≠ p) :
    (lru'.heap q).key = none ∧ (lru'.heap q).valueLength = 0 := by
  rw [grows.grown.key q other, (grows.grown.use q other).valueLength, grows.formed.cleared q member]
  exact ⟨rfl, rfl⟩

theorem segment : Segment lru'.next (lru'.items slot) (chains slot ++ [p]) (lru'.next p) := by
  have distinct : ∀ q ∈ chains slot, q ≠ p := by
    rintro q member rfl
    exact grows.new slot member
  refine (grows.formed.linked slot).append_node (items_self grows.grown.items)
    (fun prev before => ?_) fun q member before => ?_
  · exact grows.grown.next_prev prev (distinct prev (List.mem_of_getLast? before)) before
  · exact grows.grown.next_other q (distinct q member) before

theorem other (apart : i ≠ slot) : Linked lru'.next (lru'.items i) (chains i) := by
  rw [items_other grows.grown.items apart]
  refine (grows.formed.linked i).congr fun q member => ?_
  apply grows.grown.next_other q
  · rintro rfl
    exact grows.new i member
  · intro before
    exact apart (grows.formed.apart i slot q member (List.mem_of_getLast? before))

theorem chain_slot : lru'.chain (lru'.itemCount + 1) (lru'.items slot) =
    (chains slot ++ [p]) ++
      lru'.chain (lru'.itemCount + 1 - (chains slot ++ [p]).length) (lru'.next p) := by
  apply chain_of_segment grows.segment
  apply Nat.le_succ_of_le
  apply length_le_of_lt
  · rw [List.nodup_append]
    refine ⟨(grows.formed.linked slot).nodup, List.nodup_singleton p, fun a member b same => ?_⟩
    rw [List.mem_singleton.mp same]
    rintro rfl
    exact grows.new slot member
  · intro a member
    rcases List.mem_append.mp member with before | last
    · exact Nat.lt_of_lt_of_le (grows.formed.allocated slot a before) grows.grown.itemCount
    · rw [List.mem_singleton.mp last]
      exact grows.grown.inside

theorem chain_other (apart : i ≠ slot) :
    lru'.chain (lru'.itemCount + 1) (lru'.items i) = chains i := by
  apply chain_linked (grows.other apart)
  exact Nat.lt_of_lt_of_le (grows.formed.placed.short i) (Nat.succ_le_succ grows.grown.itemCount)

/-- The items of the chains are those of before, the new one and some of the free list. -/
theorem cached :
    insert p lru.cached ⊆ lru'.cached ∧
      ∀ q ∈ lru'.cached, q ∈ insert p lru.cached ∨ q ∈ spare := by
  have member : ∀ q, q ∈ lru'.cached ↔ ∃ i < lru.hashTableSize.toNat,
      q ∈ lru'.chain (lru'.itemCount + 1) (lru'.items i) := by
    intro q
    simp only [GfcLru.cached, List.mem_toFinset, List.mem_flatMap, List.mem_range, grows.grown.size]
  constructor
  · intro q at_q
    rw [member]
    rcases Finset.mem_insert.mp at_q with rfl | before
    · refine ⟨slot, grows.inside, ?_⟩
      rw [grows.chain_slot]
      simp
    · obtain ⟨i, in_chain⟩ := grows.formed.mem_cached.mp before
      refine ⟨i, grows.formed.inside i q in_chain, ?_⟩
      by_cases same : i = slot
      · subst same
        rw [grows.chain_slot]
        simp [in_chain]
      · rwa [grows.chain_other same]
  · intro q at_q
    obtain ⟨i, -, in_chain⟩ := (member q).mp at_q
    by_cases same : i = slot
    · subst same
      rw [grows.chain_slot, List.mem_append, List.mem_append, List.mem_singleton] at in_chain
      rcases in_chain with (before | rfl) | behind
      · exact .inl (Finset.mem_insert_of_mem (grows.formed.mem_cached.mpr ⟨i, before⟩))
      · exact .inl (Finset.mem_insert_self q _)
      · obtain ⟨first, closed⟩ := grows.behind_spare
        exact .inr (chain_within first closed _ q behind)
    · rw [grows.chain_other same] at in_chain
      exact .inl (Finset.mem_insert_of_mem (grows.formed.mem_cached.mpr ⟨i, in_chain⟩))

/-- Of the items that are added, only the new one takes memory. -/
theorem memoryOf (within : Nat → Prop) {within' : Nat → Prop}
    [DecidablePred within] [DecidablePred within']
    (same : ∀ q ∈ lru.cached, (within' q ↔ within q)) :
    lru'.memoryOf within' =
      (if within' p then valueLength.toNat else 0) + lru.memoryOf within := by
  obtain ⟨kept, added⟩ := grows.cached
  have new := grows.not_cached
  have before : ∑ q ∈ lru.cached.filter within', (lru'.heap q).valueLength.toNat =
      lru.memoryOf within := by
    refine Finset.sum_congr (Finset.filter_congr same) fun q member => ?_
    have other : q ≠ p := by
      rintro rfl
      exact new (Finset.mem_filter.mp member).1
    rw [(grows.grown.use q other).valueLength]
  have all : ∑ q ∈ (insert p lru.cached).filter within', (lru'.heap q).valueLength.toNat =
      lru'.memoryOf within' := by
    apply Finset.sum_subset (Finset.filter_subset_filter _ kept)
    intro q member outside
    obtain ⟨cached, at_q⟩ := Finset.mem_filter.mp member
    have not_inserted : q ∉ insert p lru.cached :=
      fun inserted => outside (Finset.mem_filter.mpr ⟨inserted, at_q⟩)
    have other : q ≠ p := by
      rintro rfl
      exact not_inserted (Finset.mem_insert_self q _)
    have cleared := (added q cached).resolve_left not_inserted
    rw [(grows.cleared cleared other).2]
    rfl
  rw [← all, ← before, Finset.filter_insert]
  split
  · rw [Finset.sum_insert fun member => new (Finset.mem_filter.mp member).1,
      grows.grown.has_valueLength]
  · rw [Nat.zero_add]

theorem held : lru'.held = valueLength.toNat + lru.held := by
  rw [GfcLru.held_eq, GfcLru.held_eq,
    grows.memoryOf (fun _ => True) fun _ _ => Iff.rfl, if_pos trivial]

/-- Only an item of before has a key that has been freed. -/
theorem stale (member : q ∈ lru'.cached) : lru'.Stale q ↔ q ∈ lru.cached ∧ lru.Stale q := by
  have self : ¬lru'.Stale p := by
    rw [stale_iff]
    rintro ⟨other, at_p, lost⟩
    obtain rfl := Option.some.inj (at_p.symm.trans grows.grown.has_key)
    have content := grows.content
    rw [← grows.grown.keys, lost] at content
    cases content
  have before : ∀ q, q ≠ p → (lru'.Stale q ↔ lru.Stale q) := by
    intro q other
    rw [stale_iff, stale_iff, grows.grown.key q other, grows.grown.keys]
  have at_spare : ∀ q ∈ spare, ¬lru'.Stale q := by
    intro q cleared stale
    by_cases same : q = p
    · exact self (same ▸ stale)
    · obtain ⟨_, at_q, -⟩ := stale_iff.mp stale
      rw [(grows.cleared cleared same).1] at at_q
      cases at_q
  by_cases same : q = p
  · subst same
    exact iff_of_false self fun old => grows.not_cached old.1
  · rcases grows.cached.2 q member with inserted | cleared
    · have cached := (Finset.mem_insert.mp inserted).resolve_left same
      rw [before q same, and_iff_right cached]
    · refine iff_of_false (at_spare q cleared) fun old => ?_
      obtain ⟨i, in_chain⟩ := grows.formed.mem_cached.mp old.1
      exact grows.formed.unused i q in_chain cleared

/-! The new item brings the rest of the free list into its chain. -/

theorem ends_iff :
    (∃ tail, Linked lru'.next (lru'.next p) tail) ↔
      ∃ free, Linked lru.next lru.freeItems free := by
  obtain ⟨first, closed⟩ := grows.behind_spare
  rcases grows.grown.origin with popped | ⟨none_free, -⟩
  · have next_self : lru'.next p = lru.next p := by
      rw [grows.grown.next_self, popped, Option.bind_some]
    constructor
    · rintro ⟨tail, behind⟩
      have within := behind.within first closed
      refine ⟨p :: tail, popped, ?_⟩
      rw [← next_self]
      exact behind.congr fun q member => (grows.spare_next (within q member)).symm
    · rintro ⟨free, linked⟩
      rw [popped] at linked
      obtain ⟨tail, rfl⟩ := linked_cons linked
      have within : ∀ q ∈ tail, q ∈ spare := linked.2.within (next_self ▸ first) grows.formed.closed
      refine ⟨tail, ?_⟩
      rw [next_self]
      exact linked.2.congr fun q member => grows.spare_next (within q member)
  · refine iff_of_true ⟨[], ?_⟩ ⟨[], none_free⟩
    rw [grows.grown.next_self, none_free]
    rfl

theorem added (behind : Linked lru'.next (lru'.next p) tail) (member : q ∈ p :: tail) :
    (∀ i, q ∉ chains i) ∧ q < lru'.itemCount ∧
      ∀ other, (lru'.heap q).key = some other → q = p ∧ other = buffer := by
  by_cases same : q = p
  · subst same
    refine ⟨grows.new, grows.grown.inside, fun other at_q => ⟨rfl, ?_⟩⟩
    exact Option.some.inj (at_q.symm.trans grows.grown.has_key)
  · obtain ⟨first, closed⟩ := grows.behind_spare
    have cleared := behind.within first closed q ((List.mem_cons.mp member).resolve_left same)
    refine ⟨fun i in_chain => grows.formed.unused i q in_chain cleared, ?_, fun other at_q => ?_⟩
    · exact Nat.lt_of_lt_of_le (grows.formed.spare_allocated q cleared) grows.grown.itemCount
    · rw [(grows.cleared cleared same).1] at at_q
      cases at_q

theorem chained (behind : Linked lru'.next (lru'.next p) tail) :
    LruChained lru' (Function.update chains slot (chains slot ++ p :: tail)) := by
  have added := fun {q} => grows.added (q := q) behind
  have kept : ∀ i, ∀ q ∈ chains i, (lru'.heap q).key = (lru.heap q).key := by
    intro i q member
    refine grows.grown.key q ?_
    rintro rfl
    exact grows.new i member
  constructor
  case linked =>
    intro i
    by_cases same : i = slot
    · subst same
      rw [Function.update_self, List.append_cons]
      exact segment_append.mpr ⟨lru'.next p, grows.segment, behind⟩
    · rw [Function.update_of_ne same]
      exact grows.other same
  case inside =>
    intro i q member
    rw [grows.grown.size]
    rcases mem_append_chains.mp member with before | ⟨rfl, -⟩
    · exact grows.formed.inside i q before
    · exact grows.inside
  case apart =>
    intro i j q at_i at_j
    rcases mem_append_chains.mp at_i with old_i | ⟨rfl, new_i⟩ <;>
      rcases mem_append_chains.mp at_j with old_j | ⟨rfl, new_j⟩
    · exact grows.formed.apart i j q old_i old_j
    · exact absurd old_i ((added new_j).1 i)
    · exact absurd old_j ((added new_i).1 j)
    · rfl
  case allocated =>
    intro i q member
    rcases mem_append_chains.mp member with before | ⟨-, new⟩
    · exact Nat.lt_of_lt_of_le (grows.formed.allocated i q before) grows.grown.itemCount
    · exact (added new).2.1
  case buffered =>
    intro i q member other at_q
    rw [grows.grown.keyCount]
    rcases mem_append_chains.mp member with before | ⟨-, new⟩
    · rw [kept i q before] at at_q
      exact grows.formed.buffered i q before other at_q
    · rw [((added new).2.2 other at_q).2]
      exact grows.below
  case buffers =>
    intro i j q r other at_i at_j at_q at_r
    rcases mem_append_chains.mp at_i with old_i | ⟨-, new_i⟩ <;>
      rcases mem_append_chains.mp at_j with old_j | ⟨-, new_j⟩
    · rw [kept i q old_i] at at_q
      rw [kept j r old_j] at at_r
      exact grows.formed.buffers i j q r other old_i old_j at_q at_r
    · rw [kept i q old_i, ((added new_j).2.2 other at_r).2] at at_q
      exact absurd at_q (grows.own i q old_i)
    · rw [kept j r old_j, ((added new_i).2.2 other at_q).2] at at_r
      exact absurd at_r (grows.own j r old_j)
    · rw [((added new_i).2.2 other at_q).1, ((added new_j).2.2 other at_r).1]

theorem before (chained : LruChained lru' (Function.update chains slot (chains slot ++ p :: tail)))
    (member : q ∈ lru.cached) : lru'.Before none q p ↔ lru.Ahead slot q := by
  obtain ⟨i, in_chain⟩ := grows.formed.mem_cached.mp member
  have other : q ≠ p := by
    rintro rfl
    exact grows.new i in_chain
  have old : ∀ j, j ≠ slot →
      Function.update chains slot (chains slot ++ p :: tail) j = chains j :=
    fun j apart => Function.update_of_ne apart _ _
  have at_p : p ∈ Function.update chains slot (chains slot ++ p :: tail) slot := by
    rw [Function.update_self]
    exact List.mem_append_cons_self
  have first : [q, p].Sublist lru'.visited ↔ q ∈ lru.visitedUpTo slot := by
    rw [chained.visited, grows.formed.mem_visitedUpTo, visitOrder, grows.grown.size]
    constructor
    · intro first
      refine ⟨i, Nat.le_of_not_lt fun behind => ?_, in_chain⟩
      have nodup := chained.nodup
      rw [visitOrder, grows.grown.size] at nodup
      apply sublist_swap nodup first
      apply pair_sublist_flatMap behind (grows.formed.inside i q in_chain) at_p
      rwa [old i (Nat.ne_of_gt behind)]
    · rintro ⟨j, before, at_j⟩
      rcases Nat.lt_or_eq_of_le before with less | rfl
      · apply pair_sublist_flatMap less grows.inside ?_ at_p
        rwa [old j (Nat.ne_of_lt less)]
      · refine List.Sublist.trans ?_ (sublist_flatMap (List.mem_range.mpr grows.inside))
        rw [Function.update_self]
        show ([q] ++ [p]).Sublist _
        apply List.Sublist.append
        · exact List.singleton_sublist.mpr at_j
        · exact List.singleton_sublist.mpr List.mem_cons_self
  have lastUse : ∀ r, lru'.lastUse none r = (lru'.heap r).accessCount :=
    fun r => if_neg (Option.some_ne_none r).symm
  rw [GfcLru.Before, GfcLru.Ahead, lastUse, lastUse, grows.grown.has_accessCount,
    (grows.grown.use q other).accessCount, and_iff_right other]
  simp only [first]

/-- What comes before the new item is what came before it in the cache of before. -/
theorem memory_ahead
    (chained : LruChained lru' (Function.update chains slot (chains slot ++ p :: tail))) :
    lru'.freeMemory.toNat + lru'.memoryOf (lru'.Before none · p) =
      lru.freeMemory.toNat + lru.memoryOf (lru.Ahead slot) := by
  rw [grows.memoryOf (lru.Ahead slot) fun q at_q => grows.before chained at_q,
    if_neg fun self => self.1 rfl, Nat.zero_add, grows.grown.freeMemory]

/-- The loop walks through the chain of the new item, so that it ends. -/
theorem evict_chained {rounds : Nat} {last : GfcLru α} {keys : List LruKey}
    (little : lru'.freeMemory.toNat < valueLength.toNat)
    (evicted : lruEvict valueLength.toUInt64 rounds lru' [] = .returned last keys) :
    ∃ tail, Linked lru'.next (lru'.next p) tail ∧
      LruChained lru' (Function.update chains slot (chains slot ++ p :: tail)) := by
  have less : lru'.freeMemory < valueLength.toUInt64 := by
    rwa [UInt64.lt_iff_toNat_lt, UInt32.toNat_toUInt64]
  obtain ⟨l, linked⟩ := lruEvict_ends less evicted (grows.grown.size ▸ grows.inside)
  obtain ⟨tail, -, behind⟩ := linked.behind grows.segment
  exact ⟨tail, behind, grows.chained behind⟩

/-- An insertion keeps the account. -/
theorem accounted {rounds : Nat} {last : GfcLru α} {keys : List LruKey}
    (account : lru.Accounted total)
    (returned : lruReclaim rounds lru' valueLength = .returned last keys) :
    last.Accounted total := by
  rw [GfcLru.Accounted] at account ⊢
  obtain ⟨last, rfl, ⟨enough, rfl, -⟩ | ⟨little, evicted⟩⟩ := lruReclaim_returned.mp returned
  · rw [held_paid, toNat_sub_required enough, grows.held]
    rw [grows.grown.freeMemory] at enough ⊢
    omega
  · obtain ⟨tail, -, chained⟩ := grows.evict_chained little evicted
    have moved := chained.ordered.reclaim_held returned
    rw [grows.held, grows.grown.freeMemory] at moved
    omega

/-- The new item is not evicted for itself where the items before it are enough, or one of them has
a freed key. -/
theorem stays {rounds : Nat} {last : GfcLru α} {keys : List LruKey}
    (condition : valueLength.toNat ≤ lru.freeMemory.toNat + lru.memoryOf (lru.Ahead slot) ∨
      (∃ q ∈ lru.cached, lru.Stale q ∧ lru.Ahead slot q) ∨
      ¬∃ free, Linked lru.next lru.freeItems free)
    (returned : lruReclaim rounds lru' valueLength = .returned last keys) : p ∈ last.cached := by
  obtain ⟨kept, -⟩ := grows.cached
  have member : p ∈ lru'.cached := kept (Finset.mem_insert_self p _)
  obtain ⟨last, rfl, ⟨-, rfl, -⟩ | ⟨little, evicted⟩⟩ := lruReclaim_returned.mp returned
  · rwa [cached_paid]
  · obtain ⟨tail, behind, chained⟩ := grows.evict_chained little evicted
    rw [cached_paid]
    rcases condition with enough | ⟨q, at_q, stale, before⟩ | endless
    · rw [← grows.memory_ahead chained] at enough
      exact chained.ordered.evict_enough member enough evicted
    · have at_q' := kept (Finset.mem_insert_of_mem at_q)
      have stale' := (grows.stale at_q').mpr ⟨at_q, stale⟩
      exact (chained.ordered.evict_stale at_q' stale' evicted).2 p member
        ((grows.before chained at_q).mpr before)
    · exact absurd (grows.ends_iff.mp ⟨tail, behind⟩) endless

/-- Otherwise the call returns without the new item. -/
theorem leaves (short : lru.freeMemory.toNat + lru.memoryOf (lru.Ahead slot) < valueLength.toNat)
    (not_ahead : ¬∃ q ∈ lru.cached, lru.Stale q ∧ lru.Ahead slot q)
    (ends : ∃ free, Linked lru.next lru.freeItems free) :
    ∃ rounds last keys, lruReclaim rounds lru' valueLength = .returned last keys ∧
      p ∉ last.cached := by
  obtain ⟨tail, behind⟩ := grows.ends_iff.mpr ends
  have chained := grows.chained behind
  rw [← grows.memory_ahead chained] at short
  have member : p ∈ lru'.cached := grows.cached.1 (Finset.mem_insert_self p _)
  have intact : ¬lru'.Stale p := fun stale => grows.not_cached ((grows.stale member).mp stale).1
  have ahead : ∀ q ∈ lru'.cached, lru'.Stale q → ¬lru'.Before none q p := by
    intro q at_q stale before
    obtain ⟨cached, stale⟩ := (grows.stale at_q).mp stale
    exact not_ahead ⟨q, cached, stale, (grows.before chained cached).mp before⟩
  have large : valueLength.toNat ≤ (lru'.heap p).valueLength.toNat := by
    rw [grows.grown.has_valueLength]
  obtain ⟨rounds, last, keys, evicted⟩ := chained.ordered.evict_large member intact ahead large
  refine ⟨rounds, _, keys, lruReclaim_returned.mpr ⟨last, rfl, .inr ⟨?_, evicted⟩⟩, ?_⟩
  · exact Nat.lt_of_le_of_lt (Nat.le_add_right _ _) short
  · rw [cached_paid]
    exact chained.ordered.evict_out short evicted

theorem keeps (account : lru.Accounted total) :
    (∀ rounds last keys, lruReclaim rounds lru' valueLength = .returned last keys →
        last.Accounted total ∧ (valueLength.toNat ≤ total.toNat → p ∈ last.cached)) ↔
      total.toNat < valueLength.toNat ∨
        valueLength.toNat ≤ lru.freeMemory.toNat + lru.memoryOf (lru.Ahead slot) ∨
        (∃ q ∈ lru.cached, lru.Stale q ∧ lru.Ahead slot q) ∨
        ¬∃ free, Linked lru.next lru.freeItems free := by
  constructor
  · intro keeps
    by_contra fails
    rw [not_or, not_or, not_or, not_lt, not_le, not_not] at fails
    obtain ⟨small, short, not_ahead, ends⟩ := fails
    obtain ⟨rounds, last, keys, returned, gone⟩ := grows.leaves short not_ahead ends
    exact gone ((keeps rounds last keys returned).2 small)
  · intro condition rounds last keys returned
    refine ⟨grows.accounted account returned, fun small => ?_⟩
    exact grows.stays (condition.resolve_left (Nat.not_lt.mpr small)) returned

end LruGrowth

namespace LruWellFormed

theorem ownKey (formed : LruWellFormed lru chains spare) (key : LruKey) :
    LruWellFormed (lru.ownKey key) chains spare :=
  ⟨formed.toLruChained.ownKey key, formed.first, formed.closed, formed.unused,
    formed.spare_allocated, formed.cleared⟩

/-- The call for a key that is not found makes the cache grow by the popped item. -/
theorem growth (formed : LruWellFormed lru chains spare) (size : lru.hashTableSize ≠ 0)
    (key : LruKey) (value : Option α) (valueLength : UInt32) :
    LruGrowth (lru.ownKey key)
      (lruInsert (lru.ownKey key) (chains (gfcLruHash lru key)).getLast? (gfcLruHash lru key)
        lru.keyCount key value valueLength)
      chains spare (gfcLruHash lru key) (gfcLruItemPop (lru.ownKey key)).1 lru.keyCount
      valueLength := by
  have owned := formed.ownKey key
  refine ⟨owned, lruInsert_grown key value ?_ ?_, ?_, Nat.lt_succ_self _, ?_, formed.ownKey_own⟩
  · intro last
    have in_chain := List.mem_of_getLast? last
    rcases gfcLruItemPop_origin (lru.ownKey key) with popped | ⟨-, last⟩
    · exact owned.unused _ _ in_chain (owned.first _ popped)
    · exact Nat.ne_of_lt (owned.allocated _ _ in_chain) last
  · exact fun p first => owned.spare_allocated p (owned.first p first)
  · exact hash_lt (Nat.pos_of_ne_zero fun zero => size (UInt32.toNat_inj.mp zero)) key
  · have here : (lru.ownKey key).keys lru.keyCount = some key := Function.update_self _ _ _
    rw [here]
    rfl

theorem ahead_ownKey (formed : LruWellFormed lru chains spare) (key : LruKey) (slot q : Nat) :
    (lru.ownKey key).Ahead slot q ↔ lru.Ahead slot q := by
  have visited : q ∈ (lru.ownKey key).visitedUpTo slot ↔ q ∈ lru.visitedUpTo slot := by
    rw [(formed.ownKey key).mem_visitedUpTo, formed.mem_visitedUpTo]
  rw [GfcLru.Ahead, GfcLru.Ahead]
  simp only [visited]
  rfl

theorem memoryOf_ownKey (formed : LruWellFormed lru chains spare) (key : LruKey) (slot : Nat) :
    (lru.ownKey key).memoryOf ((lru.ownKey key).Ahead slot) = lru.memoryOf (lru.Ahead slot) := by
  rw [GfcLru.memoryOf, GfcLru.memoryOf, formed.cached_congr (formed.ownKey key).toLruChained]
  have same : ∀ q ∈ lru.cached, ((lru.ownKey key).Ahead slot q ↔ lru.Ahead slot q) :=
    fun q _ => formed.ahead_ownKey key slot q
  exact Finset.sum_congr (Finset.filter_congr same) fun _ _ => rfl

theorem stale_ahead_ownKey (formed : LruWellFormed lru chains spare) (key : LruKey) (slot : Nat) :
    (∃ q ∈ (lru.ownKey key).cached, (lru.ownKey key).Stale q ∧ (lru.ownKey key).Ahead slot q) ↔
      ∃ q ∈ lru.cached, lru.Stale q ∧ lru.Ahead slot q := by
  rw [formed.cached_congr (formed.ownKey key).toLruChained]
  refine exists_congr fun q => and_congr_right fun member => ?_
  rw [formed.stale_ownKey key member, formed.ahead_ownKey]

theorem accounted_ownKey (formed : LruWellFormed lru chains spare) (key : LruKey)
    (account : lru.Accounted total) : (lru.ownKey key).Accounted total := by
  rw [GfcLru.Accounted, ← account, GfcLru.held, GfcLru.held,
    formed.cached_congr (formed.ownKey key).toLruChained]
  rfl

theorem keepsAccount_new {prev : Option Nat} {value : Option α} {valueLength : UInt32}
    (formed : LruWellFormed lru chains spare) (account : lru.Accounted total)
    (size : lru.hashTableSize ≠ 0) (found : lru.find key = some (prev, none)) :
    KeepsAccount total lru (.set key value valueLength) ↔
      SetBalances total lru key valueLength (lru.find key) := by
  obtain rfl : prev = (chains (gfcLruHash lru key)).getLast? := by
    rcases formed.find_some found with last | ⟨_, _, _, -, -, last⟩
    · exact congrArg Prod.fst last
    · cases last
  have target : lru.target key = some (gfcLruItemPop (lru.ownKey key)).1 := by
    rw [GfcLru.target, found, gfcLruItemPop_ownKey]
    rfl
  have keeps := (formed.growth size key value valueLength).keeps
    (formed.accounted_ownKey key account)
  rw [formed.memoryOf_ownKey, formed.stale_ahead_ownKey] at keeps
  have free : (lru.ownKey key).freeMemory = lru.freeMemory := rfl
  have next : (lru.ownKey key).next = lru.next := rfl
  have freeItems : (lru.ownKey key).freeItems = lru.freeItems := rfl
  have hash : gfcLruHash (lru.ownKey key) key = gfcLruHash lru key := rfl
  rw [free, next, freeItems] at keeps
  rw [keepsAccount_set size, found, SetBalances, ← keeps, target]
  simp only [gfcLruSet, formed.find_ownKey, found, hash, Option.mem_some_iff, exists_eq_left']

end LruWellFormed

/-- A call leaves the memory accounted for and an item that is set in place, or does not return,
exactly where the state and the arguments balance. -/
theorem keepsAccount_iff (formed : LruWellFormed lru chains spare)
    (account : lru.Accounted total) (call : LruCall α) :
    KeepsAccount total lru call ↔ Balances total lru call := by
  by_cases size : lru.hashTableSize = 0
  · cases call with
    | set key value valueLength =>
      refine iff_of_true (fun rounds lru' returned => ?_) (.inl size)
      exact absurd size (lruReturned_set.mp returned).1
    | get key =>
      refine iff_of_false ?_ fun balanced => balanced.1 size
      rintro ⟨lru', returned, -⟩
      rw [lruReturned, if_pos size] at returned
      cases returned
    | remove key =>
      refine iff_of_false ?_ fun balanced => balanced.1 size
      rintro ⟨lru', returned, -⟩
      rw [lruReturned, if_pos size] at returned
      cases returned
  · cases call with
    | set key value valueLength =>
      rw [Balances, or_iff_right size]
      cases found : lru.find key with
      | none =>
        refine iff_of_true (fun rounds lru' returned => ?_) trivial
        obtain ⟨-, keys, returned⟩ := lruReturned_set.mp returned
        simp only [gfcLruSet, formed.find_ownKey, found] at returned
        cases returned
      | some result =>
        obtain ⟨prev, _ | p⟩ := result
        · rw [← found]
          exact formed.keepsAccount_new account size found
        · rw [← found]
          exact formed.keepsAccount_found account size found
    | get key =>
      rw [Balances, KeepsAccount, lruReturned, if_neg size, and_iff_right size]
      refine ⟨?_, formed.get account⟩
      rintro ⟨lru', returned, -⟩ missing
      rw [gfcLruGet, missing] at returned
      cases returned
    | remove key =>
      rw [Balances, KeepsAccount, lruReturned, if_neg size, and_iff_right size]
      refine ⟨?_, formed.removeCall account⟩
      rintro ⟨lru', returned, -⟩ missing
      rw [gfcLruRemove, missing] at returned
      cases returned

/-- The lists of the cache are well formed where the items of the free list have been cleared. -/
theorem LruLinked.wellFormed {free : List Nat} (lists : LruLinked lru chains free)
    (cleared : ∀ p ∈ free, lru.heap p = { LruItem.zero with next := lru.next p }) :
    LruWellFormed lru chains {p | p ∈ free} where
  toLruChained := lists.chained
  first p at_first := by
    obtain ⟨rest, rfl⟩ := linked_cons (at_first ▸ lists.free_linked)
    exact List.mem_cons_self
  closed := lists.free_linked.closed
  unused := lists.unused
  spare_allocated := lists.free_allocated
  cleared := cleared

theorem lruTidy_wellFormed (tidy : LruTidy (some lru)) (unused : lru.freeItems = none) :
    ∃ chains spare, LruWellFormed lru chains spare := by
  obtain ⟨lru', chains, free, same, lists⟩ := tidy
  obtain rfl := Option.some.inj same
  obtain rfl : free = [] := lists.free_linked.unique unused
  exact ⟨chains, _, lists.wellFormed nofun⟩

/-- A longer value for a key that is there. -/
theorem keepsAccount_iff_longer :
    ∃ lru ∈ lruReturned 1 (gfcLruNew 1000 100 0 : GfcLru Nat) (.set keyA (some 1) 6),
      KeepsAccount 1000 lru (.set keyA (some 2) 7) := by
  obtain ⟨lru, returned, unused, account, found, length⟩ :
      ∃ lru ∈ lruReturned 1 (gfcLruNew 1000 100 0) (.set keyA (some 1) 6),
        lru.freeItems = none ∧ lru.Accounted 1000 ∧ lru.find keyA = some (none, some 0) ∧
          (lru.heap 0).valueLength = 6 := by
    decide +kernel
  obtain ⟨chains, spare, formed⟩ := lruTidy_wellFormed
    (lruTidy_set (lruTidy_new 1000 0 100) (by decide +kernel) (.returns 1 returned)) unused
  refine ⟨lru, returned, (keepsAccount_iff formed account _).mpr (.inr ?_)⟩
  rw [found, SetBalances, length]
  exact .inl (by decide)

/-- In a cache of 2^33 bytes, a value that is one byte shorter leaves 2^32 bytes that are neither
free nor those of an item. -/
theorem keepsAccount_fails :
    ¬∀ (lru : GfcLru Nat) (chains : Nat → List Nat) (spare : Set Nat) (total : UInt64),
      LruWellFormed lru chains spare → lru.Accounted total →
        ∀ call, KeepsAccount total lru call := by
  intro every
  obtain ⟨lru, returned, unused, account, lru', returned', lost⟩ :
      ∃ lru ∈ lruReturned 1 (gfcLruNew 8589934592 4294967295 0) (.set keyA (some 1) 6),
        lru.freeItems = none ∧ lru.Accounted 8589934592 ∧
          ∃ lru' ∈ lruReturned 1 lru (.set keyA (some 2) 5), ¬lru'.Accounted 8589934592 := by
    decide +kernel
  obtain ⟨chains, spare, formed⟩ := lruTidy_wellFormed
    (lruTidy_set (lruTidy_new 8589934592 0 4294967295) (by decide +kernel) (.returns 1 returned))
    unused
  exact lost (every lru chains spare _ formed account (.set keyA (some 2) 5) 1 lru' returned').1

end Guardwatch
