import Guardwatch.Gfc.LruCache
import Mathlib.Algebra.Order.BigOperators.Group.Finset

/-! Where `gfc_lru_set` returns: its evictions give back the memory that it requires before they
come to an item whose key has been freed. -/

namespace Guardwatch

open Labelled LinkedList

variable {α : Type}

namespace GfcLru

/-- The items to which a link leads. -/
def chain (lru : GfcLru α) : (steps : Nat) → Option Nat → List Nat
  | 0, _ => []
  | _ + 1, none => []
  | steps + 1, some item => item :: lru.chain steps (lru.next item)

/-- The items of all chains. -/
def cached (lru : GfcLru α) : Finset Nat :=
  ((List.range lru.hashTableSize.toNat).flatMap fun i =>
    lru.chain (lru.itemCount + 1) (lru.items i)).toFinset

/-- The key of the item has been freed, as is the key of the item that is updated. -/
def Dangling (lru : GfcLru α) (updated : Option Nat) (item : Nat) : Prop :=
  updated = some item ∨ ¬lru.Intact item

instance (lru : GfcLru α) (updated : Option Nat) (item : Nat) :
    Decidable (lru.Dangling updated item) :=
  inferInstanceAs (Decidable (_ ∨ _))

/-- The count of the last access to the item, which is the next one for the updated item. -/
def lastUse (lru : GfcLru α) (updated : Option Nat) (item : Nat) : UInt64 :=
  if updated = some item then lru.accessCount + 1 else (lru.heap item).accessCount

/-- The item is evicted before any whose key has been freed. -/
def Older (lru : GfcLru α) (updated : Option Nat) (item : Nat) : Prop :=
  ∀ q ∈ lru.cached, lru.Dangling updated q → lru.lastUse updated item < lru.lastUse updated q

instance (lru : GfcLru α) (updated : Option Nat) (item : Nat) :
    Decidable (lru.Older updated item) :=
  inferInstanceAs (Decidable (∀ _ ∈ _, _))

/-- The memory that evictions give back before they come to a freed key. -/
def releasable (lru : GfcLru α) (updated : Option Nat) : Nat :=
  ∑ p ∈ lru.cached.filter (lru.Older updated), (lru.heap p).valueLength.toNat

/-- What the lookup of `gfc_lru_set` finds lets the call return. A new item may itself be evicted,
so that without a freed key there is always enough to release. -/
def Affords (lru : GfcLru α) (valueLength : UInt32) : Option (Option Nat × Option Nat) → Prop
  | none => False
  | some (_, none) => lru.freeItems.bind lru.next = none ∧
      ((∀ p ∈ lru.cached, lru.Intact p) ∨
        valueLength.toNat ≤ lru.freeMemory.toNat + lru.releasable none)
  | some (_, some item) => (valueLength - (lru.heap item).valueLength).toNat ≤
      lru.freeMemory.toNat + lru.releasable (some item)

instance (lru : GfcLru α) (valueLength : UInt32) :
    ∀ found, Decidable (lru.Affords valueLength found)
  | none => .isFalse id
  | some (_, none) => inferInstanceAs (Decidable (_ ∧ _))
  | some (_, some _) => inferInstanceAs (Decidable (_ ≤ _))

end GfcLru

/-- The cache with which the call returns, where the eviction takes fewer than the given rounds.
Without a table the hash is taken modulo 0. -/
def lruReturned (rounds : Nat) (lru : GfcLru α) (call : LruCall α) : Option (GfcLru α) :=
  if lru.hashTableSize = 0 then none
  else match call with
    | .set key value valueLength =>
      match gfcLruSet rounds lru key value valueLength with
      | .returned lru _ => some lru
      | .undefined => none
      | .running => none
    | .get key => (gfcLruGet lru key).map Prod.snd
    | .remove key => gfcLruRemove lru key

/-- A call that returns, or a call of `gfc_lru_set` that never does. -/
inductive LruSteps : Option (GfcLru α) → LruCall α → Option (GfcLru α) → Prop
  | returns {lru lru' : GfcLru α} {call : LruCall α} (rounds : Nat)
      (returned : lruReturned rounds lru call = some lru') : LruSteps (some lru) call (some lru')
  | never {lru : GfcLru α} {key : LruKey} {value : Option α} {valueLength : UInt32}
      (stuck : ∀ rounds, lruReturned rounds lru (.set key value valueLength) = none) :
      LruSteps (some lru) (.set key value valueLength) none

/-- The cache has a table and what a call of `gfc_lru_set` needs. -/
def SetEnds (state : Option (GfcLru α)) : LruCall α → Prop
  | .set key _ valueLength => ∀ lru ∈ state,
      lru.hashTableSize ≠ 0 ∧ lru.Affords valueLength (lru.find key)
  | .get _ => True
  | .remove _ => True

instance (state : Option (GfcLru α)) : ∀ call, Decidable (SetEnds state call)
  | .set _ _ _ => inferInstanceAs (Decidable (∀ _ ∈ _, _))
  | .get _ => .isTrue trivial
  | .remove _ => .isTrue trivial

variable {lru lru' : GfcLru α} {chains : Nat → List Nat} {free : List Nat} {key : LruKey}
  {p i : Nat} {updated : Option Nat}

/-! ### The items of the chains -/

theorem chain_linked {l : List Nat} {item : Option Nat} (linked : Linked lru.next item l)
    {steps : Nat} (enough : l.length < steps) : lru.chain steps item = l := by
  induction l generalizing item steps with
  | nil =>
    obtain rfl : item = none := linked
    obtain ⟨steps, rfl⟩ := Nat.exists_eq_add_one_of_ne_zero (Nat.ne_of_gt enough)
    rfl
  | cons p l ih =>
    obtain ⟨rfl, linked⟩ := linked
    obtain ⟨steps, rfl⟩ :=
      Nat.exists_eq_add_one_of_ne_zero (Nat.ne_of_gt (Nat.zero_lt_of_lt enough))
    rw [GfcLru.chain, ih linked (Nat.lt_of_succ_lt_succ enough)]

theorem LruChained.mem_cached (lists : LruChained lru chains) :
    p ∈ lru.cached ↔ ∃ i, p ∈ chains i := by
  simp only [GfcLru.cached, List.mem_toFinset, List.mem_flatMap, List.mem_range,
    fun i => chain_linked (lists.linked i) (lists.placed.short i)]
  constructor
  · rintro ⟨i, -, member⟩
    exact ⟨i, member⟩
  · rintro ⟨i, member⟩
    exact ⟨i, lists.inside i p member, member⟩

theorem LruChained.cached_of_chain {front back : List Nat} (lists : LruChained lru chains)
    (chain : chains i = front ++ p :: back) : p ∈ lru.cached :=
  lists.mem_cached.mpr ⟨i, chain ▸ List.mem_append_cons_self⟩

/-- An item whose key has been freed is not older than itself. -/
theorem GfcLru.Older.intact (older : lru.Older updated p) (member : p ∈ lru.cached) :
    lru.Intact p := by
  by_contra freed
  exact UInt64.lt_irrefl _ (older p member (.inr freed))

theorem GfcLru.Older.ne_updated (older : lru.Older updated p) (member : p ∈ lru.cached) :
    updated ≠ some p :=
  fun same => UInt64.lt_irrefl _ (older p member (.inl same))

/-! ### Evictions -/

/-- One item less is in the chains. -/
theorem LruChained.cached_removed {front back : List Nat} (lists : LruChained lru chains)
    (chain : chains i = front ++ p :: back)
    (lists' : LruChained lru' (Function.update chains i (front ++ back))) :
    lru'.cached = lru.cached.erase p := by
  ext q
  rw [lists'.mem_cached, Finset.mem_erase, lists.mem_cached]
  constructor
  · rintro ⟨j, member⟩
    exact ⟨lists.placed.removed_apart chain j q member, j, mem_update_chains chain member⟩
  · rintro ⟨other, j, member⟩
    refine ⟨j, ?_⟩
    by_cases same : j = i
    · subst same
      rw [Function.update_self]
      rw [chain] at member
      simp only [List.mem_append, List.mem_cons, other, false_or] at member ⊢
      exact member
    · rwa [Function.update_of_ne same]

theorem LruLinked.cached_remove {front back : List Nat} (lists : LruLinked lru chains free)
    (chain : chains i = front ++ p :: back) (change : LruRemoved lru lru' front.getLast? p i) :
    lru'.cached = lru.cached.erase p :=
  lists.chained.cached_removed chain (lists.remove chain change).chained

theorem LruLinked.same_removed {front back : List Nat} (lists : LruLinked lru chains free)
    (chain : chains i = front ++ p :: back) (change : LruRemoved lru lru' front.getLast? p i) :
    ∀ q ∈ lru'.cached, (lru'.Intact q ↔ lru.Intact q) ∧ SameUse lru lru' q := by
  intro q at_q
  obtain ⟨j, in_chain⟩ := (lists.remove chain change).chained.mem_cached.mp at_q
  exact ⟨(lists.removed_entry chain change j q in_chain).intact,
    change.use q (lists.chained.placed.removed_apart chain j q in_chain)⟩

/-- No item comes before others because of an item whose key is there. -/
theorem LruLinked.older_remove {front back : List Nat} (lists : LruLinked lru chains free)
    (chain : chains i = front ++ p :: back) (change : LruRemoved lru lru' front.getLast? p i)
    (intact : lru.Intact p) :
    ∀ q ∈ lru'.cached, (lru'.Older none q ↔ lru.Older none q) := by
  intro q at_q
  have same := lists.same_removed chain change
  have moved : (∀ r ∈ lru'.cached, lru'.Dangling none r →
      lru'.lastUse none q < lru'.lastUse none r) ↔
      ∀ r ∈ lru'.cached, lru.Dangling none r → lru.lastUse none q < lru.lastUse none r := by
    refine forall₂_congr fun r at_r => ?_
    simp only [GfcLru.Dangling, GfcLru.lastUse, (same r at_r).1, (same r at_r).2.accessCount,
      (same q at_q).2.accessCount, reduceCtorEq, if_false, false_or]
  rw [GfcLru.Older, moved, lists.cached_remove chain change]
  constructor
  · intro others r at_r dangling
    have apart : r ≠ p := by
      rintro rfl
      exact dangling.elim nofun fun freed => freed intact
    exact others r (Finset.mem_erase.mpr ⟨apart, at_r⟩) dangling
  · exact fun others r at_r => others r (Finset.mem_of_mem_erase at_r)

/-- The memory of an evicted item is no longer to be released. -/
theorem LruLinked.releasable_remove {front back : List Nat} (lists : LruLinked lru chains free)
    (chain : chains i = front ++ p :: back) (change : LruRemoved lru lru' front.getLast? p i)
    (older : lru.Older none p) :
    lru.releasable none = (lru.heap p).valueLength.toNat + lru'.releasable none := by
  have member : p ∈ lru.cached := lists.chained.cached_of_chain chain
  have left : lru'.cached.filter (lru'.Older none) =
      (lru.cached.filter (lru.Older none)).erase p := by
    rw [Finset.filter_congr (lists.older_remove chain change (older.intact member)),
      lists.cached_remove chain change, Finset.filter_erase]
  have in_filter : p ∈ lru.cached.filter (lru.Older none) := Finset.mem_filter.mpr ⟨member, older⟩
  rw [GfcLru.releasable, GfcLru.releasable, ← Finset.add_sum_erase _ _ in_filter, left]
  congr 1
  refine Finset.sum_congr rfl fun q at_q => ?_
  rw [← left] at at_q
  rw [(lists.same_removed chain change q (Finset.mem_filter.mp at_q).1).2.valueLength]

/-- An eviction while there is something to release takes an item whose key is there. -/
theorem LruLinked.abandon_older (lists : LruLinked lru chains free)
    (positive : 0 < lru.releasable none) :
    ∃ i front p back lru' keys, chains i = front ++ p :: back ∧ lru.Older none p ∧
      gfcLruItemAbandon lru = some (lru', keys) ∧ LruRemoved lru lru' front.getLast? p i := by
  obtain ⟨x, at_x, -⟩ := Finset.exists_ne_zero_of_sum_ne_zero (Nat.ne_of_gt positive)
  obtain ⟨cached, older⟩ := Finset.mem_filter.mp at_x
  obtain ⟨j, in_chain⟩ := lists.chained.mem_cached.mp cached
  rcases lists.chained.placed.abandon with ⟨empty, -⟩ | ⟨i, front, p, back, chain, least, -, abandoned⟩
  · rw [empty j] at in_chain
    cases in_chain
  · have member : p ∈ lru.cached := lists.chained.cached_of_chain chain
    have older_p : lru.Older none p := fun q at_q dangling =>
      UInt64.lt_of_le_of_lt (least j x in_chain) (older q at_q dangling)
    obtain ⟨lru', removed, change⟩ :=
      gfcLruItemRemove_intact (older_p.intact member) front.getLast? i
    rw [removed] at abandoned
    exact ⟨i, front, p, back, lru', _, chain, older_p, abandoned, change⟩

/-- The removal of an item fails where its key cannot be freed. -/
theorem gfcLruItemRemove_none {prev : Option Nat} :
    gfcLruItemRemove lru prev p i = none ↔ lru.freeKey (lru.heap p).key = none := by
  have keys : (lru.setLink prev i (lru.heap p).next).keys = lru.keys := by
    cases prev <;> rfl
  unfold gfcLruItemRemove GfcLru.freeKey
  rw [Option.map_eq_none_iff]
  cases (lru.heap p).key with
  | none => simp
  | some buffer => simp [keys]

theorem gfcLruItemRemove_freed {buffer : Nat} (freed : ¬lru.Intact p)
    (at_item : (lru.heap p).key = some buffer) (prev : Option Nat) (i : Nat) :
    gfcLruItemRemove lru prev p i = none := by
  rw [GfcLru.Intact, at_item, Option.bind_some] at freed
  rw [gfcLruItemRemove_none, at_item, GfcLru.freeKey, if_neg freed]

/-- The memory is far from its bound while there is less of it than is required. -/
theorem freeMemory_add {free : UInt64} {required : UInt32} (little : free.toNat < required.toNat)
    (length : UInt32) : (free + length.toUInt64).toNat = free.toNat + length.toNat := by
  have required_lt := required.toNat_lt
  have length_lt := length.toNat_lt
  rw [UInt64.toNat_add, UInt32.toNat_toUInt64]
  exact Nat.mod_eq_of_lt (by omega)

theorem LruRemoved.freeMemory_lt {prev : Option Nat} {required : UInt32}
    (change : LruRemoved lru lru' prev p i) (little : lru.freeMemory.toNat < required.toNat) :
    lru'.freeMemory.toNat = lru.freeMemory.toNat + (lru.heap p).valueLength.toNat := by
  rw [change.freeMemory, freeMemory_add little]

/-- The loop that evicts comes to an end, within as many rounds as there are items and one more. -/
theorem LruLinked.evict (lists : LruLinked lru chains free) {required : UInt32}
    (enough : required.toNat ≤ lru.freeMemory.toNat + lru.releasable none) {rounds : Nat}
    (many : lru.cached.card < rounds) (evicted : List LruKey) :
    ∃ lru' keys chains' free',
      lruEvict required.toUInt64 rounds lru evicted = .returned lru' keys ∧
        LruLinked lru' chains' free' := by
  induction rounds generalizing lru chains free evicted with
  | zero => exact absurd many (Nat.not_lt_zero _)
  | succ rounds ih =>
    rw [lruEvict]
    split
    · rename_i little
      have little : lru.freeMemory.toNat < required.toNat := by
        rwa [UInt64.lt_iff_toNat_lt, UInt32.toNat_toUInt64] at little
      obtain ⟨i, front, p, back, lru', keys, chain, older, abandoned, change⟩ :=
        lists.abandon_older (by omega)
      have released := lists.releasable_remove chain change older
      have memory := change.freeMemory_lt little
      have member : p ∈ lru.cached := lists.chained.cached_of_chain chain
      rw [abandoned]
      apply ih (lists.remove chain change)
      · omega
      · rw [lists.cached_remove chain change]
        exact Nat.lt_of_lt_of_le (Finset.card_erase_lt_of_mem member) (Nat.le_of_lt_succ many)
    · exact ⟨lru, evicted, chains, free, rfl, lists⟩

/-- Where less can be released than is required, and no two items were used last at the same time,
the loop comes to a freed key or never ends. -/
theorem LruLinked.evict_never (lists : LruLinked lru chains free)
    (distinct : ∀ p ∈ lru.cached, ∀ q ∈ lru.cached,
      (lru.heap p).accessCount = (lru.heap q).accessCount → p = q) {required : UInt32}
    (little : lru.freeMemory.toNat + lru.releasable none < required.toNat) (rounds : Nat)
    (evicted : List LruKey) (last : GfcLru α) (keys : List LruKey) :
    lruEvict required.toUInt64 rounds lru evicted ≠ .returned last keys := by
  induction rounds generalizing lru chains free evicted with
  | zero =>
    intro returned
    cases returned
  | succ rounds ih =>
    have less : lru.freeMemory < required.toUInt64 := by
      rw [UInt64.lt_iff_toNat_lt, UInt32.toNat_toUInt64]
      omega
    rw [lruEvict, if_pos less]
    rcases lists.chained.placed.abandon with
      ⟨-, kept⟩ | ⟨i, front, p, back, chain, least, -, abandoned⟩
    · rw [kept]
      exact ih lists distinct little _
    · have member : p ∈ lru.cached := lists.chained.cached_of_chain chain
      by_cases intact : lru.Intact p
      · obtain ⟨lru', removed, change⟩ := gfcLruItemRemove_intact intact front.getLast? i
        have older : lru.Older none p := by
          intro q at_q dangling
          have apart : p ≠ q := by
            rintro rfl
            rcases dangling with at_none | freed
            · cases at_none
            · exact freed intact
          obtain ⟨j, in_chain⟩ := lists.chained.mem_cached.mp at_q
          exact UInt64.lt_of_le_of_ne (least j q in_chain) fun same =>
            apart (distinct p member q at_q same)
        have released := lists.releasable_remove chain change older
        have memory := change.freeMemory_lt (by omega : lru.freeMemory.toNat < required.toNat)
        have left := lists.cached_remove chain change
        rw [abandoned, removed]
        refine ih (lists.remove chain change) (fun q at_q r at_r same => ?_) (by omega) _
        rw [left, Finset.mem_erase] at at_q at_r
        rw [(change.use q at_q.1).accessCount, (change.use r at_r.1).accessCount] at same
        exact distinct q at_q.2 r at_r.2 same
      · obtain ⟨buffer, -, at_item⟩ :=
          lists.buffered i p (chain ▸ List.mem_append_cons_self)
        rw [abandoned, gfcLruItemRemove_freed intact at_item]
        intro returned
        cases returned

theorem LruLinked.reclaim (lists : LruLinked lru chains free) {required : UInt32}
    (enough : required.toNat ≤ lru.freeMemory.toNat + lru.releasable none) :
    ∃ rounds lru' keys chains' free', lruReclaim rounds lru required = .returned lru' keys ∧
      LruLinked lru' chains' free' := by
  refine ⟨lru.cached.card + 1, ?_⟩
  obtain ⟨lru', keys, chains', free', ended, kept⟩ := lists.evict enough (Nat.lt_succ_self _) []
  have paid : ∀ (lru : GfcLru α) {chains free}, LruLinked lru chains free →
      LruLinked { lru with freeMemory := lru.freeMemory - required.toUInt64 } chains free :=
    fun _ _ _ lists => lists.congr rfl rfl rfl rfl rfl (Nat.le_refl _) fun _ => rfl
  unfold lruReclaim
  split_ifs
  · rw [ended]
    exact ⟨_, keys, chains', free', rfl, paid lru' kept⟩
  · exact ⟨_, [], chains, free, rfl, paid lru lists⟩

theorem LruLinked.reclaim_never (lists : LruLinked lru chains free)
    (distinct : ∀ p ∈ lru.cached, ∀ q ∈ lru.cached,
      (lru.heap p).accessCount = (lru.heap q).accessCount → p = q) {required : UInt32}
    (little : lru.freeMemory.toNat + lru.releasable none < required.toNat) (rounds : Nat)
    (last : GfcLru α) (keys : List LruKey) :
    lruReclaim rounds lru required ≠ .returned last keys := by
  have more : required > 0 ∧ required.toUInt64 > lru.freeMemory := by
    rw [gt_iff_lt, gt_iff_lt, UInt32.lt_iff_toNat_lt, UInt64.lt_iff_toNat_lt,
      UInt32.toNat_toUInt64]
    exact ⟨Nat.zero_lt_of_lt little, by omega⟩
  unfold lruReclaim
  rw [if_pos more]
  split
  · rename_i ended
    exact absurd ended (lists.evict_never distinct little rounds [] _ _)
  · nofun
  · nofun

/-! ### Calls -/

/-- The items in front of the freed keys stay there, where no further key is freed. -/
theorem releasable_le (within : lru.cached ⊆ lru'.cached)
    (use : ∀ p ∈ lru.cached, updated ≠ some p → SameUse lru lru' p)
    (freed : ∀ q ∈ lru'.cached, ¬lru'.Intact q →
      q ∈ lru.cached ∧ lru.Dangling updated q ∧
        (lru'.heap q).accessCount = lru.lastUse updated q) :
    lru.releasable updated ≤ lru'.releasable none := by
  have kept : ∀ p ∈ lru.cached.filter (lru.Older updated),
      SameUse lru lru' p ∧ lru'.Older none p := by
    intro p member
    obtain ⟨cached, older⟩ := Finset.mem_filter.mp member
    have apart := older.ne_updated cached
    have same := use p cached apart
    refine ⟨same, fun q at_q dangling => ?_⟩
    obtain ⟨before, dangling, count⟩ := freed q at_q (dangling.resolve_left nofun)
    have less := older q before dangling
    rw [← count, GfcLru.lastUse, if_neg apart] at less
    rw [GfcLru.lastUse, GfcLru.lastUse, if_neg nofun, if_neg nofun, same.accessCount]
    exact less
  calc lru.releasable updated
      = ∑ p ∈ lru.cached.filter (lru.Older updated), (lru'.heap p).valueLength.toNat :=
        Finset.sum_congr rfl fun p member => by rw [(kept p member).1.valueLength]
    _ ≤ lru'.releasable none := by
        apply Finset.sum_le_sum_of_subset
        intro p member
        exact Finset.mem_filter.mpr ⟨within (Finset.mem_filter.mp member).1, (kept p member).2⟩

theorem SameEntry.freed (same : SameEntry lru lru' p) (use : SameUse lru lru' p)
    (member : p ∈ lru.cached) (freed : ¬lru'.Intact p) :
    p ∈ lru.cached ∧ lru.Dangling none p ∧ (lru'.heap p).accessCount = lru.lastUse none p :=
  ⟨member, .inr fun intact => freed (same.intact.mpr intact), use.accessCount⟩

/-- What a new key needs is there also once the key has a buffer. -/
theorem LruLinked.enough_ownKey (lists : LruLinked lru chains free) (key : LruKey) {required : Nat}
    (enough : (∀ p ∈ lru.cached, lru.Intact p) ∨
      required ≤ lru.freeMemory.toNat + lru.releasable none) :
    (∀ p ∈ (lru.ownKey key).cached, (lru.ownKey key).Intact p) ∨
      required ≤ (lru.ownKey key).freeMemory.toNat + (lru.ownKey key).releasable none := by
  have owned := lists.ownKey key
  have same : ∀ p ∈ (lru.ownKey key).cached, p ∈ lru.cached ∧ SameEntry lru (lru.ownKey key) p := by
    intro p member
    obtain ⟨i, in_chain⟩ := owned.chained.mem_cached.mp member
    exact ⟨lists.chained.mem_cached.mpr ⟨i, in_chain⟩, lists.chained.ownKey_same key i p in_chain⟩
  rcases enough with intact | enough
  · left
    intro p member
    exact (same p member).2.intact.mpr (intact p (same p member).1)
  · right
    apply Nat.le_trans enough
    apply Nat.add_le_add_left
    refine releasable_le (fun p member => ?_) (fun _ _ _ => ⟨rfl, rfl⟩) fun q member freed => ?_
    · obtain ⟨i, in_chain⟩ := lists.chained.mem_cached.mp member
      exact owned.chained.mem_cached.mpr ⟨i, in_chain⟩
    · exact (same q member).2.freed ⟨rfl, rfl⟩ (same q member).1 freed

/-- Enough can be released once the item is inserted: it may itself be evicted. -/
theorem LruLinked.enough_insert {h buffer : Nat} {value : Option α} {valueLength : UInt32}
    (lists : LruLinked lru chains free)
    (lists' : LruLinked lru' (Function.update chains h (chains h ++ [p])) [])
    (change : LruInserted lru lru' (chains h).getLast? h p buffer key value valueLength)
    (content : lru.keys buffer = some key) (new : ∀ i, p ∉ chains i)
    (enough : (∀ p ∈ lru.cached, lru.Intact p) ∨
      valueLength.toNat ≤ lru.freeMemory.toNat + lru.releasable none) :
    valueLength.toNat ≤ lru'.freeMemory.toNat + lru'.releasable none := by
  have intact : lru'.Intact p :=
    intact_iff.mpr ⟨buffer, key, change.has_key, by rw [change.keys, content]⟩
  have within : ∀ q, q ∈ lru'.cached ↔ q ∈ lru.cached ∨ q = p := by
    intro q
    rw [lists'.chained.mem_cached, lists.chained.mem_cached]
    simp only [mem_insert_chains, exists_or, exists_eq_left]
  have apart : ∀ q ∈ lru.cached, q ≠ p := by
    rintro q member rfl
    obtain ⟨i, in_chain⟩ := lists.chained.mem_cached.mp member
    exact new i in_chain
  have freed : ∀ q ∈ lru'.cached, ¬lru'.Intact q → q ∈ lru.cached := by
    intro q member freed
    rcases (within q).mp member with before | rfl
    · exact before
    · exact absurd intact freed
  rcases enough with all_intact | enough
  · have older : lru'.Older none p := by
      intro q member dangling
      have lost := dangling.resolve_left nofun
      have before := freed q member lost
      exact absurd ((change.entry q (apart q before)).intact.mpr (all_intact q before)) lost
    have member : p ∈ lru'.cached.filter (lru'.Older none) :=
      Finset.mem_filter.mpr ⟨(within p).mpr (.inr rfl), older⟩
    have self : (lru'.heap p).valueLength.toNat ≤ lru'.releasable none :=
      Finset.single_le_sum (f := fun q => (lru'.heap q).valueLength.toNat)
        (fun _ _ => Nat.zero_le _) member
    rw [change.has_valueLength] at self
    exact Nat.le_add_left_of_le self
  · rw [change.freeMemory]
    apply Nat.le_trans enough
    apply Nat.add_le_add_left
    refine releasable_le (fun q member => (within q).mpr (.inl member))
      (fun q member _ => change.use q (apart q member)) fun q member lost => ?_
    have before := freed q member lost
    exact (change.entry q (apart q before)).freed (change.use q (apart q before)) before lost

/-- The call for a key that is not found returns, with what `Affords` asks for. -/
theorem LruLinked.set_new {prev : Option Nat} (lists : LruLinked lru chains free)
    (size : lru.hashTableSize ≠ 0) (found : lru.find key = some (prev, none))
    (value : Option α) {valueLength : UInt32} (affords : lru.Affords valueLength (lru.find key)) :
    ∃ rounds lru' keys chains' free',
      gfcLruSet rounds lru key value valueLength = .returned lru' keys ∧
        LruLinked lru' chains' free' := by
  rw [found] at affords
  obtain ⟨few, enough⟩ := affords
  obtain rfl : prev = (chains (gfcLruHash lru key)).getLast? := by
    rcases lists.chained.find_some found with last | ⟨_, _, _, -, -, last⟩
    · exact congrArg Prod.fst last
    · cases last
  have owned := lists.ownKey key
  have content : (lru.ownKey key).keys lru.keyCount = some key := Function.update_self _ _ _
  obtain ⟨popped, new⟩ := owned.pop few
  have apart : (chains (gfcLruHash lru key)).getLast? ≠
      some (gfcLruItemPop (lru.ownKey key)).1 :=
    fun before => new _ (List.mem_of_getLast? before)
  have change : LruInserted _ _ _ (gfcLruHash lru key) _ lru.keyCount key value valueLength :=
    lruInsert_inserted value valueLength popped apart
  have positive : 0 < lru.hashTableSize.toNat :=
    Nat.pos_of_ne_zero fun zero => size (UInt32.toNat_inj.mp zero)
  have lists' := owned.insert change (hash_lt positive key) new (Nat.lt_succ_self _)
    lists.chained.ownKey_own
  have enough' := owned.enough_insert lists' change content new (lists.enough_ownKey key enough)
  simp only [gfcLruSet, lists.chained.find_ownKey, found]
  exact lists'.reclaim enough'

/-- The cache once the key of the item is freed, and its value another one. -/
def lruUpdated (lru : GfcLru α) (p buffer : Nat) (value : Option α) (valueLength : UInt32) :
    GfcLru α :=
  let lru := { lru with keys := Function.update lru.keys buffer none }
  (lru.setItem p { lru.heap p with value, valueLength }).access p

theorem lruUpdated_heap (p buffer q : Nat) (value : Option α) (valueLength : UInt32) :
    (lruUpdated lru p buffer value valueLength).heap q =
      if q = p then
        { lru.heap p with value, valueLength, accessCount := lru.accessCount + 1 }
      else lru.heap q := by
  rw [lruUpdated, access_heap, setItem_heap, setItem_heap, if_pos rfl]
  split <;> rfl

theorem lruUpdated_next {buffer : Nat} {value : Option α} {valueLength : UInt32} :
    (lruUpdated lru p buffer value valueLength).next = lru.next := by
  funext q
  rw [GfcLru.next, lruUpdated_heap]
  by_cases same : q = p
  · rw [if_pos same, same]
    rfl
  · rw [if_neg same]
    rfl

theorem lruUpdated_key {buffer q : Nat} {value : Option α} {valueLength : UInt32} :
    ((lruUpdated lru p buffer value valueLength).heap q).key = (lru.heap q).key := by
  rw [lruUpdated_heap]
  by_cases same : q = p
  · rw [if_pos same, same]
  · rw [if_neg same]

theorem LruLinked.update (lists : LruLinked lru chains free) (p buffer : Nat) (value : Option α)
    (valueLength : UInt32) :
    LruLinked (lruUpdated lru p buffer value valueLength) chains free :=
  lists.congr rfl lruUpdated_next rfl rfl rfl (Nat.le_refl _) fun _ => lruUpdated_key

/-- The only further item whose key is freed is the updated one, which was used last. -/
theorem LruLinked.releasable_update {buffer : Nat} (lists : LruLinked lru chains free)
    (cached : p ∈ lru.cached) (at_item : (lru.heap p).key = some buffer) (key : LruKey)
    (value : Option α) (valueLength : UInt32) :
    lru.releasable (some p) ≤
      (lruUpdated (lru.ownKey key) p buffer value valueLength).releasable none := by
  have lists' := (lists.ownKey key).update p buffer value valueLength
  have within : ∀ q, q ∈ (lruUpdated (lru.ownKey key) p buffer value valueLength).cached ↔
      q ∈ lru.cached := by
    intro q
    rw [lists'.chained.mem_cached, lists.chained.mem_cached]
  have other : ∀ q, q ≠ p →
      (lruUpdated (lru.ownKey key) p buffer value valueLength).heap q = lru.heap q := by
    intro q apart
    rw [lruUpdated_heap, if_neg apart]
    rfl
  refine releasable_le (fun q member => (within q).mpr member) (fun q member apart => ?_)
    fun q member freed => ?_
  · have apart : q ≠ p := fun same => apart (congrArg some same.symm)
    exact ⟨by rw [other q apart], by rw [other q apart]⟩
  · have before := (within q).mp member
    by_cases same : q = p
    · subst same
      refine ⟨before, .inl rfl, ?_⟩
      rw [lruUpdated_heap, if_pos rfl, GfcLru.lastUse, if_pos rfl]
      rfl
    · refine ⟨before, .inr fun intact => freed ?_, ?_⟩
      · obtain ⟨i, in_chain⟩ := lists.chained.mem_cached.mp before
        have intact := (lists.chained.ownKey_same key i q in_chain).intact.mpr intact
        obtain ⟨buffer', content, at_q, at_buffer⟩ := intact_iff.mp intact
        have buffers : buffer' ≠ buffer := by
          rintro rfl
          obtain ⟨j, in_chain'⟩ := lists.chained.mem_cached.mp cached
          exact same (lists.buffers i j q p in_chain in_chain' (at_q.trans at_item.symm))
        refine intact_iff.mpr ⟨buffer', content, by rwa [other q same], ?_⟩
        exact (Function.update_of_ne buffers _ _).trans at_buffer
      · rw [other q same, GfcLru.lastUse, if_neg fun at_q => same (Option.some.inj at_q).symm]

/-- The call for a key that is found frees the key of its item. -/
theorem LruChained.gfcLruSet_found {prev : Option Nat} (lists : LruChained lru chains)
    (found : lru.find key = some (prev, some p)) :
    p ∈ lru.cached ∧ ∃ buffer, (lru.heap p).key = some buffer ∧
      ∀ rounds value valueLength, gfcLruSet rounds lru key value valueLength =
        lruReclaim rounds (lruUpdated (lru.ownKey key) p buffer value valueLength)
          (valueLength - (lru.heap p).valueLength) := by
  obtain ⟨in_chain, intact⟩ : p ∈ chains (gfcLruHash lru key) ∧ lru.Intact p := by
    rcases lists.find_some found with last | ⟨front, q, back, chain, intact, same⟩
    · cases last
    · obtain rfl : p = q := Option.some.inj (congrArg Prod.snd same)
      exact ⟨chain ▸ List.mem_append_cons_self, intact⟩
  have intact := (lists.ownKey_same key _ p in_chain).intact.mpr intact
  obtain ⟨buffer, content, at_item, at_buffer⟩ := intact_iff.mp intact
  have freed : (lru.ownKey key).freeKey ((lru.ownKey key).heap p).key =
      some { lru.ownKey key with keys := Function.update (lru.ownKey key).keys buffer none } := by
    rw [at_item, GfcLru.freeKey, at_buffer]
    rfl
  refine ⟨lists.mem_cached.mpr ⟨_, in_chain⟩, buffer, at_item, fun rounds value valueLength => ?_⟩
  simp only [gfcLruSet, lists.find_ownKey, found, freed]
  rfl

theorem LruLinked.set_found {prev : Option Nat} (lists : LruLinked lru chains free)
    (found : lru.find key = some (prev, some p)) (value : Option α) {valueLength : UInt32}
    (affords : lru.Affords valueLength (lru.find key)) :
    ∃ rounds lru' keys chains' free',
      gfcLruSet rounds lru key value valueLength = .returned lru' keys ∧
        LruLinked lru' chains' free' := by
  rw [found] at affords
  obtain ⟨cached, buffer, at_item, reclaims⟩ := lists.chained.gfcLruSet_found found
  have enough := Nat.le_trans affords
    (Nat.add_le_add_left (lists.releasable_update cached at_item key value valueLength) _)
  simp only [reclaims]
  exact ((lists.ownKey key).update p buffer value valueLength).reclaim enough

/-- A call of `gfc_lru_set` returns where the memory that it requires is free, or can be released
before a freed key is. -/
theorem LruLinked.set (lists : LruLinked lru chains free) (value : Option α) {valueLength : UInt32}
    (size : lru.hashTableSize ≠ 0) (affords : lru.Affords valueLength (lru.find key)) :
    ∃ rounds lru' keys chains' free',
      gfcLruSet rounds lru key value valueLength = .returned lru' keys ∧
        LruLinked lru' chains' free' := by
  cases found : lru.find key with
  | none =>
    rw [found] at affords
    exact affords.elim
  | some result =>
    obtain ⟨prev, at_key⟩ := result
    cases at_key with
    | none => exact lists.set_new size found value affords
    | some p => exact lists.set_found found value affords

/-! ### Rounds -/

section Rounds

variable {lru₁ lru₂ : GfcLru α} {keys₁ keys₂ : List LruKey} {rounds₁ rounds₂ : Nat}

/-- More rounds do not lead to another cache. -/
theorem lruEvict_unique {required : UInt64} {evicted : List LruKey}
    (first : lruEvict required rounds₁ lru evicted = .returned lru₁ keys₁)
    (second : lruEvict required rounds₂ lru evicted = .returned lru₂ keys₂) : lru₁ = lru₂ := by
  induction rounds₁ generalizing rounds₂ lru evicted with
  | zero => cases first
  | succ rounds₁ ih =>
    cases rounds₂ with
    | zero => cases second
    | succ rounds₂ =>
      rw [lruEvict] at first second
      by_cases little : lru.freeMemory < required
      · rw [if_pos little] at first second
        cases abandoned : gfcLruItemAbandon lru with
        | none =>
          rw [abandoned] at first
          cases first
        | some result =>
          rw [abandoned] at first second
          exact ih first second
      · rw [if_neg little] at first second
        cases first
        cases second
        rfl

theorem lruReclaim_unique {required : UInt32}
    (first : lruReclaim rounds₁ lru required = .returned lru₁ keys₁)
    (second : lruReclaim rounds₂ lru required = .returned lru₂ keys₂) : lru₁ = lru₂ := by
  unfold lruReclaim at first second
  split at first <;> cases first
  split at second <;> cases second
  rename_i evicted₁ _ _ evicted₂
  split at evicted₁
  · rename_i more
    rw [if_pos more] at evicted₂
    rw [lruEvict_unique evicted₁ evicted₂]
  · rename_i enough
    rw [if_neg enough] at evicted₂
    cases evicted₁
    cases evicted₂
    rfl

theorem gfcLruSet_unique {value : Option α} {valueLength : UInt32}
    (first : gfcLruSet rounds₁ lru key value valueLength = .returned lru₁ keys₁)
    (second : gfcLruSet rounds₂ lru key value valueLength = .returned lru₂ keys₂) :
    lru₁ = lru₂ := by
  unfold gfcLruSet at first second
  cases found : (lru.ownKey key).find key with
  | none =>
    simp only [found] at first
    cases first
  | some result =>
    obtain ⟨prev, at_key⟩ := result
    simp only [found] at first second
    cases at_key with
    | none => exact lruReclaim_unique first second
    | some p =>
      dsimp only at first second
      cases freed : (lru.ownKey key).freeKey ((lru.ownKey key).heap p).key with
      | none =>
        simp only [freed] at first
        cases first
      | some lru' =>
        simp only [freed] at first second
        exact lruReclaim_unique first second

end Rounds

/-! ### Runs -/

/-- The cache is there, with its lists. -/
def LruTidy (state : Option (GfcLru α)) : Prop :=
  ∃ lru chains free, state = some lru ∧ LruLinked lru chains free

theorem lruTidy_new (cacheSize time : UInt64) (averageLength : UInt32) :
    LruTidy (some (gfcLruNew cacheSize averageLength time : GfcLru α)) := by
  refine ⟨_, fun _ => [], [], rfl, ?_⟩
  constructor
  case linked => exact fun _ => rfl
  case free_linked => rfl
  all_goals nofun

theorem lruTidy_get {lru' : GfcLru α} (lists : LruLinked lru chains free)
    (returned : (gfcLruGet lru key).map Prod.snd = some lru') : LruTidy (some lru') := by
  obtain ⟨result, got, rfl⟩ := Option.map_eq_some_iff.mp returned
  unfold gfcLruGet at got
  split at got
  · cases got
  · cases got
    exact ⟨_, chains, free, rfl, lists.access _⟩
  · cases got
    exact ⟨_, chains, free, rfl, lists⟩

theorem lruTidy_remove (lists : LruLinked lru chains free)
    (removed : gfcLruRemove lru key = some lru') : LruTidy (some lru') := by
  unfold gfcLruRemove at removed
  split at removed
  · cases removed
  · rename_i found
    rcases lists.chained.find_some found with last | ⟨front, p, back, chain, intact, at_key⟩
    · cases last
    · cases at_key
      obtain ⟨lru'', removed', change⟩ :=
        gfcLruItemRemove_intact intact front.getLast? (gfcLruHash lru key)
      obtain rfl : lru'' = lru' := Option.some.inj (removed'.symm.trans removed)
      exact ⟨_, _, _, rfl, lists.remove chain change⟩
  · cases removed
    exact ⟨_, chains, free, rfl, lists⟩

theorem lruReturned_set {rounds : Nat} {value : Option α} {valueLength : UInt32} :
    lruReturned rounds lru (.set key value valueLength) = some lru' ↔
      lru.hashTableSize ≠ 0 ∧
        ∃ keys, gfcLruSet rounds lru key value valueLength = .returned lru' keys := by
  unfold lruReturned
  by_cases size : lru.hashTableSize = 0
  · rw [if_pos size]
    exact ⟨nofun, fun ⟨positive, _⟩ => absurd size positive⟩
  · rw [if_neg size]
    dsimp only
    cases gfcLruSet rounds lru key value valueLength <;> simp [size]

theorem lruTidy_set {state next : Option (GfcLru α)} {value : Option α} {valueLength : UInt32}
    (tidy : LruTidy state) (ends : SetEnds state (.set key value valueLength))
    (taken : LruSteps state (.set key value valueLength) next) : LruTidy next := by
  obtain ⟨lru, chains, free, rfl, lists⟩ := tidy
  obtain ⟨size, affords⟩ := ends lru rfl
  obtain ⟨rounds, lru', keys, chains', free', returned, lists'⟩ := lists.set value size affords
  cases taken with
  | never stuck =>
    have none := stuck rounds
    rw [lruReturned_set.mpr ⟨size, keys, returned⟩] at none
    cases none
  | returns rounds' returned' =>
    obtain ⟨-, keys', again⟩ := lruReturned_set.mp returned'
    obtain rfl := gfcLruSet_unique again returned
    exact ⟨_, chains', free', rfl, lists'⟩

theorem lruTidy_step {state next : Option (GfcLru α)} {call : LruCall α} (tidy : LruTidy state)
    (ends : SetEnds state call) (taken : LruSteps state call next) : LruTidy next := by
  cases call with
  | set key value valueLength => exact lruTidy_set tidy ends taken
  | get key =>
    obtain ⟨lru, chains, free, rfl, lists⟩ := tidy
    cases taken with
    | returns rounds returned =>
      unfold lruReturned at returned
      split at returned
      · cases returned
      · exact lruTidy_get lists returned
  | remove key =>
    obtain ⟨lru, chains, free, rfl, lists⟩ := tidy
    cases taken with
    | returns rounds returned =>
      unfold lruReturned at returned
      split at returned
      · cases returned
      · exact lruTidy_remove lists returned

/-- In a run in which every key that is set can be looked up without a freed key being read, and the
memory that is required released before one is freed again, every call of `gfc_lru_set` returns. -/
theorem returns_of_setEnds (cacheSize time : UInt64) (averageLength : UInt32)
    (trace : List (LruCall α × Option (GfcLru α)))
    (run : Run LruSteps (some (gfcLruNew cacheSize averageLength time)) trace)
    (ends : EveryStep SetEnds (some (gfcLruNew cacheSize averageLength time)) trace) :
    EveryState (fun state => state ≠ none) (some (gfcLruNew cacheSize averageLength time))
      trace :=
  (run.everyState (lruTidy_new cacheSize time averageLength)
    (fun _ _ _ tidy ok taken => lruTidy_step tidy ok taken) ends).mono
    fun _ tidy none => by
      obtain ⟨lru, chains, free, there, -⟩ := tidy
      rw [none] at there
      cases there

/-- A key that is set again with a longer value evicts the other one. -/
theorem returns_of_setEnds_updated :
    EveryState (fun state => state ≠ none) (some (gfcLruNew 10 1 0 : GfcLru Nat))
      (traced (fun state call => state.bind fun lru => (lruReturned 4 lru call).map some)
        (some (gfcLruNew 10 1 0))
        [.set keyA (some 1) 4, .set keyB (some 2) 5, .get keyB, .set keyB (some 3) 7,
          .set keyA (some 4) 2]) :=
  returns_of_setEnds 10 0 1 _
    ((run_traced _ _ _).mono fun state call next taken => by
      obtain ⟨lru, rfl, made⟩ := Option.bind_eq_some_iff.mp taken
      obtain ⟨lru', returned, rfl⟩ := Option.map_eq_some_iff.mp made
      exact .returns 4 returned)
    (by decide +kernel)

/-- A shorter value for a key requires nearly 2^32 bytes, and evicts the item with the freed key. -/
theorem returns_fails :
    ¬∀ (cacheSize time : UInt64) (averageLength : UInt32)
      (trace : List (LruCall Nat × Option (GfcLru Nat))),
      Run LruSteps (some (gfcLruNew cacheSize averageLength time)) trace →
      EveryState (fun state => state ≠ none) (some (gfcLruNew cacheSize averageLength time))
        trace := by
  intro every
  obtain ⟨lru, returned, found, at_item, length, cached, little⟩ :
      ∃ lru ∈ lruReturned 1 (gfcLruNew 1000 100 0) (.set keyA (some 1) 6),
        lru.find keyA = some (none, some 0) ∧ (lru.heap 0).key = some 0 ∧
          (lru.heap 0).valueLength = 6 ∧
          (lruUpdated (lru.ownKey keyA) 0 0 (some 2) 5).cached = {0} ∧
          (lruUpdated (lru.ownKey keyA) 0 0 (some 2) 5).freeMemory.toNat +
            (lruUpdated (lru.ownKey keyA) 0 0 (some 2) 5).releasable none <
              (5 - 6 : UInt32).toNat := by
    decide +kernel
  obtain ⟨lru', chains, free, same, lists⟩ := lruTidy_set (lruTidy_new 1000 0 100)
    (by decide +kernel) (.returns 1 returned)
  obtain rfl := Option.some.inj same
  obtain ⟨-, buffer, at_item', reclaims⟩ := lists.chained.gfcLruSet_found found
  obtain rfl := Option.some.inj (at_item.symm.trans at_item')
  have stuck : ∀ rounds, lruReturned rounds lru (.set keyA (some 2) 5) = none := by
    intro rounds
    rw [Option.eq_none_iff_forall_ne_some]
    intro lru' returned'
    obtain ⟨-, keys, ended⟩ := lruReturned_set.mp returned'
    rw [reclaims, length] at ended
    apply ((lists.ownKey keyA).update 0 0 (some 2) 5).reclaim_never ?_ little rounds lru' keys ended
    intro p at_p q at_q _
    rw [cached, Finset.mem_singleton] at at_p at_q
    rw [at_p, at_q]
  exact (every 1000 0 100 [(.set keyA (some 1) 6, some lru), (.set keyA (some 2) 5, none)]
    (.next (.returns 1 returned) (.next (.never stuck) (.done none)))).2.2 rfl

end Guardwatch
