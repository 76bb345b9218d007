import Guardwatch.Gfc.Lru

/-! The chains and the free list of the cache, whatever the contents of their items: lookups,
removals, insertions and evictions keep them. -/

namespace Guardwatch

open LinkedList

variable {α : Type}

def GfcLru.next (lru : GfcLru α) (item : Nat) : Option Nat := (lru.heap item).next

/-- The key of the item is in a buffer that has not been freed. -/
def GfcLru.Intact (lru : GfcLru α) (item : Nat) : Prop :=
  ((lru.heap item).key.bind lru.keys).isSome = true

instance (lru : GfcLru α) (item : Nat) : Decidable (lru.Intact item) :=
  inferInstanceAs (Decidable (_ = _))

/-- The items of each chain and of the free list: each of them is allocated, in one of the lists,
and with a buffer of its own for its key where it is in a chain. -/
structure LruLinked (lru : GfcLru α) (chains : Nat → List Nat) (free : List Nat) : Prop where
  linked : ∀ i, Linked lru.next (lru.items i) (chains i)
  free_linked : Linked lru.next lru.freeItems free
  inside : ∀ i, ∀ p ∈ chains i, i < lru.hashTableSize.toNat
  apart : ∀ i j p, p ∈ chains i → p ∈ chains j → i = j
  unused : ∀ i, ∀ p ∈ chains i, p ∉ free
  allocated : ∀ i, ∀ p ∈ chains i, p < lru.itemCount
  free_allocated : ∀ p ∈ free, p < lru.itemCount
  buffered : ∀ i, ∀ p ∈ chains i, ∃ buffer < lru.keyCount, (lru.heap p).key = some buffer
  buffers : ∀ i j p q, p ∈ chains i → q ∈ chains j → (lru.heap p).key = (lru.heap q).key → p = q

/-- The items of each chain: each of them is allocated, in one of the chains, and its key, where it
has one, in a buffer of its own. -/
structure LruChained (lru : GfcLru α) (chains : Nat → List Nat) : Prop where
  linked : ∀ i, Linked lru.next (lru.items i) (chains i)
  inside : ∀ i, ∀ p ∈ chains i, i < lru.hashTableSize.toNat
  apart : ∀ i j p, p ∈ chains i → p ∈ chains j → i = j
  allocated : ∀ i, ∀ p ∈ chains i, p < lru.itemCount
  buffered : ∀ i, ∀ p ∈ chains i, ∀ buffer, (lru.heap p).key = some buffer → buffer < lru.keyCount
  buffers : ∀ i j p q buffer, p ∈ chains i → q ∈ chains j → (lru.heap p).key = some buffer →
    (lru.heap q).key = some buffer → p = q

/-- The items of each chain, whatever keys they have: each of them is allocated, and in one of the
chains. -/
structure LruPlaced (lru : GfcLru α) (chains : Nat → List Nat) : Prop where
  linked : ∀ i, Linked lru.next (lru.items i) (chains i)
  inside : ∀ i, ∀ p ∈ chains i, i < lru.hashTableSize.toNat
  apart : ∀ i j p, p ∈ chains i → p ∈ chains j → i = j
  allocated : ∀ i, ∀ p ∈ chains i, p < lru.itemCount

variable {lru lru' : GfcLru α} {chains : Nat → List Nat} {free : List Nat} {key other : LruKey}
  {p i : Nat}

theorem LruChained.placed (lists : LruChained lru chains) : LruPlaced lru chains :=
  ⟨lists.linked, lists.inside, lists.apart, lists.allocated⟩

theorem LruLinked.chained (lists : LruLinked lru chains free) : LruChained lru chains where
  linked := lists.linked
  inside := lists.inside
  apart := lists.apart
  allocated := lists.allocated
  buffered i p member buffer at_item := by
    obtain ⟨buffer', below, at_item'⟩ := lists.buffered i p member
    rwa [Option.some.inj (at_item.symm.trans at_item')]
  buffers i j p q _ at_i at_j at_p at_q := lists.buffers i j p q at_i at_j (at_p.trans at_q.symm)

/-- The item has the same key, in a buffer of the same content, and the same value. -/
structure SameEntry (lru lru' : GfcLru α) (p : Nat) : Prop where
  key : (lru'.heap p).key = (lru.heap p).key
  keyLength : (lru'.heap p).keyLength = (lru.heap p).keyLength
  value : (lru'.heap p).value = (lru.heap p).value
  buffer : ∀ buffer, (lru.heap p).key = some buffer → lru'.keys buffer = lru.keys buffer

/-- The item was used last at the same time, and has a value of the same length. -/
structure SameUse (lru lru' : GfcLru α) (p : Nat) : Prop where
  accessCount : (lru'.heap p).accessCount = (lru.heap p).accessCount
  valueLength : (lru'.heap p).valueLength = (lru.heap p).valueLength

structure SameTable (lru lru' : GfcLru α) : Prop where
  size : lru'.hashTableSize = lru.hashTableSize
  seed : lru'.seed = lru.seed

theorem SameTable.hash (table : SameTable lru lru') (key : LruKey) :
    gfcLruHash lru' key = gfcLruHash lru key := by
  simp only [gfcLruHash, table.size, table.seed]

theorem hash_lt (positive : 0 < lru.hashTableSize.toNat) (key : LruKey) :
    gfcLruHash lru key < lru.hashTableSize.toNat := by
  rw [gfcLruHash, UInt32.toNat_mod]
  exact Nat.mod_lt _ positive

theorem SameEntry.intact (same : SameEntry lru lru' p) : lru'.Intact p ↔ lru.Intact p := by
  unfold GfcLru.Intact
  rw [same.key]
  cases at_item : (lru.heap p).key with
  | none => rfl
  | some buffer => rw [Option.bind_some, Option.bind_some, same.buffer buffer at_item]

theorem intact_iff : lru.Intact p ↔
    ∃ buffer content, (lru.heap p).key = some buffer ∧ lru.keys buffer = some content := by
  rw [GfcLru.Intact, Option.isSome_iff_exists]
  constructor
  · rintro ⟨content, found⟩
    obtain ⟨buffer, at_item, at_buffer⟩ := Option.bind_eq_some_iff.mp found
    exact ⟨buffer, content, at_item, at_buffer⟩
  · rintro ⟨buffer, content, at_item, at_buffer⟩
    exact ⟨content, Option.bind_eq_some_iff.mpr ⟨buffer, at_item, at_buffer⟩⟩

theorem access_heap (p q : Nat) :
    (lru.access p).heap q =
      if q = p then { lru.heap p with accessCount := lru.accessCount + 1 } else lru.heap q :=
  Function.update_apply _ _ _ _

@[simp] theorem access_next (p : Nat) : (lru.access p).next = lru.next := by
  funext q
  rw [GfcLru.next, access_heap]
  by_cases same : q = p
  · rw [if_pos same, same]
    rfl
  · rw [if_neg same]
    rfl

@[simp] theorem access_key (p q : Nat) : ((lru.access p).heap q).key = (lru.heap q).key := by
  rw [access_heap]
  by_cases same : q = p
  · rw [if_pos same, same]
  · rw [if_neg same]

theorem setItem_heap (p : Nat) (item : LruItem α) (q : Nat) :
    (lru.setItem p item).heap q = if q = p then item else lru.heap q :=
  Function.update_apply _ _ _ _

theorem setLink_heap (prev : Option Nat) (i : Nat) (target : Option Nat) (q : Nat) :
    ((lru.setLink prev i target).heap q) =
      if prev = some q then { lru.heap q with next := target } else lru.heap q := by
  cases prev with
  | none => rfl
  | some prev =>
    by_cases same : q = prev
    · simp [GfcLru.setLink, GfcLru.setItem, same]
    · simp [GfcLru.setLink, GfcLru.setItem, same, Ne.symm same]

theorem getLast?_cons_or (p : Nat) (l : List Nat) (prev : Option Nat) :
    (p :: l).getLast?.or prev = l.getLast?.or (some p) := by
  rw [List.getLast?_cons]
  cases l.getLast? <;> rfl

theorem LruPlaced.short (lists : LruPlaced lru chains) (i : Nat) :
    (chains i).length < lru.itemCount + 1 :=
  Nat.lt_succ_of_le (length_le_of_lt (lists.linked i).nodup (lists.allocated i))

namespace LruChained

/-- What the items have beside their links and their keys does not matter. -/
theorem congr (lists : LruChained lru chains)
    (size : lru'.hashTableSize = lru.hashTableSize) (next : lru'.next = lru.next)
    (items : lru'.items = lru.items) (itemCount : lru'.itemCount = lru.itemCount)
    (keyCount : lru.keyCount ≤ lru'.keyCount) (key : ∀ p, (lru'.heap p).key = (lru.heap p).key) :
    LruChained lru' chains where
  linked i := by
    rw [next, items]
    exact lists.linked i
  inside i p member := by
    rw [size]
    exact lists.inside i p member
  apart := lists.apart
  allocated i p member := by
    rw [itemCount]
    exact lists.allocated i p member
  buffered i p member buffer at_p := by
    rw [key] at at_p
    exact Nat.lt_of_lt_of_le (lists.buffered i p member buffer at_p) keyCount
  buffers i j p q buffer at_i at_j at_p at_q := by
    rw [key] at at_p at_q
    exact lists.buffers i j p q buffer at_i at_j at_p at_q

theorem ownKey (lists : LruChained lru chains) (key : LruKey) :
    LruChained (lru.ownKey key) chains :=
  lists.congr rfl rfl rfl rfl (Nat.le_succ _) fun _ => rfl

theorem access (lists : LruChained lru chains) (p : Nat) :
    LruChained (lru.access p) chains :=
  lists.congr rfl (access_next p) rfl rfl (Nat.le_refl _) (access_key p)

/-- The buffer of the new key is not that of an item. -/
theorem ownKey_own (lists : LruChained lru chains) (i : Nat) :
    ∀ p ∈ chains i, (lru.heap p).key ≠ some lru.keyCount :=
  fun p member at_item => Nat.lt_irrefl _ (lists.buffered i p member _ at_item)

theorem ownKey_same (lists : LruChained lru chains) (key : LruKey) (i : Nat) :
    ∀ p ∈ chains i, SameEntry lru (lru.ownKey key) p := by
  intro p member
  refine ⟨rfl, rfl, rfl, fun buffer at_item => ?_⟩
  have below := lists.buffered i p member buffer at_item
  exact Function.update_of_ne (Nat.ne_of_lt below) _ _

end LruChained

namespace LruLinked

/-- What the items have beside their links and their keys does not matter. -/
theorem congr (lists : LruLinked lru chains free) (size : lru'.hashTableSize = lru.hashTableSize)
    (next : lru'.next = lru.next) (items : lru'.items = lru.items)
    (freeItems : lru'.freeItems = lru.freeItems) (itemCount : lru'.itemCount = lru.itemCount)
    (keyCount : lru.keyCount ≤ lru'.keyCount) (key : ∀ p, (lru'.heap p).key = (lru.heap p).key) :
    LruLinked lru' chains free := by
  have chained := lists.chained.congr size next items itemCount keyCount key
  refine ⟨chained.linked, ?_, chained.inside, lists.apart, lists.unused, chained.allocated, ?_, ?_,
    ?_⟩
  · rw [next, freeItems]
    exact lists.free_linked
  · intro p member
    rw [itemCount]
    exact lists.free_allocated p member
  · intro i p member
    obtain ⟨buffer, below, at_item⟩ := lists.buffered i p member
    exact ⟨buffer, Nat.lt_of_lt_of_le below keyCount, (key p).trans at_item⟩
  · intro i j p q at_i at_j equal
    rw [key, key] at equal
    exact lists.buffers i j p q at_i at_j equal

theorem access (lists : LruLinked lru chains free) (p : Nat) :
    LruLinked (lru.access p) chains free :=
  lists.congr rfl (access_next p) rfl rfl rfl (Nat.le_refl _) (access_key p)

theorem ownKey (lists : LruLinked lru chains free) (key : LruKey) :
    LruLinked (lru.ownKey key) chains free :=
  lists.congr rfl rfl rfl rfl rfl (Nat.le_succ _) fun _ => rfl

end LruLinked

/-! ### Lookups -/

theorem gfcLruCompare_intact (equal : gfcLruCompare lru (lru.heap p) key = some false) :
    lru.Intact p := by
  unfold gfcLruCompare at equal
  split at equal
  · cases equal
  · obtain ⟨other, found, -⟩ := Option.bind_eq_some_iff.mp equal
    exact Option.isSome_iff_exists.mpr ⟨other, found⟩

/-- A walk that reads no freed key comes to the end of the chain, or to an item whose key it has
read. -/
theorem lruFind_some {l : List Nat} {item prev : Option Nat} (linked : Linked lru.next item l)
    {steps : Nat} {found : Option Nat × Option Nat}
    (ended : lruFind lru key steps prev item = some found) :
    found = (l.getLast?.or prev, none) ∨
      ∃ front p back, l = front ++ p :: back ∧ lru.Intact p ∧
        found = (front.getLast?.or prev, some p) := by
  induction l generalizing item steps prev with
  | nil =>
    obtain rfl : item = none := linked
    cases steps with
    | zero => cases ended
    | succ steps => exact .inl (Option.some.inj ended).symm
  | cons p l ih =>
    obtain ⟨rfl, linked⟩ := linked
    cases steps with
    | zero => cases ended
    | succ steps =>
      obtain ⟨differ, compared, further⟩ := Option.bind_eq_some_iff.mp ended
      cases differ with
      | false =>
        refine .inr ⟨[], p, l, rfl, gfcLruCompare_intact compared, ?_⟩
        exact (Option.some.inj further).symm
      | true =>
        rcases ih linked further with rfl | ⟨front, q, back, rfl, intact, rfl⟩
        · left
          rw [getLast?_cons_or]
        · refine .inr ⟨p :: front, q, back, rfl, intact, ?_⟩
          rw [getLast?_cons_or]

theorem LruChained.find_some (lists : LruChained lru chains) {found : Option Nat × Option Nat}
    (ended : lru.find key = some found) :
    found = ((chains (gfcLruHash lru key)).getLast?, none) ∨
      ∃ front p back, chains (gfcLruHash lru key) = front ++ p :: back ∧ lru.Intact p ∧
        found = (front.getLast?, some p) := by
  have cases := lruFind_some (lists.linked _) ended
  simp only [Option.or_none] at cases
  exact cases

theorem lruFind_congr {l : List Nat} {item : Option Nat} (linked : Linked lru.next item l)
    (next : lru'.next = lru.next) (same : ∀ p ∈ l, SameEntry lru lru' p) (steps : Nat)
    (prev : Option Nat) : lruFind lru' key steps prev item = lruFind lru key steps prev item := by
  induction l generalizing item steps prev with
  | nil =>
    obtain rfl : item = none := linked
    cases steps <;> rfl
  | cons p l ih =>
    obtain ⟨rfl, linked⟩ := linked
    cases steps with
    | zero => rfl
    | succ steps =>
      have here := same p List.mem_cons_self
      have read : (lru.heap p).key.bind lru'.keys = (lru.heap p).key.bind lru.keys := by
        cases at_item : (lru.heap p).key with
        | none => rfl
        | some buffer => exact here.buffer buffer at_item
      have compared :
          gfcLruCompare lru' (lru'.heap p) key = gfcLruCompare lru (lru.heap p) key := by
        rw [gfcLruCompare, gfcLruCompare, here.key, here.keyLength, read]
      have after : (lru'.heap p).next = (lru.heap p).next := congrFun next p
      have further : lruFind lru' key steps (some p) (lru.heap p).next =
          lruFind lru key steps (some p) (lru.heap p).next :=
        ih linked (fun q member => same q (List.mem_cons_of_mem p member)) steps (some p)
      rw [lruFind, lruFind, compared, after, further]

/-- The buffer of the new key changes nothing for the lookup. -/
theorem LruChained.find_ownKey (lists : LruChained lru chains) (key : LruKey) :
    (lru.ownKey key).find key = lru.find key := by
  have next : (lru.ownKey key).next = lru.next := rfl
  exact lruFind_congr (lists.linked _) next (lists.ownKey_same key _) _ _

/-! ### Removal -/

/-- What the removal of an item changes. -/
structure LruRemoved (lru lru' : GfcLru α) (prev : Option Nat) (p i : Nat) : Prop where
  table : SameTable lru lru'
  items : lru'.items = if prev = none then Function.update lru.items i (lru.next p) else lru.items
  freeItems : lru'.freeItems = some p
  freeMemory : lru'.freeMemory = lru.freeMemory + (lru.heap p).valueLength.toUInt64
  next_self : lru'.next p = lru.freeItems
  next_prev : ∀ q, q ≠ p → prev = some q → lru'.next q = lru.next p
  next_other : ∀ q, q ≠ p → prev ≠ some q → lru'.next q = lru.next q
  entry : ∀ q, q ≠ p → (lru.heap q).key ≠ (lru.heap p).key → SameEntry lru lru' q
  use : ∀ q, q ≠ p → SameUse lru lru' q
  itemCount : lru'.itemCount = lru.itemCount
  keyCount : lru'.keyCount = lru.keyCount
  keys : ∀ buffer, lru.keys buffer = none → lru'.keys buffer = none

theorem freeKey_some {key : Option Nat} (freed : lru.freeKey key = some lru') :
    ∃ keys, lru' = { lru with keys } ∧
      (∀ buffer, key ≠ some buffer → keys buffer = lru.keys buffer) ∧
      ∀ buffer, lru.keys buffer = none → keys buffer = none := by
  cases key with
  | none => exact ⟨lru.keys, (Option.some.inj freed).symm, fun _ _ => rfl, fun _ lost => lost⟩
  | some buffer =>
    unfold GfcLru.freeKey at freed
    dsimp only at freed
    split at freed
    · refine ⟨_, (Option.some.inj freed).symm, fun other apart => ?_, fun other lost => ?_⟩
      · exact Function.update_of_ne (fun same => apart (congrArg some same.symm)) _ _
      · by_cases same : other = buffer
        · rw [same]
          exact Function.update_self _ _ _
        · exact (Function.update_of_ne same _ _).trans lost
    · cases freed

theorem gfcLruItemRemove_some {prev : Option Nat}
    (removed : gfcLruItemRemove lru prev p i = some lru') :
    LruRemoved lru lru' prev p i ∧
      ∀ q, q ≠ p → (lru.heap q).key = none → (lru'.heap q).key = none := by
  have unlinked : ∀ target, (lru.setLink prev i target).keys = lru.keys := by
    intro target
    cases prev <;> rfl
  unfold gfcLruItemRemove at removed
  dsimp only at removed
  obtain ⟨freed, free, rfl⟩ := Option.map_eq_some_iff.mp removed
  obtain ⟨keys, rfl, kept, lost⟩ := freeKey_some free
  simp only [unlinked] at kept lost
  have at_other : ∀ q, q ≠ p → ∀ item : LruItem α,
      Function.update (lru.setLink prev i (lru.heap p).next).heap p item q =
        (lru.setLink prev i (lru.heap p).next).heap q :=
    fun q apart item => Function.update_of_ne apart _ _
  refine ⟨?_, fun q apart at_q => ?_⟩
  case refine_2 =>
    simp only [GfcLru.setItem, at_other q apart, setLink_heap]
    split <;> exact at_q
  constructor
  case table => cases prev <;> exact ⟨rfl, rfl⟩
  case items => cases prev <;> rfl
  case freeItems => rfl
  case freeMemory => cases prev <;> rfl
  case next_self =>
    simp only [GfcLru.next, GfcLru.setItem, Function.update_self]
    cases prev <;> rfl
  case next_prev =>
    intro q apart before
    refine (congrArg LruItem.next (at_other q apart _)).trans ?_
    rw [setLink_heap, if_pos before]
    rfl
  case next_other =>
    intro q apart before
    refine (congrArg LruItem.next (at_other q apart _)).trans ?_
    rw [setLink_heap, if_neg before]
    rfl
  case entry =>
    intro q apart other_key
    constructor
    case buffer =>
      intro other at_q
      have same := kept other fun at_item => other_key (at_q.trans at_item.symm)
      exact same
    all_goals
      simp only [GfcLru.setItem, at_other q apart, setLink_heap]
      split <;> rfl
  case use =>
    intro q apart
    constructor
    all_goals
      simp only [GfcLru.setItem, at_other q apart, setLink_heap]
      split <;> rfl
  case itemCount => cases prev <;> rfl
  case keyCount => cases prev <;> rfl
  case keys => exact lost

theorem gfcLruItemRemove_intact (intact : lru.Intact p) (prev : Option Nat) (i : Nat) :
    ∃ lru', gfcLruItemRemove lru prev p i = some lru' ∧ LruRemoved lru lru' prev p i := by
  obtain ⟨buffer, content, at_item, at_buffer⟩ := intact_iff.mp intact
  have unlinked : ∀ target, (lru.setLink prev i target).keys = lru.keys := by
    intro target
    cases prev <;> rfl
  have removed : ∃ lru', gfcLruItemRemove lru prev p i = some lru' := by
    unfold gfcLruItemRemove GfcLru.freeKey
    simp only [at_item, unlinked, at_buffer, Option.isSome_some, ↓reduceIte, Option.map_some]
    exact ⟨_, rfl⟩
  obtain ⟨lru', removed⟩ := removed
  exact ⟨lru', removed, (gfcLruItemRemove_some removed).1⟩

theorem mem_update_chains {front back : List Nat} {j q : Nat}
    (chain : chains i = front ++ p :: back)
    (member : q ∈ Function.update chains i (front ++ back) j) : q ∈ chains j := by
  by_cases same : j = i
  · subst same
    rw [Function.update_self] at member
    rw [chain]
    simp only [List.mem_append, List.mem_cons] at member ⊢
    tauto
  · rwa [Function.update_of_ne same] at member

theorem items_self {items items' : Nat → Option Nat} {front : List Nat} {target : Option Nat}
    (changed : items' = if front.getLast? = none then Function.update items i target else items) :
    items' i = if front = [] then target else items i := by
  rw [changed]
  by_cases empty : front = []
  · rw [if_pos (by rw [empty]; rfl), if_pos empty, Function.update_self]
  · rw [if_neg (by rwa [List.getLast?_eq_none_iff]), if_neg empty]

theorem items_other {items items' : Nat → Option Nat} {prev target : Option Nat} {j : Nat}
    (changed : items' = if prev = none then Function.update items i target else items)
    (apart : j ≠ i) : items' j = items j := by
  rw [changed]
  split
  · exact Function.update_of_ne apart _ _
  · rfl

section Removal

variable {front back : List Nat}

theorem LruPlaced.removed_apart (lists : LruPlaced lru chains)
    (chain : chains i = front ++ p :: back) :
    ∀ j, ∀ q ∈ Function.update chains i (front ++ back) j, q ≠ p := by
  rintro j q member rfl
  obtain rfl := lists.apart j i q (mem_update_chains chain member)
    (chain ▸ List.mem_append_cons_self)
  have distinct := (lists.linked j).nodup
  rw [chain, List.nodup_middle, List.nodup_cons] at distinct
  rw [Function.update_self] at member
  exact distinct.1 member

/-- Only the item before the removed one, in its chain, has another successor. -/
theorem removed_next (change : LruRemoved lru lru' front.getLast? p i) {q : Nat} (other : q ≠ p)
    (outside : q ∉ front) : lru'.next q = lru.next q :=
  change.next_other q other fun last => outside (List.mem_of_getLast? last)

theorem LruPlaced.removed_linked (lists : LruPlaced lru chains)
    (chain : chains i = front ++ p :: back) (change : LruRemoved lru lru' front.getLast? p i)
    (j : Nat) :
    Linked lru'.next (lru'.items j) (Function.update chains i (front ++ back) j) := by
  by_cases same : j = i
  · subst same
    have others := lists.removed_apart chain j
    rw [Function.update_self] at others ⊢
    have linked := lists.linked j
    rw [chain] at linked
    refine linked.unlink (items_self change.items) (fun prev before => ?_)
      (fun q member before => ?_)
    · have member := List.mem_append_left back (List.mem_of_getLast? before)
      exact change.next_prev prev (others prev member) before
    · exact change.next_other q (others q member) before
  · rw [Function.update_of_ne same, items_other change.items same]
    refine (lists.linked j).congr fun q member => removed_next change ?_ fun before => same ?_
    · rintro rfl
      exact same (lists.apart j i q member (chain ▸ List.mem_append_cons_self))
    · exact lists.apart j i q member (chain ▸ List.mem_append_left _ before)

theorem LruChained.removed_key (lists : LruChained lru chains)
    (chain : chains i = front ++ p :: back)
    (removed : gfcLruItemRemove lru front.getLast? p i = some lru') (j q : Nat)
    (member : q ∈ Function.update chains i (front ++ back) j) :
    (lru'.heap q).key = (lru.heap q).key := by
  obtain ⟨change, unkeyed⟩ := gfcLruItemRemove_some removed
  have apart := lists.placed.removed_apart chain j q member
  cases at_q : (lru.heap q).key with
  | none => exact unkeyed q apart at_q
  | some buffer =>
    rw [← at_q]
    refine (change.entry q apart fun same => apart ?_).key
    exact lists.buffers j i q p buffer (mem_update_chains chain member)
      (chain ▸ List.mem_append_cons_self) at_q (same.symm.trans at_q)

/-- An item of a chain is removed, whether or not it has a key. -/
theorem LruChained.remove (lists : LruChained lru chains) (chain : chains i = front ++ p :: back)
    (removed : gfcLruItemRemove lru front.getLast? p i = some lru') :
    LruChained lru' (Function.update chains i (front ++ back)) where
  linked := lists.placed.removed_linked chain (gfcLruItemRemove_some removed).1
  inside j q member := by
    rw [(gfcLruItemRemove_some removed).1.table.size]
    exact lists.inside j q (mem_update_chains chain member)
  apart j k q at_j at_k :=
    lists.apart j k q (mem_update_chains chain at_j) (mem_update_chains chain at_k)
  allocated j q member := by
    rw [(gfcLruItemRemove_some removed).1.itemCount]
    exact lists.allocated j q (mem_update_chains chain member)
  buffered j q member buffer at_q := by
    rw [(gfcLruItemRemove_some removed).1.keyCount]
    rw [lists.removed_key chain removed j q member] at at_q
    exact lists.buffered j q (mem_update_chains chain member) buffer at_q
  buffers j k q r buffer at_j at_k at_q at_r := by
    rw [lists.removed_key chain removed j q at_j] at at_q
    rw [lists.removed_key chain removed k r at_k] at at_r
    exact lists.buffers j k q r buffer (mem_update_chains chain at_j)
      (mem_update_chains chain at_k) at_q at_r

namespace LruLinked

theorem removed_free_linked (lists : LruLinked lru chains free)
    (chain : chains i = front ++ p :: back) (change : LruRemoved lru lru' front.getLast? p i) :
    Linked lru'.next lru'.freeItems (p :: free) := by
  rw [change.freeItems]
  refine ⟨rfl, ?_⟩
  rw [change.next_self]
  refine lists.free_linked.congr fun q member => removed_next change ?_ fun before => ?_
  · rintro rfl
    exact lists.unused i q (chain ▸ List.mem_append_cons_self) member
  · exact lists.unused i q (chain ▸ List.mem_append_left _ before) member

theorem removed_entry (lists : LruLinked lru chains free)
    (chain : chains i = front ++ p :: back) (change : LruRemoved lru lru' front.getLast? p i)
    (j q : Nat) (member : q ∈ Function.update chains i (front ++ back) j) :
    SameEntry lru lru' q := by
  have apart := lists.chained.placed.removed_apart chain j q member
  refine change.entry q apart fun same => apart ?_
  exact lists.buffers j i q p (mem_update_chains chain member)
    (chain ▸ List.mem_append_cons_self) same

/-- An item of a chain is removed. -/
theorem remove (lists : LruLinked lru chains free) (chain : chains i = front ++ p :: back)
    (change : LruRemoved lru lru' front.getLast? p i) :
    LruLinked lru' (Function.update chains i (front ++ back)) (p :: free) where
  linked := lists.chained.placed.removed_linked chain change
  free_linked := lists.removed_free_linked chain change
  inside j q member := by
    rw [change.table.size]
    exact lists.inside j q (mem_update_chains chain member)
  apart j k q at_j at_k :=
    lists.apart j k q (mem_update_chains chain at_j) (mem_update_chains chain at_k)
  unused j q member := by
    rw [List.mem_cons, not_or]
    exact ⟨lists.chained.placed.removed_apart chain j q member,
      lists.unused j q (mem_update_chains chain member)⟩
  allocated j q member := by
    rw [change.itemCount]
    exact lists.allocated j q (mem_update_chains chain member)
  free_allocated q member := by
    rw [change.itemCount]
    rcases List.mem_cons.mp member with rfl | member
    · exact lists.allocated i q (chain ▸ List.mem_append_cons_self)
    · exact lists.free_allocated q member
  buffered j q member := by
    rw [change.keyCount, (lists.removed_entry chain change j q member).key]
    exact lists.buffered j q (mem_update_chains chain member)
  buffers j k q r at_j at_k equal := by
    rw [(lists.removed_entry chain change j q at_j).key,
      (lists.removed_entry chain change k r at_k).key] at equal
    exact lists.buffers j k q r (mem_update_chains chain at_j) (mem_update_chains chain at_k) equal

end LruLinked

end Removal

/-! ### The least recently used item -/

/-- The least used item so far is where its chain says, behind the item before it. -/
def LruMin.Located (min : LruMin) (chains : Nat → List Nat) : Prop :=
  min.item = none ∨ ∃ front p back, min.item = some p ∧
    chains min.index = front ++ p :: back ∧ min.prev = front.getLast?

/-- The item found in the chains that were visited is one that was used least recently. -/
structure LruMin.Least (min : LruMin) (lru : GfcLru α) (chains : Nat → List Nat)
    (visited : List Nat) : Prop where
  located : min.Located chains
  count : ∀ p, min.item = some p → min.accessCount = (lru.heap p).accessCount
  least : ∀ q ∈ visited,
    ∃ p, min.item = some p ∧ (lru.heap p).accessCount ≤ (lru.heap q).accessCount
  start : min.item = none → min.accessCount = -1

theorem le_top_count (count : UInt64) : count ≤ -1 := by
  have below := count.toNat_lt
  rw [UInt64.le_iff_toNat_le]
  exact Nat.le_of_lt_succ below

/-- One more item is visited. Where the least count is -1, which is also the first value of the
variable, the next item is taken: its count is no larger. -/
theorem LruMin.Least.visit {min : LruMin} {visited front back : List Nat}
    (least : min.Least lru chains visited) (chain : chains i = front ++ p :: back) :
    LruMin.Least
      (if (lru.heap p).accessCount < min.accessCount ∨ min.accessCount = -1 then
        { item := some p, prev := front.getLast?, index := i,
          accessCount := (lru.heap p).accessCount }
      else min) lru chains (visited ++ [p]) := by
  split
  · rename_i taken
    refine ⟨.inr ⟨front, p, back, rfl, chain, rfl⟩, fun q same => ?_, fun q member => ?_, nofun⟩
    · rw [← Option.some.inj same]
    · refine ⟨p, rfl, ?_⟩
      rcases List.mem_append.mp member with before | here
      · obtain ⟨q', at_min, less⟩ := least.least q before
        rw [← least.count q' at_min] at less
        rcases taken with smaller | top_count
        · exact UInt64.le_trans (UInt64.le_of_lt smaller) less
        · rw [top_count] at less
          exact UInt64.le_trans (le_top_count _) less
      · rw [List.mem_singleton.mp here]
        exact UInt64.le_refl _
  · rename_i kept
    rw [not_or] at kept
    refine ⟨least.located, least.count, fun q member => ?_, least.start⟩
    rcases List.mem_append.mp member with before | here
    · exact least.least q before
    · rw [List.mem_singleton.mp here]
      cases at_min : min.item with
      | none => exact absurd (least.start at_min) kept.2
      | some q' =>
        refine ⟨q', rfl, ?_⟩
        rw [← least.count q' at_min]
        exact UInt64.not_lt.mp kept.1

/-- The item found so far, with the first count, stays the least one where the other is visited. -/
def Sooner (count count' : UInt64) : Prop := count ≤ count' ∧ count ≠ -1

instance (count count' : UInt64) : Decidable (Sooner count count') :=
  inferInstanceAs (Decidable (_ ∧ _))

theorem not_sooner {count count' : UInt64} :
    ¬Sooner count count' ↔ count' < count ∨ count = -1 := by
  rw [Sooner, not_and_or, UInt64.not_le, not_not]

theorem Sooner.trans {a b c : UInt64} (first : Sooner a b) (second : Sooner b c) : Sooner a c :=
  ⟨UInt64.le_trans first.1 second.1, first.2⟩

theorem not_sooner_trans {a b c : UInt64} (first : ¬Sooner a b) (second : ¬Sooner b c) :
    ¬Sooner a c := by
  rw [not_sooner] at *
  rcases first with less | top
  · rcases second with less' | rfl
    · exact .inl (UInt64.lt_trans less' less)
    · exact absurd less (UInt64.not_lt.mpr (le_top_count a))
  · exact .inr top

/-- The item found is the one that stays whichever of the others is visited before or after it. -/
structure LruMin.First (min : LruMin) (lru : GfcLru α) (chains : Nat → List Nat)
    (visited : List Nat) : Prop extends LruMin.Least min lru chains visited where
  first : ∀ p, min.item = some p → ∃ before after, visited = before ++ p :: after ∧
    (∀ q ∈ before, ¬Sooner (lru.heap q).accessCount (lru.heap p).accessCount) ∧
    ∀ q ∈ after, Sooner (lru.heap p).accessCount (lru.heap q).accessCount

theorem LruMin.First.visit {min : LruMin} {visited front back : List Nat}
    (first : min.First lru chains visited) (chain : chains i = front ++ p :: back) :
    LruMin.First
      (if (lru.heap p).accessCount < min.accessCount ∨ min.accessCount = -1 then
        { item := some p, prev := front.getLast?, index := i,
          accessCount := (lru.heap p).accessCount }
      else min) lru chains (visited ++ [p]) := by
  refine ⟨first.toLeast.visit chain, ?_⟩
  split
  · rename_i taken
    rintro q ⟨⟩
    refine ⟨visited, [], rfl, fun q member => ?_, nofun⟩
    obtain ⟨q', at_min, -⟩ := first.least q member
    obtain ⟨before, after, rfl, sooner, later⟩ := first.first q' at_min
    rw [first.count q' at_min, ← not_sooner] at taken
    rcases List.mem_append.mp member with at_front | at_back
    · exact not_sooner_trans (sooner q at_front) taken
    · rcases List.mem_cons.mp at_back with rfl | behind
      · exact taken
      · exact fun kept => taken ((later q behind).trans kept)
  · rename_i kept
    intro q at_min
    obtain ⟨before, after, rfl, sooner, later⟩ := first.first q at_min
    rw [first.count q at_min, ← not_sooner, not_not] at kept
    refine ⟨before, after ++ [p], by simp, sooner, fun r member => ?_⟩
    rcases List.mem_append.mp member with behind | here
    · exact later r behind
    · rw [List.mem_singleton.mp here]
      exact kept

theorem abandonChain_first {left : List Nat} (front : List Nat) {item : Option Nat}
    {min : LruMin} {steps : Nat} {visited : List Nat} (linked : Linked lru.next item left)
    (chain : chains i = front ++ left) (first : min.First lru chains visited)
    (enough : left.length < steps) :
    ∃ min', abandonChain lru i steps front.getLast? item min = some min' ∧
      min'.First lru chains (visited ++ left) := by
  induction left generalizing front item min steps visited with
  | nil =>
    obtain rfl : item = none := linked
    obtain ⟨steps, rfl⟩ := Nat.exists_eq_add_one_of_ne_zero (Nat.ne_of_gt enough)
    exact ⟨min, rfl, by rwa [List.append_nil]⟩
  | cons p left ih =>
    obtain ⟨rfl, linked⟩ := linked
    obtain ⟨steps, rfl⟩ :=
      Nat.exists_eq_add_one_of_ne_zero (Nat.ne_of_gt (Nat.zero_lt_of_lt enough))
    have further : chains i = front ++ [p] ++ left := by
      rw [chain, List.append_assoc, List.singleton_append]
    obtain ⟨min', walked, first'⟩ :=
      ih (front ++ [p]) linked further (first.visit chain) (Nat.lt_of_succ_lt_succ enough)
    rw [List.getLast?_concat] at walked
    rw [List.append_assoc, List.singleton_append] at first'
    exact ⟨min', walked, first'⟩

theorem foldlM_abandonChain (lists : LruPlaced lru chains) (slots : List Nat)
    {min : LruMin} {visited : List Nat} (first : min.First lru chains visited) :
    ∃ min', slots.foldlM
        (fun min i => abandonChain lru i (lru.itemCount + 1) none (lru.items i) min) min =
          some min' ∧ min'.First lru chains (visited ++ slots.flatMap chains) := by
  induction slots generalizing min visited with
  | nil => exact ⟨min, rfl, by rwa [List.flatMap_nil, List.append_nil]⟩
  | cons i slots ih =>
    obtain ⟨next, walked, first⟩ :=
      abandonChain_first [] (lists.linked i) rfl first (lists.short i)
    obtain ⟨min', folded, first⟩ := ih first
    rw [List.getLast?_nil] at walked
    refine ⟨min', ?_, ?_⟩
    · rw [List.foldlM_cons, walked]
      exact folded
    · rwa [List.flatMap_cons, ← List.append_assoc]

/-- The items in the order in which they are visited. -/
def visitOrder (lru : GfcLru α) (chains : Nat → List Nat) : List Nat :=
  (List.range lru.hashTableSize.toNat).flatMap chains

theorem LruPlaced.mem_visitOrder (lists : LruPlaced lru chains) :
    p ∈ visitOrder lru chains ↔ ∃ i, p ∈ chains i := by
  rw [visitOrder, List.mem_flatMap]
  exact ⟨fun ⟨i, _, member⟩ => ⟨i, member⟩,
    fun ⟨i, member⟩ => ⟨i, List.mem_range.mpr (lists.inside i p member), member⟩⟩

/-- The item that is abandoned is one of the chains that was used least recently; without one
nothing is. -/
theorem LruPlaced.abandon (lists : LruPlaced lru chains) :
    ((∀ i, chains i = []) ∧ gfcLruItemAbandon lru = some (lru, [])) ∨
      ∃ i front p back, chains i = front ++ p :: back ∧
        (∀ j, ∀ q ∈ chains j, (lru.heap p).accessCount ≤ (lru.heap q).accessCount) ∧
        (∃ before after, visitOrder lru chains = before ++ p :: after ∧
          (∀ q ∈ before, ¬Sooner (lru.heap q).accessCount (lru.heap p).accessCount) ∧
          ∀ q ∈ after, Sooner (lru.heap p).accessCount (lru.heap q).accessCount) ∧
        gfcLruItemAbandon lru = (gfcLruItemRemove lru front.getLast? p i).map fun abandoned =>
          (abandoned, ((lru.heap p).key.bind lru.keys).toList) := by
  have start : LruMin.First ⟨none, none, (-1 : UInt32).toNat, -1⟩ lru chains [] :=
    ⟨⟨.inl rfl, nofun, nofun, fun _ => rfl⟩, nofun⟩
  obtain ⟨min, walked, first⟩ :=
    foldlM_abandonChain lists (List.range lru.hashTableSize.toNat) start
  rw [List.nil_append] at first
  rw [gfcLruItemAbandon, walked]
  rcases first.located with no_item | ⟨front, p, back, item, chain, prev⟩
  · left
    refine ⟨fun i => List.eq_nil_iff_forall_not_mem.mpr fun q member => ?_, ?_⟩
    · obtain ⟨p, at_min, -⟩ := first.least q (lists.mem_visitOrder.mpr ⟨i, member⟩)
      rw [no_item] at at_min
      cases at_min
    · simp only [Option.bind_eq_bind, Option.bind_some, no_item]
  · right
    refine ⟨min.index, front, p, back, chain, fun j q member => ?_, first.first p item, ?_⟩
    · obtain ⟨p', at_min, less⟩ := first.least q (lists.mem_visitOrder.mpr ⟨j, member⟩)
      obtain rfl := Option.some.inj (item.symm.trans at_min)
      exact less
    · simp only [Option.bind_eq_bind, Option.bind_some, item, prev]
      cases gfcLruItemRemove lru front.getLast? p min.index <;> rfl

/-! ### Insertion -/

/-- What the popped item is: unlinked, and the last of the free list or newly allocated. -/
structure LruPopped (lru lru' : GfcLru α) (p : Nat) : Prop where
  table : SameTable lru lru'
  items : lru'.items = lru.items
  freeItems : lru'.freeItems = none
  next_self : lru'.next p = none
  other : ∀ q, q ≠ p → lru'.heap q = lru.heap q
  itemCount : lru.itemCount ≤ lru'.itemCount
  inside : p < lru'.itemCount
  keys : lru'.keys = lru.keys
  keyCount : lru'.keyCount = lru.keyCount
  freeMemory : lru'.freeMemory = lru.freeMemory
  accessCount : lru'.accessCount = lru.accessCount

theorem LruLinked.pop (lists : LruLinked lru chains free)
    (few : lru.freeItems.bind lru.next = none) :
    LruPopped lru (gfcLruItemPop lru).2 (gfcLruItemPop lru).1 ∧
      ∀ i, (gfcLruItemPop lru).1 ∉ chains i := by
  unfold gfcLruItemPop
  cases at_free : lru.freeItems with
  | some p =>
    rw [at_free, Option.bind_some] at few
    obtain ⟨rest, rfl⟩ := linked_cons (at_free ▸ lists.free_linked)
    refine ⟨⟨⟨rfl, rfl⟩, rfl, few, few, fun _ _ => rfl, Nat.le_refl _,
      lists.free_allocated p List.mem_cons_self, rfl, rfl, rfl, rfl⟩, fun i member => ?_⟩
    exact lists.unused i p member List.mem_cons_self
  | none =>
    refine ⟨⟨⟨rfl, rfl⟩, rfl, at_free, ?_, fun q apart => ?_, Nat.le_succ _, Nat.lt_succ_self _,
      rfl, rfl, rfl, rfl⟩, fun i member => ?_⟩
    · have zeroed : (lru.setItem lru.itemCount .zero).heap lru.itemCount = .zero :=
        Function.update_self _ _ _
      exact congrArg LruItem.next zeroed
    · exact Function.update_of_ne apart _ _
    · exact Nat.lt_irrefl _ (lists.allocated i _ member)

/-- What the insertion of an item changes. -/
structure LruInserted (lru lru' : GfcLru α) (prev : Option Nat) (i p buffer : Nat) (key : LruKey)
    (value : Option α) (valueLength : UInt32) : Prop where
  table : SameTable lru lru'
  items : lru'.items = if prev = none then Function.update lru.items i (some p) else lru.items
  freeItems : lru'.freeItems = none
  next_self : lru'.next p = none
  next_prev : ∀ q, q ≠ p → prev = some q → lru'.next q = some p
  next_other : ∀ q, q ≠ p → prev ≠ some q → lru'.next q = lru.next q
  entry : ∀ q, q ≠ p → SameEntry lru lru' q
  use : ∀ q, q ≠ p → SameUse lru lru' q
  has_key : (lru'.heap p).key = some buffer
  has_length : (lru'.heap p).keyLength = key.length
  has_value : (lru'.heap p).value = value
  has_valueLength : (lru'.heap p).valueLength = valueLength
  itemCount : lru.itemCount ≤ lru'.itemCount
  inside : p < lru'.itemCount
  keys : lru'.keys = lru.keys
  keyCount : lru'.keyCount = lru.keyCount
  freeMemory : lru'.freeMemory = lru.freeMemory

theorem lruInsert_heap {prev : Option Nat} {buffer : Nat} {value : Option α} {valueLength : UInt32}
    (apart : prev ≠ some (gfcLruItemPop lru).1) (q : Nat) :
    (lruInsert lru prev i buffer key value valueLength).heap q =
      if q = (gfcLruItemPop lru).1 then
        { value, key := some buffer, valueLength, keyLength := key.length
          accessCount := (gfcLruItemPop lru).2.accessCount + 1
          next := (gfcLruItemPop lru).2.next (gfcLruItemPop lru).1 }
      else if prev = some q then
        { (gfcLruItemPop lru).2.heap q with next := some (gfcLruItemPop lru).1 }
      else (gfcLruItemPop lru).2.heap q := by
  unfold lruInsert
  generalize gfcLruItemPop lru = pop at apart
  obtain ⟨p, lru'⟩ := pop
  dsimp only at apart ⊢
  rw [access_heap, setLink_heap, setLink_heap, if_neg apart, setItem_heap, setItem_heap, if_pos rfl]
  by_cases same : q = p
  · rw [if_pos same, if_pos same]
    cases prev <;> rfl
  · rw [if_neg same, if_neg same, if_neg same]

/-- Beside the items and the link to the new one, an insertion changes what popping does. -/
theorem lruInsert_rest (lru : GfcLru α) (prev : Option Nat) (i buffer : Nat) (key : LruKey)
    (value : Option α) (valueLength : UInt32) :
    let lru' := lruInsert lru prev i buffer key value valueLength
    let popped := (gfcLruItemPop lru).2
    SameTable popped lru' ∧
      lru'.items = (if prev = none then
        Function.update popped.items i (some (gfcLruItemPop lru).1) else popped.items) ∧
      lru'.freeItems = popped.freeItems ∧ lru'.itemCount = popped.itemCount ∧
      lru'.keys = popped.keys ∧ lru'.keyCount = popped.keyCount ∧
      lru'.freeMemory = popped.freeMemory := by
  unfold lruInsert
  generalize gfcLruItemPop lru = pop
  cases prev <;> exact ⟨⟨rfl, rfl⟩, rfl, rfl, rfl, rfl, rfl, rfl⟩

theorem lruInsert_inserted {prev : Option Nat} {buffer : Nat} (value : Option α)
    (valueLength : UInt32) (popped : LruPopped lru (gfcLruItemPop lru).2 (gfcLruItemPop lru).1)
    (apart : prev ≠ some (gfcLruItemPop lru).1) :
    LruInserted lru (lruInsert lru prev i buffer key value valueLength) prev i
      (gfcLruItemPop lru).1 buffer key value valueLength := by
  obtain ⟨inserted_table, inserted_items, inserted_freeItems, inserted_itemCount, inserted_keys,
    inserted_keyCount, inserted_freeMemory⟩ :=
    lruInsert_rest lru prev i buffer key value valueLength
  constructor
  case table =>
    exact ⟨inserted_table.size.trans popped.table.size,
      inserted_table.seed.trans popped.table.seed⟩
  case items => rw [inserted_items, popped.items]
  case freeItems => exact inserted_freeItems.trans popped.freeItems
  case next_self =>
    rw [GfcLru.next, lruInsert_heap apart, if_pos rfl]
    exact popped.next_self
  case next_prev =>
    intro q other before
    rw [GfcLru.next, lruInsert_heap apart, if_neg other, if_pos before]
  case next_other =>
    intro q other before
    rw [GfcLru.next, lruInsert_heap apart, if_neg other, if_neg before, popped.other q other]
    rfl
  case entry =>
    intro q other
    constructor
    case buffer =>
      intro buffer _
      exact congrFun (inserted_keys.trans popped.keys) buffer
    all_goals
      rw [lruInsert_heap apart, if_neg other, popped.other q other]
      split <;> rfl
  case use =>
    intro q other
    constructor
    all_goals
      rw [lruInsert_heap apart, if_neg other, popped.other q other]
      split <;> rfl
  case has_key => rw [lruInsert_heap apart, if_pos rfl]
  case has_length => rw [lruInsert_heap apart, if_pos rfl]
  case has_value => rw [lruInsert_heap apart, if_pos rfl]
  case has_valueLength => rw [lruInsert_heap apart, if_pos rfl]
  case itemCount => exact inserted_itemCount ▸ popped.itemCount
  case inside => exact inserted_itemCount ▸ popped.inside
  case keys => exact inserted_keys.trans popped.keys
  case keyCount => exact inserted_keyCount.trans popped.keyCount
  case freeMemory => exact inserted_freeMemory.trans popped.freeMemory

theorem mem_append_chains {l : List Nat} {j q : Nat} :
    q ∈ Function.update chains i (chains i ++ l) j ↔ q ∈ chains j ∨ j = i ∧ q ∈ l := by
  by_cases same : j = i
  · subst same
    simp [Function.update_self]
  · rw [Function.update_of_ne same]
    simp [same]

theorem mem_insert_chains {j q : Nat} :
    q ∈ Function.update chains i (chains i ++ [p]) j ↔ q ∈ chains j ∨ j = i ∧ q = p := by
  rw [mem_append_chains, List.mem_singleton]

/-- An item that is in no chain is put behind the last of a chain, with a key buffer that no item
has. -/
theorem LruLinked.insert {h buffer : Nat} {value : Option α} {valueLength : UInt32}
    (lists : LruLinked lru chains free)
    (change : LruInserted lru lru' (chains h).getLast? h p buffer key value valueLength)
    (slot : h < lru.hashTableSize.toNat) (new : ∀ i, p ∉ chains i) (below : buffer < lru.keyCount)
    (own : ∀ i, ∀ q ∈ chains i, (lru.heap q).key ≠ some buffer) :
    LruLinked lru' (Function.update chains h (chains h ++ [p])) [] := by
  have distinct : ∀ i, ∀ q ∈ chains i, q ≠ p := by
    rintro i q member rfl
    exact new i member
  constructor
  case linked =>
    intro i
    by_cases same : i = h
    · subst same
      rw [Function.update_self]
      refine (lists.linked i).append_last (items_self change.items) (fun prev before => ?_)
        (fun q member before => ?_) change.next_self
      · have member := List.mem_of_getLast? before
        exact change.next_prev prev (distinct i prev member) before
      · exact change.next_other q (distinct i q member) before
    · rw [Function.update_of_ne same, items_other change.items same]
      refine (lists.linked i).congr fun q member => ?_
      refine change.next_other q (distinct i q member) fun before => same ?_
      exact lists.apart i h q member (List.mem_of_getLast? before)
  case free_linked => exact change.freeItems
  case inside =>
    intro i q member
    rw [change.table.size]
    rcases mem_insert_chains.mp member with member | ⟨rfl, -⟩
    · exact lists.inside i q member
    · exact slot
  case apart =>
    intro i j q at_i at_j
    rcases mem_insert_chains.mp at_i with old_i | ⟨i_eq, q_eq⟩ <;>
      rcases mem_insert_chains.mp at_j with old_j | ⟨j_eq, q_eq'⟩
    · exact lists.apart i j q old_i old_j
    · exact absurd q_eq' (distinct i q old_i)
    · exact absurd q_eq (distinct j q old_j)
    · exact i_eq.trans j_eq.symm
  case unused => exact fun _ _ _ => List.not_mem_nil
  case allocated =>
    intro i q member
    rcases mem_insert_chains.mp member with member | ⟨-, rfl⟩
    · exact Nat.lt_of_lt_of_le (lists.allocated i q member) change.itemCount
    · exact change.inside
  case free_allocated => exact fun _ member => absurd member List.not_mem_nil
  case buffered =>
    intro i q member
    rw [change.keyCount]
    rcases mem_insert_chains.mp member with member | ⟨-, rfl⟩
    · rw [(change.entry q (distinct i q member)).key]
      exact lists.buffered i q member
    · exact ⟨buffer, below, change.has_key⟩
  case buffers =>
    intro i j q r at_i at_j equal
    have kept : ∀ i, ∀ q ∈ chains i, (lru'.heap q).key = (lru.heap q).key :=
      fun i q member => (change.entry q (distinct i q member)).key
    rcases mem_insert_chains.mp at_i with old_i | ⟨-, q_eq⟩ <;>
      rcases mem_insert_chains.mp at_j with old_j | ⟨-, r_eq⟩
    · rw [kept i q old_i, kept j r old_j] at equal
      exact lists.buffers i j q r old_i old_j equal
    · rw [kept i q old_i, r_eq, change.has_key] at equal
      exact absurd equal (own i q old_i)
    · rw [kept j r old_j, q_eq, change.has_key] at equal
      exact absurd equal.symm (own j r old_j)
    · exact q_eq.trans r_eq.symm

end Guardwatch
