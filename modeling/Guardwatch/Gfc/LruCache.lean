import Guardwatch.Gfc.LruLists

/-! The keys and the lookups of the cache over whole runs. -/

namespace Guardwatch

open Labelled LinkedList

variable {α : Type}

/-- The item has the key, in a buffer that has not been freed. -/
def GfcLru.Keyed (lru : GfcLru α) (item : Nat) (key : LruKey) : Prop :=
  ∃ buffer, (lru.heap item).key = some buffer ∧ lru.keys buffer = some key ∧
    (lru.heap item).keyLength = key.length

/-- The items of each chain, none of them in two chains or in the free list, each in the chain of
its key's hash and no key in two of them. -/
structure LruShape (lru : GfcLru α) (chains : Nat → List Nat) (free : List Nat) : Prop where
  linked : ∀ i, Linked lru.next (lru.items i) (chains i)
  free_linked : Linked lru.next lru.freeItems free
  inside : ∀ i, ∀ p ∈ chains i, i < lru.hashTableSize.toNat
  apart : ∀ i j p, p ∈ chains i → p ∈ chains j → i = j
  unused : ∀ i, ∀ p ∈ chains i, p ∉ free
  placed : ∀ i, ∀ p ∈ chains i, ∃ key, lru.Keyed p key ∧ gfcLruHash lru key = i
  once : ∀ i j p q key, p ∈ chains i → q ∈ chains j → lru.Keyed p key → lru.Keyed q key → p = q

/-- No call has gone wrong, and each lookup finds the value last set. -/
def LruRun.IsCache (run : LruRun α) : Prop :=
  ∃ lru, run.lru = some lru ∧ (∃ chains free, LruShape lru chains free) ∧
    ∀ key, (gfcLruGet lru key).map Prod.fst = some (run.last key)

/-- There is no item with the key, and at most one item in the free list. -/
def GfcLru.Ready (lru : GfcLru α) (key : LruKey) : Prop :=
  (lru.find key).map Prod.snd = some none ∧ lru.freeItems.bind lru.next = none

instance (lru : GfcLru α) (key : LruKey) : Decidable (lru.Ready key) :=
  inferInstanceAs (Decidable (_ ∧ _))

/-- What the cache needs of a call: it is ready for a key that is set. -/
def LruRun.Untangled (run : LruRun α) : LruCall α → Prop
  | .set key _ _ => ∀ lru ∈ run.lru, lru.Ready key
  | .get _ => True
  | .remove _ => True

instance (run : LruRun α) : ∀ call, Decidable (run.Untangled call)
  | .set _ _ _ => inferInstanceAs (Decidable (∀ _ ∈ _, _))
  | .get _ => .isTrue trivial
  | .remove _ => .isTrue trivial

/-- The items are allocated, no two share a buffer, and the last values are those of the items. -/
structure LruInvariant (lru : GfcLru α) (last : LruKey → Option α) (chains : Nat → List Nat)
    (free : List Nat) : Prop extends LruShape lru chains free where
  size_pos : 0 < lru.hashTableSize.toNat
  allocated : ∀ i, ∀ p ∈ chains i, p < lru.itemCount
  free_allocated : ∀ p ∈ free, p < lru.itemCount
  buffers : ∀ i j p q, p ∈ chains i → q ∈ chains j → (lru.heap p).key = (lru.heap q).key → p = q
  fresh : ∀ buffer, lru.keyCount ≤ buffer → lru.keys buffer = none
  stored : ∀ i p key, p ∈ chains i → lru.Keyed p key → last key = (lru.heap p).value
  absent : ∀ key, (∀ p ∈ chains (gfcLruHash lru key), ¬lru.Keyed p key) → last key = none

variable {lru lru' : GfcLru α} {last : LruKey → Option α} {chains : Nat → List Nat}
  {free : List Nat} {key other : LruKey} {p i : Nat}

theorem GfcLru.Keyed.intact (keyed : lru.Keyed p key) : lru.Intact p := by
  obtain ⟨buffer, at_item, content, -⟩ := keyed
  exact intact_iff.mpr ⟨buffer, key, at_item, content⟩

theorem SameEntry.keyed (same : SameEntry lru lru' p) : lru'.Keyed p key ↔ lru.Keyed p key := by
  simp only [GfcLru.Keyed, same.key, same.keyLength]
  exact exists_congr fun buffer =>
    and_congr_right fun at_item => by rw [same.buffer buffer at_item]

/-! ### Keys -/

theorem LruKey.ext_bytes (same : key.bytes = other.bytes) : key = other := by
  cases key
  cases other
  cases same
  rfl

theorem LruKey.length_toNat (key : LruKey) : key.length.toNat = key.bytes.length := by
  rw [LruKey.length, UInt32.toNat_ofNat']
  exact Nat.mod_eq_of_lt key.fits

theorem GfcLru.Keyed.unique (keyed : lru.Keyed p key) (keyed' : lru.Keyed p other) :
    key = other := by
  obtain ⟨buffer, at_item, content, -⟩ := keyed
  obtain ⟨buffer', at_item', content', -⟩ := keyed'
  obtain rfl := Option.some.inj (at_item.symm.trans at_item')
  exact Option.some.inj (content.symm.trans content')

theorem gfcLruCompare_keyed (keyed : lru.Keyed p other) :
    gfcLruCompare lru (lru.heap p) key = some (decide (key ≠ other)) := by
  obtain ⟨buffer, at_item, content, length⟩ := keyed
  by_cases lengths : key.length = other.length
  · have bytes : other.bytes.take key.bytes.length = other.bytes := by
      rw [← key.length_toNat, lengths, other.length_toNat, List.take_length]
    have same_bytes : key.bytes = other.bytes ↔ key = other :=
      ⟨LruKey.ext_bytes, congrArg LruKey.bytes⟩
    rw [gfcLruCompare, if_neg (by rw [length, lengths]; exact not_not.mpr rfl), at_item]
    simp only [Option.bind_eq_bind, Option.bind_some, content, bytes, ne_eq, same_bytes]
  · have differ : key ≠ other := fun same => lengths (congrArg LruKey.length same)
    rw [gfcLruCompare, if_pos (by rwa [length]), decide_eq_true differ]

/-- The walk comes to the end of the chain, or to the item with the key. -/
theorem lruFind_linked (key : LruKey) {l : List Nat} {item : Option Nat}
    (linked : Linked lru.next item l) (keyed : ∀ p ∈ l, ∃ other, lru.Keyed p other) {steps : Nat}
    (enough : l.length < steps) (prev : Option Nat) :
    (lruFind lru key steps prev item = some (l.getLast?.or prev, none) ∧
        ∀ p ∈ l, ¬lru.Keyed p key) ∨
      ∃ front p back, l = front ++ p :: back ∧ lru.Keyed p key ∧
        lruFind lru key steps prev item = some (front.getLast?.or prev, some p) := by
  induction l generalizing item steps prev with
  | nil =>
    obtain rfl : item = none := linked
    obtain ⟨steps, rfl⟩ := Nat.exists_eq_add_one_of_ne_zero (Nat.ne_of_gt enough)
    exact .inl ⟨rfl, nofun⟩
  | cons p l ih =>
    obtain ⟨rfl, linked⟩ := linked
    obtain ⟨steps, rfl⟩ :=
      Nat.exists_eq_add_one_of_ne_zero (Nat.ne_of_gt (Nat.zero_lt_of_lt enough))
    obtain ⟨other, at_p⟩ := keyed p List.mem_cons_self
    by_cases same : key = other
    · refine .inr ⟨[], p, l, rfl, same ▸ at_p, ?_⟩
      simp [lruFind, gfcLruCompare_keyed at_p, same]
    · have step : lruFind lru key (steps + 1) prev (some p) =
          lruFind lru key steps (some p) (lru.heap p).next := by
        simp [lruFind, gfcLruCompare_keyed at_p, same]
      rcases ih linked (fun q member => keyed q (List.mem_cons_of_mem p member))
        (Nat.lt_of_succ_lt_succ enough) (some p) with
        ⟨found, others⟩ | ⟨front, q, back, rfl, at_q, found⟩
      · refine .inl ⟨by rw [getLast?_cons_or, step]; exact found, fun q member => ?_⟩
        rcases List.mem_cons.mp member with rfl | member
        · exact fun at_p' => same (at_p'.unique at_p)
        · exact others q member
      · exact .inr ⟨p :: front, q, back, rfl, at_q, by rw [getLast?_cons_or, step]; exact found⟩

namespace LruInvariant

theorem buffer_lt (inv : LruInvariant lru last chains free) {buffer : Nat}
    (content : lru.keys buffer = some key) : buffer < lru.keyCount := by
  by_contra beyond
  rw [inv.fresh buffer (Nat.le_of_not_lt beyond)] at content
  cases content

theorem lists (inv : LruInvariant lru last chains free) : LruLinked lru chains free where
  linked := inv.linked
  free_linked := inv.free_linked
  inside := inv.inside
  apart := inv.apart
  unused := inv.unused
  allocated := inv.allocated
  free_allocated := inv.free_allocated
  buffered i p member := by
    obtain ⟨key, ⟨buffer, at_item, content, -⟩, -⟩ := inv.placed i p member
    exact ⟨buffer, inv.buffer_lt content, at_item⟩
  buffers := inv.buffers

theorem find (inv : LruInvariant lru last chains free) (key : LruKey) :
    (lru.find key = some ((chains (gfcLruHash lru key)).getLast?, none) ∧
        ∀ p ∈ chains (gfcLruHash lru key), ¬lru.Keyed p key) ∨
      ∃ front p back, chains (gfcLruHash lru key) = front ++ p :: back ∧ lru.Keyed p key ∧
        lru.find key = some (front.getLast?, some p) := by
  have found := lruFind_linked key (inv.linked (gfcLruHash lru key))
    (fun p member => (inv.placed _ p member).imp fun _ keyed => keyed.1)
    (inv.lists.chained.placed.short _) none
  simp only [Option.or_none] at found
  exact found

/-- The lookup of a key. -/
theorem get (inv : LruInvariant lru last chains free) (key : LruKey) :
    (gfcLruGet lru key).map Prod.fst = some (last key) := by
  unfold gfcLruGet
  rcases inv.find key with ⟨found, none_keyed⟩ | ⟨front, p, back, chain, keyed, found⟩
  · rw [found, inv.absent key none_keyed]
    rfl
  · have member : p ∈ chains (gfcLruHash lru key) := chain ▸ List.mem_append_cons_self
    rw [found, inv.stored _ p key member keyed]
    rfl

/-- The chains keep some of their items, with their contents. -/
theorem restrict {last' : LruKey → Option α} {chains' : Nat → List Nat} {free' : List Nat}
    (inv : LruInvariant lru last chains free) (lists : LruLinked lru' chains' free')
    (table : SameTable lru lru') (within : ∀ i, ∀ p ∈ chains' i, p ∈ chains i)
    (same : ∀ i, ∀ p ∈ chains' i, SameEntry lru lru' p)
    (fresh : ∀ buffer, lru'.keyCount ≤ buffer → lru'.keys buffer = none)
    (stored : ∀ i p key, p ∈ chains' i → lru.Keyed p key → last' key = last key)
    (absent : ∀ key, (∀ p ∈ chains' (gfcLruHash lru key), ¬lru.Keyed p key) → last' key = none) :
    LruInvariant lru' last' chains' free' where
  linked := lists.linked
  free_linked := lists.free_linked
  inside := lists.inside
  apart := lists.apart
  unused := lists.unused
  placed i p member := by
    obtain ⟨key, keyed, hash⟩ := inv.placed i p (within i p member)
    exact ⟨key, (same i p member).keyed.mpr keyed, (table.hash key).trans hash⟩
  once i j p q key at_i at_j keyed keyed' :=
    inv.once i j p q key (within i p at_i) (within j q at_j) ((same i p at_i).keyed.mp keyed)
      ((same j q at_j).keyed.mp keyed')
  size_pos := table.size ▸ inv.size_pos
  allocated := lists.allocated
  free_allocated := lists.free_allocated
  buffers := lists.buffers
  fresh := fresh
  stored i p key member keyed := by
    have keyed := (same i p member).keyed.mp keyed
    rw [stored i p key member keyed, inv.stored i p key (within i p member) keyed,
      (same i p member).value]
  absent key none_keyed := by
    refine absent key fun p member keyed => ?_
    rw [← table.hash key] at member
    exact none_keyed p member ((same _ p member).keyed.mpr keyed)

/-- The counts of the accesses and the free memory do not matter. -/
theorem congr (inv : LruInvariant lru last chains free) (lists : LruLinked lru' chains free)
    (table : SameTable lru lru') (same : ∀ i, ∀ p ∈ chains i, SameEntry lru lru' p)
    (fresh : ∀ buffer, lru'.keyCount ≤ buffer → lru'.keys buffer = none) :
    LruInvariant lru' last chains free :=
  inv.restrict lists table (fun _ _ member => member) same fresh (fun _ _ _ _ _ => rfl) inv.absent

theorem access (inv : LruInvariant lru last chains free) (p : Nat) :
    LruInvariant (lru.access p) last chains free := by
  refine inv.congr (inv.lists.access p) ⟨rfl, rfl⟩ (fun i q _ => ⟨?_, ?_, ?_, fun _ _ => rfl⟩)
    inv.fresh
  all_goals
    simp only [access_heap]
    split <;> simp [*]

theorem setFreeMemory (inv : LruInvariant lru last chains free) (memory : UInt64) :
    LruInvariant { lru with freeMemory := memory } last chains free :=
  inv.congr (inv.lists.congr rfl rfl rfl rfl rfl (Nat.le_refl _) fun _ => rfl) ⟨rfl, rfl⟩
    (fun _ _ _ => ⟨rfl, rfl, rfl, fun _ _ => rfl⟩) inv.fresh

theorem ownKey (inv : LruInvariant lru last chains free) (key : LruKey) :
    LruInvariant (lru.ownKey key) last chains free := by
  refine inv.congr (inv.lists.ownKey key) ⟨rfl, rfl⟩ (inv.lists.chained.ownKey_same key)
    fun buffer beyond => ?_
  have later : lru.keyCount < buffer := beyond
  exact (Function.update_of_ne (Nat.ne_of_gt later) _ _).trans (inv.fresh buffer later.le)

end LruInvariant

/-! ### Removal -/

namespace LruInvariant

variable {front back : List Nat}

/-- A key without an item is the removed one, or had none before. -/
theorem removed_absent (inv : LruInvariant lru last chains free)
    (chain : chains i = front ++ p :: back) (keyed : lru.Keyed p key)
    (none_keyed : ∀ q ∈ Function.update chains i (front ++ back) (gfcLruHash lru other),
      ¬lru.Keyed q other) : forget last [key] other = none := by
  by_cases same : other = key
  · rw [forget, if_pos (List.mem_singleton.mpr same)]
  · rw [forget, if_neg (by rwa [List.mem_singleton])]
    refine inv.absent other fun q member at_q => ?_
    by_cases moved : gfcLruHash lru other = i
    · rw [moved, Function.update_self] at none_keyed
      rw [moved, chain, List.mem_append, List.mem_cons] at member
      rcases member with before | rfl | behind
      · exact none_keyed q (List.mem_append_left _ before) at_q
      · exact same (at_q.unique keyed)
      · exact none_keyed q (List.mem_append_right _ behind) at_q
    · rw [Function.update_of_ne moved] at none_keyed
      exact none_keyed q member at_q

/-- An item of a chain is removed. -/
theorem remove (inv : LruInvariant lru last chains free)
    (chain : chains i = front ++ p :: back) (keyed : lru.Keyed p key) :
    ∃ lru', gfcLruItemRemove lru front.getLast? p i = some lru' ∧
      LruInvariant lru' (forget last [key]) (Function.update chains i (front ++ back))
        (p :: free) := by
  obtain ⟨lru', removed, change⟩ := gfcLruItemRemove_intact keyed.intact front.getLast? i
  refine ⟨lru', removed, ?_⟩
  have within : ∀ j, ∀ q ∈ Function.update chains i (front ++ back) j, q ∈ chains j :=
    fun j q member => mem_update_chains chain member
  refine inv.restrict (inv.lists.remove chain change) change.table within
    (inv.lists.removed_entry chain change) (fun buffer beyond => ?_)
    (fun j q other member at_q => ?_) fun other => inv.removed_absent chain keyed
  · exact change.keys buffer (inv.fresh buffer (change.keyCount ▸ beyond))
  · have kept : other ∉ [key] := by
      rw [List.mem_singleton]
      rintro rfl
      have at_i : p ∈ chains i := chain ▸ List.mem_append_cons_self
      exact inv.lists.chained.placed.removed_apart chain j q member
        (inv.once j i q p other (within j q member) at_i at_q keyed)
    rw [forget, if_neg kept]

end LruInvariant

/-! ### Eviction -/

theorem forget_nil : forget last [] = last := by
  funext key
  simp [forget]

theorem forget_append (keys others : List LruKey) :
    forget (forget last keys) others = forget last (keys ++ others) := by
  funext key
  simp only [forget, List.mem_append]
  by_cases first : key ∈ keys <;> by_cases second : key ∈ others <;> simp [first, second]

theorem LruInvariant.abandon (inv : LruInvariant lru last chains free) :
    ∃ lru' keys chains' free', gfcLruItemAbandon lru = some (lru', keys) ∧
      LruInvariant lru' (forget last keys) chains' free' := by
  rcases inv.lists.chained.placed.abandon with ⟨-, kept⟩ | ⟨i, front, p, back, chain, -, -, abandoned⟩
  · exact ⟨lru, [], chains, free, kept, forget_nil.symm ▸ inv⟩
  · obtain ⟨key, keyed, -⟩ := inv.placed i p (chain ▸ List.mem_append_cons_self)
    obtain ⟨lru', removed, kept⟩ := inv.remove chain keyed
    obtain ⟨buffer, at_item, content, -⟩ := keyed
    refine ⟨lru', [key], _, _, ?_, kept⟩
    rw [abandoned, removed, at_item, Option.bind_some, content]
    rfl

/-- The loop that evicts runs on, or comes to an end with what it has evicted. -/
theorem LruInvariant.evict (inv : LruInvariant lru last chains free) (required : UInt64)
    (rounds : Nat) (evicted : List LruKey) :
    lruEvict required rounds lru evicted = .running ∨
      ∃ lru' keys chains' free', lruEvict required rounds lru evicted =
          .returned lru' (evicted ++ keys) ∧
        LruInvariant lru' (forget last keys) chains' free' := by
  induction rounds generalizing lru last chains free evicted with
  | zero => exact .inl rfl
  | succ rounds ih =>
    rw [lruEvict]
    split
    · obtain ⟨lru', keys, chains', free', abandoned, kept⟩ := inv.abandon
      rw [abandoned]
      dsimp only
      rcases ih kept (evicted ++ keys) with running | ⟨lru'', more, chains'', free'', ended, kept⟩
      · exact .inl running
      · refine .inr ⟨lru'', keys ++ more, chains'', free'', ?_, ?_⟩
        · rw [ended, List.append_assoc]
        · rw [← forget_append]
          exact kept
    · refine .inr ⟨lru, [], chains, free, ?_, forget_nil.symm ▸ inv⟩
      rw [List.append_nil]

theorem LruInvariant.reclaim (inv : LruInvariant lru last chains free) (rounds : Nat)
    (required : UInt32) :
    lruReclaim rounds lru required = .running ∨
      ∃ lru' keys chains' free', lruReclaim rounds lru required = .returned lru' keys ∧
        LruInvariant lru' (forget last keys) chains' free' := by
  have loop : (if required > 0 ∧ required.toUInt64 > lru.freeMemory then
        lruEvict required.toUInt64 rounds lru []
      else .returned lru []) = .running ∨
      ∃ lru' keys chains' free', (if required > 0 ∧ required.toUInt64 > lru.freeMemory then
          lruEvict required.toUInt64 rounds lru []
        else .returned lru []) = .returned lru' keys ∧
        LruInvariant lru' (forget last keys) chains' free' := by
    split
    · exact inv.evict required.toUInt64 rounds []
    · exact .inr ⟨lru, [], chains, free, rfl, forget_nil.symm ▸ inv⟩
  unfold lruReclaim
  rcases loop with running | ⟨lru', keys, chains', free', ended, kept⟩
  · left
    rw [running]
  · right
    rw [ended]
    exact ⟨_, keys, chains', free', rfl, kept.setFreeMemory _⟩

/-! ### Insertion -/

/-- An item that is in no chain is put behind the last of the chain `h` of its key, which no item
has. -/
structure LruInsertion (lru lru' : GfcLru α) (last : LruKey → Option α) (chains : Nat → List Nat)
    (free : List Nat) (h p buffer : Nat) (key : LruKey) (value : Option α) (valueLength : UInt32) :
    Prop where
  before : LruInvariant lru last chains free
  change : LruInserted lru lru' (chains h).getLast? h p buffer key value valueLength
  hash : gfcLruHash lru key = h
  content : lru.keys buffer = some key
  own : ∀ i, ∀ q ∈ chains i, (lru.heap q).key ≠ some buffer
  new : ∀ i, p ∉ chains i
  new_key : ∀ q ∈ chains h, ¬lru.Keyed q key

namespace LruInsertion

variable {h buffer : Nat} {value : Option α} {valueLength : UInt32}
  (inserts : LruInsertion lru lru' last chains free h p buffer key value valueLength)

include inserts

theorem distinct : ∀ i, ∀ q ∈ chains i, q ≠ p := by
  rintro i q member rfl
  exact inserts.new i member

theorem keyed_self : lru'.Keyed p key :=
  ⟨buffer, inserts.change.has_key, inserts.change.keys ▸ inserts.content,
    inserts.change.has_length⟩

theorem keyed_other : ∀ i, ∀ q ∈ chains i, ∀ k, lru'.Keyed q k ↔ lru.Keyed q k :=
  fun i q member _ => (inserts.change.entry q (inserts.distinct i q member)).keyed

/-- The key is that of no item of any chain. -/
theorem unkeyed : ∀ i, ∀ q ∈ chains i, ¬lru.Keyed q key := by
  intro i q member keyed
  obtain ⟨k, keyed', hash⟩ := inserts.before.placed i q member
  obtain rfl := keyed.unique keyed'
  obtain rfl : h = i := inserts.hash.symm.trans hash
  exact inserts.new_key q member keyed

theorem lists : LruLinked lru' (Function.update chains h (chains h ++ [p])) [] :=
  inserts.before.lists.insert inserts.change (inserts.hash ▸ hash_lt inserts.before.size_pos key)
    inserts.new (inserts.before.buffer_lt inserts.content) inserts.own

theorem placed (i q : Nat) (member : q ∈ Function.update chains h (chains h ++ [p]) i) :
    ∃ k, lru'.Keyed q k ∧ gfcLruHash lru' k = i := by
  have table := inserts.change.table
  rcases mem_insert_chains.mp member with member | ⟨rfl, rfl⟩
  · obtain ⟨k, keyed, hash⟩ := inserts.before.placed i q member
    exact ⟨k, (inserts.keyed_other i q member k).mpr keyed, (table.hash k).trans hash⟩
  · exact ⟨key, inserts.keyed_self, (table.hash key).trans inserts.hash⟩

theorem once (i j q r : Nat) (k : LruKey)
    (at_i : q ∈ Function.update chains h (chains h ++ [p]) i)
    (at_j : r ∈ Function.update chains h (chains h ++ [p]) j) (keyed : lru'.Keyed q k)
    (keyed' : lru'.Keyed r k) : q = r := by
  rcases mem_insert_chains.mp at_i with old_i | ⟨-, q_eq⟩ <;>
    rcases mem_insert_chains.mp at_j with old_j | ⟨-, r_eq⟩
  · exact inserts.before.once i j q r k old_i old_j ((inserts.keyed_other i q old_i k).mp keyed)
      ((inserts.keyed_other j r old_j k).mp keyed')
  · obtain rfl := (r_eq ▸ keyed').unique inserts.keyed_self
    exact absurd ((inserts.keyed_other i q old_i k).mp keyed) (inserts.unkeyed i q old_i)
  · obtain rfl := (q_eq ▸ keyed).unique inserts.keyed_self
    exact absurd ((inserts.keyed_other j r old_j k).mp keyed') (inserts.unkeyed j r old_j)
  · exact q_eq.trans r_eq.symm

theorem stored (i q : Nat) (k : LruKey)
    (member : q ∈ Function.update chains h (chains h ++ [p]) i)
    (keyed : lru'.Keyed q k) : Function.update last key value k = (lru'.heap q).value := by
  rcases mem_insert_chains.mp member with member | ⟨-, rfl⟩
  · have keyed := (inserts.keyed_other i q member k).mp keyed
    have apart : k ≠ key := by
      rintro rfl
      exact inserts.unkeyed i q member keyed
    rw [Function.update_of_ne apart, inserts.before.stored i q k member keyed,
      (inserts.change.entry q (inserts.distinct i q member)).value]
  · obtain rfl := keyed.unique inserts.keyed_self
    rw [Function.update_self, inserts.change.has_value]

theorem absent (k : LruKey)
    (none_keyed : ∀ q ∈ Function.update chains h (chains h ++ [p]) (gfcLruHash lru' k),
      ¬lru'.Keyed q k) : Function.update last key value k = none := by
  rw [inserts.change.table.hash] at none_keyed
  have apart : k ≠ key := by
    rintro rfl
    exact none_keyed p (mem_insert_chains.mpr (.inr ⟨inserts.hash, rfl⟩)) inserts.keyed_self
  rw [Function.update_of_ne apart]
  refine inserts.before.absent k fun q member keyed => ?_
  exact none_keyed q (mem_insert_chains.mpr (.inl member))
    ((inserts.keyed_other _ q member k).mpr keyed)

theorem invariant :
    LruInvariant lru' (Function.update last key value)
      (Function.update chains h (chains h ++ [p])) [] where
  linked := inserts.lists.linked
  free_linked := inserts.lists.free_linked
  inside := inserts.lists.inside
  apart := inserts.lists.apart
  unused := inserts.lists.unused
  placed := inserts.placed
  once := inserts.once
  size_pos := inserts.change.table.size ▸ inserts.before.size_pos
  allocated := inserts.lists.allocated
  free_allocated := inserts.lists.free_allocated
  buffers := inserts.lists.buffers
  fresh := by
    rw [inserts.change.keys, inserts.change.keyCount]
    exact inserts.before.fresh
  stored := inserts.stored
  absent := inserts.absent

end LruInsertion

/-! ### Calls -/

/-- A key that is ready to be set has no item, also once it is in a buffer of its own. -/
theorem LruInvariant.find_ready (inv : LruInvariant lru last chains free) (ready : lru.Ready key) :
    (lru.ownKey key).find key =
        some ((chains (gfcLruHash (lru.ownKey key) key)).getLast?, none) ∧
      ∀ p ∈ chains (gfcLruHash (lru.ownKey key) key), ¬(lru.ownKey key).Keyed p key := by
  rw [inv.lists.chained.find_ownKey]
  rcases inv.find key with ⟨found, none_keyed⟩ | ⟨_, _, _, -, -, found⟩
  · refine ⟨found, fun p member keyed => ?_⟩
    exact none_keyed p member ((inv.lists.chained.ownKey_same key _ p member).keyed.mp keyed)
  · have missing := ready.1
    rw [found] at missing
    cases missing

theorem LruInvariant.set (inv : LruInvariant lru last chains free) (ready : lru.Ready key)
    (rounds : Nat) (value : Option α) (valueLength : UInt32) :
    gfcLruSet rounds lru key value valueLength = .running ∨
      ∃ lru' keys chains' free',
        gfcLruSet rounds lru key value valueLength = .returned lru' keys ∧
          LruInvariant lru' (forget (Function.update last key value) keys) chains' free' := by
  obtain ⟨found, new_key⟩ := inv.find_ready ready
  have owned := inv.ownKey key
  obtain ⟨popped, new⟩ := owned.lists.pop ready.2
  have apart : (chains (gfcLruHash (lru.ownKey key) key)).getLast? ≠
      some (gfcLruItemPop (lru.ownKey key)).1 :=
    fun before => new _ (List.mem_of_getLast? before)
  have content : (lru.ownKey key).keys lru.keyCount = some key := Function.update_self _ _ _
  have inserts : LruInsertion _ _ last chains free _ _ lru.keyCount key value _ :=
    ⟨owned, lruInsert_inserted value valueLength popped apart, rfl, content,
      inv.lists.chained.ownKey_own, new, new_key⟩
  simp only [gfcLruSet, found]
  exact inserts.invariant.reclaim rounds valueLength

/-- The cache is in a state that its calls keep. -/
def LruRun.Kept (run : LruRun α) : Prop :=
  ∃ lru chains free, run.lru = some lru ∧ LruInvariant lru run.last chains free

variable {run next : LruRun α} {rounds : Nat}

theorem LruRun.Kept.isCache (kept : run.Kept) : run.IsCache := by
  obtain ⟨lru, chains, free, at_lru, inv⟩ := kept
  exact ⟨lru, at_lru, ⟨chains, free, inv.toLruShape⟩, inv.get⟩

theorem kept_start (cacheSize time : UInt64) (averageLength : UInt32)
    (positive : 0 < (cacheSize / averageLength.toUInt64).toUInt32) :
    (lruStart cacheSize averageLength time : LruRun α).Kept := by
  refine ⟨_, fun _ => [], [], rfl,
    ⟨⟨fun _ => rfl, rfl, ?_, ?_, ?_, ?_, ?_⟩, ?_, ?_, ?_, ?_, ?_, ?_, ?_⟩⟩
  case refine_6 => exact UInt32.lt_iff_toNat_lt.mp positive
  case refine_10 => exact fun _ _ => rfl
  case refine_12 => exact fun _ _ => rfl
  all_goals nofun

theorem kept_set {key : LruKey} {value : Option α} {valueLength : UInt32} (kept : run.Kept)
    (ok : run.Untangled (.set key value valueLength))
    (taken : lruStep rounds run (.set key value valueLength) = some next) : next.Kept := by
  obtain ⟨lru, chains, free, at_lru, inv⟩ := kept
  simp only [lruStep, at_lru] at taken
  rcases inv.set (ok lru at_lru) rounds value valueLength with
    running | ⟨lru', keys, chains', free', returned, inv'⟩
  · rw [running] at taken
    cases taken
  · rw [returned] at taken
    cases taken
    exact ⟨lru', chains', free', rfl, inv'⟩

theorem kept_get {key : LruKey} (kept : run.Kept)
    (taken : lruStep rounds run (.get key) = some next) : next.Kept := by
  obtain ⟨lru, chains, free, at_lru, inv⟩ := kept
  simp only [lruStep, at_lru, Option.some.injEq] at taken
  subst taken
  unfold gfcLruGet
  rcases inv.find key with ⟨found, -⟩ | ⟨front, p, back, -, -, found⟩ <;> rw [found]
  · exact ⟨lru, chains, free, rfl, inv⟩
  · exact ⟨_, chains, free, rfl, inv.access p⟩

theorem kept_remove {key : LruKey} (kept : run.Kept)
    (taken : lruStep rounds run (.remove key) = some next) : next.Kept := by
  obtain ⟨lru, chains, free, at_lru, inv⟩ := kept
  simp only [lruStep, at_lru, Option.some.injEq] at taken
  subst taken
  unfold gfcLruRemove
  rcases inv.find key with
    ⟨found, none_keyed⟩ | ⟨front, p, back, chain, keyed, found⟩ <;> rw [found]
  · refine ⟨lru, chains, free, rfl, ?_⟩
    have kept : forget run.last [key] = run.last := by
      funext other
      by_cases same : other = key
      · rw [forget, if_pos (List.mem_singleton.mpr same), same, inv.absent key none_keyed]
      · rw [forget, if_neg (by rwa [List.mem_singleton])]
    exact kept.symm ▸ inv
  · obtain ⟨lru', removed, inv'⟩ := inv.remove chain keyed
    exact ⟨lru', _, _, removed, inv'⟩

theorem kept_step {call : LruCall α} (kept : run.Kept) (ok : run.Untangled call)
    (taken : lruStep rounds run call = some next) : next.Kept := by
  cases call with
  | set key value valueLength => exact kept_set kept ok taken
  | get key => exact kept_get kept taken
  | remove key => exact kept_remove kept taken

/-- In a run in which no key is set that is in the cache, and none while there are two items in the
free list, the cache keeps its shape, and each lookup finds the value last set. -/
theorem isCache_of_untangled (cacheSize time : UInt64) (averageLength : UInt32)
    (positive : 0 < (cacheSize / averageLength.toUInt64).toUInt32)
    (trace : List (LruCall α × LruRun α))
    (run : Run (fun run call next => ∃ rounds, lruStep rounds run call = some next)
      (lruStart cacheSize averageLength time) trace)
    (untangled : EveryStep LruRun.Untangled (lruStart cacheSize averageLength time) trace) :
    EveryState LruRun.IsCache (lruStart cacheSize averageLength time) trace :=
  (run.everyState (kept_start cacheSize time averageLength positive)
    (fun _ _ _ kept ok ⟨_, taken⟩ => kept_step kept ok taken) untangled).mono
    fun _ kept => kept.isCache

def keyA : LruKey := ⟨[97], by decide⟩

def keyB : LruKey := ⟨[98], by decide⟩

/-- The second key evicts the first one. -/
theorem isCache_of_untangled_evicted :
    EveryState LruRun.IsCache (lruStart 10 1 0)
      (traced (lruStep 4) (lruStart 10 1 0)
        [.set keyA (some 1) 6, .set keyB (some 2) 6, .get keyB, .remove keyB]) :=
  isCache_of_untangled 10 0 1 (by decide) _
    ((run_traced _ _ _).mono fun _ _ _ taken => ⟨4, taken⟩) (by decide +kernel)

/-- A key that is set again is lost: its item has the freed buffer of the first call. -/
theorem isCache_fails :
    ¬∀ (cacheSize time : UInt64) (averageLength : UInt32),
      0 < (cacheSize / averageLength.toUInt64).toUInt32 →
      ∀ trace : List (LruCall Nat × LruRun Nat),
        Run (fun run call next => ∃ rounds, lruStep rounds run call = some next)
          (lruStart cacheSize averageLength time) trace →
        EveryState LruRun.IsCache (lruStart cacheSize averageLength time) trace := by
  intro every
  refine traced_fails [.set keyA (some 1) 5, .set keyA (some 2) 5]
    (fun _ _ _ taken => ⟨4, taken⟩) ?_ (every 1000 0 100 (by decide))
  rintro ⟨lru, at_lru, -, lookups⟩
  have lost : (final (lruStart 1000 100 0) (traced (lruStep 4) (lruStart 1000 100 0)
      [.set keyA (some 1) 5, .set keyA (some 2) 5])).lru.bind
        (fun lru => (gfcLruGet lru keyA).map Prod.fst) = none := by
    decide +kernel
  rw [at_lru, Option.bind_some, lookups keyA] at lost
  cases lost

end Guardwatch
