import Guardwatch.Gfc.ListSequence

/-! The loops of `gfc_list_sort`, whose exchange is commented out: which elements they read, whether
they end, and when the list is in order after them. -/

namespace Guardwatch

open Recording

variable {α : Type}

def intMax : Nat := 2 ^ 31 - 1

/-- The loop over `j`, for so many rounds at most, and whether it ends. Its bound is unsigned, and
`j` an `int`, which must not overflow. -/
def sortInner (size : UInt64) (i : Nat) : Nat → Nat → ListProgram α Bool
  | 0, _ => pure false
  | rounds + 1, j =>
    if UInt64.ofNat j < size - UInt64.ofNat i - 1 then do
      let _ ← readPointer j
      let _ ← readPointer (j + 1)
      if j = intMax then return false
      else sortInner size i rounds (j + 1)
    else pure true

/-- The loop over `i`, with so many rounds for each loop over `j`. -/
def sortOuter (size : UInt64) (inner : Nat) : Nat → Nat → ListProgram α Bool
  | 0, _ => pure false
  | rounds + 1, i =>
    if UInt64.ofNat i < size - 1 then do
      let ended ← sortInner size i inner 0
      if ended = false ∨ i = intMax then return false
      else sortOuter size inner rounds (i + 1)
    else pure true

/-- `gfc_list_sort`, which does not call its `compare`. -/
def gfcListSort (rounds : Nat) : ListProgram α Bool := do
  let list ← look
  sortOuter (UInt64.ofNat list.size) rounds rounds 0

/-! ### The loops read, and change nothing -/

theorem sortInner_state (size : UInt64) (i rounds j : Nat) (list : GfcList α) :
    ((sortInner size i rounds j).run list).state = list := by
  induction rounds generalizing j with
  | zero => rfl
  | succ rounds ih =>
    rw [sortInner]
    split
    · by_cases last : j = intMax
      · simp [readPointer, last]
      · simpa [readPointer, last] using ih (j + 1)
    · rfl

theorem sortOuter_state (size : UInt64) (inner rounds i : Nat) (list : GfcList α) :
    ((sortOuter size inner rounds i).run list).state = list := by
  induction rounds generalizing i with
  | zero => rfl
  | succ rounds ih =>
    have unchanged := sortInner_state size i inner 0 list
    rw [sortOuter]
    split
    · rw [run_bind]
      show (((if _ then _ else _ : ListProgram α Bool)).run _).state = list
      split
      · exact unchanged
      · rw [unchanged]
        exact ih (i + 1)
    · rfl

theorem run_gfcListSort (rounds : Nat) (list : GfcList α) :
    (gfcListSort rounds).run list =
      (sortOuter (UInt64.ofNat list.size) rounds rounds 0).run list := rfl

theorem gfcListSort_state (rounds : Nat) (list : GfcList α) :
    ((gfcListSort rounds).run list).state = list := by
  rw [run_gfcListSort]
  apply sortOuter_state

/-! ### Lists of the sizes that an `int` counts -/

/-- The program ends, and reads only positions below `n`. -/
abbrev SortEnds (n : Nat) (program : ListProgram α Bool) (list : GfcList α) : Prop :=
  Within (fun access : ListAccess => access.index < n) program list true list

theorem below_bound {n i j : Nat} (size_t : n < 2 ^ 64) (inside : i + 1 ≤ n) (small : j < 2 ^ 64) :
    UInt64.ofNat j < UInt64.ofNat n - UInt64.ofNat i - 1 ↔ j < n - i - 1 := by
  rw [UInt64.lt_iff_toNat_lt, UInt64.toNat_sub, UInt64.toNat_sub, UInt64.toNat_ofNat_of_lt' small,
    UInt64.toNat_ofNat_of_lt' size_t, UInt64.toNat_ofNat_of_lt' (show i < 2 ^ 64 by omega)]
  simp only [UInt64.toNat_one]
  omega

theorem sortInner_ends {n i rounds j : Nat} (inside : i + 1 ≤ n) (small : n ≤ 2 ^ 31)
    (below : j ≤ n - i - 1) (enough : n - i - 1 < rounds + j) (list : GfcList α) :
    SortEnds n (sortInner (UInt64.ofNat n) i rounds j) list := by
  induction rounds generalizing j with
  | zero => omega
  | succ rounds ih =>
    have bound := below_bound (j := j) (by omega : n < 2 ^ 64) inside (by omega)
    rw [sortInner]
    by_cases more : j < n - i - 1
    · rw [if_pos (bound.mpr more)]
      have counted : j ≠ intMax := by
        unfold intMax
        omega
      apply Within.bind (Within.reads ?_ _)
      · apply Within.bind (Within.reads ?_ _)
        · rw [if_neg counted]
          exact ih (by omega) (by omega)
        · show j + 1 < n
          omega
      · show j < n
        omega
    · rw [if_neg fun less => more (bound.mp less)]
      exact Within.pure _ _

theorem sortOuter_ends {n inner rounds i : Nat} (inside : i + 1 ≤ n) (small : n ≤ 2 ^ 31)
    (long : n ≤ inner) (enough : n ≤ rounds + i) (list : GfcList α) :
    SortEnds n (sortOuter (UInt64.ofNat n) inner rounds i) list := by
  induction rounds generalizing i with
  | zero => omega
  | succ rounds ih =>
    have bound := below_bound (i := 0) (j := i) (by omega : n < 2 ^ 64) (by omega) (by omega)
    rw [show UInt64.ofNat 0 = 0 from rfl, UInt64.sub_zero, Nat.sub_zero] at bound
    rw [sortOuter]
    by_cases more : i < n - 1
    · rw [if_pos (bound.mpr more)]
      apply (sortInner_ends inside small (by omega) (by omega) list).bind
      have counted : ¬(true = false ∨ i = intMax) := by
        simp only [intMax, Bool.true_eq_false, false_or]
        omega
      rw [if_neg counted]
      exact ih (by omega) (by omega)
    · rw [if_neg fun less => more (bound.mp less)]
      exact Within.pure _ _

/-! ### Lists of other sizes -/

/-- From `j` on, a loop with a bound past the largest `int` does not end. -/
theorem sortInner_overflows {n j : Nat} (large : 2 ^ 31 < n) (size_t : n < 2 ^ 64)
    (counted : j ≤ intMax) (rounds : Nat) (list : GfcList α) :
    ((sortInner (UInt64.ofNat n) 0 rounds j).run list).value = false := by
  unfold intMax at counted
  induction rounds generalizing j with
  | zero => rfl
  | succ rounds ih =>
    have bound := below_bound (i := 0) (j := j) size_t (by omega) (by omega)
    rw [sortInner, if_pos (bound.mpr (by omega))]
    by_cases last : j = intMax
    · simp [readPointer, last]
    · have next : j + 1 ≤ 2 ^ 31 - 1 := by
        unfold intMax at last
        omega
      simpa [readPointer, last] using ih next

/-- A list of one item more than there are counts does not get to the end of its first loop. -/
theorem gfcListSort_overflows {list : GfcList α} (large : 2 ^ 31 < list.size)
    (size_t : list.size < 2 ^ 64) (rounds : Nat) :
    ((gfcListSort rounds).run list).value = false := by
  have inner := sortInner_overflows large size_t (Nat.zero_le _) rounds list
  cases rounds with
  | zero => rfl
  | succ rounds =>
    have bound := below_bound (i := 0) (j := 0) size_t (by omega) (by omega)
    rw [show UInt64.ofNat 0 = 0 from rfl, UInt64.sub_zero] at bound
    rw [run_gfcListSort, sortOuter]
    rw [show UInt64.ofNat 0 = 0 from rfl, if_pos (bound.mpr (by omega)), run_bind, inner]
    rfl

/-- The size of an empty list less one is the largest size, so position 0 is read. -/
theorem gfcListSort_reads_empty {list : GfcList α} (empty : list.size = 0) {rounds : Nat}
    (ended : ((gfcListSort rounds).run list).value = true) :
    ∃ access ∈ ((gfcListSort rounds).run list).records, access.index = 0 := by
  cases rounds with
  | zero => cases ended
  | succ rounds =>
    have outer : UInt64.ofNat 0 < UInt64.ofNat 0 - 1 := by decide
    have inner : UInt64.ofNat 0 < UInt64.ofNat 0 - UInt64.ofNat 0 - 1 := by decide
    refine ⟨⟨0, list.pointers.length⟩, ?_, rfl⟩
    rw [run_gfcListSort, empty, sortOuter, if_pos outer, run_bind, sortInner, if_pos inner, run_bind]
    simp [readPointer]

/-! ### What is sorted -/

/-- `gfc_list_sort` ends, reads only positions below the size, and leaves a permutation of the items
where no item compares as greater than a later one. -/
def Sorts (compare : Option α → Option α → Int) (list : GfcList α) (items : List (Option α)) :
    Prop :=
  ∃ rounds, ((gfcListSort rounds).run list).value = true ∧
    (∀ access ∈ ((gfcListSort rounds).run list).records, access.index < list.size) ∧
    ∃ sorted, ((gfcListSort rounds).run list).state.Represents sorted ∧ sorted.Perm items ∧
      sorted.Pairwise fun a b => compare a b ≠ 1

/-- The items of a sorted list were in order before. -/
theorem ordered_of_sorts {list : GfcList α} {items : List (Option α)} (r : list.Represents items)
    {compare : Option α → Option α → Int} (sorts : Sorts compare list items) :
    items.Pairwise fun a b => compare a b ≠ 1 := by
  obtain ⟨rounds, -, -, sorted, represents, -, ordered⟩ := sorts
  rw [gfcListSort_state] at represents
  have same : sorted = items := represents.stored.symm.trans r.stored
  exact same ▸ ordered

/-- A list is sorted if and only if it is not empty, has no more items than an `int` counts, and is
in order already. -/
theorem sorts_iff {list : GfcList α} {items : List (Option α)} (r : list.Represents items)
    (size_t : list.size < 2 ^ 64) (compare : Option α → Option α → Int) :
    Sorts compare list items ↔
      0 < items.length ∧ items.length ≤ 2 ^ 31 ∧ items.Pairwise fun a b => compare a b ≠ 1 := by
  rw [← r.size_eq]
  constructor
  · intro sorts
    have ordered := ordered_of_sorts r sorts
    obtain ⟨rounds, ended, reads, -⟩ := sorts
    refine ⟨Nat.pos_of_ne_zero fun empty => ?_, Nat.not_lt.mp fun large => ?_, ordered⟩
    · obtain ⟨access, member, first⟩ := gfcListSort_reads_empty empty ended
      have below := reads access member
      omega
    · rw [gfcListSort_overflows large size_t rounds] at ended
      cases ended
  · rintro ⟨filled, small, ordered⟩
    have ends : SortEnds list.size (gfcListSort list.size) list := by
      apply (Within.look list).bind
      exact sortOuter_ends filled small (Nat.le_refl _) (Nat.le_add_right _ _) list
    refine ⟨list.size, ends.value_eq, ends.records, items, ?_, List.Perm.refl _, ordered⟩
    rw [ends.state_eq]
    exact r

/-- The results of a comparison by a total preorder. -/
def ComparesBy {β : Type} (le : β → β → Prop) (compare : β → β → Int) : Prop :=
  (∀ a b c, le a b → le b c → le a c) ∧ ∀ a b,
    (compare a b = -1 ∧ le a b ∧ ¬le b a) ∨ (compare a b = 0 ∧ le a b ∧ le b a) ∨
      (compare a b = 1 ∧ ¬le a b ∧ le b a)

/-- Numbers in ascending order. -/
def ascend (a b : Option Nat) : Int :=
  if a.getD 0 < b.getD 0 then -1 else if a.getD 0 = b.getD 0 then 0 else 1

theorem ascend_compares : ComparesBy (fun a b => a.getD 0 ≤ b.getD 0) ascend := by
  refine ⟨fun a b c first second => Nat.le_trans first second, fun a b => ?_⟩
  unfold ascend
  rcases Nat.lt_trichotomy (a.getD 0) (b.getD 0) with less | same | more
  · rw [if_pos less]
    exact .inl ⟨rfl, Nat.le_of_lt less, Nat.not_le.mpr less⟩
  · rw [if_neg (by omega), if_pos same]
    exact .inr (.inl ⟨rfl, Nat.le_of_eq same, Nat.le_of_eq same.symm⟩)
  · rw [if_neg (by omega), if_neg (by omega)]
    exact .inr (.inr ⟨rfl, Nat.not_le.mpr more, Nat.le_of_lt more⟩)

/-- A list of two appended items. -/
def pairList (a b : Nat) : GfcList Nat :=
  gfcListAppend (fun _ => none) (gfcListAppend (fun _ => none) (gfcListNew fun _ => none) (some a))
    (some b)

theorem pairList_represents (a b : Nat) : (pairList a b).Represents [some a, some b] :=
  gfcListAppend_represents (gfcListAppend_represents (gfcListNew_represents _) _ _) _ _

theorem sorts_iff_pairList : Sorts ascend (pairList 1 2) [some 1, some 2] :=
  (sorts_iff (pairList_represents 1 2) (by decide) ascend).mpr (by decide)

/-- The items 2 and 1 stay as they are. -/
theorem sorts_fails :
    ¬∀ (list : GfcList Nat) (items : List (Option Nat)) (le : Option Nat → Option Nat → Prop)
      (compare : Option Nat → Option Nat → Int), list.Represents items → ComparesBy le compare →
        Sorts compare list items := by
  intro every
  have sorts := every _ _ _ _ (pairList_represents 2 1) ascend_compares
  exact absurd (ordered_of_sorts (pairList_represents 2 1) sorts) (by decide)

end Guardwatch
