import Mathlib.Data.List.Basic
import Mathlib.Data.List.Induction
import Mathlib.Order.Defs.Unbundled

/-! The tree of `gfc_btree.c`: a search tree whose nodes carry their height, rotated after each
insertion so that the heights of the two subtrees of a node differ by at most one. -/

namespace Guardwatch

variable {α : Type}

/-- A node, or `NULL`. -/
inductive GfcBtreeNode (α : Type) where
  | null
  | node (data : α) (left right : GfcBtreeNode α) (height : Int)

structure GfcBtree (α : Type) where
  compare : α → α → Int
  root : GfcBtreeNode α

def gfcBtreeNodeNew (data : α) : GfcBtreeNode α := .node data .null .null 1

def gfcBtreeHeight : GfcBtreeNode α → Int
  | .null => 0
  | .node _ _ _ height => height

def gfcBtreeMax (a b : Int) : Int := if a > b then a else b

def gfcBtreeBalance : GfcBtreeNode α → Int
  | .null => 0
  | .node _ left right _ => gfcBtreeHeight left - gfcBtreeHeight right

/-- The node with its height set from those of its children. -/
def updateHeight (data : α) (left right : GfcBtreeNode α) : GfcBtreeNode α :=
  .node data left right (gfcBtreeMax (gfcBtreeHeight left) (gfcBtreeHeight right) + 1)

/-- `none` where the left child is `NULL`, which the C code would dereference. -/
def gfcBtreeRightRotate : GfcBtreeNode α → Option (GfcBtreeNode α)
  | .node y (.node x left t2 _) right _ => some (updateHeight x left (updateHeight y t2 right))
  | _ => none

def gfcBtreeLeftRotate : GfcBtreeNode α → Option (GfcBtreeNode α)
  | .node x left (.node y t2 right _) _ => some (updateHeight y (updateHeight x left t2) right)
  | _ => none

def gfcBtreeNew (compare : α → α → Int) : GfcBtree α := { compare, root := .null }

/-- What `gfc_btree_insert` does with the node after it has inserted below. -/
def rebalance (compare : α → α → Int) (data : α) (node : GfcBtreeNode α) :
    Option (GfcBtreeNode α) :=
  match node with
  | .null => none
  | .node x left right height =>
    let node := GfcBtreeNode.node x left right height
    let balance := gfcBtreeBalance node
    if balance > 1 then
      match left with
      | .null => none
      | .node y _ _ _ =>
        if compare data y < 0 then gfcBtreeRightRotate node
        else if compare data y > 0 then do
          let left ← gfcBtreeLeftRotate left
          gfcBtreeRightRotate (.node x left right height)
        else some node
    else if balance < -1 then
      match right with
      | .null => none
      | .node y _ _ _ =>
        if compare data y > 0 then gfcBtreeLeftRotate node
        else if compare data y < 0 then do
          let right ← gfcBtreeRightRotate right
          gfcBtreeLeftRotate (.node x left right height)
        else some node
    else some node

/-- At `NULL` the function makes a node and compares the data with itself: a comparison other than 0
makes it call itself at the `NULL` children of new nodes without end. -/
def gfcBtreeInsert (compare : α → α → Int) (data : α) :
    GfcBtreeNode α → Option (GfcBtreeNode α)
  | .null => if compare data data = 0 then some (gfcBtreeNodeNew data) else none
  | .node x left right height =>
    let cmp := compare data x
    if cmp < 0 then do
      let left ← gfcBtreeInsert compare data left
      rebalance compare data (updateHeight x left right)
    else if cmp > 0 then do
      let right ← gfcBtreeInsert compare data right
      rebalance compare data (updateHeight x left right)
    else some (.node x left right height)

def gfcBtreeAppend (ctx : GfcBtree α) (data : α) : Option (GfcBtree α) := do
  let root ← gfcBtreeInsert ctx.compare data ctx.root
  pure { ctx with root }

/-- The data of the nodes in the order in which they are visited. -/
def gfcBtreeTransverse0 : GfcBtreeNode α → List α
  | .null => []
  | .node data left right _ => gfcBtreeTransverse0 left ++ data :: gfcBtreeTransverse0 right

def gfcBtreeTransverse (ctx : GfcBtree α) : List α := gfcBtreeTransverse0 ctx.root

/-- The comparison function gives a strict total order. -/
structure Compares (compare : α → α → Int) : Prop where
  order : IsStrictTotalOrder α fun a b => compare a b < 0
  swap : ∀ a b, 0 < compare a b ↔ compare b a < 0

/-- At every node the height is one more than the larger height of the children, and the heights of
the children differ by at most one. -/
def Avl : GfcBtreeNode α → Prop
  | .null => True
  | .node _ left right height =>
    height = max (gfcBtreeHeight left) (gfcBtreeHeight right) + 1 ∧
      gfcBtreeHeight left ≤ gfcBtreeHeight right + 1 ∧
      gfcBtreeHeight right ≤ gfcBtreeHeight left + 1 ∧ Avl left ∧ Avl right

/-- The tree is an AVL search tree of the elements. -/
structure GfcBtree.IsAvlTree (ctx : GfcBtree α) (elements : List α) : Prop where
  visits : ∀ x, x ∈ gfcBtreeTransverse ctx ↔ x ∈ elements
  increasing : (gfcBtreeTransverse ctx).Pairwise fun a b => ctx.compare a b < 0
  avl : Avl ctx.root

theorem gfcBtreeMax_eq (a b : Int) : gfcBtreeMax a b = max a b := by
  unfold gfcBtreeMax
  split <;> omega

@[simp] theorem gfcBtreeHeight_null : gfcBtreeHeight (.null : GfcBtreeNode α) = 0 := rfl

@[simp] theorem gfcBtreeHeight_node {x : α} {left right : GfcBtreeNode α} {height : Int} :
    gfcBtreeHeight (.node x left right height) = height := rfl

@[simp] theorem gfcBtreeHeight_updateHeight {x : α} {left right : GfcBtreeNode α} :
    gfcBtreeHeight (updateHeight x left right) =
      max (gfcBtreeHeight left) (gfcBtreeHeight right) + 1 := by
  simp [updateHeight, gfcBtreeMax_eq]

/-! ### The elements -/

section Elements

variable {x : α} {left right node node' : GfcBtreeNode α} {height : Int} {data : α}
  {compare : α → α → Int}

@[simp] theorem transverse_node : gfcBtreeTransverse0 (.node x left right height) =
    gfcBtreeTransverse0 left ++ x :: gfcBtreeTransverse0 right := rfl

@[simp] theorem transverse_updateHeight : gfcBtreeTransverse0 (updateHeight x left right) =
    gfcBtreeTransverse0 left ++ x :: gfcBtreeTransverse0 right := rfl

theorem transverse_rightRotate (rotated : gfcBtreeRightRotate node = some node') :
    gfcBtreeTransverse0 node' = gfcBtreeTransverse0 node := by
  unfold gfcBtreeRightRotate at rotated
  split at rotated
  · cases rotated
    simp
  · cases rotated

theorem transverse_leftRotate (rotated : gfcBtreeLeftRotate node = some node') :
    gfcBtreeTransverse0 node' = gfcBtreeTransverse0 node := by
  unfold gfcBtreeLeftRotate at rotated
  split at rotated
  · cases rotated
    simp
  · cases rotated

/-- Rotations keep the order in which the elements are visited. -/
theorem transverse_rebalance (balanced : rebalance compare data node = some node') :
    gfcBtreeTransverse0 node' = gfcBtreeTransverse0 node := by
  unfold rebalance at balanced
  split at balanced
  · cases balanced
  dsimp only at balanced
  split at balanced
  · split at balanced
    · cases balanced
    split at balanced
    · exact transverse_rightRotate balanced
    split at balanced
    · obtain ⟨left, rotated, balanced⟩ := Option.bind_eq_some_iff.mp balanced
      rw [transverse_rightRotate balanced, transverse_node, transverse_leftRotate rotated]
      rfl
    · cases balanced
      rfl
  split at balanced
  · split at balanced
    · cases balanced
    split at balanced
    · exact transverse_leftRotate balanced
    split at balanced
    · obtain ⟨right, rotated, balanced⟩ := Option.bind_eq_some_iff.mp balanced
      rw [transverse_leftRotate balanced, transverse_node, transverse_rightRotate rotated]
      rfl
    · cases balanced
      rfl
  · cases balanced
    rfl

theorem Compares.eq_of_zero (compares : Compares compare) {a b : α} (zero : compare a b = 0) :
    a = b := by
  have := compares.order
  have swap := compares.swap a b
  rcases trichotomous_of (fun a b => compare a b < 0) a b with less | same | more
  · omega
  · exact same
  · omega

theorem Compares.self (compares : Compares compare) (a : α) : compare a a = 0 := by
  have := compares.order
  have irrefl : ¬compare a a < 0 := irrefl_of (fun a b => compare a b < 0) a
  have swap := compares.swap a a
  omega

/-- The list has its elements in increasing order. -/
def Increasing (compare : α → α → Int) (l : List α) : Prop := l.Pairwise fun a b => compare a b < 0

theorem increasing_middle {l r : List α} :
    Increasing compare (l ++ x :: r) ↔ Increasing compare l ∧ Increasing compare r ∧
      (∀ a ∈ l, compare a x < 0) ∧ (∀ b ∈ r, compare x b < 0) ∧
      ∀ a ∈ l, ∀ b ∈ r, compare a b < 0 := by
  unfold Increasing
  rw [List.pairwise_append, List.pairwise_cons]
  constructor
  · rintro ⟨hl, ⟨above, hr⟩, cross⟩
    exact ⟨hl, hr, fun a ha => cross a ha x List.mem_cons_self, above,
      fun a ha b hb => cross a ha b (List.mem_cons_of_mem _ hb)⟩
  · rintro ⟨hl, hr, below, above, cross⟩
    refine ⟨hl, ⟨above, hr⟩, fun a ha b hb => ?_⟩
    rcases List.mem_cons.mp hb with rfl | hb
    · exact below a ha
    · exact cross a ha b hb

theorem mem_transverse_insert (compares : Compares compare)
    (inserted : gfcBtreeInsert compare data node = some node') (y : α) :
    y ∈ gfcBtreeTransverse0 node' ↔ y = data ∨ y ∈ gfcBtreeTransverse0 node := by
  induction node generalizing node' with
  | null =>
    rw [gfcBtreeInsert, if_pos (compares.self data)] at inserted
    cases inserted
    simp [gfcBtreeNodeNew, gfcBtreeTransverse0]
  | node x left right height ihl ihr =>
    unfold gfcBtreeInsert at inserted
    dsimp only at inserted
    split at inserted
    · obtain ⟨left', below, balanced⟩ := Option.bind_eq_some_iff.mp inserted
      rw [transverse_rebalance balanced, transverse_updateHeight, transverse_node,
        List.mem_append, List.mem_append, ihl below, or_assoc]
    split at inserted
    · obtain ⟨right', above, balanced⟩ := Option.bind_eq_some_iff.mp inserted
      rw [transverse_rebalance balanced, transverse_updateHeight, transverse_node,
        List.mem_append, List.mem_append, List.mem_cons, List.mem_cons, ihr above]
      tauto
    · cases inserted
      have same : data = x := compares.eq_of_zero (by omega)
      rw [transverse_node, List.mem_append, List.mem_cons, same]
      tauto

theorem increasing_insert (compares : Compares compare)
    (increasing : Increasing compare (gfcBtreeTransverse0 node))
    (inserted : gfcBtreeInsert compare data node = some node') :
    Increasing compare (gfcBtreeTransverse0 node') := by
  induction node generalizing node' with
  | null =>
    rw [gfcBtreeInsert, if_pos (compares.self data)] at inserted
    cases inserted
    exact List.pairwise_singleton _ _
  | node x left right height ihl ihr =>
    obtain ⟨hl, hr, below, above, cross⟩ := increasing_middle.mp increasing
    have order := compares.order
    unfold gfcBtreeInsert at inserted
    dsimp only at inserted
    split at inserted
    · rename_i less
      obtain ⟨left', new, balanced⟩ := Option.bind_eq_some_iff.mp inserted
      have member := mem_transverse_insert compares new
      rw [transverse_rebalance balanced, transverse_updateHeight, increasing_middle]
      have below' : ∀ a ∈ gfcBtreeTransverse0 left', compare a x < 0 := by
        intro a ha
        rcases (member a).mp ha with rfl | old
        · exact less
        · exact below a old
      exact ⟨ihl hl new, hr, below', above, fun a ha b hb =>
        trans_of (fun a b => compare a b < 0) (below' a ha) (above b hb)⟩
    split at inserted
    · rename_i more
      obtain ⟨right', new, balanced⟩ := Option.bind_eq_some_iff.mp inserted
      have member := mem_transverse_insert compares new
      rw [transverse_rebalance balanced, transverse_updateHeight, increasing_middle]
      have above' : ∀ b ∈ gfcBtreeTransverse0 right', compare x b < 0 := by
        intro b hb
        rcases (member b).mp hb with rfl | old
        · exact (compares.swap b x).mp more
        · exact above b old
      exact ⟨hl, ihr hr new, below, above', fun a ha b hb =>
        trans_of (fun a b => compare a b < 0) (below a ha) (above' b hb)⟩
    · cases inserted
      exact increasing

end Elements

/-! ### Heights -/

section Heights

variable {x y z : α} {left right a b inner outer node : GfcBtreeNode α} {height : Int} {data : α}
  {compare : α → α → Int} {h k : Int}

theorem avl_updateHeight : Avl (updateHeight x left right) ↔
    gfcBtreeHeight left ≤ gfcBtreeHeight right + 1 ∧
      gfcBtreeHeight right ≤ gfcBtreeHeight left + 1 ∧ Avl left ∧ Avl right := by
  simp [updateHeight, Avl, gfcBtreeMax_eq]

theorem Avl.height_nonneg (avl : Avl node) : 0 ≤ gfcBtreeHeight node := by
  induction node with
  | null => exact Int.le_refl 0
  | node x left right height ihl ihr =>
    obtain ⟨eq, -, -, hl, hr⟩ := avl
    have := ihl hl
    rw [gfcBtreeHeight_node]
    omega

theorem Avl.exists_node (avl : Avl node) (positive : 0 < gfcBtreeHeight node) :
    ∃ x left right height, node = .node x left right height := by
  cases node with
  | null => exact absurd positive (Int.lt_irrefl 0)
  | node x left right height => exact ⟨x, left, right, height, rfl⟩

theorem rebalance_even (least : gfcBtreeHeight left ≤ gfcBtreeHeight right + 1)
    (most : gfcBtreeHeight right ≤ gfcBtreeHeight left + 1) :
    rebalance compare data (updateHeight x left right) = some (updateHeight x left right) := by
  have low : ¬gfcBtreeHeight left - gfcBtreeHeight right > 1 := by omega
  have high : ¬gfcBtreeHeight left - gfcBtreeHeight right < -1 := by omega
  simp only [updateHeight, rebalance, gfcBtreeBalance, low, high, ↓reduceIte]

/-- The left-left case. -/
theorem rebalance_left (high : h > gfcBtreeHeight right + 1) (less : compare data y < 0) :
    rebalance compare data (updateHeight x (.node y outer inner h) right) =
      some (updateHeight y outer (updateHeight x inner right)) := by
  have high' : h - gfcBtreeHeight right > 1 := by omega
  simp only [updateHeight, rebalance, gfcBtreeBalance, gfcBtreeHeight_node, high', less,
    ↓reduceIte]
  rfl

/-- The left-right case. -/
theorem rebalance_left_right (high : h > gfcBtreeHeight right + 1) (more : compare data y > 0) :
    rebalance compare data (updateHeight x (.node y outer (.node z a b k) h) right) =
      some (updateHeight z (updateHeight y outer a) (updateHeight x b right)) := by
  have high' : h - gfcBtreeHeight right > 1 := by omega
  have notLess : ¬compare data y < 0 := by omega
  simp only [updateHeight, rebalance, gfcBtreeBalance, gfcBtreeHeight_node, high', notLess,
    more, ↓reduceIte]
  rfl

/-- The right-right case. -/
theorem rebalance_right (high : h > gfcBtreeHeight left + 1) (more : compare data y > 0) :
    rebalance compare data (updateHeight x left (.node y inner outer h)) =
      some (updateHeight y (updateHeight x left inner) outer) := by
  have low : ¬gfcBtreeHeight left - h > 1 := by omega
  have high' : gfcBtreeHeight left - h < -1 := by omega
  simp only [updateHeight, rebalance, gfcBtreeBalance, gfcBtreeHeight_node, low, high',
    more, ↓reduceIte]
  rfl

/-- The right-left case. -/
theorem rebalance_right_left (high : h > gfcBtreeHeight left + 1) (less : compare data y < 0) :
    rebalance compare data (updateHeight x left (.node y (.node z a b k) outer h)) =
      some (updateHeight z (updateHeight x left a) (updateHeight y b outer)) := by
  have low : ¬gfcBtreeHeight left - h > 1 := by omega
  have high' : gfcBtreeHeight left - h < -1 := by omega
  have notMore : ¬compare data y > 0 := by omega
  simp only [updateHeight, rebalance, gfcBtreeBalance, gfcBtreeHeight_node, low, high',
    notMore, less, ↓reduceIte]
  rfl

/-- How an insertion grows a tree: by one level at most, and where it does, the root of a tree that
was not empty is higher on the side of the data. -/
structure Grown (compare : α → α → Int) (data : α) (node node' : GfcBtreeNode α) : Prop where
  avl : Avl node'
  least : gfcBtreeHeight node ≤ gfcBtreeHeight node'
  most : gfcBtreeHeight node' ≤ gfcBtreeHeight node + 1
  leans : 0 < gfcBtreeHeight node → gfcBtreeHeight node' = gfcBtreeHeight node + 1 →
    ∃ x left right height, node' = .node x left right height ∧
      (compare data x < 0 ∧ gfcBtreeHeight left = gfcBtreeHeight right + 1 ∨
        compare data x > 0 ∧ gfcBtreeHeight right = gfcBtreeHeight left + 1)

theorem grown_left {left' : GfcBtreeNode α} (grown : Grown compare data left left')
    (avl : Avl (.node x left right height)) (less : compare data x < 0) :
    ∃ node', rebalance compare data (updateHeight x left' right) = some node' ∧
      Grown compare data (.node x left right height) node' := by
  obtain ⟨avl', least, most, leans⟩ := grown
  obtain ⟨height_eq, hl, hr, -, avlr⟩ := avl
  have nonneg := avlr.height_nonneg
  by_cases even : gfcBtreeHeight left' ≤ gfcBtreeHeight right + 1
  · refine ⟨_, rebalance_even even (by omega), avl_updateHeight.mpr ⟨even, by omega, avl', avlr⟩,
      ?_, ?_, fun _ grew => ⟨x, left', right, _, rfl, .inl ⟨less, ?_⟩⟩⟩
    · rw [gfcBtreeHeight_updateHeight, gfcBtreeHeight_node]
      omega
    · rw [gfcBtreeHeight_updateHeight, gfcBtreeHeight_node]
      omega
    · rw [gfcBtreeHeight_updateHeight, gfcBtreeHeight_node] at grew
      omega
  -- The left subtree grew to two levels above the right one.
  obtain ⟨y, outer, inner, h, rfl, side⟩ := leans (by omega) (by omega)
  clear leans
  obtain ⟨h_eq, ho, hi, avlo, avli⟩ := avl'
  rw [gfcBtreeHeight_node] at even most least
  rcases side with ⟨outside, heavy⟩ | ⟨inside, heavy⟩
  · refine ⟨_, rebalance_left (by omega) outside, ?_, ?_, ?_, fun _ grew => absurd grew ?_⟩
    · simp only [avl_updateHeight, gfcBtreeHeight_updateHeight]
      exact ⟨by omega, by omega, avlo, by omega, by omega, avli, avlr⟩
    all_goals
      simp only [gfcBtreeHeight_updateHeight, gfcBtreeHeight_node]
      omega
  · have := avlo.height_nonneg
    obtain ⟨z, a, b, k, rfl⟩ := avli.exists_node (by omega)
    obtain ⟨k_eq, ha, hb, avla, avlb⟩ := avli
    rw [gfcBtreeHeight_node] at heavy h_eq ho hi
    refine ⟨_, rebalance_left_right (by omega) inside, ?_, ?_, ?_, fun _ grew => absurd grew ?_⟩
    · simp only [avl_updateHeight, gfcBtreeHeight_updateHeight]
      exact ⟨by omega, by omega, ⟨by omega, by omega, avlo, avla⟩, by omega, by omega, avlb, avlr⟩
    all_goals
      simp only [gfcBtreeHeight_updateHeight, gfcBtreeHeight_node]
      omega

theorem grown_right {right' : GfcBtreeNode α} (grown : Grown compare data right right')
    (avl : Avl (.node x left right height)) (more : compare data x > 0) :
    ∃ node', rebalance compare data (updateHeight x left right') = some node' ∧
      Grown compare data (.node x left right height) node' := by
  obtain ⟨avl', least, most, leans⟩ := grown
  obtain ⟨height_eq, hl, hr, avll, -⟩ := avl
  have nonneg := avll.height_nonneg
  by_cases even : gfcBtreeHeight right' ≤ gfcBtreeHeight left + 1
  · refine ⟨_, rebalance_even (by omega) even, avl_updateHeight.mpr ⟨by omega, even, avll, avl'⟩,
      ?_, ?_, fun _ grew => ⟨x, left, right', _, rfl, .inr ⟨more, ?_⟩⟩⟩
    · rw [gfcBtreeHeight_updateHeight, gfcBtreeHeight_node]
      omega
    · rw [gfcBtreeHeight_updateHeight, gfcBtreeHeight_node]
      omega
    · rw [gfcBtreeHeight_updateHeight, gfcBtreeHeight_node] at grew
      omega
  -- The right subtree grew to two levels above the left one.
  obtain ⟨y, inner, outer, h, rfl, side⟩ := leans (by omega) (by omega)
  clear leans
  obtain ⟨h_eq, hi, ho, avli, avlo⟩ := avl'
  rw [gfcBtreeHeight_node] at even most least
  rcases side with ⟨inside, heavy⟩ | ⟨outside, heavy⟩
  · have := avlo.height_nonneg
    obtain ⟨z, a, b, k, rfl⟩ := avli.exists_node (by omega)
    obtain ⟨k_eq, ha, hb, avla, avlb⟩ := avli
    rw [gfcBtreeHeight_node] at heavy h_eq ho hi
    refine ⟨_, rebalance_right_left (by omega) inside, ?_, ?_, ?_, fun _ grew => absurd grew ?_⟩
    · simp only [avl_updateHeight, gfcBtreeHeight_updateHeight]
      exact ⟨by omega, by omega, ⟨by omega, by omega, avll, avla⟩, by omega, by omega, avlb, avlo⟩
    all_goals
      simp only [gfcBtreeHeight_updateHeight, gfcBtreeHeight_node]
      omega
  · refine ⟨_, rebalance_right (by omega) outside, ?_, ?_, ?_, fun _ grew => absurd grew ?_⟩
    · simp only [avl_updateHeight, gfcBtreeHeight_updateHeight]
      exact ⟨by omega, by omega, ⟨by omega, by omega, avll, avli⟩, avlo⟩
    all_goals
      simp only [gfcBtreeHeight_updateHeight, gfcBtreeHeight_node]
      omega

/-- An insertion returns, and grows the tree by one level at most. -/
theorem grown_insert (compares : Compares compare) (data : α) (avl : Avl node) :
    ∃ node', gfcBtreeInsert compare data node = some node' ∧ Grown compare data node node' := by
  induction node with
  | null =>
    rw [gfcBtreeInsert, if_pos (compares.self data)]
    refine ⟨_, rfl, ⟨rfl, ?_, ?_, trivial, trivial⟩, ?_, ?_, ?_⟩
    · exact Int.le_add_one (Int.le_refl _)
    · exact Int.le_add_one (Int.le_refl _)
    · exact Int.zero_le_ofNat 1
    · exact Int.le_refl 1
    · exact fun positive => absurd positive (Int.lt_irrefl 0)
  | node x left right height ihl ihr =>
    obtain ⟨height_eq, hl, hr, avll, avlr⟩ := id avl
    unfold gfcBtreeInsert
    dsimp only
    split
    · rename_i less
      obtain ⟨left', inserted, grown⟩ := ihl avll
      rw [inserted]
      exact grown_left grown avl less
    split
    · rename_i more
      obtain ⟨right', inserted, grown⟩ := ihr avlr
      rw [inserted]
      exact grown_right grown avl more
    · refine ⟨_, rfl, avl, Int.le_refl _, by omega, fun _ grew => ?_⟩
      omega

end Heights

/-! ### Runs -/

theorem isAvlTree_append {ctx : GfcBtree α} {elements : List α} (compares : Compares ctx.compare)
    (tree : ctx.IsAvlTree elements) (data : α) :
    ∃ ctx', gfcBtreeAppend ctx data = some ctx' ∧ ctx'.compare = ctx.compare ∧
      ctx'.IsAvlTree (elements ++ [data]) := by
  obtain ⟨root, inserted, grown⟩ := grown_insert compares data tree.avl
  refine ⟨{ ctx with root }, by rw [gfcBtreeAppend, inserted]; rfl, rfl, ?_, ?_, grown.avl⟩
  · intro y
    rw [List.mem_append, List.mem_singleton, or_comm, ← tree.visits y]
    exact mem_transverse_insert compares inserted y
  · exact increasing_insert compares tree.increasing inserted

/-- Appending elements one after another to a new tree builds an AVL search tree of these. -/
theorem isAvlTree_appends (compare : α → α → Int) (compares : Compares compare)
    (elements : List α) :
    ∃ ctx, elements.foldlM gfcBtreeAppend (gfcBtreeNew compare) = some ctx ∧
      ctx.compare = compare ∧ ctx.IsAvlTree elements := by
  induction elements using List.reverseRecOn with
  | nil => exact ⟨_, rfl, rfl, fun _ => Iff.rfl, List.Pairwise.nil, trivial⟩
  | append_singleton before data ih =>
    obtain ⟨ctx, built, rfl, tree⟩ := ih
    obtain ⟨ctx', appended, same, tree'⟩ := isAvlTree_append compares tree data
    refine ⟨ctx', ?_, same, tree'⟩
    rw [List.foldlM_append, built, Option.bind_eq_bind, Option.bind_some, List.foldlM_cons,
      appended]
    rfl

/-- The comparison of integers that `test_gfc_btree.c` uses. -/
def compareInts (i1 i2 : Int) : Int := if i1 < i2 then -1 else if i1 > i2 then 1 else 0

theorem compareInts_neg (a b : Int) : compareInts a b < 0 ↔ a < b := by
  unfold compareInts
  split
  · omega
  · split <;> omega

theorem compareInts_compares : Compares compareInts where
  order :=
    { irrefl := fun a less => by
        rw [compareInts_neg] at less
        omega
      trans := fun a b c h1 h2 => by
        rw [compareInts_neg] at *
        omega
      trichotomous := fun a b h1 h2 => by
        rw [compareInts_neg] at h1 h2
        omega }
  swap a b := by
    rw [compareInts_neg]
    unfold compareInts
    split
    · omega
    · split <;> omega

theorem isAvlTree_appends_ints :
    ∃ ctx, [30, 10, 20, 10].foldlM gfcBtreeAppend (gfcBtreeNew compareInts) = some ctx ∧
      ctx.compare = compareInts ∧ ctx.IsAvlTree [30, 10, 20, 10] :=
  isAvlTree_appends compareInts compareInts_compares [30, 10, 20, 10]

end Guardwatch
