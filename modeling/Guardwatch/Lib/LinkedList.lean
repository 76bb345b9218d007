import Mathlib.Data.List.Basic
import Mathlib.Data.List.Nodup
import Mathlib.Data.List.Perm.Subperm

/-! Singly linked lists in a heap: the nodes that a pointer leads to, and what is left of them where
the link of one node is redirected. -/

namespace LinkedList

variable {α : Type} {next next' : α → Option α} {start start' stop : Option α}
  {l front back : List α} {a : α}

/-- From the first pointer on, the links visit the nodes of the list and then give the last one. -/
def Segment (next : α → Option α) : Option α → List α → Option α → Prop
  | start, [], stop => start = stop
  | start, a :: l, stop => start = some a ∧ Segment next (next a) l stop

/-- The links visit the nodes of the list and end in the null pointer. -/
abbrev Linked (next : α → Option α) (start : Option α) (l : List α) : Prop :=
  Segment next start l none

theorem segment_append : Segment next start (front ++ back) stop ↔
    ∃ middle, Segment next start front middle ∧ Segment next middle back stop := by
  induction front generalizing start with
  | nil => exact ⟨fun linked => ⟨start, rfl, linked⟩, fun ⟨_, same, linked⟩ => same ▸ linked⟩
  | cons a front ih =>
    rw [List.cons_append, Segment, ih]
    exact ⟨fun ⟨first, middle, before, behind⟩ => ⟨middle, ⟨first, before⟩, behind⟩,
      fun ⟨middle, ⟨first, before⟩, behind⟩ => ⟨first, middle, before, behind⟩⟩

/-- Only the links of the nodes on the way matter. -/
theorem Segment.congr (linked : Segment next start l stop) (same : ∀ a ∈ l, next' a = next a) :
    Segment next' start l stop := by
  induction l generalizing start with
  | nil => exact linked
  | cons a l ih =>
    refine ⟨linked.1, ?_⟩
    rw [same a List.mem_cons_self]
    exact ih linked.2 fun b member => same b (List.mem_cons_of_mem a member)

theorem Segment.unique {l' : List α} (linked : Linked next start l)
    (linked' : Linked next start l') : l = l' := by
  induction l generalizing start l' with
  | nil =>
    cases l' with
    | nil => rfl
    | cons b l' => cases linked.symm.trans linked'.1
  | cons a l ih =>
    cases l' with
    | nil => cases linked.1.symm.trans linked'
    | cons b l' =>
      obtain rfl : a = b := Option.some.inj (linked.1.symm.trans linked'.1)
      rw [ih linked.2 linked'.2]

/-- A list that ends visits no node twice. -/
theorem Segment.nodup (linked : Linked next start l) : l.Nodup := by
  induction l generalizing start with
  | nil => exact List.nodup_nil
  | cons a l ih =>
    refine List.nodup_cons.mpr ⟨fun again => ?_, ih linked.2⟩
    obtain ⟨front, back, rfl⟩ := List.append_of_mem again
    obtain ⟨middle, -, behind⟩ := segment_append.mp linked.2
    have rest_same : front ++ a :: back = back := linked.2.unique behind.2
    have lengths := congrArg List.length rest_same
    simp only [List.length_cons, List.length_append] at lengths
    omega

theorem linked_cons (linked : Linked next (some a) l) : ∃ rest, l = a :: rest := by
  cases l with
  | nil => cases linked
  | cons b rest =>
    obtain rfl := Option.some.inj linked.1
    exact ⟨rest, rfl⟩

/-- The link before a node is led past it. -/
theorem Segment.unlink (linked : Linked next start (front ++ a :: back))
    (first : start' = if front = [] then next a else start)
    (redirected : ∀ prev, front.getLast? = some prev → next' prev = next a)
    (kept : ∀ b ∈ front ++ back, front.getLast? ≠ some b → next' b = next b) :
    Linked next' start' (front ++ back) := by
  have distinct := linked.nodup
  obtain ⟨middle, before, rfl, behind⟩ := segment_append.mp linked
  rcases List.eq_nil_or_concat front with rfl | ⟨others, prev, rfl⟩
  · rw [first, if_pos rfl]
    exact behind.congr fun b member => kept b member (by simp)
  · rw [List.concat_eq_append] at *
    obtain ⟨_, others_linked, rfl, link⟩ := segment_append.mp before
    rw [first, if_neg (by simp)]
    rw [List.append_assoc, List.nodup_append] at distinct
    obtain ⟨-, later_distinct, others_apart⟩ := distinct
    refine segment_append.mpr ⟨next a, segment_append.mpr ⟨some prev, ?_, rfl, ?_⟩, ?_⟩
    · refine others_linked.congr fun b member => kept b (by simp [member]) ?_
      rw [List.getLast?_concat]
      rintro ⟨⟩
      exact others_apart _ member _ List.mem_cons_self rfl
    · exact redirected prev List.getLast?_concat
    · refine behind.congr fun b member => kept b (by simp [member]) ?_
      rw [List.getLast?_concat]
      rintro ⟨⟩
      exact (List.nodup_cons.mp later_distinct).1 (List.mem_cons_of_mem a member)

/-- A node is put at the end, with whatever its link leads to. -/
theorem Segment.append_node (linked : Linked next start l)
    (first : start' = if l = [] then some a else start)
    (redirected : ∀ prev, l.getLast? = some prev → next' prev = some a)
    (kept : ∀ b ∈ l, l.getLast? ≠ some b → next' b = next b) :
    Segment next' start' (l ++ [a]) (next' a) := by
  have distinct := linked.nodup
  rcases List.eq_nil_or_concat l with rfl | ⟨others, prev, rfl⟩
  · rw [first, if_pos rfl]
    exact ⟨rfl, rfl⟩
  · rw [List.concat_eq_append] at *
    obtain ⟨_, others_linked, rfl, -⟩ := segment_append.mp linked
    rw [first, if_neg (by simp)]
    refine segment_append.mpr ⟨some a, segment_append.mpr ⟨some prev, ?_, rfl, ?_⟩, rfl, rfl⟩
    · refine others_linked.congr fun b member => kept b (by simp [member]) ?_
      rw [List.getLast?_concat]
      rintro ⟨⟩
      exact (List.nodup_append.mp distinct).2.2 _ member _ List.mem_cons_self rfl
    · exact redirected prev List.getLast?_concat

/-- A node without a link is put at the end. -/
theorem Segment.append_last (linked : Linked next start l)
    (first : start' = if l = [] then some a else start)
    (redirected : ∀ prev, l.getLast? = some prev → next' prev = some a)
    (kept : ∀ b ∈ l, l.getLast? ≠ some b → next' b = next b) (ended : next' a = none) :
    Linked next' start' (l ++ [a]) := by
  have appended := linked.append_node first redirected kept
  rwa [ended] at appended

/-- What a list that ends visits behind its first nodes. -/
theorem Segment.behind (linked : Linked next start l)
    (front_linked : Segment next start front stop) :
    ∃ back, l = front ++ back ∧ Linked next stop back := by
  induction front generalizing start l with
  | nil =>
    obtain rfl : start = stop := front_linked
    exact ⟨l, rfl, linked⟩
  | cons a front ih =>
    obtain ⟨rfl, front_linked⟩ := front_linked
    obtain ⟨rest, rfl⟩ := linked_cons linked
    obtain ⟨back, rfl, behind⟩ := ih linked.2 front_linked
    exact ⟨back, rfl, behind⟩

/-- Nodes that the links do not leave are all that is visited. -/
theorem Segment.within {nodes : Set α} (linked : Segment next start l stop)
    (first : ∀ a, start = some a → a ∈ nodes)
    (closed : ∀ a ∈ nodes, ∀ b, next a = some b → b ∈ nodes) : ∀ a ∈ l, a ∈ nodes := by
  induction l generalizing start with
  | nil => exact nofun
  | cons a l ih =>
    have member := first a linked.1
    intro b at_b
    rcases List.mem_cons.mp at_b with rfl | behind
    · exact member
    · exact ih linked.2 (closed a member) b behind

/-- The links of a list that ends do not leave it. -/
theorem Segment.closed (linked : Linked next start l) : ∀ a ∈ l, ∀ b, next a = some b → b ∈ l := by
  induction l generalizing start with
  | nil => exact nofun
  | cons first l ih =>
    intro a member b at_a
    apply List.mem_cons_of_mem
    rcases List.mem_cons.mp member with rfl | behind
    · obtain ⟨rest, rfl⟩ := linked_cons (at_a ▸ linked.2)
      exact List.mem_cons_self
    · exact ih linked.2 a behind b at_a

/-- A list of numbers below a bound, none of them twice, is no longer than the bound. -/
theorem length_le_of_lt {l : List Nat} {n : Nat} (distinct : l.Nodup) (below : ∀ a ∈ l, a < n) :
    l.length ≤ n := by
  have within : l ⊆ List.range n := fun a member => List.mem_range.mpr (below a member)
  simpa using (distinct.subperm within).length_le

end LinkedList
