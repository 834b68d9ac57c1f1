-- Sorted lists. A list in order is told by what is in it, so where no two of its
-- elements tie, sorting forgets the order in which they came.

namespace AbnfServer

variable {α : Type} {le : α → α → Bool} {xs ys : List α}

/-- An order to sort by: any two elements can be compared, and comparing carries over. -/
structure SortOrder (le : α → α → Bool) : Prop where
  trans : ∀ a b c, le a b = true → le b c = true → le a c = true
  total : ∀ a b, (le a b || le b a) = true

theorem sortOrder_key (key : α → Nat) : SortOrder fun a b => decide (key a ≤ key b) where
  trans a b c hab hbc := by
    rw [decide_eq_true_eq] at *
    exact Nat.le_trans hab hbc
  total a b := by
    rw [Bool.or_eq_true, decide_eq_true_eq, decide_eq_true_eq]
    exact Nat.le_total _ _

namespace SortOrder

theorem sorted (h : SortOrder le) (xs : List α) : (xs.mergeSort le).Pairwise fun a b => le a b = true :=
  List.pairwise_mergeSort h.trans h.total xs

/-- Sorting forgets the order of elements that do not tie. -/
theorem mergeSort_eq_of_perm (h : SortOrder le) (hperm : xs.Perm ys)
    (hties : ∀ a ∈ xs, ∀ b ∈ xs, le a b = true → le b a = true → a = b) :
    xs.mergeSort le = ys.mergeSort le := by
  have hsorted : (xs.mergeSort le).Perm (ys.mergeSort le) :=
    (List.mergeSort_perm xs le).trans (hperm.trans (List.mergeSort_perm ys le).symm)
  refine hsorted.eq_of_pairwise ?_ (h.sorted xs) (h.sorted ys)
  intro a b ha hb
  exact hties a (List.mem_mergeSort.mp ha) b (hperm.mem_iff.mpr (List.mem_mergeSort.mp hb))

end SortOrder

end AbnfServer
