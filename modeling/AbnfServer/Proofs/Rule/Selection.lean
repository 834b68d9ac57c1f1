-- Which of the ranges that a search found are edited. They are taken in the
-- order of their starts; no two of them touch, and what is left out touches one
-- of them that starts no later.
import AbnfServer.Proofs.Sorting
import AbnfServer.Rule.Rename

namespace AbnfServer.Rule

variable {taken ranges : List Range} {r : Range}

/-! ## One pass over the candidates -/

theorem selectFrom_sublist (taken ranges : List Range) : (selectFrom taken ranges).Sublist ranges := by
  induction ranges generalizing taken with
  | nil => exact List.Sublist.refl []
  | cons r rs ih =>
    unfold selectFrom
    split
    · exact List.Sublist.cons r (ih taken)
    · exact List.Sublist.cons_cons r (ih _)

/-- What is taken touches nothing that was taken before. -/
theorem selectFrom_apart {a : Range} (hr : r ∈ selectFrom taken ranges) (ha : a ∈ taken) :
    r.touches a = false := by
  induction ranges generalizing taken with
  | nil => cases hr
  | cons x xs ih =>
    unfold selectFrom at hr
    split at hr
    · exact ih hr ha
    · next hfree =>
      rcases List.mem_cons.mp hr with rfl | hr
      · rw [Bool.not_eq_true, List.any_eq_false] at hfree
        exact Bool.eq_false_iff.mpr (hfree a ha)
      · exact ih hr (List.mem_cons_of_mem _ ha)

theorem selectFrom_pairwise (taken ranges : List Range) :
    (selectFrom taken ranges).Pairwise fun a b => a.touches b = false := by
  induction ranges generalizing taken with
  | nil => exact List.Pairwise.nil
  | cons x xs ih =>
    unfold selectFrom
    split
    · exact ih taken
    · refine List.pairwise_cons.mpr ⟨?_, ih _⟩
      intro b hb
      rw [Range.touches_comm]
      exact selectFrom_apart hb List.mem_cons_self

/-- What is left out touches one that was taken before it. -/
theorem selectFrom_covers (hbefore : ∀ a ∈ taken, ∀ b ∈ ranges, a.start ≤ b.start)
    (hsorted : ranges.Pairwise fun a b => a.start ≤ b.start) (hr : r ∈ ranges) :
    r ∈ selectFrom taken ranges ∨
      ∃ a, (a ∈ taken ∨ a ∈ selectFrom taken ranges) ∧ r.touches a = true ∧ a.start ≤ r.start := by
  induction ranges generalizing taken with
  | nil => cases hr
  | cons x xs ih =>
    obtain ⟨hx, hxs⟩ := List.pairwise_cons.mp hsorted
    unfold selectFrom
    split
    · next hclash =>
      rcases List.mem_cons.mp hr with rfl | hr'
      · obtain ⟨a, ha, hta⟩ := List.any_eq_true.mp hclash
        exact Or.inr ⟨a, Or.inl ha, hta, hbefore a ha r List.mem_cons_self⟩
      · exact ih (fun a ha b hb => hbefore a ha b (List.mem_cons_of_mem _ hb)) hxs hr'
    · rcases List.mem_cons.mp hr with rfl | hr'
      · exact Or.inl List.mem_cons_self
      · have hbefore' : ∀ a ∈ x :: taken, ∀ b ∈ xs, a.start ≤ b.start := by
          intro a ha b hb
          rcases List.mem_cons.mp ha with rfl | ha
          · exact hx b hb
          · exact hbefore a ha b (List.mem_cons_of_mem _ hb)
        rcases ih hbefore' hxs hr' with h | ⟨a, ha, hta, hle⟩
        · exact Or.inl (List.mem_cons_of_mem _ h)
        · refine Or.inr ⟨a, ?_, hta, hle⟩
          rcases ha with ha | ha
          · rcases List.mem_cons.mp ha with rfl | ha
            · exact Or.inr List.mem_cons_self
            · exact Or.inl ha
          · exact Or.inr (List.mem_cons_of_mem _ ha)

/-! ## All the candidates -/

/-- Candidates go by the rank of their start. -/
theorem sortOrder_start : SortOrder fun a b : Range => decide (a.start ≤ b.start) :=
  sortOrder_key fun r : Range => r.start.rank

theorem candidates_sorted (ranges : List Range) :
    (ranges.mergeSort fun a b => a.start ≤ b.start).Pairwise fun a b => a.start ≤ b.start :=
  (sortOrder_start.sorted ranges).imp of_decide_eq_true

theorem select_subset (h : r ∈ select ranges) : r ∈ ranges :=
  List.mem_mergeSort.mp ((selectFrom_sublist _ _).subset h)

theorem select_sorted (ranges : List Range) : (select ranges).Pairwise fun a b => a.start ≤ b.start :=
  (candidates_sorted ranges).sublist (selectFrom_sublist _ _)

theorem select_pairwise (ranges : List Range) :
    (select ranges).Pairwise fun a b => a.touches b = false :=
  selectFrom_pairwise _ _

theorem select_covers (h : r ∈ ranges) :
    r ∈ select ranges ∨ ∃ a ∈ select ranges, r.touches a = true ∧ a.start ≤ r.start := by
  have hnone : ∀ a ∈ ([] : List Range), ∀ b ∈ ranges.mergeSort fun a b => a.start ≤ b.start,
      a.start ≤ b.start := by
    intro a ha
    cases ha
  rcases selectFrom_covers hnone (candidates_sorted ranges) (List.mem_mergeSort.mpr h) with h | h
  · exact Or.inl h
  · obtain ⟨a, ha, hta, hle⟩ := h
    rcases ha with ha | ha
    · cases ha
    · exact Or.inr ⟨a, ha, hta, hle⟩

/-- Where different candidates start apart, the order in which they come does not matter. -/
theorem select_eq_of_perm {ranges' : List Range} (h : ranges.Perm ranges')
    (hstarts : ∀ a ∈ ranges, ∀ b ∈ ranges, a.start = b.start → a = b) :
    select ranges = select ranges' := by
  unfold select
  rw [sortOrder_start.mergeSort_eq_of_perm h]
  intro a ha b hb hab hba
  rw [decide_eq_true_eq, Position.le_def] at hab hba
  exact hstarts a ha b hb (Position.rank_inj.mp (Nat.le_antisymm hab hba))

end AbnfServer.Rule
