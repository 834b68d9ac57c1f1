-- The plan of a rename for any references at all: the ranges that it edits lie apart,
-- each of the others is in the way of one of them, and where different references start
-- apart it does not matter in which order they come. The references of a name start
-- apart.
import AbnfServer.Proofs.Rule.References
import AbnfServer.Proofs.Rule.Selection
import Mathlib

namespace AbnfServer.Rule

open Text

variable {t name before after after' : Text} {refs refs' : List Reference}

/-! ## Where references start -/

/-- No two different references start at one place. -/
def StartApart (refs : List Reference) : Prop :=
  ∀ r ∈ refs, ∀ s ∈ refs, r.location.range.start = s.location.range.start →
    r.location.range = s.location.range

/-- Behind a name that also stands one character further on, its last character
comes again. -/
theorem head?_of_shift {b d : Text} {c : Char} (hname : name ≠ []) (h : name ++ b = c :: (name ++ d)) :
    b.head? = name.getLast? := by
  obtain ⟨k, hk⟩ : ∃ k, name.length = k + 1 :=
    Nat.exists_eq_add_one.mpr (List.length_pos_of_ne_nil hname)
  -- one index, just behind the name on the left and at the end of the name on the right
  have hbehind : (name ++ b)[k + 1]? = b.head? := by
    rw [← hk, List.getElem?_append_right (Nat.le_refl _), Nat.sub_self, List.head?_eq_getElem?]
  have hlast : (c :: (name ++ d))[k + 1]? = name.getLast? := by
    rw [List.getElem?_cons_succ, List.getElem?_append_left (by omega), List.getLast?_eq_getElem?, hk]
    rfl
  rw [← hbehind, h, hlast]

/-- A name and the same name in brackets never start at one place. The bare name would
end between two equal characters, and no word ends there. -/
theorem bare_or_bracketed (hname : name ≠ []) (hbare : Search.Occurs ⟨name, true⟩ t before after)
    (hbracketed : Search.Occurs ⟨bracket name, false⟩ t before after') : False := by
  have hcut : before ++ (name ++ after) = before ++ ('<' :: (name ++ ('>' :: after'))) := by
    have h := hbare.cut.symm.trans hbracketed.cut
    simpa [bracket] using h
  have hhead := head?_of_shift hname (List.append_cancel_left hcut)
  have hedge : WordEdge name.getLast? after.head? := (hbare.edges rfl).2
  rw [hhead] at hedge
  exact iff_not_self hedge

theorem occurs_of_mem_scanReferences {uri : String} {r : Reference} (hname : name ≠ [])
    (hr : r ∈ scanReferences uri t name) :
    ∃ before after, (Search.ofName name r.bracketed).Occurs t before after ∧
      r.location.range = ⟨before.position, (before ++ (Search.ofName name r.bracketed).pattern).position⟩ := by
  rw [scanReferences_ranges uri t hname] at hr
  rcases List.mem_append.mp hr with h | h
  · obtain ⟨range, hrange, rfl⟩ := List.mem_map.mp h
    obtain ⟨before, after, hoccurs, _, hplace⟩ := Search.mem_ranges hname hrange
    exact ⟨before, after, hoccurs, hplace⟩
  · obtain ⟨range, hrange, rfl⟩ := List.mem_map.mp h
    obtain ⟨before, after, hoccurs, _, hplace⟩ := Search.mem_ranges (List.cons_ne_nil _ _) hrange
    exact ⟨before, after, hoccurs, hplace⟩

/-- The references of a name start apart. -/
theorem startApart_scanReferences (uri : String) (ht : t.Addressable) (hname : name ≠ []) :
    StartApart (scanReferences uri t name) := by
  intro r hr s hs hstart
  obtain ⟨before, after, hoccurs, hrange⟩ := occurs_of_mem_scanReferences hname hr
  obtain ⟨before', after', hoccurs', hrange'⟩ := occurs_of_mem_scanReferences hname hs
  rw [hrange, hrange'] at hstart
  have hcut := hoccurs.cut
  have hcut' := hoccurs'.cut
  rw [List.append_assoc] at hcut hcut'
  obtain ⟨rfl, _⟩ := append_of_bytes_eq (hcut.symm.trans hcut')
    ((LineIndex.position_eq_iff ht hcut hcut').mp hstart)
  rw [hrange, hrange']
  cases hr : r.bracketed <;> cases hs : s.bracketed
  · rfl
  · rw [hr] at hoccurs
    rw [hs] at hoccurs'
    exact (bare_or_bracketed hname hoccurs hoccurs').elim
  · rw [hr] at hoccurs
    rw [hs] at hoccurs'
    exact (bare_or_bracketed hname hoccurs' hoccurs).elim
  · rfl

/-! ## The plan -/

theorem map_range_planEdits (text newName : Text) (refs : List Reference) :
    (planEdits text refs newName).map Edit.range = select (refs.map fun r => r.location.range) := by
  rw [planEdits, List.map_map]
  exact List.map_id _

theorem planEdits_eq_of_perm (text newName : Text) (h : refs.Perm refs') (hstarts : StartApart refs) :
    planEdits text refs newName = planEdits text refs' newName := by
  have hselect : select (refs.map fun r => r.location.range) = select (refs'.map fun r => r.location.range) := by
    apply select_eq_of_perm (h.map _)
    intro a ha b hb hstart
    obtain ⟨r, hr, rfl⟩ := List.mem_map.mp ha
    obtain ⟨s, hs, rfl⟩ := List.mem_map.mp hb
    exact hstarts r hr s hs hstart
  rw [planEdits, planEdits, hselect]

/-- A plan edits ranges of the references. They go by their starts and do not touch;
and a reference is edited, or it touches an edited one that starts no later. When
different references start apart, as those of a name do, their order makes no
difference. -/
theorem plan_takes_what_starts_first (text newName : Text) (refs : List Reference) :
    let edits := planEdits text refs newName
    (edits.Pairwise fun e f => e.range.start ≤ f.range.start ∧ e.range.touches f.range = false) ∧
      (edits.map Edit.range).Subperm (refs.map fun r => r.location.range) ∧
      (∀ r ∈ refs, (∃ e ∈ edits, e.range = r.location.range) ∨
        ∃ e ∈ edits, r.location.range.touches e.range = true ∧ e.range.start ≤ r.location.range.start) ∧
      (StartApart refs → ∀ refs', refs'.Perm refs → planEdits text refs' newName = edits) ∧
      ∀ (uri : String) (t name : Text), t.bytes < UInt32.size → name ≠ [] →
        StartApart (scanReferences uri t name) := by
  intro edits
  have hranges : edits.map Edit.range = select (refs.map fun r => r.location.range) :=
    map_range_planEdits text newName refs
  have hedit {a : Range} (ha : a ∈ select (refs.map fun r => r.location.range)) :
      ∃ e ∈ edits, e.range = a := by
    rw [← hranges] at ha
    exact List.mem_map.mp ha
  refine ⟨?_, ?_, ?_, ?_, ?_⟩
  · have hpairs := (select_sorted (refs.map fun r => r.location.range)).and (select_pairwise _)
    rw [← hranges, List.pairwise_map] at hpairs
    exact hpairs
  · rw [hranges]
    exact (selectFrom_sublist _ _).subperm.trans (List.mergeSort_perm _ _).subperm
  · intro r hr
    rcases select_covers (List.mem_map_of_mem hr) with hsel | ⟨a, ha, htouch, hle⟩
    · exact Or.inl (hedit hsel)
    · obtain ⟨e, he, rfl⟩ := hedit ha
      exact Or.inr ⟨e, he, htouch, hle⟩
  · intro hstarts refs' hperm
    exact (planEdits_eq_of_perm text newName hperm.symm hstarts).symm
  · intro uri t name ht hname
    exact startApart_scanReferences uri (addressable_of_bytes_lt ht) hname

/-- References in the way of others, given twice, reversed or out of the text. A reversed
one does not even touch itself, so it stays as often as it is given. -/
theorem a_plan_of_wild_references :
    let text := "ab".toList
    let refs : List Reference := [⟨⟨"f", ⟨5, 3⟩, ⟨5, 1⟩⟩, false⟩, ⟨⟨"f", ⟨0, 1⟩, ⟨0, 2⟩⟩, false⟩,
      ⟨⟨"f", ⟨0, 0⟩, ⟨0, 1⟩⟩, false⟩, ⟨⟨"f", ⟨0, 0⟩, ⟨0, 1⟩⟩, true⟩, ⟨⟨"f", ⟨5, 3⟩, ⟨5, 1⟩⟩, false⟩]
    StartApart refs ∧
      planEdits text refs.reverse "x".toList = [⟨⟨⟨0, 0⟩, ⟨0, 1⟩⟩, "x".toList⟩,
        ⟨⟨⟨5, 3⟩, ⟨5, 1⟩⟩, "x".toList⟩, ⟨⟨⟨5, 3⟩, ⟨5, 1⟩⟩, "x".toList⟩] ∧
      StartApart (scanReferences "f" "a = <a> / a-a".toList "a".toList) := by
  intro text refs
  have hstarts : StartApart refs := by
    unfold StartApart
    decide
  have hplan : planEdits text refs "x".toList = [⟨⟨⟨0, 0⟩, ⟨0, 1⟩⟩, "x".toList⟩,
      ⟨⟨⟨5, 3⟩, ⟨5, 1⟩⟩, "x".toList⟩, ⟨⟨⟨5, 3⟩, ⟨5, 1⟩⟩, "x".toList⟩] := by
    cbv
  obtain ⟨_, _, _, hany, hscanned⟩ := plan_takes_what_starts_first text "x".toList refs
  exact ⟨hstarts, (hany hstarts _ refs.reverse_perm).trans hplan,
    hscanned "f" _ _ (by decide) (by decide)⟩

end AbnfServer.Rule
