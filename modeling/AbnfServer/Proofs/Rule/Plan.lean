-- The plan of a rename, told in byte offsets: which of the found places are
-- edited, and with which splices the edits are applied.
import AbnfServer.Proofs.Rule.Occurrences
import AbnfServer.Proofs.Rule.Selection
import AbnfServer.Proofs.Text.Splices

namespace AbnfServer.Rule

open Text

/-! ## Found places -/

/-- A place at which one of the two searches finds a name. -/
structure Hit where
  offset : Nat
  bracketed : Bool

namespace Hit

variable (name : Text)

def pattern (h : Hit) : Text := (Search.ofName name h.bracketed).pattern

def stop (h : Hit) : Nat := h.offset + (h.pattern name).bytes

def range (t : Text) (h : Hit) : Range := (LineIndex.ofText t).rangeOf h.offset (h.stop name)

def newText (newName : Text) (h : Hit) : Text := if h.bracketed then bracket newName else newName

def edit (t newName : Text) (h : Hit) : Edit := ⟨h.range name t, h.newText newName⟩

def splice (newName : Text) (h : Hit) : Splice := ⟨h.offset, h.stop name, h.newText newName⟩

end Hit

/-- All found places, the bare ones first. -/
def hits (name t : Text) : List Hit :=
  ((Search.ofName name false).offsets t).map (⟨·, false⟩) ++
    ((Search.ofName name true).offsets t).map (⟨·, true⟩)

variable {name t : Text} {h k : Hit}

theorem scanReferences_hits (uri : String) (t : Text) (hname : name ≠ []) :
    scanReferences uri t name = (hits name t).map fun h => ⟨⟨uri, h.range name t⟩, h.bracketed⟩ := by
  have hempty : name.isEmpty = false := List.isEmpty_eq_false_iff.mpr hname
  rw [scanReferences, hempty, hits, List.map_append, List.map_map, List.map_map]
  rfl

theorem pattern_ne_nil (hname : name ≠ []) (bracketed : Bool) :
    (Search.ofName name bracketed).pattern ≠ [] := by
  cases bracketed with
  | false => exact hname
  | true => exact List.cons_ne_nil _ _

theorem Hit.mem_offsets (h : Hit) (hh : h ∈ hits name t) :
    h.offset ∈ (Search.ofName name h.bracketed).offsets t := by
  rcases List.mem_append.mp hh with hm | hm
  · obtain ⟨o, ho, rfl⟩ := List.mem_map.mp hm
    exact ho
  · obtain ⟨o, ho, rfl⟩ := List.mem_map.mp hm
    exact ho

/-- A found place lies in the text, with the pattern in it. -/
theorem Hit.lies (hname : name ≠ []) (h : Hit) (hh : h ∈ hits name t) :
    ∃ a b, t = a ++ h.pattern name ++ b ∧ h.offset = a.bytes ∧
      (Search.ofName name h.bracketed).startsAt a.getLast? (h.pattern name ++ b) = true := by
  have hfinds := Search.finds_offsets (pattern_ne_nil hname h.bracketed) t
  obtain ⟨a, b, ht, ho, hstarts⟩ := hfinds.sound (h.mem_offsets hh)
  exact ⟨a, b, ht, ho, hstarts⟩

theorem Hit.range_eq {a b : Text} (ht : t = a ++ h.pattern name ++ b) (ho : h.offset = a.bytes) :
    h.range name t = ⟨a.position, (a ++ h.pattern name).position⟩ := by
  rw [Hit.range, Hit.stop, ho, ← bytes_append, ht]
  exact LineIndex.rangeOf_bytes a (h.pattern name) b

/-! ## Edits as splices -/

section Addressed

variable (ht : t.Addressable) (hname : isName name = true)

include ht hname

theorem Hit.start_le_iff (hh : h ∈ hits name t) (hk : k ∈ hits name t) :
    ((h.range name t).start ≤ (k.range name t).start ↔ h.offset ≤ k.offset) ∧
      ((h.range name t).start ≤ (k.range name t).stop ↔ h.offset ≤ k.stop name) := by
  have hne := ne_nil_of_isName hname
  obtain ⟨a, b, hlies, ho, _⟩ := h.lies hne hh
  obtain ⟨a', b', hlies', ho', _⟩ := k.lies hne hk
  rw [Hit.range_eq hlies ho, Hit.range_eq hlies' ho', Hit.stop, ho, ho', ← bytes_append]
  exact LineIndex.parts_le_iff ht hlies hlies'

theorem Hit.touches_iff (hh : h ∈ hits name t) (hk : k ∈ hits name t) :
    (h.range name t).touches (k.range name t) = true ↔
      h.offset ≤ k.stop name ∧ k.offset ≤ h.stop name := by
  have hne := ne_nil_of_isName hname
  obtain ⟨a, b, hlies, ho, _⟩ := h.lies hne hh
  obtain ⟨a', b', hlies', ho', _⟩ := k.lies hne hk
  rw [Hit.range_eq hlies ho, Hit.range_eq hlies' ho', Hit.stop, Hit.stop, ho, ho', ← bytes_append,
    ← bytes_append]
  exact LineIndex.parts_touch_iff ht hlies hlies'

/-- The text under the range of a found place is the pattern. -/
theorem Hit.slice?_range (hh : h ∈ hits name t) :
    (LineIndex.ofText t).slice? t (h.range name t) = some (h.pattern name) := by
  obtain ⟨a, b, hlies, ho, _⟩ := h.lies (ne_nil_of_isName hname) hh
  rw [Hit.range_eq hlies ho]
  rw [hlies] at ht ⊢
  exact LineIndex.slice?_positions ht

theorem Hit.spanOf?_range (hh : h ∈ hits name t) :
    (LineIndex.ofText t).spanOf? (h.range name t) = some (h.offset, h.stop name) := by
  obtain ⟨a, b, hlies, ho, _⟩ := h.lies (ne_nil_of_isName hname) hh
  rw [Hit.range_eq hlies ho, Hit.stop, ho, ← bytes_append]
  rw [hlies] at ht ⊢
  exact LineIndex.spanOf?_positions ht

/-- Whether brackets are put in goes by the text, and the text has brackets
where the second search found the name. -/
theorem replacement_range (newName : Text) (hh : h ∈ hits name t) :
    replacement (.ofText t) t newName (h.range name t) = h.newText newName := by
  rw [replacement, Hit.slice?_range ht hname hh, Option.any_some]
  obtain ⟨offset, bracketed⟩ := h
  cases bracketed with
  | true =>
    have hlast : (bracket name).getLast? = some '>' := List.getLast?_append_cons ('<' :: name) '>' []
    have hbracketed : isBracketed (bracket name) = true := by
      rw [isBracketed, hlast]
      rfl
    exact if_pos hbracketed
  | false =>
    have hbare : isBracketed name = false := by
      cases name with
      | nil => rfl
      | cons c w =>
        have hc : c ≠ '<' := by
          rintro rfl
          rw [isName, Bool.and_eq_true] at hname
          exact absurd hname.1 (by decide)
        simp [isBracketed, hc]
    exact if_neg (by rw [Bool.not_eq_true]; exact hbare)

theorem resolve?_range (newName : Text) (hh : h ∈ hits name t) :
    (LineIndex.ofText t).resolve? (h.edit name t newName) = some (h.splice name newName) := by
  simp only [LineIndex.resolve?, Hit.edit, Hit.spanOf?_range ht hname hh, Option.bind_eq_bind,
    Option.bind_some]
  rfl

end Addressed

/-! ## The chosen places -/

/-- Found places that are edited: they lie apart and in order, and each found
place starts in one of them or at its end. -/
structure Chosen (name t : Text) (chosen : List Hit) : Prop where
  subset : ∀ h ∈ chosen, h ∈ hits name t
  apart : chosen.Pairwise fun h k => h.stop name < k.offset
  covers : ∀ h ∈ hits name t, ∃ k ∈ chosen, k.offset ≤ h.offset ∧ h.offset ≤ k.stop name

theorem exists_map_eq {α β : Type} {f : α → β} {p : α → Prop} {ys : List β}
    (h : ∀ y ∈ ys, ∃ x, p x ∧ f x = y) : ∃ xs : List α, xs.map f = ys ∧ ∀ x ∈ xs, p x := by
  induction ys with
  | nil => exact ⟨[], rfl, by simp⟩
  | cons y ys ih =>
    obtain ⟨xs, hxs, hp⟩ := ih fun z hz => h z (List.mem_cons_of_mem _ hz)
    obtain ⟨x, hx, hfx⟩ := h y List.mem_cons_self
    refine ⟨x :: xs, by rw [List.map_cons, hfx, hxs], ?_⟩
    intro z hz
    rcases List.mem_cons.mp hz with rfl | hz
    · exact hx
    · exact hp z hz

/-- The plan edits chosen places. -/
theorem planEdits_chosen (ht : t.Addressable) (hname : isName name = true) :
    ∃ chosen, Chosen name t chosen ∧ ∀ uri newName,
      planEdits t (scanReferences uri t name) newName = chosen.map (Hit.edit name t newName) := by
  obtain ⟨chosen, hmap, hsubset⟩ : ∃ chosen : List Hit,
      chosen.map (Hit.range name t) = select ((hits name t).map (Hit.range name t)) ∧
        ∀ h ∈ chosen, h ∈ hits name t := by
    apply exists_map_eq
    intro r hr
    obtain ⟨h, hh, rfl⟩ := List.mem_map.mp (select_subset hr)
    exact ⟨h, hh, rfl⟩
  have hsorted := select_sorted ((hits name t).map (Hit.range name t))
  have hpairwise := select_pairwise ((hits name t).map (Hit.range name t))
  rw [← hmap, List.pairwise_map] at hsorted hpairwise
  have hapart : chosen.Pairwise fun h k => h.stop name < k.offset := by
    refine (hsorted.and hpairwise).imp_of_mem ?_
    intro h k hh hk ⟨hle, hfree⟩
    rw [(Hit.start_le_iff ht hname (hsubset h hh) (hsubset k hk)).1] at hle
    rw [← Bool.not_eq_true, Hit.touches_iff ht hname (hsubset h hh) (hsubset k hk)] at hfree
    have hstop : k.offset ≤ k.stop name := Nat.le_add_right _ _
    omega
  refine ⟨chosen, ⟨hsubset, hapart, ?_⟩, ?_⟩
  · intro h hh
    rcases select_covers (List.mem_map_of_mem hh) with hsel | ⟨r, hr, htouch, hle⟩
    · rw [← hmap] at hsel
      obtain ⟨k, hk, hkr⟩ := List.mem_map.mp hsel
      have hkh := (Hit.start_le_iff ht hname (hsubset k hk) hh).1
      have hhk := (Hit.start_le_iff ht hname hh (hsubset k hk)).1
      rw [hkr, Position.le_def] at hkh hhk
      have hstop : k.offset ≤ k.stop name := Nat.le_add_right _ _
      exact ⟨k, hk, hkh.mp (Nat.le_refl _), Nat.le_trans (hhk.mp (Nat.le_refl _)) hstop⟩
    · rw [← hmap] at hr
      obtain ⟨k, hk, rfl⟩ := List.mem_map.mp hr
      rw [(Hit.start_le_iff ht hname (hsubset k hk) hh).1] at hle
      rw [Hit.touches_iff ht hname hh (hsubset k hk)] at htouch
      exact ⟨k, hk, hle, htouch.1⟩
  · intro uri newName
    have hranges : (scanReferences uri t name).map (fun r => r.location.range) =
        (hits name t).map (Hit.range name t) := by
      rw [scanReferences_hits uri t (ne_nil_of_isName hname), List.map_map]
      rfl
    rw [planEdits, hranges, ← hmap, List.map_map]
    refine List.map_congr_left ?_
    intro h hh
    rw [Function.comp_apply, replacement_range ht hname newName (hsubset h hh), Hit.edit]

/-- To apply the edits of chosen places is to splice the new name in there. -/
theorem Chosen.applyEdits_eq {chosen : List Hit} (hchosen : Chosen name t chosen) (ht : t.Addressable)
    (hname : isName name = true) (newName : Text) :
    t.applyEdits (chosen.map (Hit.edit name t newName)) =
      t.spliceFrom 0 (chosen.map (Hit.splice name newName)) := by
  rw [applyEdits, LineIndex.splices_of_sorted (.ofText t) chosen _ (Hit.splice name newName)]
  · intro h hh
    exact resolve?_range ht hname newName (hchosen.subset h hh)
  · refine hchosen.apart.imp ?_
    intro h k hlt
    have hstop : h.offset ≤ h.stop name := Nat.le_add_right _ _
    simp only [Hit.splice]
    omega

/-! ## What the edits do -/

section Edits

variable {chosen : List Hit} (ht : t.Addressable) (hname : isName name = true)

include ht hname

/-- The edits come in order, and no two of them touch. -/
theorem Chosen.edits_apart (hchosen : Chosen name t chosen) (newName : Text) :
    (chosen.map (Hit.edit name t newName)).Pairwise fun e f =>
      e.range.start < f.range.start ∧ e.range.touches f.range = false := by
  rw [List.pairwise_map]
  refine hchosen.apart.imp_of_mem ?_
  intro h k hh hk hlt
  have hh := hchosen.subset h hh
  have hk := hchosen.subset k hk
  have hstop : h.offset ≤ h.stop name := Nat.le_add_right _ _
  simp only [Hit.edit]
  constructor
  · rw [Position.lt_def, ← Nat.not_le, ← Position.le_def, (Hit.start_le_iff ht hname hk hh).1]
    omega
  · rw [← Bool.not_eq_true, Hit.touches_iff ht hname hh hk]
    omega

/-- Under each edit stands the old name, and the new one takes its place; or both
stand in brackets. -/
theorem Hit.edit_cases (newName : Text) (hh : h ∈ hits name t) :
    (LineIndex.ofText t).slice? t (h.edit name t newName).range = some name ∧
        (h.edit name t newName).newText = newName ∨
      (LineIndex.ofText t).slice? t (h.edit name t newName).range = some (bracket name) ∧
        (h.edit name t newName).newText = bracket newName := by
  have hslice := Hit.slice?_range ht hname hh
  obtain ⟨offset, bracketed⟩ := h
  cases bracketed with
  | false => exact Or.inl ⟨hslice, rfl⟩
  | true => exact Or.inr ⟨hslice, rfl⟩

/-- The edits replace what stands under their ranges, and nothing else. -/
theorem Chosen.replaced (hchosen : Chosen name t chosen) (newName : Text) :
    Replaced (.ofText t) [] (chosen.map (Hit.edit name t newName)) t
      (t.applyEdits (chosen.map (Hit.edit name t newName))) := by
  rw [hchosen.applyEdits_eq ht hname]
  apply replaced_spliceFrom (a := []) (.ofText t) chosen (Hit.edit name t newName)
    (Hit.splice name newName)
  · exact fun h hh => resolve?_range ht hname newName (hchosen.subset h hh)
  · intro h hh
    obtain ⟨a, b, hlies, ho, _⟩ := h.lies (ne_nil_of_isName hname) (hchosen.subset h hh)
    refine ⟨a, h.pattern name, b, hlies, ho, ?_⟩
    rw [bytes_append, ← ho]
    rfl
  · exact hchosen.apart.imp fun hlt => Nat.le_of_lt hlt
  · exact fun h _ => Nat.zero_le h.offset

end Edits

end AbnfServer.Rule
