-- Which occurrences a rename reaches. An occurrence is left alone only when it
-- starts where an edit ends, and one in brackets only when the name in it ends
-- in a hyphen, so that no word search finds it there.
import AbnfServer.Proofs.Rule.Rewriting

namespace AbnfServer

/-- A range that takes in another one. -/
def Range.Covers (a b : Range) : Prop := a.start ≤ b.start ∧ b.stop ≤ a.stop

instance (a b : Range) : Decidable (a.Covers b) :=
  inferInstanceAs (Decidable (a.start ≤ b.start ∧ b.stop ≤ a.stop))

namespace Rule

open Text

/-- The range of the name itself: without the brackets, one column each. -/
def Reference.nameRange (r : Reference) : Range :=
  let ⟨start, stop⟩ := r.location.range
  if r.bracketed then
    ⟨⟨start.line, start.character + 1⟩, ⟨stop.line, stop.character - 1⟩⟩
  else ⟨start, stop⟩

variable {name t : Text} {h k : Hit} {chosen : List Hit}

/-! ## The name in an occurrence -/

theorem pattern_bracketed (hb : h.bracketed = true) : h.pattern name = ['<'] ++ name ++ ['>'] := by
  rw [Hit.pattern, hb]
  rfl

theorem pattern_bare (hb : h.bracketed = false) : h.pattern name = name := by
  rw [Hit.pattern, hb]
  rfl

theorem inner_bracketed (hb : h.bracketed = true) : h.inner = h.offset + 1 := by
  rw [Hit.inner, if_pos hb]

theorem inner_bare (hb : h.bracketed = false) : h.inner = h.offset := by
  rw [Hit.inner, hb]
  rfl

theorem stop_bracketed (hb : h.bracketed = true) : h.stop name = h.inner + name.bytes + 1 := by
  have hopen : bytes ['<'] = 1 := rfl
  have hclose : bytes ['>'] = 1 := rfl
  rw [Hit.stop, pattern_bracketed hb, inner_bracketed hb, bytes_append, bytes_append]
  omega

theorem stop_bare (hb : h.bracketed = false) : h.stop name = h.inner + name.bytes := by
  rw [Hit.stop, pattern_bare hb, inner_bare hb]

theorem position_push (a : Text) {c : Char} (hc : place [c] = (0, 1)) :
    (a ++ [c]).position = ⟨a.position.line, a.position.character + 1⟩ := by
  rw [position, place_append, hc]
  simp [position, Position.ofNat]

/-- The name in an occurrence stands at its inner offset, and its range is the
name range of the reference. -/
theorem Hit.inner_lies (hname : name ≠ []) (uri : String) (hh : h ∈ hits name t) :
    ∃ a b, t = a ++ name ++ b ∧ h.inner = a.bytes ∧
      Reference.nameRange ⟨⟨uri, h.range name t⟩, h.bracketed⟩ = ⟨a.position, (a ++ name).position⟩ := by
  obtain ⟨a, b, hlies, ho, _⟩ := h.lies hname hh
  rw [Hit.range_eq hlies ho]
  by_cases hb : h.bracketed = true
  · rw [pattern_bracketed hb] at hlies ⊢
    refine ⟨a ++ ['<'], '>' :: b, by simp [hlies], ?_, ?_⟩
    · rw [inner_bracketed hb, ho, bytes_append]
      rfl
    · have hcut : a ++ (['<'] ++ name ++ ['>']) = a ++ ['<'] ++ name ++ ['>'] := by simp
      rw [hcut, position_push (a ++ ['<'] ++ name) rfl, position_push a rfl]
      simp [Reference.nameRange, hb]
  · rw [Bool.not_eq_true] at hb
    rw [pattern_bare hb] at hlies ⊢
    refine ⟨a, b, hlies, by rw [inner_bare hb, ho], ?_⟩
    simp [Reference.nameRange, hb]

/-! ## Two occurrences that overlap -/

section Overlap

variable (hname : isName name = true)

include hname

theorem not_mem_name {c : Char} (hc : isNameChar c = false) : c ∉ name := by
  intro hmem
  rw [isNameChar_of_mem hname hmem] at hc
  cases hc

/-- Occurrences of one kind do not overlap. -/
theorem Hit.eq_or_stop_le (hh : h ∈ hits name t) (hk : k ∈ hits name t)
    (hkind : k.bracketed = h.bracketed) (hle : k.offset ≤ h.offset) :
    k = h ∨ k.stop name ≤ h.offset := by
  rcases Nat.lt_or_eq_of_le hle with hlt | heq
  · right
    have hfinds := Search.finds_offsets (pattern_ne_nil (ne_nil_of_isName hname) h.bracketed) t
    have hgap := hfinds.gap (hkind ▸ k.mem_offsets hk) (h.mem_offsets hh) hlt
    rw [Hit.stop, Hit.pattern, hkind]
    exact hgap
  · left
    obtain ⟨ko, kb⟩ := k
    obtain ⟨ho, hb⟩ := h
    simp only at hkind heq
    rw [hkind, heq]

/-- An occurrence with an opening bracket starts inside no other one. -/
theorem Hit.eq_of_overlap (hh : h ∈ hits name t) (hk : k ∈ hits name t) (hb : h.bracketed = true)
    (hle : k.offset ≤ h.offset) (hlt : h.offset < k.stop name) : k = h := by
  by_cases hkb : k.bracketed = true
  · rcases Hit.eq_or_stop_le hname hh hk (hkb.trans hb.symm) hle with heq | hstop
    · exact heq
    · omega
  · exfalso
    rw [Bool.not_eq_true] at hkb
    obtain ⟨a, b, hlies, ho, _⟩ := h.lies (ne_nil_of_isName hname) hh
    obtain ⟨a', b', hlies', ho', _⟩ := k.lies (ne_nil_of_isName hname) hk
    rw [pattern_bracketed hb] at hlies
    rw [Hit.stop, pattern_bare hkb] at hlt
    rw [pattern_bare hkb] at hlies'
    apply not_mem_name hname (c := '<') (by decide)
    apply mem_of_bytes_lt (show a' ++ name ++ b' = a ++ '<' :: (name ++ '>' :: b) by
      rw [← hlies', hlies]
      simp) (by omega)
    rw [bytes_append]
    omega

/-- A bare occurrence that starts inside another one ends inside it. -/
theorem Hit.stop_le_of_overlap (hh : h ∈ hits name t) (hk : k ∈ hits name t)
    (hb : h.bracketed = false) (hle : k.offset ≤ h.offset) (hlt : h.offset < k.stop name) :
    h.stop name ≤ k.stop name := by
  by_cases hkb : k.bracketed = true
  · -- else the closing bracket would stand in the name
    apply Nat.le_of_not_lt
    intro hover
    obtain ⟨a, b, hlies, ho, _⟩ := h.lies (ne_nil_of_isName hname) hh
    obtain ⟨a', b', hlies', ho', _⟩ := k.lies (ne_nil_of_isName hname) hk
    rw [pattern_bracketed hkb] at hlies'
    rw [stop_bracketed hkb, inner_bracketed hkb] at hlt hover
    rw [Hit.stop, pattern_bare hb] at hover
    rw [pattern_bare hb] at hlies
    have hopen : bytes ['<'] = 1 := rfl
    apply not_mem_name hname (c := '>') (by decide)
    apply mem_of_bytes_lt (show a ++ name ++ b = (a' ++ ['<'] ++ name) ++ '>' :: b' by
      rw [← hlies, hlies']
      simp)
    · rw [bytes_append, bytes_append]
      omega
    · rw [bytes_append, bytes_append, bytes_append]
      omega
  · rw [Bool.not_eq_true] at hkb
    rcases Hit.eq_or_stop_le hname hh hk (hkb.trans hb.symm) hle with heq | hstop
    · exact Nat.le_of_eq (congrArg (Hit.stop name) heq.symm)
    · omega

/-! ## What is reached -/

/-- A chosen place takes in the name of an occurrence. -/
def Hit.Reached (name : Text) (chosen : List Hit) (h : Hit) : Prop :=
  ∃ k ∈ chosen, k.offset ≤ h.inner ∧ h.inner + name.bytes ≤ k.stop name

/-- A chosen place ends where an occurrence starts. -/
def Hit.Behind (name : Text) (chosen : List Hit) (h : Hit) : Prop :=
  ∃ k ∈ chosen, k.stop name = h.offset

omit hname in
theorem Hit.inner_add_le_stop (name : Text) (h : Hit) : h.inner + name.bytes ≤ h.stop name := by
  by_cases hb : h.bracketed = true
  · have hstop : h.stop name = h.inner + name.bytes + 1 := stop_bracketed hb
    omega
  · rw [Bool.not_eq_true] at hb
    exact Nat.le_of_eq (stop_bare hb).symm

omit hname in
theorem Chosen.eq_or_apart (hchosen : Chosen name t chosen) {j : Hit} (hj : j ∈ chosen)
    (hk : k ∈ chosen) : j = k ∨ j.stop name < k.offset ∨ k.stop name < j.offset := by
  have hall : ∀ j ∈ chosen, ∀ k ∈ chosen, j = k ∨ j.stop name < k.offset ∨ k.stop name < j.offset := by
    apply List.Pairwise.forall_of_forall_of_flip
    · exact fun _ _ => Or.inl rfl
    · exact hchosen.apart.imp fun hlt => Or.inr (Or.inl hlt)
    · exact hchosen.apart.imp fun hlt => Or.inr (Or.inr hlt)
  exact hall j hj k hk

/-- What does not start at the end of a chosen place is reached: either it is
chosen, or it is the name in a chosen pair of brackets. -/
theorem Chosen.reached_of_not_behind (hchosen : Chosen name t chosen) (hh : h ∈ hits name t)
    (hfree : ¬ h.Behind name chosen) : h.Reached name chosen := by
  obtain ⟨k, hk, hle, hstop⟩ := hchosen.covers h hh
  have hlt : h.offset < k.stop name :=
    Nat.lt_of_le_of_ne hstop fun heq => hfree ⟨k, hk, heq.symm⟩
  by_cases hb : h.bracketed = true
  · rw [Hit.eq_of_overlap hname hh (hchosen.subset k hk) hb hle hlt] at hk
    exact ⟨h, hk, (h.inner_bounds name).1, h.inner_add_le_stop name⟩
  · rw [Bool.not_eq_true] at hb
    have hend := Hit.stop_le_of_overlap hname hh (hchosen.subset k hk) hb hle hlt
    rw [stop_bare hb] at hend
    refine ⟨k, hk, ?_, hend⟩
    rw [inner_bare hb]
    exact hle

omit hname in
/-- What reaches an occurrence that starts at the end of a chosen place starts
at the name in it. -/
theorem Chosen.offset_of_behind (hname : name ≠ []) (hchosen : Chosen name t chosen)
    (hbehind : h.Behind name chosen) {j : Hit} (hj : j ∈ chosen)
    (hreach : h.inner + name.bytes ≤ j.stop name) : h.offset < j.offset := by
  obtain ⟨k, hk, hstop⟩ := hbehind
  have hpos := bytes_pos hname
  have hinner := (h.inner_bounds name).1
  have hkle : k.offset ≤ k.stop name := Nat.le_add_right _ _
  rcases hchosen.eq_or_apart hj hk with rfl | hlt | hgt
  · omega
  · omega
  · omega

theorem Chosen.not_reached_bare (hchosen : Chosen name t chosen) (hb : h.bracketed = false)
    (hbehind : h.Behind name chosen) : ¬ h.Reached name chosen := by
  rintro ⟨j, hj, hle, hreach⟩
  have hlt := hchosen.offset_of_behind (ne_nil_of_isName hname) hbehind hj hreach
  rw [inner_bare hb] at hle
  omega

/-- Behind a last hyphen the closing bracket starts no word, so the name in the
brackets is found by no other search. -/
theorem Chosen.not_reached_hyphen (hchosen : Chosen name t chosen) (hh : h ∈ hits name t)
    (hb : h.bracketed = true) (hlast : name.getLast? = some '-') (hbehind : h.Behind name chosen) :
    ¬ h.Reached name chosen := by
  rintro ⟨j, hj, hle, hreach⟩
  have hne := ne_nil_of_isName hname
  have hlt := hchosen.offset_of_behind hne hbehind hj hreach
  rw [inner_bracketed hb] at hle
  obtain ⟨a, b, hlies, ho, _⟩ := h.lies hne hh
  obtain ⟨a', b', hlies', ho', hstarts⟩ := j.lies hne (hchosen.subset j hj)
  have hsame : a'.bytes = (a ++ ['<']).bytes := by
    have hopen : bytes ['<'] = 1 := rfl
    rw [bytes_append]
    omega
  rw [pattern_bracketed hb] at hlies
  have hcut : a' ++ (j.pattern name ++ b') = a ++ ['<'] ++ (name ++ '>' :: b) := by
    rw [← List.append_assoc, ← hlies', hlies]
    simp
  obtain ⟨_, hrest⟩ := append_of_bytes_eq hcut hsame
  obtain ⟨c, w, hcw, hc⟩ := exists_head_of_isName hname
  by_cases hjb : j.bracketed = true
  · rw [pattern_bracketed hjb, hcw] at hrest
    simp only [List.cons_append, List.nil_append, List.cons.injEq] at hrest
    rw [← hrest.1] at hc
    exact absurd hc (by decide)
  · rw [Bool.not_eq_true] at hjb
    rw [pattern_bare hjb] at hrest hstarts
    rw [List.append_cancel_left hrest, hjb] at hstarts
    have hbound := Search.startsAt_pattern (Search.ofName name false) a'.getLast? ('>' :: b)
    have hclose : isBoundary (some '-') (some '>') = false := by decide
    simp only [Search.ofName, Bool.false_eq_true, if_false, List.head?_cons, hlast, hclose,
      Bool.and_false, Bool.not_true, Bool.or_false] at hbound hstarts
    rw [hbound] at hstarts
    cases hstarts

/-- A word in brackets is found by both searches, and the two occurrences do not
start at one place. -/
theorem Chosen.reached_bracketed (hchosen : Chosen name t chosen) (hh : h ∈ hits name t)
    (hb : h.bracketed = true) (hlast : name.getLast? ≠ some '-') : h.Reached name chosen := by
  have hinner : (⟨h.inner, false⟩ : Hit) ∈ hits name t :=
    List.mem_append_left _ (List.mem_map_of_mem (inner_mem_wordOffsets ⟨hname, hlast⟩ hh))
  apply hchosen.reached_of_not_behind hname hinner
  rintro ⟨k, hk, hstop⟩
  have hkstop : h.offset < k.stop name := by
    rw [hstop, inner_bracketed hb]
    exact Nat.lt_succ_self _
  have hpos := bytes_pos (pattern_ne_nil (ne_nil_of_isName hname) k.bracketed)
  have hkle : k.offset ≤ h.offset := by
    simp only [Hit.stop, Hit.pattern, inner_bracketed hb] at hstop
    omega
  have heq := Hit.eq_of_overlap hname hh (hchosen.subset k hk) hb hkle hkstop
  rw [heq, stop_bracketed hb] at hstop
  simp only at hstop
  omega

/-- What a rename reaches: every occurrence that does not start at the end of a
chosen place, and every bracketed one of a name that does not end in a hyphen. -/
theorem Chosen.reached_iff (hchosen : Chosen name t chosen) (hh : h ∈ hits name t) :
    h.Reached name chosen ↔
      ¬ h.Behind name chosen ∨ h.bracketed = true ∧ name.getLast? ≠ some '-' := by
  constructor
  · intro hreached
    by_cases hbehind : h.Behind name chosen
    · right
      have hb : h.bracketed = true := by
        by_contra hb
        exact hchosen.not_reached_bare hname (Bool.eq_false_iff.mpr hb) hbehind hreached
      refine ⟨hb, ?_⟩
      intro hlast
      exact hchosen.not_reached_hyphen hname hh hb hlast hbehind hreached
    · exact Or.inl hbehind
  · rintro (hfree | ⟨hb, hlast⟩)
    · exact hchosen.reached_of_not_behind hname hh hfree
    · exact hchosen.reached_bracketed hname hh hb hlast

end Overlap

/-! ## The edits of a plan -/

section Edits

variable (ht : t.Addressable) (hname : isName name = true)

include ht hname

theorem Hit.covers_iff (uri : String) (hh : h ∈ hits name t) (hk : k ∈ hits name t) :
    (k.range name t).Covers (Reference.nameRange ⟨⟨uri, h.range name t⟩, h.bracketed⟩) ↔
      k.offset ≤ h.inner ∧ h.inner + name.bytes ≤ k.stop name := by
  have hne := ne_nil_of_isName hname
  obtain ⟨a, b, hcut, ha, hrange⟩ := h.inner_lies hne uri hh
  obtain ⟨a', b', hlies, ho, _⟩ := k.lies hne hk
  have hcut₁ : t = a ++ (name ++ b) := by rw [hcut, List.append_assoc]
  have hlies₁ : t = a' ++ (k.pattern name ++ b') := by rw [hlies, List.append_assoc]
  rw [hrange, Hit.range_eq hlies ho, Range.Covers, LineIndex.position_le_iff ht hlies₁ hcut₁,
    LineIndex.position_le_iff ht hcut hlies, Hit.stop, ha, ho, bytes_append, bytes_append]

theorem Hit.stop_eq_start_iff (hh : h ∈ hits name t) (hk : k ∈ hits name t) :
    (k.range name t).stop = (h.range name t).start ↔ k.stop name = h.offset := by
  have hne := ne_nil_of_isName hname
  obtain ⟨a, b, hlies, ho, _⟩ := h.lies hne hh
  obtain ⟨a', b', hlies', ho', _⟩ := k.lies hne hk
  have hcut : t = a ++ (h.pattern name ++ b) := by rw [hlies, List.append_assoc]
  rw [Hit.range_eq hlies ho, Hit.range_eq hlies' ho', LineIndex.position_eq_iff ht hlies' hcut,
    Hit.stop, ho, ho', bytes_append]

/-- Which of the found references the planned edits cover. -/
theorem planEdits_covers_iff (uri : String) (newName : Text) {r : Reference}
    (hr : r ∈ scanReferences uri t name) :
    (∃ e ∈ planEdits t (scanReferences uri t name) newName, e.range.Covers r.nameRange) ↔
      (¬ ∃ e ∈ planEdits t (scanReferences uri t name) newName, e.range.stop = r.location.range.start) ∨
        r.bracketed = true ∧ name.getLast? ≠ some '-' := by
  obtain ⟨chosen, hchosen, hplan⟩ := planEdits_chosen ht hname
  rw [scanReferences_hits uri t (ne_nil_of_isName hname)] at hr
  obtain ⟨h, hh, rfl⟩ := List.mem_map.mp hr
  have hcovers : (∃ e ∈ chosen.map (Hit.edit name t newName),
      e.range.Covers (Reference.nameRange ⟨⟨uri, h.range name t⟩, h.bracketed⟩)) ↔
        h.Reached name chosen := by
    simp only [List.mem_map, exists_exists_and_eq_and]
    refine exists_congr fun k => and_congr_right fun hk => ?_
    exact Hit.covers_iff ht hname uri hh (hchosen.subset k hk)
  have hends : (∃ e ∈ chosen.map (Hit.edit name t newName), e.range.stop = (h.range name t).start) ↔
      h.Behind name chosen := by
    simp only [List.mem_map, exists_exists_and_eq_and]
    refine exists_congr fun k => and_congr_right fun hk => ?_
    exact Hit.stop_eq_start_iff ht hname hh (hchosen.subset k hk)
  rw [hplan, hcovers, hends]
  exact hchosen.reached_iff hname hh

end Edits

end Rule

end AbnfServer
