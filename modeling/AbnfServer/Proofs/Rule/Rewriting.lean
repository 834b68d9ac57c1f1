-- A renamed text: from left to right, each place at which the word search finds
-- the old name has the new name instead. Only behind a closing bracket may the
-- old name stay, because there it touches what the bracket search found.
import AbnfServer.Proofs.Rule.Plan

namespace AbnfServer.Rule

open Text

/-! ## Names as words -/

/-- A name as the word search takes it: it starts and ends with a word character. -/
structure IsWord (name : Text) : Prop where
  isName : isName name = true
  last : name.getLast? ≠ some '-'

variable {name newName a b g t u : Text} {before : Option Char}

theorem isWordChar_of_isAlpha {c : Char} (h : c.isAlpha = true) : isWordChar c = true := by
  simp [isWordChar, Char.isAlphanum, h]

namespace IsWord

variable (hname : IsWord name)

include hname

theorem ne_nil : name ≠ [] := ne_nil_of_isName hname.isName

theorem last_isWordChar : name.getLast?.any isWordChar = true := by
  obtain ⟨c, hc⟩ := Option.ne_none_iff_exists'.mp (mt List.getLast?_eq_none_iff.mp hname.ne_nil)
  have hchar := isNameChar_of_mem hname.isName (List.mem_of_getLast? hc)
  have hne : c ≠ '-' := by
    rintro rfl
    exact hname.last hc
  rw [hc, Option.any_some, isWordChar]
  simpa [isNameChar, hne] using Or.inl hchar

/-- The word search finds a name between two characters of no word. -/
theorem startsAt_iff (before : Option Char) (t : Text) :
    (Search.ofName name false).startsAt before (name ++ t) = true ↔
      before.any isWordChar = false ∧ t.head?.any isWordChar = false := by
  have hstarts := Search.startsAt_pattern (Search.ofName name false) before t
  obtain ⟨c, w, hcw, hc⟩ := exists_head_of_isName hname.isName
  have hhead : name.head?.any isWordChar = true := by
    rw [hcw]
    exact isWordChar_of_isAlpha hc
  simp only [Search.ofName, Bool.false_eq_true, if_false, isBoundary, hhead,
    hname.last_isWordChar] at hstarts ⊢
  rw [hstarts]
  simp

end IsWord

/-! ## Renamed texts -/

/-- A text that stands behind the character `before`, and what a rename makes of it. -/
inductive Renamed (name newName : Text) : Option Char → Text → Text → Prop
  | nil (before : Option Char) : Renamed name newName before [] []
  | keep {before : Option Char} {c : Char} {t u : Text} :
      (Search.ofName name false).startsAt before (c :: t) = false →
      Renamed name newName (some c) t u → Renamed name newName before (c :: t) (c :: u)
  | swap {before : Option Char} {t u : Text} :
      (Search.ofName name false).startsAt before (name ++ t) = true →
      Renamed name newName name.getLast? t u →
      Renamed name newName before (name ++ t) (newName ++ u)
  | pass {t u : Text} :
      (Search.ofName name false).startsAt (some '>') (name ++ t) = true →
      Renamed name newName name.getLast? t u →
      Renamed name newName (some '>') (name ++ t) (name ++ u)

/-! ## Chosen places inside the brackets -/

/-- Where the name itself starts at a found place. -/
def Hit.inner (h : Hit) : Nat := if h.bracketed then h.offset + 1 else h.offset

/-- The splice that puts a new name in the place of one at an offset. -/
def nameSplice (name newName : Text) (o : Nat) : Splice := ⟨o, o + name.bytes, newName⟩

theorem bytes_bracket (name : Text) : (bracket name).bytes = name.bytes + 2 := by
  have hopen : Char.utf8Size '<' = 1 := rfl
  have hclose : Char.utf8Size '>' = 1 := rfl
  simp only [bracket, bytes_append, bytes, List.cons_append, hopen, hclose]
  omega

theorem Hit.inner_bounds (name : Text) (h : Hit) : h.offset ≤ h.inner ∧ h.inner ≤ h.stop name := by
  obtain ⟨o, bracketed⟩ := h
  cases bracketed with
  | false => exact ⟨Nat.le_refl o, Nat.le_add_right _ _⟩
  | true =>
    have hsize := bytes_bracket name
    simp only [inner, stop, pattern, Search.ofName, if_true, hsize]
    omega

/-- The brackets of a place may be left out of its splice. -/
theorem spliceFrom_inner {chosen : List Hit} (hname : name ≠ []) (newName : Text)
    (hsubset : ∀ h ∈ chosen, h ∈ hits name t)
    (hapart : chosen.Pairwise fun h k => h.stop name < k.offset)
    (ht : t = a ++ b) (hstart : ∀ h ∈ chosen, a.bytes ≤ h.offset) :
    t.spliceFrom a.bytes (chosen.map (Hit.splice name newName)) =
      t.spliceFrom a.bytes (chosen.map fun h => nameSplice name newName h.inner) := by
  induction chosen generalizing a b with
  | nil => rfl
  | cons h hs ih =>
    obtain ⟨hlater, hrest⟩ := List.pairwise_cons.mp hapart
    obtain ⟨p, q, hlies, ho, _⟩ := h.lies hname (hsubset h List.mem_cons_self)
    have hle := hstart h List.mem_cons_self
    rw [ho] at hle
    obtain ⟨g, rfl, _⟩ := append_of_bytes_le
      (show a ++ b = p ++ (h.pattern name ++ q) by rw [← ht, hlies, List.append_assoc]) hle
    have hstop : h.stop name = (a ++ g ++ h.pattern name).bytes := by
      rw [Hit.stop, ho, ← bytes_append]
    have htail := ih (fun k hk => hsubset k (List.mem_cons_of_mem _ hk)) hrest hlies
      (by
        intro k hk
        have := hlater k hk
        omega)
    rw [← hstop] at htail
    have hcut : t = a ++ g ++ (h.pattern name ++ q) := by rw [hlies, List.append_assoc]
    have hkeep : t.spliceFrom a.bytes (h.splice name newName :: hs.map (Hit.splice name newName)) =
        t.spliceFrom a.bytes
          (h.splice name newName :: hs.map fun k => nameSplice name newName k.inner) := by
      rw [Hit.splice, ho]
      exact (spliceFrom_put hcut _ _ _).trans
        ((congrArg _ htail).trans (spliceFrom_put hcut _ _ _).symm)
    rw [List.map_cons, List.map_cons, hkeep]
    obtain ⟨o, bracketed⟩ := h
    simp only at ho
    subst ho
    cases bracketed with
    | false => rfl
    | true =>
      have hbrackets : t = a ++ g ++ ['<'] ++ name ++ ['>'] ++ q := by
        rw [hlies]
        simp [Hit.pattern, Search.ofName, bracket]
      have hend : Hit.stop name ⟨(a ++ g).bytes, true⟩ = (a ++ g ++ ['<'] ++ name ++ ['>']).bytes := by
        rw [hstop]
        simp [Hit.pattern, Search.ofName, bracket]
      have hopen : (a ++ g).bytes + 1 = (a ++ g ++ ['<']).bytes := (bytes_append (a ++ g) ['<']).symm
      have hlater' : ∀ s ∈ hs.map (fun h => nameSplice name newName h.inner),
          (a ++ g ++ ['<'] ++ name ++ ['>']).bytes ≤ s.start := by
        intro s hs
        obtain ⟨k, hk, rfl⟩ := List.mem_map.mp hs
        rw [← hend]
        exact Nat.le_trans (Nat.le_of_lt (hlater k hk)) (k.inner_bounds name).1
      have hshort := spliceFrom_shorten hbrackets newName hlater'
      rw [← hend, ← hopen, bytes_append _ name, ← hopen] at hshort
      exact hshort

/-! ## Which names are replaced -/

/-- The offsets at which the word search finds a name. -/
def wordOffsets (name t : Text) : List Nat := (Search.ofName name false).offsets t

section Word

variable (hname : IsWord name)

include hname

theorem finds_words (t : Text) : (Search.ofName name false).Finds [] t (wordOffsets name t) :=
  Search.finds_offsets hname.ne_nil t

/-- At each offset the name stands between two characters of no word. -/
theorem wordOffsets_sound {o : Nat} (ho : o ∈ wordOffsets name t) :
    ∃ a b, t = a ++ name ++ b ∧ o = a.bytes ∧
      a.getLast?.any isWordChar = false ∧ b.head?.any isWordChar = false := by
  obtain ⟨a, b, ht, ho, hstarts⟩ := (finds_words hname t).sound ho
  obtain ⟨hleft, hright⟩ := (hname.startsAt_iff _ b).mp hstarts
  exact ⟨a, b, ht, ho, hleft, hright⟩

/-- Found words have something between them. -/
theorem wordOffsets_gap {o o' : Nat} (ho : o ∈ wordOffsets name t) (ho' : o' ∈ wordOffsets name t)
    (hlt : o < o') : o + name.bytes < o' := by
  have hle : o + name.bytes ≤ o' := (finds_words hname t).gap ho ho' hlt
  obtain ⟨a, b, ht, rfl, _, _⟩ := wordOffsets_sound hname ho
  obtain ⟨a', b', ht', rfl, hleft', _⟩ := wordOffsets_sound hname ho'
  refine Nat.lt_of_le_of_ne hle ?_
  intro heq
  rw [← bytes_append] at heq
  obtain ⟨rfl, _⟩ := append_of_bytes_eq
    (show a ++ name ++ b = a' ++ (name ++ b') by rw [← ht, ht', List.append_assoc]) heq
  rw [List.getLast?_append_of_ne_nil a hname.ne_nil, hname.last_isWordChar] at hleft'
  cases hleft'

/-- What the bracket search finds has a word in it that the word search finds. -/
theorem inner_mem_wordOffsets {h : Hit} (hh : h ∈ hits name t) : h.inner ∈ wordOffsets name t := by
  obtain ⟨o, bracketed⟩ := h
  cases bracketed with
  | false => exact Hit.mem_offsets _ hh
  | true =>
    obtain ⟨a, b, hlies, ho, _⟩ := Hit.lies hname.ne_nil _ hh
    have hbrackets : t = a ++ ['<'] ++ name ++ ('>' :: b) := by
      rw [hlies]
      simp [Hit.pattern, Search.ofName, bracket]
    have hinner : Hit.inner ⟨o, true⟩ = (a ++ ['<']).bytes := by
      rw [bytes_append]
      exact congrArg (· + 1) ho
    have hstarts : (Search.ofName name false).startsAt (a ++ ['<']).getLast? (name ++ '>' :: b) = true := by
      refine (hname.startsAt_iff _ _).mpr ⟨?_, rfl⟩
      rw [List.getLast?_append_cons]
      rfl
    rw [hinner]
    rcases (finds_words hname t).complete hname.ne_nil hbrackets hstarts with hfound | hover
    · exact hfound
    · -- a word found before would reach over the opening bracket
      exfalso
      obtain ⟨o', ho', hlt, hgt⟩ := hover
      obtain ⟨a', b', ht', rfl, _, _⟩ := wordOffsets_sound hname ho'
      have hsize : (a ++ ['<']).bytes = a.bytes + 1 := bytes_append a ['<']
      have hpattern : (Search.ofName name false).pattern.bytes = name.bytes := rfl
      rw [List.nil_append, hsize] at hlt hgt
      have hmem : '<' ∈ name := by
        apply mem_of_bytes_lt (show a' ++ name ++ b' = a ++ '<' :: (name ++ '>' :: b) by
          rw [← ht', hbrackets]
          simp) (by omega)
        rw [bytes_append]
        omega
      exact absurd (isNameChar_of_mem hname.isName hmem) (by decide)

/-- A word that stays stands behind a closing bracket. -/
theorem Chosen.inner_or_close {chosen : List Hit} (hchosen : Chosen name t chosen) {o : Nat}
    (ho : o ∈ wordOffsets name t) :
    o ∈ chosen.map Hit.inner ∨ ∀ p q, t = p ++ q → p.bytes = o → p.getLast? = some '>' := by
  have hhit : (⟨o, false⟩ : Hit) ∈ hits name t :=
    List.mem_append_left _ (List.mem_map_of_mem ho)
  obtain ⟨k, hk, hlo, hhi⟩ := hchosen.covers _ hhit
  have hinner := inner_mem_wordOffsets hname (hchosen.subset k hk)
  have hpos := bytes_pos hname.ne_nil
  by_cases heq : o = k.inner
  · exact Or.inl (List.mem_map.mpr ⟨k, hk, heq.symm⟩)
  right
  intro p q htp hp
  obtain ⟨a, b, hlies, hoff, _⟩ := k.lies hname.ne_nil (hchosen.subset k hk)
  obtain ⟨x, bracketed⟩ := k
  simp only at hoff hlo hhi
  subst hoff
  cases bracketed with
  | false =>
    have hin : Hit.inner ⟨a.bytes, false⟩ = a.bytes := rfl
    have hstop : Hit.stop name ⟨a.bytes, false⟩ = a.bytes + name.bytes := rfl
    have hgap := wordOffsets_gap hname hinner ho (by omega)
    omega
  | true =>
    have hin : Hit.inner ⟨a.bytes, true⟩ = a.bytes + 1 := rfl
    have hstop : Hit.stop name ⟨a.bytes, true⟩ = a.bytes + (name.bytes + 2) :=
      congrArg (a.bytes + ·) (bytes_bracket name)
    rcases Nat.lt_or_gt_of_ne heq with hlt | hgt
    · have hgap := wordOffsets_gap hname ho hinner hlt
      omega
    · have hgap := wordOffsets_gap hname hinner ho hgt
      have hend : p.bytes = (a ++ bracket name).bytes := by
        rw [bytes_append, bytes_bracket]
        omega
      obtain ⟨rfl, _⟩ := append_of_bytes_eq (htp.symm.trans hlies) hend
      show (a ++ bracket name).getLast? = some '>'
      rw [bracket, ← List.append_assoc]
      exact List.getLast?_concat

omit hname in
/-- Of offsets in order, the first is picked first or not at all. -/
theorem picked_cases {o : Nat} {os picked : List Nat} (hlater : ∀ x ∈ os, o < x)
    (hsorted : picked.Pairwise (· < ·)) (hsubset : ∀ x ∈ picked, x ∈ o :: os) :
    (∃ rest, picked = o :: rest ∧ ∀ x ∈ rest, x ∈ os) ∨ o ∉ picked ∧ ∀ x ∈ picked, x ∈ os := by
  by_cases hmem : o ∈ picked
  · left
    obtain ⟨x, rest, rfl⟩ := List.exists_cons_of_ne_nil (List.ne_nil_of_mem hmem)
    obtain ⟨hfirst, _⟩ := List.pairwise_cons.mp hsorted
    obtain rfl : x = o := by
      rcases List.mem_cons.mp hmem with heq | hin
      · exact heq.symm
      · rcases List.mem_cons.mp (hsubset x List.mem_cons_self) with heq | hx
        · exact heq
        · exact absurd (hfirst o hin) (Nat.lt_asymm (hlater x hx))
    refine ⟨rest, rfl, ?_⟩
    intro y hy
    rcases List.mem_cons.mp (hsubset y (List.mem_cons_of_mem _ hy)) with heq | hys
    · exact absurd heq (Nat.ne_of_gt (hfirst y hy))
    · exact hys
  · right
    refine ⟨hmem, ?_⟩
    intro y hy
    rcases List.mem_cons.mp (hsubset y hy) with rfl | hys
    · exact absurd hy hmem
    · exact hys

/-- To splice at some of the found words is to rename, when each other one
stands behind a closing bracket. -/
theorem renamed_spliceFrom (newName : Text) {os picked : List Nat}
    (hfinds : (Search.ofName name false).Finds a t os) (hsorted : picked.Pairwise (· < ·))
    (hsubset : ∀ o ∈ picked, o ∈ os)
    (hrest : ∀ o ∈ os, o ∉ picked → ∀ p q, a ++ t = p ++ q → p.bytes = o → p.getLast? = some '>') :
    Renamed name newName a.getLast? t
      ((a ++ t).spliceFrom a.bytes (picked.map (nameSplice name newName))) := by
  have hne := hname.ne_nil
  induction hfinds generalizing picked with
  | nil a =>
    have hnil : picked = [] := List.eq_nil_iff_forall_not_mem.mpr fun o ho => by cases hsubset o ho
    subst hnil
    rw [List.map_nil, spliceFrom, dropBytes_bytes]
    exact Renamed.nil _
  | @miss a c t os hmiss hfinds ih =>
    have hbound : ∀ s ∈ picked.map (nameSplice name newName), (a ++ [c]).bytes ≤ s.start := by
      intro s hs
      obtain ⟨o, ho, rfl⟩ := List.mem_map.mp hs
      exact hfinds.le (hsubset o ho)
    rw [List.append_cons] at hrest ⊢
    rw [spliceFrom_copy a [c] t hbound]
    have hnext := ih hsorted hsubset hrest
    rw [List.getLast?_concat] at hnext
    exact Renamed.keep hmiss hnext
  | @hit a t os hstarts hfinds ih =>
    have hword : (Search.ofName name false).pattern = name := rfl
    rw [hword] at hstarts hfinds ih ⊢
    have hlater : ∀ o ∈ os, a.bytes < o := by
      intro o ho
      have hle := hfinds.le ho
      have hpos := bytes_pos hne
      rw [bytes_append] at hle
      omega
    rw [List.getLast?_append_of_ne_nil a hne] at ih
    rw [hword, ← List.append_assoc] at hrest
    rw [← List.append_assoc]
    rcases picked_cases hlater hsorted hsubset with ⟨rest, rfl, hin⟩ | ⟨hnot, hin⟩
    · have hnext := ih (List.pairwise_cons.mp hsorted).2 hin (by
        intro x hx hout
        refine hrest x (List.mem_cons_of_mem _ hx) ?_
        intro hmem
        rcases List.mem_cons.mp hmem with rfl | hmem
        · exact Nat.lt_irrefl _ (hlater a.bytes hx)
        · exact hout hmem)
      have hput := spliceFrom_put (show a ++ name ++ t = a ++ [] ++ (name ++ t) by simp)
        (a ++ name).bytes newName (rest.map (nameSplice name newName))
      rw [List.append_nil, List.nil_append, bytes_append a name] at hput
      rw [List.map_cons, nameSplice, hput, ← bytes_append]
      exact Renamed.swap hstarts hnext
    · have hclose : a.getLast? = some '>' :=
        hrest a.bytes List.mem_cons_self hnot a (name ++ t) (List.append_assoc _ _ _) rfl
      have hbound : ∀ s ∈ picked.map (nameSplice name newName), (a ++ name).bytes ≤ s.start := by
        intro s hs
        obtain ⟨o, ho, rfl⟩ := List.mem_map.mp hs
        exact hfinds.le (hin o ho)
      rw [spliceFrom_copy a name t hbound, hclose]
      rw [hclose] at hstarts
      exact Renamed.pass hstarts
        (ih hsorted hin fun x hx hout => hrest x (List.mem_cons_of_mem _ hx) hout)

/-- The plan of a rename makes a renamed text. -/
theorem renamed_applyEdits (ht : t.Addressable) (uri : String) (newName : Text) :
    Renamed name newName none t
      (t.applyEdits (planEdits t (scanReferences uri t name) newName)) := by
  obtain ⟨chosen, hchosen, hplan⟩ := planEdits_chosen ht hname.isName
  have hinner := spliceFrom_inner (a := []) hname.ne_nil newName hchosen.subset hchosen.apart
    rfl (fun h _ => Nat.zero_le h.offset)
  have hsorted : (chosen.map Hit.inner).Pairwise (· < ·) := by
    rw [List.pairwise_map]
    refine hchosen.apart.imp ?_
    intro h k hlt
    have hh := (h.inner_bounds name).2
    have hk := (k.inner_bounds name).1
    omega
  have hsubset : ∀ o ∈ chosen.map Hit.inner, o ∈ wordOffsets name t := by
    intro o ho
    obtain ⟨h, hh, rfl⟩ := List.mem_map.mp ho
    exact inner_mem_wordOffsets hname (hchosen.subset h hh)
  have hrenamed := renamed_spliceFrom hname newName (finds_words hname t) hsorted hsubset
    (fun o ho hnot => (hchosen.inner_or_close hname ho).resolve_left hnot)
  rw [List.map_map] at hrenamed
  rw [hplan, hchosen.applyEdits_eq ht hname.isName]
  exact hinner ▸ hrenamed

end Word

end AbnfServer.Rule
