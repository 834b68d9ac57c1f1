-- A rename works line by line, and a line that defines a rule still defines one
-- after it. Its name has changed if the old name is a part of it, and only then.
import AbnfServer.Proofs.Rule.Definitions
import AbnfServer.Proofs.Rule.Rewriting
import Mathlib.Data.List.Forall2

namespace AbnfServer.Rule

open Text

variable {name newName : Text} {before : Option Char} {t u r x l n : Text} {c : Char}

theorem not_isWordChar_of_isBlank (h : isBlank c = true) : isWordChar c = false := by
  rw [isWordChar, Bool.or_eq_false_iff]
  constructor
  · have hname := isNameChar_of_isBlank h
    rw [isNameChar, Bool.or_eq_false_iff] at hname
    exact hname.1
  · rw [beq_eq_false_iff_ne]
    rintro rfl
    cases h

/-- A text whose first character, if any, ends both names and words. -/
structure Stops (r : Text) : Prop where
  name : r.head?.any isNameChar = false
  word : r.head?.any isWordChar = false

/-- What stands before a text does not keep a name at its start from being renamed. -/
structure Clear (before : Option Char) : Prop where
  word : before.any isWordChar = false
  close : before ≠ some '>'

theorem head?_append_any {p : Char → Bool} (h : r.head?.any p = false) (x : Text) :
    (x ++ r).head?.any p = x.head?.any p := by
  cases x with
  | nil => simpa using h
  | cons d x => rfl

/-! ## Where names end -/

theorem head?_name_append (hname : isName name = true) (x : Text) :
    (name ++ x).head?.any isNameChar = true := by
  obtain ⟨d, w, rfl, hd⟩ := exists_head_of_isName hname
  exact isNameChar_of_isAlpha hd

/-- A name at the start of two parts lies in the first one. -/
theorem exists_of_name_append_eq (hname : isName name = true) (hr : r.head?.any isNameChar = false)
    (h : name ++ t = x ++ r) :
    ∃ y, x = name ++ y ∧ t = y ++ r := by
  rcases List.append_eq_append_iff.mp h with ⟨m, rfl, rfl⟩ | ⟨m, hm, rfl⟩
  · exact ⟨m, rfl, rfl⟩
  · cases m with
    | nil => exact ⟨[], by simpa using hm.symm, rfl⟩
    | cons d m =>
      have hd := isNameChar_of_mem hname (c := d) (by simp [hm])
      simp [hd] at hr

theorem startsAt_append (hname : IsWord name) (hr : Stops r) (before : Option Char) (x : Text) :
    (Search.ofName name false).startsAt before (x ++ r) =
      (Search.ofName name false).startsAt before x := by
  have hiff (y : Text) : (Search.ofName name false).startsAt before (name ++ (y ++ r)) = true ↔
      (Search.ofName name false).startsAt before (name ++ y) = true := by
    rw [hname.startsAt_iff, hname.startsAt_iff, head?_append_any hr.word]
  rw [Bool.eq_iff_iff]
  constructor
  · intro h
    obtain ⟨z, hz⟩ := Search.exists_of_startsAt h
    obtain ⟨y, rfl, _⟩ := exists_of_name_append_eq hname.isName hr.name hz.symm
    rw [List.append_assoc] at h
    exact (hiff y).mp h
  · intro h
    obtain ⟨y, rfl⟩ := Search.exists_of_startsAt h
    rw [List.append_assoc]
    exact (hiff y).mpr h

namespace Renamed

variable (hname : IsWord name) (hnew : isName newName = true)

include hname

/-! ## The first character -/

theorem cons (hc : isNameChar c = false) (h : Renamed name newName before (c :: t) u) :
    ∃ v, u = c :: v ∧ Renamed name newName (some c) t v := by
  have hno (x : Text) : c :: t ≠ name ++ x := by
    intro heq
    have hhead := head?_name_append hname.isName x
    rw [← heq, List.head?_cons, Option.any_some, hc] at hhead
    cases hhead
  generalize hx : c :: t = y at h
  cases h with
  | nil => cases hx
  | keep _ h =>
    cases hx
    exact ⟨_, rfl, h⟩
  | swap _ _ => exact absurd hx (hno _)
  | pass _ _ => exact absurd hx (hno _)

include hnew

theorem head?_eq (h : Renamed name newName before t u) (hu : u.head?.any isNameChar = false) :
    t.head? = u.head? := by
  cases h with
  | nil => rfl
  | keep _ _ => rfl
  | @swap _ t u _ _ =>
    rw [head?_name_append hnew] at hu
    cases hu
  | @pass t u _ _ =>
    rw [head?_name_append hname.isName] at hu
    cases hu

theorem cons_right (hc : isNameChar c = false) (h : Renamed name newName before t (c :: u)) :
    ∃ s, t = c :: s ∧ Renamed name newName (some c) s u := by
  have hhead := head?_eq hname hnew h (by simpa using hc)
  cases t with
  | nil => cases hhead
  | cons d s =>
    obtain rfl := Option.some.inj hhead
    obtain ⟨v, hv, hrest⟩ := cons hname hc h
    cases hv
    exact ⟨s, rfl, hrest⟩

/-- Characters of no name are neither put in nor taken out. -/
theorem mem_iff (hc : isNameChar c = false) (h : Renamed name newName before t u) : c ∈ u ↔ c ∈ t := by
  have hold : c ∉ name := fun hin => by
    rw [isNameChar_of_mem hname.isName hin] at hc
    cases hc
  have hput : c ∉ newName := fun hin => by
    rw [isNameChar_of_mem hnew hin] at hc
    cases hc
  induction h with
  | nil => rfl
  | keep _ _ ih => simp [ih]
  | swap _ _ ih => simp [hold, hput, ih]
  | pass _ _ ih => simp [ih]

theorem isName_iff (h : Renamed name newName before t u) : isName u = true ↔ isName t = true := by
  have hchars : (∀ c ∈ u, isNameChar c = true) ↔ ∀ c ∈ t, isNameChar c = true := by
    constructor
    · intro hall c hc
      rw [← Bool.not_eq_false]
      intro hno
      rw [hall c ((mem_iff hname hnew hno h).mpr hc)] at hno
      cases hno
    · intro hall c hc
      rw [← Bool.not_eq_false]
      intro hno
      rw [hall c ((mem_iff hname hnew hno h).mp hc)] at hno
      cases hno
  have hhead : u.head?.any Char.isAlpha = t.head?.any Char.isAlpha := by
    have halpha {m : Text} (hm : isName m = true) (x : Text) :
        (m ++ x).head?.any Char.isAlpha = true := by
      obtain ⟨d, w, rfl, hd⟩ := exists_head_of_isName hm
      exact hd
    cases h with
    | nil => rfl
    | keep _ _ => rfl
    | swap _ _ => rw [halpha hname.isName, halpha hnew]
    | pass _ _ => rw [halpha hname.isName, halpha hname.isName]
  rw [isName_iff_head, isName_iff_head, hhead, hchars]

/-! ## Cutting a renamed text -/

omit hnew in
/-- A rename works on both sides of a cut behind which no name goes on. -/
theorem cut (hr : Stops r) (h : Renamed name newName before (x ++ r) u) :
    ∃ y s b, u = y ++ s ∧ Renamed name newName before x y ∧ Renamed name newName b r s := by
  generalize hx : x ++ r = z at h
  induction h generalizing x with
  | nil b =>
    obtain ⟨rfl, rfl⟩ := List.append_eq_nil_iff.mp hx
    exact ⟨[], [], b, rfl, nil b, nil b⟩
  | @keep b c t u hk h ih =>
    cases x with
    | nil =>
      obtain rfl : r = c :: t := hx
      exact ⟨[], c :: u, b, rfl, nil b, keep hk h⟩
    | cons d x =>
      rw [List.cons_append, List.cons.injEq] at hx
      obtain ⟨rfl, rfl⟩ := hx
      obtain ⟨y, s, b', rfl, hy, hs⟩ := ih rfl
      rw [← List.cons_append, startsAt_append hname hr] at hk
      exact ⟨d :: y, s, b', rfl, keep hk hy, hs⟩
  | @swap b t u hk h ih =>
    obtain ⟨x, rfl, rfl⟩ := exists_of_name_append_eq hname.isName hr.name hx.symm
    obtain ⟨y, s, b', rfl, hy, hs⟩ := ih rfl
    rw [← List.append_assoc, startsAt_append hname hr] at hk
    exact ⟨newName ++ y, s, b', by simp, swap hk hy, hs⟩
  | @pass t u hk h ih =>
    obtain ⟨x, rfl, rfl⟩ := exists_of_name_append_eq hname.isName hr.name hx.symm
    obtain ⟨y, s, b', rfl, hy, hs⟩ := ih rfl
    rw [← List.append_assoc, startsAt_append hname hr] at hk
    exact ⟨name ++ y, s, b', by simp, pass hk hy, hs⟩

/-- The same for a cut of what a rename has made. -/
theorem cut_right {y s : Text} (hs : Stops s) (h : Renamed name newName before t (y ++ s)) :
    ∃ x r b, t = x ++ r ∧ Renamed name newName before x y ∧ Renamed name newName b r s := by
  have hstops {b : Option Char} {r : Text} (hr : Renamed name newName b r s) : Stops r := by
    have hhead := head?_eq hname hnew hr hs.name
    exact ⟨hhead ▸ hs.name, hhead ▸ hs.word⟩
  generalize hy : y ++ s = z at h
  induction h generalizing y with
  | nil b =>
    obtain ⟨rfl, rfl⟩ := List.append_eq_nil_iff.mp hy
    exact ⟨[], [], b, rfl, nil b, nil b⟩
  | @keep b c t u hk h ih =>
    cases y with
    | nil =>
      obtain rfl : s = c :: u := hy
      exact ⟨[], c :: t, b, rfl, nil b, keep hk h⟩
    | cons d y =>
      rw [List.cons_append, List.cons.injEq] at hy
      obtain ⟨rfl, rfl⟩ := hy
      obtain ⟨x, r, b', rfl, hx, hr⟩ := ih rfl
      rw [← List.cons_append, startsAt_append hname (hstops hr)] at hk
      exact ⟨d :: x, r, b', rfl, keep hk hx, hr⟩
  | @swap b t u hk h ih =>
    obtain ⟨y, rfl, rfl⟩ := exists_of_name_append_eq hnew hs.name hy.symm
    obtain ⟨x, r, b', rfl, hx, hr⟩ := ih rfl
    rw [← List.append_assoc, startsAt_append hname (hstops hr)] at hk
    exact ⟨name ++ x, r, b', by simp, swap hk hx, hr⟩
  | @pass t u hk h ih =>
    obtain ⟨y, rfl, rfl⟩ := exists_of_name_append_eq hname.isName hs.name hy.symm
    obtain ⟨x, r, b', rfl, hx, hr⟩ := ih rfl
    rw [← List.append_assoc, startsAt_append hname (hstops hr)] at hk
    exact ⟨name ++ x, r, b', by simp, pass hk hx, hr⟩

omit hnew in
/-- Blanks stay. -/
theorem blanks (hx : x.all isBlank = true) (h : Renamed name newName before (x ++ t) u) :
    ∃ v, u = x ++ v ∧ Renamed name newName (x.getLast?.or before) t v := by
  induction x generalizing before u with
  | nil => exact ⟨u, rfl, h⟩
  | cons d x ih =>
    rw [List.all_cons, Bool.and_eq_true] at hx
    obtain ⟨v, rfl, hrest⟩ := cons hname (isNameChar_of_isBlank hx.1) h
    obtain ⟨w, rfl, hlast⟩ := ih hx.2 hrest
    refine ⟨w, rfl, ?_⟩
    rw [List.getLast?_cons]
    cases hl : List.getLast? x <;> simpa [hl] using hlast

theorem blanks_right (hx : x.all isBlank = true) (h : Renamed name newName before t (x ++ u)) :
    ∃ s b, t = x ++ s ∧ Renamed name newName b s u := by
  induction x generalizing before t with
  | nil => exact ⟨t, before, rfl, h⟩
  | cons d x ih =>
    rw [List.all_cons, Bool.and_eq_true] at hx
    obtain ⟨s, rfl, hrest⟩ := cons_right hname hnew (isNameChar_of_isBlank hx.1) h
    obtain ⟨s, b, rfl, hlast⟩ := ih hx.2 hrest
    exact ⟨s, b, rfl, hlast⟩

end Renamed

/-! ## Parts of names -/

/-- Between the hyphens of a name, or between one and an end of it, lies another. -/
def HasPart (part name : Text) : Prop :=
  ∃ a b, name = a ++ part ++ b ∧ (a = [] ∨ a.getLast? = some '-') ∧ (b = [] ∨ b.head? = some '-')

theorem eq_hyphen {c : Char} (hname : isNameChar c = true) (hword : isWordChar c = false) : c = '-' := by
  rw [isWordChar, Bool.or_eq_false_iff] at hword
  simpa [isNameChar, hword.1] using hname

/-- The parts of a name are what the word search finds in it. -/
theorem hasPart_iff (hname : IsWord name) (hb : Clear before) (hn : isName n = true) :
    HasPart name n ↔ ∃ p q, n = p ++ name ++ q ∧
      (Search.ofName name false).startsAt (p.getLast?.or before) (name ++ q) = true := by
  have hhyphen : isWordChar '-' = false := rfl
  constructor
  · rintro ⟨p, q, rfl, hp, hq⟩
    refine ⟨p, q, rfl, (hname.startsAt_iff _ _).mpr ⟨?_, ?_⟩⟩
    · rcases hp with rfl | hp
      · exact hb.word
      · rw [hp, Option.some_or, Option.any_some, hhyphen]
    · rcases hq with rfl | hq
      · rfl
      · rw [hq, Option.any_some, hhyphen]
  · rintro ⟨p, q, rfl, hstarts⟩
    obtain ⟨hp, hq⟩ := (hname.startsAt_iff _ _).mp hstarts
    refine ⟨p, q, rfl, ?_, ?_⟩
    · cases hlast : p.getLast? with
      | none => exact Or.inl (List.getLast?_eq_none_iff.mp hlast)
      | some c =>
        rw [hlast, Option.some_or, Option.any_some] at hp
        have hmem : c ∈ p ++ name ++ q := by simp [List.mem_of_getLast? hlast]
        exact Or.inr (congrArg some (eq_hyphen (isNameChar_of_mem hn hmem) hp))
    · cases q with
      | nil => exact Or.inl rfl
      | cons c q =>
        have hmem : c ∈ p ++ name ++ c :: q := by simp
        exact Or.inr (congrArg some (eq_hyphen (isNameChar_of_mem hn hmem) hq))

namespace Renamed

theorem eq_nil (hname : name ≠ []) (h : Renamed name newName before [] u) : u = [] := by
  generalize hx : [] = x at h
  cases h with
  | nil => rfl
  | keep _ _ => cases hx
  | swap _ _ => exact absurd (List.append_eq_nil_iff.mp hx.symm).1 hname
  | pass _ _ => exact absurd (List.append_eq_nil_iff.mp hx.symm).1 hname

/-- Behind no closing bracket a name that is found is renamed. -/
theorem at_start (hname : name ≠ []) (hb : before ≠ some '>')
    (hstarts : (Search.ofName name false).startsAt before (name ++ t) = true)
    (h : Renamed name newName before (name ++ t) u) :
    ∃ v, u = newName ++ v ∧ Renamed name newName name.getLast? t v := by
  generalize hx : name ++ t = x at h hstarts
  cases h with
  | nil => exact absurd (List.append_eq_nil_iff.mp hx).1 hname
  | keep hk _ =>
    rw [hk] at hstarts
    cases hstarts
  | swap _ h =>
    obtain rfl := List.append_cancel_left hx
    exact ⟨_, rfl, h⟩
  | pass _ _ => exact absurd rfl hb

/-- A rename changes nothing, or it finds the name somewhere. -/
theorem eq_or_found (h : Renamed name newName before t u) :
    u = t ∨ ∃ p q, t = p ++ name ++ q ∧
      (Search.ofName name false).startsAt (p.getLast?.or before) (name ++ q) = true := by
  induction h with
  | nil => exact Or.inl rfl
  | @keep b c t u _ _ ih =>
    rcases ih with rfl | ⟨p, q, rfl, hstarts⟩
    · exact Or.inl rfl
    · refine Or.inr ⟨c :: p, q, rfl, ?_⟩
      rw [List.getLast?_cons]
      cases hl : List.getLast? p <;> simpa [hl] using hstarts
  | @swap b t u hstarts _ _ => exact Or.inr ⟨[], t, rfl, hstarts⟩
  | @pass t u hstarts _ _ => exact Or.inr ⟨[], t, rfl, hstarts⟩

/-- How long a renamed text is goes by how often the name was renamed. -/
theorem length (h : Renamed name newName before t u) :
    ∃ k, u.length + k * name.length = t.length + k * newName.length := by
  induction h with
  | nil => exact ⟨0, by simp⟩
  | keep _ _ ih =>
    obtain ⟨k, hk⟩ := ih
    refine ⟨k, ?_⟩
    simp only [List.length_cons]
    omega
  | swap _ _ ih =>
    obtain ⟨k, hk⟩ := ih
    refine ⟨k + 1, ?_⟩
    simp only [List.length_append, Nat.add_mul, Nat.one_mul]
    omega
  | pass _ _ ih =>
    obtain ⟨k, hk⟩ := ih
    refine ⟨k, ?_⟩
    simp only [List.length_append]
    omega

/-- A text in which the name is found does not stay as it is. -/
theorem ne_of_found (hname : name ≠ []) (hne : newName ≠ name) (h : Renamed name newName before t u)
    (hb : before ≠ some '>') (ht : '>' ∉ t)
    (hfound : ∃ p q, t = p ++ name ++ q ∧
      (Search.ofName name false).startsAt (p.getLast?.or before) (name ++ q) = true) : u ≠ t := by
  induction h with
  | nil =>
    obtain ⟨p, q, heq, _⟩ := hfound
    simp at heq
    exact absurd heq.2.1 hname
  | @keep b c t u hk _ ih =>
    obtain ⟨p, q, heq, hstarts⟩ := hfound
    rw [List.mem_cons, not_or] at ht
    cases p with
    | nil =>
      rw [heq] at hk
      exact absurd hstarts (by simpa using hk)
    | cons d p =>
      simp only [List.cons_append, List.cons.injEq] at heq
      obtain ⟨rfl, rfl⟩ := heq
      rw [List.getLast?_cons] at hstarts
      have hnext := ih (by simpa using Ne.symm ht.1) ht.2 ⟨p, q, rfl, by
        cases hl : List.getLast? p <;> simpa [hl] using hstarts⟩
      simpa using hnext
  | @swap b t u _ hrest _ =>
    intro heq
    obtain ⟨k, hk⟩ := length hrest
    have hlen := congrArg List.length heq
    simp only [List.length_append] at hlen
    have hsame : newName.length = name.length := by
      rcases Nat.lt_trichotomy newName.length name.length with hlt | hlt | hlt
      · have := Nat.mul_le_mul_left k (Nat.le_of_lt hlt)
        omega
      · exact hlt
      · have := Nat.mul_le_mul_left k (Nat.le_of_lt hlt)
        omega
    exact hne (List.append_inj heq hsame).1
  | pass _ _ _ => exact absurd rfl hb

/-- The new name of a rule: the name that is renamed gives way to the new one,
and any other name changes if it has the old one as a part, and only then. -/
theorem name_change (hname : IsWord name) (hne : newName ≠ name) (hb : Clear before)
    (hn : isName n = true) {n' : Text} (h : Renamed name newName before n n') :
    (n = name → n' = newName) ∧ (n' = n ↔ ¬ HasPart name n) := by
  rw [hasPart_iff hname hb hn]
  refine ⟨?_, ?_, ?_⟩
  · rintro rfl
    have hwhole : Renamed n newName before (n ++ []) n' := by rwa [List.append_nil]
    have hstarts := (hname.startsAt_iff before []).mpr ⟨hb.word, rfl⟩
    obtain ⟨v, rfl, hv⟩ := at_start hname.ne_nil hb.close hstarts hwhole
    rw [eq_nil hname.ne_nil hv, List.append_nil]
  · intro heq hfound
    have hbracket : '>' ∉ n := fun hin => absurd (isNameChar_of_mem hn hin) (by decide)
    exact ne_of_found hname.ne_nil hne h hb.close hbracket hfound heq
  · intro hnot
    exact (eq_or_found h).resolve_right hnot

end Renamed

/-! ## Lines -/

theorem Clear.blanks (hb : Clear before) (hx : x.all isBlank = true) : Clear (x.getLast?.or before) := by
  cases hl : x.getLast? with
  | none => exact hb
  | some c =>
    have hc : isBlank c = true := List.all_eq_true.mp hx c (List.mem_of_getLast? hl)
    refine ⟨not_isWordChar_of_isBlank hc, ?_⟩
    rintro heq
    cases heq
    cases hc

/-- Blanks and an equals sign end a name. -/
theorem stops_equals {s : Text} (hs : s.all isBlank = true) (r : Text) : Stops (s ++ '=' :: r) := by
  cases s with
  | nil => exact ⟨rfl, rfl⟩
  | cons c s =>
    rw [List.all_cons, Bool.and_eq_true] at hs
    exact ⟨isNameChar_of_isBlank hs.1, not_isWordChar_of_isBlank hs.1⟩

/-- What a rename does to the rule of a line. -/
inductive Carries (name newName : Text) : Option Text → Option Text → Prop
  | nothing : Carries name newName none none
  | rule {before : Option Char} {n n' : Text} :
      Clear before → isName n = true → Renamed name newName before n n' →
      Carries name newName (some n) (some n')

namespace Renamed

variable (hname : IsWord name) (hnew : isName newName = true)

include hname hnew

/-- A line that defines a rule defines the renamed one afterwards. -/
theorem defines (hb : Clear before) (h : Renamed name newName before l u) (hl : Defines l n) :
    ∃ b n', Defines u n' ∧ Clear b ∧ Renamed name newName b n n' := by
  obtain ⟨hn, i, s, r, rfl, hi, hs⟩ := hl
  rw [List.append_assoc, List.append_assoc] at h
  obtain ⟨v, rfl, hv⟩ := blanks hname hi h
  obtain ⟨n', w, b, rfl, hn', hw⟩ := cut hname (stops_equals hs r) hv
  obtain ⟨e, rfl, he⟩ := blanks hname hs hw
  obtain ⟨r', rfl, _⟩ := cons (c := '=') hname rfl he
  refine ⟨_, n', ⟨(isName_iff hname hnew hn').mpr hn, i, s, r', ?_, hi, hs⟩, hb.blanks hi, hn'⟩
  simp only [List.append_assoc]

/-- A line that defines a rule after a rename has defined one before. -/
theorem exists_defines (h : Renamed name newName before l u) (hu : Defines u n) :
    ∃ m, Defines l m := by
  obtain ⟨hn, i, s, r, rfl, hi, hs⟩ := hu
  rw [List.append_assoc, List.append_assoc] at h
  obtain ⟨v, _, rfl, hv⟩ := blanks_right hname hnew hi h
  obtain ⟨m, w, _, rfl, hm, hw⟩ := cut_right hname hnew (stops_equals hs r) hv
  obtain ⟨e, _, rfl, he⟩ := blanks_right hname hnew hs hw
  obtain ⟨r', rfl, _⟩ := cons_right (c := '=') hname hnew rfl he
  refine ⟨m, (isName_iff hname hnew hm).mp hn, i, s, r', ?_, hi, hs⟩
  simp only [List.append_assoc]

theorem carries (hb : Clear before) (h : Renamed name newName before l u) :
    Carries name newName (definedName? l) (definedName? u) := by
  cases hl : definedName? l with
  | none =>
    cases hu : definedName? u with
    | none => exact Carries.nothing
    | some n =>
      obtain ⟨m, hm⟩ := exists_defines hname hnew h (definedName?_iff.mp hu)
      rw [definedName?_iff.mpr hm] at hl
      cases hl
  | some n =>
    obtain ⟨b, n', hu, hb', hn'⟩ := defines hname hnew hb h (definedName?_iff.mp hl)
    rw [definedName?_iff.mpr hu]
    exact Carries.rule hb' (definedName?_iff.mp hl).isName hn'

/-- A rename works on each line of a text. -/
theorem definedNames (hb : Clear before) (h : Renamed name newName before t u) :
    List.Forall₂ (Carries name newName) (definedNames t) (definedNames u) := by
  induction hlen : t.length using Nat.strongRecOn generalizing before t u with
  | ind k ih =>
    have hnewline : isNameChar '\n' = false := rfl
    rcases newline_cases t with hnone | ⟨l, s, hl, rfl⟩
    · have hnone' : '\n' ∉ u := fun hin => hnone ((mem_iff hname hnew hnewline h).mp hin)
      rw [Rule.definedNames, Rule.definedNames, lines_of_not_mem hnone, lines_of_not_mem hnone']
      exact List.Forall₂.cons (carries hname hnew hb h) List.Forall₂.nil
    · have hstops : Stops ('\n' :: s) := ⟨hnewline, rfl⟩
      obtain ⟨l', r, b, rfl, hline, hr⟩ := cut hname hstops h
      obtain ⟨s', rfl, hrest⟩ := cons hname hnewline hr
      have hl' : '\n' ∉ l' := fun hin => hl ((mem_iff hname hnew hnewline hline).mp hin)
      have hclear : Clear (some '\n') := ⟨rfl, by decide⟩
      rw [Rule.definedNames, Rule.definedNames, lines_append_newline hl, lines_append_newline hl']
      refine List.Forall₂.cons (carries hname hnew hb hline) ?_
      refine ih s.length ?_ hclear hrest rfl
      rw [← hlen, List.length_append, List.length_cons]
      omega

end Renamed

end AbnfServer.Rule
