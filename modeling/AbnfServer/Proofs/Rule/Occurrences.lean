-- What a search finds: each offset is one at which the pattern stands, the found
-- places do not overlap, and a place that is not found is overlapped by one that
-- starts before it.
import AbnfServer.Rule.Reference
import AbnfServer.Proofs.Text.Places
import Mathlib.Data.List.Basic

namespace AbnfServer.Rule

open Text

namespace Search

variable {s : Search} {a b g t : Text} {os : List Nat}

/-! ## Where a pattern stands -/

theorem startsAt_pattern (s : Search) (before : Option Char) (t : Text) :
    s.startsAt before (s.pattern ++ t) =
      (!s.wholeWord || isBoundary before s.pattern.head? && isBoundary s.pattern.getLast? t.head?) := by
  have hprefix : s.pattern.isPrefixOf (s.pattern ++ t) = true :=
    List.isPrefixOf_iff_prefix.mpr (List.prefix_append s.pattern t)
  rw [startsAt, hprefix, List.drop_left, Bool.true_and]

theorem exists_of_startsAt {before : Option Char} (h : s.startsAt before t = true) :
    ∃ r, t = s.pattern ++ r := by
  rw [startsAt, Bool.and_eq_true] at h
  obtain ⟨r, hr⟩ := List.isPrefixOf_iff_prefix.mp h.1
  exact ⟨r, hr.symm⟩

/-! ## The course of a search -/

/-- The search of a text that stands behind `a` finds these offsets. -/
inductive Finds (s : Search) : Text → Text → List Nat → Prop
  | nil (a : Text) : Finds s a [] []
  | miss {a : Text} {c : Char} {t : Text} {os : List Nat} :
      s.startsAt a.getLast? (c :: t) = false → Finds s (a ++ [c]) t os → Finds s a (c :: t) os
  | hit {a t : Text} {os : List Nat} :
      s.startsAt a.getLast? (s.pattern ++ t) = true → Finds s (a ++ s.pattern) t os →
      Finds s a (s.pattern ++ t) (a.bytes :: os)

theorem offsetsFrom_skip (s : Search) (o : Nat) (p t : Text) (before : Option Char) :
    s.offsetsFrom o before p.length (p ++ t) =
      s.offsetsFrom (o + p.bytes) (p.getLast?.or before) 0 t := by
  induction p generalizing o before with
  | nil => rfl
  | cons c p ih =>
    have hlast : (List.getLast? p).or (some c) = (List.getLast? (c :: p)).or before := by
      rw [List.getLast?_cons]
      cases List.getLast? p <;> rfl
    rw [List.length_cons, List.cons_append, offsetsFrom, ih, hlast, bytes, Nat.add_assoc]

theorem finds_offsetsFrom (hp : s.pattern ≠ []) (a t : Text) :
    s.Finds a t (s.offsetsFrom a.bytes a.getLast? 0 t) := by
  induction hn : t.length using Nat.strongRecOn generalizing a t with
  | ind n ih =>
    cases t with
    | nil => exact Finds.nil a
    | cons c t =>
      have hlast : (a ++ [c]).getLast? = some c := by simp
      have hsize : (a ++ [c]).bytes = a.bytes + c.utf8Size := by simp [bytes_append, bytes]
      by_cases h : s.startsAt a.getLast? (c :: t) = true
      · obtain ⟨r, hr⟩ := exists_of_startsAt h
        obtain ⟨d, p, hdp⟩ := List.exists_cons_of_ne_nil hp
        rw [hdp, List.cons_append, List.cons.injEq] at hr
        obtain ⟨rfl, rfl⟩ := hr
        have hrest := ih r.length (by simp at hn; omega) (a ++ s.pattern) r rfl
        have hskip : s.offsetsFrom a.bytes a.getLast? 0 (c :: (p ++ r)) =
            a.bytes :: s.offsetsFrom (a ++ s.pattern).bytes (a ++ s.pattern).getLast? 0 r := by
          rw [List.getLast?_append_of_ne_nil a hp, offsetsFrom, if_pos h, hdp, List.length_cons,
            Nat.add_sub_cancel, offsetsFrom_skip, bytes_append, bytes, Nat.add_assoc,
            List.getLast?_cons]
          cases List.getLast? p <;> rfl
        rw [hskip]
        have htext : c :: (p ++ r) = s.pattern ++ r := by rw [hdp]; rfl
        rw [htext] at h ⊢
        exact Finds.hit h hrest
      · have hrest := ih t.length (by simp at hn; omega) (a ++ [c]) t rfl
        rw [offsetsFrom, if_neg h]
        rw [hlast, hsize] at hrest
        exact Finds.miss (Bool.eq_false_iff.mpr h) hrest

/-- A search of a whole text takes this course. -/
theorem finds_offsets (hp : s.pattern ≠ []) (t : Text) : s.Finds [] t (s.offsets t) := by
  have hempty : s.pattern.isEmpty = false := List.isEmpty_eq_false_iff.mpr hp
  rw [offsets, hempty]
  exact finds_offsetsFrom hp [] t

/-! ## What is found -/

/-- The pattern stands where it is found. -/
theorem Finds.sound (h : s.Finds a t os) {o : Nat} (ho : o ∈ os) :
    ∃ g b, t = g ++ s.pattern ++ b ∧ o = (a ++ g).bytes ∧
      s.startsAt (a ++ g).getLast? (s.pattern ++ b) = true := by
  induction h with
  | nil a => cases ho
  | @miss a c t os _ _ ih =>
    obtain ⟨g, b, rfl, hg, hstarts⟩ := ih ho
    refine ⟨c :: g, b, by simp, ?_, ?_⟩
    · simpa using hg
    · simpa using hstarts
  | @hit a t os hstarts _ ih =>
    rcases List.mem_cons.mp ho with rfl | ho
    · exact ⟨[], t, by simp, by simp, by simpa using hstarts⟩
    · obtain ⟨g, b, rfl, hg, hnext⟩ := ih ho
      refine ⟨s.pattern ++ g, b, by simp, ?_, ?_⟩
      · simpa using hg
      · simpa using hnext

theorem Finds.le (h : s.Finds a t os) {o : Nat} (ho : o ∈ os) : a.bytes ≤ o := by
  obtain ⟨g, b, _, rfl, _⟩ := h.sound ho
  rw [bytes_append]
  omega

/-- The found places come in order and do not overlap. -/
theorem Finds.pairwise (h : s.Finds a t os) : os.Pairwise fun o o' => o + s.pattern.bytes ≤ o' := by
  induction h with
  | nil a => exact List.Pairwise.nil
  | miss _ _ ih => exact ih
  | hit _ hrest ih =>
    refine List.pairwise_cons.mpr ⟨?_, ih⟩
    intro o ho
    have hle := hrest.le ho
    rw [bytes_append] at hle
    exact hle

theorem Finds.gap (h : s.Finds a t os) {o o' : Nat} (ho : o ∈ os) (ho' : o' ∈ os) (hlt : o < o') :
    o + s.pattern.bytes ≤ o' := by
  induction h with
  | nil a => cases ho
  | miss _ _ ih => exact ih ho ho'
  | @hit a t os _ hrest ih =>
    have hlater : ∀ x ∈ os, a.bytes + s.pattern.bytes ≤ x := by
      intro x hx
      rw [← bytes_append]
      exact hrest.le hx
    rcases List.mem_cons.mp ho with rfl | ho
    · rcases List.mem_cons.mp ho' with rfl | ho'
      · exact absurd hlt (Nat.lt_irrefl _)
      · exact hlater o' ho'
    · rcases List.mem_cons.mp ho' with rfl | ho'
      · have := hlater o ho
        omega
      · exact ih ho ho'

/-- A place that is not found is overlapped by one that is found before it. -/
theorem Finds.complete (h : s.Finds a t os) (hp : s.pattern ≠ []) (ht : t = g ++ s.pattern ++ b)
    (hstarts : s.startsAt (a ++ g).getLast? (s.pattern ++ b) = true) :
    (a ++ g).bytes ∈ os ∨
      ∃ o ∈ os, o < (a ++ g).bytes ∧ (a ++ g).bytes < o + s.pattern.bytes := by
  induction h generalizing g with
  | nil a =>
    simp at ht
    exact absurd ht.2.1 hp
  | @miss a c t os hmiss _ ih =>
    cases g with
    | nil =>
      rw [List.nil_append] at ht
      rw [List.append_nil, ← ht, hmiss] at hstarts
      cases hstarts
    | cons d g =>
      simp only [List.cons_append, List.cons.injEq] at ht
      obtain ⟨rfl, ht⟩ := ht
      have hmove : a ++ c :: g = a ++ [c] ++ g := by simp
      rw [hmove] at hstarts ⊢
      exact ih ht hstarts
  | @hit a t os _ _ ih =>
    rcases Nat.lt_or_ge g.bytes s.pattern.bytes with hlt | hge
    · by_cases hg : g = []
      · subst hg
        simp
      · have hpos := bytes_pos hg
        refine Or.inr ⟨a.bytes, List.mem_cons_self, ?_, ?_⟩ <;> rw [bytes_append] <;> omega
    · rw [List.append_assoc] at ht
      obtain ⟨m, rfl, hm⟩ := append_of_bytes_le ht hge
      rw [← List.append_assoc] at hm hstarts ⊢
      rcases ih hm hstarts with hfound | ⟨o, ho, hlo, hhi⟩
      · exact Or.inl (List.mem_cons_of_mem _ hfound)
      · exact Or.inr ⟨o, List.mem_cons_of_mem _ ho, hlo, hhi⟩

end Search

end AbnfServer.Rule
