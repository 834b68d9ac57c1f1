-- Two ways to bring edits into a text: as one batch, all of them given against the text
-- as it was, or as changes of an open document, one after another. They agree on one
-- edit unless its range is reversed, and on edits that lie apart when the last one goes
-- first.
import AbnfServer.Proofs.Answers.Session
import AbnfServer.Proofs.Rule.Plan
import AbnfServer.Proofs.Text.Conversion
import Mathlib

namespace AbnfServer

/-- The edit as a change of an open document. -/
def Edit.change (e : Edit) : Change := ⟨some e.range, e.newText⟩

open Text

variable {a b m t : Text} {e : Edit} {r : Range} {n o : Nat}

/-! ## One edit -/

namespace Text

theorem Boundary.cut (h : t.Boundary n) (h' : t.Boundary o) (hle : n ≤ o) :
    ∃ a m b, t = a ++ m ++ b ∧ n = a.bytes ∧ o = (a ++ m).bytes := by
  obtain ⟨a, s, ht, rfl⟩ := h
  obtain ⟨c, b, ht', rfl⟩ := h'
  obtain ⟨m, rfl, -⟩ := append_of_bytes_le (ht.symm.trans ht') hle
  exact ⟨a, m, b, ht', rfl, rfl⟩

theorem applyEdits_single (t : Text) (e : Edit) :
    t.applyEdits [e] =
      match (LineIndex.ofText t).spanOf? e.range with
      | none => t
      | some (start, stop) => t.takeBytes start ++ e.newText ++ t.dropBytes stop := by
  have hdrop : dropBytes 0 t = t := dropBytes_bytes [] t
  cases hspan : (LineIndex.ofText t).spanOf? e.range with
  | none => simp [applyEdits, LineIndex.splices, LineIndex.resolve?, hspan, spliceFrom, hdrop]
  | some span =>
    simp [applyEdits, LineIndex.splices, LineIndex.resolve?, hspan, spliceFrom, between, hdrop]

end Text

theorem LineIndex.boundary_of_offsetOf? {p : Position} (h : (ofText t).offsetOf? p = some o) :
    t.Boundary o := by
  obtain ⟨before, line, after, hat, hcut⟩ := offsetOf?_iff.mp h
  refine ⟨before ++ takeUnits p.character.toNat line,
    line.drop (takeUnits p.character.toNat line).length ++ after, ?_, (cutAt_iff.mp hcut).symm⟩
  have hline := takeUnits_append_drop p.character.toNat line
  rw [List.append_assoc, ← List.append_assoc (takeUnits _ _), hline, ← List.append_assoc]
  exact hat.cut

theorem LineIndex.boundary_of_spanOf? (h : (ofText t).spanOf? r = some (n, o)) :
    t.Boundary n ∧ t.Boundary o := by
  obtain ⟨start, hstart, h⟩ := Option.bind_eq_some_iff.mp h
  obtain ⟨stop, hstop, h⟩ := Option.bind_eq_some_iff.mp h
  cases h
  exact ⟨boundary_of_offsetOf? hstart, boundary_of_offsetOf? hstop⟩

/-- What one edit makes of a text, as a batch and as a change. Without its lines it does
nothing, and forward it replaces what it covers. A reversed one is no change, but as a
batch it puts in the new text and what it covers once more. -/
inductive Edit.Lands (t : Text) (e : Edit) : Text → Text → Prop
  | missing : (LineIndex.ofText t).spanOf? e.range = none → Lands t e t t
  | forward {a m b : Text} : t = a ++ m ++ b →
      (LineIndex.ofText t).spanOf? e.range = some (a.bytes, (a ++ m).bytes) →
      Lands t e (a ++ e.newText ++ b) (a ++ e.newText ++ b)
  | reversed {a m b : Text} : t = a ++ m ++ b → m ≠ [] →
      (LineIndex.ofText t).spanOf? e.range = some ((a ++ m).bytes, a.bytes) →
      Lands t e (a ++ m ++ e.newText ++ (m ++ b)) t

theorem Edit.lands (t : Text) (e : Edit) : e.Lands t (t.applyEdits [e]) (e.change.apply t) := by
  have hchange : e.change.apply t = match (LineIndex.ofText t).spanOf? e.range with
    | none => t
    | some (start, stop) =>
      if start ≤ stop then t.takeBytes start ++ e.newText ++ t.dropBytes stop else t := rfl
  rw [applyEdits_single, hchange]
  cases hspan : (LineIndex.ofText t).spanOf? e.range with
  | none => exact .missing hspan
  | some span =>
    obtain ⟨start, stop⟩ := span
    obtain ⟨hstart, hstop⟩ := LineIndex.boundary_of_spanOf? hspan
    rcases Nat.lt_or_ge stop start with hlt | hle
    · obtain ⟨a, m, b, ht, rfl, rfl⟩ := hstop.cut hstart (Nat.le_of_lt hlt)
      have hm : m ≠ [] := by
        rintro rfl
        simp at hlt
      have htake : t.takeBytes (a ++ m).bytes = a ++ m := by rw [ht, takeBytes_bytes]
      have hdrop : t.dropBytes a.bytes = m ++ b := by rw [ht, List.append_assoc, dropBytes_bytes]
      simp only [if_neg (Nat.not_le.mpr hlt), htake, hdrop]
      exact .reversed ht hm hspan
    · obtain ⟨a, m, b, ht, rfl, rfl⟩ := hstart.cut hstop hle
      have htake : t.takeBytes a.bytes = a := by rw [ht, List.append_assoc, takeBytes_bytes]
      have hdrop : t.dropBytes (a ++ m).bytes = b := by rw [ht, dropBytes_bytes]
      simp only [if_pos hle, htake, hdrop]
      exact .forward ht hspan

/-- Where an edit lands alike both ways: a repeated part makes the text longer. -/
theorem Edit.Lands.eq_iff {u v : Text} (h : e.Lands t u v) :
    u = v ↔ ¬ ∃ start stop, (LineIndex.ofText t).spanOf? e.range = some (start, stop) ∧ stop < start := by
  cases h with
  | missing hnone => simp [hnone]
  | forward ht hspan =>
    simp only [hspan, true_iff, not_exists, not_and, Option.some.injEq, Prod.mk.injEq]
    rintro start stop ⟨rfl, rfl⟩
    rw [bytes_append]
    omega
  | @reversed a m b ht hm hspan =>
    have hpos := bytes_pos hm
    refine ⟨fun heq => ?_, fun h => (h ⟨_, _, hspan, by rw [bytes_append]; omega⟩).elim⟩
    have hsize := congrArg bytes (heq.trans ht)
    simp only [bytes_append] at hsize
    omega

/-- One edit does the same as a batch and as a change of a document, unless its range
has its lines and is reversed. -/
theorem one_edit_lands_alike_unless_reversed (t : Text) (e : Edit) (uri : String)
    (version newVersion : Int) :
    let changed := ((Document.new uri t version).applyChanges [e.change] newVersion).text
    e.Lands t (t.applyEdits [e]) changed ∧
      (t.applyEdits [e] = changed ↔
        ¬ ∃ start stop, (LineIndex.ofText t).spanOf? e.range = some (start, stop) ∧ stop < start) := by
  intro changed
  have hchanged : changed = e.change.apply t := by
    simp only [changed, Session.applyChanges_new, List.foldl_cons, List.foldl_nil]
    rfl
  rw [hchanged]
  exact ⟨e.lands t, (e.lands t).eq_iff⟩

/-- A reversed range leaves a document alone, but a batch has the `b` twice then. -/
theorem a_reversed_edit_repeats_what_it_covers :
    let t : Text := "abc".toList
    let e : Edit := ⟨⟨⟨0, 2⟩, ⟨0, 1⟩⟩, "X".toList⟩
    let changed := ((Document.new "f" t 1).applyChanges [e.change] 2).text
    t.applyEdits [e] ≠ changed ∧ t.applyEdits [e] = "abXbc".toList ∧ changed = t := by
  intro t e changed
  have hbatch : t.applyEdits [e] = "abXbc".toList := by
    rw [applyEdits_single]
    decide
  have hchanged : changed = t := by decide
  refine ⟨?_, hbatch, hchanged⟩
  rw [hbatch, hchanged]
  decide

/-! ## Edits that lie apart -/

/-- A part of a text, and what is to take its place. -/
structure Swap where
  before : Text
  old : Text
  newText : Text

namespace Swap

def edit (p : Swap) : Edit := ⟨⟨p.before.position, (p.before ++ p.old).position⟩, p.newText⟩

def splice (p : Swap) : Splice := ⟨p.before.bytes, (p.before ++ p.old).bytes, p.newText⟩

def Fits (p : Swap) (t : Text) : Prop := ∃ after, t = p.before ++ p.old ++ after

variable {p q : Swap} {ps : List Swap}

theorem resolve?_edit (ht : t.Addressable) (hp : p.Fits t) :
    (LineIndex.ofText t).resolve? p.edit = some p.splice := by
  obtain ⟨after, rfl⟩ := hp
  exact LineIndex.resolve?_eq_some_iff.mpr ⟨LineIndex.spanOf?_positions ht, rfl⟩

theorem start_le_stop (p : Swap) : p.splice.start ≤ p.splice.stop := by
  rw [splice, bytes_append]
  exact Nat.le_add_right _ _

theorem touches_iff (ht : t.Addressable) (hp : p.Fits t) (hq : q.Fits t) :
    p.edit.range.touches q.edit.range = true ↔
      p.splice.start ≤ q.splice.stop ∧ q.splice.start ≤ p.splice.stop := by
  obtain ⟨after, hcut⟩ := hp
  obtain ⟨after', hcut'⟩ := hq
  exact LineIndex.parts_touch_iff ht hcut hcut'

/-- Edits that lie apart and start at one place are one edit. -/
theorem splice_eq_of_start_eq (ht : t.Addressable) (hp : p.Fits t) (hq : q.Fits t)
    (hapart : p.edit ≠ q.edit → p.edit.range.touches q.edit.range = false)
    (hstart : p.splice.start = q.splice.start) : p.splice = q.splice := by
  by_cases hsame : p.edit = q.edit
  · have hresolve := resolve?_edit ht hp
    rw [hsame, resolve?_edit ht hq, Option.some.injEq] at hresolve
    exact hresolve.symm
  · have htouch := (touches_iff ht hp hq).mpr
      ⟨hstart ▸ q.start_le_stop, hstart ▸ p.start_le_stop⟩
    rw [hapart hsame] at htouch
    cases htouch

/-- Of two edits that lie apart, the one that starts first is over before the other. -/
theorem stop_lt_of_apart (ht : t.Addressable) (hp : p.Fits t) (hq : q.Fits t)
    (hle : p.edit.range.start ≤ q.edit.range.start) (hfree : p.edit.range.touches q.edit.range = false) :
    p.splice.stop < q.splice.start := by
  rw [← Bool.not_eq_true, touches_iff ht hp hq] at hfree
  obtain ⟨after, hcut⟩ := hp
  obtain ⟨after', hcut'⟩ := hq
  have hstart : p.splice.start ≤ q.splice.start := (LineIndex.parts_le_iff ht hcut hcut').1.mp hle
  have hstop := q.start_le_stop
  omega

/-- The last of the edits finds its range: nothing in front of it has changed yet. -/
theorem apply_change (ht : (a ++ m ++ b).Addressable) (newText u : Text) :
    Change.apply (a ++ m ++ u) (Edit.change ⟨⟨a.position, (a ++ m).position⟩, newText⟩) =
      a ++ newText ++ u := by
  have hspan := LineIndex.spanOf?_start ht u
  have hle : a.bytes ≤ (a ++ m).bytes := by
    rw [bytes_append]
    omega
  have htake : takeBytes a.bytes (a ++ m ++ u) = a := by rw [List.append_assoc, takeBytes_bytes]
  simp only [Change.apply, Edit.change, hspan, if_pos hle, htake, dropBytes_bytes]

/-- To splice from left to right is to apply the edits from the right to the left. -/
theorem foldr_change_eq_spliceFrom (ht : (a ++ b).Addressable) (hfits : ∀ p ∈ ps, p.Fits (a ++ b))
    (hapart : ps.Pairwise fun p q => p.splice.stop ≤ q.splice.start)
    (hstart : ∀ p ∈ ps, a.bytes ≤ p.splice.start) :
    ps.foldr (fun p u => Change.apply u p.edit.change) (a ++ b) =
      a ++ spliceFrom (a ++ b) a.bytes (ps.map splice) := by
  induction ps generalizing a b with
  | nil => rw [List.foldr_nil, List.map_nil, spliceFrom, dropBytes_bytes]
  | cons p ps ih =>
    obtain ⟨hlater, hrest⟩ := List.pairwise_cons.mp hapart
    obtain ⟨after, hcut⟩ := hfits p List.mem_cons_self
    obtain ⟨before, old, newText⟩ := p
    simp only at hcut
    obtain ⟨g, rfl, rfl⟩ := append_of_bytes_le (hcut.trans (List.append_assoc _ _ _))
      (hstart _ List.mem_cons_self)
    have hmove : a ++ (g ++ (old ++ after)) = a ++ g ++ old ++ after := by simp only [List.append_assoc]
    rw [hmove] at ht hfits ⊢
    -- the edits behind this one go first, and all that they leave in front is `a ++ g ++ old`
    have hnext := ih ht (fun q hq => hfits q (List.mem_cons_of_mem _ hq)) hrest hlater
    have hput := spliceFrom_put (a := a) (g := g) (b := old ++ after) (List.append_assoc (a ++ g) old after)
      (a ++ g ++ old).bytes newText (ps.map splice)
    rw [List.foldr_cons, hnext, edit, apply_change ht, List.map_cons, splice, hput]
    simp only [List.append_assoc]

end Swap

/-- Edits by their starts, the last one first. -/
def lastFirst (edits : List Edit) : List Edit :=
  (edits.mergeSort fun e f => e.range.start ≤ f.range.start).reverse

section Apart

variable {edits edits' : List Edit}

theorem sortOrder_edits : SortOrder fun e f : Edit => decide (e.range.start ≤ f.range.start) :=
  sortOrder_key fun e : Edit => e.range.start.rank

/-- The range of the edit lies between two boundaries of the text. -/
def Edit.Between (e : Edit) (t : Text) : Prop :=
  ∃ start stop, start ≤ stop ∧ t.Boundary start ∧ t.Boundary stop ∧
    e.range = (LineIndex.ofText t).rangeOf start stop

theorem exists_swaps (hedits : ∀ e ∈ edits, e.Between t) :
    ∃ ps : List Swap, ps.map Swap.edit = edits ∧ ∀ p ∈ ps, p.Fits t := by
  apply Rule.exists_map_eq
  intro e he
  obtain ⟨start, stop, hle, hstart, hstop, hrange⟩ := hedits e he
  obtain ⟨a, m, b, rfl, rfl, rfl⟩ := hstart.cut hstop hle
  rw [LineIndex.rangeOf_bytes] at hrange
  exact ⟨⟨a, m, e.newText⟩, ⟨b, rfl⟩, by rw [Swap.edit, ← hrange]⟩

instance : Std.Symm fun e f : Edit => e.range.touches f.range = false where
  symm e f h := by rw [Range.touches_comm, h]

/-- The order of edits that lie apart does not matter. -/
theorem splices_eq_of_perm (ht : t.Addressable) (hedits : ∀ e ∈ edits, e.Between t)
    (hapart : edits.Pairwise fun e f => e.range.touches f.range = false) (hperm : edits.Perm edits') :
    (LineIndex.ofText t).splices edits = (LineIndex.ofText t).splices edits' := by
  obtain ⟨ps, rfl, hfits⟩ := exists_swaps hedits
  apply (sortOrder_key Splice.start).mergeSort_eq_of_perm (hperm.filterMap _)
  intro s hs s' hs' hle hge
  obtain ⟨e, he, hs⟩ := List.mem_filterMap.mp hs
  obtain ⟨e', he', hs'⟩ := List.mem_filterMap.mp hs'
  have hfree := hapart.forall he he'
  obtain ⟨p, hp, rfl⟩ := List.mem_map.mp he
  obtain ⟨q, hq, rfl⟩ := List.mem_map.mp he'
  rw [Swap.resolve?_edit ht (hfits p hp), Option.some.injEq] at hs
  rw [Swap.resolve?_edit ht (hfits q hq), Option.some.injEq] at hs'
  subst hs hs'
  rw [decide_eq_true_eq] at hle hge
  exact Swap.splice_eq_of_start_eq ht (hfits p hp) (hfits q hq) hfree (Nat.le_antisymm hle hge)

/-- A batch in order does what its edits do one at a time, from the last one to the first. -/
theorem foldr_change_eq_applyEdits (ht : t.Addressable) (hedits : ∀ e ∈ edits, e.Between t)
    (hapart : edits.Pairwise fun e f => e.range.touches f.range = false)
    (hsorted : edits.Pairwise fun e f => e.range.start ≤ f.range.start) :
    edits.foldr (fun e u => Change.apply u e.change) t = t.applyEdits edits := by
  obtain ⟨ps, rfl, hfits⟩ := exists_swaps hedits
  have hgap : ps.Pairwise fun p q => p.splice.stop < q.splice.start := by
    refine (List.pairwise_map.mp (hsorted.and hapart)).imp_of_mem ?_
    intro p q hp hq ⟨hle, hfree⟩
    exact Swap.stop_lt_of_apart ht (hfits p hp) (hfits q hq) hle hfree
  have hsplices := LineIndex.splices_of_sorted (.ofText t) ps Swap.edit Swap.splice
    (fun p hp => Swap.resolve?_edit ht (hfits p hp))
    (hgap.imp fun {p _} hlt => Nat.le_trans p.start_le_stop (Nat.le_of_lt hlt))
  rw [List.foldr_map, applyEdits, hsplices]
  exact Swap.foldr_change_eq_spliceFrom (a := []) ht hfits (hgap.imp Nat.le_of_lt)
    fun p _ => Nat.zero_le _

end Apart

/-- One call for each change ends in the same text as one call with all of them. -/
theorem text_foldl_applyChanges (uri : String) (version newVersion : Int) (t : Text) (edits : List Edit) :
    (edits.foldl (fun d e => d.applyChanges [e.change] newVersion) (Document.new uri t version)).text =
      (edits.map Edit.change).foldl Change.apply t := by
  induction edits generalizing t version with
  | nil => rfl
  | cons e edits ih => rw [List.foldl_cons, Session.applyChanges_new, ih]; rfl

/-- Edits whose ranges lie between boundaries of the text and do not touch may be
given in any order. As a batch they do what they do as changes of a document, one at a
time and the last one first. -/
theorem batch_is_one_by_one {t : Text} {edits : List Edit} (ht : t.bytes < UInt32.size)
    (hedits : ∀ e ∈ edits, e.Between t)
    (hapart : edits.Pairwise fun e f => e.range.touches f.range = false) :
    (∀ edits', edits'.Perm edits → t.applyEdits edits' = t.applyEdits edits) ∧
      ∀ (uri : String) (version newVersion : Int),
        (Document.new uri t version).applyChanges ((lastFirst edits).map Edit.change) newVersion =
          .new uri (t.applyEdits edits) newVersion ∧
        ((lastFirst edits).foldl (fun d e => d.applyChanges [e.change] newVersion)
          (Document.new uri t version)).text = t.applyEdits edits := by
  have haddr := addressable_of_bytes_lt ht
  have hany (edits' : List Edit) (hperm : edits'.Perm edits) : t.applyEdits edits' = t.applyEdits edits := by
    rw [applyEdits, applyEdits, splices_eq_of_perm haddr hedits hapart hperm.symm]
  have hchanges : ((lastFirst edits).map Edit.change).foldl Change.apply t = t.applyEdits edits := by
    have hperm := List.mergeSort_perm edits fun e f => e.range.start ≤ f.range.start
    rw [← hany _ hperm, List.foldl_map, lastFirst, List.foldl_reverse]
    exact foldr_change_eq_applyEdits haddr (fun e he => hedits e (hperm.mem_iff.mp he))
      (hapart.perm hperm.symm fun h => by rw [Range.touches_comm, h])
      ((sortOrder_edits.sorted edits).imp of_decide_eq_true)
  refine ⟨hany, fun uri version newVersion => ⟨?_, ?_⟩⟩
  · rw [Session.applyChanges_new, hchanges]
  · rw [text_foldl_applyChanges, hchanges]

/-- Two edits that change how many lines there are. The character in front of the second
one takes two columns. -/
theorem two_edits_change_the_lines :
    let t : Text := "a😀b\nc".toList
    let edits : List Edit := [⟨⟨⟨0, 1⟩, ⟨0, 3⟩⟩, "\n".toList⟩, ⟨⟨⟨1, 0⟩, ⟨1, 1⟩⟩, "d\ne".toList⟩]
    (t.bytes < UInt32.size ∧ (∀ e ∈ edits, e.Between t) ∧
        edits.Pairwise fun e f => e.range.touches f.range = false) ∧
      t.applyEdits edits.reverse = "a\nb\nd\ne".toList ∧
      (Document.new "f" t 1).applyChanges (edits.reverse.map Edit.change) 2 =
        .new "f" "a\nb\nd\ne".toList 2 := by
  intro t edits
  have hbytes : t.bytes < UInt32.size := by decide
  have hbetween : ∀ e ∈ edits, e.Between t := by
    intro e he
    rcases List.mem_pair.mp he with rfl | rfl
    · exact ⟨1, 5, by decide, ⟨"a".toList, "😀b\nc".toList, by decide, by decide⟩,
        ⟨"a😀".toList, "b\nc".toList, by decide, by decide⟩, by decide⟩
    · exact ⟨7, 8, by decide, ⟨"a😀b\n".toList, "c".toList, by decide, by decide⟩,
        ⟨"a😀b\nc".toList, [], by decide, by decide⟩, by decide⟩
  have hapart : edits.Pairwise fun e f => e.range.touches f.range = false := by decide
  have hbatch : t.applyEdits edits = "a\nb\nd\ne".toList := by
    unfold t edits
    cbv
  have horder : lastFirst edits = edits.reverse := by
    unfold edits
    cbv
  obtain ⟨hany, hchanges⟩ := batch_is_one_by_one hbytes hbetween hapart
  have hone := (hchanges "f" 1 2).1
  rw [horder, hbatch] at hone
  exact ⟨⟨hbytes, hbetween, hapart⟩, (hany _ edits.reverse_perm).trans hbatch, hone⟩

end AbnfServer
