-- How splices act on a text: what lies in front of the next splice is copied,
-- and a splice that copies what it replaces at its ends may be made shorter. So
-- edits that lie apart replace what stands under their ranges, and nothing else.
import AbnfServer.Proofs.Text.Places
import AbnfServer.Text.Edit

namespace AbnfServer

namespace Text

variable {a b g t : Text} {ss : List Splice}

/-- The text up to the next splice is copied. -/
theorem spliceFrom_copy (a g b : Text) (h : ∀ s ∈ ss, (a ++ g).bytes ≤ s.start) :
    spliceFrom (a ++ g ++ b) a.bytes ss = g ++ spliceFrom (a ++ g ++ b) (a ++ g).bytes ss := by
  cases ss with
  | nil =>
    rw [spliceFrom, spliceFrom, dropBytes_bytes (a ++ g), List.append_assoc, dropBytes_bytes]
  | cons s ss =>
    have hstart := h s List.mem_cons_self
    have hsum := bytes_append a g
    have hfirst : ¬ s.start < a.bytes := by omega
    have hnext : ¬ s.start < (a ++ g).bytes := by omega
    have hrest : s.start - a.bytes - g.bytes = s.start - (a ++ g).bytes := by omega
    have hcut : between a.bytes s.start (a ++ g ++ b) =
        g ++ between (a ++ g).bytes s.start (a ++ g ++ b) := by
      rw [between, between, dropBytes_bytes (a ++ g), List.append_assoc, dropBytes_bytes,
        takeBytes_append (by omega), hrest]
    rw [spliceFrom, spliceFrom, if_neg hfirst, if_neg hnext, hcut]
    simp only [List.append_assoc]

/-- The text up to a splice is copied, and the splice is put in. -/
theorem spliceFrom_put (h : t = a ++ g ++ b) (stop : Nat) (new : Text) (ss : List Splice) :
    spliceFrom t a.bytes (⟨(a ++ g).bytes, stop, new⟩ :: ss) = g ++ new ++ spliceFrom t stop ss := by
  have hle : ¬ (a ++ g).bytes < a.bytes := by
    rw [bytes_append]
    omega
  rw [spliceFrom, if_neg hle, h, between_bytes]

/-- A splice that copies the ends of what it replaces may leave them out. -/
theorem spliceFrom_shorten {c p m q : Text} (ht : t = c ++ g ++ p ++ m ++ q ++ b) (new : Text)
    (h : ∀ s ∈ ss, (c ++ g ++ p ++ m ++ q).bytes ≤ s.start) :
    spliceFrom t c.bytes (⟨(c ++ g).bytes, (c ++ g ++ p ++ m ++ q).bytes, p ++ new ++ q⟩ :: ss) =
      spliceFrom t c.bytes (⟨(c ++ g ++ p).bytes, (c ++ g ++ p ++ m).bytes, new⟩ :: ss) := by
  have hcut : t = c ++ g ++ (p ++ m ++ q ++ b) := by simp only [ht, List.append_assoc]
  have hcut' : t = c ++ (g ++ p) ++ (m ++ q ++ b) := by simp only [ht, List.append_assoc]
  have hlong := spliceFrom_put hcut (c ++ g ++ p ++ m ++ q).bytes (p ++ new ++ q) ss
  have hshort := spliceFrom_put hcut' (c ++ g ++ p ++ m).bytes new ss
  have htail := spliceFrom_copy (c ++ g ++ p ++ m) q b h
  rw [← ht] at htail
  rw [← List.append_assoc c g p, htail] at hshort
  rw [hlong, hshort]
  simp only [List.append_assoc]

end Text

namespace LineIndex

theorem resolve?_eq_some_iff {ix : LineIndex} {e : Edit} {s : Splice} :
    ix.resolve? e = some s ↔ ix.spanOf? e.range = some (s.start, s.stop) ∧ e.newText = s.newText := by
  obtain ⟨start, stop, new⟩ := s
  unfold resolve?
  cases ix.spanOf? e.range with
  | none => simp
  | some span => simp [Prod.ext_iff, and_assoc]

/-- Edits that resolve to splices in order are applied as they come. -/
theorem splices_of_sorted {α : Type} (ix : LineIndex) (xs : List α) (edit : α → Edit)
    (splice : α → Splice) (hresolve : ∀ x ∈ xs, ix.resolve? (edit x) = some (splice x))
    (hsorted : xs.Pairwise fun x y => (splice x).start ≤ (splice y).start) :
    ix.splices (xs.map edit) = xs.map splice := by
  have hmap : (xs.map edit).filterMap ix.resolve? = xs.map splice := by
    clear hsorted
    induction xs with
    | nil => rfl
    | cons x xs ih =>
      rw [List.map_cons, List.filterMap_cons_some (hresolve x List.mem_cons_self), List.map_cons,
        ih fun y hy => hresolve y (List.mem_cons_of_mem _ hy)]
  rw [splices, hmap]
  apply List.mergeSort_of_pairwise
  rw [List.pairwise_map]
  exact hsorted.imp fun h => decide_eq_true h

end LineIndex

/-! ## What a batch of edits makes of a text -/

/-- A text that stands behind `a`, and what the edits make of it: each one puts
its new text in the place of what its range covers, one after the other, and all
that lies between them is copied. -/
inductive Text.Replaced (ix : LineIndex) : Text → List Edit → Text → Text → Prop
  | rest (a t : Text) : Replaced ix a [] t t
  | edit {a g old b u new : Text} {r : Range} {es : List Edit} :
      ix.spanOf? r = some ((a ++ g).bytes, (a ++ g ++ old).bytes) →
      Replaced ix (a ++ g ++ old) es b u →
      Replaced ix a (⟨r, new⟩ :: es) (g ++ old ++ b) (g ++ new ++ u)

namespace Text

variable {a t u whole : Text} {es : List Edit}

/-- Splices in order, each of them between two characters, replace what they
cover. -/
theorem replaced_spliceFrom {α : Type} (ix : LineIndex) (xs : List α) (edit : α → Edit)
    (splice : α → Splice) (hresolve : ∀ x ∈ xs, ix.resolve? (edit x) = some (splice x))
    (hcut : ∀ x ∈ xs, ∃ p m q, a ++ t = p ++ m ++ q ∧ (splice x).start = p.bytes ∧
      (splice x).stop = (p ++ m).bytes)
    (hapart : xs.Pairwise fun x y => (splice x).stop ≤ (splice y).start)
    (hstart : ∀ x ∈ xs, a.bytes ≤ (splice x).start) :
    Replaced ix a (xs.map edit) t ((a ++ t).spliceFrom a.bytes (xs.map splice)) := by
  induction xs generalizing a t with
  | nil =>
    rw [List.map_nil, List.map_nil, spliceFrom, dropBytes_bytes]
    exact Replaced.rest a t
  | cons x xs ih =>
    obtain ⟨hlater, hrest⟩ := List.pairwise_cons.mp hapart
    obtain ⟨p, m, q, htext, hp, hm⟩ := hcut x List.mem_cons_self
    have hle := hstart x List.mem_cons_self
    rw [hp] at hle
    obtain ⟨g, rfl, rfl⟩ := append_of_bytes_le
      (show a ++ t = p ++ (m ++ q) by rw [htext, List.append_assoc]) hle
    have hsplice : splice x = ⟨(a ++ g).bytes, (a ++ g ++ m).bytes, (splice x).newText⟩ := by
      rw [← hp, ← hm]
    have hmove : a ++ (g ++ (m ++ q)) = a ++ g ++ m ++ q := by simp only [List.append_assoc]
    have hnext : Replaced ix (a ++ g ++ m) (xs.map edit) q
        ((a ++ g ++ m ++ q).spliceFrom (a ++ g ++ m).bytes (xs.map splice)) := by
      apply ih
      · exact fun y hy => hresolve y (List.mem_cons_of_mem _ hy)
      · intro y hy
        rw [← hmove]
        exact hcut y (List.mem_cons_of_mem _ hy)
      · exact hrest
      · intro y hy
        rw [← hm]
        exact hlater y hy
    have hput := spliceFrom_put (show a ++ (g ++ (m ++ q)) = a ++ g ++ (m ++ q) by
      rw [List.append_assoc]) (a ++ g ++ m).bytes (splice x).newText (xs.map splice)
    obtain ⟨hspan, hnew⟩ := LineIndex.resolve?_eq_some_iff.mp (hresolve x List.mem_cons_self)
    rw [hp, hm] at hspan
    rw [List.map_cons, List.map_cons, hsplice, hput, hmove, ← List.append_assoc g m q, ← hnew]
    exact Replaced.edit hspan hnext

/-- Edits that keep the number of newlines under their ranges keep it in the text. -/
theorem Replaced.count_newlines {ix : LineIndex} (h : Replaced ix a es t u) (hwhole : whole = a ++ t)
    (hes : ∀ e ∈ es, ∀ old, ix.slice? whole e.range = some old → e.newText.count '\n' = old.count '\n') :
    u.count '\n' = t.count '\n' := by
  induction h with
  | rest a t => rfl
  | @edit a g old b u new r es hspan _ ih =>
    have hcut : whole = a ++ g ++ old ++ b := by rw [hwhole]; simp only [List.append_assoc]
    have hold : ix.slice? whole r = some old := by
      rw [hcut]
      exact LineIndex.slice?_of_spanOf? hspan
    have hfirst := hes ⟨r, new⟩ List.mem_cons_self old hold
    have hrest := ih hcut fun e he => hes e (List.mem_cons_of_mem _ he)
    simp only at hfirst
    simp only [List.count_append, hfirst, hrest]

/-- Edits that put in what stands under their ranges leave the text as it is. -/
theorem Replaced.eq_of_same {ix : LineIndex} (h : Replaced ix a es t u) (hwhole : whole = a ++ t)
    (hes : ∀ e ∈ es, ix.slice? whole e.range = some e.newText) : u = t := by
  induction h with
  | rest a t => rfl
  | @edit a g old b u new r es hspan _ ih =>
    have hcut : whole = a ++ g ++ old ++ b := by rw [hwhole]; simp only [List.append_assoc]
    have hold : ix.slice? whole r = some old := by
      rw [hcut]
      exact LineIndex.slice?_of_spanOf? hspan
    have hsame := hes ⟨r, new⟩ List.mem_cons_self
    rw [hold, Option.some.injEq] at hsame
    simp only at hsame
    rw [← hsame, ih hcut fun e he => hes e (List.mem_cons_of_mem _ he)]

end Text

end AbnfServer
