-- A search in parts. No occurrence reaches over a character that is neither in the
-- pattern nor in any word, so what stands on the two sides of such a character is
-- searched by itself, and a text is searched line by line.
import AbnfServer.Proofs.Rule.Occurrences
import AbnfServer.Proofs.Text.Lines

namespace AbnfServer.Rule

open Text

namespace Search

variable {s : Search} {c : Char} {x y z l t : Text} {o skip : Nat} {before before' : Option Char}

/-- A character over which no occurrence reaches, and next to which words end. -/
structure Separates (s : Search) (c : Char) : Prop where
  pattern : c ∉ s.pattern
  word : isWordChar c = false

/-! ## Cutting a text at a character -/

theorem startsAt_cut (hc : s.Separates c) (before : Option Char) (x y : Text) :
    s.startsAt before (x ++ c :: y) = s.startsAt before x := by
  by_cases hx : ∃ r, x = s.pattern ++ r
  · obtain ⟨r, rfl⟩ := hx
    rw [List.append_assoc, startsAt_pattern, startsAt_pattern]
    cases r with
    | nil => simp [isBoundary, hc.word]
    | cons d r => rfl
  · have hshort : s.startsAt before x = false := by
      rw [Bool.eq_false_iff]
      exact fun h => hx (exists_of_startsAt h)
    rw [hshort, Bool.eq_false_iff]
    intro h
    obtain ⟨r, hr⟩ := exists_of_startsAt h
    rcases List.append_eq_append_iff.mp hr with ⟨m, hm, hrest⟩ | ⟨m, hm, _⟩
    · cases m with
      | nil => exact hx ⟨[], by rw [hm, List.append_nil, List.append_nil]⟩
      | cons d m =>
        rw [List.cons_append, List.cons.injEq] at hrest
        apply hc.pattern
        rw [hm, hrest.1]
        simp
    · exact hx ⟨m, hm⟩

theorem length_le_of_startsAt (h : s.startsAt before t = true) : s.pattern.length ≤ t.length := by
  obtain ⟨r, rfl⟩ := exists_of_startsAt h
  rw [List.length_append]
  omega

theorem offsetsFrom_cut (hp : s.pattern ≠ []) (hc : s.Separates c) (y : Text)
    (hskip : skip ≤ x.length) :
    s.offsetsFrom o before skip (x ++ c :: y) =
      s.offsetsFrom o before skip x ++ s.offsetsFrom (o + (x ++ [c]).bytes) (some c) 0 y := by
  induction x generalizing o before skip with
  | nil =>
    obtain rfl := Nat.le_zero.mp hskip
    have hno : s.startsAt before (c :: y) = false := by
      have hcut := startsAt_cut hc before [] y
      rw [List.nil_append] at hcut
      rw [hcut, Bool.eq_false_iff]
      intro h
      have hle := length_le_of_startsAt h
      have hpos := List.length_pos_of_ne_nil hp
      rw [List.length_nil] at hle
      omega
    simp [offsetsFrom, hno, bytes]
  | cons d x ih =>
    have hsize : o + bytes (d :: x ++ [c]) = o + d.utf8Size + bytes (x ++ [c]) := by
      rw [List.cons_append, bytes]
      omega
    rw [List.length_cons] at hskip
    cases skip with
    | succ skip =>
      rw [List.cons_append, offsetsFrom, offsetsFrom, hsize]
      exact ih (Nat.le_of_succ_le_succ hskip)
    | zero =>
      have hcut := startsAt_cut hc before (d :: x) y
      rw [List.cons_append] at hcut
      rw [List.cons_append, offsetsFrom, offsetsFrom, hcut, hsize]
      by_cases h : s.startsAt before (d :: x) = true
      · -- the occurrence ends in front of the cut, so what is to skip of it lies in `x`
        have hle := length_le_of_startsAt h
        rw [List.length_cons] at hle
        rw [if_pos h, if_pos h, ih (by omega), List.cons_append]
      · rw [if_neg h, if_neg h]
        exact ih (Nat.zero_le _)

/-- The offsets move with the text. -/
theorem offsetsFrom_add (k : Nat) :
    s.offsetsFrom (o + k) before skip t = (s.offsetsFrom o before skip t).map (· + k) := by
  induction t generalizing o before skip with
  | nil => rfl
  | cons d t ih =>
    have hmove : o + k + d.utf8Size = o + d.utf8Size + k := by omega
    cases skip with
    | succ skip => rw [offsetsFrom, offsetsFrom, hmove, ih]
    | zero =>
      rw [offsetsFrom, offsetsFrom, hmove, ih, ih]
      split <;> rfl

/-- Of the character in front it matters only whether a word can go on behind it. -/
theorem offsetsFrom_congr (h : before.any isWordChar = before'.any isWordChar) (o : Nat) (t : Text) :
    s.offsetsFrom o before 0 t = s.offsetsFrom o before' 0 t := by
  cases t with
  | nil => rfl
  | cons d t =>
    have hstarts : s.startsAt before (d :: t) = s.startsAt before' (d :: t) := by
      simp only [startsAt, isBoundary, h]
    rw [offsetsFrom, offsetsFrom, hstarts]

/-- The two sides of a separating character are searched by themselves. -/
theorem offsets_cut (hp : s.pattern ≠ []) (hc : s.Separates c) (x y : Text) :
    s.offsets (x ++ c :: y) = s.offsets x ++ (s.offsets y).map (· + (x ++ [c]).bytes) := by
  have hempty : s.pattern.isEmpty = false := List.isEmpty_eq_false_iff.mpr hp
  have hfront : (some c).any isWordChar = (none : Option Char).any isWordChar := hc.word
  simp only [offsets, hempty, Bool.false_eq_true, if_false]
  rw [offsetsFrom_cut hp hc y (Nat.zero_le _), offsetsFrom_congr hfront, offsetsFrom_add]

/-! ## The number of occurrences -/

/-- How often a text is found to hold the pattern. -/
def count (s : Search) (t : Text) : Nat := (s.offsets t).length

theorem count_nil (s : Search) : s.count [] = 0 := by
  unfold count offsets
  split <;> rfl

theorem count_cut (hp : s.pattern ≠ []) (hc : s.Separates c) (x y : Text) :
    s.count (x ++ c :: y) = s.count x + s.count y := by
  unfold count
  rw [offsets_cut hp hc, List.length_append, List.length_map]

theorem count_append_left (hp : s.pattern ≠ []) (hz : ∀ c ∈ z, s.Separates c) (y : Text) :
    s.count (z ++ y) = s.count y := by
  induction z with
  | nil => rfl
  | cons c z ih =>
    have hcut := count_cut hp (hz c List.mem_cons_self) [] (z ++ y)
    rw [List.nil_append, count_nil, Nat.zero_add] at hcut
    rw [List.cons_append, hcut]
    exact ih fun d hd => hz d (List.mem_cons_of_mem _ hd)

theorem count_append_right (hp : s.pattern ≠ []) (hz : ∀ c ∈ z, s.Separates c) (x : Text) :
    s.count (x ++ z) = s.count x := by
  cases z with
  | nil => rw [List.append_nil]
  | cons c z =>
    have hrest := count_append_left hp (fun d hd => hz d (List.mem_cons_of_mem _ hd)) []
    rw [List.append_nil, count_nil] at hrest
    rw [count_cut hp (hz c List.mem_cons_self), hrest, Nat.add_zero]

theorem count_append_append (hp : s.pattern ≠ []) (hz : ∀ c ∈ z, s.Separates c) (hne : z ≠ [])
    (x y : Text) : s.count (x ++ z ++ y) = s.count x + s.count y := by
  obtain ⟨c, z, rfl⟩ := List.exists_cons_of_ne_nil hne
  rw [List.append_assoc, List.cons_append, count_cut hp (hz c List.mem_cons_self),
    count_append_left hp fun d hd => hz d (List.mem_cons_of_mem _ hd)]

/-! ## The lines of the occurrences -/

/-- The lines on which the occurrences start and stop. -/
def lineSpans (s : Search) (t : Text) : List (Nat × Nat) :=
  (s.offsets t).map fun o =>
    ((LineIndex.locate t.lines o).1, (LineIndex.locate t.lines (o + s.pattern.bytes)).1)

theorem locate_first (h : o ≤ l.bytes) (ls : List Text) : (LineIndex.locate (l :: ls) o).1 = 0 := by
  cases ls with
  | nil => rfl
  | cons m ls => rw [LineIndex.locate, if_pos h]

theorem locate_later (l : Text) {ls : List Text} (hls : ls ≠ []) (o : Nat) :
    (LineIndex.locate (l :: ls) (o + (l.bytes + 1))).1 = (LineIndex.locate ls o).1 + 1 := by
  obtain ⟨m, ms, rfl⟩ := List.exists_cons_of_ne_nil hls
  have hlate : ¬ o + (l.bytes + 1) ≤ l.bytes := by omega
  have hrest : o + (l.bytes + 1) - l.bytes - 1 = o := by omega
  rw [LineIndex.locate, if_neg hlate, hrest]

/-- What is found in a line ends there. -/
theorem add_bytes_le_of_mem_offsets (hp : s.pattern ≠ []) (ho : o ∈ s.offsets l) :
    o + s.pattern.bytes ≤ l.bytes := by
  obtain ⟨g, b, rfl, rfl, _⟩ := (finds_offsets hp l).sound ho
  simp only [List.nil_append, bytes_append]
  omega

theorem map_first (hp : s.pattern ≠ []) (l : Text) (ls : List Text) :
    ((s.offsets l).map fun o => ((LineIndex.locate (l :: ls) o).1,
      (LineIndex.locate (l :: ls) (o + s.pattern.bytes)).1)) = List.replicate (s.count l) (0, 0) := by
  rw [List.eq_replicate_iff]
  refine ⟨List.length_map _, ?_⟩
  intro p hpair
  obtain ⟨o, ho, rfl⟩ := List.mem_map.mp hpair
  have hle := add_bytes_le_of_mem_offsets hp ho
  rw [locate_first (by omega), locate_first hle]

theorem lineSpans_line (hp : s.pattern ≠ []) (hl : '\n' ∉ l) :
    s.lineSpans l = List.replicate (s.count l) (0, 0) := by
  unfold lineSpans
  rw [lines_of_not_mem hl]
  exact map_first hp l []

theorem lineSpans_newline (hp : s.pattern ≠ []) (hs : s.Separates '\n') (hl : '\n' ∉ l) (t : Text) :
    s.lineSpans (l ++ '\n' :: t) =
      List.replicate (s.count l) (0, 0) ++ (s.lineSpans t).map fun p => (p.1 + 1, p.2 + 1) := by
  have hsize : (l ++ ['\n']).bytes = l.bytes + 1 := bytes_append l ['\n']
  have hne := lines_ne_nil t
  unfold lineSpans
  rw [offsets_cut hp hs, lines_append_newline hl, List.map_append, map_first hp, List.map_map,
    List.map_map, hsize]
  congr 1
  apply List.map_congr_left
  intro o _
  have hmove : o + (l.bytes + 1) + s.pattern.bytes = o + s.pattern.bytes + (l.bytes + 1) := by omega
  simp only [Function.comp_apply, hmove, locate_later l hne]

/-- Lines that hold the pattern equally often may take each other's place. -/
theorem lineSpans_joinLines (hp : s.pattern ≠ []) (hs : s.Separates '\n') {f : Text → Text}
    {ls : List Text} (hl : ∀ l ∈ ls, '\n' ∉ l) (hf : ∀ l ∈ ls, '\n' ∉ f l)
    (hcount : ∀ l ∈ ls, s.count (f l) = s.count l) :
    s.lineSpans (joinLines (ls.map f)) = s.lineSpans (joinLines ls) := by
  induction ls with
  | nil => rfl
  | cons l ls ih =>
    have hline := hl l List.mem_cons_self
    have hline' := hf l List.mem_cons_self
    have hsame := hcount l List.mem_cons_self
    cases ls with
    | nil =>
      rw [List.map_singleton, joinLines, joinLines, lineSpans_line hp hline',
        lineSpans_line hp hline, hsame]
    | cons m ls =>
      have hrest := ih (fun k hk => hl k (List.mem_cons_of_mem _ hk))
        (fun k hk => hf k (List.mem_cons_of_mem _ hk)) fun k hk => hcount k (List.mem_cons_of_mem _ hk)
      rw [List.map_cons] at hrest
      rw [List.map_cons, List.map_cons, joinLines, joinLines, lineSpans_newline hp hs hline',
        lineSpans_newline hp hs hline, hsame, hrest]

end Search

end AbnfServer.Rule
