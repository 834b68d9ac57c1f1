-- Templates: there is one way to cut a template into the placeholders that have an
-- argument and the characters that stay. To fill it is to put each argument in its place.
import AbnfServer.Message.Template
import AbnfServer.Proofs.Text.Lines

namespace AbnfServer.Template

variable {args : List Text} {t before after rest digits digits' arg : Text} {c : Char} {n : Nat}

/-! ## Placeholders -/

/-- Digits between two braces. -/
def slot (digits : Text) : Text := '\x7b' :: (digits ++ ['\x7d'])

/-- Digits of ASCII stand for an argument: their number, which has at most 64 bits, counts
it from zero on. -/
structure Denotes (args : List Text) (digits arg : Text) : Prop where
  ne_nil : digits ≠ []
  all : digits.all Char.isDigit = true
  fits : number digits < UInt64.size
  counts : args[number digits]? = some arg

/-- A placeholder with an argument stands at the start of a text. -/
def Starts (args : List Text) (t : Text) : Prop :=
  ∃ digits arg after, Denotes args digits arg ∧ t = slot digits ++ after

theorem placeholder?_eq_some_iff :
    placeholder? t = some (n, rest) ↔
      ∃ digits, digits ≠ [] ∧ digits.all Char.isDigit = true ∧ number digits < UInt64.size ∧
        number digits = n ∧ t = digits ++ '\x7d' :: rest := by
  constructor
  · intro h
    unfold placeholder? at h
    split at h
    · next d ds _ hrun hrest =>
      obtain ⟨hfits, hread⟩ := Option.ite_none_right_eq_some.mp h
      obtain ⟨rfl, rfl⟩ := Prod.mk.inj (Option.some.inj hread)
      refine ⟨d :: ds, List.cons_ne_nil d ds, ?_, hfits, rfl, ?_⟩
      · rw [← hrun]
        exact List.all_takeWhile
      · rw [← hrun, ← hrest]
        exact List.takeWhile_append_dropWhile.symm
    · cases h
  · rintro ⟨digits, hne, hdigits, hfits, rfl, rfl⟩
    obtain ⟨hrun, hrest⟩ := Text.takeWhile_append_stop (y := '\x7d' :: rest) hdigits rfl
    obtain ⟨d, ds, rfl⟩ := List.exists_cons_of_ne_nil hne
    simp only [placeholder?, hrun, hrest, if_pos hfits]

/-- The digits of a placeholder end at its brace. -/
theorem slot_append_inj (h : digits.all Char.isDigit = true) (h' : digits'.all Char.isDigit = true)
    (heq : slot digits ++ after = slot digits' ++ rest) : digits = digits' ∧ after = rest := by
  have htail : digits ++ '\x7d' :: after = digits' ++ '\x7d' :: rest := by
    simpa [slot] using heq
  obtain ⟨hrun, hrest⟩ := Text.takeWhile_append_stop (y := '\x7d' :: after) h rfl
  obtain ⟨hrun', hrest'⟩ := Text.takeWhile_append_stop (y := '\x7d' :: rest) h' rfl
  rw [htail] at hrun hrest
  exact ⟨hrun.symm.trans hrun', (List.cons.inj (hrest.symm.trans hrest')).2⟩

/-- An opening brace stands in a placeholder at its start only. -/
theorem eq_nil_of_slot (h : digits.all Char.isDigit = true) (heq : slot digits = before ++ '\x7b' :: rest) :
    before = [] := by
  cases before with
  | nil => rfl
  | cons b before =>
    have hmem : '\x7b' ∈ digits ++ ['\x7d'] := by
      rw [(List.cons.inj heq).2]
      exact List.mem_append_right _ List.mem_cons_self
    rcases List.mem_append.mp hmem with hdigit | hclose
    · have := List.all_eq_true.mp h _ hdigit
      cases this
    · cases List.mem_singleton.mp hclose

/-- Placeholders never overlap: behind the start of one, the next starts when it is over. -/
theorem slot_append_cases (h : digits.all Char.isDigit = true)
    (heq : slot digits ++ rest = before ++ (slot digits' ++ after)) :
    before = [] ∨ ∃ middle, before = slot digits ++ middle ∧ rest = middle ++ (slot digits' ++ after) := by
  rcases List.append_eq_append_iff.mp heq with ⟨middle, hbefore, hrest⟩ | ⟨middle, hslot, hnext⟩
  · exact Or.inr ⟨middle, hbefore, hrest⟩
  · cases middle with
    | nil => exact Or.inr ⟨[], by simpa using hslot.symm, by simpa using hnext.symm⟩
    | cons m middle =>
      obtain rfl : '\x7b' = m := (List.cons.inj hnext).1
      exact Or.inl (eq_nil_of_slot h hslot)

/-! ## One step of filling -/

theorem Denotes.placeholder? (h : Denotes args digits arg) (after : Text) :
    placeholder? (digits ++ '\x7d' :: after) = some (number digits, after) :=
  placeholder?_eq_some_iff.mpr ⟨digits, h.ne_nil, h.all, h.fits, rfl, rfl⟩

/-- An argument takes the place of its placeholder, and what is behind is filled. -/
theorem fill_slot (h : Denotes args digits arg) (after : Text) :
    fill args (slot digits ++ after) = arg ++ fill args after := by
  have hmove : slot digits ++ after = '\x7b' :: (digits ++ '\x7d' :: after) := by simp [slot]
  rw [hmove, fill, if_pos rfl]
  split
  · next hnone => cases hnone.symm.trans (h.placeholder? after)
  · next n rest hread =>
    obtain ⟨rfl, rfl⟩ := Prod.mk.inj (Option.some.inj (hread.symm.trans (h.placeholder? after)))
    simp only [h.counts]

/-- A character that starts no placeholder with an argument stays. -/
theorem fill_char (h : ¬ Starts args (c :: t)) : fill args (c :: t) = c :: fill args t := by
  rw [fill]
  split
  · next hopen =>
    split
    · rfl
    · next n rest hread =>
      split
      · rfl
      · next arg harg =>
        obtain ⟨digits, hne, hdigits, hfits, rfl, rfl⟩ := placeholder?_eq_some_iff.mp hread
        exact absurd ⟨digits, arg, rest, ⟨hne, hdigits, hfits, harg⟩, by simp [slot, hopen]⟩ h
  · rfl

/-! ## Cuts -/

/-- A piece of a template: a character that stays, or the digits of a placeholder with
the argument that they stand for. -/
inductive Piece
  | char (c : Char)
  | slot (digits arg : Text)

/-- A piece as it stands in the template. -/
def Piece.text : Piece → Text
  | char c => [c]
  | slot digits _ => Template.slot digits

/-- A piece as it stands in the filled text. -/
def Piece.filled : Piece → Text
  | char c => [c]
  | slot _ arg => arg

/-- A template in pieces. Wherever a placeholder with an argument stands in the template,
it is one of the pieces. -/
structure Cut (args : List Text) (template : Text) (pieces : List Piece) : Prop where
  joined : pieces.flatMap Piece.text = template
  denotes : ∀ digits arg, .slot digits arg ∈ pieces → Denotes args digits arg
  whole : ∀ before digits arg after, Denotes args digits arg →
    template = before ++ (slot digits ++ after) →
      ∃ ps qs, pieces = ps ++ .slot digits arg :: qs ∧ ps.flatMap Piece.text = before

variable {ps pieces : List Piece}

theorem Piece.text_ne_nil (p : Piece) : p.text ≠ [] := by
  cases p with
  | char c => exact List.cons_ne_nil c []
  | slot digits arg => exact List.cons_ne_nil _ _

theorem eq_nil_of_flatMap_text (h : pieces.flatMap Piece.text = []) : pieces = [] := by
  cases pieces with
  | nil => rfl
  | cons p ps => exact absurd (List.append_eq_nil_iff.mp h).1 p.text_ne_nil

theorem cut_nil : Cut args [] [] where
  joined := rfl
  denotes _ _ h := by cases h
  whole before digits arg after _ h := by simp [slot] at h

/-- Nothing in a template cuts across a placeholder in front of it. -/
theorem Cut.cons_slot (h : Denotes args digits arg) (hcut : Cut args t pieces) :
    Cut args (slot digits ++ t) (.slot digits arg :: pieces) where
  joined := congrArg (slot digits ++ ·) hcut.joined
  denotes digits' arg' hmem := by
    rcases List.mem_cons.mp hmem with heq | hmem
    · cases heq
      exact h
    · exact hcut.denotes _ _ hmem
  whole before digits' arg' after h' heq := by
    rcases slot_append_cases h.all heq with rfl | ⟨middle, rfl, hrest⟩
    · obtain ⟨rfl, rfl⟩ := slot_append_inj h.all h'.all heq
      obtain rfl : arg = arg' := Option.some.inj (h.counts.symm.trans h'.counts)
      exact ⟨[], pieces, rfl, rfl⟩
    · obtain ⟨ps, qs, rfl, rfl⟩ := hcut.whole _ _ _ _ h' hrest
      exact ⟨.slot digits arg :: ps, qs, rfl, rfl⟩

theorem Cut.cons_char (h : ¬ Starts args (c :: t)) (hcut : Cut args t pieces) :
    Cut args (c :: t) (.char c :: pieces) where
  joined := congrArg (c :: ·) hcut.joined
  denotes digits arg hmem := by
    rcases List.mem_cons.mp hmem with heq | hmem
    · cases heq
    · exact hcut.denotes _ _ hmem
  whole before digits arg after h' heq := by
    cases before with
    | nil => exact absurd ⟨digits, arg, after, h', heq⟩ h
    | cons b before =>
      obtain ⟨rfl, hrest⟩ := List.cons.inj heq
      obtain ⟨ps, qs, rfl, rfl⟩ := hcut.whole _ _ _ _ h' hrest
      exact ⟨.char c :: ps, qs, rfl, rfl⟩

/-- Behind its first piece, a cut is a cut of the rest. -/
theorem Cut.tail {p : Piece} (hcut : Cut args (p.text ++ t) (p :: pieces)) : Cut args t pieces where
  joined := List.append_cancel_left hcut.joined
  denotes digits arg hmem := hcut.denotes digits arg (List.mem_cons_of_mem p hmem)
  whole before digits arg after h heq := by
    have hmove : p.text ++ t = p.text ++ before ++ (slot digits ++ after) := by
      rw [heq, List.append_assoc]
    obtain ⟨ps, qs, hpieces, hps⟩ := hcut.whole _ _ _ _ h hmove
    cases ps with
    | nil => exact absurd (List.append_eq_nil_iff.mp hps.symm).1 p.text_ne_nil
    | cons p ps =>
      obtain ⟨rfl, rfl⟩ := List.cons.inj hpieces
      exact ⟨ps, qs, rfl, List.append_cancel_left hps⟩

/-- Every way to cut a template takes a placeholder at its start whole. -/
theorem Cut.of_slot (h : Denotes args digits arg) (hcut : Cut args (slot digits ++ t) pieces) :
    ∃ ps, pieces = .slot digits arg :: ps ∧ Cut args t ps := by
  obtain ⟨ps, qs, rfl, hps⟩ := hcut.whole [] _ _ _ h rfl
  obtain rfl := eq_nil_of_flatMap_text hps
  exact ⟨qs, rfl, hcut.tail (p := .slot digits arg)⟩

theorem Cut.of_char (h : ¬ Starts args (c :: t)) (hcut : Cut args (c :: t) pieces) :
    ∃ ps, pieces = .char c :: ps ∧ Cut args t ps := by
  cases pieces with
  | nil => cases hcut.joined
  | cons p ps =>
    cases p with
    | slot digits arg =>
      exact absurd ⟨digits, arg, _, hcut.denotes _ _ List.mem_cons_self, hcut.joined.symm⟩ h
    | char b =>
      obtain ⟨rfl, _⟩ := List.cons.inj hcut.joined
      exact ⟨ps, rfl, hcut.tail (p := .char b)⟩

/-! ## Filling -/

/-- Texts are built from their end by putting placeholders with an argument, or else
single characters, in front. -/
theorem induction_on {motive : Text → Prop} (args : List Text) (t : Text) (nil : motive [])
    (slot : ∀ digits arg t, Denotes args digits arg → motive t → motive (slot digits ++ t))
    (char : ∀ c t, ¬ Starts args (c :: t) → motive t → motive (c :: t)) : motive t := by
  induction h : t.length using Nat.strongRecOn generalizing t with
  | ind n ih =>
    cases t with
    | nil => exact nil
    | cons c t =>
      by_cases hstarts : Starts args (c :: t)
      · obtain ⟨digits, arg, after, hdenotes, heq⟩ := hstarts
        rw [heq]
        refine slot _ _ _ hdenotes (ih after.length ?_ after rfl)
        rw [← h, heq, List.length_append]
        exact Nat.lt_add_of_pos_left (Nat.succ_pos _)
      · exact char c t hstarts (ih t.length (by simp [← h]) t rfl)

theorem exists_cut (args : List Text) (t : Text) : ∃ pieces, Cut args t pieces := by
  induction t using induction_on args with
  | nil => exact ⟨[], cut_nil⟩
  | slot digits arg t h ih =>
    obtain ⟨pieces, hcut⟩ := ih
    exact ⟨_, hcut.cons_slot h⟩
  | char c t h ih =>
    obtain ⟨pieces, hcut⟩ := ih
    exact ⟨_, hcut.cons_char h⟩

theorem Cut.unique (hcut : Cut args t pieces) (hcut' : Cut args t ps) : pieces = ps := by
  induction t using induction_on args generalizing pieces ps with
  | nil => rw [eq_nil_of_flatMap_text hcut.joined, eq_nil_of_flatMap_text hcut'.joined]
  | slot digits arg t h ih =>
    obtain ⟨qs, rfl, hqs⟩ := hcut.of_slot h
    obtain ⟨rs, rfl, hrs⟩ := hcut'.of_slot h
    rw [ih hqs hrs]
  | char c t h ih =>
    obtain ⟨qs, rfl, hqs⟩ := hcut.of_char h
    obtain ⟨rs, rfl, hrs⟩ := hcut'.of_char h
    rw [ih hqs hrs]

/-- A template is filled piece by piece. -/
theorem Cut.fill_eq (hcut : Cut args t pieces) : fill args t = pieces.flatMap Piece.filled := by
  induction t using induction_on args generalizing pieces with
  | nil => rw [eq_nil_of_flatMap_text hcut.joined, fill, List.flatMap_nil]
  | slot digits arg t h ih =>
    obtain ⟨ps, rfl, hps⟩ := hcut.of_slot h
    rw [fill_slot h, ih hps]
    rfl
  | char c t h ih =>
    obtain ⟨ps, rfl, hps⟩ := hcut.of_char h
    rw [fill_char h, ih hps]
    rfl

/-- Nested braces, an argument that looks like a placeholder, a placeholder without an
argument, and one whose digit is not of ASCII. -/
example : fill ["\x7b1\x7d".toList, "b".toList] "\x7b\x7b0\x7d\x7d \x7b01\x7d \x7b2\x7d \x7b٠\x7d".toList =
    "\x7b\x7b1\x7d\x7d b \x7b2\x7d \x7b٠\x7d".toList := by
  cbv

/-! ## One argument -/

/-- A text is a template with an argument in the place of a placeholder, and with the rest
around it as it is. -/
def Embeds (template argument shown : Text) : Prop :=
  ∃ lead tail, template = lead ++ (slot ['0'] ++ tail) ∧ shown = lead ++ (argument ++ tail)

/-- What has no opening brace stays as it is. -/
theorem fill_append_of_not_mem (args : List Text) (h : '\x7b' ∉ before) (t : Text) :
    fill args (before ++ t) = before ++ fill args t := by
  induction before with
  | nil => rfl
  | cons c before ih =>
    rw [List.mem_cons, not_or] at h
    have hstays : ¬ Starts args (c :: (before ++ t)) := by
      rintro ⟨digits, arg, after, _, heq⟩
      exact h.1 (List.cons.inj heq).1.symm
    rw [List.cons_append, fill_char hstays, ih h.2, List.cons_append]

theorem embeds_fill (lead tail argument : Text) (hlead : '\x7b' ∉ lead) (htail : '\x7b' ∉ tail) :
    Embeds (lead ++ (slot ['0'] ++ tail)) argument (fill [argument] (lead ++ (slot ['0'] ++ tail))) := by
  have hfirst : Denotes [argument] ['0'] argument := ⟨List.cons_ne_nil _ _, rfl, by decide, rfl⟩
  have hrest := fill_append_of_not_mem [argument] htail []
  rw [List.append_nil, fill, List.append_nil] at hrest
  refine ⟨lead, tail, rfl, ?_⟩
  rw [fill_append_of_not_mem _ hlead, fill_slot hfirst, hrest]

end AbnfServer.Template
