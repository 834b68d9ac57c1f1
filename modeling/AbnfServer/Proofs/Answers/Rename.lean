-- What a rename does to the rules of a text: each rule stays on its line, and no
-- name but the renamed one changes, unless a longer name has it between hyphens.
import AbnfServer.Proofs.Answers.Resolver
import AbnfServer.Proofs.Rule.RenamedLines

namespace AbnfServer

namespace Rule

open Text

variable {name newName n : Text} {d d' : Option Text} {ds ds' : List (Option Text)} {t u : Text}

/-! ## The table of a renamed text -/

/-- A table with one rule renamed: the new name is where the old one was, and
every other rule is where it was. -/
def SymbolTable.RenamedTo (before after : SymbolTable) (name newName : Text) : Prop :=
  ∀ n, after.line? n =
    if n = newName then before.line? name else if n = name then none else before.line? n

/-- The name of a rule after a rename that reaches into no other name. -/
def renameTo (name newName n : Text) : Text := if n = name then newName else n

theorem Carries.eq_map (hname : IsWord name) (hne : newName ≠ name) (h : Carries name newName d d')
    (hpart : ∀ n, d = some n → n ≠ name → ¬ HasPart name n) : d' = d.map (renameTo name newName) := by
  cases h with
  | nothing => rfl
  | @rule before n n' hb hn h =>
    obtain ⟨hself, hsame⟩ := h.name_change hname hne hb hn
    rw [Option.map_some, renameTo]
    split
    · next heq => rw [hself heq]
    · next hother => rw [hsame.mpr (hpart n rfl hother)]

theorem carries_eq_map (hname : IsWord name) (hne : newName ≠ name)
    (h : List.Forall₂ (Carries name newName) ds ds')
    (hpart : ∀ n, some n ∈ ds → n ≠ name → ¬ HasPart name n) :
    ds' = ds.map (Option.map (renameTo name newName)) := by
  induction h with
  | nil => rfl
  | cons hd _ ih =>
    rw [List.map_cons, hd.eq_map hname hne fun n hn => hpart n (hn ▸ List.mem_cons_self),
      ih fun n hn => hpart n (List.mem_cons_of_mem _ hn)]

/-- Where a rule is found last once the names have changed. -/
theorem lastFrom_renameTo (hne : newName ≠ name) (hfree : some newName ∉ ds) (n : Text) (i : Nat) :
    lastFrom n i (ds.map (Option.map (renameTo name newName))) =
      if n = newName then lastFrom name i ds else if n = name then none else lastFrom n i ds := by
  split
  · next hn =>
    subst hn
    apply lastFrom_map
    intro d hd
    cases d with
    | none => simp
    | some m =>
      have hm : m ≠ n := fun h => hfree (h ▸ hd)
      by_cases hmn : m = name <;> simp [renameTo, hmn, hm]
  · next hnew =>
    split
    · next hold =>
      subst hold
      rw [lastFrom_eq_none_iff, List.mem_map]
      rintro ⟨d, _, hd⟩
      obtain ⟨m, rfl, hm⟩ := Option.map_eq_some_iff.mp hd
      unfold renameTo at hm
      split at hm
      · exact hne hm
      · next hother => exact hother hm
    · next hold =>
      apply lastFrom_map
      intro d _
      cases d with
      | none => simp
      | some m =>
        by_cases hmn : m = name
        · simp [renameTo, hmn, Ne.symm hnew, Ne.symm hold]
        · simp [renameTo, hmn]

theorem forall₂_getElem? {α β : Type} {R : α → β → Prop} {xs : List α} {ys : List β}
    (h : List.Forall₂ R xs ys) {i : Nat} {x : α} {y : β} (hx : xs[i]? = some x) (hy : ys[i]? = some y) :
    R x y := by
  obtain ⟨hi, rfl⟩ := List.getElem?_eq_some_iff.mp hx
  obtain ⟨hj, rfl⟩ := List.getElem?_eq_some_iff.mp hy
  exact h.get hi hj

/-- Lines of an addressable text have different numbers as positions. -/
theorem ofNat_inj_of_addressable (ht : t.Addressable) {i j : Nat} {n : Text}
    (hi : (definedNames t)[i]? = some (some n)) (hlen : ds.length = (definedNames t).length)
    (hj : ds[j]? = some (some n)) (h : UInt32.ofNat i = UInt32.ofNat j) : i = j := by
  have hlines : (definedNames t).length = t.lines.length := List.length_map ..
  have hi' := (List.getElem?_eq_some_iff.mp hi).1
  have hj' := (List.getElem?_eq_some_iff.mp hj).1
  rw [hlen] at hj'
  rw [hlines] at hi' hj'
  have heq := congrArg UInt32.toNat h
  rwa [ht.toNat_line hi', ht.toNat_line hj'] at heq

/-- The table of a renamed text has one rule renamed just when no other rule has
the old name as a part. -/
theorem renamedTo_iff (hname : IsWord name) (hnew : isName newName = true) (ht : t.Addressable)
    (uri : String) (hdef : some name ∈ definedNames t) (hfree : some newName ∉ definedNames t)
    (h : Renamed name newName none t u) :
    (scanDefinitions uri t).RenamedTo (scanDefinitions uri u) name newName ↔
      ∀ n, some n ∈ definedNames t → n ≠ name → ¬ HasPart name n := by
  have hne : newName ≠ name := fun heq => hfree (heq ▸ hdef)
  have hlines := h.definedNames hname hnew ⟨rfl, by decide⟩
  constructor
  · intro hrenamed n hn hother hpart
    obtain ⟨i, hi⟩ := Option.ne_none_iff_exists'.mp (mt lastFrom_eq_none_iff.mp (not_not.mpr hn) :
      lastFrom n 0 (definedNames t) ≠ none)
    have hline := hrenamed n
    have hnew' : n ≠ newName := fun heq => hfree (heq ▸ hn)
    rw [if_neg hnew', if_neg hother, line?_scanDefinitions, line?_scanDefinitions, hi] at hline
    obtain ⟨j, hj, hij⟩ := Option.map_eq_some_iff.mp hline
    have hti := (getElem?_of_lastFrom hi).2
    have huj := (getElem?_of_lastFrom hj).2
    have hsame := ofNat_inj_of_addressable ht hti hlines.length_eq.symm huj hij.symm
    rw [← hsame, Nat.sub_zero] at huj
    have hcarries := forall₂_getElem? hlines hti huj
    cases hcarries with
    | rule hb hn h => exact (h.name_change hname hne hb hn).2.mp rfl hpart
  · intro hpart n
    have hmap := carries_eq_map hname hne hlines hpart
    rw [line?_scanDefinitions, line?_scanDefinitions, line?_scanDefinitions, hmap,
      lastFrom_renameTo hne hfree]
    split
    · rfl
    · split <;> rfl

end Rule

namespace Resolver

open Rule

/-- A rename of a defined rule to a name goes through. -/
theorem planRename_of_defined (catalog : Catalog) (limits : CacheLimits) (now : Nanos) {uri : String}
    {text : Text} (version : Int) {name newName : Text}
    (hdef : (scanDefinitions uri text).contains name = true) (hnew : isName newName = true) :
    ((new catalog limits).planRename now (.new uri text version) name newName).1 =
      .ok (planEdits text (scanReferences uri text name) newName) := by
  have hcurrent : Current (fun _ _ t => t = text) (.new uri text version) := ⟨rfl, fun _ h => h⟩
  obtain ⟨hplan, _⟩ := planRename_spec (r := new catalog limits) (ScanCache.coherent_new limits)
    hcurrent now name newName
  rw [hplan, scannedPlan, scannedVerdict, hnew]
  simp only [Document.new, hdef]
  rfl

/-! ## The law -/

/-- In every text whose places are positions, a rule that does not end in a
hyphen can be renamed to any free name. The new name then stands in the symbol
table where the old one stood, and each other rule where it stood, just when
none of them has the old name between its hyphens: there the word search takes
a part of a longer name for the name. -/
theorem rename_moves_one_rule (catalog : Catalog) (limits : CacheLimits) (now : Nanos) (uri : String)
    (text : Text) (version : Int) (name newName : Text) (ht : text.Addressable)
    (hdef : (scanDefinitions uri text).contains name = true) (hlast : name.getLast? ≠ some '-')
    (hnew : isName newName = true) (hfree : (scanDefinitions uri text).contains newName = false) :
    ∃ edits, ((new catalog limits).planRename now (.new uri text version) name newName).1 = .ok edits ∧
      ((scanDefinitions uri text).RenamedTo (scanDefinitions uri (text.applyEdits edits)) name newName ↔
        ∀ n, (scanDefinitions uri text).contains n = true → n ≠ name → ¬ HasPart name n) := by
  refine ⟨_, planRename_of_defined catalog limits now version hdef hnew, ?_⟩
  simp only [contains_scanDefinitions] at hdef ⊢
  have hname : IsWord name := ⟨isName_of_mem_definedNames hdef, hlast⟩
  have hfree' : some newName ∉ definedNames text := by
    rw [← contains_scanDefinitions uri, hfree]
    exact Bool.false_ne_true
  exact renamedTo_iff hname hnew ht uri hdef hfree' (renamed_applyEdits hname ht uri newName)

theorem a_rule_used_in_brackets_moves_alone :
    let text := "a = x\nb = <a> a-c".toList
    ∃ edits, ((new .english {}).planRename 0 (.new "f" text 1) "a".toList "c".toList).1 = .ok edits ∧
      (scanDefinitions "f" text).RenamedTo (scanDefinitions "f" (Text.applyEdits text edits))
        "a".toList "c".toList := by
  obtain ⟨edits, hplan, hiff⟩ := rename_moves_one_rule .english {} 0 "f" "a = x\nb = <a> a-c".toList 1
    "a".toList "c".toList (Text.addressable_of_bytes_lt (by decide)) (by decide) (by decide) (by decide)
    (by decide)
  refine ⟨edits, hplan, hiff.mpr ?_⟩
  intro n hn hother
  have hnames : definedNames "a = x\nb = <a> a-c".toList = [some "a".toList, some "b".toList] := by decide
  rw [contains_scanDefinitions, hnames] at hn
  obtain rfl : n = "b".toList := by
    rcases List.mem_cons.mp hn with h | h
    · exact absurd (Option.some.inj h) hother
    · exact Option.some.inj (List.mem_singleton.mp h)
  rintro ⟨p, q, hpart, _⟩
  have hmem : 'a' ∈ "b".toList := by
    rw [hpart]
    simp
  exact absurd hmem (by decide)

/-! ## Renames that miss -/

/-- A rename of a defined rule to a free name that succeeds, and yet does more or
less than to move that one rule. -/
structure Misses (text name newName : Text) : Prop where
  defined : (scanDefinitions "f" text).contains name = true
  valid : isName newName = true
  free : (scanDefinitions "f" text).contains newName = false
  misses : ∃ edits, ((new .english {}).planRename 0 (.new "f" text 1) name newName).1 = .ok edits ∧
    ¬ (scanDefinitions "f" text).RenamedTo (scanDefinitions "f" (text.applyEdits edits)) name newName

/-- The rule `a-b` is renamed with `a`. -/
theorem misses_longer_name : Misses "a = x\na-b = y".toList "a".toList "c".toList := by
  have hdef : (scanDefinitions "f" "a = x\na-b = y".toList).contains "a".toList = true := by decide
  refine ⟨hdef, by decide, by decide, _, planRename_of_defined .english {} 0 1 hdef (by decide), ?_⟩
  have hname : IsWord "a".toList := ⟨by decide, by decide⟩
  have ht : Text.Addressable "a = x\na-b = y".toList := Text.addressable_of_bytes_lt (by decide)
  rw [renamedTo_iff hname (by decide) ht "f" (by decide) (by decide)
    (renamed_applyEdits hname ht "f" "c".toList)]
  intro h
  exact h "a-b".toList (by decide) (by decide) ⟨[], "-b".toList, rfl, Or.inl rfl, Or.inr rfl⟩

/-- The rule `a-` is not found. -/
theorem misses_last_hyphen : Misses "a- = x".toList "a-".toList "c".toList := by
  have hdef : (scanDefinitions "f" "a- = x".toList).contains "a-".toList = true := by decide
  refine ⟨hdef, by decide, by decide, _, planRename_of_defined .english {} 0 1 hdef (by decide), ?_⟩
  have hnone : scanReferences "f" "a- = x".toList "a-".toList = [] := by decide
  have hplan : planEdits "a- = x".toList [] "c".toList = [] := by simp [planEdits, select, selectFrom]
  rw [hnone, hplan, Text.applyEdits_nil]
  intro h
  exact absurd (h "c".toList) (by decide)

/-! Behind `k` empty lines, where `k` is no line number of a position any more,
a rule is found in the first line. -/

section Far

variable {k : Nat}

theorem lines_replicate (k : Nat) (t : Text) :
    Text.lines (List.replicate k '\n' ++ t) = List.replicate k [] ++ t.lines := by
  induction k with
  | zero => rfl
  | succ k ih => rw [List.replicate_succ, List.cons_append, Text.lines_newline, ih]; rfl

theorem definedNames_replicate (k : Nat) (t : Text) :
    definedNames (List.replicate k '\n' ++ t) = List.replicate k none ++ definedNames t := by
  rw [definedNames, lines_replicate, List.map_append, List.map_replicate]
  rfl

theorem place_replicate (k : Nat) : Text.place (List.replicate k '\n') = (k, 0) := by
  induction k with
  | zero => rfl
  | succ k ih => rw [List.replicate_succ, Text.place, if_pos rfl, ih]

theorem bytes_replicate (k : Nat) : Text.bytes (List.replicate k '\n') = k := by
  induction k with
  | zero => rfl
  | succ k ih =>
    have hsize : Char.utf8Size '\n' = 1 := rfl
    rw [List.replicate_succ, Text.bytes, ih, hsize, Nat.add_comm]

theorem offsetsFrom_replicate {s : Search} (hs : ∀ before t, s.startsAt before ('\n' :: t) = false)
    (o k : Nat) (before : Option Char) (t : Text) :
    s.offsetsFrom o before 0 (List.replicate (k + 1) '\n' ++ t) =
      s.offsetsFrom (o + (k + 1)) (some '\n') 0 t := by
  have hsize : Char.utf8Size '\n' = 1 := rfl
  induction k generalizing o before with
  | zero => simp [Search.offsetsFrom, hs, hsize]
  | succ k ih =>
    rw [List.replicate_succ, List.cons_append, Search.offsetsFrom, hs, if_neg Bool.false_ne_true, ih,
      hsize, Nat.add_assoc, Nat.add_comm 1]

/-- A rule on line `k`. -/
def farText (k : Nat) : Text := List.replicate k '\n' ++ "a = x".toList

theorem scanReferences_farText (k : Nat) :
    scanReferences "f" (farText (k + 1)) "a".toList =
      [⟨⟨"f", ⟨.ofNat (k + 1) 0, .ofNat (k + 1) 1⟩⟩, false⟩] := by
  have hbare : (Search.ofName "a".toList false).offsets (farText (k + 1)) = [0 + (k + 1)] := by
    rw [farText, Search.offsets, if_neg (by decide), offsetsFrom_replicate (fun _ _ => rfl)]
    rfl
  have hbracketed : (Search.ofName "a".toList true).offsets (farText (k + 1)) = [] := by
    rw [farText, Search.offsets, if_neg (by decide), offsetsFrom_replicate (fun _ _ => rfl)]
    rfl
  have hrange : (LineIndex.ofText (farText (k + 1))).rangeOf (0 + (k + 1)) (0 + (k + 1) + 1) =
      ⟨.ofNat (k + 1) 0, .ofNat (k + 1) 1⟩ := by
    have hplace : Text.place (List.replicate (k + 1) '\n' ++ "a".toList) = (k + 1, 1) := by
      have hone : Text.place "a".toList = (0, 1) := rfl
      rw [Text.place_append, place_replicate, hone]
      rfl
    have hcut : farText (k + 1) = List.replicate (k + 1) '\n' ++ "a".toList ++ " = x".toList := by
      rw [List.append_assoc]
      rfl
    have hends := LineIndex.rangeOf_bytes (List.replicate (k + 1) '\n') "a".toList " = x".toList
    rw [Text.bytes_append, bytes_replicate, Text.position, Text.position, place_replicate, hplace,
      ← hcut] at hends
    rw [Nat.zero_add]
    exact hends
  have hsize : (Search.ofName "a".toList false).pattern.bytes = 1 := rfl
  rw [scanReferences, if_neg (by decide)]
  simp only [Rule.referencesOf, hbare, hbracketed, List.map_cons, List.map_nil, List.append_nil, hsize,
    hrange]

/-- When line `k` has the position of the first one, the new name is put there. -/
theorem applyEdits_farText (hk : UInt32.ofNat (k + 1) = 0) :
    (farText (k + 1)).applyEdits
        (planEdits (farText (k + 1)) (scanReferences "f" (farText (k + 1)) "a".toList) "c".toList) =
      'c' :: farText (k + 1) := by
  have hline : (farText (k + 1)).lines[0]? = some [] := by
    rw [farText, lines_replicate]
    rfl
  have hoffset (n : Nat) : (LineIndex.ofText (farText (k + 1))).offsetOf? (.ofNat (k + 1) n) = some 0 := by
    simp only [LineIndex.offsetOf?, Position.ofNat, hk, LineIndex.ofText]
    show Option.map _ ((farText (k + 1)).lines[0]?) = some 0
    rw [hline, Option.map_some]
    cases (UInt32.ofNat n).toNat <;> rfl
  have hspan : (LineIndex.ofText (farText (k + 1))).spanOf? ⟨.ofNat (k + 1) 0, .ofNat (k + 1) 1⟩ =
      some (0, 0) := by
    simp [LineIndex.spanOf?, hoffset]
  have hput : replacement (.ofText (farText (k + 1))) (farText (k + 1)) "c".toList
      ⟨.ofNat (k + 1) 0, .ofNat (k + 1) 1⟩ = "c".toList := by
    simp [replacement, LineIndex.slice?, hspan, Text.between, Text.takeBytes_zero, isBracketed]
  have hedits : planEdits (farText (k + 1)) (scanReferences "f" (farText (k + 1)) "a".toList) "c".toList =
      [⟨⟨.ofNat (k + 1) 0, .ofNat (k + 1) 1⟩, "c".toList⟩] := by
    rw [scanReferences_farText, planEdits]
    simp only [List.map_cons, List.map_nil, select, List.mergeSort_singleton, selectFrom, List.any_nil,
      Bool.false_eq_true, if_false, hput]
  have hdrop : Text.dropBytes 0 (farText (k + 1)) = farText (k + 1) := Text.dropBytes_bytes [] _
  rw [hedits, Text.applyEdits, LineIndex.splices]
  simp [LineIndex.resolve?, hspan, Text.spliceFrom, Text.between, Text.takeBytes_zero, hdrop]

theorem lastFrom_replicate (n : Text) (i k : Nat) (ds : List (Option Text)) :
    lastFrom n i (List.replicate k none ++ ds) = lastFrom n (i + k) ds := by
  induction k generalizing i with
  | zero => rfl
  | succ k ih =>
    have hnone : ¬ (none : Option Text) = some n := fun h => by cases h
    rw [List.replicate_succ, List.cons_append, lastFrom, if_neg hnone, Option.or_none, ih, Nat.add_assoc,
      Nat.add_comm 1]

theorem definedNames_farText (k : Nat) :
    definedNames (farText k) = List.replicate k none ++ [some "a".toList] := by
  rw [farText, definedNames_replicate]
  rfl

theorem line?_farText (k : Nat) :
    (scanDefinitions "f" (farText k)).line? "a".toList = some (UInt32.ofNat k) := by
  rw [line?_scanDefinitions, definedNames_farText, lastFrom_replicate, Nat.zero_add]
  rfl

theorem misses_farText (hk : UInt32.ofNat (k + 1) = 0) : Misses (farText (k + 1)) "a".toList "c".toList := by
  have hdef : (scanDefinitions "f" (farText (k + 1))).contains "a".toList = true := by
    rw [contains_iff_line?, line?_farText]
    exact Option.some_ne_none _
  have hnames : definedNames ('c' :: farText (k + 1)) = List.replicate (k + 1) none ++ [some "a".toList] := by
    have hlines : Text.lines ('c' :: farText (k + 1)) = ['c'] :: (farText k).lines :=
      Text.lines_append_newline (l := ['c']) (by decide) (farText k)
    rw [definedNames, hlines, List.map_cons]
    exact congrArg (none :: ·) (definedNames_farText k)
  have hfree : some "c".toList ∉ List.replicate (k + 1) none ++ [some "a".toList] := by simp
  refine ⟨hdef, by decide, ?_, _, planRename_of_defined .english {} 0 1 hdef (by decide), ?_⟩
  · rw [← Bool.not_eq_true, contains_scanDefinitions, definedNames_farText]
    exact hfree
  · intro h
    have hc := h "c".toList
    rw [applyEdits_farText hk, if_pos rfl, line?_farText, line?_scanDefinitions, hnames,
      lastFrom_eq_none_iff.mpr hfree] at hc
    cases hc

end Far

/-- A rename may take a part of another rule along, and it may miss the rule: when
its name ends in a hyphen, or when its line has no number as a position. -/
theorem some_renames_miss :
    Misses "a = x\na-b = y".toList "a".toList "c".toList ∧ Misses "a- = x".toList "a-".toList "c".toList ∧
      Misses (farText UInt32.size) "a".toList "c".toList :=
  ⟨misses_longer_name, misses_last_hyphen, misses_farText (k := UInt32.size - 1) rfl⟩

end Resolver

end AbnfServer
