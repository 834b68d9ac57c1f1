-- The outline of a document. It lists the table of its text, and no two rules of a table
-- start at one place, so it does not depend on how the table lies in memory.
import AbnfServer.Proofs.Answers.Resolver
import AbnfServer.Proofs.Rule.Sites
import AbnfServer.Proofs.Sorting
import Mathlib

namespace AbnfServer

/-! ## The order of an outline -/

namespace Text

variable {x y : Char} {a b c : Text}

theorem cons_le_cons : le (x :: a) (y :: b) = true ↔ x.toNat < y.toNat ∨ x = y ∧ a.le b = true := by
  rw [le, Bool.or_eq_true, Bool.and_eq_true, decide_eq_true_eq, beq_iff_eq]

theorem le_trans (hab : a.le b = true) (hbc : b.le c = true) : a.le c = true := by
  induction a generalizing b c with
  | nil => rfl
  | cons x a ih =>
    cases b with
    | nil => cases hab
    | cons y b =>
      cases c with
      | nil => cases hbc
      | cons z c =>
        rw [cons_le_cons] at hab hbc ⊢
        rcases hab with hxy | ⟨rfl, hab⟩
        · rcases hbc with hyz | ⟨rfl, _⟩
          · exact Or.inl (Nat.lt_trans hxy hyz)
          · exact Or.inl hxy
        · rcases hbc with hxz | ⟨rfl, hbc⟩
          · exact Or.inl hxz
          · exact Or.inr ⟨rfl, ih hab hbc⟩

theorem le_total (a b : Text) : a.le b = true ∨ b.le a = true := by
  induction a generalizing b with
  | nil => exact Or.inl rfl
  | cons x a ih =>
    cases b with
    | nil => exact Or.inr rfl
    | cons y b =>
      rw [cons_le_cons, cons_le_cons]
      rcases Nat.lt_trichotomy x.toNat y.toNat with hlt | heq | hgt
      · exact Or.inl (Or.inl hlt)
      · have hxy : x = y := Char.toNat_inj.mp heq
        exact (ih b).imp (fun h => Or.inr ⟨hxy, h⟩) fun h => Or.inr ⟨hxy.symm, h⟩
      · exact Or.inr (Or.inl hgt)

end Text

namespace Resolver

open Rule

variable {r : Resolver} {d : Document} {now : Nanos} {n m : Text} {loc loc' : Location}

theorem symbolLE_iff {a b : Symbol} : symbolLE a b = true ↔
    a.location.range.start < b.location.range.start ∨
      a.location.range.start = b.location.range.start ∧ a.name.le b.name = true := by
  rw [symbolLE, Bool.or_eq_true, Bool.and_eq_true, decide_eq_true_eq, beq_iff_eq]

theorem sortOrder_symbolLE : SortOrder symbolLE where
  trans a b c hab hbc := by
    rw [symbolLE_iff, Position.lt_def] at *
    rcases hab with hab | ⟨hab, hname⟩ <;> rcases hbc with hbc | ⟨hbc, hname'⟩
    · exact Or.inl (Nat.lt_trans hab hbc)
    · exact Or.inl (hbc ▸ hab)
    · exact Or.inl (hab ▸ hbc)
    · exact Or.inr ⟨hab.trans hbc, Text.le_trans hname hname'⟩
  total a b := by
    rw [Bool.or_eq_true, symbolLE_iff, symbolLE_iff]
    rcases Nat.lt_trichotomy a.location.range.start.rank b.location.range.start.rank with hlt | heq | hgt
    · exact Or.inl (Or.inl hlt)
    · have hstart := Position.rank_inj.mp heq
      exact (Text.le_total a.name b.name).imp (fun h => Or.inr ⟨hstart, h⟩) fun h => Or.inr ⟨hstart.symm, h⟩
    · exact Or.inr (Or.inl hgt)

/-! ## The entries of a table -/

/-- Two rules of a table do not start at one place: a line defines one rule. -/
theorem eq_of_start_eq (ht : d.text.Addressable) (h : (scanDefinitions d.uri d.text).get? n = some loc)
    (h' : (scanDefinitions d.uri d.text).get? m = some loc')
    (hstart : loc.range.start = loc'.range.start) : n = m := by
  obtain ⟨i, e, hlast, rfl⟩ := get?_scanDefinitions_iff.mp h
  obtain ⟨j, e', hlast', rfl⟩ := get?_scanDefinitions_iff.mp h'
  have hline : UInt32.ofNat i = UInt32.ofNat j := congrArg Position.line hstart
  have hij : i = j := by
    rw [← ht.toNat_line hlast.lt_length, hline, ht.toNat_line hlast'.lt_length]
  subst hij
  rw [← hlast.named, ← hlast'.named, hlast.unique hlast']

theorem mem_scannedSymbols {s : Symbol} :
    s ∈ scannedSymbols d ↔ (scanDefinitions d.uri d.text).get? s.name = some s.location := by
  rw [scannedSymbols, List.mem_mergeSort, List.mem_map, Dict.get?_eq_some_iff]
  constructor
  · rintro ⟨e, he, rfl⟩
    exact he
  · intro hs
    exact ⟨_, hs, rfl⟩

theorem nodup_scannedSymbols (d : Document) : ((scannedSymbols d).map Symbol.name).Nodup := by
  have hnames := (List.mergeSort_perm ((scanDefinitions d.uri d.text).entries.map fun e => (⟨e.1, e.2⟩ : Symbol))
    symbolLE).map Symbol.name
  rw [List.map_map] at hnames
  exact hnames.nodup_iff.mpr (scanDefinitions d.uri d.text).distinct

/-- An outline goes strictly from place to place. -/
theorem ascending_scannedSymbols (ht : d.text.Addressable) :
    (scannedSymbols d).Pairwise fun a b => a.location.range.start < b.location.range.start := by
  have hsorted : (scannedSymbols d).Pairwise fun a b => symbolLE a b = true := sortOrder_symbolLE.sorted _
  refine (hsorted.and (List.pairwise_map.mp (nodup_scannedSymbols d))).imp_of_mem ?_
  intro a b ha hb ⟨hle, hne⟩
  rcases symbolLE_iff.mp hle with hlt | ⟨hstart, _⟩
  · exact hlt
  · exact absurd (eq_of_start_eq ht (mem_scannedSymbols.mp ha) (mem_scannedSymbols.mp hb) hstart) hne

/-- However the entries of a table lie, the outline is the same. -/
theorem scannedSymbols_eq_of_perm (ht : d.text.Addressable) {entries : List (Text × Location)}
    (hperm : entries.Perm (scanDefinitions d.uri d.text).entries) :
    (entries.map fun e => (⟨e.1, e.2⟩ : Symbol)).mergeSort symbolLE = scannedSymbols d := by
  apply sortOrder_symbolLE.mergeSort_eq_of_perm (hperm.map _)
  have hentry (s : Symbol) (hs : s ∈ entries.map fun e => (⟨e.1, e.2⟩ : Symbol)) :
      (scanDefinitions d.uri d.text).get? s.name = some s.location := by
    obtain ⟨e, he, rfl⟩ := List.mem_map.mp hs
    exact Dict.get?_eq_some_iff.mpr (hperm.mem_iff.mp he)
  -- symbols that tie start at one place, so they are one entry
  intro a ha b hb hab hba
  have hstart : a.location.range.start = b.location.range.start := by
    have hle := symbolLE_iff.mp hab
    have hge := symbolLE_iff.mp hba
    rw [Position.lt_def] at hle hge
    rcases hle with hlt | ⟨heq, _⟩
    · rcases hge with hgt | ⟨heq, _⟩
      · omega
      · exact heq.symm
    · exact heq
  have hname := eq_of_start_eq ht (hentry a ha) (hentry b hb) hstart
  have hloc := hentry a ha
  rw [hname, hentry b hb, Option.some.injEq] at hloc
  cases a
  cases b
  cases hname
  cases hloc
  rfl

/-- Where no table is remembered, an outline lists a new scan. -/
theorem symbolsOf_cold (h : (r.cache.rules? now d.uri d.version).1 = none) :
    (r.symbolsOf now d).1 = scannedSymbols d := by
  unfold symbolsOf rulesOf
  generalize r.cache.rules? now d.uri d.version = p at h
  obtain ⟨known, cache⟩ := p
  subst h
  rfl

/-! ## The law -/

/-- A table has the rules that some line of the text defines, each where its last
definition has its name. An outline that has to scan lists every rule of the table once
and strictly in order, however the table lies in memory. -/
theorem symbol_table_is_exact {d : Document} (ht : d.text.bytes < UInt32.size) :
    let table := scanDefinitions d.uri d.text
    (∀ n, table.contains n = true ↔ ∃ i indent, DefinitionOn d.text n indent i) ∧
      (∀ n loc, table.get? n = some loc →
        isName n = true ∧ loc.uri = d.uri ∧ LastSite d.text n loc.range) ∧
      ∀ (r : Resolver) (now : Nanos), (r.cache.rules? now d.uri d.version).1 = none →
        let symbols := (r.symbolsOf now d).1
        (symbols.map Symbol.name).Nodup ∧
          (∀ n loc, ⟨n, loc⟩ ∈ symbols ↔ table.get? n = some loc) ∧
          (symbols.Pairwise fun a b => a.location.range.start < b.location.range.start) ∧
          ∀ entries : List (Text × Location), entries.Perm table.entries →
            (entries.map fun e => (⟨e.1, e.2⟩ : Symbol)).mergeSort symbolLE = symbols := by
  have haddr := Text.addressable_of_bytes_lt ht
  intro table
  refine ⟨contains_scanDefinitions_iff d.uri d.text, ?_, ?_⟩
  · intro n loc hget
    obtain ⟨_, _, hsite, _⟩ := exists_site hget
    exact ⟨hsite.named, lastSite_of_get? haddr hget⟩
  · intro r now hcold symbols
    have hsymbols : symbols = scannedSymbols d := symbolsOf_cold hcold
    rw [hsymbols]
    exact ⟨nodup_scannedSymbols d, fun n loc => mem_scannedSymbols, ascending_scannedSymbols haddr,
      fun entries hperm => scannedSymbols_eq_of_perm haddr hperm⟩

/-- Of two definitions of a rule the later one is listed, behind the one above it; a
comment defines nothing. The indentation is one column wide, though it takes three bytes. -/
theorem an_outline_lists_the_last_definition :
    let d := Document.new "f" " a = x\r\n;b = y\n\u3000a-1\t=/ z\na =".toList 1
    let r := new Catalog.english {}
    d.text.bytes < UInt32.size ∧ (r.cache.rules? 0 d.uri d.version).1 = none ∧
      (r.symbolsOf 0 d).1 =
        [⟨"a-1".toList, "f", ⟨2, 1⟩, ⟨2, 4⟩⟩, ⟨"a".toList, "f", ⟨3, 0⟩, ⟨3, 1⟩⟩] ∧
      LastSite d.text "a-1".toList ⟨⟨2, 1⟩, ⟨2, 4⟩⟩ ∧
      LastSite d.text "a".toList ⟨⟨3, 0⟩, ⟨3, 1⟩⟩ ∧
      ¬ ∃ i indent, DefinitionOn d.text "b".toList indent i := by
  intro d r
  have hbytes : d.text.bytes < UInt32.size := by decide
  have hcold : (r.cache.rules? 0 d.uri d.version).1 = none := rfl
  have hsymbols : (r.symbolsOf 0 d).1 =
      [⟨"a-1".toList, "f", ⟨2, 1⟩, ⟨2, 4⟩⟩, ⟨"a".toList, "f", ⟨3, 0⟩, ⟨3, 1⟩⟩] := by
    cbv
  have hcomment : (scanDefinitions d.uri d.text).contains "b".toList = false := by
    cbv
  obtain ⟨hdefined, hsite, hlist⟩ := symbol_table_is_exact hbytes
  obtain ⟨_, hmem, _, _⟩ := hlist r 0 hcold
  rw [hsymbols] at hmem
  have hlonger := hsite _ _ ((hmem "a-1".toList ⟨"f", ⟨2, 1⟩, ⟨2, 4⟩⟩).mp (by simp))
  have hlater := hsite _ _ ((hmem "a".toList ⟨"f", ⟨3, 0⟩, ⟨3, 1⟩⟩).mp (by simp))
  refine ⟨hbytes, hcold, hsymbols, hlonger.2.2, hlater.2.2, ?_⟩
  rw [← hdefined, hcomment]
  exact Bool.false_ne_true

end Resolver

end AbnfServer
