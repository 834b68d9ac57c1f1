-- What is too old never shows. Two caches that hold the same records in the same
-- order once the old ones are gone answer every look, write and report alike, from
-- then on and whatever the touch counts.
import AbnfServer.Proofs.Cache.Entries
import AbnfServer.Proofs.Cache.Refinement
import AbnfServer.Proofs.Sorting
import AbnfServer.Cache.Report
import Mathlib.Data.List.Nodup

namespace AbnfServer

/-! ## Lists without the old records -/

namespace RecencyList

variable {κ ν : Type} {l : RecencyList κ ν} {now : Nanos}

/-- A list with the records that are not too old. -/
def purged (l : RecencyList κ ν) (now : Nanos) : RecencyList κ ν := { l with records := l.fresh now }

/-- A record that is too old is so ever after. -/
theorem expired_later {later : Nanos} (h : now ≤ later) {r : CacheRecord κ ν}
    (hr : l.expired now r = true) : l.expired later r = true := by
  unfold expired at hr ⊢
  rw [decide_eq_true_eq] at hr ⊢
  exact Nat.lt_of_lt_of_le hr (Nat.sub_le_sub_right h r.writtenAt)

theorem purged_later (l : RecencyList κ ν) {later : Nanos} (h : now ≤ later) :
    (l.purged now).purged later = l.purged later := by
  refine congrArg (fun rs => ({ l with records := rs } : RecencyList κ ν)) ?_
  unfold purged fresh
  rw [List.filter_filter]
  refine List.filter_congr fun r _ => ?_
  have hlater : l.expired now r = true → l.expired later r = true := expired_later h
  change (!l.expired later r && !l.expired now r) = !l.expired later r
  cases hold : l.expired now r with
  | false => simp
  | true => simp [hlater hold]

/-- The same records are left of two lists whose records are the same once the old
ones are gone. -/
theorem purged_congr {rs ts : List (CacheRecord κ ν)}
    (h : rs.filter (fun r => !l.expired now r) = ts.filter fun r => !l.expired now r) :
    ({ l.purged now with records := rs } : RecencyList κ ν).purged now =
      ({ l with records := ts } : RecencyList κ ν).purged now :=
  congrArg (fun rs => ({ l with records := rs } : RecencyList κ ν)) h

theorem fresh_idem (l : RecencyList κ ν) (now : Nanos) :
    (l.fresh now).filter (fun r => !l.expired now r) = l.fresh now := by
  simp [fresh, List.filter_filter]

theorem purged_clear (l : RecencyList κ ν) (now : Nanos) :
    ({ l with records := [] } : RecencyList κ ν).purged now = { l.purged now with records := [] } := rfl

/-- To squeeze a record in is to drop what is too old first. -/
theorem squeeze_purged (l : RecencyList κ ν) (now : Nanos) (r : CacheRecord κ ν) :
    (l.purged now).squeeze now r = l.squeeze now r := by
  have hfresh : (l.purged now).fresh now = l.fresh now := fresh_idem l now
  unfold squeeze
  rw [hfresh]
  rfl

/-- A record that is too old takes up room until it goes. -/
theorem length_fresh_lt {r : CacheRecord κ ν} (hr : r ∈ l.records) (hold : l.expired now r = true) :
    (l.fresh now).length < l.records.length := by
  unfold fresh
  rw [List.length_filter_lt_length_iff_exists]
  exact ⟨r, hr, by simp [hold]⟩

variable [DecidableEq κ]

theorem without_eq_self {k : κ} (h : l.record? k = none) : l.without k = l.records := by
  unfold without
  refine List.filter_eq_self.mpr fun r hr => ?_
  simpa using List.find?_eq_none.mp h r hr

theorem fresh_without (l : RecencyList κ ν) (now : Nanos) (k : κ) :
    (l.without k).filter (fun r => !l.expired now r) = (l.purged now).without k :=
  List.filter_comm _ _ _

theorem without_purged_idem (l : RecencyList κ ν) (now : Nanos) (k : κ) :
    ((l.purged now).without k).filter (fun r => !l.expired now r) = (l.purged now).without k := by
  rw [← fresh_without, List.filter_filter]
  simp

theorem purged_without (l : RecencyList κ ν) (now : Nanos) (k : κ) :
    ({ l with records := l.without k } : RecencyList κ ν).purged now =
      { l.purged now with records := (l.purged now).without k } :=
  congrArg (fun rs => ({ l with records := rs } : RecencyList κ ν)) (fresh_without l now k)

/-- A new key is written alike with the old records and without them: they are the first
to make room. -/
theorem write_new_purged {k : κ} (hr : l.record? k = none) (hp : (l.purged now).record? k = none) (v : ν) :
    ((l.purged now).write now k v).1 = (l.write now k v).1 ∧
      ({ l.purged now with records := ((l.purged now).write now k v).2 } : RecencyList κ ν).purged now =
        ({ l with records := (l.write now k v).2 } : RecencyList κ ν).purged now := by
  have hfresh : (l.purged now).records = l.fresh now := rfl
  have hcap : (l.purged now).capacity = l.capacity := rfl
  have hle : (l.fresh now).length ≤ l.records.length := List.length_filter_le _ _
  simp only [write, hr, hp, Option.isSome_none, Bool.false_eq_true, if_false, hfresh, hcap,
    squeeze_purged]
  by_cases hroom : l.records.length < l.capacity
  · simp only [hroom, Nat.lt_of_le_of_lt hle hroom, if_true, true_and]
    refine purged_congr ?_
    rw [List.filter_append, List.filter_append, fresh_idem]
    rfl
  · simp only [hroom, if_false]
    by_cases hroom' : (l.fresh now).length < l.capacity
    · simp only [squeeze, hroom', if_true, true_and]
      exact purged_congr rfl
    · simp only [hroom', if_false, true_and]
      exact purged_congr rfl

end RecencyList

/-! ## Caches alike -/

namespace AgingCache

open RecencyList

variable {κ ν : Type} {c d : AgingCache κ ν} {l : RecencyList κ ν} {now : Nanos}

theorem purged_refines (h : c.Refines l) (now : Nanos) : (c.purge now).Refines (l.purged now) :=
  purge_refines h now

/-- Two caches that hold the same live records in the same order. -/
def Alike (now : Nanos) (c d : AgingCache κ ν) : Prop :=
  ∃ l m, c.Refines l ∧ d.Refines m ∧ l.purged now = m.purged now

theorem Refines.alike (h : c.Refines l) (now : Nanos) : c.Alike now c := ⟨l, l, h, h, rfl⟩

theorem Alike.self (h : c.Alike now d) (t : Nanos) : c.Alike t c := by
  obtain ⟨l, _, hc, _⟩ := h
  exact hc.alike t

theorem Alike.later {later : Nanos} (h : c.Alike now d) (hle : now ≤ later) : c.Alike later d := by
  obtain ⟨l, m, hc, hd, heq⟩ := h
  refine ⟨l, m, hc, hd, ?_⟩
  rw [← purged_later l hle, heq, purged_later m hle]

theorem alike_clear (h : c.Alike now d) : c.clear.Alike now d.clear := by
  obtain ⟨l, m, hc, hd, heq⟩ := h
  refine ⟨_, _, clear_refines hc, clear_refines hd, ?_⟩
  rw [purged_clear, purged_clear, heq]

/-- What is too old makes no difference, so neither does it when it goes. -/
theorem alike_purge (h : c.Alike now d) : (c.purge now).Alike now (d.purge now) := by
  obtain ⟨l, m, hc, hd, heq⟩ := h
  refine ⟨_, _, purged_refines hc now, purged_refines hd now, ?_⟩
  rw [heq]

/-- After a purge both take up the same room. -/
theorem use_purge (h : c.Alike now d) : (c.purge now).use = (d.purge now).use := by
  obtain ⟨l, m, hc, hd, heq⟩ := h
  have hrefc := purged_refines hc now
  have hrefd := purged_refines hd now
  unfold use
  rw [size_eq hrefc, size_eq hrefd, ← hrefc.capacity, ← hrefd.capacity, ← hrefc.lifetime,
    ← hrefd.lifetime, heq]

theorem live_purge (c : AgingCache κ ν) (now : Nanos) : (c.purge now).live now = c.live now := by
  have hslots : (c.purge now).slots.entries.filter (fun e => !c.isExpired now e.2) =
      c.slots.entries.filter fun e => !c.isExpired now e.2 := by
    simp [purge, Dict.filter, List.filter_filter]
  exact congrArg (List.map _) hslots

theorem live_perm (h : c.Alike now d) : (c.live now).Perm (d.live now) := by
  obtain ⟨l, m, hc, hd, heq⟩ := h
  refine Multiset.coe_eq_coe.mp ?_
  rw [live_eq hc, live_eq hd]
  exact congrArg (fun l : RecencyList κ ν =>
    ((l.records.map fun r => (r.key, r.value) : List (κ × ν)) : Multiset (κ × ν))) heq

/-! ## Looks and writes -/

variable [DecidableEq κ]

/-- Without the old records, a key has the record that it had, unless that is too
old. -/
theorem record?_purged (h : c.Refines l) (now : Nanos) (k : κ) :
    (l.purged now).record? k = (l.record? k).filter fun r => !l.expired now r := by
  rw [record?_eq (purged_refines h now), record?_eq h, purge, Dict.get?_filter]
  cases c.slots.get? k with
  | none => rfl
  | some s =>
    have hexp : l.expired now ⟨k, s.value, s.writtenAt⟩ = c.isExpired now s := expired_eq h now (k, s)
    cases hs : c.isExpired now s <;> simp [Option.filter, hs, hexp]

theorem record?_cases (h : c.Refines l) (now : Nanos) (k : κ) :
    l.record? k = none ∧ (l.purged now).record? k = none ∨
      ∃ r, l.record? k = some r ∧
        (l.expired now r = true ∧ (l.purged now).record? k = none ∨
          l.expired now r = false ∧ (l.purged now).record? k = some r) := by
  have hrecord := record?_purged h now k
  cases hr : l.record? k with
  | none =>
    rw [hr] at hrecord
    exact Or.inl ⟨rfl, hrecord⟩
  | some r =>
    rw [hr] at hrecord
    refine Or.inr ⟨r, rfl, ?_⟩
    cases hold : l.expired now r with
    | true => exact Or.inl ⟨rfl, by simpa [Option.filter, hold] using hrecord⟩
    | false => exact Or.inr ⟨rfl, by simpa [Option.filter, hold] using hrecord⟩

/-- A look finds the same with the old records and without them. -/
theorem look_purged (h : c.Refines l) (now : Nanos) (k : κ) (f : ν → ν) :
    ((l.purged now).look now k f).1 = (l.look now k f).1 ∧
      ({ l.purged now with records := ((l.purged now).look now k f).2 } : RecencyList κ ν).purged now =
        ({ l with records := (l.look now k f).2 } : RecencyList κ ν).purged now := by
  unfold look
  rcases record?_cases h now k with ⟨hr, hp⟩ | ⟨r, hr, ⟨hold, hp⟩ | ⟨hlive, hp⟩⟩
  · rw [hr, hp]
    exact ⟨rfl, purged_congr (fresh_idem l now)⟩
  · simp only [hr, hp, hold, if_true, true_and]
    refine purged_congr ?_
    rw [fresh_without, without_eq_self hp]
    exact fresh_idem l now
  · have hlive' : (l.purged now).expired now r = false := hlive
    simp only [hr, hp, hlive, hlive', Bool.false_eq_true, if_false, true_and]
    refine purged_congr ?_
    rw [List.filter_append, List.filter_append, fresh_without, without_purged_idem]

/-- A write evicts the same with the old records and without them. A record that is too
old makes room for one more when it goes, so the list without them has room for the
write where the other one replaces such a record. -/
theorem write_purged (h : c.Refines l) (now : Nanos) (k : κ) (v : ν) :
    ((l.purged now).write now k v).1 = (l.write now k v).1 ∧
      ({ l.purged now with records := ((l.purged now).write now k v).2 } : RecencyList κ ν).purged now =
        ({ l with records := (l.write now k v).2 } : RecencyList κ ν).purged now := by
  rcases record?_cases h now k with ⟨hr, hp⟩ | ⟨r, hr, ⟨hold, hp⟩ | ⟨_, hp⟩⟩
  · exact write_new_purged hr hp v
  · have hfresh : (l.purged now).records = l.fresh now := rfl
    have hroom : (l.fresh now).length < (l.purged now).capacity :=
      Nat.lt_of_lt_of_le (length_fresh_lt (List.mem_of_find?_eq_some hr) hold) h.fits
    simp only [write, hr, hp, Option.isSome_none, Option.isSome_some, Bool.false_eq_true, if_false,
      if_true, hfresh, hroom, true_and]
    refine purged_congr ?_
    rw [List.filter_append, List.filter_append, fresh_without, without_eq_self hp, hfresh, fresh_idem]
  · simp only [write, hr, hp, Option.isSome_some, if_true, true_and]
    refine purged_congr ?_
    rw [List.filter_append, List.filter_append, fresh_without, without_purged_idem]

theorem alike_modify (h : c.Alike now d) (k : κ) (f : ν → ν) :
    (c.modify now k f).1 = (d.modify now k f).1 ∧
      (c.modify now k f).2.Alike now (d.modify now k f).2 := by
  obtain ⟨l, m, hc, hd, heq⟩ := h
  obtain ⟨hcv, hcr⟩ := modify_refines hc now k f
  obtain ⟨hdv, hdr⟩ := modify_refines hd now k f
  obtain ⟨hlv, hlr⟩ := look_purged hc now k f
  obtain ⟨hmv, hmr⟩ := look_purged hd now k f
  refine ⟨?_, _, _, hcr, hdr, ?_⟩
  · rw [hcv, hdv, ← hlv, ← hmv, heq]
  · rw [← hlr, ← hmr, heq]

theorem alike_insert (h : c.Alike now d) (k : κ) (v : ν) :
    (c.insert now k v).1 = (d.insert now k v).1 ∧
      (c.insert now k v).2.Alike now (d.insert now k v).2 := by
  obtain ⟨l, m, hc, hd, heq⟩ := h
  obtain ⟨hcv, hcr⟩ := insert_refines hc now k v
  obtain ⟨hdv, hdr⟩ := insert_refines hd now k v
  obtain ⟨hlv, hlr⟩ := write_purged hc now k v
  obtain ⟨hmv, hmr⟩ := write_purged hd now k v
  refine ⟨?_, _, _, hcr, hdr, ?_⟩
  · rw [hcv, hdv, ← hlv, ← hmv, heq]
  · rw [← hlr, ← hmr, heq]

theorem alike_remove (h : c.Alike now d) (k : κ) : (c.remove k).Alike now (d.remove k) := by
  obtain ⟨l, m, hc, hd, heq⟩ := h
  refine ⟨_, _, remove_refines hc k, remove_refines hd k, ?_⟩
  rw [purged_without, purged_without, heq]

theorem alike_readAt (h : c.Alike now d) (versionOf : ν → Int) (k : κ) (version : Int) :
    (c.readAt versionOf now k version).1 = (d.readAt versionOf now k version).1 ∧
      (c.readAt versionOf now k version).2.Alike now (d.readAt versionOf now k version).2 := by
  obtain ⟨hvalue, hrest⟩ := alike_modify h k id
  unfold readAt read
  generalize c.modify now k id = p at hvalue hrest
  generalize d.modify now k id = q at hvalue hrest
  obtain ⟨found, c⟩ := p
  obtain ⟨_, d⟩ := q
  obtain rfl : found = _ := hvalue
  cases found with
  | none => exact ⟨rfl, hrest⟩
  | some e =>
    simp only
    split
    · exact ⟨rfl, hrest⟩
    · exact ⟨rfl, alike_remove hrest k⟩

end AgingCache

/-! ## Remembered scans alike -/

/-- The live scans are the same, in the same order. -/
structure ScanCache.Alike (now : Nanos) (a b : ScanCache) : Prop where
  rules : a.rules.Alike now b.rules
  references : a.references.Alike now b.references

namespace ScanCache

variable {a b : ScanCache} {now : Nanos}

theorem alike_new (limits : CacheLimits) (now : Nanos) : (new limits).Alike now (new limits) :=
  ⟨(AgingCache.refines_new _ _).alike now, (AgingCache.refines_new _ _).alike now⟩

theorem Alike.self (h : a.Alike now b) (t : Nanos) : a.Alike t a := ⟨h.rules.self t, h.references.self t⟩

theorem Alike.later {later : Nanos} (h : a.Alike now b) (hle : now ≤ later) : a.Alike later b :=
  ⟨h.rules.later hle, h.references.later hle⟩

theorem alike_rules? (h : a.Alike now b) (uri : String) (version : Int) :
    (a.rules? now uri version).1 = (b.rules? now uri version).1 ∧
      (a.rules? now uri version).2.Alike now (b.rules? now uri version).2 := by
  obtain ⟨hvalue, hrest⟩ := AgingCache.alike_readAt h.rules ScannedRules.version uri version
  rw [rules?_eq, rules?_eq]
  exact ⟨congrArg (Option.map ScannedRules.rules) hvalue, hrest, h.references⟩

theorem alike_setRules (h : a.Alike now b) (uri : String) (version : Int) (table : Rule.SymbolTable) :
    (a.setRules now uri version table).Alike now (b.setRules now uri version table) :=
  ⟨(AgingCache.alike_insert h.rules uri ⟨version, table⟩).2, h.references⟩

theorem alike_references? (h : a.Alike now b) (uri : String) (version : Int) (name : Text) :
    (a.references? now uri version name).1 = (b.references? now uri version name).1 ∧
      (a.references? now uri version name).2.Alike now (b.references? now uri version name).2 := by
  obtain ⟨hvalue, hrest⟩ := AgingCache.alike_readAt h.references ScannedReferences.version uri version
  rw [references?_eq, references?_eq]
  exact ⟨congrArg (Option.bind · fun e => e.byName.get? name) hvalue, h.rules, hrest⟩

/-- A write of references, with the document that is evicted for them, if any. -/
def writeReferences (c : ScanCache) (now : Nanos) (uri : String) (version : Int) (name : Text)
    (found : List Rule.Reference) : Option String × ScanCache :=
  let fresh (references : AgingCache String ScannedReferences) : Option String × ScanCache :=
    let (evicted, references) :=
      references.insert now uri ⟨version, (∅ : Dict Text _).insert name found⟩
    (evicted, { c with references })
  match c.references.modify now uri (·.add version name found) with
  | (none, references) => fresh references
  | (some e, references) =>
    if e.version = version then (none, { c with references }) else fresh references

theorem writeReferences_snd (c : ScanCache) (now : Nanos) (uri : String) (version : Int) (name : Text)
    (found : List Rule.Reference) :
    (c.writeReferences now uri version name found).2 = c.setReferences now uri version name found := by
  unfold writeReferences setReferences
  generalize c.references.modify now uri _ = p
  obtain ⟨old, references⟩ := p
  cases old with
  | none => rfl
  | some e =>
    simp only
    split <;> rfl

theorem alike_writeReferences (h : a.Alike now b) (uri : String) (version : Int) (name : Text)
    (found : List Rule.Reference) :
    (a.writeReferences now uri version name found).1 = (b.writeReferences now uri version name found).1 ∧
      (a.writeReferences now uri version name found).2.Alike now
        (b.writeReferences now uri version name found).2 := by
  obtain ⟨hvalue, hrest⟩ :=
    AgingCache.alike_modify h.references uri fun e => e.add version name found
  unfold writeReferences
  generalize a.references.modify now uri _ = p at hvalue hrest
  generalize b.references.modify now uri _ = q at hvalue hrest
  obtain ⟨old, left⟩ := p
  obtain ⟨_, right⟩ := q
  obtain rfl : old = _ := hvalue
  obtain ⟨hevicted, hfresh⟩ :=
    AgingCache.alike_insert hrest uri ⟨version, (∅ : Dict Text _).insert name found⟩
  cases old with
  | none => exact ⟨hevicted, h.rules, hfresh⟩
  | some e =>
    simp only
    split
    · exact ⟨rfl, h.rules, hrest⟩
    · exact ⟨hevicted, h.rules, hfresh⟩

theorem alike_setReferences (h : a.Alike now b) (uri : String) (version : Int) (name : Text)
    (found : List Rule.Reference) :
    (a.setReferences now uri version name found).Alike now
      (b.setReferences now uri version name found) := by
  rw [← writeReferences_snd, ← writeReferences_snd]
  exact (alike_writeReferences h uri version name found).2

theorem alike_clearDocument (h : a.Alike now b) (uri : String) :
    (a.clearDocument uri).Alike now (b.clearDocument uri) :=
  ⟨AgingCache.alike_remove h.rules uri, AgingCache.alike_remove h.references uri⟩

theorem alike_clearAll (h : a.Alike now b) : a.clearAll.Alike now b.clearAll :=
  ⟨AgingCache.alike_clear h.rules, AgingCache.alike_clear h.references⟩

/-! ## Reports -/

/-- The documents of a report before they are sorted. -/
def listed (c : ScanCache) (now : Nanos) : List (String × Int) :=
  (c.rules.live now).map fun e => (e.1, e.2.version)

theorem nodup_listed (c : ScanCache) (now : Nanos) : ((c.listed now).map Prod.fst).Nodup := by
  have hkeys : (c.listed now).map Prod.fst =
      (c.rules.slots.entries.filter fun e => !c.rules.isExpired now e.2).map Prod.fst := by
    simp [listed, AgingCache.live, List.map_map, Function.comp_def]
  rw [hkeys]
  exact c.rules.slots.distinct.sublist (List.filter_sublist.map _)

theorem sortOrder_uri : SortOrder fun a b : String × Int => decide (a.1 ≤ b.1) where
  trans a b c hab hbc := by
    rw [decide_eq_true_eq] at *
    exact String.le_trans hab hbc
  total a b := by simpa using String.le_total a.1 b.1

/-- No document is listed twice, so there is one order by URI. -/
theorem mergeSort_listed_eq {xs ys : List (String × Int)} (h : xs.Perm ys)
    (hnodup : (xs.map Prod.fst).Nodup) :
    (xs.mergeSort fun a b => a.1 ≤ b.1) = ys.mergeSort fun a b => a.1 ≤ b.1 := by
  refine sortOrder_uri.mergeSort_eq_of_perm h ?_
  intro x hx y hy hxy hyx
  rw [decide_eq_true_eq] at hxy hyx
  exact List.inj_on_of_nodup_map hnodup hx hy (String.le_antisymm hxy hyx)

/-- A report lists the live rules. -/
theorem entries_perm_listed (c : ScanCache) (now : Nanos) :
    (c.report now).1.entries.Perm (c.listed now) := by
  have hlive := AgingCache.live_purge c.rules now
  exact (List.mergeSort_perm _ _).trans (.of_eq (congrArg (List.map _) hlive))

theorem entries_report {c : ScanCache} {l : RecencyList String ScannedRules} (h : c.rules.Refines l)
    (now : Nanos) :
    (c.report now).1.entries.Perm ((l.fresh now).map fun r => (r.key, r.value.version)) := by
  have hlive := Multiset.coe_eq_coe.mp (AgingCache.live_eq h now)
  refine (entries_perm_listed c now).trans ((hlive.map _).trans (.of_eq ?_))
  rw [List.map_map]
  rfl

/-- A report goes strictly up the URIs. -/
theorem ascending_entries (c : ScanCache) (now : Nanos) :
    (c.report now).1.entries.Pairwise fun a b => a.1 < b.1 := by
  have hnodup : ((c.report now).1.entries.map Prod.fst).Nodup :=
    ((entries_perm_listed c now).map Prod.fst).nodup_iff.mpr (nodup_listed c now)
  have hsorted : (c.report now).1.entries.Pairwise fun a b => decide (a.1 ≤ b.1) = true :=
    sortOrder_uri.sorted _
  refine (hsorted.and (List.pairwise_map.mp hnodup)).imp fun ⟨hle, hne⟩ => ?_
  rw [decide_eq_true_eq] at hle
  exact Std.lt_of_le_of_ne hle hne

theorem alike_report (h : a.Alike now b) :
    (a.report now).1 = (b.report now).1 ∧ (a.report now).2.Alike now (b.report now).2 := by
  have hrules := AgingCache.alike_purge h.rules
  have hlisted : (listed ⟨a.rules.purge now, a.references.purge now⟩ now).Perm
      (listed ⟨b.rules.purge now, b.references.purge now⟩ now) :=
    (AgingCache.live_perm hrules).map _
  refine ⟨?_, hrules, AgingCache.alike_purge h.references⟩
  unfold report
  rw [CacheReport.mk.injEq]
  exact ⟨AgingCache.use_purge h.rules, AgingCache.use_purge h.references,
    mergeSort_listed_eq hlisted (nodup_listed _ now)⟩

end ScanCache

end AbnfServer
