-- What a cache holds is never made up: a value that comes out went in under the
-- same key. So if every scan that goes in is the scan of a text that counts,
-- every scan that comes out is one too.
import AbnfServer.Cache.Report
import AbnfServer.Proofs.Cache.Entries

namespace AbnfServer

/-! ## Scans of texts that count -/

open Rule

variable (T : String → Int → Text → Prop)

/-! `T uri version text` says that the text counts as the text of that version
of a document. -/

/-- The table of a text that counts. -/
def ScannedRules.Counts (uri : String) (e : ScannedRules) : Prop :=
  ∃ text, T uri e.version text ∧ e.rules = scanDefinitions uri text

/-- References in texts that count. -/
def ScannedReferences.Counts (uri : String) (e : ScannedReferences) : Prop :=
  ∀ name found, e.byName.get? name = some found →
    ∃ text, T uri e.version text ∧ found = scanReferences uri text name

/-- All that is remembered is a scan of a text that counts, whenever it was written. -/
structure ScanCache.Coherent (c : ScanCache) : Prop where
  rules : c.rules.Each fun uri e _ => e.Counts T uri
  references : c.references.Each fun uri e _ => e.Counts T uri

namespace ScanCache

variable {c : ScanCache} {T}

theorem coherent_new (limits : CacheLimits) : (new limits).Coherent T :=
  ⟨AgingCache.each_new _ _, AgingCache.each_new _ _⟩

theorem coherent_clearAll (c : ScanCache) : c.clearAll.Coherent T :=
  ⟨AgingCache.each_clear _, AgingCache.each_clear _⟩

theorem Coherent.mono {U : String → Int → Text → Prop} (h : c.Coherent T)
    (hTU : ∀ uri version text, T uri version text → U uri version text) : c.Coherent U where
  rules := h.rules.mono fun uri e _ ⟨text, ht, he⟩ => ⟨text, hTU uri e.version text ht, he⟩
  references := h.references.mono fun uri e _ he name found hf =>
    let ⟨text, ht, hs⟩ := he name found hf
    ⟨text, hTU uri e.version text ht, hs⟩

/-- Once a document is forgotten, none of its texts counts any more. -/
theorem coherent_clearDocument (h : c.Coherent T) (uri : String) :
    (c.clearDocument uri).Coherent fun u version text => u ≠ uri ∧ T u version text where
  rules := (AgingCache.each_remove h.rules uri).mono fun _ _ _ ⟨hu, text, ht, he⟩ => ⟨text, ⟨hu, ht⟩, he⟩
  references := (AgingCache.each_remove h.references uri).mono fun _ _ _ ⟨hu, he⟩ name found hf =>
    let ⟨text, ht, hs⟩ := he name found hf
    ⟨text, ⟨hu, ht⟩, hs⟩

theorem coherent_report (h : c.Coherent T) (now : Nanos) : (c.report now).2.Coherent T :=
  ⟨AgingCache.each_purge h.rules now, AgingCache.each_purge h.references now⟩

/-! ## Rules -/

theorem coherent_rules? (h : c.Coherent T) (now : Nanos) (uri : String) (version : Int) :
    (c.rules? now uri version).2.Coherent T ∧
      ∀ table, (c.rules? now uri version).1 = some table →
        ∃ text, T uri version text ∧ table = scanDefinitions uri text := by
  have hrest := AgingCache.each_readAt h.rules ScannedRules.version now uri version
  rw [rules?_eq]
  refine ⟨⟨hrest.mono fun _ _ _ he => he.1, h.references⟩, fun table ht => ?_⟩
  obtain ⟨e, he, rfl⟩ := Option.map_eq_some_iff.mp ht
  obtain ⟨rfl, _, hcounts, _⟩ := AgingCache.found_by_readAt h.rules he
  exact hcounts

theorem coherent_setRules (h : c.Coherent T) (now : Nanos) {uri : String} {version : Int}
    {text : Text} (ht : T uri version text) :
    (c.setRules now uri version (scanDefinitions uri text)).Coherent T where
  rules := by
    refine (AgingCache.each_insert h.rules now uri _).mono fun u e _ he => ?_
    rcases he with ⟨rfl, rfl, _⟩ | ⟨_, he⟩
    · exact ⟨text, ht, rfl⟩
    · exact he
  references := h.references

/-! ## References -/

theorem coherent_references? (h : c.Coherent T) (now : Nanos) (uri : String) (version : Int)
    (name : Text) :
    (c.references? now uri version name).2.Coherent T ∧
      ∀ found, (c.references? now uri version name).1 = some found →
        ∃ text, T uri version text ∧ found = scanReferences uri text name := by
  have hrest := AgingCache.each_readAt h.references ScannedReferences.version now uri version
  rw [references?_eq]
  refine ⟨⟨h.rules, hrest.mono fun _ _ _ he => he.1⟩, fun found hf => ?_⟩
  obtain ⟨e, he, hname⟩ := Option.bind_eq_some_iff.mp hf
  obtain ⟨rfl, _, hcounts, _⟩ := AgingCache.found_by_readAt h.references he
  exact hcounts name found hname

/-- References in a text that counts may join an entry. -/
theorem counts_add {uri : String} {version : Int} {text : Text} (ht : T uri version text) (name : Text)
    {e : ScannedReferences} (he : e.Counts T uri) :
    (e.add version name (scanReferences uri text name)).Counts T uri := by
  unfold ScannedReferences.add
  split
  · next hv =>
    intro other found hf
    rw [Dict.get?_insert] at hf
    split at hf
    · next ho =>
      cases hf
      exact ⟨text, hv ▸ ht, by rw [ho]⟩
    · exact he other found hf
  · exact he

theorem coherent_setReferences (h : c.Coherent T) (now : Nanos) {uri : String} {version : Int}
    {text : Text} (ht : T uri version text) (name : Text) :
    (c.setReferences now uri version name (scanReferences uri text name)).Coherent T := by
  have hnone : ScannedReferences.Counts T uri ⟨version, ∅⟩ := fun _ _ hf => by cases hf
  have hone : ScannedReferences.Counts T uri
      ⟨version, (∅ : Dict Text _).insert name (scanReferences uri text name)⟩ := by
    simpa [ScannedReferences.add] using counts_add ht name hnone
  refine ⟨?_, ?_⟩
  · rw [rules_setReferences]
    exact h.rules
  · refine (each_setReferences h.references now uri version name _).mono fun a e w he => ?_
    rcases he with ⟨_, he⟩ | ⟨rfl, old, rfl, rfl, he⟩ | ⟨rfl, rfl, _⟩
    · exact he
    · exact counts_add ht name he
    · exact hone

end ScanCache

end AbnfServer
