-- What the entries of a cache hold after each operation, and since when. No
-- operation brings in an entry but the one it writes, and none makes an entry
-- younger than it is.
import AbnfServer.Cache.Scans

namespace AbnfServer

namespace AgingCache

variable {κ ν : Type} [DecidableEq κ]

/-- Every entry, old or not, has the property, which may ask when the entry was
written. -/
def Each (c : AgingCache κ ν) (P : κ → ν → Nanos → Prop) : Prop :=
  ∀ k s, c.slots.get? k = some s → P k s.value s.writtenAt

variable {c : AgingCache κ ν} {P Q : κ → ν → Nanos → Prop}

theorem each_new (capacity : Nat) (lifetime : Nanos) :
    (new capacity lifetime : AgingCache κ ν).Each P := by
  intro k s h
  cases h

theorem each_clear (c : AgingCache κ ν) : c.clear.Each P := by
  intro k s h
  cases h

theorem Each.mono (h : c.Each P) (hPQ : ∀ k v w, P k v w → Q k v w) : c.Each Q :=
  fun k s hs => hPQ k s.value s.writtenAt (h k s hs)

theorem each_filter (h : c.Each P) (p : κ → Slot ν → Bool) :
    ({ c with slots := c.slots.filter p } : AgingCache κ ν).Each P := by
  intro k s hs
  rw [Dict.get?_filter] at hs
  exact h k s (Option.filter_eq_some_iff.mp hs).1

theorem each_purge (h : c.Each P) (now : Nanos) : (c.purge now).Each P := each_filter h _

/-- What is left stands under other keys. -/
theorem each_remove (h : c.Each P) (k : κ) : (c.remove k).Each fun a v w => a ≠ k ∧ P a v w := by
  intro a s hs
  rw [remove, Dict.get?_erase] at hs
  split at hs
  · cases hs
  · next ha => exact ⟨ha, h a s hs⟩

theorem each_evict (h : c.Each P) : c.evict.2.Each P := by
  unfold evict
  split
  · exact h
  · next e _ => exact (each_remove h e.1).mono fun _ _ _ hv => hv.2

theorem each_makeRoom (h : c.Each P) (now : Nanos) : (c.makeRoom now).2.Each P := by
  unfold makeRoom
  split
  · exact h
  · simp only
    split
    · exact each_purge h now
    · exact each_evict (each_purge h now)

/-- After a write there is the entry that was written, and old ones under other
keys. -/
theorem each_insert (h : c.Each P) (now : Nanos) (k : κ) (v : ν) :
    (c.insert now k v).2.Each fun a x w => a = k ∧ x = v ∧ w = now ∨ a ≠ k ∧ P a x w := by
  have hroom : (if c.slots.contains k then (none, c) else c.makeRoom now).2.Each P := by
    split
    · exact h
    · exact each_makeRoom h now
  intro a s hs
  simp only [insert, Dict.get?_insert] at hs
  split at hs
  · next ha =>
    cases hs
    exact Or.inl ⟨ha, rfl, rfl⟩
  · next ha => exact Or.inr ⟨ha, hroom a s hs⟩

/-- A look that finds a value changes it in its place. If it finds none, no entry
is left under the key. -/
theorem each_modify (h : c.Each P) (now : Nanos) (k : κ) (f : ν → ν) :
    (c.modify now k f).2.Each fun a x w =>
      a ≠ k ∧ P a x w ∨ a = k ∧ ∃ v, (c.modify now k f).1 = some v ∧ x = f v ∧ P k v w := by
  unfold modify
  intro a s hs
  cases hg : c.slots.get? k with
  | none =>
    simp only [hg] at hs
    refine Or.inl ⟨?_, h a s hs⟩
    rintro rfl
    rw [hg] at hs
    cases hs
  | some t =>
    simp only [hg] at hs
    split at hs
    · exact Or.inl (each_remove h k a s hs)
    · next hlive =>
      simp only [Dict.get?_replace, hg, Option.map_some] at hs
      split at hs
      · next ha =>
        cases hs
        exact Or.inr ⟨ha, t.value, by simp [hlive], rfl, h k t hg⟩
      · next ha => exact Or.inl ⟨ha, h a s hs⟩

/-- The value that a look finds is one of the entries, and not too old. -/
theorem found_by_modify (h : c.Each P) {now : Nanos} {k : κ} {f : ν → ν} {v : ν}
    (hv : (c.modify now k f).1 = some v) : ∃ w, P k v w ∧ now - w ≤ c.lifetime := by
  unfold modify at hv
  cases hg : c.slots.get? k with
  | none =>
    rw [hg] at hv
    cases hv
  | some s =>
    simp only [hg] at hv
    split at hv
    · cases hv
    · next hlive =>
      cases hv
      exact ⟨s.writtenAt, h k s hg, by simpa [isExpired] using hlive⟩

/-! ## Limits -/

/-- What bounds a cache. -/
def limits (c : AgingCache κ ν) : CacheLimits := ⟨c.capacity, c.lifetime⟩

@[simp] theorem limits_modify (c : AgingCache κ ν) (now : Nanos) (k : κ) (f : ν → ν) :
    (c.modify now k f).2.limits = c.limits := by
  unfold modify
  split
  · rfl
  · split <;> rfl

@[simp] theorem limits_evict (c : AgingCache κ ν) : c.evict.2.limits = c.limits := by
  unfold evict
  split <;> rfl

@[simp] theorem limits_insert (c : AgingCache κ ν) (now : Nanos) (k : κ) (v : ν) :
    (c.insert now k v).2.limits = c.limits := by
  have hroom : (c.makeRoom now).2.limits = c.limits := by
    unfold makeRoom
    split
    · rfl
    · simp only
      split
      · rfl
      · exact limits_evict _
  unfold insert
  simp only
  split
  · rfl
  · exact hroom

/-! ## Entries of a version -/

/-- Looks an entry of one version up. An entry of another version is dropped. -/
def readAt (versionOf : ν → Int) (c : AgingCache κ ν) (now : Nanos) (k : κ) (version : Int) :
    Option ν × AgingCache κ ν :=
  match c.read now k with
  | (none, c) => (none, c)
  | (some e, c) => if versionOf e = version then (some e, c) else (none, c.remove k)

@[simp] theorem limits_readAt (versionOf : ν → Int) (c : AgingCache κ ν) (now : Nanos) (k : κ)
    (version : Int) : (c.readAt versionOf now k version).2.limits = c.limits := by
  have hread := limits_modify c now k id
  unfold readAt read
  generalize c.modify now k id = r at hread
  obtain ⟨found, d⟩ := r
  cases found with
  | none => exact hread
  | some e =>
    simp only
    split <;> exact hread

/-- After a look at one version, no entry of another one is left under the key. -/
theorem each_readAt (h : c.Each P) (versionOf : ν → Int) (now : Nanos) (k : κ) (version : Int) :
    (c.readAt versionOf now k version).2.Each fun a x w => P a x w ∧ (a = k → versionOf x = version) := by
  have hread := each_modify h now k id
  unfold readAt read
  generalize c.modify now k id = r at hread
  obtain ⟨found, d⟩ := r
  cases found with
  | none =>
    refine hread.mono fun a x w hx => ?_
    rcases hx with ⟨ha, hx⟩ | ⟨_, v, hv, _⟩
    · exact ⟨hx, fun hk => absurd hk ha⟩
    · cases hv
  | some e =>
    simp only
    split
    · next hversion =>
      refine hread.mono fun a x w hx => ?_
      rcases hx with ⟨ha, hx⟩ | ⟨rfl, v, hv, rfl, hx⟩
      · exact ⟨hx, fun hk => absurd hk ha⟩
      · cases hv
        exact ⟨hx, fun _ => hversion⟩
    · refine (each_remove hread k).mono fun a x w ⟨ha, hx⟩ => ?_
      rcases hx with ⟨_, hx⟩ | ⟨hk, _⟩
      · exact ⟨hx, fun hk => absurd hk ha⟩
      · exact absurd hk ha

theorem found_by_readAt (h : c.Each P) {versionOf : ν → Int} {now : Nanos} {k : κ} {version : Int} {e : ν}
    (he : (c.readAt versionOf now k version).1 = some e) :
    versionOf e = version ∧ ∃ w, P k e w ∧ now - w ≤ c.lifetime := by
  have hfound : ∀ v, (c.modify now k id).1 = some v → ∃ w, P k v w ∧ now - w ≤ c.lifetime :=
    fun v hv => found_by_modify h hv
  unfold readAt read at he
  generalize c.modify now k id = r at he hfound
  obtain ⟨found, d⟩ := r
  cases found with
  | none => cases he
  | some v =>
    simp only at he
    split at he
    · next hversion =>
      cases he
      exact ⟨hversion, hfound _ rfl⟩
    · cases he

end AgingCache

/-! ## Remembered scans -/

namespace ScanCache

variable (c : ScanCache) (now : Nanos) (uri : String) (version : Int)

theorem rules?_eq : c.rules? now uri version =
    ((c.rules.readAt ScannedRules.version now uri version).1.map ScannedRules.rules,
      { c with rules := (c.rules.readAt ScannedRules.version now uri version).2 }) := by
  unfold rules? AgingCache.readAt
  generalize c.rules.read now uri = r
  obtain ⟨found, rules⟩ := r
  cases found with
  | none => rfl
  | some e =>
    simp only
    split <;> rfl

theorem references?_eq (name : Text) : c.references? now uri version name =
    ((c.references.readAt ScannedReferences.version now uri version).1.bind fun e => e.byName.get? name,
      { c with references := (c.references.readAt ScannedReferences.version now uri version).2 }) := by
  unfold references? AgingCache.readAt
  generalize c.references.read now uri = r
  obtain ⟨found, references⟩ := r
  cases found with
  | none => rfl
  | some e =>
    simp only
    split <;> rfl

/-- After references were written, the entry of their document is of their version:
it is an old one that they joined, or one that holds nothing else. -/
theorem each_setReferences {c : ScanCache} {P : String → ScannedReferences → Nanos → Prop}
    (h : c.references.Each P) (now : Nanos) (uri : String) (version : Int) (name : Text)
    (found : List Rule.Reference) :
    (c.setReferences now uri version name found).references.Each fun a e w =>
      a ≠ uri ∧ P a e w ∨
      a = uri ∧ (∃ old, old.version = version ∧ e = old.add version name found ∧ P uri old w) ∨
      a = uri ∧ e = ⟨version, (∅ : Dict Text _).insert name found⟩ ∧ w = now := by
  have hlook := AgingCache.each_modify h now uri fun e => e.add version name found
  unfold setReferences
  generalize c.references.modify now uri _ = r at hlook
  obtain ⟨old, references⟩ := r
  have hothers : references.Each fun a e w => a ≠ uri → P a e w := by
    refine hlook.mono fun a e w he ha => ?_
    rcases he with ⟨_, he⟩ | ⟨rfl, _⟩
    · exact he
    · exact absurd rfl ha
  have hfresh := (AgingCache.each_insert hothers now uri
    ⟨version, (∅ : Dict Text _).insert name found⟩).mono fun a e w he =>
      show a ≠ uri ∧ P a e w ∨
        a = uri ∧ (∃ old, old.version = version ∧ e = old.add version name found ∧ P uri old w) ∨
        a = uri ∧ e = ⟨version, (∅ : Dict Text _).insert name found⟩ ∧ w = now from
      he.elim (fun he => Or.inr (Or.inr he)) fun ⟨ha, he⟩ => Or.inl ⟨ha, he ha⟩
  cases old with
  | none => exact hfresh
  | some old =>
    simp only
    split
    · next hversion =>
      refine hlook.mono fun a e w he => ?_
      rcases he with he | ⟨rfl, _, hold, rfl, he⟩
      · exact Or.inl he
      · cases hold
        exact Or.inr (Or.inl ⟨rfl, old, hversion, rfl, he⟩)
    · exact hfresh

@[simp] theorem rules_setReferences (name : Text) (found : List Rule.Reference) :
    (c.setReferences now uri version name found).rules = c.rules := by
  unfold setReferences
  simp only
  split
  · rfl
  · split <;> rfl

@[simp] theorem limits_setReferences (name : Text) (found : List Rule.Reference) :
    (c.setReferences now uri version name found).references.limits = c.references.limits := by
  have hlook := AgingCache.limits_modify c.references now uri fun e => e.add version name found
  unfold setReferences
  generalize c.references.modify now uri _ = r at hlook
  obtain ⟨old, references⟩ := r
  cases old with
  | none => simpa using hlook
  | some old =>
    simp only
    split
    · exact hlook
    · simpa using hlook

end ScanCache

end AbnfServer
