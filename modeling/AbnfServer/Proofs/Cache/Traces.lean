-- What a look at one version of an entry leaves behind. A live entry of another
-- version is gone, and a live entry of the version is the last one to be evicted.
-- New entries bring that to light.
import AbnfServer.Proofs.Cache.Live

namespace AbnfServer

/-! ## A look at a version -/

namespace RecencyList

variable {κ ν : Type} {l : RecencyList κ ν} {now : Nanos}

theorem fresh_eq_self (h : ∀ r ∈ l.records, l.expired now r = false) : l.fresh now = l.records :=
  List.filter_eq_self.mpr fun r hr => by simp [h r hr]

theorem purged_eq_self (h : ∀ r ∈ l.records, l.expired now r = false) : l.purged now = l := by
  rw [purged, fresh_eq_self h]

theorem live_of_mem_fresh {r : CacheRecord κ ν} (h : r ∈ l.fresh now) : l.expired now r = false := by
  simpa using (List.mem_filter.mp h).2

/-- A list with one more record at the end. Those that were touched longest ago make
room. -/
def pushed (l : RecencyList κ ν) (r : CacheRecord κ ν) : RecencyList κ ν :=
  { l with records := (l.records ++ [r]).drop (l.records.length + 1 - l.capacity) }

/-- Of a row of pushes the last records stay, as many as fit. -/
theorem foldl_pushed (rs : List (CacheRecord κ ν)) (h : l.records.length ≤ l.capacity) :
    rs.foldl pushed l =
      { l with records := (l.records ++ rs).drop (l.records.length + rs.length - l.capacity) } := by
  induction rs generalizing l with
  | nil => simp [Nat.sub_eq_zero_of_le h]
  | cons r rs ih =>
    have hlength : (l.pushed r).records.length =
        l.records.length + 1 - (l.records.length + 1 - l.capacity) := by
      simp [pushed]
    have hcap : (l.pushed r).capacity = l.capacity := rfl
    have hle : l.records.length + 1 - l.capacity ≤ (l.records ++ [r]).length := by
      rw [List.length_append, List.length_singleton]
      omega
    have hall : ((l.pushed r).records ++ rs).drop
        ((l.pushed r).records.length + rs.length - (l.pushed r).capacity) =
          (l.records ++ r :: rs).drop (l.records.length + (r :: rs).length - l.capacity) := by
      rw [hlength, hcap, pushed, ← List.drop_append_of_le_length hle, List.drop_drop,
        List.append_assoc, List.singleton_append, List.length_cons]
      congr 1
      omega
    rw [List.foldl_cons, ih (by rw [hlength, hcap]; omega), hall]
    rfl

theorem mem_pushed {r s : CacheRecord κ ν} (h : s ∈ (l.pushed r).records) : s ∈ l.records ∨ s = r :=
  (List.mem_append.mp (List.mem_of_mem_drop h)).imp id List.mem_singleton.mp

variable [DecidableEq κ]

/-- The records after a look at one version of an entry, where none is too old. -/
def sighted (l : RecencyList κ ν) (versionOf : ν → Int) (k : κ) (version : Int) :
    List (CacheRecord κ ν) :=
  match l.record? k with
  | none => l.records
  | some r => if versionOf r.value = version then l.without k ++ [r] else l.without k

/-- A record stands at one place among records with distinct keys. -/
theorem split_of_record? {k : κ} {r : CacheRecord κ ν} (hd : (l.records.map CacheRecord.key).Nodup)
    (hr : l.record? k = some r) :
    ∃ before after, l.records = before ++ r :: after ∧ l.without k = before ++ after ∧ r.key = k := by
  have hk : r.key = k := by simpa using List.find?_some hr
  obtain ⟨before, after, hsplit⟩ := List.append_of_mem (List.mem_of_find?_eq_some hr)
  refine ⟨before, after, hsplit, ?_, hk⟩
  rw [hsplit, List.map_append, List.map_cons, List.nodup_append, List.nodup_cons, hk] at hd
  obtain ⟨_, ⟨hafter, _⟩, hbefore⟩ := hd
  have others : ∀ s ∈ before ++ after, s.key ≠ k := by
    intro s hs hsk
    have hmap := List.mem_map_of_mem (f := CacheRecord.key) hs
    rw [hsk, List.map_append] at hmap
    rcases List.mem_append.mp hmap with hm | hm
    · exact hbefore k hm k List.mem_cons_self rfl
    · exact hafter hm
  have hkeep : (before ++ after).filter (fun s => !decide (s.key = k)) = before ++ after :=
    List.filter_eq_self.mpr fun s hs => by simp [others s hs]
  rw [without, hsplit, List.filter_append, List.filter_cons_of_neg (by simp [hk]),
    ← List.filter_append, hkeep]

/-- A look at the record that was touched last changes nothing. -/
theorem sighted_last {versionOf : ν → Int} {k : κ} {version : Int}
    (hd : (l.records.map CacheRecord.key).Nodup)
    (h : ∀ r, l.record? k = some r → versionOf r.value = version ∧ l.records.getLast? = some r) :
    l.sighted versionOf k version = l.records := by
  unfold sighted
  cases hr : l.record? k with
  | none => rfl
  | some r =>
    obtain ⟨hversion, hlast⟩ := h r hr
    obtain ⟨before, after, hsplit, hwithout, _⟩ := split_of_record? hd hr
    rcases List.eq_nil_or_concat after with rfl | ⟨front, s, rfl⟩
    · simp [hversion, hwithout, hsplit]
    · have hs : s = r := by
        have hend : before ++ r :: front.concat s = (before ++ r :: front) ++ [s] := by simp
        rw [hsplit, hend, List.getLast?_concat] at hlast
        exact Option.some.inj hlast
      rw [hsplit, hs] at hd
      simp [List.nodup_append] at hd

/-- When no record is too old, a write under a new key pushes a record. -/
theorem write_new (hlive : ∀ r ∈ l.records, l.expired now r = false) {k : κ}
    (hk : l.record? k = none) (hpos : 0 < l.capacity) (hfits : l.records.length ≤ l.capacity) (v : ν) :
    (l.write now k v).2 = (l.pushed ⟨k, v, now⟩).records := by
  have hfresh : l.fresh now = l.records := fresh_eq_self hlive
  simp only [write, squeeze, pushed, hk, hfresh, Option.isSome_none, Bool.false_eq_true, if_false]
  by_cases hroom : l.records.length < l.capacity
  · have hnone : l.records.length + 1 - l.capacity = 0 := by omega
    simp only [hroom, if_true, hnone, List.drop_zero]
  · have hone : l.records.length + 1 - l.capacity = 1 := by omega
    simp only [hroom, if_false, hone]
    cases hrs : l.records with
    | nil =>
      rw [hrs] at hroom
      exact absurd hpos hroom
    | cons oldest rest => rfl

end RecencyList

namespace AgingCache

open RecencyList

variable {κ ν : Type} {c : AgingCache κ ν} {l : RecencyList κ ν} {now : Nanos}

theorem Refines.nodup (h : c.Refines l) : (l.records.map CacheRecord.key).Nodup := by
  obtain ⟨es, he, hl⟩ := h.ordered
  rw [hl, List.map_map]
  exact he.nodup

/-- In ascending order the greatest count comes last. -/
theorem getLast?_eq_some_iff_greatest {es : List (κ × Slot ν)} {e : κ × Slot ν} (he : e ∈ es)
    (h : es.Pairwise fun a b => a.2.touched < b.2.touched) :
    es.getLast? = some e ↔ ∀ f ∈ es, f.2.touched ≤ e.2.touched := by
  rw [List.getLast?_eq_some_iff]
  constructor
  · rintro ⟨front, rfl⟩ f hf
    rcases List.mem_append.mp hf with hf | hf
    · exact Nat.le_of_lt ((List.pairwise_append.mp h).2.2 f hf e (List.mem_singleton.mpr rfl))
    · rw [List.mem_singleton.mp hf]
  · intro hmax
    obtain ⟨front, last, rfl⟩ : ∃ front last, es = front ++ [last] :=
      ⟨_, _, (List.dropLast_append_getLast (List.ne_nil_of_mem he)).symm⟩
    rcases List.mem_append.mp he with hm | hm
    · have hlt := (List.pairwise_append.mp h).2.2 e hm last (List.mem_singleton.mpr rfl)
      have hle := hmax last (List.mem_append_right _ (List.mem_singleton.mpr rfl))
      omega
    · exact ⟨front, by rw [List.mem_singleton.mp hm]⟩

variable [DecidableEq κ]

/-- The live records after a look at one version of an entry. -/
theorem readAt_refines (h : c.Refines l) (versionOf : ν → Int) (now : Nanos) (k : κ) (version : Int) :
    ∃ m, (c.readAt versionOf now k version).2.Refines m ∧
      m.purged now = { l.purged now with records := (l.purged now).sighted versionOf k version } := by
  obtain ⟨hvalue, hrest⟩ := modify_refines h now k id
  obtain ⟨hsame, hleft⟩ := look_purged h now k id
  rw [← hsame] at hvalue
  have hlive : ∀ r ∈ l.fresh now, (l.purged now).expired now r = false :=
    fun r hr => live_of_mem_fresh (l := l) hr
  unfold readAt read sighted
  generalize c.modify now k id = p at hvalue hrest
  obtain ⟨found, d⟩ := p
  obtain rfl : found = _ := hvalue
  cases hr : (l.purged now).record? k with
  | none =>
    have hlook : (l.purged now).look now k id = (none, l.fresh now) := by
      simp only [look, hr]
      rfl
    rw [hlook] at hleft ⊢
    exact ⟨_, hrest, hleft.symm.trans (purged_eq_self hlive)⟩
  | some r =>
    have hm : r ∈ l.fresh now := List.mem_of_find?_eq_some hr
    have hlook : (l.purged now).look now k id = (some r.value, (l.purged now).without k ++ [r]) := by
      simp [look, hr, hlive r hm]
    have hkeep : ∀ s ∈ (l.purged now).without k ++ [r], (l.purged now).expired now s = false := by
      intro s hs
      rcases List.mem_append.mp hs with hs | hs
      · exact hlive s (mem_without hs)
      · rw [List.mem_singleton.mp hs]
        exact hlive r hm
    rw [hlook] at hleft ⊢
    have hmoved := hleft.symm.trans (purged_eq_self hkeep)
    simp only
    split
    · exact ⟨_, hrest, hmoved⟩
    · refine ⟨_, remove_refines hrest k, ?_⟩
      rw [purged_without, hmoved]
      have hk : r.key = k := by simpa using List.find?_some hr
      simp [without, hk]

/-- A look at a key that is not there leaves no trace at all. -/
theorem readAt_absent (h : c.Refines l) (versionOf : ν → Int) (now : Nanos) {k : κ} (version : Int)
    (hk : l.record? k = none) :
    (c.readAt versionOf now k version).1 = none ∧ (c.readAt versionOf now k version).2.Refines l := by
  obtain ⟨hvalue, hrest⟩ := modify_refines h now k id
  have hlook : l.look now k id = (none, l.records) := by simp only [look, hk]
  rw [hlook] at hvalue hrest
  unfold readAt read
  generalize c.modify now k id = p at hvalue hrest
  obtain ⟨found, d⟩ := p
  obtain rfl : found = none := hvalue
  exact ⟨rfl, hrest⟩

/-! ## Entries that a look does not move -/

/-- A live entry under the key, if there is one, is of the version, and no live entry
was touched after it. -/
def Settled (versionOf : ν → Int) (c : AgingCache κ ν) (now : Nanos) (k : κ) (version : Int) : Prop :=
  ∀ s, c.slots.get? k = some s → c.isExpired now s = false →
    versionOf s.value = version ∧
      ∀ e ∈ c.slots.entries, c.isExpired now e.2 = false → e.2.touched ≤ s.touched

/-- The live record that stands last is the one whose slot was touched last. -/
theorem getLast?_purged_iff (h : c.Refines l) {now : Nanos} {k : κ} {s : Slot ν}
    (hs : c.slots.get? k = some s) (hlive : c.isExpired now s = false) :
    (l.purged now).records.getLast? = some (recordOf (k, s)) ↔
      ∀ e ∈ c.slots.entries, c.isExpired now e.2 = false → e.2.touched ≤ s.touched := by
  obtain ⟨es, he, hl⟩ := h.ordered
  have hrecords : (l.purged now).records = (es.filter fun e => !c.isExpired now e.2).map recordOf :=
    fresh_eq h hl now
  have hm : (k, s) ∈ es.filter fun e => !c.isExpired now e.2 :=
    List.mem_filter.mpr ⟨he.perm.mem_iff.mpr (Dict.get?_eq_some_iff.mp hs), by simp [hlive]⟩
  have hgreatest := getLast?_eq_some_iff_greatest hm (he.ascending.filter fun e => !c.isExpired now e.2)
  rw [hrecords, List.getLast?_map]
  constructor
  · intro hlast e he' hlive'
    obtain ⟨last, hlast, hsame⟩ := Option.map_eq_some_iff.mp hlast
    have hlastm := List.mem_of_getLast? hlast
    obtain rfl : last = (k, s) := List.inj_on_of_nodup_map he.nodup (List.mem_filter.mp hlastm).1
      (List.mem_filter.mp hm).1 (congrArg CacheRecord.key hsame)
    exact hgreatest.mp hlast e (List.mem_filter.mpr ⟨he.perm.mem_iff.mpr he', by simp [hlive']⟩)
  · intro hmax
    have hlast := hgreatest.mpr fun e he' =>
      hmax e (he.perm.mem_iff.mp (List.mem_filter.mp he').1) (by simpa using (List.mem_filter.mp he').2)
    rw [hlast]
    rfl

theorem settled_iff (h : c.Refines l) (versionOf : ν → Int) (now : Nanos) (k : κ) (version : Int) :
    c.Settled versionOf now k version ↔
      ∀ r, (l.purged now).record? k = some r →
        versionOf r.value = version ∧ (l.purged now).records.getLast? = some r := by
  have hrecord : (l.purged now).record? k =
      ((c.slots.get? k).filter fun s => !c.isExpired now s).map fun s => recordOf (k, s) := by
    rw [record?_eq (purged_refines h now), purge, Dict.get?_filter]
    rfl
  rw [hrecord]
  constructor
  · intro hsettled r hr
    obtain ⟨s, hs, rfl⟩ := Option.map_eq_some_iff.mp hr
    obtain ⟨hget, hlive⟩ := Option.filter_eq_some_iff.mp hs
    have hlive : c.isExpired now s = false := by simpa using hlive
    obtain ⟨hversion, hmax⟩ := hsettled s hget hlive
    exact ⟨hversion, (getLast?_purged_iff h hget hlive).mpr hmax⟩
  · intro hr s hget hlive
    have hs : (c.slots.get? k).filter (fun s => !c.isExpired now s) = some s :=
      Option.filter_eq_some_iff.mpr ⟨hget, by simp [hlive]⟩
    obtain ⟨hversion, hlast⟩ := hr (recordOf (k, s)) (by rw [hs]; rfl)
    exact ⟨hversion, (getLast?_purged_iff h hget hlive).mp hlast⟩

/-- A look at a settled entry leaves no trace that shows. -/
theorem readAt_alike (h : c.Refines l) {versionOf : ν → Int} {k : κ} {version : Int}
    (hs : c.Settled versionOf now k version) : (c.readAt versionOf now k version).2.Alike now c := by
  obtain ⟨m, hm, hpurged⟩ := readAt_refines h versionOf now k version
  refine ⟨m, l, hm, h, ?_⟩
  have hsame := sighted_last (purged_refines h now).nodup ((settled_iff h versionOf now k version).mp hs)
  rw [hpurged, hsame]

end AgingCache

end AbnfServer
