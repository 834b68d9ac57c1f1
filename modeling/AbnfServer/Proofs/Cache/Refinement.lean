-- The cache keeps its order in touch counts, and its table may come in any
-- order. Still it answers every call as the list does that keeps its records
-- in order of last touch.
import AbnfServer.Proofs.Cache.Recency

namespace AbnfServer

namespace AgingCache

variable {κ ν : Type}

/-! ## The order in a cache -/

/-- The slots of a cache in the order of their touch counts. No count occurs
twice, and none is above the number of touches so far. -/
structure InOrder (c : AgingCache κ ν) (es : List (κ × Slot ν)) : Prop where
  perm : es.Perm c.slots.entries
  ascending : es.Pairwise fun a b => a.2.touched < b.2.touched
  counted : ∀ e ∈ es, e.2.touched ≤ c.touches

/-- What a slot under a key holds, its touch count aside. -/
def recordOf (e : κ × Slot ν) : CacheRecord κ ν := ⟨e.1, e.2.value, e.2.writtenAt⟩

/-- A list stands for a cache: the same limits, and a record for each slot, in
the order of the touch counts. There is never more than fits. -/
structure Refines (c : AgingCache κ ν) (l : RecencyList κ ν) : Prop where
  capacity : l.capacity = c.capacity
  lifetime : l.lifetime = c.lifetime
  ordered : ∃ es, c.InOrder es ∧ l.records = es.map recordOf
  positive : 0 < l.capacity
  fits : l.records.length ≤ l.capacity

/-- Two caches that differ in nothing but the order of their tables. -/
structure Reordered (c d : AgingCache κ ν) : Prop where
  capacity : d.capacity = c.capacity
  lifetime : d.lifetime = c.lifetime
  entries : d.slots.entries.Perm c.slots.entries
  touches : d.touches = c.touches

theorem Refines.reordered {c d : AgingCache κ ν} {l : RecencyList κ ν} (h : c.Refines l)
    (hd : c.Reordered d) : d.Refines l := by
  obtain ⟨es, he, hl⟩ := h.ordered
  have hes : d.InOrder es :=
    ⟨he.perm.trans hd.entries.symm, he.ascending, fun e hm => hd.touches ▸ he.counted e hm⟩
  exact ⟨h.capacity.trans hd.capacity.symm, h.lifetime.trans hd.lifetime.symm, ⟨es, hes, hl⟩,
    h.positive, h.fits⟩

theorem inOrder_nil {d : AgingCache κ ν} (h : d.slots = ∅) : d.InOrder [] where
  perm := by rw [h]; exact List.Perm.refl _
  ascending := List.Pairwise.nil
  counted _ he := absurd he List.not_mem_nil

theorem refines_new (capacity : Nat) (lifetime : Nanos) :
    (new capacity lifetime : AgingCache κ ν).Refines (.new capacity lifetime) where
  capacity := rfl
  lifetime := rfl
  ordered := ⟨[], inOrder_nil rfl, rfl⟩
  positive := by simp only [RecencyList.new]; omega
  fits := Nat.zero_le _

namespace InOrder

variable {c : AgingCache κ ν} {es : List (κ × Slot ν)}

theorem nodup (h : c.InOrder es) : (es.map Prod.fst).Nodup :=
  (h.perm.map Prod.fst).nodup_iff.mpr c.slots.distinct

theorem length (h : c.InOrder es) : es.length = c.size := h.perm.length_eq

/-- What a filter leaves of a cache is in order still. -/
theorem filter (h : c.InOrder es) (p : κ → Slot ν → Bool) :
    ({ c with slots := c.slots.filter p } : AgingCache κ ν).InOrder (es.filter fun e => p e.1 e.2) where
  perm := h.perm.filter _
  ascending := h.ascending.filter _
  counted e he := h.counted e (List.mem_filter.mp he).1

/-- A slot with a new count goes to the end of the order. -/
theorem push (h : c.InOrder es) {d : AgingCache κ ν} (k : κ) (s : Slot ν)
    (hs : s.touched = c.touches + 1) (hd : d.touches = c.touches + 1)
    (hperm : d.slots.entries.Perm (es ++ [(k, s)])) : d.InOrder (es ++ [(k, s)]) where
  perm := hperm.symm
  ascending := by
    rw [List.pairwise_append]
    refine ⟨h.ascending, List.pairwise_singleton _ _, ?_⟩
    intro a ha b hb
    rw [List.mem_singleton.mp hb]
    exact hs ▸ Nat.lt_succ_of_le (h.counted a ha)
  counted e he := by
    rcases List.mem_append.mp he with he | he
    · have := h.counted e he
      omega
    · rw [List.mem_singleton.mp he]
      exact Nat.le_of_eq (hs.trans hd.symm)

end InOrder

/-! ## The slot touched longest ago -/

theorem leastTouched?_eq_none {es : List (κ × Slot ν)} : leastTouched? es = none ↔ es = [] := by
  cases es with
  | nil => simp [leastTouched?]
  | cons e es =>
    unfold leastTouched?
    split
    · simp
    · split <;> simp

theorem leastTouched?_spec {es : List (κ × Slot ν)} {e : κ × Slot ν} (h : leastTouched? es = some e) :
    e ∈ es ∧ ∀ f ∈ es, e.2.touched ≤ f.2.touched := by
  induction es generalizing e with
  | nil => cases h
  | cons a es ih =>
    unfold leastTouched? at h
    split at h
    · next hn =>
      cases h
      rw [leastTouched?_eq_none.mp hn]
      simp
    · next b hb =>
      obtain ⟨hm, hle⟩ := ih hb
      split at h
      · next hab =>
        cases h
        refine ⟨List.mem_cons_self, ?_⟩
        intro f hf
        rcases List.mem_cons.mp hf with rfl | hf
        · exact Nat.le_refl _
        · exact Nat.le_trans hab (hle f hf)
      · next hab =>
        cases h
        refine ⟨List.mem_cons_of_mem _ hm, ?_⟩
        intro f hf
        rcases List.mem_cons.mp hf with rfl | hf
        · exact Nat.le_of_not_le hab
        · exact hle f hf

/-- In whatever order the table comes, the slot touched longest ago is the first
one in order. -/
theorem InOrder.leastTouched? {c : AgingCache κ ν} {es fs : List (κ × Slot ν)} (h : c.InOrder es)
    (hf : fs.Perm es) : leastTouched? fs = es.head? := by
  cases es with
  | nil => rw [hf.eq_nil]; rfl
  | cons a es =>
    cases hl : AgingCache.leastTouched? fs with
    | none =>
      rw [leastTouched?_eq_none.mp hl] at hf
      exact absurd hf.symm.eq_nil (List.cons_ne_nil a es)
    | some e =>
      obtain ⟨hm, hle⟩ := leastTouched?_spec hl
      have ha := hle a (hf.mem_iff.mpr List.mem_cons_self)
      rcases List.mem_cons.mp (hf.mem_iff.mp hm) with rfl | hm
      · rfl
      · have := List.rel_of_pairwise_cons h.ascending hm
        omega

/-! ## One call -/

variable {c : AgingCache κ ν} {l : RecencyList κ ν}

theorem expired_eq (h : c.Refines l) (now : Nanos) (e : κ × Slot ν) :
    l.expired now (recordOf e) = c.isExpired now e.2 := by
  simp [RecencyList.expired, isExpired, recordOf, h.lifetime]

/-- A cache in order stands for the records of its slots. -/
theorem InOrder.refines {d : AgingCache κ ν} {es : List (κ × Slot ν)} (he : d.InOrder es)
    (h : c.Refines l) (hc : d.capacity = c.capacity) (hl : d.lifetime = c.lifetime)
    (hfits : es.length ≤ l.capacity) : d.Refines { l with records := es.map recordOf } where
  capacity := h.capacity.trans hc.symm
  lifetime := h.lifetime.trans hl.symm
  ordered := ⟨es, he, rfl⟩
  positive := h.positive
  fits := by simpa using hfits

/-- What a filter leaves of a cache stands for the records of the slots that it leaves. -/
theorem filter_refines (h : c.Refines l) (p : κ → Slot ν → Bool) {rs : List (CacheRecord κ ν)}
    (hrs : ∀ es : List (κ × Slot ν), l.records = es.map recordOf →
      rs = (es.filter fun e => p e.1 e.2).map recordOf) :
    ({ c with slots := c.slots.filter p } : AgingCache κ ν).Refines { l with records := rs } := by
  obtain ⟨es, he, hl⟩ := h.ordered
  have hfits := h.fits
  rw [hl, List.length_map] at hfits
  rw [hrs es hl]
  exact (he.filter p).refines h rfl rfl (Nat.le_trans (List.length_filter_le _ _) hfits)

theorem size_eq (h : c.Refines l) : c.size = l.records.length := by
  obtain ⟨es, he, hl⟩ := h.ordered
  rw [hl, List.length_map, he.length]

theorem clear_refines (h : c.Refines l) : c.clear.Refines { l with records := [] } :=
  (inOrder_nil rfl).refines h rfl rfl (Nat.zero_le _)

/-- What is not too old is the same on both sides. -/
theorem fresh_eq (h : c.Refines l) {es : List (κ × Slot ν)} (hl : l.records = es.map recordOf)
    (now : Nanos) : l.fresh now = (es.filter fun e => !c.isExpired now e.2).map recordOf := by
  unfold RecencyList.fresh
  rw [hl, List.filter_map]
  congr 1
  refine List.filter_congr fun e _ => ?_
  simp [expired_eq h]

theorem purge_refines (h : c.Refines l) (now : Nanos) :
    (c.purge now).Refines { l with records := l.fresh now } :=
  filter_refines h (fun _ s => !c.isExpired now s) fun _ hl => fresh_eq h hl now

theorem purge_count (h : c.Refines l) (now : Nanos) :
    c.size - (c.purge now).size = (l.records.filter (l.expired now)).length := by
  rw [size_eq h, size_eq (purge_refines h now)]
  have := List.length_eq_length_filter_add (l := l.records) (l.expired now)
  simp only [RecencyList.fresh]
  omega

theorem live_eq (h : c.Refines l) (now : Nanos) :
    (c.live now : Multiset (κ × ν)) = ((l.fresh now).map fun r => (r.key, r.value)) := by
  obtain ⟨es, he, hl⟩ := h.ordered
  rw [fresh_eq h hl, List.map_map]
  exact Multiset.coe_eq_coe.mpr (((he.perm.symm.filter _).map _))

variable [DecidableEq κ]

theorem record?_eq (h : c.Refines l) (k : κ) :
    l.record? k = (c.slots.get? k).map fun s => ⟨k, s.value, s.writtenAt⟩ := by
  obtain ⟨es, he, hl⟩ := h.ordered
  rw [← Dict.get?_perm (a := ⟨es, he.nodup⟩) he.perm k]
  unfold RecencyList.record? Dict.get?
  rw [hl, List.find?_map, Option.map_map]
  have hkey : ((fun r : CacheRecord κ ν => decide (r.key = k)) ∘ recordOf) = fun e => decide (e.1 = k) := rfl
  rw [hkey]
  refine Option.map_congr fun e hf => ?_
  have hk : e.1 = k := by simpa using List.find?_some hf
  simp [recordOf, hk]

theorem stored?_eq (h : c.Refines l) (k : κ) :
    c.stored? k = (l.record? k).map CacheRecord.value := by
  rw [record?_eq h, Option.map_map]
  rfl

theorem without_eq {es : List (κ × Slot ν)} (hl : l.records = es.map recordOf) (k : κ) :
    l.without k = (es.filter fun e => !decide (e.1 = k)).map recordOf := by
  unfold RecencyList.without
  rw [hl, List.filter_map]
  rfl

theorem remove_refines (h : c.Refines l) (k : κ) :
    (c.remove k).Refines { l with records := l.without k } :=
  filter_refines h (fun a _ => !decide (a = k)) fun _ hl => without_eq hl k

/-- A slot that is there goes to the end when it is written or looked at. -/
theorem replace_refines (h : c.Refines l) {k : κ} (hk : c.slots.get? k ≠ none) (s : Slot ν)
    (hs : s.touched = c.touches + 1) :
    ({ c with slots := c.slots.replace k s, touches := c.touches + 1 } : AgingCache κ ν).Refines
      { l with records := l.without k ++ [⟨k, s.value, s.writtenAt⟩] } := by
  obtain ⟨es, he, hl⟩ := h.ordered
  have hrest := he.filter fun a _ => !decide (a = k)
  have hpush := hrest.push (d := { c with slots := c.slots.replace k s, touches := c.touches + 1 })
    k s hs rfl ((Dict.entries_replace_perm hk s).trans (hrest.perm.symm.append_right _))
  have hsize : (c.slots.replace k s).entries.length = l.records.length := by
    rw [← size_eq h]
    simp [Dict.replace, size, Dict.size]
  have hfits : ((es.filter fun e => !decide (e.1 = k)) ++ [(k, s)]).length ≤ l.capacity := by
    rw [hpush.length]
    exact Nat.le_trans (Nat.le_of_eq hsize) h.fits
  have href := hpush.refines h rfl rfl hfits
  simpa [without_eq hl, recordOf] using href

/-- A slot under a new key goes to the end, when there is room for it. -/
theorem insert_refines_of_room (h : c.Refines l) {k : κ} (hk : c.slots.get? k = none) (s : Slot ν)
    (hs : s.touched = c.touches + 1) (hroom : l.records.length < l.capacity) :
    ({ c with slots := c.slots.insert k s, touches := c.touches + 1 } : AgingCache κ ν).Refines
      { l with records := l.records ++ [⟨k, s.value, s.writtenAt⟩] } := by
  obtain ⟨es, he, hl⟩ := h.ordered
  have hperm : (c.slots.insert k s).entries.Perm (es ++ [(k, s)]) := by
    rw [Dict.entries_insert_new hk]
    exact he.perm.symm.append_right _
  have hpush := he.push (d := { c with slots := c.slots.insert k s, touches := c.touches + 1 })
    k s hs rfl hperm
  have hfits : (es ++ [(k, s)]).length ≤ l.capacity := by
    have hlen : l.records.length = es.length := by rw [hl, List.length_map]
    rw [List.length_append, List.length_singleton]
    omega
  have href := hpush.refines h rfl rfl hfits
  simpa [hl, recordOf] using href

/-- A look at a key touches nothing else. -/
theorem modify_refines (h : c.Refines l) (now : Nanos) (k : κ) (f : ν → ν) :
    (c.modify now k f).1 = (l.look now k f).1 ∧
      (c.modify now k f).2.Refines { l with records := (l.look now k f).2 } := by
  unfold modify RecencyList.look
  rw [record?_eq h k]
  cases hg : c.slots.get? k with
  | none =>
    obtain ⟨es, he, hl⟩ := h.ordered
    have hcount : ({ c with touches := c.touches + 1 } : AgingCache κ ν).InOrder es :=
      ⟨he.perm, he.ascending, fun e hm => Nat.le_succ_of_le (he.counted e hm)⟩
    have hfits := h.fits
    rw [hl, List.length_map] at hfits
    exact ⟨rfl, by simpa [hl] using hcount.refines h rfl rfl hfits⟩
  | some s =>
    have hexp : l.expired now ⟨k, s.value, s.writtenAt⟩ = c.isExpired now s := expired_eq h now (k, s)
    simp only [Option.map_some, hexp]
    split
    · exact ⟨rfl, remove_refines h k⟩
    · refine ⟨rfl, ?_⟩
      exact replace_refines h (by rw [hg]; exact Option.some_ne_none s)
        { s with value := f s.value, touched := c.touches + 1 } rfl

/-- The slot that is evicted is the oldest record. -/
theorem evict_refines (h : c.Refines l) {r : CacheRecord κ ν} {rs : List (CacheRecord κ ν)}
    (hr : l.records = r :: rs) :
    c.evict.1 = some r.key ∧ c.evict.2.Refines { l with records := rs } := by
  obtain ⟨es, he, hl⟩ := h.ordered
  rw [hr] at hl
  cases es with
  | nil => cases hl
  | cons e es =>
    rw [List.map_cons, List.cons.injEq] at hl
    obtain ⟨rfl, rfl⟩ := hl
    have hleast : AgingCache.leastTouched? c.slots.entries = some e := he.leastTouched? he.perm.symm
    have hevict : c.evict = (some e.1, c.remove e.1) := by
      unfold evict
      rw [hleast]
    have hnodup := he.nodup
    rw [List.map_cons, List.nodup_cons] at hnodup
    have hrest : l.without e.1 = es.map recordOf := by
      rw [without_eq (show l.records = (e :: es).map recordOf from hr)]
      congr 1
      rw [List.filter_cons_of_neg (by simp)]
      refine List.filter_eq_self.mpr fun f hf => ?_
      have : f.1 ≠ e.1 := fun hfe => hnodup.1 (hfe ▸ List.mem_map_of_mem hf)
      simp [this]
    rw [hevict]
    exact ⟨rfl, hrest ▸ remove_refines h e.1⟩

/-- Room for a record is made on both sides in the same way. -/
theorem makeRoom_refines (h : c.Refines l) (now : Nanos) (r : CacheRecord κ ν) :
    ∃ rs, (c.makeRoom now).2.Refines { l with records := rs } ∧ rs.length < l.capacity ∧
      ((c.makeRoom now).1, rs ++ [r]) =
        if l.records.length < l.capacity then (none, l.records ++ [r]) else l.squeeze now r := by
  unfold makeRoom RecencyList.squeeze
  have hp := purge_refines h now
  have hcap : (c.purge now).capacity = c.capacity := rfl
  simp only [size_eq h, size_eq hp, hcap, ← h.capacity]
  split
  · next hroom => exact ⟨l.records, h, hroom, rfl⟩
  · split
    · next hroom => exact ⟨l.fresh now, hp, hroom, rfl⟩
    · next hfull =>
      cases hf : l.fresh now with
      | nil =>
        rw [hf] at hfull
        exact absurd h.positive hfull
      | cons oldest rest =>
        rw [hf] at hp
        obtain ⟨hkey, href⟩ := evict_refines hp rfl
        have hfits := hp.fits
        exact ⟨rest, href, hfits, by rw [hkey]⟩

theorem evict_touches (c : AgingCache κ ν) : c.evict.2.touches = c.touches := by
  unfold evict
  split <;> rfl

theorem makeRoom_touches (c : AgingCache κ ν) (now : Nanos) :
    (c.makeRoom now).2.touches = c.touches := by
  unfold makeRoom
  split
  · rfl
  · simp only
    split
    · rfl
    · exact evict_touches _

/-- Making room brings no key in. -/
theorem get?_makeRoom (c : AgingCache κ ν) (now : Nanos) (k : κ) (hk : c.slots.get? k = none) :
    (c.makeRoom now).2.slots.get? k = none := by
  have hp : (c.purge now).slots.get? k = none := by
    simp [purge, Dict.get?_filter, hk]
  unfold makeRoom
  split
  · exact hk
  · simp only
    split
    · exact hp
    · unfold evict
      split
      · exact hp
      · simp [remove, Dict.get?_erase, hp]

theorem insert_refines (h : c.Refines l) (now : Nanos) (k : κ) (v : ν) :
    (c.insert now k v).1 = (l.write now k v).1 ∧
      (c.insert now k v).2.Refines { l with records := (l.write now k v).2 } := by
  unfold insert RecencyList.write Dict.contains
  rw [record?_eq h k]
  cases hg : c.slots.get? k with
  | some s =>
    have hk : c.slots.get? k ≠ none := by rw [hg]; exact Option.some_ne_none s
    simp only [Option.isSome_some, if_true, Option.map_some, Dict.insert_old hk, true_and]
    exact replace_refines h hk ⟨v, now, c.touches + 1⟩ rfl
  | none =>
    simp only [Option.isSome_none, Bool.false_eq_true, if_false, Option.map_none]
    obtain ⟨rs, href, hroom, heq⟩ := makeRoom_refines h now ⟨k, v, now⟩
    rw [← heq]
    refine ⟨rfl, ?_⟩
    have htouch := makeRoom_touches c now
    have hins := insert_refines_of_room href (get?_makeRoom c now k hg)
      ⟨v, now, c.touches + 1⟩ (by rw [htouch]) hroom
    rw [htouch] at hins
    exact hins

/-- One call gives the same reply on both sides, and keeps the list the view of
the cache. -/
theorem call_refines (h : c.Refines l) (now : Nanos) (x : CacheCall κ ν) :
    (c.call now x).1 = (l.call now x).1 ∧ (c.call now x).2.Refines (l.call now x).2 := by
  cases x with
  | insert k v =>
    obtain ⟨hkey, href⟩ := insert_refines h now k v
    exact ⟨congrArg CacheReply.evicted hkey, href⟩
  | get k =>
    obtain ⟨hv, href⟩ := modify_refines h now k id
    exact ⟨congrArg CacheReply.value hv, href⟩
  | update k f =>
    obtain ⟨hv, href⟩ := modify_refines h now k f
    exact ⟨congrArg CacheReply.value hv, href⟩
  | contains k =>
    obtain ⟨hv, href⟩ := modify_refines h now k id
    exact ⟨congrArg (fun v : Option ν => CacheReply.found v.isSome) hv, href⟩
  | remove k => exact ⟨congrArg CacheReply.value (stored?_eq h k), remove_refines h k⟩
  | clear => exact ⟨rfl, clear_refines h⟩
  | purge => exact ⟨congrArg CacheReply.count (purge_count h now), purge_refines h now⟩
  | live => exact ⟨congrArg CacheReply.entries (live_eq h now), h⟩
  | size => exact ⟨congrArg CacheReply.count (size_eq h), h⟩

/-! ## Whole runs -/

/-- A run of a cache whose table may come in another order before each call. -/
inductive Runs : AgingCache κ ν → List (Nanos × CacheCall κ ν) → List (CacheReply κ ν) →
    AgingCache κ ν → Prop
  | done (c : AgingCache κ ν) : Runs c [] [] c
  | call {c d e : AgingCache κ ν} {now : Nanos} {x : CacheCall κ ν}
      {calls : List (Nanos × CacheCall κ ν)} {replies : List (CacheReply κ ν)} :
      c.Reordered d → Runs (d.call now x).2 calls replies e →
      Runs c ((now, x) :: calls) ((d.call now x).1 :: replies) e

theorem Runs.refines {d : AgingCache κ ν} {calls : List (Nanos × CacheCall κ ν)}
    {replies : List (CacheReply κ ν)} (hr : Runs c calls replies d) (h : c.Refines l) :
    replies = (runCalls RecencyList.call l calls).1 ∧
      d.Refines (runCalls RecencyList.call l calls).2 := by
  induction hr generalizing l with
  | done => exact ⟨rfl, h⟩
  | call hd _ ih =>
    obtain ⟨hreply, hnext⟩ := call_refines (h.reordered hd) _ _
    obtain ⟨hreplies, hend⟩ := ih hnext
    exact ⟨congrArg₂ List.cons hreply hreplies, hend⟩

/-- A table that never comes in another order is a run too. -/
theorem runs_runCalls (c : AgingCache κ ν) (calls : List (Nanos × CacheCall κ ν)) :
    Runs c calls (runCalls call c calls).1 (runCalls call c calls).2 := by
  induction calls generalizing c with
  | nil => exact .done c
  | cons x calls ih => exact .call ⟨rfl, rfl, List.Perm.refl _, rfl⟩ (ih _)

/-- What is handed out was written no longer ago than an entry lives. -/
theorem handed_out (h : c.Refines l) {now : Nanos} {k : κ} {v : ν}
    (hv : (c.read now k).1 = some v ∨ (k, v) ∈ c.live now) :
    ∃ r ∈ l.records, r.key = k ∧ r.value = v ∧ now - r.writtenAt ≤ l.lifetime := by
  rcases hv with hv | hv
  · rw [read, (modify_refines h now k id).1] at hv
    unfold RecencyList.look at hv
    split at hv
    · cases hv
    · next r hr =>
      split at hv
      · cases hv
      · next hage =>
        have hk : r.key = k := by simpa using List.find?_some hr
        refine ⟨r, List.mem_of_find?_eq_some hr, hk, Option.some.inj hv, ?_⟩
        simpa [RecencyList.expired] using hage
  · have hm : (k, v) ∈ ((l.fresh now).map fun r => (r.key, r.value) : Multiset (κ × ν)) :=
      live_eq h now ▸ Multiset.mem_coe.mpr hv
    obtain ⟨r, hr, hkv⟩ := List.mem_map.mp (Multiset.mem_coe.mp hm)
    rw [Prod.mk.injEq] at hkv
    obtain ⟨hin, hage⟩ := List.mem_filter.mp hr
    refine ⟨r, hin, hkv.1, hkv.2, ?_⟩
    simpa [RecencyList.expired] using hage

/-! ## The law -/

/-- A cache answers every run of calls as the list of records in order of last
touch does, in whatever order its table comes before each call. So it never
holds more than fits, the slot to evict is the same for every order of the
table, and a value that it hands out was written, by an insertion of its key,
no longer ago than an entry lives. -/
theorem cache_answers_like_a_recency_list (capacity : Nat) (lifetime : Nanos)
    {calls : List (Nanos × CacheCall κ ν)} {replies : List (CacheReply κ ν)} {d : AgingCache κ ν}
    (hr : Runs (new capacity lifetime) calls replies d) :
    replies = (runCalls RecencyList.call (.new capacity lifetime) calls).1 ∧
      d.size = (runCalls RecencyList.call (.new capacity lifetime) calls).2.records.length ∧
      d.size ≤ max capacity 1 ∧
      (∀ fs, fs.Perm d.slots.entries → leastTouched? fs = leastTouched? d.slots.entries) ∧
      ∀ now k v, (d.read now k).1 = some v ∨ (k, v) ∈ d.live now →
        ∃ t w, (t, CacheCall.insert k w) ∈ calls ∧ now - t ≤ lifetime := by
  obtain ⟨hreplies, href⟩ := hr.refines (refines_new capacity lifetime)
  obtain ⟨hcap, hlife⟩ := RecencyList.limits_run (κ := κ) (ν := ν) (.new capacity lifetime) calls
  refine ⟨hreplies, size_eq href, ?_, ?_, ?_⟩
  · calc d.size = _ := size_eq href
      _ ≤ _ := href.fits
      _ = max capacity 1 := hcap
  · intro fs hfs
    obtain ⟨es, he, _⟩ := href.ordered
    rw [he.leastTouched? (hfs.trans he.perm.symm), he.leastTouched? he.perm.symm]
  · intro now k v hv
    obtain ⟨r, hm, rfl, rfl, hage⟩ := handed_out href hv
    obtain ⟨w, hw⟩ := RecencyList.writtenBy_run capacity lifetime calls r hm
    rw [hlife] at hage
    exact ⟨r.writtenAt, w, hw, hage⟩

/-- A full cache of two, whose table comes in another order before the third
insertion. The key `1` was looked at last, so `2` makes room. At time 14 the
value under `1` is too old. -/
theorem two_keys_answer_like_a_recency_list :
    ∃ d : AgingCache Nat Nat,
      Runs (new 2 10)
        [(0, .insert 1 7), (2, .insert 2 8), (3, .get 1), (4, .insert 3 9), (14, .contains 1),
          (14, .get 3)]
        [.evicted none, .evicted none, .value (some 7), .evicted (some 2), .found false,
          .value (some 9)] d ∧
      d.size = 1 ∧ d.size ≤ 2 ∧
      ∃ t w, (t, CacheCall.insert 3 w) ∈ [(0, .insert 1 7), (2, .insert 2 8), (3, .get 1),
        (4, .insert 3 9), (14, .contains 1), (14, .get (3 : Nat))] ∧ 14 - t ≤ 10 := by
  let swapped : AgingCache Nat Nat :=
    ⟨2, 10, ⟨[(2, ⟨8, 2, 2⟩), (1, ⟨7, 0, 3⟩)], by decide⟩, 3⟩
  have hrun : Runs (new 2 10 : AgingCache Nat Nat) [(0, .insert 1 7), (2, .insert 2 8), (3, .get 1),
      (4, .insert 3 9), (14, .contains 1), (14, .get 3)] _ _ :=
    .call ⟨rfl, rfl, .refl _, rfl⟩ <| .call ⟨rfl, rfl, .refl _, rfl⟩ <|
    .call ⟨rfl, rfl, .refl _, rfl⟩ <| .call (d := swapped) ⟨rfl, rfl, .swap _ _ _, rfl⟩ <|
    runs_runCalls _ [(14, .contains 1), (14, .get 3)]
  obtain ⟨_, _, hfits, _, hout⟩ := cache_answers_like_a_recency_list 2 10 hrun
  exact ⟨_, hrun, rfl, hfits, hout 14 3 9 (Or.inl rfl)⟩

end AgingCache

end AbnfServer
