-- The cache as its users see it: a list of records, the one touched longest
-- ago first. It has no touch counts and no table. The calls of a cache are
-- data here, so that a run of the cache and a run of the list can be compared.
import AbnfServer.Cache.Aging
import Mathlib.Data.List.Induction
import Mathlib.Data.Multiset.Basic

namespace AbnfServer

/-! ## Calls -/

/-- What a user may ask of a cache. -/
inductive CacheCall (κ ν : Type)
  | insert (key : κ) (value : ν)
  | get (key : κ)
  /-- A look at a value that changes it in its place. -/
  | update (key : κ) (change : ν → ν)
  | contains (key : κ)
  | remove (key : κ)
  | clear
  | purge
  | live
  | size

/-- What a cache answers. The live entries come in no order. -/
inductive CacheReply (κ ν : Type)
  | evicted (key : Option κ)
  | value (value : Option ν)
  | found (there : Bool)
  | done
  | count (n : Nat)
  | entries (entries : Multiset (κ × ν))

/-- Makes one call after the other with `step`, each at its time, and gathers
the replies. -/
def runCalls {κ ν σ : Type} (step : σ → Nanos → CacheCall κ ν → CacheReply κ ν × σ) (s : σ) :
    List (Nanos × CacheCall κ ν) → List (CacheReply κ ν) × σ
  | [] => ([], s)
  | (now, call) :: calls =>
    let (reply, s) := step s now call
    let (replies, s) := runCalls step s calls
    (reply :: replies, s)

theorem runCalls_append {κ ν σ : Type} (step : σ → Nanos → CacheCall κ ν → CacheReply κ ν × σ)
    (s : σ) (as bs : List (Nanos × CacheCall κ ν)) :
    (runCalls step s (as ++ bs)).2 = (runCalls step (runCalls step s as).2 bs).2 := by
  induction as generalizing s with
  | nil => rfl
  | cons a as ih => exact ih _

/-- Makes one call of a cache. -/
def AgingCache.call {κ ν : Type} [DecidableEq κ] (c : AgingCache κ ν) (now : Nanos) :
    CacheCall κ ν → CacheReply κ ν × AgingCache κ ν
  | .insert k v => let (key, c) := c.insert now k v; (.evicted key, c)
  | .get k => let (value, c) := c.read now k; (.value value, c)
  | .update k f => let (value, c) := c.modify now k f; (.value value, c)
  | .contains k => let (there, c) := c.contains now k; (.found there, c)
  | .remove k => (.value (c.stored? k), c.remove k)
  | .clear => (.done, c.clear)
  | .purge => (.count (c.size - (c.purge now).size), c.purge now)
  | .live => (.entries (c.live now), c)
  | .size => (.count c.size, c)

/-! ## The list -/

/-- A value, its key, and the time it was written. -/
structure CacheRecord (κ ν : Type) where
  key : κ
  value : ν
  writtenAt : Nanos
deriving DecidableEq, Repr

/-- Records in the order of their last touch, the one touched longest ago
first. -/
structure RecencyList (κ ν : Type) where
  capacity : Nat
  lifetime : Nanos
  records : List (CacheRecord κ ν) := []

namespace RecencyList

variable {κ ν : Type}

def new (capacity : Nat) (lifetime : Nanos) : RecencyList κ ν := ⟨max capacity 1, lifetime, []⟩

/-- Whether the age of a record exceeds the lifetime. -/
def expired (l : RecencyList κ ν) (now : Nanos) (r : CacheRecord κ ν) : Bool :=
  l.lifetime < now - r.writtenAt

/-- The records that are not too old, in their order. -/
def fresh (l : RecencyList κ ν) (now : Nanos) : List (CacheRecord κ ν) :=
  l.records.filter fun r => !l.expired now r

theorem mem_fresh {l : RecencyList κ ν} {now : Nanos} {r : CacheRecord κ ν} (h : r ∈ l.fresh now) :
    r ∈ l.records := (List.mem_filter.mp h).1

/-- Puts a record at the most recent end of a full list: what is too old goes
first, and only if the list is still full, the record touched longest ago. -/
def squeeze (l : RecencyList κ ν) (now : Nanos) (r : CacheRecord κ ν) :
    Option κ × List (CacheRecord κ ν) :=
  if (l.fresh now).length < l.capacity then (none, l.fresh now ++ [r])
  else match l.fresh now with
    | [] => (none, [r])
    | oldest :: rest => (some oldest.key, rest ++ [r])

variable [DecidableEq κ]

def record? (l : RecencyList κ ν) (k : κ) : Option (CacheRecord κ ν) :=
  l.records.find? fun r => r.key = k

/-- The records of all other keys. -/
def without (l : RecencyList κ ν) (k : κ) : List (CacheRecord κ ν) :=
  l.records.filter fun r => !decide (r.key = k)

/-- A look at a key. A record that is too old goes; any other one moves to the
most recent end, and its write time stays. -/
def look (l : RecencyList κ ν) (now : Nanos) (k : κ) (f : ν → ν) :
    Option ν × List (CacheRecord κ ν) :=
  match l.record? k with
  | none => (none, l.records)
  | some r =>
    if l.expired now r then (none, l.without k)
    else (some r.value, l.without k ++ [{ r with value := f r.value }])

/-- Writes a value. A record of the same key is replaced, however old it is. -/
def write (l : RecencyList κ ν) (now : Nanos) (k : κ) (v : ν) :
    Option κ × List (CacheRecord κ ν) :=
  if (l.record? k).isSome then (none, l.without k ++ [⟨k, v, now⟩])
  else if l.records.length < l.capacity then (none, l.records ++ [⟨k, v, now⟩])
  else l.squeeze now ⟨k, v, now⟩

/-- Makes one call of the list. -/
def call (l : RecencyList κ ν) (now : Nanos) :
    CacheCall κ ν → CacheReply κ ν × RecencyList κ ν
  | .insert k v => let (key, records) := l.write now k v; (.evicted key, { l with records })
  | .get k => let (value, records) := l.look now k id; (.value value, { l with records })
  | .update k f => let (value, records) := l.look now k f; (.value value, { l with records })
  | .contains k => let (value, records) := l.look now k id; (.found value.isSome, { l with records })
  | .remove k => (.value ((l.record? k).map CacheRecord.value), { l with records := l.without k })
  | .clear => (.done, { l with records := [] })
  | .purge => (.count (l.records.filter (l.expired now)).length, { l with records := l.fresh now })
  | .live => (.entries ((l.fresh now).map fun r => (r.key, r.value)), l)
  | .size => (.count l.records.length, l)

/-! ## Limits -/

theorem limits_call (l : RecencyList κ ν) (now : Nanos) (c : CacheCall κ ν) :
    (l.call now c).2.capacity = l.capacity ∧ (l.call now c).2.lifetime = l.lifetime := by
  cases c <;> exact ⟨rfl, rfl⟩

/-- No call changes how much a list holds, and for how long. -/
theorem limits_run (l : RecencyList κ ν) (calls : List (Nanos × CacheCall κ ν)) :
    (runCalls call l calls).2.capacity = l.capacity ∧
      (runCalls call l calls).2.lifetime = l.lifetime := by
  induction calls generalizing l with
  | nil => exact ⟨rfl, rfl⟩
  | cons c calls ih =>
    obtain ⟨hc, hl⟩ := limits_call l c.1 c.2
    obtain ⟨hcs, hls⟩ := ih (l.call c.1 c.2).2
    exact ⟨hcs.trans hc, hls.trans hl⟩

/-! ## Where the records come from -/

/-- Every record was written by an insertion of its key, at its write time. -/
def WrittenBy (l : RecencyList κ ν) (calls : List (Nanos × CacheCall κ ν)) : Prop :=
  ∀ r ∈ l.records, ∃ v, (r.writtenAt, CacheCall.insert r.key v) ∈ calls

theorem mem_without {l : RecencyList κ ν} {k : κ} {r : CacheRecord κ ν} (h : r ∈ l.without k) :
    r ∈ l.records := (List.mem_filter.mp h).1

/-- A look leaves the key and the write time of each record as they were. -/
theorem mem_look {l : RecencyList κ ν} {now : Nanos} {k : κ} {f : ν → ν} {r : CacheRecord κ ν}
    (h : r ∈ (l.look now k f).2) :
    ∃ r₀ ∈ l.records, r.key = r₀.key ∧ r.writtenAt = r₀.writtenAt := by
  unfold look at h
  split at h
  · exact ⟨r, h, rfl, rfl⟩
  · next r₀ hr₀ =>
    split at h
    · exact ⟨r, mem_without h, rfl, rfl⟩
    · rcases List.mem_append.mp h with h | h
      · exact ⟨r, mem_without h, rfl, rfl⟩
      · rw [List.mem_singleton] at h
        exact ⟨r₀, List.mem_of_find?_eq_some hr₀, by rw [h], by rw [h]⟩

/-- After a write each record is an old one or the one that was written. -/
theorem mem_write {l : RecencyList κ ν} {now : Nanos} {k : κ} {v : ν} {r : CacheRecord κ ν}
    (h : r ∈ (l.write now k v).2) : r ∈ l.records ∨ r = ⟨k, v, now⟩ := by
  unfold write squeeze at h
  split_ifs at h with h1 h2 h3
  · exact (List.mem_append.mp h).imp mem_without List.mem_singleton.mp
  · exact (List.mem_append.mp h).imp id List.mem_singleton.mp
  · exact (List.mem_append.mp h).imp mem_fresh List.mem_singleton.mp
  · split at h
    · exact Or.inr (List.mem_singleton.mp h)
    · next oldest rest hl =>
      rcases List.mem_append.mp h with h | h
      · have hf : r ∈ l.fresh now := by rw [hl]; exact List.mem_cons_of_mem _ h
        exact Or.inl (mem_fresh hf)
      · exact Or.inr (List.mem_singleton.mp h)

/-- One call keeps the origin of the records. -/
theorem writtenBy_call {l : RecencyList κ ν} {calls : List (Nanos × CacheCall κ ν)}
    (h : l.WrittenBy calls) (now : Nanos) (c : CacheCall κ ν) :
    (l.call now c).2.WrittenBy (calls ++ [(now, c)]) := by
  have old : ∀ r ∈ l.records, ∃ v, (r.writtenAt, CacheCall.insert r.key v) ∈ calls ++ [(now, c)] := by
    intro r hr
    obtain ⟨v, hv⟩ := h r hr
    exact ⟨v, List.mem_append_left _ hv⟩
  have looked : ∀ k f, ∀ r ∈ (l.look now k f).2,
      ∃ v, (r.writtenAt, CacheCall.insert r.key v) ∈ calls ++ [(now, c)] := by
    intro k f r hr
    obtain ⟨r₀, hr₀, hk, hw⟩ := mem_look hr
    rw [hk, hw]
    exact old r₀ hr₀
  intro r hr
  cases c with
  | insert k v =>
    rcases mem_write hr with hr | rfl
    · exact old r hr
    · exact ⟨v, List.mem_append_right _ (List.mem_singleton.mpr rfl)⟩
  | get k => exact looked k id r hr
  | update k f => exact looked k f r hr
  | contains k => exact looked k id r hr
  | remove k => exact old r (mem_without hr)
  | clear => exact absurd hr List.not_mem_nil
  | purge => exact old r (mem_fresh hr)
  | live => exact old r hr
  | size => exact old r hr

theorem writtenBy_run (capacity : Nat) (lifetime : Nanos) (calls : List (Nanos × CacheCall κ ν)) :
    (runCalls call (new capacity lifetime) calls).2.WrittenBy calls := by
  induction calls using List.reverseRecOn with
  | nil => intro r hr; exact absurd hr List.not_mem_nil
  | append_singleton calls c ih =>
    rw [runCalls_append]
    exact writtenBy_call ih c.1 c.2

end RecencyList

end AbnfServer
