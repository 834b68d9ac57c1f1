-- A report leaves no trace. What it takes out no other call would have found, so the
-- calls after it get the replies that they would have got without it.
import AbnfServer.Proofs.Cache.History
import AbnfServer.Proofs.Cache.Live

namespace AbnfServer

/-! ## A purge on one side -/

namespace AgingCache

variable {κ ν : Type} {c d : AgingCache κ ν} {now : Nanos}

/-- What a purge takes out was no part of what is alike. -/
theorem Alike.purge_left (h : c.Alike now d) : (c.purge now).Alike now d := by
  obtain ⟨l, m, hc, hd, heq⟩ := h
  refine ⟨l.purged now, m, purged_refines hc now, hd, ?_⟩
  rw [RecencyList.purged_later l (Nat.le_refl now), heq]

/-- There is never more than fits. -/
theorem Alike.size_le (h : c.Alike now d) : c.size ≤ c.capacity := by
  obtain ⟨l, _, hc, _⟩ := h
  rw [size_eq hc, ← hc.capacity]
  exact hc.fits

/-- The entries of a cache that are at most as old as a lifetime. -/
def within (c : AgingCache κ ν) (lifetime now : Nanos) : List (κ × Slot ν) :=
  c.slots.entries.filter fun e => now - e.2.writtenAt ≤ lifetime

/-- The entries that are not too old. -/
theorem within_lifetime (c : AgingCache κ ν) (now : Nanos) :
    c.within c.lifetime now = c.slots.entries.filter fun e => !c.isExpired now e.2 := by
  refine List.filter_congr fun e _ => ?_
  rw [isExpired, ← decide_not]
  exact decide_eq_decide.mpr Nat.not_lt.symm

theorem size_purge (c : AgingCache κ ν) (now : Nanos) :
    (c.purge now).size = (c.within c.lifetime now).length := by
  rw [within_lifetime]
  rfl

variable [DecidableEq κ]

/-- When the entry under a key was written. -/
def writtenAt? (c : AgingCache κ ν) (k : κ) : Option Nanos := (c.slots.get? k).map Slot.writtenAt

theorem writtenAt?_eq {l : RecencyList κ ν} (h : c.Refines l) (k : κ) :
    c.writtenAt? k = (l.record? k).map CacheRecord.writtenAt := by
  rw [record?_eq h, Option.map_map]
  rfl

theorem writtenAt?_purge (h : c.Alike now d) (k : κ) :
    (c.purge now).writtenAt? k = (d.purge now).writtenAt? k := by
  obtain ⟨l, m, hc, hd, heq⟩ := h
  rw [writtenAt?_eq (purged_refines hc now), writtenAt?_eq (purged_refines hd now), heq]

end AgingCache

/-! ## Replies -/

/-- What a host sees of a call of the remembered scans. A write tells which document was
evicted for it, and a report also tells when the rules that it lists were written. -/
inductive ScanReply
  | table (found : Option Rule.SymbolTable)
  | there (found : Bool)
  | references (found : Option (List Rule.Reference))
  | evicted (uri : Option String)
  | done
  | report (report : CacheReport) (written : List (Option Nanos))

namespace ScanCache

def reply (c : ScanCache) (now : Nanos) : ScanCall → ScanReply
  | .rules uri version => .table (c.rules? now uri version).1
  | .hasRules uri version => .there (c.hasRules now uri version).1
  | .setRules uri version table => .evicted (c.rules.insert now uri ⟨version, table⟩).1
  | .references uri version name => .references (c.references? now uri version name).1
  | .setReferences uri version name found => .evicted (c.writeReferences now uri version name found).1
  | .clearDocument _ | .clearAll => .done
  | .report =>
    let (report, c) := c.report now
    .report report (report.entries.map fun e => c.rules.writtenAt? e.1)

/-- What a host sees of some calls, one after the other. Those without a call of their own
are reports that it takes in between, and of which it forgets the reply. -/
def replies (c : ScanCache) : List (Nanos × Option ScanCall) → List ScanReply
  | [] => []
  | (now, none) :: calls => (c.step now .report).replies calls
  | (now, some x) :: calls => c.reply now x :: (c.step now x).replies calls

variable {a b c : ScanCache} {now : Nanos}

theorem Alike.report_left (h : a.Alike now b) : (a.step now .report).Alike now b :=
  ⟨h.rules.purge_left, h.references.purge_left⟩

/-- Alike scans give the same reply to a call, and are alike after it. -/
theorem alike_step (h : a.Alike now b) (x : ScanCall) :
    a.reply now x = b.reply now x ∧ (a.step now x).Alike now (b.step now x) := by
  cases x with
  | rules uri version =>
    obtain ⟨htable, hrest⟩ := alike_rules? h uri version
    exact ⟨congrArg ScanReply.table htable, hrest⟩
  | hasRules uri version =>
    obtain ⟨htable, hrest⟩ := alike_rules? h uri version
    exact ⟨congrArg (fun table : Option Rule.SymbolTable => ScanReply.there table.isSome) htable, hrest⟩
  | setRules uri version table =>
    have hevicted := (AgingCache.alike_insert h.rules uri ⟨version, table⟩).1
    exact ⟨congrArg ScanReply.evicted hevicted, alike_setRules h uri version table⟩
  | references uri version name =>
    obtain ⟨hfound, hrest⟩ := alike_references? h uri version name
    exact ⟨congrArg ScanReply.references hfound, hrest⟩
  | setReferences uri version name found =>
    have hevicted := (alike_writeReferences h uri version name found).1
    exact ⟨congrArg ScanReply.evicted hevicted, alike_setReferences h uri version name found⟩
  | clearDocument uri => exact ⟨rfl, alike_clearDocument h uri⟩
  | clearAll => exact ⟨rfl, alike_clearAll h⟩
  | report =>
    obtain ⟨hreport, hrest⟩ := alike_report h
    refine ⟨?_, hrest⟩
    have hwritten : (fun e : String × Int => (a.rules.purge now).writtenAt? e.1) =
        fun e => (b.rules.purge now).writtenAt? e.1 :=
      funext fun e => AgingCache.writtenAt?_purge h.rules e.1
    exact congrArg₂ ScanReply.report hreport (congrArg₂ List.map hwritten (congrArg _ hreport))

/-- Scans that are alike give the same replies ever after, also when reports come in
between on one side only. -/
theorem replies_eq_of_alike {calls : List (Nanos × Option ScanCall)} (h : a.Alike now b)
    (hl : (now :: calls.map Prod.fst).Pairwise (· ≤ ·)) :
    a.replies calls = b.replies (calls.filter fun x => x.2.isSome) := by
  induction calls generalizing a b now with
  | nil => rfl
  | cons x calls ih =>
    obtain ⟨t, x⟩ := x
    obtain ⟨hnow, hrest⟩ := List.pairwise_cons.mp hl
    have hlater : a.Alike t b := h.later (hnow t List.mem_cons_self)
    cases x with
    -- the report moves the left side only, and the right side need not follow
    | none => exact ih hlater.report_left hrest
    | some x =>
      obtain ⟨hreply, hstep⟩ := alike_step hlater x
      exact congrArg₂ List.cons hreply (ih hstep hrest)

/-- The scans that some calls lead to are alike to themselves, so they are in order. -/
theorem alike_run_self (limits : CacheLimits) (calls : List (Nanos × ScanCall)) (now : Nanos) :
    ((new limits).run calls).Alike now ((new limits).run calls) := by
  induction calls using List.reverseRecOn generalizing now with
  | nil => exact alike_new limits now
  | append_singleton calls x ih =>
    rw [run_snoc]
    exact (alike_step (ih x.1) x.2).2.self now

/-! ## What a report tells -/

theorem mem_listed_iff {uri : String} {version : Int} : (uri, version) ∈ c.listed now ↔
    ∃ s, c.rules.slots.get? uri = some s ∧ c.rules.isExpired now s = false ∧ s.value.version = version := by
  constructor
  · intro h
    obtain ⟨_, he, heq⟩ := List.mem_map.mp h
    obtain ⟨⟨k, s⟩, hs, rfl⟩ := List.mem_map.mp he
    obtain ⟨rfl, rfl⟩ := Prod.mk.inj heq
    obtain ⟨hm, hlive⟩ := List.mem_filter.mp hs
    exact ⟨s, Dict.get?_eq_some_iff.mpr hm, by simpa using hlive, rfl⟩
  · rintro ⟨s, hs, hlive, rfl⟩
    have hm : (uri, s) ∈ c.rules.slots.entries.filter fun e => !c.rules.isExpired now e.2 :=
      List.mem_filter.mpr ⟨Dict.get?_eq_some_iff.mp hs, by simp [hlive]⟩
    exact List.mem_map_of_mem (List.mem_map_of_mem hm)

theorem mem_entries_report_iff {uri : String} {version : Int} :
    (uri, version) ∈ (c.report now).1.entries ↔ (c.hasRules now uri version).1 = true := by
  rw [(entries_perm_listed c now).mem_iff, mem_listed_iff]
  simp only [hasRules, rules?_eq, AgingCache.readAt, AgingCache.read, AgingCache.modify]
  cases hs : c.rules.slots.get? uri with
  | none => simp
  | some s =>
    cases hold : c.rules.isExpired now s with
    | true => simp [hold]
    | false => by_cases hv : s.value.version = version <;> simp [hold, hv]

/-- A report counts the entries that are at most a lifetime old, never more than fit. It
lists those of the rules, with their versions, up the URIs, and they are what looks
would find. -/
structure Reported (c : ScanCache) (limits : CacheLimits) (now : Nanos) (r : CacheReport) : Prop where
  rules : r.rules.size = (c.rules.within limits.lifetime now).length
  references : r.references.size = (c.references.within limits.lifetime now).length
  capacity : r.rules.capacity = max limits.capacity 1 ∧ r.references.capacity = max limits.capacity 1
  fits : r.rules.size ≤ r.rules.capacity ∧ r.references.size ≤ r.references.capacity
  listed : r.entries.Perm
    ((c.rules.within limits.lifetime now).map fun e => (e.1, e.2.value.version))
  ascending : r.entries.Pairwise fun a b => a.1 < b.1
  found : ∀ uri version, (uri, version) ∈ r.entries ↔ (c.hasRules now uri version).1 = true

theorem reported_run (limits : CacheLimits) (calls : List (Nanos × ScanCall)) (now : Nanos) :
    ((new limits).run calls).Reported limits now (((new limits).run calls).report now).1 := by
  obtain ⟨hrules, hreferences⟩ := limits_run (new limits) calls
  obtain ⟨hrulesLife, hreferencesLife⟩ := lifetime_run limits calls
  have halike := (alike_run_self limits calls now).report_left
  generalize (new limits).run calls = c at *
  refine ⟨?_, ?_, ⟨congrArg CacheLimits.capacity hrules, congrArg CacheLimits.capacity hreferences⟩,
    ⟨halike.rules.size_le, halike.references.size_le⟩, ?_, ascending_entries c now,
    fun _ _ => mem_entries_report_iff⟩
  · rw [← hrulesLife]
    exact AgingCache.size_purge c.rules now
  · rw [← hreferencesLife]
    exact AgingCache.size_purge c.references now
  · refine (entries_perm_listed c now).trans (.of_eq ?_)
    rw [← hrulesLife, AgingCache.within_lifetime, listed, AgingCache.live, List.map_map]
    rfl

/-! ## The law -/

/-- Reports that come in between change no reply of a run, whatever the limits and
however many there are. And after every run, a report tells exactly what is not too
old. -/
theorem reports_leave_no_trace (limits : CacheLimits) :
    (∀ calls : List (Nanos × Option ScanCall), (calls.map Prod.fst).Pairwise (· ≤ ·) →
      (new limits).replies calls = (new limits).replies (calls.filter fun x => x.2.isSome)) ∧
    ∀ (calls : List (Nanos × ScanCall)) (now : Nanos),
      ((new limits).run calls).Reported limits now (((new limits).run calls).report now).1 := by
  refine ⟨fun calls h => ?_, reported_run limits⟩
  have hfirst : (0 :: calls.map Prod.fst).Pairwise (· ≤ ·) :=
    List.pairwise_cons.mpr ⟨fun t _ => Nat.zero_le t, h⟩
  exact replies_eq_of_alike (alike_new limits 0) hfirst

/-- The first entry is too old at the second write. A report before it takes the entry
out, and without that report the write does. The third write evicts either way. -/
theorem an_old_entry_makes_room_either_way :
    ([(0, some (.setRules "f" 1 ∅)), (11, none), (11, some (.setRules "g" 1 ∅)), (12, none),
        (13, some (.setRules "h" 1 ∅))].map (Prod.fst : Nanos × Option ScanCall → Nanos)).Pairwise (· ≤ ·) ∧
      (new ⟨1, 10⟩).replies [(0, some (.setRules "f" 1 ∅)), (11, none), (11, some (.setRules "g" 1 ∅)),
        (12, none), (13, some (.setRules "h" 1 ∅))] =
          [.evicted none, .evicted none, .evicted (some "g")] ∧
      (new ⟨1, 10⟩).replies [(0, some (.setRules "f" 1 ∅)), (11, some (.setRules "g" 1 ∅)),
        (13, some (.setRules "h" 1 ∅))] = [.evicted none, .evicted none, .evicted (some "g")] := by
  have hseen : (new ⟨1, 10⟩).replies [(0, some (.setRules "f" 1 ∅)), (11, none),
      (11, some (.setRules "g" 1 ∅)), (12, none), (13, some (.setRules "h" 1 ∅))] =
        [.evicted none, .evicted none, .evicted (some "g")] := by rfl
  exact ⟨by decide, hseen, ((reports_leave_no_trace ⟨1, 10⟩).1 _ (by decide)).symm.trans hseen⟩

end ScanCache

end AbnfServer
