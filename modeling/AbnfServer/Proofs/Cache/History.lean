-- A look at the remembered scans, seen from the calls that were made before. What
-- it finds is what the last write put there, and nothing has come in between that
-- would have made it a scan of something else.
import AbnfServer.Cache.Report
import AbnfServer.Proofs.Cache.Entries
import Mathlib.Data.List.Induction

namespace AbnfServer

/-! ## Calls -/

/-- What a host may do with the remembered scans. -/
inductive ScanCall
  | rules (uri : String) (version : Int)
  | hasRules (uri : String) (version : Int)
  | setRules (uri : String) (version : Int) (table : Rule.SymbolTable)
  | references (uri : String) (version : Int) (name : Text)
  | setReferences (uri : String) (version : Int) (name : Text) (found : List Rule.Reference)
  | clearDocument (uri : String)
  | clearAll
  | report

/-- Whether a call is none of these: a write of the rules of the document, a look at
its rules in another version, a call that forgets the document. -/
def ScanCall.SparesRules (uri : String) (version : Int) : ScanCall → Prop
  | .rules u v | .hasRules u v => u = uri → v = version
  | .setRules u _ _ | .clearDocument u => u ≠ uri
  | .clearAll => False
  | .references .. | .setReferences .. | .report => True

/-- Whether a call is none of these: a write of the references to the name in the
document, a look at references in another version of it or a write of such
references, a call that forgets the document. -/
def ScanCall.SparesReferences (uri : String) (version : Int) (name : Text) : ScanCall → Prop
  | .references u v _ => u = uri → v = version
  | .setReferences u v n _ => u = uri → v = version ∧ n ≠ name
  | .clearDocument u => u ≠ uri
  | .clearAll => False
  | .rules .. | .hasRules .. | .setRules .. | .report => True

namespace ScanCache

/-- The remembered scans after a call. -/
def step (c : ScanCache) (now : Nanos) : ScanCall → ScanCache
  | .rules uri version => (c.rules? now uri version).2
  | .hasRules uri version => (c.hasRules now uri version).2
  | .setRules uri version table => c.setRules now uri version table
  | .references uri version name => (c.references? now uri version name).2
  | .setReferences uri version name found => c.setReferences now uri version name found
  | .clearDocument uri => c.clearDocument uri
  | .clearAll => c.clearAll
  | .report => (c.report now).2

/-- The remembered scans after some calls, each at its time. -/
def run (c : ScanCache) (calls : List (Nanos × ScanCall)) : ScanCache :=
  calls.foldl (fun c x => c.step x.1 x.2) c

theorem run_snoc (c : ScanCache) (calls : List (Nanos × ScanCall)) (x : Nanos × ScanCall) :
    c.run (calls ++ [x]) = (c.run calls).step x.1 x.2 := by
  simp [run, List.foldl_append]

/-- No call changes the limits. -/
theorem limits_step (c : ScanCache) (now : Nanos) (x : ScanCall) :
    (c.step now x).rules.limits = c.rules.limits ∧
      (c.step now x).references.limits = c.references.limits := by
  cases x with
  | rules uri version => simp [step, rules?_eq]
  | hasRules uri version => simp [step, hasRules, rules?_eq]
  | setRules uri version table => simp [step, setRules]
  | references uri version name => simp [step, references?_eq]
  | setReferences uri version name found =>
    exact ⟨congrArg AgingCache.limits (rules_setReferences ..), limits_setReferences ..⟩
  | clearDocument uri => exact ⟨rfl, rfl⟩
  | clearAll => exact ⟨rfl, rfl⟩
  | report => exact ⟨rfl, rfl⟩

theorem limits_run (c : ScanCache) (calls : List (Nanos × ScanCall)) :
    (c.run calls).rules.limits = c.rules.limits ∧
      (c.run calls).references.limits = c.references.limits := by
  induction calls using List.reverseRecOn with
  | nil => exact ⟨rfl, rfl⟩
  | append_singleton calls x ih =>
    rw [run_snoc]
    obtain ⟨hrules, hreferences⟩ := limits_step (c.run calls) x.1 x.2
    exact ⟨hrules.trans ih.1, hreferences.trans ih.2⟩

/-- However many calls there are, entries live as long as the limits say. -/
theorem lifetime_run (limits : CacheLimits) (calls : List (Nanos × ScanCall)) :
    ((new limits).run calls).rules.lifetime = limits.lifetime ∧
      ((new limits).run calls).references.lifetime = limits.lifetime := by
  obtain ⟨hrules, hreferences⟩ := limits_run (new limits) calls
  exact ⟨congrArg CacheLimits.lifetime hrules, congrArg CacheLimits.lifetime hreferences⟩

end ScanCache

/-! ## The last write -/

/-- Among the calls there is a write, made at `time` or later, that every call since
then has spared. -/
def LastWrite (calls : List (Nanos × ScanCall)) (write : ScanCall) (spares : ScanCall → Prop)
    (time : Nanos) : Prop :=
  ∃ before t since, calls = before ++ (t, write) :: since ∧ time ≤ t ∧ ∀ x ∈ since, spares x.2

variable {calls : List (Nanos × ScanCall)} {now : Nanos}

theorem lastWrite_snoc (calls : List (Nanos × ScanCall)) (write : ScanCall) (spares : ScanCall → Prop)
    {time : Nanos} (h : time ≤ now) : LastWrite (calls ++ [(now, write)]) write spares time :=
  ⟨calls, now, [], rfl, h, fun _ hx => absurd hx List.not_mem_nil⟩

theorem LastWrite.snoc {write x : ScanCall} {spares : ScanCall → Prop} {time : Nanos}
    (h : LastWrite calls write spares time) (hx : spares x) :
    LastWrite (calls ++ [(now, x)]) write spares time := by
  obtain ⟨before, t, since, rfl, ht, hsince⟩ := h
  refine ⟨before, t, since ++ [(now, x)], by simp, ht, ?_⟩
  intro y hy
  rcases List.mem_append.mp hy with hy | hy
  · exact hsince y hy
  · rw [List.mem_singleton.mp hy]
    exact hx

/-- What is not too old at `now` was written at most a lifetime ago. -/
theorem LastWrite.within {write : ScanCall} {spares : ScanCall → Prop} {time lifetime : Nanos}
    (h : LastWrite calls write spares time) (hage : now - time ≤ lifetime) :
    ∃ before t since, calls = before ++ (t, write) :: since ∧ now ≤ t + lifetime ∧
      ∀ x ∈ since, spares x.2 := by
  obtain ⟨before, t, since, hcalls, ht, hsince⟩ := h
  refine ⟨before, t, since, hcalls, ?_, hsince⟩
  calc now ≤ time + lifetime := Nat.sub_le_iff_le_add'.mp hage
    _ ≤ t + lifetime := Nat.add_le_add_right ht lifetime

/-- A table that the last write put there, as old as its entry. -/
def ScannedRules.Written (calls : List (Nanos × ScanCall)) (uri : String) (e : ScannedRules)
    (time : Nanos) : Prop :=
  LastWrite calls (.setRules uri e.version e.rules) (·.SparesRules uri e.version) time

/-- References that the last writes under their names put there. They are no older
than their entry, which a later write under another name may have joined. -/
structure ScannedReferences.Written (calls : List (Nanos × ScanCall)) (latest : Nanos) (uri : String)
    (e : ScannedReferences) (time : Nanos) : Prop where
  inTime : time ≤ latest
  lastWrite : ∀ name found, e.byName.get? name = some found →
    LastWrite calls (.setReferences uri e.version name found)
      (·.SparesReferences uri e.version name) time

theorem ScannedRules.Written.snoc {uri : String} {e : ScannedRules} {time : Nanos} {x : ScanCall}
    (h : e.Written calls uri time) (hx : x.SparesRules uri e.version) :
    e.Written (calls ++ [(now, x)]) uri time := LastWrite.snoc h hx

theorem ScannedReferences.Written.snoc {latest : Nanos} {uri : String} {e : ScannedReferences}
    {time : Nanos} {x : ScanCall} (h : e.Written calls latest uri time) (hle : latest ≤ now)
    (hx : ∀ name, x.SparesReferences uri e.version name) :
    e.Written (calls ++ [(now, x)]) now uri time where
  inTime := Nat.le_trans h.inTime hle
  lastWrite name found hf := (h.lastWrite name found hf).snoc (hx name)

/-- References that are written now join an entry of their version. Those under the
other names stay what the last writes put there. -/
theorem ScannedReferences.written_add {latest : Nanos} {uri : String} {e : ScannedReferences}
    {time : Nanos} (h : e.Written calls latest uri time) (hle : latest ≤ now) (name : Text)
    (found : List Rule.Reference) :
    (e.add e.version name found).Written
      (calls ++ [(now, .setReferences uri e.version name found)]) now uri time where
  inTime := Nat.le_trans h.inTime hle
  lastWrite other others ho := by
    simp only [add, if_true, Dict.get?_insert] at ho ⊢
    split at ho
    · next hname =>
      cases ho
      rw [hname]
      exact lastWrite_snoc _ _ _ (Nat.le_trans h.inTime hle)
    · next hname => exact (h.lastWrite other others ho).snoc fun _ => ⟨rfl, fun hn => hname hn.symm⟩

theorem ScannedReferences.written_single (calls : List (Nanos × ScanCall)) (now : Nanos) (uri : String)
    (version : Int) (name : Text) (found : List Rule.Reference) :
    ScannedReferences.Written (calls ++ [(now, .setReferences uri version name found)]) now uri
      ⟨version, (∅ : Dict Text _).insert name found⟩ now where
  inTime := Nat.le_refl now
  lastWrite other others ho := by
    simp only [Dict.get?_insert] at ho
    split at ho
    · next hname =>
      cases ho
      rw [hname]
      exact lastWrite_snoc _ _ _ (Nat.le_refl now)
    · cases ho

/-! ## Every entry was written last -/

/-- All that is remembered was written by the last writes, none of them later than
`latest`. -/
structure ScanCache.Written (calls : List (Nanos × ScanCall)) (latest : Nanos) (c : ScanCache) :
    Prop where
  rules : c.rules.Each (ScannedRules.Written calls)
  references : c.references.Each (ScannedReferences.Written calls latest)

namespace ScanCache

variable {c : ScanCache} {latest : Nanos}

theorem written_new (limits : CacheLimits) (latest : Nanos) : (new limits).Written [] latest :=
  ⟨AgingCache.each_new _ _, AgingCache.each_new _ _⟩

theorem Written.later {later : Nanos} (h : c.Written calls latest) (hle : latest ≤ later) :
    c.Written calls later where
  rules := h.rules
  references := h.references.mono fun _ _ _ he => ⟨Nat.le_trans he.inTime hle, he.lastWrite⟩

/-- A call that spares every table keeps them. -/
theorem Written.rules_snoc {x : ScanCall} (h : c.Written calls latest)
    (hx : ∀ uri version, x.SparesRules uri version) :
    c.rules.Each (ScannedRules.Written (calls ++ [(now, x)])) :=
  h.rules.mono fun uri e _ he => he.snoc (hx uri e.version)

theorem Written.references_snoc {x : ScanCall} (h : c.Written calls latest) (hle : latest ≤ now)
    (hx : ∀ uri version name, x.SparesReferences uri version name) :
    c.references.Each (ScannedReferences.Written (calls ++ [(now, x)]) now) :=
  h.references.mono fun uri e _ he => he.snoc hle (hx uri e.version)

/-- One call keeps what is remembered written last. -/
theorem written_step (h : c.Written calls latest) (hle : latest ≤ now) (x : ScanCall) :
    (c.step now x).Written (calls ++ [(now, x)]) now := by
  cases x with
  | rules uri version =>
    rw [step, rules?_eq]
    refine ⟨?_, h.references_snoc hle fun _ _ _ => trivial⟩
    refine (AgingCache.each_readAt h.rules _ now uri version).mono fun a e w ⟨he, hv⟩ => ?_
    exact he.snoc fun ha => (hv ha.symm).symm
  | hasRules uri version =>
    simp only [step, hasRules, rules?_eq]
    refine ⟨?_, h.references_snoc hle fun _ _ _ => trivial⟩
    refine (AgingCache.each_readAt h.rules _ now uri version).mono fun a e w ⟨he, hv⟩ => ?_
    exact he.snoc fun ha => (hv ha.symm).symm
  | setRules uri version table =>
    refine ⟨?_, h.references_snoc hle fun _ _ _ => trivial⟩
    refine (AgingCache.each_insert h.rules now uri ⟨version, table⟩).mono fun a e w he => ?_
    rcases he with ⟨rfl, rfl, rfl⟩ | ⟨ha, he⟩
    · exact lastWrite_snoc _ _ _ (Nat.le_refl w)
    · exact he.snoc (Ne.symm ha)
  | references uri version name =>
    rw [step, references?_eq]
    refine ⟨h.rules_snoc fun _ _ => trivial, ?_⟩
    refine (AgingCache.each_readAt h.references _ now uri version).mono fun a e w ⟨he, hv⟩ => ?_
    exact he.snoc hle fun _ ha => (hv ha.symm).symm
  | setReferences uri version name found =>
    refine ⟨?_, ?_⟩
    · rw [step, rules_setReferences]
      exact h.rules_snoc fun _ _ => trivial
    · refine (each_setReferences h.references now uri version name found).mono fun a e w he => ?_
      rcases he with ⟨ha, he⟩ | ⟨rfl, old, rfl, rfl, he⟩ | ⟨rfl, rfl, rfl⟩
      · exact he.snoc hle fun _ hu => absurd hu.symm ha
      · exact ScannedReferences.written_add he hle name found
      · exact ScannedReferences.written_single ..
  | clearDocument uri =>
    refine ⟨?_, ?_⟩
    · refine (AgingCache.each_remove h.rules uri).mono fun a e w ⟨ha, he⟩ => ?_
      exact he.snoc (Ne.symm ha)
    · refine (AgingCache.each_remove h.references uri).mono fun a e w ⟨ha, he⟩ => ?_
      exact he.snoc hle fun _ => Ne.symm ha
  | clearAll => exact ⟨AgingCache.each_clear _, AgingCache.each_clear _⟩
  | report =>
    refine ⟨AgingCache.each_purge ?_ now, AgingCache.each_purge ?_ now⟩
    · exact h.rules_snoc fun _ _ => trivial
    · exact h.references_snoc hle fun _ _ _ => trivial

/-- No call comes before an earlier one, and none after `now`. -/
def InTime (calls : List (Nanos × ScanCall)) (now : Nanos) : Prop :=
  (calls.map Prod.fst ++ [now]).Pairwise (· ≤ ·)

theorem written_run (limits : CacheLimits) (h : InTime calls now) :
    ((new limits).run calls).Written calls now := by
  induction calls using List.reverseRecOn generalizing now with
  | nil => exact written_new limits now
  | append_singleton calls x ih =>
    obtain ⟨t, x⟩ := x
    have hpair : (calls.map Prod.fst ++ [t]).Pairwise (· ≤ ·) ∧ t ≤ now := by
      rw [InTime, List.map_append, List.pairwise_append] at h
      exact ⟨h.1, h.2.2 t (by simp) now (by simp)⟩
    rw [run_snoc]
    exact (written_step (ih hpair.1) (Nat.le_refl t) x).later hpair.2

/-- The rules that a look finds are those of the last write. -/
theorem written_of_rules? (h : c.Written calls latest) {uri : String} {version : Int}
    {table : Rule.SymbolTable} (hf : (c.rules? now uri version).1 = some table) :
    ∃ before t since, calls = before ++ (t, .setRules uri version table) :: since ∧
      now ≤ t + c.rules.lifetime ∧ ∀ x ∈ since, x.2.SparesRules uri version := by
  rw [rules?_eq, Option.map_eq_some_iff] at hf
  obtain ⟨e, he, rfl⟩ := hf
  obtain ⟨rfl, time, hw, hage⟩ := AgingCache.found_by_readAt h.rules he
  exact LastWrite.within hw hage

/-- The references that a look finds are those of the last write under the name. -/
theorem written_of_references? (h : c.Written calls latest) {uri : String} {version : Int}
    {name : Text} {found : List Rule.Reference}
    (hf : (c.references? now uri version name).1 = some found) :
    ∃ before t since, calls = before ++ (t, .setReferences uri version name found) :: since ∧
      now ≤ t + c.references.lifetime ∧ ∀ x ∈ since, x.2.SparesReferences uri version name := by
  rw [references?_eq, Option.bind_eq_some_iff] at hf
  obtain ⟨e, he, hname⟩ := hf
  obtain ⟨rfl, time, hw, hage⟩ := AgingCache.found_by_readAt h.references he
  exact LastWrite.within (hw.lastWrite name found hname) hage

/-! ## The law -/

/-- After every run of calls on an empty cache, a look at the rules of a version of a
document, or at the references to a name in it, finds exactly what the last write of
them put there, at most a lifetime ago. Since then no call has forgotten the document,
and none has looked at or written another version of it on the same side. -/
theorem a_look_finds_the_last_write (limits : CacheLimits) (calls : List (Nanos × ScanCall))
    (now : Nanos) (h : InTime calls now) (uri : String) (version : Int) :
    (∀ table, (((new limits).run calls).rules? now uri version).1 = some table →
      ∃ before t since, calls = before ++ (t, .setRules uri version table) :: since ∧
        now ≤ t + limits.lifetime ∧ ∀ x ∈ since, x.2.SparesRules uri version) ∧
    ((((new limits).run calls).hasRules now uri version).1 = true →
      ∃ table before t since, calls = before ++ (t, .setRules uri version table) :: since ∧
        now ≤ t + limits.lifetime ∧ ∀ x ∈ since, x.2.SparesRules uri version) ∧
    ∀ name found, (((new limits).run calls).references? now uri version name).1 = some found →
      ∃ before t since, calls = before ++ (t, .setReferences uri version name found) :: since ∧
        now ≤ t + limits.lifetime ∧ ∀ x ∈ since, x.2.SparesReferences uri version name := by
  have hwritten := written_run limits h
  obtain ⟨hrules, hreferences⟩ := lifetime_run limits calls
  rw [← hrules]
  refine ⟨fun table hf => written_of_rules? hwritten hf, ?_, ?_⟩
  · intro hf
    obtain ⟨table, htable⟩ := Option.isSome_iff_exists.mp hf
    exact ⟨table, written_of_rules? hwritten htable⟩
  · intro name found hf
    rw [hrules, ← hreferences]
    exact written_of_references? hwritten hf

/-- The references to `b` join the entry that holds those to `a`, and they are found at
the end of its lifetime. The look at rules, in another version, does not matter to them. -/
theorem references_that_joined_are_found :
    InTime [(0, .setReferences "f" 1 ['a'] []), (4, .setReferences "f" 1 ['b'] []),
        (7, .references "f" 1 ['c']), (9, .rules "f" 2)] 10 ∧
      (((new ⟨1, 10⟩).run [(0, .setReferences "f" 1 ['a'] []), (4, .setReferences "f" 1 ['b'] []),
        (7, .references "f" 1 ['c']), (9, .rules "f" 2)]).references? 10 "f" 1 ['b']).1 = some [] ∧
      ∃ before t since, [(0, ScanCall.setReferences "f" 1 ['a'] []), (4, .setReferences "f" 1 ['b'] []),
        (7, .references "f" 1 ['c']), (9, .rules "f" 2)] =
          before ++ (t, .setReferences "f" 1 ['b'] []) :: since ∧
        10 ≤ t + 10 ∧ ∀ x ∈ since, x.2.SparesReferences "f" 1 ['b'] := by
  have htime : InTime [(0, .setReferences "f" 1 ['a'] []), (4, .setReferences "f" 1 ['b'] []),
      (7, .references "f" 1 ['c']), (9, .rules "f" 2)] 10 := by
    unfold InTime
    decide
  have hfound : (((new ⟨1, 10⟩).run [(0, .setReferences "f" 1 ['a'] []),
      (4, .setReferences "f" 1 ['b'] []), (7, .references "f" 1 ['c']),
      (9, .rules "f" 2)]).references? 10 "f" 1 ['b']).1 = some [] := by rfl
  obtain ⟨_, _, hreferences⟩ := a_look_finds_the_last_write ⟨1, 10⟩ _ 10 htime "f" 1
  exact ⟨htime, hfound, hreferences ['b'] [] hfound⟩

end ScanCache

end AbnfServer
