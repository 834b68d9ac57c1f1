-- The settings in force. A session speaks the language of its settings, and what it
-- remembers is bounded by them. Settings that leave both as they are leave alone
-- whatever is remembered.
import AbnfServer.Proofs.Answers.Session
import AbnfServer.Proofs.Cache.History
import AbnfServer.Proofs.Settings.Merge

namespace AbnfServer

/-! ## What a resolver does with its cache -/

namespace Resolver

/-- The second resolver is the first one after some calls on what it remembers. -/
def Leads (r s : Resolver) : Prop := ∃ calls, s = { r with cache := r.cache.run calls }

variable {r s t : Resolver}

theorem Leads.refl (r : Resolver) : r.Leads r := ⟨[], rfl⟩

theorem Leads.trans (h : r.Leads s) (h' : s.Leads t) : r.Leads t := by
  obtain ⟨calls, rfl⟩ := h
  obtain ⟨more, rfl⟩ := h'
  exact ⟨calls ++ more, by simp [ScanCache.run, List.foldl_append]⟩

theorem leads_step (r : Resolver) (now : Nanos) (x : ScanCall) :
    r.Leads { r with cache := r.cache.step now x } := ⟨[(now, x)], rfl⟩

theorem Leads.catalog (h : r.Leads s) : s.catalog = r.catalog := by
  obtain ⟨calls, rfl⟩ := h
  rfl

theorem Leads.limits (h : r.Leads s) :
    s.cache.rules.limits = r.cache.rules.limits ∧ s.cache.references.limits = r.cache.references.limits := by
  obtain ⟨calls, rfl⟩ := h
  exact r.cache.limits_run calls

variable (r) (now : Nanos) (d : Document)

theorem leads_rulesOf : r.Leads (r.rulesOf now d).2 := by
  have hlook := r.leads_step now (.rules d.uri d.version)
  unfold rulesOf
  simp only [ScanCache.step] at hlook
  generalize r.cache.rules? now d.uri d.version = p at hlook
  obtain ⟨known, cache⟩ := p
  cases known with
  | some table => exact hlook
  | none => exact hlook.trans (leads_step _ now (.setRules d.uri d.version _))

theorem leads_definitionOf (name : Text) : r.Leads (r.definitionOf now d name).2 := r.leads_rulesOf now d

theorem leads_referencesOf (name : Text) : r.Leads (r.referencesOf now d name).2 := by
  have hlook := r.leads_step now (.references d.uri d.version name)
  unfold referencesOf
  simp only [ScanCache.step] at hlook
  generalize r.cache.references? now d.uri d.version name = p at hlook
  obtain ⟨known, cache⟩ := p
  cases known with
  | some found => exact hlook
  | none => exact hlook.trans (leads_step _ now (.setReferences d.uri d.version name _))

theorem leads_hoverOf (name : Text) : r.Leads (r.hoverOf now d name).2 := by
  unfold hoverOf
  split
  · exact .refl r
  · exact r.leads_rulesOf now d

theorem leads_checkRename (name newName : Text) : r.Leads (r.checkRename now d name newName).2 := by
  have hlook := r.leads_step now (.rules d.uri d.version)
  unfold checkRename
  split
  · exact .refl r
  · simp only
    split <;> exact hlook

theorem leads_planRename (name newName : Text) : r.Leads (r.planRename now d name newName).2 := by
  have hcheck := r.leads_checkRename now d name newName
  unfold planRename
  generalize r.checkRename now d name newName = p at hcheck
  obtain ⟨result, s⟩ := p
  cases result with
  | error e => exact hcheck
  | ok scanned =>
    cases scanned with
    | none => exact hcheck.trans (leads_referencesOf _ now d name)
    | some table =>
      exact (hcheck.trans (leads_step _ now (.setRules d.uri d.version table))).trans
        (leads_referencesOf _ now d name)

end Resolver

/-! ## What a message does to the settings and to the resolver -/

/-- The payload with settings that a message has. -/
def Message.payload? : Message → Option Json
  | .request (.start (.ok options)) => options
  | .notification (.configured payload) => some payload
  | _ => none

namespace Session

/-- The payload that a session takes settings from. Those of the start count once,
and any other ones only while the session runs. -/
def taken? (s : Session) (m : Message) : Option Json :=
  match m, s.phase with
  | .request (.start (.ok options)), .uninitialized => options
  | .notification (.configured payload), .running => some payload
  | _, _ => none

variable {s : Session} {m : Message} {payload : Json}

theorem taken?_of_payload? (h : m.payload? = none) : s.taken? m = none := by
  unfold taken?
  split
  · exact h
  · cases h
  · rfl

theorem leads_ask (s : Session) (now : Nanos) (q : Query) : s.resolver.Leads (s.ask now q).2.2 := by
  cases q with
  | hover uri place =>
    simp only [ask, hover]
    cases s.wordAt? uri place with
    | none => exact .refl _
    | some w =>
      have h := s.resolver.leads_hoverOf now w.1 w.2.1
      simp only
      generalize s.resolver.hoverOf now w.1 w.2.1 = p at h
      obtain ⟨text, r⟩ := p
      cases text <;> exact h
  | definition uri place =>
    simp only [ask, definition]
    cases s.wordAt? uri place with
    | none => exact .refl _
    | some w =>
      have h := s.resolver.leads_definitionOf now w.1 w.2.1
      simp only
      generalize s.resolver.definitionOf now w.1 w.2.1 = p at h
      obtain ⟨site, r⟩ := p
      cases site <;> exact h
  | references uri place declaration =>
    simp only [ask, references]
    cases s.wordAt? uri place with
    | none => exact .refl _
    | some w =>
      have h := s.resolver.leads_referencesOf now w.1 w.2.1
      cases declaration with
      | true => exact h
      | false => exact h.trans (Resolver.leads_definitionOf _ now w.1 w.2.1)
  | outline uri =>
    simp only [ask, outline]
    cases s.documents.get? uri with
    | none => exact .refl _
    | some d => exact s.resolver.leads_rulesOf now d
  | prepareRename uri place =>
    simp only [ask, prepareRename]
    cases s.wordAt? uri place with
    | none => exact .refl _
    | some w =>
      have h := s.resolver.leads_definitionOf now w.1 w.2.1
      simp only
      generalize s.resolver.definitionOf now w.1 w.2.1 = p at h
      obtain ⟨site, r⟩ := p
      cases site <;> exact h
  | rename uri place newName =>
    simp only [ask, rename]
    cases s.wordAt? uri place with
    | none => exact .refl _
    | some w =>
      have h := s.resolver.leads_planRename now w.1 w.2.1 newName
      simp only
      generalize s.resolver.planRename now w.1 w.2.1 newName = p at h
      obtain ⟨result, r⟩ := p
      cases result <;> exact h
  | format uri => exact .refl _

theorem leads_execute (s : Session) (now : Nanos) (name : String) :
    s.resolver.Leads (s.execute now name).2.2 := by
  unfold execute
  split
  · exact s.resolver.leads_step now .report
  · split
    · exact s.resolver.leads_step now .clearAll
    · exact .refl _

/-! ## One message -/

theorem settings_applySettings (s : Session) (settings : Settings) :
    (s.applySettings settings).settings = settings := by
  unfold applySettings
  split <;> rfl

/-- The resolver starts afresh when the language or the size of the cache changes, and
only then. -/
theorem resolver_applySettings (s : Session) (settings : Settings) :
    (s.settings.locale = settings.locale ∧ s.settings.cache = settings.cache →
      (s.applySettings settings).resolver = s.resolver) ∧
    (¬ (s.settings.locale = settings.locale ∧ s.settings.cache = settings.cache) →
      (s.applySettings settings).resolver = .new settings.locale.catalog settings.cache.limits) := by
  unfold applySettings
  constructor
  · intro h
    rw [if_pos h]
  · intro h
    rw [if_neg h]

theorem configure_eq (s : Session) (payload : Json) :
    s.configure payload = s.applySettings (s.settings.merge payload) := by
  unfold configure
  simp only
  split
  · next h =>
    rw [h]
    simp [applySettings]
  · rfl

/-- What may become of a session that takes settings from a payload, or from none. -/
inductive Moves (s : Session) : Option Json → Session → Prop
  | stays {t : Session} : t.settings = s.settings → s.resolver.Leads t.resolver → Moves s none t
  | takes {t : Session} {payload : Json} : t.settings = s.settings.merge payload →
      t.resolver = (s.applySettings (s.settings.merge payload)).resolver → Moves s (some payload) t

theorem Moves.refl (s : Session) : s.Moves none s := .stays rfl (.refl _)

theorem moves_serve (s : Session) (now : Nanos) (r : Request) : s.Moves none (s.serve now r).2.2 := by
  cases r with
  | query q => exact .stays rfl (s.leads_ask now q)
  | command name => exact .stays rfl (s.leads_execute now name)
  | shutdown fault => exact .stays rfl (.refl _)
  | start _ | unsupported | malformed _ | misplaced | unknown _ => exact .refl s

theorem moves_start (s : Session) (options : Option Json) : s.Moves options (s.start options) := by
  cases options with
  | none => exact .stays (s.settings_applySettings _) ((s.resolver_applySettings _).1 ⟨rfl, rfl⟩ ▸ .refl _)
  | some payload => exact .takes (s.settings_applySettings _) rfl

theorem moves_respond (s : Session) (now : Nanos) (r : Request) :
    s.Moves (s.taken? (.request r)) (s.respond now r).2.2 := by
  cases hphase : s.phase with
  | uninitialized =>
    cases r with
    | start options =>
      cases options with
      | error fault => simpa only [taken?, respond, hphase] using .refl s
      | ok options => simpa only [taken?, respond, hphase] using s.moves_start options
    | _ => simpa only [taken?, respond, hphase] using .refl s
  | running =>
    have hserve := s.moves_serve now r
    cases r <;> simp only [taken?, respond, hphase] <;> exact hserve
  | shutDown | exited => cases r <;> simpa only [taken?, respond, hphase] using .refl s

theorem moves_hear (s : Session) (hrun : s.phase = .running) (n : Notification) :
    s.Moves (s.taken? (.notification n)) (s.hear n).2 := by
  have hclear (uri : String) := s.resolver.leads_step 0 (.clearDocument uri)
  simp only [taken?, hrun]
  cases n with
  | configured payload =>
    simp only [hear, configure_eq]
    exact .takes (s.settings_applySettings _) rfl
  | opened uri text version => exact .stays rfl (hclear uri)
  | changed uri changes version => exact .stays rfl (hclear uri)
  | closed uri => exact .stays rfl (hclear uri)
  | initialized | shutdown | exit | other => exact .stays rfl (.refl _)

theorem moves_notified (s : Session) (n : Notification) :
    s.Moves (s.taken? (.notification n)) (s.notified n).2 := by
  by_cases hrun : s.phase = .running
  · have hhear := s.moves_hear hrun n
    cases n <;> simp only [notified, hrun] <;> exact hhear
  · have hnone : s.taken? (.notification n) = none := by
      unfold taken?
      split
      · next hm _ => cases hm
      · next hphase => exact absurd hphase hrun
      · rfl
    rw [hnone]
    unfold notified
    split
    · exact .stays rfl (.refl _)
    · next hphase => exact absurd hphase hrun
    · exact .refl s

/-- A message takes the settings of its payload, or the resolver goes on from where it was. -/
theorem moves_receive (s : Session) (now : Nanos) (m : Message) :
    s.Moves (s.taken? m) (s.receive now m).2 := by
  cases hphase : s.phase with
  | exited =>
    have hnone : s.taken? m = none := by simp [taken?, hphase]
    rw [hnone]
    simpa only [receive, hphase] using .refl s
  | uninitialized | running | shutDown =>
    cases m with
    | request r => simpa only [receive, hphase] using s.moves_respond now r
    | notification n => simpa only [receive, hphase] using s.moves_notified n

theorem Moves.settings_eq {t : Session} {taken : Option Json} (h : s.Moves taken t) :
    t.settings = s.settings.mergeOptional taken := by
  cases h with
  | stays h _ => exact h
  | takes h _ => exact h

/-! ## The settings in force -/

/-- A cache has room for as many entries as the settings say, and each of them lives for
as many seconds, which the cache counts in nanoseconds. -/
def SizedBy {ν : Type} (c : AgingCache String ν) (size : CacheSettings) : Prop :=
  c.capacity = size.capacity ∧ c.lifetime = size.lifetimeSecs * 1000000000

/-- The resolver is the one that the settings ask for, whatever it remembers, and the
numbers of the settings are within their bounds. -/
structure InForce (s : Session) : Prop where
  bounded : s.settings.Bounded
  catalog : s.resolver.catalog = s.settings.locale.catalog
  rules : SizedBy s.resolver.cache.rules s.settings.cache
  references : SizedBy s.resolver.cache.references s.settings.cache

/-- A new cache has the size of settings that are within their bounds: there is room
for one entry at least. -/
theorem sizedBy_new {settings : Settings} (h : settings.Bounded) (ν : Type) :
    SizedBy (.new settings.cache.limits.capacity settings.cache.limits.lifetime : AgingCache String ν)
      settings.cache :=
  ⟨Nat.max_eq_left h.capacity.1, rfl⟩

theorem SizedBy.of_limits_eq {ν : Type} {c d : AgingCache String ν} {size : CacheSettings}
    (h : SizedBy c size) (hlimits : d.limits = c.limits) : SizedBy d size :=
  ⟨(congrArg CacheLimits.capacity hlimits).trans h.1, (congrArg CacheLimits.lifetime hlimits).trans h.2⟩

theorem inForce_new (locale : Option Locale) : (new locale).InForce where
  bounded := ⟨(by decide : 1 ≤ 100 ∧ 100 ≤ 10000), (by decide : 1 ≤ 1800 ∧ 1800 ≤ 86400)⟩
  catalog := rfl
  rules := ⟨rfl, rfl⟩
  references := ⟨rfl, rfl⟩

/-- Settings stay in force as long as the resolver goes on from where it was. -/
theorem InForce.of_leads {t : Session} (h : s.InForce) (hs : t.settings = s.settings)
    (hr : s.resolver.Leads t.resolver) : t.InForce := by
  obtain ⟨hrules, hreferences⟩ := hr.limits
  refine ⟨?_, ?_, ?_, ?_⟩ <;> rw [hs]
  · exact h.bounded
  · exact hr.catalog.trans h.catalog
  · exact h.rules.of_limits_eq hrules
  · exact h.references.of_limits_eq hreferences

/-- Settings that are taken are in force: the resolver is the old one where it fits them
already, and else a new one. -/
theorem inForce_applySettings (h : s.InForce) {settings : Settings} (hbounded : settings.Bounded) :
    (s.applySettings settings).InForce := by
  obtain ⟨hkept, hfresh⟩ := s.resolver_applySettings settings
  by_cases hsame : s.settings.locale = settings.locale ∧ s.settings.cache = settings.cache
  · refine ⟨?_, ?_, ?_, ?_⟩ <;> rw [settings_applySettings]
    · exact hbounded
    · rw [hkept hsame, ← hsame.1, h.catalog]
    · rw [hkept hsame, ← hsame.2]
      exact h.rules
    · rw [hkept hsame, ← hsame.2]
      exact h.references
  · refine ⟨?_, ?_, ?_, ?_⟩ <;> rw [settings_applySettings]
    · exact hbounded
    · rw [hfresh hsame]
      rfl
    · rw [hfresh hsame]
      exact sizedBy_new hbounded _
    · rw [hfresh hsame]
      exact sizedBy_new hbounded _

theorem Moves.inForce {t : Session} {taken : Option Json} (ht : s.Moves taken t) (h : s.InForce) :
    t.InForce := by
  cases ht with
  | stays hs hr => exact h.of_leads hs hr
  | @takes _ payload hs hr =>
    have htaken := inForce_applySettings h (Settings.bounded_merge s.settings payload)
    exact htaken.of_leads (hs.trans (settings_applySettings s _).symm) (hr ▸ .refl _)

/-- Every message keeps the settings in force. -/
theorem inForce_receive (h : s.InForce) (now : Nanos) (m : Message) : (s.receive now m).2.InForce :=
  (s.moves_receive now m).inForce h

theorem inForce_run (h : s.InForce) (messages : List (Nanos × Message)) : (s.run messages).InForce := by
  induction messages generalizing s with
  | nil => exact h
  | cons m messages ih => exact ih (inForce_receive h m.1 m.2)

/-! ## The same payload again -/

/-- Messages without a payload leave the settings alone. -/
theorem settings_run {messages : List (Nanos × Message)} (h : ∀ x ∈ messages, x.2.payload? = none) :
    (s.run messages).settings = s.settings := by
  induction messages generalizing s with
  | nil => rfl
  | cons x messages ih =>
    have hnone := taken?_of_payload? (s := s) (h x List.mem_cons_self)
    have hstep := (s.moves_receive x.1 x.2).settings_eq
    rw [hnone] at hstep
    exact (ih fun y hy => h y (List.mem_cons_of_mem _ hy)).trans hstep

/-- A payload that brings nothing new changes nothing at all. -/
theorem receive_configured_of_merge_eq (h : s.settings.merge payload = s.settings) (now : Nanos) :
    (s.receive now (.notification (.configured payload))).2 = s := by
  have hsame : s.configure payload = s := by
    unfold configure
    rw [if_pos h]
  cases hphase : s.phase with
  | running => simp only [receive, notified, hear, hphase, hsame]
  | uninitialized | shutDown | exited => simp only [receive, notified, hphase]

/-- A configuration that leaves the language and the cache settings as they are leaves the
resolver as it is, with all that is remembered. -/
theorem resolver_receive_configured (now : Nanos)
    (hlocale : (s.receive now (.notification (.configured payload))).2.settings.locale = s.settings.locale)
    (hcache : (s.receive now (.notification (.configured payload))).2.settings.cache = s.settings.cache) :
    (s.receive now (.notification (.configured payload))).2.resolver = s.resolver := by
  by_cases hrun : s.phase = .running
  · have hreceive : (s.receive now (.notification (.configured payload))).2 =
        s.applySettings (s.settings.merge payload) := by
      simp only [receive, notified, hear, hrun, configure_eq]
    rw [hreceive, settings_applySettings] at hlocale hcache
    rw [hreceive]
    exact (s.resolver_applySettings _).1 ⟨hlocale.symm, hcache.symm⟩
  · cases hphase : s.phase with
    | running => exact absurd hphase hrun
    | uninitialized | shutDown | exited => simp only [receive, notified, hphase]

/-! ## The law -/

/-- In every session, whatever the client says, the resolver speaks the language of the
current settings, and both caches have their capacity and their lifetime. A new
configuration that changes neither leaves the resolver as it was, with all that is
remembered. So does a payload that comes again, when no other one has come since: it
changes nothing at all. -/
theorem settings_are_in_force (locale : Option Locale) (messages : List (Nanos × Message)) :
    let s := (new locale).run messages
    s.InForce ∧
    (∀ now payload,
      let t := (s.receive now (.notification (.configured payload))).2
      t.settings.locale = s.settings.locale → t.settings.cache = s.settings.cache →
        t.resolver = s.resolver) ∧
    (∀ now m payload between later, s.taken? m = some payload →
      (∀ x ∈ between, x.2.payload? = none) →
        let t := (s.receive now m).2.run between
        t.settings = s.settings.merge payload ∧
          (t.receive later (.notification (.configured payload))).2 = t) := by
  refine ⟨inForce_run (inForce_new locale) messages, fun now payload => resolver_receive_configured now, ?_⟩
  intro now m payload between later htaken hbetween
  generalize (new locale).run messages = s at htaken ⊢
  have hstep := (s.moves_receive now m).settings_eq
  rw [htaken] at hstep
  have hsettings : ((s.receive now m).2.run between).settings = s.settings.merge payload :=
    (settings_run hbetween).trans hstep
  refine ⟨hsettings, receive_configured_of_merge_eq ?_ later⟩
  rw [hsettings, Settings.merge_merge]

/-- A session that is told to say more forgets nothing. When it is told so again, it
stays as it is. Another language and another size start the caches afresh. -/
theorem a_new_level_forgets_nothing :
    let messages : List (Nanos × Message) := [(1, .request (.start (.ok none))),
      (2, .notification (.opened "f" "a=b".toList 1)), (3, .request (.query (.definition "f" ⟨0, 0⟩)))]
    let s := (new none).run messages
    let payload : Json := .obj [("logging", .obj [("level", .str "debug")])]
    let t := (s.receive 4 (.notification (.configured payload))).2
    let sized : Json := .obj [("locale", .str "en"),
      ("cache", .obj [("capacity", .ofNat 7), ("ttlSecs", .ofNat 60)])]
    let u := (new none).run (messages ++ [(6, .notification (.configured sized))])
    s.resolver.cache.rules.size = 1 ∧ t.settings.logLevel = .debug ∧ t.resolver = s.resolver ∧
      (t.receive 5 (.notification (.configured payload))).2 = t ∧
      u.resolver.cache.rules.size = 0 ∧ u.resolver.catalog = Locale.english.catalog ∧
      u.resolver.cache.rules.capacity = 7 ∧ u.resolver.cache.rules.lifetime = 60000000000 ∧
      u.resolver.cache.references.capacity = 7 ∧ u.resolver.cache.references.lifetime = 60000000000 := by
  intro messages s payload t sized u
  obtain ⟨_, hsame, hagain⟩ := settings_are_in_force none messages
  obtain ⟨hforce, _⟩ := settings_are_in_force none (messages ++ [(6, .notification (.configured sized))])
  have hlocale : u.settings.locale = .english := by decide
  have hcache : u.settings.cache = ⟨7, 60⟩ := by decide
  have hcatalog : u.resolver.catalog = u.settings.locale.catalog := hforce.catalog
  have hrules : SizedBy u.resolver.cache.rules u.settings.cache := hforce.rules
  have hreferences : SizedBy u.resolver.cache.references u.settings.cache := hforce.references
  rw [hlocale] at hcatalog
  rw [hcache] at hrules hreferences
  refine ⟨rfl, by decide, hsame 4 _ (by decide) (by decide), ?_, rfl, hcatalog, hrules.1, hrules.2,
    hreferences.1, hreferences.2⟩
  exact (hagain 4 _ _ [] 5 rfl (by simp)).2

end Session

end AbnfServer
