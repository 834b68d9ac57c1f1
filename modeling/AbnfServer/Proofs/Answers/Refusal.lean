-- What a refused rename leaves behind. To learn whether a rule is defined, a resolver
-- looks at the remembered rules of the document, and that look may show later: in a
-- report, or in what makes room.
import AbnfServer.Proofs.Answers.Replies
import AbnfServer.Proofs.Cache.Traces
import Mathlib

namespace AbnfServer.Resolver

open Rule

variable {r : Resolver} {now : Nanos}

/-! ## Refusals -/

/-- Why a rename was refused, if the answer is a refusal. -/
def Finding.refusal? : Finding → Option RenameError
  | .verdict (.error e) | .plan (.error e) => some e
  | _ => none

/-- A refusal comes from the check of the rename, and nothing is done after it. -/
theorem refused_by_check {q : Question} {e : RenameError} (h : (r.ask now q).1.refusal? = some e) :
    ∃ name newName, (r.checkRename now q.document name newName).1 = .error e ∧
      (r.ask now q).2 = (r.checkRename now q.document name newName).2 := by
  cases q with
  | definition d name => cases h
  | references d name => cases h
  | symbols d => cases h
  | hover d name => cases h
  | validateRename d name newName =>
    refine ⟨name, newName, ?_, rfl⟩
    simp only [ask, validateRename, Question.document] at h ⊢
    generalize r.checkRename now d name newName = p at h
    obtain ⟨_ | _, _⟩ := p
    · exact congrArg Except.error (Option.some.inj h)
    · cases h
  | planRename d name newName =>
    refine ⟨name, newName, ?_⟩
    simp only [ask, planRename, Question.document] at h ⊢
    generalize r.checkRename now d name newName = p at h
    obtain ⟨_ | _, _⟩ := p
    · exact ⟨congrArg Except.error (Option.some.inj h), rfl⟩
    · cases h

/-- A name that is no rule name is refused before anything is looked up. -/
theorem checkRename_error {d : Document} {name newName : Text} {e : RenameError}
    (h : (r.checkRename now d name newName).1 = .error e) :
    e = .invalidName newName ∧ (r.checkRename now d name newName).2 = r ∨
    e = .undefinedRule name ∧ (r.checkRename now d name newName).2 =
      { r with cache := (r.cache.rules? now d.uri d.version).2 } := by
  unfold checkRename at h ⊢
  split at h
  · next hname =>
    cases h
    exact Or.inl ⟨rfl, by simp only [hname, if_true]⟩
  · next hname =>
    simp only at h
    split at h
    · next hcontains =>
      cases h
      exact Or.inr ⟨rfl, by simp only [hname, hcontains, if_true, Bool.false_eq_true, if_false]⟩
    · cases h

/-! ## A crowd of keys -/

/-- Of keys in order, those that are left when others have come after them. -/
def crowd (keys others : List String) (capacity : Nat) : List String :=
  (keys ++ others).drop (keys.length + others.length - capacity)

theorem crowd_nil {keys : List String} {capacity : Nat} (h : keys.length ≤ capacity) :
    crowd keys [] capacity = keys := by
  simp [crowd, Nat.sub_eq_zero_of_le h]

/-- Where as many others come as there is room for, and one more for each key in front
of `key` and for `key` itself, only what stood behind `key` is left. -/
theorem crowd_of_length {front back others : List String} {key : String} {capacity : Nat}
    (h : (front ++ key :: back).length + others.length = capacity + front.length + 1) :
    crowd (front ++ key :: back) others capacity = back ++ others := by
  have hcount : (front ++ key :: back).length + others.length - capacity = (front ++ [key]).length := by
    rw [h, List.length_append, List.length_singleton]
    omega
  have hsplit : front ++ key :: back ++ others = (front ++ [key]) ++ (back ++ others) := by simp
  rw [crowd, hcount, hsplit, List.drop_left]

/-- There are always URIs that do not occur yet. -/
theorem exists_new_uris (used : List String) (n : Nat) :
    ∃ uris : List String, uris.length = n ∧ uris.Nodup ∧ ∀ u ∈ uris, u ∉ used := by
  obtain ⟨all, hsub, hcard⟩ :=
    Infinite.exists_superset_card_eq used.toFinset (used.toFinset.card + n) (Nat.le_add_right _ _)
  refine ⟨(all \ used.toFinset).toList, ?_, Finset.nodup_toList _, ?_⟩
  · rw [Finset.length_toList, Finset.card_sdiff_of_subset hsub, hcard]
    omega
  · intro u hu hused
    rw [Finset.mem_toList, Finset.mem_sdiff] at hu
    exact hu.2 (List.mem_toFinset.mpr hused)

/-- Whoever comes, the key is left of the first keys if and only if it is left of the
second ones. -/
def SameInCrowd (key : String) (capacity : Nat) (first second : List String) : Prop :=
  ∀ others : List String, others.Nodup → (∀ u ∈ others, u ∉ first) → (∀ u ∈ others, u ∉ second) →
    (key ∈ crowd first others capacity ↔ key ∈ crowd second others capacity)

variable {front back : List String} {key : String} {capacity : Nat}

theorem not_mem_of_nodup_middle (hd : (front ++ key :: back).Nodup) : key ∉ front ++ back := by
  obtain ⟨_, hback, hapart⟩ := List.nodup_append.mp hd
  intro hm
  rcases List.mem_append.mp hm with hm | hm
  · exact hapart key hm key List.mem_cons_self rfl
  · exact (List.nodup_cons.mp hback).1 hm

/-- A key that is gone is missed even where nobody comes. -/
theorem not_sameInCrowd_of_gone (hd : (front ++ key :: back).Nodup)
    (hfits : (front ++ key :: back).length ≤ capacity) :
    ¬ SameInCrowd key capacity (front ++ back) (front ++ key :: back) := by
  intro hsame
  have hnone := hsame [] List.nodup_nil (fun _ hu => absurd hu List.not_mem_nil)
    fun _ hu => absurd hu List.not_mem_nil
  have hfewer : (front ++ back).length ≤ capacity := by
    rw [List.length_append] at hfits ⊢
    rw [List.length_cons] at hfits
    omega
  rw [crowd_nil hfewer, crowd_nil hfits] at hnone
  exact not_mem_of_nodup_middle hd (hnone.mpr (List.mem_append_right _ List.mem_cons_self))

/-- A key that was moved to the end stays longer than it would have stayed, if it was
not there before. -/
theorem eq_nil_of_sameInCrowd (hd : (front ++ key :: back).Nodup)
    (hfits : (front ++ key :: back).length ≤ capacity)
    (hsame : SameInCrowd key capacity (front ++ back ++ [key]) (front ++ key :: back)) : back = [] := by
  cases back with
  | nil => rfl
  | cons next rest =>
    exfalso
    obtain ⟨others, hlength, hnodup, hnew⟩ := exists_new_uris (front ++ key :: next :: rest)
      (capacity - (front ++ key :: next :: rest).length + front.length + 1)
    have hmoved : front ++ next :: rest ++ [key] = front ++ next :: (rest ++ [key]) := by simp
    have hcount : (front ++ next :: (rest ++ [key])).length = (front ++ key :: next :: rest).length := by
      simp
    have hperm : (front ++ next :: rest ++ [key]).Perm (front ++ key :: next :: rest) := by
      rw [List.append_assoc]
      exact (List.perm_append_singleton key (next :: rest)).append_left front
    have hleft := hsame others hnodup (fun u hu hm => hnew u hu (hperm.mem_iff.mp hm)) hnew
    rw [hmoved, crowd_of_length (by omega), crowd_of_length (by omega)] at hleft
    have hm := hleft.mp (by simp)
    rcases List.mem_append.mp hm with hm | hm
    · exact not_mem_of_nodup_middle hd (List.mem_append_right _ hm)
    · exact hnew key hm (by simp)

/-! ## Newcomers -/

/-- Questions about documents with these URIs, all at one time. -/
def newcomers (now : Nanos) (uris : List String) : List (Nanos × Call) :=
  uris.map fun uri => (now, .ask (.symbols (.new uri [] 0)))

/-- What is remembered of a newcomer. -/
def newcomer (now : Nanos) (uri : String) : CacheRecord String ScannedRules :=
  ⟨uri, ⟨0, scanDefinitions uri []⟩, now⟩

variable {l : RecencyList String ScannedRules}

theorem step_newcomer (h : r.cache.rules.Refines l) (hlive : ∀ x ∈ l.records, l.expired now x = false)
    {uri : String} (hnew : uri ∉ l.records.map CacheRecord.key) :
    (r.step now (.ask (.symbols (.new uri [] 0)))).cache.rules.Refines (l.pushed (newcomer now uri)) := by
  have habsent : l.record? uri = none := by
    refine List.find?_eq_none.mpr fun x hx hkey => hnew ?_
    exact List.mem_map.mpr ⟨x, hx, by simpa using hkey⟩
  obtain ⟨hnone, hsame⟩ := AgingCache.readAt_absent h ScannedRules.version now 0 habsent
  have hinsert := (AgingCache.insert_refines hsame now uri ⟨0, scanDefinitions uri []⟩).2
  rw [RecencyList.write_new hlive habsent h.positive h.fits] at hinsert
  simp only [step, ask, symbolsOf, rulesOf, ScanCache.rules?_eq, Document.new, hnone, Option.map_none]
  exact hinsert

/-- Newcomers push out the documents that were touched longest ago, and none of those
that are left is too old. -/
theorem run_newcomers {uris : List String} (h : r.cache.rules.Refines l)
    (hlive : ∀ x ∈ l.records, l.expired now x = false) (hd : uris.Nodup)
    (hnew : ∀ u ∈ uris, u ∉ l.records.map CacheRecord.key) :
    (r.run (newcomers now uris)).cache.rules.Refines
        ((uris.map (newcomer now)).foldl RecencyList.pushed l) ∧
      ((uris.map (newcomer now)).foldl RecencyList.pushed l).fresh now =
        ((uris.map (newcomer now)).foldl RecencyList.pushed l).records := by
  induction uris generalizing r l with
  | nil => exact ⟨h, RecencyList.fresh_eq_self hlive⟩
  | cons u us ih =>
    obtain ⟨hu, hus⟩ := List.nodup_cons.mp hd
    refine ih (step_newcomer h hlive (hnew u List.mem_cons_self)) ?_ hus ?_
    · intro x hx
      rcases RecencyList.mem_pushed hx with hx | rfl
      · exact hlive x hx
      · simp [RecencyList.expired, newcomer]
    · intro v hv hm
      obtain ⟨x, hx, rfl⟩ := List.mem_map.mp hm
      rcases RecencyList.mem_pushed hx with hx | rfl
      · exact hnew x.key (List.mem_cons_of_mem u hv) (List.mem_map_of_mem hx)
      · exact hu hv

/-- A report, and one more after some newcomers: the second one lists those that were
live and those that came, the last of them, as many as fit. -/
theorem listed_after_newcomers {uris : List String} (h : r.cache.rules.Refines l) (hd : uris.Nodup)
    (hnew : ∀ u ∈ uris, u ∉ (l.purged now).records.map CacheRecord.key) (uri : String) :
    uri ∈ ((r.run ((now, .report) :: newcomers now uris)).report now).1.entries.map Prod.fst ↔
      uri ∈ crowd ((l.purged now).records.map CacheRecord.key) uris l.capacity := by
  have hpurged : (r.step now .report).cache.rules.Refines (l.purged now) :=
    AgingCache.purged_refines h now
  have hlive : ∀ x ∈ (l.purged now).records, (l.purged now).expired now x = false :=
    fun x hx => RecencyList.live_of_mem_fresh (l := l) hx
  obtain ⟨hrun, hfresh⟩ := run_newcomers hpurged hlive hd hnew
  have hlisted := (ScanCache.entries_report hrun now).map Prod.fst
  have hkeys : (uris.map (newcomer now)).map CacheRecord.key = uris := by
    rw [List.map_map]
    exact List.map_id uris
  rw [hfresh, RecencyList.foldl_pushed _ hpurged.fits, List.map_map] at hlisted
  refine hlisted.mem_iff.trans (iff_of_eq (congrArg (uri ∈ ·) ?_))
  change List.map CacheRecord.key _ = _
  rw [List.map_drop, List.map_append, hkeys, List.length_map, crowd, List.length_map]
  rfl

/-! ## What shows -/

theorem later_newcomers (now : Nanos) (uris : List String) :
    Later now ((now, .report) :: newcomers now uris ++ [(now, .report)]) := by
  have hnow : ∀ t ∈ now :: ((now, .report) :: newcomers now uris ++ [(now, Call.report)]).map Prod.fst,
      t = now := by
    intro t ht
    simp only [newcomers, List.map_append, List.map_cons, List.map_map, List.mem_cons,
      List.mem_append, List.mem_map, List.map_nil, List.not_mem_nil, or_false] at ht
    rcases ht with rfl | (rfl | ⟨_, _, rfl⟩) | rfl <;> rfl
  refine List.pairwise_of_forall_mem_list fun a ha b hb => ?_
  rw [hnow a ha, hnow b hb]

theorem report_of_same_replies {s : Resolver}
    (h : ∀ later, Later now later → s.replies later = r.replies later)
    (calls : List (Nanos × Call)) (t : Nanos) (hl : Later now (calls ++ [(t, .report)])) :
    ((s.run calls).report t).1 = ((r.run calls).report t).1 := by
  have hreplies := h _ hl
  rw [replies_append, replies_append] at hreplies
  have hlast := (List.append_inj' hreplies rfl).2
  exact Reply.report.inj (List.cons.inj hlast).1

/-- If a look at the rules of a version never shows, it has moved nothing. -/
theorem settled_of_same_replies {s : Resolver} {uri : String} {version : Int}
    (h : r.cache.rules.Refines l)
    (hs : s.cache.rules = (r.cache.rules.readAt ScannedRules.version now uri version).2)
    (hsame : ∀ later, Later now later → s.replies later = r.replies later) :
    r.cache.rules.Settled ScannedRules.version now uri version := by
  obtain ⟨m, hm, hpurged⟩ := AgingCache.readAt_refines h ScannedRules.version now uri version
  rw [← hs] at hm
  have hcap : m.capacity = l.capacity := by
    change (m.purged now).capacity = l.capacity
    rw [hpurged]
    rfl
  -- whoever comes, both list the same documents afterwards
  have hlisted : SameInCrowd uri l.capacity ((m.purged now).records.map CacheRecord.key)
      ((l.purged now).records.map CacheRecord.key) := by
    intro uris hd hl hm'
    have hmlisted := listed_after_newcomers hm hd hl uri
    rw [report_of_same_replies hsame _ now (later_newcomers now uris), hcap] at hmlisted
    exact hmlisted.symm.trans (listed_after_newcomers h hd hm' uri)
  rw [AgingCache.settled_iff h]
  intro x hx
  have href := AgingCache.purged_refines h now
  obtain ⟨before, after, hsplit, hwithout, rfl⟩ := RecencyList.split_of_record? href.nodup hx
  have hnodup := href.nodup
  have hfits : ((l.purged now).records.map CacheRecord.key).length ≤ l.capacity := by
    rw [List.length_map]
    exact href.fits
  have hleft : (m.purged now).records = (l.purged now).sighted ScannedRules.version x.key version := by
    rw [hpurged]
  simp only [RecencyList.sighted, hx, hwithout] at hleft
  rw [hleft] at hlisted
  rw [hsplit, List.map_append, List.map_cons] at hlisted hnodup hfits
  rw [hsplit]
  by_cases hversion : ScannedRules.version x.value = version
  · rw [if_pos hversion, List.map_append, List.map_append, List.map_singleton] at hlisted
    have hlast := eq_nil_of_sameInCrowd hnodup hfits hlisted
    rw [List.map_eq_nil_iff] at hlast
    exact ⟨hversion, by rw [hlast, List.getLast?_concat]⟩
  · rw [if_neg hversion, List.map_append] at hlisted
    exact absurd hlisted (not_sameInCrowd_of_gone hnodup hfits)

/-! ## The law -/

/-- In whatever state some calls have brought a resolver, a refused rename leaves no
trace in what any later calls show if and only if the new name was no rule name, or the
look at the rules of the document moved nothing: no live entry was there, or the one
there was of the version and no live entry was touched after it. -/
theorem refusal_leaves_no_trace_iff (catalog : Catalog) (limits : CacheLimits)
    (before : List (Nanos × Call)) (now : Nanos) (q : Question) (e : RenameError)
    (h : (((new catalog limits).run before).ask now q).1.refusal? = some e) :
    (∀ later, Later now later → (((new catalog limits).run before).ask now q).2.replies later =
      ((new catalog limits).run before).replies later) ↔
    (∃ newName, e = .invalidName newName) ∨
      ((new catalog limits).run before).cache.rules.Settled ScannedRules.version now q.document.uri
        q.document.version := by
  obtain ⟨_, ⟨l, _, hl, _⟩, ⟨m, _, hm, _⟩⟩ := alike_run_self catalog limits before now
  generalize (new catalog limits).run before = r at h hl hm ⊢
  obtain ⟨name, newName, hcheck, hafter⟩ := refused_by_check h
  rw [hafter]
  rcases checkRename_error hcheck with ⟨rfl, hrest⟩ | ⟨rfl, hrest⟩
  · rw [hrest]
    exact ⟨fun _ => Or.inl ⟨newName, rfl⟩, fun _ _ _ => rfl⟩
  · rw [hrest, ScanCache.rules?_eq]
    constructor
    · intro hsame
      exact Or.inr (settled_of_same_replies hl rfl hsame)
    · rintro (⟨_, hname⟩ | hsettled) later hlater
      · cases hname
      · exact replies_eq_of_alike ⟨rfl, AgingCache.readAt_alike hl hsettled, hm.alike now⟩ hlater

/-- Questions about the document `f`, and then about `g`. -/
def fThenG : List (Nanos × Call) :=
  [(0, .ask (.symbols (.new "f" ['a', '=', 'b'] 1))), (1, .ask (.symbols (.new "g" ['a', '=', 'b'] 1)))]

/-- A rename in `g` is refused, where `g` was the last document to be asked about.
Nothing that comes later shows it. -/
theorem a_refusal_in_the_last_document_leaves_no_trace :
    (((new Catalog.english {}).run fThenG).ask 2
        (.planRename (.new "g" ['a', '=', 'b'] 1) ['m'] ['c'])).1.refusal? = some (.undefinedRule ['m']) ∧
      ∀ later, Later 2 later →
        (((new Catalog.english {}).run fThenG).ask 2
          (.planRename (.new "g" ['a', '=', 'b'] 1) ['m'] ['c'])).2.replies later =
        ((new Catalog.english {}).run fThenG).replies later := by
  have h : (((new Catalog.english {}).run fThenG).ask 2
      (.planRename (.new "g" ['a', '=', 'b'] 1) ['m'] ['c'])).1.refusal? = some (.undefinedRule ['m']) := by
    cbv
  refine ⟨h, (refusal_leaves_no_trace_iff _ _ _ _ _ _ h).mpr (Or.inr ?_)⟩
  have hentries : ((new Catalog.english {}).run fThenG).cache.rules.slots.entries =
      [("f", ⟨⟨1, scanDefinitions "f" ['a', '=', 'b']⟩, 0, 2⟩),
        ("g", ⟨⟨1, scanDefinitions "g" ['a', '=', 'b']⟩, 1, 4⟩)] := by rfl
  intro s hs _
  rw [Dict.get?_eq_some_iff, hentries] at hs
  simp only [Question.document, Document.new, List.mem_cons, Prod.mk.injEq, List.not_mem_nil, or_false] at hs
  rcases hs with ⟨hf, _⟩ | ⟨_, rfl⟩
  · exact absurd hf (by decide)
  · refine ⟨rfl, fun e he _ => ?_⟩
    rw [hentries] at he
    simp only [List.mem_cons, List.not_mem_nil, or_false] at he
    rcases he with rfl | rfl <;> decide

/-- Two refusals that show. After the first one, in another version of `f`, a report
does not list `f` any more. The second one makes `f` the last document touched, so in
a cache of two it is `g` that makes room for `h`. -/
theorem some_refusals_leave_a_trace :
    ((((new Catalog.english {}).run fThenG).ask 2
        (.planRename (.new "f" ['a', '=', 'b'] 2) ['m'] ['c'])).1.refusal? = some (.undefinedRule ['m']) ∧
      ¬ ∀ later, Later 2 later →
        (((new Catalog.english {}).run fThenG).ask 2
          (.planRename (.new "f" ['a', '=', 'b'] 2) ['m'] ['c'])).2.replies later =
        ((new Catalog.english {}).run fThenG).replies later) ∧
    (((new Catalog.english ⟨2, 9⟩).run fThenG).ask 2
        (.validateRename (.new "f" ['a', '=', 'b'] 1) ['m'] ['c'])).1.refusal? = some (.undefinedRule ['m']) ∧
      ¬ ∀ later, Later 2 later →
        (((new Catalog.english ⟨2, 9⟩).run fThenG).ask 2
          (.validateRename (.new "f" ['a', '=', 'b'] 1) ['m'] ['c'])).2.replies later =
        ((new Catalog.english ⟨2, 9⟩).run fThenG).replies later := by
  refine ⟨⟨by cbv, fun hsame => ?_⟩, by cbv, fun hsame => ?_⟩
  · have hreport := report_of_same_replies hsame [] 3 (by unfold Later; decide)
    have hleft : ((((new Catalog.english {}).run fThenG).ask 2
        (.planRename (.new "f" ['a', '=', 'b'] 2) ['m'] ['c'])).2.report 3).1.entries = [("g", 1)] := by cbv
    have hright : (((new Catalog.english {}).run fThenG).report 3).1.entries = [("f", 1), ("g", 1)] := by cbv
    have hentries := hleft.symm.trans ((congrArg CacheReport.entries hreport).trans hright)
    revert hentries
    decide
  · have hreport := report_of_same_replies hsame [(3, .ask (.symbols (.new "h" [] 1)))] 4
      (by unfold Later; decide)
    have hleft : (((((new Catalog.english ⟨2, 9⟩).run fThenG).ask 2
        (.validateRename (.new "f" ['a', '=', 'b'] 1) ['m'] ['c'])).2.run
          [(3, .ask (.symbols (.new "h" [] 1)))]).report 4).1.entries = [("f", 1), ("h", 1)] := by cbv
    have hright : ((((new Catalog.english ⟨2, 9⟩).run fThenG).run
        [(3, .ask (.symbols (.new "h" [] 1)))]).report 4).1.entries = [("g", 1), ("h", 1)] := by cbv
    have hentries := hleft.symm.trans ((congrArg CacheReport.entries hreport).trans hright)
    revert hentries
    decide

end AbnfServer.Resolver
