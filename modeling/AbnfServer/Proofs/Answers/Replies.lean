-- What a host sees of a resolver, call after call. Two resolvers with the same live
-- scans in the same order look the same from then on.
import AbnfServer.Proofs.Answers.Resolver
import AbnfServer.Proofs.Cache.Live

namespace AbnfServer.Resolver

open Rule

/-! ## Replies -/

/-- What a host sees of a call. -/
inductive Reply
  | finding (answer : Finding)
  | done
  | report (report : CacheReport)

def reply (r : Resolver) (now : Nanos) : Call → Reply
  | .ask q => .finding (r.ask now q).1
  | .clearDocument _ | .clearAll => .done
  | .report => .report (r.report now).1

/-- What a host sees of some calls, one after the other. -/
def replies (r : Resolver) : List (Nanos × Call) → List Reply
  | [] => []
  | (now, c) :: calls => r.reply now c :: (r.step now c).replies calls

theorem replies_append (r : Resolver) (as bs : List (Nanos × Call)) :
    r.replies (as ++ bs) = r.replies as ++ (r.run as).replies bs := by
  induction as generalizing r with
  | nil => rfl
  | cons a as ih => exact congrArg (List.cons _) (ih _)

/-- No call comes before `now`, and none before an earlier one. -/
def Later (now : Nanos) (calls : List (Nanos × Call)) : Prop :=
  (now :: calls.map Prod.fst).Pairwise (· ≤ ·)

/-! ## Resolvers alike -/

/-- The messages are the same, and so are the live scans. -/
structure Alike (now : Nanos) (r s : Resolver) : Prop where
  catalog : r.catalog = s.catalog
  cache : r.cache.Alike now s.cache

variable {r s : Resolver} {now : Nanos}

theorem alike_rulesOf (h : r.Alike now s) (d : Document) :
    (r.rulesOf now d).1 = (s.rulesOf now d).1 ∧ (r.rulesOf now d).2.Alike now (s.rulesOf now d).2 := by
  obtain ⟨hvalue, hrest⟩ := ScanCache.alike_rules? h.cache d.uri d.version
  unfold rulesOf
  generalize r.cache.rules? now d.uri d.version = p at hvalue hrest
  generalize s.cache.rules? now d.uri d.version = q at hvalue hrest
  obtain ⟨known, left⟩ := p
  obtain ⟨_, right⟩ := q
  obtain rfl : known = _ := hvalue
  cases known with
  | some table => exact ⟨rfl, h.catalog, hrest⟩
  | none => exact ⟨rfl, h.catalog, ScanCache.alike_setRules hrest _ _ _⟩

theorem alike_referencesOf (h : r.Alike now s) (d : Document) (name : Text) :
    (r.referencesOf now d name).1 = (s.referencesOf now d name).1 ∧
      (r.referencesOf now d name).2.Alike now (s.referencesOf now d name).2 := by
  obtain ⟨hvalue, hrest⟩ := ScanCache.alike_references? h.cache d.uri d.version name
  unfold referencesOf
  generalize r.cache.references? now d.uri d.version name = p at hvalue hrest
  generalize s.cache.references? now d.uri d.version name = q at hvalue hrest
  obtain ⟨known, left⟩ := p
  obtain ⟨_, right⟩ := q
  obtain rfl : known = _ := hvalue
  cases known with
  | some found => exact ⟨rfl, h.catalog, hrest⟩
  | none => exact ⟨rfl, h.catalog, ScanCache.alike_setReferences hrest _ _ _ _⟩

theorem alike_hoverOf (h : r.Alike now s) (d : Document) (name : Text) :
    (r.hoverOf now d name).1 = (s.hoverOf now d name).1 ∧
      (r.hoverOf now d name).2.Alike now (s.hoverOf now d name).2 := by
  obtain ⟨htable, hrest⟩ := alike_rulesOf h d
  unfold hoverOf
  rw [← h.catalog]
  cases HoverText.ofCoreName? r.catalog name with
  | some text => exact ⟨rfl, h⟩
  | none => exact ⟨by simp only [htable, hrest.catalog], hrest⟩

theorem alike_checkRename (h : r.Alike now s) (d : Document) (name newName : Text) :
    (r.checkRename now d name newName).1 = (s.checkRename now d name newName).1 ∧
      (r.checkRename now d name newName).2.Alike now (s.checkRename now d name newName).2 := by
  obtain ⟨hvalue, hrest⟩ := ScanCache.alike_rules? h.cache d.uri d.version
  unfold checkRename
  split
  · exact ⟨rfl, h⟩
  · generalize r.cache.rules? now d.uri d.version = p at hvalue hrest
    generalize s.cache.rules? now d.uri d.version = q at hvalue hrest
    obtain ⟨known, left⟩ := p
    obtain ⟨_, right⟩ := q
    obtain rfl : known = _ := hvalue
    simp only
    split
    · exact ⟨rfl, h.catalog, hrest⟩
    · exact ⟨rfl, h.catalog, hrest⟩

theorem alike_planRename (h : r.Alike now s) (d : Document) (name newName : Text) :
    (r.planRename now d name newName).1 = (s.planRename now d name newName).1 ∧
      (r.planRename now d name newName).2.Alike now (s.planRename now d name newName).2 := by
  obtain ⟨hvalue, hrest⟩ := alike_checkRename h d name newName
  unfold planRename
  generalize r.checkRename now d name newName = p at hvalue hrest
  generalize s.checkRename now d name newName = q at hvalue hrest
  obtain ⟨result, left⟩ := p
  obtain ⟨_, right⟩ := q
  obtain rfl : result = _ := hvalue
  cases result with
  | error e => exact ⟨rfl, hrest⟩
  | ok scanned =>
    cases scanned with
    | none =>
      obtain ⟨hfound, hend⟩ := alike_referencesOf hrest d name
      exact ⟨by simp only [hfound], hend⟩
    | some table =>
      have hstored : Alike now { left with cache := left.cache.setRules now d.uri d.version table }
          { right with cache := right.cache.setRules now d.uri d.version table } :=
        ⟨hrest.catalog, ScanCache.alike_setRules hrest.cache d.uri d.version table⟩
      obtain ⟨hfound, hend⟩ := alike_referencesOf hstored d name
      exact ⟨by simp only [hfound], hend⟩

theorem alike_ask (h : r.Alike now s) (q : Question) :
    (r.ask now q).1 = (s.ask now q).1 ∧ (r.ask now q).2.Alike now (s.ask now q).2 := by
  cases q with
  | definition d name =>
    obtain ⟨htable, hrest⟩ := alike_rulesOf h d
    exact ⟨congrArg (fun t : SymbolTable => Finding.definition (t.get? name)) htable, hrest⟩
  | references d name =>
    obtain ⟨hfound, hrest⟩ := alike_referencesOf h d name
    exact ⟨congrArg Finding.references hfound, hrest⟩
  | symbols d =>
    obtain ⟨htable, hrest⟩ := alike_rulesOf h d
    exact ⟨by simp only [ask, symbolsOf, htable], hrest⟩
  | hover d name =>
    obtain ⟨htext, hrest⟩ := alike_hoverOf h d name
    exact ⟨congrArg Finding.hover htext, hrest⟩
  | validateRename d name newName =>
    obtain ⟨hresult, hrest⟩ := alike_checkRename h d name newName
    exact ⟨by simp only [ask, validateRename, hresult], hrest⟩
  | planRename d name newName =>
    obtain ⟨hplan, hrest⟩ := alike_planRename h d name newName
    exact ⟨congrArg Finding.plan hplan, hrest⟩

/-- Alike resolvers give the same reply to a call, and are alike after it. -/
theorem alike_call (h : r.Alike now s) (c : Call) :
    r.reply now c = s.reply now c ∧ (r.step now c).Alike now (s.step now c) := by
  cases c with
  | ask q =>
    obtain ⟨hanswer, hrest⟩ := alike_ask h q
    exact ⟨congrArg Reply.finding hanswer, hrest⟩
  | clearDocument uri => exact ⟨rfl, h.catalog, ScanCache.alike_clearDocument h.cache uri⟩
  | clearAll => exact ⟨rfl, h.catalog, ScanCache.alike_clearAll h.cache⟩
  | report =>
    obtain ⟨hreport, hrest⟩ := ScanCache.alike_report h.cache
    exact ⟨congrArg Reply.report hreport, h.catalog, hrest⟩

theorem Alike.self (h : r.Alike now s) (t : Nanos) : r.Alike t r := ⟨rfl, h.cache.self t⟩

/-- Every resolver that some calls lead to is alike to itself, so its scans are in
order. -/
theorem alike_run_self (catalog : Catalog) (limits : CacheLimits) (calls : List (Nanos × Call))
    (now : Nanos) : ((new catalog limits).run calls).Alike now ((new catalog limits).run calls) := by
  induction calls using List.reverseRecOn generalizing now with
  | nil => exact ⟨rfl, ScanCache.alike_new limits now⟩
  | append_singleton calls c ih =>
    rw [run_snoc]
    exact (alike_call (ih c.1) c.2).2.self now

/-- Alike resolvers give the same replies ever after. -/
theorem replies_eq_of_alike {calls : List (Nanos × Call)} (h : r.Alike now s) (hl : Later now calls) :
    r.replies calls = s.replies calls := by
  induction calls generalizing r s now with
  | nil => rfl
  | cons c calls ih =>
    obtain ⟨t, c⟩ := c
    obtain ⟨hnow, hrest⟩ := List.pairwise_cons.mp hl
    have hlater : r.Alike t s := ⟨h.catalog, h.cache.later (hnow t List.mem_cons_self)⟩
    obtain ⟨hreply, hstep⟩ := alike_call hlater c
    exact congrArg₂ List.cons hreply (ih hstep hrest)

end AbnfServer.Resolver
