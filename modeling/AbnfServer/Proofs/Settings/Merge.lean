-- What a payload does to the settings. Each setting comes from the member of the
-- payload under the name of the server, else from the payload itself, else it
-- stays. Either of the two counts only when all of it can be read, and at the end
-- the numbers are within their bounds.
import AbnfServer.Settings.Payload
import Mathlib.Data.List.Induction

namespace AbnfServer

/-! ## What a payload says about a setting -/

namespace Json

/-- The member under a key, unless it is null. -/
def given? (j : Json) (key : String) : Option Json :=
  match j.get? key with
  | some .null => none
  | v => v

/-- The value under a path of keys, unless one on the way is missing or null. -/
def at? (j : Json) : List String → Option Json
  | [] => some j
  | key :: path => (j.given? key).bind fun v => v.at? path

/-- What is given under a key, if anything, is an object. -/
def ObjectAt (j : Json) (key : String) : Prop := ∀ v, j.given? key = some v → v.isObject = true

end Json

/-- The forms of a level: its name, or an object whose one key is the name. -/
inductive LogLevel.Named : Json → LogLevel → Prop
  | name (l : LogLevel) : Named (.str l.name) l
  | key (l : LogLevel) : Named (.obj [(l.name, .null)]) l

/-- A setting: where a payload has it and which values mean what there, where it is
in a patch and in the settings, and what keeps it within its bounds. -/
structure Setting (α : Type) where
  path : List String
  Means : Json → α → Prop
  patch : Patch → Option α
  get : Settings → α
  bound : α → α

namespace Setting

/-- Any text is a language: one that is the tag of none means the default. -/
def locale : Setting Locale where
  path := ["locale"]
  Means j l := ∃ tag, j = .str tag ∧ l = (Locale.ofTag? tag).getD default
  patch := Patch.locale
  get := Settings.locale
  bound := id

def capacity : Setting Nat where
  path := ["cache", "capacity"]
  Means j n := j = .ofNat n ∧ n < UInt64.size
  patch := Patch.capacity
  get s := s.cache.capacity
  bound n := max 1 (min n 10000)

def lifetime : Setting Nat where
  path := ["cache", "ttlSecs"]
  Means j n := j = .ofNat n ∧ n < UInt64.size
  patch := Patch.lifetimeSecs
  get s := s.cache.lifetimeSecs
  bound n := max 1 (min n 86400)

def formatting : Setting Bool where
  path := ["formatting", "enable"]
  Means j b := j = .bool b
  patch := Patch.formatting
  get := Settings.formatting
  bound := id

def logLevel : Setting LogLevel where
  path := ["logging", "level"]
  Means := LogLevel.Named
  patch := Patch.logLevel
  get := Settings.logLevel
  bound := id

variable {α : Type} (f : Setting α)

/-- An object gives the setting a value. -/
def Says (j : Json) (x : α) : Prop := ∃ v, j.at? f.path = some v ∧ f.Means v x

/-- An object that has something in the place of the setting has a value of it there. -/
def Typed (j : Json) : Prop := ∀ v, j.at? f.path = some v → ∃ x, f.Means v x

end Setting

/-- All of a candidate can be read: it is an object, so is each part of it, and no
setting is ill-typed. What else is in it does not matter. -/
structure Settings.Readable (j : Json) : Prop where
  object : j.isObject = true
  parts : ∀ key ∈ ["cache", "formatting", "logging"], j.ObjectAt key
  locale : Setting.locale.Typed j
  capacity : Setting.capacity.Typed j
  lifetime : Setting.lifetime.Typed j
  formatting : Setting.formatting.Typed j
  logLevel : Setting.logLevel.Typed j

namespace Setting

variable {α : Type} (f : Setting α)

/-- A candidate sets a setting: all of it can be read, and the setting is there. -/
def SetBy (j : Json) (x : α) : Prop := Settings.Readable j ∧ f.Says j x

/-- The member under the name of the server sets a setting. -/
def SetByMember (payload : Json) (x : α) : Prop :=
  ∃ c, payload.get? settingsSection = some c ∧ f.SetBy c x

/-- Where a merged setting comes from. -/
inductive Source (s : Settings) (payload : Json) : α → Prop
  | member {x : α} : f.SetByMember payload x → Source s payload x
  | whole {x : α} : (∀ y, ¬ f.SetByMember payload y) → f.SetBy payload x → Source s payload x
  | kept : (∀ y, ¬ f.SetByMember payload y) → (∀ y, ¬ f.SetBy payload y) → Source s payload (f.get s)

/-- The merged setting is the one of its source, within its bounds. -/
def Merges (s : Settings) (payload : Json) : Prop :=
  ∀ y, f.get (s.merge payload) = y ↔ ∃ x, f.Source s payload x ∧ f.bound x = y

end Setting

/-! ## Reading one value -/

variable {α : Type} {j v : Json} {key : String}

theorem Json.asString?_eq_some_iff {s : String} : j.asString? = some s ↔ j = .str s := by
  cases j <;> simp [asString?]

theorem Json.asBool?_eq_some_iff {b : Bool} : j.asBool? = some b ↔ j = .bool b := by
  cases j <;> simp [asBool?]

theorem Json.asNat?_eq_some_iff {n : Nat} : j.asNat? = some n ↔ j = .ofNat n := by
  cases j with
  | num x =>
    cases x with
    | int i =>
      cases i with
      | ofNat m =>
        simp only [asNat?, asInt?, ofNat, ofInt, Option.some.injEq, num.injEq, Number.int.injEq]
        exact Int.ofNat_inj.symm
      | negSucc m => simp [asNat?, asInt?, ofNat, ofInt]
    | real x => simp [asNat?, asInt?, ofNat, ofInt]
  | _ => simp [asNat?, asInt?, ofNat, ofInt]

theorem Json.asNat64?_eq_some_iff {n : Nat} :
    j.asNat64? = some n ↔ j = .ofNat n ∧ n < UInt64.size := by
  unfold asNat64?
  rw [Option.filter_eq_some_iff, decide_eq_true_eq, asNat?_eq_some_iff]

theorem LogLevel.ofName?_eq_some_iff {s : String} {l : LogLevel} : ofName? s = some l ↔ s = l.name := by
  constructor
  · intro h
    have hname : l.name = s := by simpa using List.find?_some h
    exact hname.symm
  · rintro rfl
    cases l <;> decide

theorem Patch.level?_eq_some_iff {l : LogLevel} : level? j = some l ↔ LogLevel.Named j l := by
  constructor
  · intro h
    unfold level? at h
    split at h
    · rw [LogLevel.ofName?_eq_some_iff.mp h]
      exact .name l
    · rw [LogLevel.ofName?_eq_some_iff.mp h]
      exact .key l
    · cases h
  · intro h
    cases h <;> exact LogLevel.ofName?_eq_some_iff.mpr rfl

/-! ## Reading a candidate -/

namespace Patch

variable {read? : Json → Option α} {o : Option α} {part : String}

theorem member?_eq (j : Json) (key : String) (read? : Json → Option α) :
    member? j key read? =
      match j.given? key with
      | none => some none
      | some v => (read? v).map some := by
  unfold member? Json.given?
  cases j.get? key with
  | none => rfl
  | some v => cases v <;> rfl

/-- Only a value that is given is read, and then it has to be one. -/
theorem member?_eq_some_iff :
    member? j key read? = some o ↔
      (∀ v, j.given? key = some v → ∃ x, read? v = some x) ∧ o = (j.given? key).bind read? := by
  rw [member?_eq]
  cases j.given? key with
  | none => simp [eq_comm]
  | some v =>
    cases hv : read? v with
    | none => simp [hv]
    | some x => simp [hv, eq_comm]

theorem fieldOf?_eq_some_iff :
    fieldOf? key read? j = some o ↔
      j.isObject = true ∧ (∀ v, j.given? key = some v → ∃ x, read? v = some x) ∧
        o = (j.given? key).bind read? := by
  unfold fieldOf?
  by_cases h : j.isObject = true <;> simp [h, member?_eq_some_iff]

theorem cache?_eq_some_iff {numbers : Option Nat × Option Nat} :
    cache? j = some numbers ↔
      j.isObject = true ∧
        ((∀ v, j.given? "capacity" = some v → ∃ n, v.asNat64? = some n) ∧
          ∀ v, j.given? "ttlSecs" = some v → ∃ n, v.asNat64? = some n) ∧
        numbers = ((j.given? "capacity").bind Json.asNat64?, (j.given? "ttlSecs").bind Json.asNat64?) := by
  unfold cache?
  simp only [Option.bind_eq_bind, Option.bind_eq_some_iff, fieldOf?_eq_some_iff]
  constructor
  · rintro ⟨a, ⟨hobject, ha, rfl⟩, b, ⟨_, hb, rfl⟩, hnumbers⟩
    exact ⟨hobject, ⟨ha, hb⟩, (Option.some.inj hnumbers).symm⟩
  · rintro ⟨hobject, ⟨ha, hb⟩, rfl⟩
    exact ⟨_, ⟨hobject, ha, rfl⟩, _, ⟨hobject, hb, rfl⟩, rfl⟩

/-- What is given under a path can be read. -/
def Reads (read? : Json → Option α) (path : List String) (j : Json) : Prop :=
  ∀ v, j.at? path = some v → ∃ x, read? v = some x

theorem member?_asString? {o : Option String} :
    member? j key Json.asString? = some o ↔
      Reads Json.asString? [key] j ∧ o = (j.at? [key]).bind Json.asString? := by
  rw [member?_eq_some_iff]
  simp [Reads, Json.at?]

/-- Reads a part of a candidate that has one setting. -/
theorem member?_fieldOf? {o : Option (Option α)} :
    member? j part (fieldOf? key read?) = some o ↔
      (j.ObjectAt part ∧ Reads read? [part, key] j) ∧
        o = (j.given? part).map fun _ => (j.at? [part, key]).bind read? := by
  rw [member?_eq]
  cases h : j.given? part with
  | none => simp [Json.ObjectAt, Reads, Json.at?, h, @eq_comm _ none]
  | some c =>
    have hat : j.at? [part, key] = c.given? key := by simp [Json.at?, h]
    simp only [Json.ObjectAt, Reads, h, hat, Option.map_eq_some_iff, fieldOf?_eq_some_iff, Option.some.injEq,
      forall_eq', Option.map_some]
    constructor
    · rintro ⟨_, ⟨hobject, hreads, rfl⟩, rfl⟩
      exact ⟨⟨hobject, hreads⟩, rfl⟩
    · rintro ⟨⟨hobject, hreads⟩, rfl⟩
      exact ⟨_, ⟨hobject, hreads, rfl⟩, rfl⟩

/-- Reads the part with the two numbers. -/
theorem member?_cache? {o : Option (Option Nat × Option Nat)} :
    member? j "cache" cache? = some o ↔
      (j.ObjectAt "cache" ∧ Reads Json.asNat64? ["cache", "capacity"] j ∧
        Reads Json.asNat64? ["cache", "ttlSecs"] j) ∧
        o = (j.given? "cache").map fun _ =>
          ((j.at? ["cache", "capacity"]).bind Json.asNat64?,
            (j.at? ["cache", "ttlSecs"]).bind Json.asNat64?) := by
  rw [member?_eq]
  cases h : j.given? "cache" with
  | none => simp [Json.ObjectAt, Reads, Json.at?, h, @eq_comm _ none]
  | some c =>
    have hat (key : String) : j.at? ["cache", key] = c.given? key := by simp [Json.at?, h]
    simp only [Json.ObjectAt, Reads, h, hat, Option.map_eq_some_iff, cache?_eq_some_iff, Option.some.injEq,
      forall_eq', Option.map_some]
    constructor
    · rintro ⟨_, ⟨hobject, hreads, rfl⟩, rfl⟩
      exact ⟨⟨hobject, hreads⟩, rfl⟩
    · rintro ⟨⟨hobject, hreads⟩, rfl⟩
      exact ⟨_, ⟨hobject, hreads, rfl⟩, rfl⟩

/-- Without a part there is nothing in it, neither the one value nor the other. -/
theorem bind_pair_at? (j : Json) (part key key' : String) (read? : Json → Option α) :
    (((j.given? part).map fun _ =>
        ((j.at? [part, key]).bind read?, (j.at? [part, key']).bind read?)).bind Prod.fst =
      (j.at? [part, key]).bind read?) ∧
    ((j.given? part).map fun _ =>
        ((j.at? [part, key]).bind read?, (j.at? [part, key']).bind read?)).bind Prod.snd =
      (j.at? [part, key']).bind read? := by
  cases h : j.given? part <;> simp [Json.at?, h]

theorem join_at? (j : Json) (part key : String) (read? : Json → Option α) :
    ((j.given? part).map fun _ => (j.at? [part, key]).bind read?).join =
      (j.at? [part, key]).bind read? := by
  cases h : j.given? part <;> simp [Json.at?, h]

/-- A patch is read off just when the candidate can be read as a whole. -/
theorem ofJson?_eq_some_iff {p : Patch} :
    ofJson? j = some p ↔
      (j.isObject = true ∧ Reads Json.asString? ["locale"] j ∧
        (j.ObjectAt "cache" ∧ Reads Json.asNat64? ["cache", "capacity"] j ∧
          Reads Json.asNat64? ["cache", "ttlSecs"] j) ∧
        (j.ObjectAt "formatting" ∧ Reads Json.asBool? ["formatting", "enable"] j) ∧
        j.ObjectAt "logging" ∧ Reads level? ["logging", "level"] j) ∧
      p =
        { locale := ((j.at? ["locale"]).bind Json.asString?).map Locale.ofTag
          capacity := (j.at? ["cache", "capacity"]).bind Json.asNat64?
          lifetimeSecs := (j.at? ["cache", "ttlSecs"]).bind Json.asNat64?
          formatting := (j.at? ["formatting", "enable"]).bind Json.asBool?
          logLevel := (j.at? ["logging", "level"]).bind level? } := by
  obtain ⟨hcapacity, hlifetime⟩ := bind_pair_at? j "cache" "capacity" "ttlSecs" Json.asNat64?
  unfold ofJson?
  by_cases hobject : j.isObject = true
  · simp only [hobject, Bool.not_true, Bool.false_eq_true, if_false, Option.bind_eq_bind,
      Option.bind_eq_some_iff, member?_asString?, member?_fieldOf?, member?_cache?, true_and]
    constructor
    · rintro ⟨_, ⟨htag, rfl⟩, _, ⟨hcache, rfl⟩, _, ⟨hformatting, rfl⟩, _, ⟨hlogging, rfl⟩, hp⟩
      refine ⟨⟨htag, hcache, hformatting, hlogging⟩, ?_⟩
      rw [← Option.some.inj hp, hcapacity, hlifetime, join_at?, join_at?]
    · rintro ⟨⟨htag, hcache, hformatting, hlogging⟩, rfl⟩
      refine ⟨_, ⟨htag, rfl⟩, _, ⟨hcache, rfl⟩, _, ⟨hformatting, rfl⟩, _, ⟨hlogging, rfl⟩, ?_⟩
      rw [hcapacity, hlifetime, join_at?, join_at?]
      rfl
  · simp [hobject]

end Patch

namespace Setting

variable {f : Setting α} {read? : Json → Option α}

/-- A function that reads what the values of the setting mean. -/
def ReadBy (f : Setting α) (read? : Json → Option α) : Prop := ∀ v x, f.Means v x ↔ read? v = some x

theorem ReadBy.typed_iff (h : f.ReadBy read?) (j : Json) : f.Typed j ↔ Patch.Reads read? f.path j := by
  simp [Typed, Patch.Reads, h _ _]

theorem ReadBy.said_iff (h : f.ReadBy read?) (j : Json) (x : α) :
    f.Says j x ↔ (j.at? f.path).bind read? = some x := by
  simp [Says, Option.bind_eq_some_iff, h _ _]

theorem locale_readBy : locale.ReadBy fun v => v.asString?.map Locale.ofTag := by
  intro v l
  simp [locale, Option.map_eq_some_iff, Json.asString?_eq_some_iff, Locale.ofTag, @eq_comm _ l]

theorem capacity_readBy : capacity.ReadBy Json.asNat64? := fun _ _ => Json.asNat64?_eq_some_iff.symm

theorem lifetime_readBy : lifetime.ReadBy Json.asNat64? := fun _ _ => Json.asNat64?_eq_some_iff.symm

theorem formatting_readBy : formatting.ReadBy Json.asBool? := fun _ _ => Json.asBool?_eq_some_iff.symm

theorem logLevel_readBy : logLevel.ReadBy Patch.level? := fun _ _ => Patch.level?_eq_some_iff.symm

end Setting

/-- A patch is read off every candidate that can be read as a whole, and off no
other one. -/
theorem Settings.readable_iff (j : Json) : Settings.Readable j ↔ ∃ p, Patch.ofJson? j = some p := by
  have hlocale : Setting.locale.Typed j ↔ Patch.Reads Json.asString? ["locale"] j := by
    rw [Setting.locale_readBy.typed_iff]
    simp only [Patch.Reads, Setting.locale, Option.map_eq_some_iff]
    refine forall_congr' fun v => imp_congr_right fun _ => ?_
    exact ⟨fun ⟨_, t, ht, _⟩ => ⟨t, ht⟩, fun ⟨t, ht⟩ => ⟨_, t, ht, rfl⟩⟩
  have hcapacity := Setting.capacity_readBy.typed_iff j
  have hlifetime := Setting.lifetime_readBy.typed_iff j
  have hformatting := Setting.formatting_readBy.typed_iff j
  have hlevel := Setting.logLevel_readBy.typed_iff j
  simp only [Patch.ofJson?_eq_some_iff, exists_eq_right]
  constructor
  · intro h
    have hpart (key : String) (hkey : key ∈ ["cache", "formatting", "logging"]) : j.ObjectAt key :=
      h.parts key hkey
    exact ⟨h.object, hlocale.mp h.locale,
      ⟨hpart _ (by simp), hcapacity.mp h.capacity, hlifetime.mp h.lifetime⟩,
      ⟨hpart _ (by simp), hformatting.mp h.formatting⟩, hpart _ (by simp), hlevel.mp h.logLevel⟩
  · rintro ⟨hobject, htag, ⟨hcache, hcap, hlife⟩, ⟨hformat, henable⟩, hlog, hlev⟩
    refine ⟨hobject, ?_, hlocale.mpr htag, hcapacity.mpr hcap, hlifetime.mpr hlife,
      hformatting.mpr henable, hlevel.mpr hlev⟩
    intro key hkey
    simp only [List.mem_cons, List.not_mem_nil, or_false] at hkey
    rcases hkey with rfl | rfl | rfl
    · exact hcache
    · exact hformat
    · exact hlog

/-! ## Merging one setting -/

namespace Setting

variable {f : Setting α} {s : Settings} {payload : Json}

/-- The patch and the settings treat a setting as its description says. -/
structure Lawful (f : Setting α) : Prop where
  said : ∀ j p, Patch.ofJson? j = some p → ∀ x, f.patch p = some x ↔ f.Says j x
  patched : ∀ s p, f.get (s.patched p) = (f.patch p).getD (f.get s)
  clamped : ∀ s : Settings, f.get { s with cache := s.cache.clamped } = f.bound (f.get s)
  bound_bound : ∀ x, f.bound (f.bound x) = f.bound x

theorem locale_lawful : locale.Lawful where
  said j p hp x := by
    have hread : ((j.at? ["locale"]).bind Json.asString?).map Locale.ofTag =
        (j.at? ["locale"]).bind fun v => v.asString?.map Locale.ofTag := Option.map_bind
    rw [(Patch.ofJson?_eq_some_iff.mp hp).2, locale_readBy.said_iff, locale, ← hread]
  patched _ _ := rfl
  clamped _ := rfl
  bound_bound _ := rfl

theorem capacity_lawful : capacity.Lawful where
  said j p hp x := by
    rw [(Patch.ofJson?_eq_some_iff.mp hp).2, capacity_readBy.said_iff]
    rfl
  patched _ _ := rfl
  clamped _ := rfl
  bound_bound n := by simp only [capacity]; omega

theorem lifetime_lawful : lifetime.Lawful where
  said j p hp x := by
    rw [(Patch.ofJson?_eq_some_iff.mp hp).2, lifetime_readBy.said_iff]
    rfl
  patched _ _ := rfl
  clamped _ := rfl
  bound_bound n := by simp only [lifetime]; omega

theorem formatting_lawful : formatting.Lawful where
  said j p hp x := by
    rw [(Patch.ofJson?_eq_some_iff.mp hp).2, formatting_readBy.said_iff]
    rfl
  patched _ _ := rfl
  clamped _ := rfl
  bound_bound _ := rfl

theorem logLevel_lawful : logLevel.Lawful where
  said j p hp x := by
    rw [(Patch.ofJson?_eq_some_iff.mp hp).2, logLevel_readBy.said_iff]
    rfl
  patched _ _ := rfl
  clamped _ := rfl
  bound_bound _ := rfl

/-- What a candidate that can be read has for a setting. -/
def ofCandidate? (f : Setting α) (j : Json) : Option α := (Patch.ofJson? j).bind f.patch

/-- What a payload has for a setting: its member counts first. -/
def taken? (f : Setting α) (payload : Json) : Option α :=
  ((payload.get? settingsSection).bind f.ofCandidate?).or (f.ofCandidate? payload)

theorem Lawful.ofCandidate?_eq_some_iff (hf : f.Lawful) {j : Json} {x : α} :
    f.ofCandidate? j = some x ↔ f.SetBy j x := by
  unfold ofCandidate? SetBy
  rw [Settings.readable_iff, Option.bind_eq_some_iff]
  constructor
  · rintro ⟨p, hp, hx⟩
    exact ⟨⟨p, hp⟩, (hf.said j p hp x).mp hx⟩
  · rintro ⟨⟨p, hp⟩, hx⟩
    exact ⟨p, hp, (hf.said j p hp x).mpr hx⟩

theorem Lawful.member_eq_some_iff (hf : f.Lawful) {x : α} :
    (payload.get? settingsSection).bind f.ofCandidate? = some x ↔ f.SetByMember payload x := by
  simp only [Option.bind_eq_some_iff, hf.ofCandidate?_eq_some_iff, SetByMember]

theorem Lawful.source_iff (hf : f.Lawful) {x : α} :
    f.Source s payload x ↔ (f.taken? payload).getD (f.get s) = x := by
  have hmember (y : α) : (payload.get? settingsSection).bind f.ofCandidate? = some y ↔
      f.SetByMember payload y := hf.member_eq_some_iff
  have hwhole (y : α) : f.ofCandidate? payload = some y ↔ f.SetBy payload y :=
    hf.ofCandidate?_eq_some_iff
  unfold taken?
  constructor
  · intro h
    cases h with
    | member h => simp [(hmember x).mpr h]
    | whole hno h =>
      have hnone := Option.eq_none_iff_forall_ne_some.mpr fun y hy => hno y ((hmember y).mp hy)
      simp [hnone, (hwhole x).mpr h]
    | kept hno hno' =>
      have hnone := Option.eq_none_iff_forall_ne_some.mpr fun y hy => hno y ((hmember y).mp hy)
      have hnone' := Option.eq_none_iff_forall_ne_some.mpr fun y hy => hno' y ((hwhole y).mp hy)
      simp [hnone, hnone']
  · rintro rfl
    cases hm : (payload.get? settingsSection).bind f.ofCandidate? with
    | some y => exact .member ((hmember y).mp hm)
    | none =>
      have hno (y : α) : ¬ f.SetByMember payload y := by simp [← hmember, hm]
      cases hw : f.ofCandidate? payload with
      | some y => exact .whole hno ((hwhole y).mp hw)
      | none => exact .kept hno fun y => by simp [← hwhole, hw]

theorem Lawful.get_merge (hf : f.Lawful) (s : Settings) (payload : Json) :
    f.get (s.merge payload) = f.bound ((f.taken? payload).getD (f.get s)) := by
  unfold Settings.merge Settings.candidates taken? ofCandidate?
  rw [hf.clamped]
  cases hp : Patch.ofJson? payload <;> cases payload.get? settingsSection with
  | none => simp [hp, hf.patched]
  | some c => cases hc : Patch.ofJson? c <;> simp [hp, hc, hf.patched]

theorem Lawful.merges (hf : f.Lawful) (s : Settings) (payload : Json) : f.Merges s payload := by
  intro y
  rw [hf.get_merge]
  simp only [hf.source_iff]
  simp

/-- A second merge takes the same values, and they are within their bounds already. -/
theorem Lawful.get_merge_merge (hf : f.Lawful) (s : Settings) (payload : Json) :
    f.get ((s.merge payload).merge payload) = f.get (s.merge payload) := by
  rw [hf.get_merge, hf.get_merge]
  cases f.taken? payload with
  | none => exact hf.bound_bound _
  | some x => rfl

end Setting

namespace Settings

/-- The numbers are within their bounds. -/
structure Bounded (s : Settings) : Prop where
  capacity : 1 ≤ s.cache.capacity ∧ s.cache.capacity ≤ 10000
  lifetime : 1 ≤ s.cache.lifetimeSecs ∧ s.cache.lifetimeSecs ≤ 86400

theorem bounded_merge (s : Settings) (payload : Json) : (s.merge payload).Bounded := by
  have hcapacity := Setting.capacity_lawful.get_merge s payload
  have hlifetime := Setting.lifetime_lawful.get_merge s payload
  simp only [Setting.capacity, Setting.lifetime] at hcapacity hlifetime
  constructor <;> omega

theorem bounded_run {s : Settings} {payloads : List Json} (h : payloads = [] → s.Bounded) :
    (payloads.foldl merge s).Bounded := by
  cases payloads using List.reverseRecOn with
  | nil => exact h rfl
  | append_singleton payloads p =>
    rw [List.foldl_append]
    exact bounded_merge _ p

/-- Settings are the same when they have the same in each place. -/
theorem eq_of_get_eq {s t : Settings} (hl : Setting.locale.get s = Setting.locale.get t)
    (hc : Setting.capacity.get s = Setting.capacity.get t)
    (ht : Setting.lifetime.get s = Setting.lifetime.get t)
    (hf : Setting.formatting.get s = Setting.formatting.get t)
    (hv : Setting.logLevel.get s = Setting.logLevel.get t) : s = t := by
  obtain ⟨l, ⟨c, d⟩, f, v⟩ := s
  obtain ⟨l', ⟨c', d'⟩, f', v'⟩ := t
  simp only [Setting.locale, Setting.capacity, Setting.lifetime, Setting.formatting,
    Setting.logLevel] at hl hc ht hf hv
  subst hl hc ht hf hv
  rfl

theorem merge_merge (s : Settings) (payload : Json) : (s.merge payload).merge payload = s.merge payload :=
  eq_of_get_eq (Setting.locale_lawful.get_merge_merge s payload)
    (Setting.capacity_lawful.get_merge_merge s payload)
    (Setting.lifetime_lawful.get_merge_merge s payload)
    (Setting.formatting_lawful.get_merge_merge s payload)
    (Setting.logLevel_lawful.get_merge_merge s payload)

/-! ## The law -/

/-- A payload is merged setting by setting: its member under the name of the
server counts first, then the payload itself, and what neither of them sets stays.
Each of the two counts as a whole or not at all, and does not stop the other one.
So the numbers are within their bounds after any payloads, and to merge a payload
again changes nothing. -/
theorem payloads_merge_setting_by_setting (s : Settings) (payload : Json) :
    (Setting.locale.Merges s payload ∧ Setting.capacity.Merges s payload ∧
      Setting.lifetime.Merges s payload ∧ Setting.formatting.Merges s payload ∧
      Setting.logLevel.Merges s payload) ∧
    (∀ payloads : List Json, (payloads = [] → s.Bounded) → (payloads.foldl merge s).Bounded) ∧
    (s.merge payload).merge payload = s.merge payload := by
  refine ⟨⟨?_, ?_, ?_, ?_, ?_⟩, ?_, ?_⟩
  · exact Setting.locale_lawful.merges s payload
  · exact Setting.capacity_lawful.merges s payload
  · exact Setting.lifetime_lawful.merges s payload
  · exact Setting.formatting_lawful.merges s payload
  · exact Setting.logLevel_lawful.merges s payload
  · exact fun payloads h => bounded_run h
  · exact merge_merge s payload

/-- The locale spoils the payload but not its member, and the capacity of the member
is above its bound. The lifetime was below its own. A tag is known in any case of its
letters, and one that is not known brings back the default. -/
theorem an_ill_typed_payload_does_not_stop_its_member :
    let s : Settings := { cache := ⟨0, 0⟩ }
    let payload : Json := .obj
      [("abnf-analyzer", .obj [("cache", .obj [("capacity", .ofNat 20000)])]), ("locale", .bool true)]
    let known : Json := .obj [("locale", .str " EN_us")]
    let unknown : Json := .obj [("locale", .str "fr")]
    (s.merge payload).cache = ⟨10000, 1⟩ ∧ (s.merge payload).locale = .chinese ∧
      (s.merge known).locale = .english ∧ ((s.merge known).merge unknown).locale = .chinese ∧
      ([payload, .null].foldl merge s).Bounded := by
  intro s payload known unknown
  obtain ⟨⟨hlocale, hcapacity, hlifetime, _⟩, hbounded, _⟩ := payloads_merge_setting_by_setting s payload
  have hcap : (s.merge payload).cache.capacity = 10000 :=
    (hcapacity _).mpr ⟨20000, Setting.capacity_lawful.source_iff.mpr (by decide), rfl⟩
  have hlife : (s.merge payload).cache.lifetimeSecs = 1 :=
    (hlifetime _).mpr ⟨0, Setting.lifetime_lawful.source_iff.mpr (by decide), rfl⟩
  have hloc : (s.merge payload).locale = .chinese :=
    (hlocale _).mpr ⟨.chinese, Setting.locale_lawful.source_iff.mpr (by decide), rfl⟩
  have hknown : (s.merge known).locale = .english :=
    ((payloads_merge_setting_by_setting s known).1.1 _).mpr
      ⟨.english, Setting.locale_lawful.source_iff.mpr (by decide), rfl⟩
  have hunknown : ((s.merge known).merge unknown).locale = .chinese :=
    ((payloads_merge_setting_by_setting (s.merge known) unknown).1.1 _).mpr
      ⟨.chinese, Setting.locale_lawful.source_iff.mpr (by decide), rfl⟩
  refine ⟨?_, hloc, hknown, hunknown, hbounded [payload, .null] (by simp)⟩
  rw [← hcap, ← hlife]

end Settings

end AbnfServer
