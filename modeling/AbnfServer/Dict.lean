-- Dictionaries that keep the order in which their keys first came in. No key
-- occurs twice, and that is part of the type.

namespace AbnfServer

/-- Pairs of a key and a value, with no key twice. -/
structure Dict (κ ν : Type) where
  entries : List (κ × ν)
  distinct : (entries.map Prod.fst).Nodup

namespace Dict

variable {κ ν : Type}

def empty : Dict κ ν := ⟨[], List.nodup_nil⟩

instance : EmptyCollection (Dict κ ν) := ⟨empty⟩

instance : Inhabited (Dict κ ν) := ⟨empty⟩

def size (d : Dict κ ν) : Nat := d.entries.length

def keys (d : Dict κ ν) : List κ := d.entries.map Prod.fst

@[ext] theorem ext {a b : Dict κ ν} (h : a.entries = b.entries) : a = b := by
  cases a; cases b; simp_all

/-- Keeps the entries that satisfy `p`. -/
def filter (p : κ → ν → Bool) (d : Dict κ ν) : Dict κ ν where
  entries := d.entries.filter fun e => p e.1 e.2
  distinct := d.distinct.sublist (List.filter_sublist.map _)

variable [DecidableEq κ]

/-- The value under a key. -/
def get? (d : Dict κ ν) (k : κ) : Option ν := (d.entries.find? fun e => e.1 = k).map Prod.snd

def contains (d : Dict κ ν) (k : κ) : Bool := (d.get? k).isSome

/-- Replaces the value under a key that is there, at its old place. -/
def replace (d : Dict κ ν) (k : κ) (v : ν) : Dict κ ν where
  entries := d.entries.map fun e => if e.1 = k then (k, v) else e
  distinct := by
    have h : (d.entries.map fun e => if e.1 = k then (k, v) else e).map Prod.fst
        = d.entries.map Prod.fst := by
      rw [List.map_map]
      refine List.map_congr_left fun e _ => ?_
      by_cases he : e.1 = k <;> simp [he]
    exact h ▸ d.distinct

theorem get?_eq_none_iff {d : Dict κ ν} {k : κ} : d.get? k = none ↔ k ∉ d.entries.map Prod.fst := by
  simp only [get?, Option.map_eq_none_iff, List.find?_eq_none, List.mem_map, decide_eq_true_eq,
    not_exists, not_and]

/-- Puts a value under a key: in place when the key is there, else at the end. -/
def insert (d : Dict κ ν) (k : κ) (v : ν) : Dict κ ν :=
  if h : d.get? k = none then
    { entries := d.entries ++ [(k, v)]
      distinct := by
        rw [List.map_append, List.nodup_append]
        refine ⟨d.distinct, by simp, ?_⟩
        intro a ha b hb he
        have hk : b = k := by simpa using hb
        exact get?_eq_none_iff.mp h (hk ▸ he ▸ ha) }
  else d.replace k v

/-- Takes a key out. -/
def erase (d : Dict κ ν) (k : κ) : Dict κ ν := d.filter fun a _ => !decide (a = k)

/-! ## What a look-up finds after each operation -/

@[simp] theorem get?_empty (k : κ) : (empty : Dict κ ν).get? k = none := rfl

theorem get?_eq_some_iff {d : Dict κ ν} {k : κ} {v : ν} :
    d.get? k = some v ↔ (k, v) ∈ d.entries := by
  obtain ⟨es, h⟩ := d
  unfold get?
  induction es with
  | nil => simp
  | cons e es ih =>
    rw [List.map_cons, List.nodup_cons] at h
    by_cases he : e.1 = k
    · subst he
      simp only [List.find?_cons, decide_true, Option.map_some, Option.some.injEq, List.mem_cons]
      constructor
      · rintro rfl; exact Or.inl rfl
      · rintro (hm | hm)
        · exact congrArg Prod.snd hm.symm
        · exact absurd (List.mem_map_of_mem (f := Prod.fst) hm) h.1
    · have := ih h.2
      simp only [List.find?_cons, he, decide_false] at this ⊢
      rw [this, List.mem_cons]
      refine ⟨Or.inr, fun hm => hm.resolve_left fun hm => he ?_⟩
      exact (congrArg Prod.fst hm).symm

theorem get?_filter {d : Dict κ ν} {p : κ → ν → Bool} {k : κ} :
    (d.filter p).get? k = (d.get? k).filter (p k) := by
  cases h : (d.get? k).filter (p k) with
  | some v =>
    obtain ⟨hv, hp⟩ := Option.filter_eq_some_iff.mp h
    exact get?_eq_some_iff.mpr (List.mem_filter.mpr ⟨get?_eq_some_iff.mp hv, hp⟩)
  | none =>
    cases hf : (d.filter p).get? k with
    | none => rfl
    | some v =>
      obtain ⟨hm, hp⟩ := List.mem_filter.mp (get?_eq_some_iff.mp hf)
      rw [get?_eq_some_iff.mpr hm] at h
      simp [hp] at h

theorem get?_erase {d : Dict κ ν} {k a : κ} :
    (d.erase k).get? a = if a = k then none else d.get? a := by
  unfold erase
  rw [get?_filter]
  by_cases h : a = k
  · subst h
    cases d.get? a <;> simp
  · cases d.get? a <;> simp [h]

theorem get?_replace {d : Dict κ ν} {k a : κ} {v : ν} :
    (d.replace k v).get? a = if a = k then (d.get? k).map fun _ => v else d.get? a := by
  ext w
  rw [get?_eq_some_iff, replace, List.mem_map]
  by_cases ha : a = k
  · subst ha
    simp only [if_true, Option.map_eq_some_iff, get?_eq_some_iff]
    constructor
    · rintro ⟨e, he, h⟩
      by_cases hk : e.1 = a
      · rw [if_pos hk] at h
        exact ⟨e.2, hk ▸ he, congrArg Prod.snd h⟩
      · rw [if_neg hk] at h
        exact absurd (congrArg Prod.fst h) hk
    · rintro ⟨u, hu, rfl⟩
      exact ⟨(a, u), hu, by simp⟩
  · rw [if_neg ha, get?_eq_some_iff]
    constructor
    · rintro ⟨e, he, h⟩
      by_cases hk : e.1 = k
      · rw [if_pos hk] at h
        exact absurd (congrArg Prod.fst h).symm ha
      · rw [if_neg hk] at h
        exact h ▸ he
    · intro h
      exact ⟨(a, w), h, by simp [ha]⟩

theorem get?_insert {d : Dict κ ν} {k a : κ} {v : ν} :
    (d.insert k v).get? a = if a = k then some v else d.get? a := by
  unfold insert
  split
  · next h =>
    unfold get? at h ⊢
    simp only [Option.map_eq_none_iff, List.find?_eq_none, decide_eq_true_eq] at h
    rw [List.find?_append]
    by_cases ha : a = k
    · subst ha
      have hn : (d.entries.find? fun e => decide (e.1 = a)) = none := by
        simpa [List.find?_eq_none] using h
      simp [hn]
    · simp [ha, eq_comm (a := k)]
  · next h =>
    rw [get?_replace]
    by_cases ha : a = k
    · obtain ⟨w, hw⟩ := Option.ne_none_iff_exists'.mp h
      simp [ha, hw]
    · simp [ha]

/-! ## How the entries lie -/

/-- A look-up does not depend on the order of the entries. -/
theorem get?_perm {a b : Dict κ ν} (h : a.entries.Perm b.entries) (k : κ) : a.get? k = b.get? k := by
  ext v
  rw [get?_eq_some_iff, get?_eq_some_iff, h.mem_iff]

/-- A new key comes last. -/
theorem entries_insert_new {d : Dict κ ν} {k : κ} (h : d.get? k = none) (v : ν) :
    (d.insert k v).entries = d.entries ++ [(k, v)] := by
  simp [insert, h]

theorem insert_old {d : Dict κ ν} {k : κ} (h : d.get? k ≠ none) (v : ν) :
    d.insert k v = d.replace k v := by
  simp [insert, h]

/-- To replace a value is to take its key out and to put it in last, the order
of the entries aside. -/
theorem entries_replace_perm {d : Dict κ ν} {k : κ} (h : d.get? k ≠ none) (v : ν) :
    (d.replace k v).entries.Perm ((d.erase k).entries ++ [(k, v)]) := by
  obtain ⟨es, hd⟩ := d
  have hk : k ∈ es.map Prod.fst :=
    Decidable.byContradiction fun hk => h (get?_eq_none_iff.mpr hk)
  clear h
  simp only [replace, erase, filter]
  induction es with
  | nil => exact absurd hk List.not_mem_nil
  | cons e es ih =>
    rw [List.map_cons, List.nodup_cons] at hd
    by_cases he : e.1 = k
    · have others : ∀ f ∈ es, f.1 ≠ k := by
        intro f hf hfk
        exact hd.1 (he.trans hfk.symm ▸ List.mem_map_of_mem hf)
      have hmap : (es.map fun f => if f.1 = k then (k, v) else f) = es :=
        (List.map_congr_left fun f hf => if_neg (others f hf)).trans (List.map_id es)
      have hfilter : (es.filter fun f => !decide (f.1 = k)) = es :=
        List.filter_eq_self.mpr fun f hf => by simp [others f hf]
      simp only [List.map_cons, List.filter_cons, he, decide_true, Bool.not_true,
        Bool.false_eq_true, if_false, hmap, hfilter]
      exact (List.perm_append_singleton (k, v) es).symm
    · have hk' : k ∈ es.map Prod.fst := by
        rcases List.mem_cons.mp hk with hk | hk
        · exact absurd hk.symm he
        · exact hk
      simp only [List.map_cons, List.filter_cons, he, decide_false, Bool.not_false, if_true]
      exact (ih hd.2 hk').cons e

end Dict

end AbnfServer
