import Mathlib

/-!
# Dictionaries

A dictionary of Python: pairs of keys and values in the order in which the keys
were first assigned, no two with the same key. Assigning to a key that is there
keeps its place (`set`), and a key that is removed and assigned again comes last.
-/

namespace BCC

/-- A dictionary with keys `κ` and values `α`. -/
structure Dict (κ α : Type) where
  entries : List (κ × α)
  nodup : (entries.map Prod.fst).Nodup

namespace Dict

variable {κ α : Type}

instance : EmptyCollection (Dict κ α) := ⟨⟨[], List.nodup_nil⟩⟩

theorem ext_entries {d d' : Dict κ α} (h : d.entries = d'.entries) : d = d' := by
  cases d
  cases d'
  cases h
  rfl

instance [DecidableEq κ] [DecidableEq α] : DecidableEq (Dict κ α) := fun d d' =>
  decidable_of_iff (d.entries = d'.entries) ⟨ext_entries, fun h => by rw [h]⟩

def keys (d : Dict κ α) : List κ := d.entries.map Prod.fst

def values (d : Dict κ α) : List α := d.entries.map Prod.snd

variable [DecidableEq κ]

/-- `d.get(key)` -/
def get? (d : Dict κ α) (k : κ) : Option α := d.entries.lookup k

/-- `key in d` -/
def contains (d : Dict κ α) (k : κ) : Bool := (d.get? k).isSome

/-- The pairs with the value at `k` replaced. -/
def replace (k : κ) (v : α) (es : List (κ × α)) : List (κ × α) := es.map fun e => if e.1 = k then (k, v) else e

theorem map_fst_replace (k : κ) (v : α) (es : List (κ × α)) : (replace k v es).map Prod.fst = es.map Prod.fst := by
  rw [replace, List.map_map]
  refine List.map_congr_left fun e _ => ?_
  show (if e.1 = k then (k, v) else e).1 = e.1
  split
  · rename_i h
    exact h.symm
  · rfl

/-- `d[k] = v` -/
def set (d : Dict κ α) (k : κ) (v : α) : Dict κ α :=
  if h : k ∈ d.keys then ⟨replace k v d.entries, by rw [map_fst_replace]; exact d.nodup⟩
  else ⟨d.entries ++ [(k, v)], by
    rw [List.map_append, List.nodup_append]
    refine ⟨d.nodup, List.nodup_singleton _, fun a ha b hb => ?_⟩
    rw [List.map_singleton, List.mem_singleton] at hb
    subst hb
    rintro rfl
    exact h ha⟩

/-- `d.pop(k, None)` -/
def erase (d : Dict κ α) (k : κ) : Dict κ α :=
  ⟨d.entries.filter fun e => e.1 ≠ k, d.nodup.sublist (List.filter_sublist.map _)⟩

/-! ## Lookups -/

theorem lookup_of_mem {es : List (κ × α)} (hn : (es.map Prod.fst).Nodup) {k : κ} {v : α} (h : (k, v) ∈ es) :
    es.lookup k = some v := by
  induction es with
  | nil => cases h
  | cons e es ih =>
    obtain ⟨k', v'⟩ := e
    rw [List.map_cons, List.nodup_cons] at hn
    rw [List.lookup_cons]
    rcases List.mem_cons.mp h with he | hmem
    · rw [Prod.mk.injEq] at he
      rw [he.1, he.2, beq_self_eq_true]
    · have hne : k ≠ k' := fun he => hn.1 (List.mem_map.mpr ⟨(k, v), hmem, he⟩)
      rw [beq_eq_false_iff_ne.mpr hne]
      exact ih hn.2 hmem

theorem mem_of_lookup {es : List (κ × α)} {k : κ} {v : α} (h : es.lookup k = some v) : (k, v) ∈ es := by
  induction es with
  | nil => cases h
  | cons e es ih =>
    rw [List.lookup_cons] at h
    split at h
    · rename_i he
      rw [Option.some.injEq] at h
      rw [eq_of_beq he, ← h]
      exact List.mem_cons_self
    · exact List.mem_cons_of_mem e (ih h)

theorem get?_eq_some {d : Dict κ α} {k : κ} {v : α} : d.get? k = some v ↔ (k, v) ∈ d.entries :=
  ⟨mem_of_lookup, lookup_of_mem d.nodup⟩

theorem get?_eq_none {d : Dict κ α} {k : κ} : d.get? k = none ↔ k ∉ d.keys := by
  constructor
  · intro h hmem
    obtain ⟨⟨k', v⟩, hv, rfl⟩ := List.mem_map.mp hmem
    rw [get?_eq_some.mpr hv] at h
    cases h
  · intro h
    cases hg : d.get? k with
    | none => rfl
    | some v => exact absurd (List.mem_map_of_mem (f := Prod.fst) (get?_eq_some.mp hg)) h

theorem contains_iff {d : Dict κ α} {k : κ} : d.contains k = true ↔ k ∈ d.keys := by
  rw [contains, Option.isSome_iff_ne_none, ne_eq, get?_eq_none, not_not]

theorem contains_of_get? {d : Dict κ α} {k : κ} {v : α} (h : d.get? k = some v) : d.contains k = true := by
  rw [contains, h]
  rfl

theorem mem_values {d : Dict κ α} {v : α} : v ∈ d.values ↔ ∃ k, d.get? k = some v := by
  simp only [values, List.mem_map, get?_eq_some, Prod.exists, exists_eq_right]

@[simp] theorem get?_empty (k : κ) : (∅ : Dict κ α).get? k = none := rfl

theorem entries_set_of_not_mem {d : Dict κ α} {k : κ} (h : k ∉ d.keys) (v : α) :
    (d.set k v).entries = d.entries ++ [(k, v)] := by
  rw [set, dif_neg h]

theorem entries_set_of_mem {d : Dict κ α} {k : κ} (h : k ∈ d.keys) (v : α) :
    (d.set k v).entries = replace k v d.entries := by
  rw [set, dif_pos h]

theorem get?_set (d : Dict κ α) (k : κ) (v : α) (k' : κ) : (d.set k v).get? k' = if k' = k then some v else d.get? k' := by
  have hiff : ∀ v', (k', v') ∈ (d.set k v).entries ↔ if k' = k then v' = v else (k', v') ∈ d.entries := fun v' => by
    by_cases hk : k ∈ d.keys
    · rw [entries_set_of_mem hk, replace, List.mem_map]
      constructor
      · rintro ⟨e, he, heq⟩
        split at heq
        · rw [Prod.mk.injEq] at heq
          rw [if_pos heq.1.symm]
          exact heq.2.symm
        · rename_i hne
          subst heq
          rw [if_neg hne]
          exact he
      · intro h
        split at h
        · rename_i he
          subst he h
          obtain ⟨e, hmem, hfst⟩ := List.mem_map.mp hk
          exact ⟨e, hmem, by rw [if_pos hfst]⟩
        · rename_i hne
          exact ⟨_, h, if_neg hne⟩
    · rw [entries_set_of_not_mem hk, List.mem_append, List.mem_singleton, Prod.mk.injEq]
      split
      · rename_i he
        subst he
        exact ⟨fun h => h.elim (fun h => absurd (List.mem_map_of_mem (f := Prod.fst) h) hk) (·.2), fun h => .inr ⟨rfl, h⟩⟩
      · rename_i hne
        exact ⟨fun h => h.resolve_right fun h => hne h.1, .inl⟩
  refine Option.ext fun v' => ?_
  rw [get?_eq_some, hiff]
  split
  · rw [Option.some.injEq, eq_comm]
  · rw [get?_eq_some]

theorem get?_erase (d : Dict κ α) (k k' : κ) : (d.erase k).get? k' = if k' = k then none else d.get? k' := by
  refine Option.ext fun v => ?_
  rw [get?_eq_some, erase, List.mem_filter]
  split
  · rename_i he
    simp [he]
  · rename_i hne
    simp [hne, get?_eq_some]

@[simp] theorem get?_set_self (d : Dict κ α) (k : κ) (v : α) : (d.set k v).get? k = some v := by rw [get?_set, if_pos rfl]

theorem get?_set_of_ne (d : Dict κ α) {k k' : κ} (v : α) (h : k' ≠ k) : (d.set k v).get? k' = d.get? k' := by
  rw [get?_set, if_neg h]

@[simp] theorem get?_erase_self (d : Dict κ α) (k : κ) : (d.erase k).get? k = none := by rw [get?_erase, if_pos rfl]

theorem get?_erase_of_ne (d : Dict κ α) {k k' : κ} (h : k' ≠ k) : (d.erase k).get? k' = d.get? k' := by
  rw [get?_erase, if_neg h]

theorem set_set (d : Dict κ α) (k : κ) (v w : α) : (d.set k v).set k w = d.set k w := by
  have hmem : k ∈ (d.set k v).keys := contains_iff.mp (by rw [contains, get?_set_self]; rfl)
  refine ext_entries ?_
  rw [entries_set_of_mem hmem]
  by_cases hk : k ∈ d.keys
  · rw [entries_set_of_mem hk, entries_set_of_mem hk, replace, replace, replace, List.map_map]
    refine List.map_congr_left fun e _ => ?_
    show (if (if e.1 = k then (k, v) else e).1 = k then (k, w) else if e.1 = k then (k, v) else e) = _
    by_cases he : e.1 = k
    · simp only [he, if_true]
    · simp only [he, if_false]
  · rw [entries_set_of_not_mem hk, entries_set_of_not_mem hk, replace, List.map_append, List.map_singleton, if_pos rfl]
    have hsame : ∀ e ∈ d.entries, (if e.1 = k then (k, w) else e) = e := fun e he =>
      if_neg fun (hfst : e.1 = k) => hk (hfst ▸ List.mem_map_of_mem (f := Prod.fst) he)
    rw [List.map_congr_left hsame, List.map_id']

theorem entries_foldl_erase : ∀ (es : List (κ × α)) (d : Dict κ α),
    (es.foldl (fun d e => d.erase e.1) d).entries = d.entries.filter fun e => e.1 ∉ es.map Prod.fst
  | [], d => by simp
  | e :: es, d => by
    rw [List.foldl_cons, entries_foldl_erase es, erase, List.filter_filter]
    refine List.filter_congr fun e' _ => ?_
    rw [← Bool.decide_and, decide_eq_decide, List.map_cons, List.mem_cons, not_or, and_comm]

/-- Removing the entries that satisfy `p`, one after the other. -/
theorem entries_erase_filter (p : κ × α → Bool) (d : Dict κ α) :
    ((d.entries.filter p).foldl (fun d e => d.erase e.1) d).entries = d.entries.filter fun e => !p e := by
  rw [entries_foldl_erase]
  refine List.filter_congr fun e he => ?_
  have hiff : e.1 ∈ (d.entries.filter p).map Prod.fst ↔ p e = true := by
    constructor
    · intro hmem
      obtain ⟨e', he', hfst⟩ := List.mem_map.mp hmem
      rw [List.mem_filter] at he'
      rw [← List.inj_on_of_nodup_map d.nodup he'.1 he hfst]
      exact he'.2
    · exact fun hp => List.mem_map_of_mem (List.mem_filter.mpr ⟨he, hp⟩)
  rw [decide_eq_decide.mpr (not_congr hiff), decide_not, Bool.decide_coe]

/-- The one entry with a key. -/
theorem filter_key {d : Dict κ α} {k : κ} {v : α} (h : d.get? k = some v) :
    (d.entries.filter fun e => e.1 = k) = [(k, v)] := by
  have key : ∀ {es : List (κ × α)}, (es.map Prod.fst).Nodup → (k, v) ∈ es → (es.filter fun e => e.1 = k) = [(k, v)] := by
    intro es hn hmem
    induction es with
    | nil => cases hmem
    | cons e es ih =>
      rw [List.map_cons, List.nodup_cons] at hn
      rcases List.mem_cons.mp hmem with rfl | hmem
      · have hrest : (es.filter fun e => e.1 = k) = [] := List.filter_eq_nil_iff.mpr fun e he => by
          rw [decide_eq_true_eq]
          rintro rfl
          have hfst : e.1 ∈ es.map Prod.fst := List.mem_map_of_mem he
          exact hn.1 hfst
        rw [List.filter_cons_of_pos (by simp), hrest]
      · have hne : e.1 ≠ k := fun he => hn.1 (he ▸ List.mem_map_of_mem (f := Prod.fst) hmem)
        rw [List.filter_cons_of_neg (by simpa using hne)]
        exact ih hn.2 hmem
  exact key d.nodup (get?_eq_some.mp h)
/-! ## Counting -/

section Count

variable (p : α → Bool)

/-- How many values satisfy `p`. -/
def count (d : Dict κ α) : Nat := d.values.countP p

omit [DecidableEq κ] in
@[simp] theorem count_empty : count p (∅ : Dict κ α) = 0 := rfl

theorem count_set {d : Dict κ α} {k : κ} (h : d.get? k = none) (v : α) :
    (d.set k v).count p = d.count p + if p v then 1 else 0 := by
  rw [count, values, entries_set_of_not_mem (get?_eq_none.mp h), List.map_append, List.countP_append, List.map_singleton,
    List.countP_singleton]
  rfl

theorem erase_of_not_mem {d : Dict κ α} {k : κ} (h : d.get? k = none) : d.erase k = d := by
  refine ext_entries (List.filter_eq_self.mpr fun e he => ?_)
  rw [decide_eq_true_iff]
  rintro rfl
  exact get?_eq_none.mp h (List.mem_map_of_mem (f := Prod.fst) he)

theorem count_erase {d : Dict κ α} {k : κ} {v : α} (h : d.get? k = some v) :
    (d.erase k).count p + (if p v then 1 else 0) = d.count p := by
  have key : ∀ {es : List (κ × α)}, (es.map Prod.fst).Nodup → (k, v) ∈ es →
      ((es.filter fun e => e.1 ≠ k).map Prod.snd).countP p + (if p v then 1 else 0) = (es.map Prod.snd).countP p := by
    intro es hn hmem
    induction es with
    | nil => cases hmem
    | cons e es ih =>
      rw [List.map_cons, List.nodup_cons] at hn
      rcases List.mem_cons.mp hmem with rfl | hmem
      · have hrest : (es.filter fun e => e.1 ≠ k) = es := List.filter_eq_self.mpr fun e he => by
          rw [decide_eq_true_iff]
          exact fun hk => hn.1 (List.mem_map.mpr ⟨e, he, hk⟩)
        rw [List.filter_cons_of_neg (by simp), hrest, List.map_cons, List.countP_cons]
      · have hne : e.1 ≠ k := fun hk => hn.1 (hk ▸ List.mem_map_of_mem (f := Prod.fst) hmem)
        rw [List.filter_cons_of_pos (by simpa using hne), List.map_cons, List.map_cons, List.countP_cons, List.countP_cons]
        have hes := ih hn.2 hmem
        omega
  exact key d.nodup (get?_eq_some.mp h)

end Count

end Dict

end BCC
