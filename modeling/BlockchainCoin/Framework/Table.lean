import BlockchainCoin.Framework.Except

/-!
# Tables with a primary key

A table is the list of its rows. `insertAll` adds rows one by one and raises
when a row does not pass its check or repeats the key of another; `lookup` is
`SELECT ... WHERE key = k` and `first` is `SELECT ... ORDER BY ... LIMIT 1`.

The keys of a table never repeat, so what is read from it does not depend on
the order its rows were added in (`lookup_perm`, `first_perm`).
-/

namespace BCC.Table

variable {ρ κ ε : Type} [DecidableEq κ] (key : ρ → κ)

/-! ## Insertion -/

/-- `INSERT` of one row. -/
def insert (check : ρ → Except ε Unit) (clash : ε) (table : List ρ) (row : ρ) : Except ε (List ρ) := do
  check row
  raiseIf (key row ∈ table.map key) clash
  return table ++ [row]

/-- `executemany` of an `INSERT`. -/
def insertAll (check : ρ → Except ε Unit) (clash : ε) : List ρ → List ρ → Except ε (List ρ)
  | table, [] => .ok table
  | table, row :: rows => do
    let table' ← insert key check clash table row
    insertAll check clash table' rows

theorem insertAll_eq_ok {check : ρ → Except ε Unit} {clash : ε} {rows table table' : List ρ} :
    insertAll key check clash table rows = .ok table' ↔
      (∀ r ∈ rows, check r = .ok ()) ∧ (rows.map key).Nodup ∧ (∀ r ∈ rows, key r ∉ table.map key) ∧
        table' = table ++ rows := by
  induction rows generalizing table with
  | nil => simp [insertAll, eq_comm]
  | cons row rows ih =>
    simp only [insertAll, insert, bind_eq_ok, exists_unit, raiseIf_eq_ok, pure_eq_ok]
    constructor
    · rintro ⟨_, ⟨hc, hn, rfl⟩, h⟩
      obtain ⟨hcs, hnd, hfresh, rfl⟩ := ih.mp h
      simp only [List.map_append, List.map_cons, List.map_nil, List.mem_append, List.mem_singleton,
        not_or] at hfresh
      refine ⟨List.forall_mem_cons.mpr ⟨hc, hcs⟩, ?_, List.forall_mem_cons.mpr ⟨hn, fun r hr => (hfresh r hr).1⟩,
        by rw [List.append_assoc]; rfl⟩
      rw [List.map_cons, List.nodup_cons]
      refine ⟨fun hmem => ?_, hnd⟩
      obtain ⟨r, hr, he⟩ := List.mem_map.mp hmem
      exact (hfresh r hr).2 he
    · rintro ⟨hcs, hnd, hfresh, rfl⟩
      rw [List.forall_mem_cons] at hcs hfresh
      rw [List.map_cons, List.nodup_cons] at hnd
      refine ⟨_, ⟨hcs.1, hfresh.1, rfl⟩, ih.mpr ⟨hcs.2, hnd.2, fun r hr hmem => ?_, by rw [List.append_assoc]; rfl⟩⟩
      simp only [List.map_append, List.map_cons, List.map_nil, List.mem_append, List.mem_singleton] at hmem
      rcases hmem with hmem | he
      · exact hfresh.2 r hr hmem
      · exact hnd.1 (he ▸ List.mem_map_of_mem hr)

section Tagged

variable {τ : Type} [DecidableEq τ] {tag : ρ → τ} {sub : ρ → κ} {check : ρ → Except ε Unit} {clash : ε} {t : τ}
  {table rows table' : List ρ}

/-- `DELETE ... WHERE tag = t`, and then `executemany` of rows of that tag. -/
theorem insertAll_replacing (hrows : ∀ r ∈ rows, tag r = t) :
    insertAll (fun r => (tag r, sub r)) check clash (table.filter fun r => tag r ≠ t) rows = .ok table' ↔
      (∀ r ∈ rows, check r = .ok ()) ∧ (rows.map sub).Nodup ∧
        table' = (table.filter fun r => tag r ≠ t) ++ rows := by
  have hnodup : (rows.map fun r => (tag r, sub r)).Nodup ↔ (rows.map sub).Nodup := by
    have hmap : (rows.map fun r => (tag r, sub r)) = (rows.map sub).map (Prod.mk t) := by
      rw [List.map_map]
      exact List.map_congr_left fun r hr => by rw [hrows r hr]; rfl
    rw [hmap]
    exact List.nodup_map_iff fun a b h => (Prod.mk.inj h).2
  have hfresh : ∀ r ∈ rows, (tag r, sub r) ∉ (table.filter fun r => tag r ≠ t).map fun r => (tag r, sub r) := by
    intro r hr hmem
    obtain ⟨q, hq, he⟩ := List.mem_map.mp hmem
    have hne := (List.mem_filter.mp hq).2
    rw [decide_eq_true_iff] at hne
    exact hne ((Prod.mk.inj he).1.trans (hrows r hr))
  rw [insertAll_eq_ok, hnodup]
  exact and_congr_right fun _ => and_congr_right fun _ => and_iff_right hfresh

omit [DecidableEq κ] in
theorem filter_replacing (hrows : ∀ r ∈ rows, tag r = t) (t' : τ) :
    ((table.filter fun r => tag r ≠ t) ++ rows).filter (fun r => tag r = t') =
      if t' = t then rows else table.filter fun r => tag r = t' := by
  rw [List.filter_append, List.filter_filter]
  split
  · rename_i h
    subst h
    have hnone : (table.filter fun r => decide (tag r = t') && decide (tag r ≠ t')) = [] :=
      List.filter_eq_nil_iff.mpr fun r _ => by simp
    have hall : (rows.filter fun r => decide (tag r = t')) = rows :=
      List.filter_eq_self.mpr fun r hr => by simpa using hrows r hr
    rw [hnone, hall, List.nil_append]
  · rename_i h
    have hnone : (rows.filter fun r => decide (tag r = t')) = [] :=
      List.filter_eq_nil_iff.mpr fun r hr => by
        rw [hrows r hr]
        simpa using Ne.symm h
    rw [hnone, List.append_nil]
    refine List.filter_congr fun r _ => ?_
    by_cases hr : tag r = t'
    · simp [hr, h]
    · simp [hr]

end Tagged

/-! ## Lookup -/

/-- `SELECT ... WHERE key = k`. -/
def lookup (table : List ρ) (k : κ) : Option ρ := table.find? fun r => key r = k

variable {key}

theorem lookup_eq_some {table : List ρ} (hn : (table.map key).Nodup) {k : κ} {r : ρ} :
    lookup key table k = some r ↔ r ∈ table ∧ key r = k := by
  constructor
  · intro h
    exact ⟨List.mem_of_find?_eq_some h, by simpa using List.find?_some h⟩
  · rintro ⟨hr, rfl⟩
    cases hf : lookup key table (key r) with
    | none =>
      have hno := List.find?_eq_none.mp hf r hr
      simp at hno
    | some r' =>
      have hr' := List.mem_of_find?_eq_some hf
      have he : key r' = key r := by simpa using List.find?_some hf
      rw [List.inj_on_of_nodup_map hn hr' hr he]

theorem lookup_eq_none {table : List ρ} {k : κ} : lookup key table k = none ↔ k ∉ table.map key := by
  simp [lookup, List.find?_eq_none]

theorem isSome_lookup {table : List ρ} {k : κ} : (lookup key table k).isSome = true ↔ k ∈ table.map key := by
  simp [lookup, List.find?_isSome]

theorem lookup_perm {t₁ t₂ : List ρ} (hp : t₁.Perm t₂) (hn : (t₁.map key).Nodup) (k : κ) :
    lookup key t₁ k = lookup key t₂ k := by
  have hn₂ : (t₂.map key).Nodup := (hp.map key).nodup_iff.mp hn
  cases h : lookup key t₁ k with
  | none => rw [lookup_eq_none, (hp.map key).mem_iff] at h; exact (lookup_eq_none.mpr h).symm
  | some r =>
    rw [lookup_eq_some hn, hp.mem_iff] at h
    exact ((lookup_eq_some hn₂).mpr h).symm

/-! ## The first row of an order -/

section First

variable (le : ρ → ρ → Prop) [DecidableRel le]

omit [DecidableEq κ] in
/-- `SELECT ... ORDER BY ... LIMIT 1`. -/
def first : List ρ → Option ρ
  | [] => none
  | r :: rows =>
    match first rows with
    | none => some r
    | some s => if le r s then some r else some s

variable {le}

theorem first_eq_none {rows : List ρ} : first le rows = none ↔ rows = [] := by
  cases rows with
  | nil => simp [first]
  | cons r rows =>
    rw [first]
    cases first le rows with
    | none => simp
    | some s => simp only [reduceCtorEq, iff_false]; split <;> simp

theorem first_mem : ∀ {rows : List ρ} {r : ρ}, first le rows = some r → r ∈ rows
  | q :: rows, r, h => by
    rw [first] at h
    cases hf : first le rows with
    | none =>
      rw [hf, Option.some.injEq] at h
      rw [h]
      exact List.mem_cons_self
    | some s =>
      rw [hf] at h
      simp only at h
      split at h
      · rw [Option.some.injEq] at h
        rw [h]
        exact List.mem_cons_self
      · rw [Option.some.injEq] at h
        rw [← h]
        exact List.mem_cons_of_mem _ (first_mem hf)

theorem first_le (htotal : ∀ a b, le a b ∨ le b a) (htrans : ∀ {a b c}, le a b → le b c → le a c) :
    ∀ {rows : List ρ} {r : ρ}, first le rows = some r → ∀ q ∈ rows, le r q
  | p :: rows, r, h, q, hq => by
    have hrefl : ∀ a, le a a := fun a => (htotal a a).elim id id
    rw [first] at h
    cases hf : first le rows with
    | none =>
      rw [hf, Option.some.injEq] at h
      rw [first_eq_none.mp hf, List.mem_singleton] at hq
      rw [← h, hq]
      exact hrefl p
    | some s =>
      have hs := first_le htotal htrans hf
      rw [hf] at h
      simp only at h
      split at h
      · rename_i hps
        rw [Option.some.injEq] at h
        subst h
        rcases List.mem_cons.mp hq with rfl | hq
        · exact hrefl q
        · exact htrans hps (hs q hq)
      · rename_i hps
        rw [Option.some.injEq] at h
        subst h
        rcases List.mem_cons.mp hq with rfl | hq
        · exact (htotal q s).resolve_left hps
        · exact hs q hq

/-- One more row at the end comes first where the first row so far does not come before it. -/
theorem first_concat_eq (htotal : ∀ a b, le a b ∨ le b a) (htrans : ∀ {a b c}, le a b → le b c → le a c) (row : ρ) :
    ∀ rows : List ρ, first le (rows ++ [row]) = some (match first le rows with
      | none => row
      | some r => if le r row then r else row)
  | [] => rfl
  | r :: rows => by
    rw [List.cons_append, first, first, first_concat_eq htotal htrans row rows]
    cases first le rows with
    | none => exact (apply_ite some _ _ _).symm
    | some s =>
      simp only
      by_cases hs : le s row
      · rw [if_pos hs]
        by_cases hr : le r s
        · rw [if_pos hr]
          simp only [if_pos (htrans hr hs)]
        · rw [if_neg hr]
          simp only [if_pos hs]
      · rw [if_neg hs]
        by_cases hr : le r s
        · rw [if_pos hr]
          exact (apply_ite some _ _ _).symm
        · have hrow : ¬ le r row := fun h => hr (htrans h ((htotal s row).resolve_left hs))
          rw [if_neg hr, if_neg hrow]
          simp only [if_neg hs]

/-- The first row depends only on which rows there are. -/
theorem first_perm (htotal : ∀ a b, le a b ∨ le b a) (htrans : ∀ {a b c}, le a b → le b c → le a c)
    {t₁ t₂ : List ρ} (hanti : ∀ a ∈ t₁, ∀ b ∈ t₁, le a b → le b a → a = b) (hp : t₁.Perm t₂) :
    first le t₁ = first le t₂ := by
  cases h₁ : first le t₁ with
  | none =>
    rw [first_eq_none] at h₁
    subst h₁
    exact (first_eq_none.mpr hp.nil_eq.symm).symm
  | some a =>
    cases h₂ : first le t₂ with
    | none =>
      rw [first_eq_none] at h₂
      subst h₂
      rw [hp.eq_nil] at h₁
      cases h₁
    | some b =>
      have ha := first_mem h₁
      have hb := hp.mem_iff.mpr (first_mem h₂)
      rw [hanti a ha b hb (first_le htotal htrans h₁ b hb)
        (first_le htotal htrans h₂ a (hp.mem_iff.mp ha))]

end First

end BCC.Table
