import BlockchainCoin.Framework.Ledger

/-!
# The order of transfers

Two orders in which the same entries can be applied lead to the same ledger
(`Run.lookup_perm`), since every key is created and consumed as often. Two
entries are linked when one consumes a coin that the other creates; others can
change places (`Step.swap`), so entries that can be applied in one order can be
applied in every order that keeps linked entries as they are (`Run.rearrange`).
Where the coins the entries create are new to the ledger, linked entries stand
with the one that creates the coin first (`Run.created_before`). Otherwise a coin
that is consumed before it is created was there from the start, and no order
creates it before that coin is consumed, or without that (`Run.mem_of_consumed_before`,
`Run.not_created_before`, `Run.not_created_of_not_consumed`).
-/

namespace BCC.Ledger

variable {κ ν τ : Type} [DecidableEq κ]

/-- The guard of an entry reads only the coins it consumes. -/
def Rules.Local (L : Rules τ κ ν) : Prop :=
  ∀ m m' x, (∀ k ∈ (L.transfer x).ins, m.lookup k = m'.lookup k) → L.guard m x → L.guard m' x

variable {L : Rules τ κ ν} {m m' m₁ m₂ : Coins κ ν} {x y : τ} {xs ys : List τ} {k : κ} {v : ν}

omit [DecidableEq κ] in
theorem createdBy_cons : createdBy L (x :: xs) = (L.transfer x).outs.map Prod.fst ++ createdBy L xs := rfl

omit [DecidableEq κ] in
theorem consumedBy_cons : consumedBy L (x :: xs) = (L.transfer x).ins ++ consumedBy L xs := rfl

omit [DecidableEq κ] in
theorem map_fst_outs (L : Rules τ κ ν) (xs : List τ) :
    (xs.flatMap fun x => (L.transfer x).outs).map Prod.fst = createdBy L xs := by
  rw [createdBy, List.map_flatMap]

omit [DecidableEq κ] in
/-- Entries of distinct identities that create coins of their own identity create distinct coins. -/
theorem nodup_createdBy {ι : Type} {id : τ → ι} {o : κ → ι}
    (hnd : ∀ x ∈ xs, ((L.transfer x).outs.map Prod.fst).Nodup)
    (hown : ∀ x ∈ xs, ∀ k ∈ (L.transfer x).outs.map Prod.fst, o k = id x) (hn : (xs.map id).Nodup) :
    (createdBy L xs).Nodup := by
  induction xs with
  | nil => exact List.nodup_nil
  | cons x xs ih =>
    rw [List.map_cons, List.nodup_cons] at hn
    rw [List.forall_mem_cons] at hnd hown
    rw [createdBy_cons, List.nodup_append]
    refine ⟨hnd.1, ih hnd.2 hown.2 hn.2, fun a ha b hb hab => hn.1 ?_⟩
    obtain ⟨y, hy, hb⟩ := List.mem_flatMap.mp hb
    rw [← hown.1 a ha, hab, hown.2 y hy b hb]
    exact List.mem_map_of_mem hy

omit [DecidableEq κ] in
/-- A coin that is created once has one value. -/
theorem created_unique (hn : (createdBy L xs).Nodup) {v' : ν} (hx : x ∈ xs) (hk : (k, v) ∈ (L.transfer x).outs)
    (hy : y ∈ xs) (hk' : (k, v') ∈ (L.transfer y).outs) : v = v' := by
  rw [← map_fst_outs] at hn
  have he := List.inj_on_of_nodup_map hn (List.mem_flatMap.mpr ⟨x, hx, hk⟩) (List.mem_flatMap.mpr ⟨y, hy, hk'⟩) rfl
  exact (Prod.mk.inj he).2

/-! ## What becomes of a key -/

theorem Step.balance {x : Transfer κ ν} (h : Step m x m') (k : κ) :
    x.ins.count k + (if k ∈ m' then 1 else 0) = (x.outs.map Prod.fst).count k + if k ∈ m then 1 else 0 := by
  rw [h.nodup_ins.count, h.nodup_outs.count]
  by_cases ho : k ∈ x.outs.map Prod.fst
  · obtain ⟨⟨k', v⟩, hv, rfl⟩ := List.mem_map.mp ho
    have hm' : k' ∈ m' := AList.lookup_isSome.mp (by rw [h.lookup_created hv]; rfl)
    rw [if_pos ho, if_pos hm']
    by_cases hi : k' ∈ x.ins
    · rw [if_pos hi, if_pos (h.mem_ins _ hi)]
    · rw [if_neg hi, if_neg fun hm => h.fresh _ ho (mem_consume.mpr ⟨hm, hi⟩)]
  · have hl := h.lookup ho
    rw [if_neg ho]
    by_cases hi : k ∈ x.ins
    · rw [if_pos hi] at hl
      rw [if_pos hi, if_pos (h.mem_ins k hi), if_neg (by rw [← AList.lookup_isSome, hl]; simp)]
    · rw [if_neg hi] at hl
      have hm : k ∈ m' ↔ k ∈ m := by rw [← AList.lookup_isSome, hl, AList.lookup_isSome]
      simp only [hi, hm, if_false]

/-- A key is there at the end when it was created more often than consumed. -/
theorem Run.balance (h : Run L m xs m') (k : κ) :
    (consumedBy L xs).count k + (if k ∈ m' then 1 else 0) = (createdBy L xs).count k + if k ∈ m then 1 else 0 := by
  induction h with
  | nil => rfl
  | @cons m m₁ m' x xs _ hs _ ih =>
    have hb := hs.balance k
    rw [consumedBy_cons, createdBy_cons, List.count_append, List.count_append]
    omega

/-- A coin that is there at the end is one that was created, if any was under its key. -/
theorem Run.gained_created (h : Run L m xs m') (hk : m'.lookup k = some v) :
    (∃ x ∈ xs, (k, v) ∈ (L.transfer x).outs) ∨ k ∉ createdBy L xs ∧ m.lookup k = some v := by
  induction h with
  | nil => exact .inr ⟨List.not_mem_nil, hk⟩
  | @cons m m₁ m' x xs _ hs _ ih =>
    rcases ih hk with ⟨y, hy, hv⟩ | ⟨hc, h₁⟩
    · exact .inl ⟨y, List.mem_cons_of_mem _ hy, hv⟩
    · by_cases ho : k ∈ (L.transfer x).outs.map Prod.fst
      · obtain ⟨⟨_, w⟩, hw, rfl⟩ := List.mem_map.mp ho
        rw [hs.lookup_created hw, Option.some.injEq] at h₁
        exact .inl ⟨x, List.mem_cons_self, h₁ ▸ hw⟩
      · rw [hs.lookup ho] at h₁
        split at h₁
        · cases h₁
        · refine .inr ⟨?_, h₁⟩
          rw [createdBy_cons, List.mem_append, not_or]
          exact ⟨ho, hc⟩

theorem lookup_eq_of_mem_iff {n n' : Coins κ ν} (hmem : k ∈ n ↔ k ∈ n')
    (h : ∀ v v', n.lookup k = some v → n'.lookup k = some v' → v = v') : n.lookup k = n'.lookup k := by
  rw [← AList.lookup_isSome, ← AList.lookup_isSome] at hmem
  cases hv : n.lookup k with
  | none =>
    cases hv' : n'.lookup k with
    | none => rfl
    | some v => rw [hv, hv'] at hmem; simp at hmem
  | some v =>
    rw [hv] at hmem
    obtain ⟨v', hv'⟩ := Option.isSome_iff_exists.mp (hmem.mp rfl)
    rw [hv', h v v' hv hv']

/-- Entries that can be applied in two orders lead to the same ledger. -/
theorem Run.lookup_perm {m'' : Coins κ ν} (h : Run L m xs m') (h' : Run L m ys m'') (hn : (createdBy L xs).Nodup)
    (hp : ys.Perm xs) (k : κ) : m''.lookup k = m'.lookup k := by
  have hc : (createdBy L ys).Perm (createdBy L xs) := hp.flatMap_right _
  refine lookup_eq_of_mem_iff ?_ fun v v' hv hv' => ?_
  · have hk : (consumedBy L ys).Perm (consumedBy L xs) := hp.flatMap_right _
    have hb := h.balance k
    have hb' := h'.balance k
    rw [hc.count_eq, hk.count_eq] at hb'
    have he : (if k ∈ m'' then 1 else 0) = if k ∈ m' then 1 else 0 := by omega
    by_cases h₁ : k ∈ m' <;> by_cases h₂ : k ∈ m'' <;> simp_all
  · rcases h'.gained_created hv with ⟨x, hx, ho⟩ | ⟨hno, h₀⟩
    · rcases h.gained_created hv' with ⟨y, hy, ho'⟩ | ⟨hno', -⟩
      · exact created_unique hn (hp.mem_iff.mp hx) ho hy ho'
      · exact absurd (List.mem_flatMap.mpr ⟨x, hp.mem_iff.mp hx, List.mem_map_of_mem ho⟩) hno'
    · rcases h.gained_created hv' with ⟨y, hy, ho'⟩ | ⟨-, h₀'⟩
      · exact absurd (List.mem_flatMap.mpr ⟨y, hp.mem_iff.mpr hy, List.mem_map_of_mem ho'⟩) hno
      · rw [h₀, Option.some.injEq] at h₀'
        exact h₀'

/-! ## Entries that commute -/

omit [DecidableEq κ] in
/-- One of two entries consumes a coin that the other creates. -/
def Rules.Linked (L : Rules τ κ ν) (x y : τ) : Prop :=
  (∃ k ∈ (L.transfer x).ins, k ∈ (L.transfer y).outs.map Prod.fst) ∨
    ∃ k ∈ (L.transfer y).ins, k ∈ (L.transfer x).outs.map Prod.fst

/-- A transfer of a ledger is one of every ledger with the same coins. -/
theorem Step.congr {n : Coins κ ν} {t : Transfer κ ν} (h : Step m t m₁) (hsame : ∀ k, n.lookup k = m.lookup k) :
    ∃ n₁, Step n t n₁ ∧ ∀ k, n₁.lookup k = m₁.lookup k := by
  have hmem : ∀ k, k ∈ n ↔ k ∈ m := fun k => by rw [← AList.lookup_isSome, hsame, AList.lookup_isSome]
  have hs : Step n t (produce (consume n t.ins) t.outs) := by
    refine ⟨h.nodup_ins, fun k hk => (hmem k).mpr (h.mem_ins k hk), h.nodup_outs, fun k hk hm => ?_, rfl⟩
    rw [mem_consume] at hm
    exact h.fresh k hk (mem_consume.mpr ⟨(hmem k).mp hm.1, hm.2⟩)
  refine ⟨_, hs, fun k => ?_⟩
  by_cases hk : k ∈ t.outs.map Prod.fst
  · obtain ⟨⟨k, v⟩, hkv, rfl⟩ := List.mem_map.mp hk
    rw [hs.lookup_created hkv, h.lookup_created hkv]
  · rw [hs.lookup hk, h.lookup hk, hsame]

theorem Run.congr (hL : L.Local) {n : Coins κ ν} (h : Run L m xs m') (hsame : ∀ k, n.lookup k = m.lookup k) :
    ∃ n', Run L n xs n' ∧ ∀ k, n'.lookup k = m'.lookup k := by
  induction h generalizing n with
  | nil => exact ⟨n, .nil n, hsame⟩
  | @cons m m₁ m' x xs hg hs _ ih =>
    obtain ⟨n₁, hs₁, hsame₁⟩ := hs.congr hsame
    obtain ⟨n', hr, hsame'⟩ := ih hsame₁
    exact ⟨n', .cons (hL _ _ _ (fun k _ => (hsame k).symm) hg) hs₁ hr, hsame'⟩

section Swap

variable (hx : Step m (L.transfer x) m₁) (hy : Step m₁ (L.transfer y) m₂) (hno : ¬ L.Linked x y)
include hx hy hno

/-- The second of two entries that are not linked consumes coins that were there before the first. -/
theorem Step.lookup_ins (hk : k ∈ (L.transfer y).ins) : k ∉ (L.transfer x).ins ∧ m₁.lookup k = m.lookup k := by
  have hout : k ∉ (L.transfer x).outs.map Prod.fst := fun h => hno (.inr ⟨k, hk, h⟩)
  have hl := hx.lookup hout
  split at hl
  · have hsome := AList.lookup_isSome.mpr (hy.mem_ins k hk)
    rw [hl] at hsome
    cases hsome
  · exact ⟨‹_›, hl⟩

/-- Two entries that are not linked and create different coins can change places. -/
theorem Step.swap (hd : ∀ k ∈ (L.transfer x).outs.map Prod.fst, k ∉ (L.transfer y).outs.map Prod.fst) :
    ∃ n₁ n₂, Step m (L.transfer y) n₁ ∧ Step n₁ (L.transfer x) n₂ ∧
      (∀ k ∈ (L.transfer x).ins, m.lookup k = n₁.lookup k) ∧ ∀ k, n₂.lookup k = m₂.lookup k := by
  have hins : ∀ k ∈ (L.transfer y).ins, k ∉ (L.transfer x).ins ∧ m₁.lookup k = m.lookup k := fun k hk =>
    hx.lookup_ins hy hno hk
  have hxy : ∀ k ∈ (L.transfer x).ins, k ∉ (L.transfer y).outs.map Prod.fst := fun k hk h => hno (.inl ⟨k, hk, h⟩)
  have hyx : ∀ k ∈ (L.transfer y).ins, k ∉ (L.transfer x).outs.map Prod.fst := fun k hk h => hno (.inr ⟨k, hk, h⟩)
  have h₁ : Step m (L.transfer y) (produce (consume m (L.transfer y).ins) (L.transfer y).outs) := by
    refine ⟨hy.nodup_ins, fun k hk => ?_, hy.nodup_outs, fun k hk hm => hy.fresh k hk ?_, rfl⟩
    · rw [← AList.lookup_isSome, ← (hins k hk).2, AList.lookup_isSome]
      exact hy.mem_ins k hk
    · rw [mem_consume] at hm ⊢
      refine ⟨?_, hm.2⟩
      rw [← AList.lookup_isSome, hx.lookup fun h => hd k h hk, if_neg fun h => hxy k h hk, AList.lookup_isSome]
      exact hm.1
  generalize produce (consume m (L.transfer y).ins) (L.transfer y).outs = n₁ at h₁
  have hsame : ∀ k ∈ (L.transfer x).ins, m.lookup k = n₁.lookup k := fun k hk => by
    rw [h₁.lookup (hxy k hk), if_neg fun h => (hins k h).1 hk]
  have h₂ : Step n₁ (L.transfer x) (produce (consume n₁ (L.transfer x).ins) (L.transfer x).outs) := by
    refine ⟨hx.nodup_ins, fun k hk => ?_, hx.nodup_outs, fun k hk hm => hx.fresh k hk ?_, rfl⟩
    · rw [← AList.lookup_isSome, ← hsame k hk, AList.lookup_isSome]
      exact hx.mem_ins k hk
    · rw [mem_consume] at hm ⊢
      refine ⟨?_, hm.2⟩
      have hm₁ := hm.1
      rw [← AList.lookup_isSome, h₁.lookup (hd k hk), if_neg fun h => hyx k h hk, AList.lookup_isSome] at hm₁
      exact hm₁
  refine ⟨n₁, _, h₁, h₂, hsame, fun k => ?_⟩
  by_cases hkx : k ∈ (L.transfer x).outs.map Prod.fst
  · obtain ⟨⟨k, v⟩, hkv, rfl⟩ := List.mem_map.mp hkx
    rw [h₂.lookup_created hkv, hy.lookup (hd _ hkx), if_neg fun h => hyx _ h hkx, hx.lookup_created hkv]
  · by_cases hky : k ∈ (L.transfer y).outs.map Prod.fst
    · obtain ⟨⟨k, v⟩, hkv, rfl⟩ := List.mem_map.mp hky
      rw [h₂.lookup hkx, if_neg fun h => hxy _ h hky, h₁.lookup_created hkv, hy.lookup_created hkv]
    · rw [h₂.lookup hkx, h₁.lookup hky, hy.lookup hky, hx.lookup hkx]
      split <;> split <;> rfl

end Swap

/-- An entry moves to the front of entries it is not linked with. -/
theorem Run.to_front (hL : L.Local) {pre post : List τ} (hr : Run L m (pre ++ y :: post) m')
    (hno : ∀ p ∈ pre, ¬ L.Linked p y)
    (hd : ∀ p ∈ pre, ∀ k ∈ (L.transfer p).outs.map Prod.fst, k ∉ (L.transfer y).outs.map Prod.fst) :
    ∃ m'', Run L m (y :: (pre ++ post)) m'' ∧ ∀ k, m''.lookup k = m'.lookup k := by
  induction pre generalizing m with
  | nil => exact ⟨m', hr, fun _ => rfl⟩
  | cons p pre ih =>
    rw [List.forall_mem_cons] at hno hd
    cases hr with
    | @cons _ m₁ _ _ _ hg hs hr =>
      obtain ⟨m'', hr', hsame⟩ := ih hr hno.2 hd.2
      cases hr' with
      | @cons _ m₂ _ _ _ hg₂ hs₂ hr₂ =>
        obtain ⟨n₁, n₂, h₁, h₂, hins, hlook⟩ := hs.swap hs₂ hno.1 hd.1
        obtain ⟨n', hr₃, hsame₃⟩ := hr₂.congr hL hlook
        have hg₁ := hL _ _ _ (fun k hk => (hs.lookup_ins hs₂ hno.1 hk).2) hg₂
        exact ⟨n', .cons hg₁ h₁ (.cons (hL _ _ _ hins hg) h₂ hr₃), fun k => (hsame₃ k).trans (hsame k)⟩

/-- Entries that can be applied in one order can be applied in every order that keeps linked entries as they
are, and lead to the same ledger. -/
theorem Run.rearrange (hL : L.Local) (hr : Run L m xs m') (hp : ys.Perm xs) (hn : xs.Nodup)
    (hc : (createdBy L xs).Nodup) (hord : ∀ x y, [x, y].Sublist xs → L.Linked x y → [x, y].Sublist ys) :
    ∃ m'', Run L m ys m'' ∧ ∀ k, m''.lookup k = m'.lookup k := by
  induction ys generalizing xs m m' with
  | nil =>
    rw [hp.nil_eq.symm] at hr
    exact ⟨m', hr, fun _ => rfl⟩
  | cons y ys ih =>
    obtain ⟨pre, post, rfl⟩ := List.append_of_mem (hp.mem_iff.mp List.mem_cons_self)
    have hmid : (pre ++ y :: post).Perm (y :: (pre ++ post)) := List.perm_middle
    have hys : ys.Perm (pre ++ post) := (hp.trans hmid).cons_inv
    have hny := (hmid.nodup_iff.mp hn)
    have hcy := ((hmid.flatMap_right fun x => (L.transfer x).outs.map Prod.fst).nodup_iff).mp hc
    rw [List.nodup_cons] at hny
    rw [List.flatMap_cons, List.nodup_append] at hcy
    -- What stands before `y` and is linked with it would have to stay there.
    have hno : ∀ p ∈ pre, ¬ L.Linked p y := fun p hpre hlink => by
      have hsub : [p, y].Sublist (pre ++ y :: post) :=
        List.Sublist.append (List.singleton_sublist.mpr hpre) (List.singleton_sublist.mpr List.mem_cons_self)
      have hmem : y ∈ ys := by
        have h := hord p y hsub hlink
        cases h with
        | cons _ h => exact h.subset (by simp)
        | cons_cons _ h => exact List.singleton_sublist.mp h
      exact hny.1 (hys.mem_iff.mp hmem)
    have hd : ∀ p ∈ pre, ∀ k ∈ (L.transfer p).outs.map Prod.fst, k ∉ (L.transfer y).outs.map Prod.fst :=
      fun p hpre k hk hky =>
        hcy.2.2 k hky k (List.mem_flatMap.mpr ⟨p, List.mem_append_left _ hpre, hk⟩) rfl
    obtain ⟨m₁, hr₁, hsame₁⟩ := hr.to_front hL hno hd
    cases hr₁ with
    | @cons _ m₂ _ _ _ hg hs hr₂ =>
      obtain ⟨m'', hr'', hsame⟩ := ih hr₂ hys hny.2 hcy.2.1 fun a b hab hlink => by
        have hsub : [a, b].Sublist (pre ++ y :: post) :=
          hab.trans ((List.Sublist.refl pre).append (List.sublist_cons_self y post))
        have h := hord a b hsub hlink
        cases h with
        | cons _ h => exact h
        | cons_cons _ h => exact absurd (hab.subset List.mem_cons_self) hny.1
      exact ⟨m'', .cons hg hs hr'', fun k => (hsame k).trans (hsame₁ k)⟩

/-! ## Orders -/

omit [DecidableEq κ] in
theorem sublist_pair_or {l : List τ} (hx : x ∈ l) (hy : y ∈ l) (hne : x ≠ y) :
    [x, y].Sublist l ∨ [y, x].Sublist l := by
  induction l with
  | nil => cases hx
  | cons a l ih =>
    rcases List.mem_cons.mp hx with rfl | hx'
    · exact .inl ((List.singleton_sublist.mpr ((List.mem_cons.mp hy).resolve_left hne.symm)).cons_cons _)
    · rcases List.mem_cons.mp hy with rfl | hy'
      · exact .inr ((List.singleton_sublist.mpr hx').cons_cons _)
      · exact (ih hx' hy').imp (·.cons _) (·.cons _)

/-- No entry consumes a coin that only an entry after it creates. -/
theorem Run.created_before (hr : Run L m xs m') (hc : (createdBy L xs).Nodup) (hf : ∀ k ∈ createdBy L xs, k ∉ m)
    (hxy : [x, y].Sublist xs) (hk : k ∈ (L.transfer x).ins) : k ∉ (L.transfer y).outs.map Prod.fst := by
  induction hr with
  | nil => cases hxy
  | @cons m m₁ m' z xs _ hs hr ih =>
    have hsplit := hc
    rw [createdBy_cons, List.nodup_append] at hsplit
    have hmem : ∀ k, y ∈ xs → k ∈ (L.transfer y).outs.map Prod.fst → k ∈ createdBy L xs := fun k hy hky =>
      List.mem_flatMap.mpr ⟨y, hy, hky⟩
    cases hxy with
    | cons_cons _ h =>
      intro hky
      refine hf k ?_ (hs.mem_ins k hk)
      rw [createdBy_cons]
      exact List.mem_append_right _ (hmem k (List.singleton_sublist.mp h) hky)
    | cons _ h =>
      refine ih hsplit.2.1 (fun k' hk' hm => ?_) h
      have hno : k' ∉ (L.transfer z).outs.map Prod.fst := fun hz => hsplit.2.2 k' hz k' hk' rfl
      rw [← AList.lookup_isSome, hs.lookup hno] at hm
      split at hm
      · cases hm
      · refine hf k' ?_ (AList.lookup_isSome.mp hm)
        rw [createdBy_cons]
        exact List.mem_append_right _ hk'

theorem Run.nodup_ins (hr : Run L m xs m') : ∀ x ∈ xs, (L.transfer x).ins.Nodup := by
  induction hr with
  | nil => exact fun x hx => absurd hx List.not_mem_nil
  | cons _ hs _ ih => exact List.forall_mem_cons.mpr ⟨hs.nodup_ins, ih⟩

/-- A coin that is consumed before the only entry that creates it was there from the start. -/
theorem Run.mem_of_consumed_before (hr : Run L m xs m') (hc : (createdBy L xs).Nodup) (hxy : [x, y].Sublist xs)
    (hk : k ∈ (L.transfer x).ins) (hky : k ∈ (L.transfer y).outs.map Prod.fst) : k ∈ m := by
  induction hr with
  | nil => cases hxy
  | @cons m m₁ m' z xs _ hs _ ih =>
    rw [createdBy_cons, List.nodup_append] at hc
    cases hxy with
    | cons_cons _ _ => exact hs.mem_ins k hk
    | cons _ h =>
      have hno : k ∉ (L.transfer z).outs.map Prod.fst := fun hz =>
        hc.2.2 k hz k (List.mem_flatMap.mpr ⟨y, h.subset (by simp), hky⟩) rfl
      have hm := ih hc.2.1 h
      rw [← AList.lookup_isSome, hs.lookup hno] at hm
      split at hm
      · cases hm
      · exact AList.lookup_isSome.mp hm

/-- A coin that is there from the start is not created before the only entry that consumes it. -/
theorem Run.not_created_before (hr : Run L m xs m') (hc : (consumedBy L xs).Nodup) (hm : k ∈ m) (hyx : [y, x].Sublist xs)
    (hk : k ∈ (L.transfer x).ins) : k ∉ (L.transfer y).outs.map Prod.fst := by
  induction hr with
  | nil => cases hyx
  | @cons m m₁ m' z xs _ hs _ ih =>
    rw [consumedBy_cons, List.nodup_append] at hc
    have hno : x ∈ xs → k ∉ (L.transfer z).ins := fun hx hz =>
      hc.2.2 k hz k (List.mem_flatMap.mpr ⟨x, hx, hk⟩) rfl
    cases hyx with
    | cons_cons _ h => exact fun hky => hs.fresh k hky (mem_consume.mpr ⟨hm, hno (List.singleton_sublist.mp h)⟩)
    | cons _ h =>
      obtain ⟨v, hv⟩ := Option.isSome_iff_exists.mp (AList.lookup_isSome.mpr hm)
      have h₁ := (hs.lookup_or_consumed hv).resolve_right (hno (h.subset (by simp)))
      exact ih hc.2.1 (AList.lookup_isSome.mp (by rw [h₁]; rfl)) h

/-- A coin that is consumed was there from the start or is one that an entry creates. -/
theorem Run.mem_or_created (hr : Run L m xs m') (hx : x ∈ xs) (hk : k ∈ (L.transfer x).ins) :
    k ∈ m ∨ ∃ y ∈ xs, k ∈ (L.transfer y).outs.map Prod.fst := by
  induction hr with
  | nil => cases hx
  | @cons m m₁ m' z xs _ hs _ ih =>
    rcases List.mem_cons.mp hx with rfl | hx
    · exact .inl (hs.mem_ins k hk)
    · rcases ih hx with hm | ⟨y, hy, hc⟩
      · by_cases hz : k ∈ (L.transfer z).outs.map Prod.fst
        · exact .inr ⟨z, List.mem_cons_self, hz⟩
        · rw [← AList.lookup_isSome, hs.lookup hz] at hm
          split at hm
          · cases hm
          · exact .inl (AList.lookup_isSome.mp hm)
      · exact .inr ⟨y, List.mem_cons_of_mem z hy, hc⟩

/-- A coin that is there from the start and not consumed is not created. -/
theorem Run.not_created_of_not_consumed (hr : Run L m xs m') (hm : k ∈ m) (hno : k ∉ consumedBy L xs) :
    k ∉ createdBy L xs := by
  induction hr with
  | nil => exact List.not_mem_nil
  | @cons m m₁ m' z xs _ hs _ ih =>
    rw [consumedBy_cons, List.mem_append, not_or] at hno
    obtain ⟨v, hv⟩ := Option.isSome_iff_exists.mp (AList.lookup_isSome.mpr hm)
    have h₁ := (hs.lookup_or_consumed hv).resolve_right hno.1
    rw [createdBy_cons, List.mem_append, not_or]
    exact ⟨fun hz => hs.fresh k hz (mem_consume.mpr ⟨hm, hno.1⟩),
      ih (AList.lookup_isSome.mp (by rw [h₁]; rfl)) hno.2⟩

end BCC.Ledger
