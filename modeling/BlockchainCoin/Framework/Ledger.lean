import BlockchainCoin.Framework.Except

/-!
# Ledgers of coins

A ledger holds coins: keys `κ` with the value `ν` of each. A transfer consumes
coins that are there and creates coins under keys that are not; `Step` is one
transfer and `Run` a list of entries that each make one and meet a guard.

* `Step.worth`: what a ledger is worth, for any weight of the values, changes by
  what is created less what is consumed;
* `Step.lookup`: what a transfer does to each key;
* `Run.lost`, `Run.gained`: a coin that is no longer there was consumed by an
  entry that found it with its value, and a coin that was not there before was
  created by one;
* `Run.not_repeated`: where entries create coins of their own identity and do not
  use each other in a cycle, no segment of entries is directly followed by a copy;
* `Run.once_of_empty`: where keys carry the identity of the entry that creates
  them, entries applied to the empty ledger never repeat, unless one that
  consumes nothing does.
-/

namespace BCC.Ledger

variable {κ ν : Type} [DecidableEq κ]

/-- A ledger: the coins by key. -/
abbrev Coins (κ ν : Type) := AList fun _ : κ => ν

/-- The keys a transfer consumes, and the coins it creates. -/
structure Transfer (κ ν : Type) where
  ins : List κ
  outs : List (κ × ν)

def consume (m : Coins κ ν) (ks : List κ) : Coins κ ν := ks.foldl (fun m k => m.erase k) m

def produce (m : Coins κ ν) (kvs : List (κ × ν)) : Coins κ ν := kvs.foldl (fun m e => m.insert e.1 e.2) m

/-! ## Keys after consuming and producing -/

theorem lookup_consume (m : Coins κ ν) (ks : List κ) (k : κ) :
    (consume m ks).lookup k = if k ∈ ks then none else m.lookup k := by
  induction ks generalizing m with
  | nil => simp [consume]
  | cons a ks ih =>
    have h : consume m (a :: ks) = consume (m.erase a) ks := rfl
    rw [h, ih]
    by_cases hk : k ∈ ks
    · simp [hk]
    · by_cases ha : k = a
      · subst ha; simp [hk]
      · simp [hk, ha, AList.lookup_erase_ne ha]

theorem mem_consume {m : Coins κ ν} {ks : List κ} {k : κ} : k ∈ consume m ks ↔ k ∈ m ∧ k ∉ ks := by
  rw [← AList.lookup_isSome, ← AList.lookup_isSome, lookup_consume]
  split <;> simp_all

theorem lookup_produce_of_notMem {m : Coins κ ν} {kvs : List (κ × ν)} {k : κ} (h : k ∉ kvs.map Prod.fst) :
    (produce m kvs).lookup k = m.lookup k := by
  induction kvs generalizing m with
  | nil => rfl
  | cons e kvs ih =>
    rw [List.map_cons, List.mem_cons, not_or] at h
    have hp : produce m (e :: kvs) = produce (m.insert e.1 e.2) kvs := rfl
    rw [hp, ih h.2, AList.lookup_insert_ne h.1]

theorem lookup_produce_of_mem {m : Coins κ ν} {kvs : List (κ × ν)} (hn : (kvs.map Prod.fst).Nodup) {k : κ}
    {v : ν} (h : (k, v) ∈ kvs) : (produce m kvs).lookup k = some v := by
  induction kvs generalizing m with
  | nil => cases h
  | cons e kvs ih =>
    rw [List.map_cons, List.nodup_cons] at hn
    have hp : produce m (e :: kvs) = produce (m.insert e.1 e.2) kvs := rfl
    rcases List.mem_cons.mp h with rfl | h
    · rw [hp, lookup_produce_of_notMem hn.1, AList.lookup_insert]
    · rw [hp, ih hn.2 h]

/-! ## What a ledger is worth -/

/-- The total weight of the coins. -/
def worth (w : ν → Int) (m : Coins κ ν) : Int := (m.entries.map fun e => w e.2).sum

variable {w : ν → Int}

theorem worth_insert {m : Coins κ ν} {k : κ} {v : ν} (h : k ∉ m) :
    worth w (m.insert k v) = worth w m + w v := by
  rw [worth, worth, AList.entries_insert_of_notMem h, List.map_cons, List.sum_cons, Int.add_comm]

theorem perm_erase {m : Coins κ ν} {k : κ} {v : ν} (h : m.lookup k = some v) :
    m.entries.Perm (⟨k, v⟩ :: (m.erase k).entries) := by
  rcases m with ⟨l, hl⟩
  simp only [AList.erase]
  induction l with
  | nil => simp [AList.lookup] at h
  | cons e l ih =>
    rcases e with ⟨k', v'⟩
    rw [List.nodupKeys_cons] at hl
    by_cases hk : k' = k
    · subst hk
      simp only [AList.lookup, List.dlookup_cons_eq, Option.some.injEq] at h
      subst h
      have he : List.kerase k' ((⟨k', v'⟩ : (_ : κ) × ν) :: l) = l := List.kerase_cons_eq rfl
      rw [he]
    · have h' : (⟨l, hl.2⟩ : Coins κ ν).lookup k = some v := by
        simpa only [AList.lookup, List.dlookup_cons_ne l ⟨k', v'⟩ (Ne.symm hk)] using h
      have he : List.kerase k ((⟨k', v'⟩ : (_ : κ) × ν) :: l) = ⟨k', v'⟩ :: List.kerase k l :=
        List.kerase_cons_ne (Ne.symm hk)
      rw [he]
      exact ((ih hl.2 h').cons _).trans (.swap _ _ _)

theorem worth_erase {m : Coins κ ν} {k : κ} {v : ν} (h : m.lookup k = some v) :
    worth w (m.erase k) = worth w m - w v := by
  have hp := ((perm_erase h).map fun e => w e.2).sum_eq
  simp only [List.map_cons, List.sum_cons] at hp
  rw [worth, worth, hp]
  omega

/-- The weight of the coin at `k`, zero when there is none. -/
def weightAt (w : ν → Int) (m : Coins κ ν) (k : κ) : Int := ((m.lookup k).map w).getD 0

theorem worth_consume {m : Coins κ ν} {ks : List κ} (hn : ks.Nodup) (hm : ∀ k ∈ ks, k ∈ m) :
    worth w (consume m ks) = worth w m - (ks.map (weightAt w m)).sum := by
  induction ks generalizing m with
  | nil => simp [consume]
  | cons a ks ih =>
    rw [List.nodup_cons] at hn
    obtain ⟨v, hv⟩ := Option.isSome_iff_exists.mp (AList.lookup_isSome.mpr (hm a List.mem_cons_self))
    have hne : ∀ k ∈ ks, k ≠ a := fun k hk e => hn.1 (e ▸ hk)
    have hmap : ks.map (weightAt w (m.erase a)) = ks.map (weightAt w m) :=
      List.map_congr_left fun k hk => by rw [weightAt, weightAt, AList.lookup_erase_ne (hne k hk)]
    have hrest := ih (m := m.erase a) hn.2 fun k hk =>
      AList.mem_erase.mpr ⟨hne k hk, hm k (List.mem_cons_of_mem _ hk)⟩
    have hc : consume m (a :: ks) = consume (m.erase a) ks := rfl
    rw [hc, hrest, hmap, worth_erase hv, List.map_cons, List.sum_cons, weightAt, hv]
    simp only [Option.map_some, Option.getD_some]
    omega

theorem worth_produce {m : Coins κ ν} {kvs : List (κ × ν)} (hn : (kvs.map Prod.fst).Nodup)
    (hf : ∀ k ∈ kvs.map Prod.fst, k ∉ m) :
    worth w (produce m kvs) = worth w m + (kvs.map fun e => w e.2).sum := by
  induction kvs generalizing m with
  | nil => simp [produce]
  | cons e kvs ih =>
    rw [List.map_cons, List.nodup_cons] at hn
    have hf' : ∀ k ∈ kvs.map Prod.fst, k ∉ m.insert e.1 e.2 := fun k hk => by
      rw [AList.mem_insert, not_or]
      exact ⟨fun he => hn.1 (he ▸ hk), hf k (List.mem_cons_of_mem _ hk)⟩
    have hp : produce m (e :: kvs) = produce (m.insert e.1 e.2) kvs := rfl
    rw [hp, ih hn.2 hf', worth_insert (hf _ List.mem_cons_self), List.map_cons, List.sum_cons]
    omega

/-! ## Transfers -/

/-- `m'` is `m` after the transfer `x`. -/
structure Step (m : Coins κ ν) (x : Transfer κ ν) (m' : Coins κ ν) : Prop where
  nodup_ins : x.ins.Nodup
  mem_ins : ∀ k ∈ x.ins, k ∈ m
  nodup_outs : (x.outs.map Prod.fst).Nodup
  fresh : ∀ k ∈ x.outs.map Prod.fst, k ∉ consume m x.ins
  eq : m' = produce (consume m x.ins) x.outs

namespace Step

variable {m m' : Coins κ ν} {x : Transfer κ ν}

theorem worth (h : Step m x m') :
    worth w m' = worth w m - (x.ins.map (weightAt w m)).sum + (x.outs.map fun e => w e.2).sum := by
  rw [h.eq, worth_produce h.nodup_outs h.fresh, worth_consume h.nodup_ins h.mem_ins]

theorem lookup_created (h : Step m x m') {k : κ} {v : ν} (hk : (k, v) ∈ x.outs) : m'.lookup k = some v := by
  rw [h.eq, lookup_produce_of_mem h.nodup_outs hk]

/-- Away from the created keys a transfer only removes what it consumes. -/
theorem lookup (h : Step m x m') {k : κ} (hk : k ∉ x.outs.map Prod.fst) :
    m'.lookup k = if k ∈ x.ins then none else m.lookup k := by
  rw [h.eq, lookup_produce_of_notMem hk, lookup_consume]

/-- A coin that is there after a transfer was created by it, or was there and not consumed. -/
theorem lookup_eq_some (h : Step m x m') {k : κ} {v : ν} (hk : m'.lookup k = some v) :
    (k, v) ∈ x.outs ∨ (k ∉ x.ins ∧ m.lookup k = some v) := by
  by_cases hc : k ∈ x.outs.map Prod.fst
  · obtain ⟨⟨k', v'⟩, he, rfl⟩ := List.mem_map.mp hc
    rw [h.lookup_created he, Option.some.injEq] at hk
    exact .inl (hk ▸ he)
  · rw [h.lookup hc] at hk
    split at hk
    · cases hk
    · exact .inr ⟨‹_›, hk⟩

/-- A coin that is there before a transfer is still there, or the transfer consumes it. -/
theorem lookup_or_consumed (h : Step m x m') {k : κ} {v : ν} (hk : m.lookup k = some v) :
    m'.lookup k = some v ∨ k ∈ x.ins := by
  by_cases hi : k ∈ x.ins
  · exact .inr hi
  · have hc : k ∉ x.outs.map Prod.fst := fun hc =>
      h.fresh k hc (mem_consume.mpr ⟨AList.lookup_isSome.mp (by rw [hk]; rfl), hi⟩)
    rw [h.lookup hc, if_neg hi]
    exact .inl hk

end Step

/-! ## Lists of transfers -/

/-- The rules of a ledger whose entries are of type `τ`: the transfer of an entry, and what must hold
of an entry in the ledger it is applied to. -/
structure Rules (τ κ ν : Type) where
  transfer : τ → Transfer κ ν
  guard : Coins κ ν → τ → Prop

variable {τ : Type} {L : Rules τ κ ν}

/-- `m'` is `m` after the entries `xs`, in order. -/
inductive Run (L : Rules τ κ ν) : Coins κ ν → List τ → Coins κ ν → Prop
  | nil (m : Coins κ ν) : Run L m [] m
  | cons {m m₁ m' : Coins κ ν} {x : τ} {xs : List τ} :
    L.guard m x → Step m (L.transfer x) m₁ → Run L m₁ xs m' → Run L m (x :: xs) m'

namespace Run

variable {m m' m'' : Coins κ ν} {xs ys : List τ}

theorem append (h₁ : Run L m xs m') (h₂ : Run L m' ys m'') : Run L m (xs ++ ys) m'' := by
  induction h₁ with
  | nil => exact h₂
  | cons hg hs _ ih => exact .cons hg hs (ih h₂)

theorem single {x : τ} (hg : L.guard m x) (hs : Step m (L.transfer x) m') : Run L m [x] m' :=
  .cons hg hs (.nil _)

theorem guarded (h : Run L m xs m') : ∀ x ∈ xs, ∃ n, L.guard n x := by
  induction h with
  | nil => exact fun x hx => absurd hx List.not_mem_nil
  | cons hg _ _ ih => exact List.forall_mem_cons.mpr ⟨⟨_, hg⟩, ih⟩

/-- A coin that is there at the start is there at the end with its value, or an entry consumed it,
in a ledger that held it with this value and in which the entry met the guard. -/
theorem lost (h : Run L m xs m') {k : κ} {v : ν} (hk : m.lookup k = some v) : m'.lookup k = some v ∨
    ∃ x ∈ xs, ∃ n, L.guard n x ∧ k ∈ (L.transfer x).ins ∧ n.lookup k = some v := by
  induction h with
  | nil => exact .inl hk
  | @cons m m₁ m' x xs hg hs _ ih =>
    rcases hs.lookup_or_consumed hk with h₁ | hi
    · rcases ih h₁ with h | ⟨y, hy, hn⟩
      · exact .inl h
      · exact .inr ⟨y, List.mem_cons_of_mem _ hy, hn⟩
    · exact .inr ⟨x, List.mem_cons_self, m, hg, hi, hk⟩

/-- A coin that no entry consumes is there at the end. -/
theorem kept (h : Run L m xs m') {k : κ} {v : ν} (hk : m.lookup k = some v) (hno : ∀ x ∈ xs, k ∉ (L.transfer x).ins) :
    m'.lookup k = some v := by
  rcases h.lost hk with h' | ⟨x, hx, _, -, hin, -⟩
  · exact h'
  · exact absurd hin (hno x hx)

/-- A coin that is there at the end was there at the start with its value, or an entry that met the
guard created it. -/
theorem gained (h : Run L m xs m') {k : κ} {v : ν} (hk : m'.lookup k = some v) : m.lookup k = some v ∨
    ∃ x ∈ xs, ∃ n, L.guard n x ∧ (k, v) ∈ (L.transfer x).outs := by
  induction h with
  | nil => exact .inl hk
  | @cons m m₁ m' x xs hg hs _ ih =>
    rcases ih hk with h₁ | ⟨y, hy, hv⟩
    · rcases hs.lookup_eq_some h₁ with ho | ⟨-, h₀⟩
      · exact .inr ⟨x, List.mem_cons_self, m, hg, ho⟩
      · exact .inl h₀
    · exact .inr ⟨y, List.mem_cons_of_mem _ hy, hv⟩

/-- A coin can only be created again after it was consumed. -/
theorem recreated (h : Run L m xs m') {k : κ} (hk : k ∈ m) {b : Nat} {y : τ} (hy : xs[b]? = some y)
    (hky : k ∈ (L.transfer y).outs.map Prod.fst) :
    ∃ q ≤ b, ∃ z, xs[q]? = some z ∧ k ∈ (L.transfer z).ins := by
  induction h generalizing b with
  | nil => cases hy
  | @cons m m₁ m' x xs hg hs _ ih =>
    by_cases hin : k ∈ (L.transfer x).ins
    · exact ⟨0, Nat.zero_le _, x, rfl, hin⟩
    cases b with
    | zero =>
      rw [List.getElem?_cons_zero, Option.some.injEq] at hy
      exact absurd (mem_consume.mpr ⟨hk, hin⟩) (hs.fresh k (hy ▸ hky))
    | succ b =>
      obtain ⟨v, hv⟩ := Option.isSome_iff_exists.mp (AList.lookup_isSome.mpr hk)
      have h₁ := (hs.lookup_or_consumed hv).resolve_right hin
      obtain ⟨q, hq, z, hz, hkz⟩ := ih (AList.lookup_isSome.mp (by rw [h₁]; rfl)) hy
      exact ⟨q + 1, Nat.succ_le_succ hq, z, hz, hkz⟩

/-- Between two entries that create one coin stands an entry that consumes it. -/
theorem consumed_between (h : Run L m xs m') {k : κ} {a b : Nat} {x y : τ} (hab : a < b)
    (hx : xs[a]? = some x) (hkx : k ∈ (L.transfer x).outs.map Prod.fst) (hy : xs[b]? = some y)
    (hky : k ∈ (L.transfer y).outs.map Prod.fst) :
    ∃ q, a < q ∧ q ≤ b ∧ ∃ z, xs[q]? = some z ∧ k ∈ (L.transfer z).ins := by
  induction h generalizing a b with
  | nil => cases hx
  | @cons m m₁ m' e xs hg hs hr ih =>
    obtain ⟨b, rfl⟩ : ∃ b', b = b' + 1 := ⟨b - 1, by omega⟩
    cases a with
    | zero =>
      rw [List.getElem?_cons_zero, Option.some.injEq] at hx
      subst hx
      obtain ⟨⟨_, v⟩, hv, rfl⟩ := List.mem_map.mp hkx
      have hmem := AList.lookup_isSome.mp (by rw [hs.lookup_created hv]; rfl)
      obtain ⟨q, hq, z, hz, hkz⟩ := hr.recreated hmem hy hky
      exact ⟨q + 1, by omega, by omega, z, hz, hkz⟩
    | succ a =>
      obtain ⟨q, haq, hqb, z, hz, hkz⟩ := ih (by omega) hx hy
      exact ⟨q + 1, by omega, by omega, z, hz, hkz⟩

end Run

/-! ## Repeated segments -/

omit [DecidableEq κ] in
/-- One of the entries consumes a coin the other creates. -/
def Uses (L : Rules τ κ ν) (xs : List τ) (x y : τ) : Prop :=
  x ∈ xs ∧ y ∈ xs ∧ ∃ k ∈ (L.transfer x).ins, k ∈ (L.transfer y).outs.map Prod.fst

omit [DecidableEq κ] in
/-- No entry uses itself, directly or through others. -/
def Acyclic (L : Rules τ κ ν) (xs : List τ) : Prop := ∀ x ∈ xs, ¬ Relation.TransGen (Uses L xs) x x

/-- Entries that each create a coin of their own identity do not stand in a segment that is directly
followed by a copy: every coin of the first copy would be consumed by an entry of the segment before
it is created again, and these entries form a cycle. -/
theorem Run.not_repeated {ι : Type} (id : τ → ι) (key : ι → κ) {xs : List τ} {m m' : Coins κ ν}
    (h : Run L m xs m') (hkey : ∀ x ∈ xs, key (id x) ∈ (L.transfer x).outs.map Prod.fst)
    (hac : Acyclic L xs) {p n : Nat} (hn : 0 < n) (hlen : p + 2 * n ≤ xs.length)
    (hrep : ∀ i < n, (xs.map id)[p + i]? = (xs.map id)[p + n + i]?) : False := by
  have hget : ∀ j < p + 2 * n, ∃ x, xs[j]? = some x ∧ x ∈ xs := fun j hj =>
    ⟨xs[j], List.getElem?_eq_getElem (by omega), List.getElem_mem _⟩
  -- The entry that consumes the coin of position `i` before it is created again.
  have hspend : ∀ i : Fin n, ∃ q, p + i < q ∧ q ≤ p + n + i ∧ ∃ z x, xs[q]? = some z ∧ z ∈ xs ∧
      xs[p + i]? = some x ∧ key (id x) ∈ (L.transfer z).ins := by
    intro i
    obtain ⟨x, hx, hxm⟩ := hget (p + i) (by omega)
    obtain ⟨y, hy, hym⟩ := hget (p + n + i) (by omega)
    have hid := hrep i i.isLt
    rw [List.getElem?_map, List.getElem?_map, hx, hy, Option.map_some, Option.map_some,
      Option.some.injEq] at hid
    obtain ⟨q, hq₁, hq₂, z, hz, hkz⟩ := h.consumed_between (by omega) hx (hkey x hxm) hy (hid ▸ hkey y hym)
    exact ⟨q, hq₁, hq₂, z, x, hz, List.mem_of_getElem? hz, hx, hkz⟩
  choose q hq₁ hq₂ z x hz hzm hx hkz using hspend
  -- It stands in the segment or its copy, so its own coin is consumed too.
  have hnext : ∀ i : Fin n, ∃ j : Fin n, Uses L xs (z j) (z i) := by
    intro i
    obtain ⟨j, hj⟩ : ∃ j : Fin n, q i = p + j ∨ q i = p + n + j := by
      have hq := hq₁ i
      have hq' := hq₂ i
      have hi := i.isLt
      rcases Nat.lt_or_ge (q i - p) n with hlt | hge
      · exact ⟨⟨q i - p, hlt⟩, .inl (by simp only; omega)⟩
      · exact ⟨⟨q i - p - n, by omega⟩, .inr (by simp only; omega)⟩
    refine ⟨j, hzm _, hzm i, _, hkz _, ?_⟩
    have hid : id (x j) = id (z i) := by
      have hzi := hz i
      rcases hj with hj | hj
      · rw [hj, hx j, Option.some.injEq] at hzi
        rw [hzi]
      · have hr := hrep j j.isLt
        rw [hj] at hzi
        rw [List.getElem?_map, List.getElem?_map, hx j, hzi, Option.map_some, Option.map_some,
          Option.some.injEq] at hr
        exact hr
    rw [hid]
    exact hkey _ (hzm i)
  have htrans : IsTrans (Fin n) fun j i => Relation.TransGen (Uses L xs) (z j) (z i) :=
    ⟨fun _ _ _ => Relation.TransGen.trans⟩
  have hirrefl : Std.Irrefl fun j i : Fin n => Relation.TransGen (Uses L xs) (z j) (z i) :=
    ⟨fun i => hac (z i) (hzm i)⟩
  have hwf := Finite.wellFounded_of_trans_of_irrefl fun j i : Fin n => Relation.TransGen (Uses L xs) (z j) (z i)
  exact hwf.induction (C := fun _ => False) ⟨0, hn⟩ fun i ih =>
    let ⟨j, hj⟩ := hnext i
    ih j (.single hj)

/-! ## Ledgers that start empty -/

section Lives

variable {ι : Type} (L) (id : τ → ι) (owner : κ → ι)

omit [DecidableEq κ]

/-- The keys consumed by entries, and the keys created by them. -/
def consumedBy (xs : List τ) : List κ := xs.flatMap fun x => (L.transfer x).ins

def createdBy (xs : List τ) : List κ := xs.flatMap fun x => (L.transfer x).outs.map Prod.fst

/-- Every entry creates coins under keys of its own identity only, and entries of one identity
consume the same keys. -/
structure Identified (xs : List τ) : Prop where
  owner : ∀ x ∈ xs, ∀ k ∈ (L.transfer x).outs.map Prod.fst, owner k = id x
  ins : ∀ x ∈ xs, ∀ y ∈ xs, id x = id y → (L.transfer x).ins = (L.transfer y).ins

/-- The entries that consume nothing. -/
def sources (xs : List τ) : List τ := xs.filter fun x => (L.transfer x).ins.isEmpty

theorem Identified.mono {L : Rules τ κ ν} {id : τ → ι} {owner : κ → ι} {xs ys : List τ}
    (h : Identified L id owner ys) (hs : xs ⊆ ys) : Identified L id owner xs :=
  ⟨fun x hx => h.owner x (hs hx), fun x hx y hy => h.ins x (hs hx) y (hs hy)⟩

variable [DecidableEq κ]

/-- The ledger after the entries `ys`, none of which repeats: its coins were created and not
consumed, and everything was created and consumed at most once. -/
structure Once (ys : List τ) (m : Coins κ ν) : Prop where
  ids : (ys.map id).Nodup
  consumed : (consumedBy L ys).Nodup
  created : (createdBy L ys).Nodup
  live : ∀ k ∈ m, owner k ∈ ys.map id ∧ k ∉ consumedBy L ys
  owned : ∀ k ∈ consumedBy L ys, owner k ∈ ys.map id

variable {L id owner}

/-- An entry that can be applied is new: its coins would have been consumed by its first life. -/
theorem Once.fresh_id {ys : List τ} {x : τ} {m m' : Coins κ ν} (h : Once L id owner ys m)
    (hI : Identified L id owner (ys ++ [x])) (hsrc : ((sources L (ys ++ [x])).map id).Nodup)
    (hs : Step m (L.transfer x) m') : id x ∉ ys.map id := by
  intro hid
  obtain ⟨y, hy, he⟩ := List.mem_map.mp hid
  have hins := hI.ins y (List.mem_append_left _ hy) x (by simp) he
  cases hx : (L.transfer x).ins with
  | nil =>
    rw [sources, List.filter_append, List.map_append, List.nodup_append] at hsrc
    refine hsrc.2.2 (id y) (List.mem_map_of_mem (List.mem_filter.mpr ⟨hy, ?_⟩)) (id x) ?_ he
    · rw [hins, hx]; rfl
    · simp [hx]
  | cons k ks =>
    have hk : k ∈ (L.transfer x).ins := by rw [hx]; exact List.mem_cons_self
    exact (h.live k (hs.mem_ins k hk)).2 (List.mem_flatMap.mpr ⟨y, hy, hins ▸ hk⟩)

theorem Once.step {ys : List τ} {x : τ} {m m' : Coins κ ν} (h : Once L id owner ys m)
    (hI : Identified L id owner (ys ++ [x])) (hsrc : ((sources L (ys ++ [x])).map id).Nodup)
    (hs : Step m (L.transfer x) m') : Once L id owner (ys ++ [x]) m' := by
  have hnew := h.fresh_id hI hsrc hs
  have hown : ∀ k ∈ (L.transfer x).outs.map Prod.fst, owner k = id x := hI.owner x (by simp)
  have hmem : ∀ k ∈ (L.transfer x).ins, owner k ∈ ys.map id ∧ k ∉ consumedBy L ys := fun k hk =>
    h.live k (hs.mem_ins k hk)
  have hc : consumedBy L (ys ++ [x]) = consumedBy L ys ++ (L.transfer x).ins := by simp [consumedBy]
  have hcr : createdBy L (ys ++ [x]) = createdBy L ys ++ (L.transfer x).outs.map Prod.fst := by
    simp [createdBy]
  have hids : ∀ {i}, i ∈ ys.map id → i ∈ (ys ++ [x]).map id := fun hi => by
    rw [List.map_append]; exact List.mem_append_left _ hi
  refine ⟨?_, ?_, ?_, fun k hk => ?_, fun k hk => ?_⟩
  · rw [List.map_append, List.nodup_append]
    refine ⟨h.ids, List.nodup_singleton _, fun a ha b hb => ?_⟩
    rw [List.map_cons, List.map_nil, List.mem_singleton] at hb
    exact fun e => hnew (hb ▸ e ▸ ha)
  · rw [hc, List.nodup_append]
    exact ⟨h.consumed, hs.nodup_ins, fun a ha b hb e => (hmem b hb).2 (e ▸ ha)⟩
  · rw [hcr, List.nodup_append]
    refine ⟨h.created, hs.nodup_outs, fun a ha b hb e => hnew ?_⟩
    obtain ⟨y, hy, hky⟩ := List.mem_flatMap.mp ha
    rw [← hown b hb, ← e, hI.owner y (List.mem_append_left _ hy) a hky]
    exact List.mem_map_of_mem hy
  · obtain ⟨v, hv⟩ := Option.isSome_iff_exists.mp (AList.lookup_isSome.mpr hk)
    rw [hc, List.mem_append, not_or]
    rcases hs.lookup_eq_some hv with ho | ⟨hni, h₀⟩
    · have hid := hown k (List.mem_map_of_mem ho)
      refine ⟨by rw [hid]; simp, fun hcon => hnew (hid ▸ h.owned k hcon), fun hin => hnew ?_⟩
      exact hid ▸ (hmem k hin).1
    · have hl := h.live k (AList.lookup_isSome.mp (by rw [h₀]; rfl))
      exact ⟨hids hl.1, hl.2, hni⟩
  · rw [hc, List.mem_append] at hk
    rcases hk with hk | hk
    · exact hids (h.owned k hk)
    · exact hids (hmem k hk).1

theorem Run.once {ys xs : List τ} {m m' : Coins κ ν} (hr : Run L m xs m') (h : Once L id owner ys m)
    (hI : Identified L id owner (ys ++ xs)) (hsrc : ((sources L (ys ++ xs)).map id).Nodup) :
    Once L id owner (ys ++ xs) m' := by
  induction hr generalizing ys with
  | nil => rwa [List.append_nil]
  | @cons m m₁ m' x xs hg hs _ ih =>
    rw [List.append_cons] at hI hsrc ⊢
    refine ih (h.step (hI.mono fun a ha => List.mem_append_left _ ha) ?_ hs) hI hsrc
    rw [sources, List.filter_append, List.map_append] at hsrc
    exact (List.nodup_append.mp hsrc).1

/-- From the empty ledger entries never repeat, unless an entry that consumes nothing does. -/
theorem Run.once_of_empty {xs : List τ} {m : Coins κ ν} (hr : Run L ∅ xs m)
    (hI : Identified L id owner xs) (hsrc : ((sources L xs).map id).Nodup) : Once L id owner xs m := by
  have h₀ : Once L id owner [] (∅ : Coins κ ν) :=
    ⟨List.nodup_nil, List.nodup_nil, List.nodup_nil, fun k hk => absurd hk (AList.notMem_empty k),
      fun k hk => absurd hk List.not_mem_nil⟩
  exact hr.once h₀ hI hsrc

end Lives

end BCC.Ledger
