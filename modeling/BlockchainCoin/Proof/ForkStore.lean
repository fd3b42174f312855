import BlockchainCoin.Impl.ForkChoice
import BlockchainCoin.Proof.Stored

/-!
# The fork store holds branches that replay

`Built` is an accepted chain, seen from its last block (`built_iff`). `Branch`
is a branch of the store from its genesis row to a row, and `StoreOk` says that
every row has one and that it replays. From this everything the fork choice
reads returns: `Branch.chainToTip`, `StoreOk.chainToTip`, `StoreOk.activeChain`,
`StoreOk.validateAllKnownBranches`.
-/

namespace BCC.Proof

open BCC.Impl BlockProcessor

/-! ## Accepted chains from their last block -/

section Built

variable [Ed25519]

/-- The blocks replay to `s`, and the last of them has hash `q`. -/
inductive Built (subsidy maxMoney : Int) : List ConsensusBlock → Str → ConsensusState → Prop
  | nil {s : ConsensusState} : ConsensusState.init ∅ subsidy maxMoney = .ok s → Built subsidy maxMoney [] zeroHash s
  | snoc {bs : List ConsensusBlock} {b : ConsensusBlock} {p q : Str} {s s' : ConsensusState} {f : Int} :
    Built subsidy maxMoney bs p s → validateCandidate s b bs.length p = .ok (f, s') → b.hash = .ok q →
      Built subsidy maxMoney (bs ++ [b]) q s'

/-- The hash of the last block, `p` when there is none. -/
def lastHash (p : Str) : List ConsensusBlock → Except PyError Str
  | [] => .ok p
  | b :: bs => do
    let hash ← b.hash
    lastHash hash bs

theorem Replays.snoc {s s₁ s' : ConsensusState} {h : Int} {p q q' : Str} {bs : List ConsensusBlock}
    {b : ConsensusBlock} {fs : List Int} {f : Int} (hr : Replays s h p bs fs s₁) (hq : lastHash p bs = .ok q)
    (ha : (applyBlock b (h + bs.length) q).call s₁ = (.ok f, s')) (hb : b.hash = .ok q') :
    Replays s h p (bs ++ [b]) (fs ++ [f]) s' ∧ lastHash p (bs ++ [b]) = .ok q' := by
  induction hr with
  | nil s h p =>
    rw [lastHash, Except.ok.injEq] at hq
    subst hq
    simp only [List.length_nil, Nat.cast_zero, Int.add_zero] at ha
    exact ⟨.cons ha hb (.nil _ _ _), by rw [List.nil_append, lastHash, hb]; rfl⟩
  | @cons s s₂ s₁ h p hash b₁ bs f₁ fs ha₁ hh hr ih =>
    rw [lastHash, hh] at hq
    have hlen : h + 1 + (bs.length : Int) = h + ((b₁ :: bs).length : Int) := by
      rw [List.length_cons, Nat.cast_add, Nat.cast_one]; omega
    obtain ⟨hrest, hlast⟩ := ih hq (by rwa [hlen])
    exact ⟨.cons ha₁ hh hrest, by rw [List.cons_append, lastHash, hh]; exact hlast⟩

theorem built_iff {subsidy maxMoney : Int} {bs : List ConsensusBlock} {s : ConsensusState} :
    rebuildStateFromBlocks bs subsidy maxMoney = .ok s ↔ ∃ q, Built subsidy maxMoney bs q s := by
  rw [rebuildStateFromBlocks_eq_ok]
  constructor
  · rintro ⟨s₀, fs, hinit, hr⟩
    -- The blocks before the ones replayed are collected in `pre`.
    have key : ∀ {s s' : ConsensusState} {h : Int} {p : Str} {bs : List ConsensusBlock} {fs : List Int},
        Replays s h p bs fs s' → ∀ pre : List ConsensusBlock, h = pre.length → Built subsidy maxMoney pre p s →
          ∃ q, Built subsidy maxMoney (pre ++ bs) q s' := by
      intro s s' h p bs fs hr
      induction hr with
      | nil => intro pre _ hpre; exact ⟨_, by rwa [List.append_nil]⟩
      | @cons s s₁ s' h p hash b bs f fs ha hh _ ih =>
        intro pre hlen hpre
        have hv := applyBlock_eq_ok.mp ha
        rw [hlen] at hv
        obtain ⟨q, hq⟩ := ih (pre ++ [b]) (by rw [List.length_append, hlen]; rfl) (hpre.snoc hv hh)
        exact ⟨q, by rwa [List.append_assoc] at hq⟩
    exact key hr [] rfl (.nil hinit)
  · rintro ⟨q, hb⟩
    have key : ∃ s₀ fs, ConsensusState.init ∅ subsidy maxMoney = .ok s₀ ∧ Replays s₀ 0 zeroHash bs fs s ∧
        lastHash zeroHash bs = .ok q := by
      induction hb with
      | nil hinit => exact ⟨_, [], hinit, .nil _ _ _, rfl⟩
      | snoc _ hv hh ih =>
        obtain ⟨s₀, fs, hinit, hr, hlast⟩ := ih
        obtain ⟨hr', hlast'⟩ := hr.snoc hlast (by rw [Int.zero_add]; exact applyBlock_eq_ok.mpr hv) hh
        exact ⟨s₀, _, hinit, hr', hlast'⟩
    obtain ⟨s₀, fs, hinit, hr, -⟩ := key
    exact ⟨s₀, fs, hinit, hr⟩

namespace Built

variable {subsidy maxMoney : Int} {bs : List ConsensusBlock} {p q : Str} {s s' : ConsensusState}

theorem unique (h : Built subsidy maxMoney bs q s) (h' : Built subsidy maxMoney bs p s') : s = s' := by
  have e := built_iff.mpr ⟨q, h⟩
  rw [built_iff.mpr ⟨p, h'⟩, Except.ok.injEq] at e
  exact e.symm

/-- The parameters of the state, and the form of its outpoints and of the last hash. -/
theorem facts (h : Built subsidy maxMoney bs q s) :
    s.blockSubsidy = subsidy ∧ s.maxMoney = maxMoney ∧ Canonical s.utxos ∧ storedHash q = q := by
  induction h with
  | nil hinit =>
    obtain ⟨hu, hs, hm⟩ := init_eq_ok hinit
    exact ⟨hs, hm, hu ▸ canonical_empty, storedHash_zeroHash⟩
  | snoc _ hv hh ih =>
    obtain ⟨hs, hm, hu, hp⟩ := ih
    have hacc := accepted_of_validateCandidate hv
    rw [hacc.params]
    exact ⟨hs, hm, (validateCandidate_storedBlock hu hp hv).2, storedHash_hash hh⟩

theorem snoc_stored {b : ConsensusBlock} {f : Int} (h : Built subsidy maxMoney bs p s)
    (hv : validateCandidate s b bs.length p = .ok (f, s')) (hb : b.hash = .ok q) :
    Built subsidy maxMoney (bs ++ [storedBlock b]) q s' := by
  obtain ⟨-, -, hu, hp⟩ := h.facts
  exact h.snoc (validateCandidate_storedBlock hu hp hv).1 ((hash_storedBlock b).trans hb)

/-- The last block of an accepted chain was accepted on the chain before it. -/
theorem of_snoc {b : ConsensusBlock} (h : Built subsidy maxMoney (bs ++ [b]) q s') :
    ∃ p s f, Built subsidy maxMoney bs p s ∧ validateCandidate s b bs.length p = .ok (f, s') ∧ b.hash = .ok q := by
  generalize hcs : bs ++ [b] = cs at h
  cases h with
  | nil => simp at hcs
  | snoc h hv hh =>
    obtain ⟨rfl, he⟩ := List.append_inj' hcs rfl
    rw [List.cons.injEq] at he
    obtain ⟨rfl, -⟩ := he
    exact ⟨_, _, _, h, hv, hh⟩

end Built

end Built

/-! ## Branches -/

/-- The row of a block that is read back as `b`. -/
structure RowOf (b : ConsensusBlock) (r : BlockRow) : Prop where
  hash : b.hash = .ok r.hash
  height : r.height = b.height
  previousHash : r.previousHash = b.previousHash
  data : decodeConsensusBlock r.data = .ok b

/-- A branch of the table from its first row to `r`, with the blocks as they are read back. -/
inductive Branch (rows : List BlockRow) : BlockRow → List StoredConsensusBlock → Prop
  | root {r : BlockRow} {b : ConsensusBlock} : r ∈ rows → RowOf b r → b.height = 0 →
      r.cumulativeWork = workFor b → Branch rows r [⟨b, r.cumulativeWork⟩]
  | child {r p : BlockRow} {b : ConsensusBlock} {chain : List StoredConsensusBlock} :
    r ∈ rows → RowOf b r → Branch rows p chain → p.hash = b.previousHash → b.height = p.height + 1 →
      r.cumulativeWork = p.cumulativeWork + workFor b → Branch rows r (chain ++ [⟨b, r.cumulativeWork⟩])

namespace Branch

variable {rows rows' : List BlockRow} {r : BlockRow} {chain chain' : List StoredConsensusBlock}

theorem mono (hsub : rows ⊆ rows') (h : Branch rows r chain) : Branch rows' r chain := by
  induction h with
  | root hr hb h₀ hw => exact .root (hsub hr) hb h₀ hw
  | child hr hb _ hp hh hw ih => exact .child (hsub hr) hb ih hp hh hw

theorem mem (h : Branch rows r chain) : r ∈ rows := by cases h <;> assumption

/-- The last block of a branch is the one its row is read back as. -/
theorem last (h : Branch rows r chain) :
    ∃ b, RowOf b r ∧ chain.getLast? = some ⟨b, r.cumulativeWork⟩ ∧
      (chain.map (·.block)).getLast? = some b := by
  cases h with
  | root hr hb h₀ hw => exact ⟨_, hb, rfl, rfl⟩
  | child hr hb _ hp hh hw => exact ⟨_, hb, by simp, by simp⟩

theorem ne_nil (h : Branch rows r chain) : chain ≠ [] := by cases h <;> simp

theorem length (h : Branch rows r chain) : (chain.length : Int) = r.height + 1 := by
  induction h with
  | root hr hb h₀ hw => rw [hb.height, h₀]; rfl
  | child hr hb _ hp hh hw ih =>
    rw [List.length_append, List.length_singleton, Nat.cast_add, ih, hb.height, hh]
    rfl

theorem height_nonneg (h : Branch rows r chain) : 0 ≤ r.height := by
  have hlen := h.length
  have hpos := List.length_pos_iff.mpr h.ne_nil
  omega

/-- The rows of a branch are distinct, so it is not longer than the table. -/
theorem length_le (h : Branch rows r chain) : chain.length ≤ rows.length := by
  have key : ∃ rs : List BlockRow, rs.length = chain.length ∧ rs ⊆ rows ∧ rs.Nodup ∧
      ∀ q ∈ rs, q.height ≤ r.height := by
    induction h with
    | @root r b hr hb h₀ hw =>
      exact ⟨[r], rfl, by simpa using hr, List.nodup_singleton _, by simp⟩
    | @child r p b chain hr hb _ hp hh hw ih =>
      obtain ⟨rs, hlen, hsub, hn, hle⟩ := ih
      have hrh := hb.height
      refine ⟨rs ++ [r], by simp [hlen], ?_, ?_, ?_⟩
      · exact List.append_subset.mpr ⟨hsub, by simpa using hr⟩
      · refine List.nodup_append.mpr ⟨hn, List.nodup_singleton _, fun a ha c hc e => ?_⟩
        rw [List.mem_singleton] at hc
        have := hle a ha
        rw [e, hc] at this
        omega
      · intro q hq
        rcases List.mem_append.mp hq with hq | hq
        · have := hle q hq
          omega
        · rw [List.mem_singleton.mp hq]
  obtain ⟨rs, hlen, hsub, hn, -⟩ := key
  rw [← hlen]
  exact (hn.subperm hsub).length_le

end Branch

theorem getBlock_of_mem {store : ForkStore} (hn : (store.blocks.map (·.hash)).Nodup) {r : BlockRow}
    {b : ConsensusBlock} (hr : r ∈ store.blocks) (hb : RowOf b r) :
    store.getBlock r.hash = .ok ⟨b, r.cumulativeWork⟩ := by
  rw [ForkStore.getBlock, (Table.lookup_eq_some hn).mpr ⟨hr, rfl⟩]
  simp only [hb.data, ok_bind]
  rfl

namespace Branch

variable {store : ForkStore} {r : BlockRow} {chain chain' : List StoredConsensusBlock}

theorem walk (hn : (store.blocks.map (·.hash)).Nodup) (h : Branch store.blocks r chain) :
    ∀ fuel, chain.length ≤ fuel → store.walk fuel r.hash = .ok chain.reverse := by
  induction h with
  | @root r b hr hb h₀ hw =>
    intro fuel hf
    obtain ⟨fuel, rfl⟩ : ∃ f, fuel = f + 1 := ⟨fuel - 1, by rw [List.length_singleton] at hf; omega⟩
    rw [ForkStore.walk, getBlock_of_mem hn hr hb, ok_bind, if_pos h₀]
    rfl
  | @child r p b chain hr hb hpb hp hh hw ih =>
    intro fuel hf
    rw [List.length_append, List.length_singleton] at hf
    obtain ⟨fuel, rfl⟩ : ∃ f, fuel = f + 1 := ⟨fuel - 1, by omega⟩
    have hne : b.height ≠ 0 := by
      have := hpb.height_nonneg
      omega
    rw [ForkStore.walk, getBlock_of_mem hn hr hb, ok_bind, if_neg hne, ← hp, ih fuel (by omega),
      List.reverse_append]
    rfl

theorem chainToTip (hn : (store.blocks.map (·.hash)).Nodup) (h : Branch store.blocks r chain) :
    store.chainToTip r.hash = .ok chain := by
  have hlen := h.length_le
  rw [ForkStore.chainToTip, h.walk hn _ (by omega), ok_bind, List.reverse_reverse]
  rfl

theorem unique (hn : (store.blocks.map (·.hash)).Nodup) (h : Branch store.blocks r chain)
    (h' : Branch store.blocks r chain') : chain = chain' := by
  have e := h.chainToTip hn
  rw [h'.chainToTip hn, Except.ok.injEq] at e
  exact e.symm

end Branch

/-! ## Stores whose branches replay -/

variable [Ed25519]

/-- Every row of the store ends a branch that replays. -/
structure StoreOk (f : ForkChoice) (store : ForkStore) : Prop where
  nodup : (store.blocks.map (·.hash)).Nodup
  branch : ∀ r ∈ store.blocks, ∃ chain s, Branch store.blocks r chain ∧
    Built f.blockSubsidy f.maxMoney (chain.map (·.block)) r.hash s

namespace StoreOk

variable {f : ForkChoice} {store : ForkStore}

theorem getBlock (h : StoreOk f store) {r : BlockRow} (hr : r ∈ store.blocks) :
    ∃ b, RowOf b r ∧ store.getBlock r.hash = .ok ⟨b, r.cumulativeWork⟩ := by
  obtain ⟨chain, s, hb, -⟩ := h.branch r hr
  obtain ⟨b, hrow, -⟩ := hb.last
  exact ⟨b, hrow, getBlock_of_mem h.nodup hr hrow⟩

omit [Ed25519] in
theorem bestTip_of_nil (hs : store.blocks = []) : store.bestTip = .ok none := by
  rw [ForkStore.bestTip, Table.first_eq_none.mpr hs]

theorem bestTip (h : StoreOk f store) {r : BlockRow} (hr : Table.first BlockRow.better store.blocks = some r) :
    ∃ b, RowOf b r ∧ store.bestTip = .ok (some ⟨b, r.cumulativeWork⟩) := by
  obtain ⟨b, hrow, hget⟩ := h.getBlock (Table.first_mem hr)
  refine ⟨b, hrow, ?_⟩
  rw [ForkStore.bestTip, hr]
  simp only [hget]
  rfl

theorem validateStoredChain {chain : List StoredConsensusBlock} {r : BlockRow} {s : ConsensusState}
    (hb : Branch store.blocks r chain) (hs : Built f.blockSubsidy f.maxMoney (chain.map (·.block)) r.hash s) :
    f.validateStoredChain chain = .ok ⟨chain.map (·.block), s, r.cumulativeWork⟩ := by
  obtain ⟨b, -, hlast, -⟩ := hb.last
  have hr := built_iff.mpr ⟨_, hs⟩
  rw [ForkChoice.validateStoredChain]
  simp only [hr, catchAs_ok, ok_bind, hlast]
  rfl

theorem chainToTip (h : StoreOk f store) {chain : List StoredConsensusBlock} {r : BlockRow} {s : ConsensusState}
    (hb : Branch store.blocks r chain) (hs : Built f.blockSubsidy f.maxMoney (chain.map (·.block)) r.hash s) :
    f.chainToTip store r.hash = .ok ⟨chain.map (·.block), s, r.cumulativeWork⟩ := by
  rw [ForkChoice.chainToTip, hb.chainToTip h.nodup, ok_bind, validateStoredChain hb hs]

theorem activeChain (h : StoreOk f store) {r : BlockRow}
    (hr : Table.first BlockRow.better store.blocks = some r) :
    ∃ chain s, Branch store.blocks r chain ∧ Built f.blockSubsidy f.maxMoney (chain.map (·.block)) r.hash s ∧
      f.activeChain store = .ok ⟨chain.map (·.block), s, r.cumulativeWork⟩ := by
  obtain ⟨chain, s, hb, hs⟩ := h.branch r (Table.first_mem hr)
  obtain ⟨b, hrow, hbest⟩ := h.bestTip hr
  refine ⟨chain, s, hb, hs, ?_⟩
  have hactive : store.activeChain = .ok chain := by
    rw [ForkStore.activeChain, hbest, ok_bind]
    simp only [hrow.hash, ok_bind]
    exact hb.chainToTip h.nodup
  rw [ForkChoice.activeChain, hactive, catchAs_ok, ok_bind, if_neg hb.ne_nil, validateStoredChain hb hs]

theorem activeChain_of_nil {s : ConsensusState} (hs : store.blocks = [])
    (hinit : ConsensusState.init ∅ f.blockSubsidy f.maxMoney = .ok s) :
    f.activeChain store = .ok ⟨[], s, 0⟩ := by
  have hactive : store.activeChain = .ok [] := by
    rw [ForkStore.activeChain, bestTip_of_nil hs]
    rfl
  rw [ForkChoice.activeChain, hactive, catchAs_ok, ok_bind, if_pos rfl, hinit]
  rfl

theorem validateAllKnownBranches (h : StoreOk f store) : f.validateAllKnownBranches store = .ok () := by
  refine forM_eq_ok.mpr fun hash hmem => ?_
  obtain ⟨r, hr, rfl⟩ := List.mem_map.mp hmem
  have hr := (List.mem_insertionSort _).mp hr
  obtain ⟨chain, s, hb, hs⟩ := h.branch r hr
  obtain ⟨b, hrow, hget⟩ := h.getBlock hr
  rw [ForkChoice.validateKnownBranch, hget, ok_bind]
  simp only [hrow.hash, ok_bind, h.chainToTip hb hs, catchAs_ok]
  rfl

end StoreOk

/-! ## Storing a block -/

/-- `b` is accepted on the chain `chain` of its parent in the store, or as the first block of an empty
store, and leads to `s`. -/
structure Extends (f : ForkChoice) (store : ForkStore) (b : ConsensusBlock) (chain : List StoredConsensusBlock)
    (s : ConsensusState) : Prop where
  parent : (b.height = 0 ∧ store.blocks = [] ∧ b.previousHash = zeroHash ∧ chain = []) ∨
    ∃ p, p.hash = b.previousHash ∧ Branch store.blocks p chain
  built : ∃ hash, Built f.blockSubsidy f.maxMoney (chain.map (·.block) ++ [b]) hash s

omit [Ed25519] in
theorem newWork_eq_ok {store : ForkStore} {b : ConsensusBlock} {work : Int} (h : store.newWork b = .ok work) :
    (b.height = 0 ∧ b.previousHash = zeroHash ∧ work = workFor b) ∨
      (b.height ≠ 0 ∧ ∃ parent, store.getBlock b.previousHash = .ok parent ∧
        b.height = parent.block.height + 1 ∧ work = parent.cumulativeWork + workFor b) := by
  unfold ForkStore.newWork at h
  split at h
  · simp only [bind_eq_ok, exists_unit, raiseIf_eq_ok, not_not, pure_eq_ok] at h
    exact .inl ⟨‹_›, h.1, h.2.symm⟩
  · simp only [bind_eq_ok, exists_unit, raiseIf_eq_ok, not_not, pure_eq_ok] at h
    obtain ⟨parent, hp, hh, hw⟩ := h
    exact .inr ⟨‹_›, parent, hp, hh, hw.symm⟩

omit [Ed25519] in
/-- The two ways `put_block` returns. -/
theorem putBlock_eq_ok {store store' : ForkStore} {b : ConsensusBlock} {stored : StoredConsensusBlock} :
    store.putBlock b = .ok (stored, store') ↔ ∃ hash, b.hash = .ok hash ∧
      ((hash ∈ store.blocks.map (·.hash) ∧ store' = store ∧ store.getBlock hash = .ok stored) ∨
        (hash ∉ store.blocks.map (·.hash) ∧ ∃ row, store.newRow b hash = .ok row ∧
          ForkStore.bindRow row = .ok () ∧ store' = { store with blocks := store.blocks ++ [row] } ∧
          stored = ⟨b, row.cumulativeWork⟩)) := by
  have hrow : ∀ {hash row}, store.newRow b hash = .ok row → row.hash = hash := fun h => by
    simp only [ForkStore.newRow, bind_eq_ok, pure_eq_ok] at h
    obtain ⟨_, -, _, -, rfl⟩ := h
    rfl
  rw [ForkStore.putBlock, bind_eq_ok]
  refine exists_congr fun hash => and_congr_right fun _ => ?_
  by_cases hmem : hash ∈ store.blocks.map (·.hash)
  · have hhas : store.hasBlock hash = true := Table.isSome_lookup.mpr hmem
    rw [if_pos hhas]
    simp only [bind_eq_ok, pure_eq_ok, Prod.mk.injEq]
    constructor
    · rintro ⟨_, hget, rfl, rfl⟩
      exact .inl ⟨hmem, rfl, hget⟩
    · rintro (⟨-, rfl, hget⟩ | ⟨hno, -⟩)
      · exact ⟨_, hget, rfl, rfl⟩
      · exact absurd hmem hno
  · have hhas : ¬ store.hasBlock hash = true := fun h => hmem (Table.isSome_lookup.mp h)
    rw [if_neg hhas]
    simp only [bind_eq_ok, pure_eq_ok, Prod.mk.injEq, Table.insert, exists_unit, raiseIf_eq_ok]
    constructor
    · rintro ⟨row, hr, _, ⟨hbind, -, rfl⟩, rfl, rfl⟩
      exact .inr ⟨hmem, row, hr, hbind, rfl, rfl⟩
    · rintro (⟨hyes, -⟩ | ⟨-, row, hr, hbind, rfl, rfl⟩)
      · exact absurd hyes hmem
      · exact ⟨row, hr, _, ⟨hbind, by rwa [hrow hr], rfl⟩, rfl, rfl⟩

/-- What an accepted block says about itself, whatever the state it was accepted on. -/
theorem Built.of_snoc_checked {subsidy maxMoney : Int} {bs : List ConsensusBlock} {b : ConsensusBlock} {q : Str}
    {s : ConsensusState} (h : Built subsidy maxMoney (bs ++ [b]) q s) :
    ∃ p s₀ fee, Built subsidy maxMoney bs p s₀ ∧ validateCandidate s₀ b bs.length p = .ok (fee, s) ∧
      b.hash = .ok q ∧ b.height = bs.length ∧ b.previousHash = p := by
  obtain ⟨p, s₀, fee, hpre, hv, hq⟩ := h.of_snoc
  obtain ⟨c, rest, s₁, hc, -⟩ := validateCandidate_eq_ok.mp hv
  obtain ⟨hheight, hprev, -⟩ := checkBlock_eq_ok.mp hc
  exact ⟨p, s₀, fee, hpre, hv, hq, hheight, hprev⟩

/-- The row of a block that extends the store, and the branch that ends in it. -/
theorem Extends.newRow {f : ForkChoice} {store : ForkStore} {b : ConsensusBlock}
    {chain : List StoredConsensusBlock} {s : ConsensusState} {hash : Str} {row : BlockRow} (hok : StoreOk f store)
    (he : Extends f store b chain s) (hhash : b.hash = .ok hash) (hrow : store.newRow b hash = .ok row) :
    row.hash = hash ∧
      Branch (store.blocks ++ [row]) row (chain ++ [⟨storedBlock b, row.cumulativeWork⟩]) ∧
      Built f.blockSubsidy f.maxMoney (chain.map (·.block) ++ [storedBlock b]) hash s := by
  simp only [ForkStore.newRow, encodeConsensusBlock, bind_eq_ok, pure_eq_ok] at hrow
  obtain ⟨work, hwork, _, ⟨bytes, hbytes, rfl⟩, rfl⟩ := hrow
  obtain ⟨q, hbuilt⟩ := he.built
  obtain ⟨p, s₀, fee, hpre, hv, hq, hheight, hprev⟩ := hbuilt.of_snoc_checked
  have hstored : storedHash b.previousHash = b.previousHash := by rw [hprev, hpre.facts.2.2.2]
  generalize hr : (⟨hash, b.height, b.previousHash, b.difficulty, work, hexEncode bytes⟩ : BlockRow) = row
  have hrowOf : RowOf (storedBlock b) row := by
    subst hr
    refine ⟨(hash_storedBlock b).trans hhash, rfl, hstored.symm, ?_⟩
    rw [decodeConsensusBlock, bytesFromhex, hexDecode_hexEncode]
    exact fromBytes_toBytes_block hbytes
  have hmem : row ∈ store.blocks ++ [row] := List.mem_append_right _ (List.mem_singleton_self _)
  have hw : row.cumulativeWork = work := by rw [← hr]
  refine ⟨by rw [← hr], ?_, hpre.snoc_stored hv hhash⟩
  rcases he.parent with ⟨h₀, -, -, rfl⟩ | ⟨parent, hph, hbranch⟩
  · rcases newWork_eq_ok hwork with ⟨-, -, rfl⟩ | ⟨hne, -⟩
    · exact .root hmem hrowOf h₀ hw
    · exact absurd h₀ hne
  · have hlen := hbranch.length
    have hnn := hbranch.height_nonneg
    rw [List.length_map] at hheight
    rcases newWork_eq_ok hwork with ⟨h₀, -⟩ | ⟨-, stored, hget, -, rfl⟩
    · omega
    · obtain ⟨bp, hbp, -⟩ := hbranch.last
      rw [← hph, getBlock_of_mem hok.nodup hbranch.mem hbp, Except.ok.injEq] at hget
      subst hget
      refine .child hmem hrowOf (hbranch.mono (List.subset_append_left _ _)) ?_ ?_ hw
      · rw [storedBlock, hstored, hph]
      · rw [storedBlock, hheight, hlen]

/-- Storing a block that was accepted keeps every branch replayable. -/
theorem StoreOk.putBlock {f : ForkChoice} {store store' : ForkStore} {b : ConsensusBlock}
    {stored : StoredConsensusBlock} {chain : List StoredConsensusBlock} {s : ConsensusState} (hok : StoreOk f store)
    (he : Extends f store b chain s) (hput : store.putBlock b = .ok (stored, store')) : StoreOk f store' := by
  obtain ⟨hash, hhash, ⟨-, rfl, -⟩ | ⟨hnew, row, hrow, -, rfl, -⟩⟩ := putBlock_eq_ok.mp hput
  · exact hok
  obtain ⟨hh, hbranch, hbuilt⟩ := he.newRow hok hhash hrow
  refine ⟨?_, fun r hr => ?_⟩
  · rw [List.map_append, List.map_singleton, List.nodup_append]
    refine ⟨hok.nodup, List.nodup_singleton _, fun a ha c hc e => hnew ?_⟩
    rw [List.mem_singleton, hh] at hc
    exact hc ▸ e ▸ ha
  · rcases List.mem_append.mp hr with hr | hr
    · obtain ⟨chain', s', hb, hs⟩ := hok.branch r hr
      exact ⟨chain', s', hb.mono (List.subset_append_left _ _), hs⟩
    · rw [List.mem_singleton] at hr
      subst hr
      exact ⟨_, s, hbranch, by rw [List.map_append, hh]; exact hbuilt⟩

end BCC.Proof
