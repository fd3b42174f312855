import BlockchainCoin.Proof.Headers

/-!
# Work

A fork store that `put_block` has built has a branch for each of its rows, and the
cumulative work of a row is the sum of `2 ** difficulty` over its branch
(`Branch.cumulativeWork_eq`). The best tip ranks branches by that sum, not by the
`16 ** difficulty` evaluations that the zeros of a hash take. The two rank a branch
alike against one whose own blocks are not harder (`bestTip_work`).
-/

namespace BCC.Proof

open BCC.Impl PyError

/-- Stores built by `put_block`, from blocks with a difficulty that is not negative. -/
inductive Puts : ForkStore → Prop
  | empty (parameters : Option ChainParameters) : Puts ⟨[], parameters⟩
  | put {store store' : ForkStore} {b : ConsensusBlock} {stored : StoredConsensusBlock} :
    Puts store → 0 ≤ b.difficulty → store.putBlock b = .ok (stored, store') → Puts store'

/-- Every row is at the end of a branch. -/
structure Rooted (store : ForkStore) : Prop where
  nodup : (store.blocks.map (·.hash)).Nodup
  branch : ∀ r ∈ store.blocks, ∃ chain, Branch store.blocks r chain

section

variable {store store' : ForkStore} {b : ConsensusBlock} {hash : Str} {row : BlockRow}

/-- A new row is at the end of the branch of its parent. -/
theorem Rooted.newRow (h : Rooted store) (hhash : b.hash = .ok hash) (hrow : store.newRow b hash = .ok row) :
    row.hash = hash ∧ ∃ chain, Branch (store.blocks ++ [row]) row chain := by
  simp only [ForkStore.newRow, encodeConsensusBlock, bind_eq_ok, pure_eq_ok] at hrow
  obtain ⟨work, hwork, _, ⟨bytes, hbytes, rfl⟩, rfl⟩ := hrow
  refine ⟨rfl, ?_⟩
  generalize hr : (⟨hash, b.height, b.previousHash, b.difficulty, work, hexEncode bytes⟩ : BlockRow) = row
  have hmem : row ∈ store.blocks ++ [row] := List.mem_append_right _ (List.mem_singleton_self _)
  have hw : row.cumulativeWork = work := by rw [← hr]
  have hrowOf : storedHash b.previousHash = b.previousHash → RowOf (storedBlock b) row := fun hstored => by
    subst hr
    refine ⟨(hash_storedBlock b).trans hhash, rfl, hstored.symm, ?_⟩
    rw [decodeConsensusBlock, bytesFromhex, hexDecode_hexEncode]
    exact fromBytes_toBytes_block hbytes
  rcases newWork_eq_ok hwork with ⟨h₀, hprev, hwork⟩ | ⟨-, stored, hget, hheight, hwork⟩
  · exact ⟨_, .root hmem (hrowOf (hprev ▸ isHash_zeroHash.stored)) h₀ (hw.trans hwork)⟩
  · obtain ⟨p, hp, hph⟩ : ∃ p ∈ store.blocks, p.hash = b.previousHash := by
      cases hl : Table.lookup BlockRow.hash store.blocks b.previousHash with
      | none =>
        rw [ForkStore.getBlock, hl] at hget
        cases hget
      | some p => exact ⟨p, (Table.lookup_eq_some h.nodup).mp hl⟩
    obtain ⟨chain, hchain⟩ := h.branch p hp
    obtain ⟨bp, hbp, -⟩ := hchain.last
    rw [← hph, getBlock_of_mem h.nodup hp hbp, Except.ok.injEq] at hget
    subst hget
    have hstored : storedHash b.previousHash = b.previousHash := hph ▸ (isHash_hash hbp.hash).stored
    refine ⟨_, .child hmem (hrowOf hstored) (hchain.mono (List.subset_append_left _ _)) ?_ ?_ (hw.trans hwork)⟩
    · rw [storedBlock, hstored, hph]
    · rw [storedBlock, hheight, hbp.height]

theorem Rooted.put {stored : StoredConsensusBlock} (h : Rooted store) (hput : store.putBlock b = .ok (stored, store')) :
    Rooted store' := by
  obtain ⟨hash, hhash, ⟨-, rfl, -⟩ | ⟨hnew, row, hrow, -, rfl, -⟩⟩ := putBlock_eq_ok.mp hput
  · exact h
  · obtain ⟨hh, chain, hchain⟩ := h.newRow hhash hrow
    refine ⟨?_, fun r hr => ?_⟩
    · rw [List.map_append, List.map_singleton, List.nodup_append]
      refine ⟨h.nodup, List.nodup_singleton _, fun a ha c hc e => hnew ?_⟩
      rw [List.mem_singleton, hh] at hc
      exact hc ▸ e ▸ ha
    · rcases List.mem_append.mp hr with hr | hr
      · obtain ⟨chain', hchain'⟩ := h.branch r hr
        exact ⟨chain', hchain'.mono (List.subset_append_left _ _)⟩
      · obtain rfl := List.mem_singleton.mp hr
        exact ⟨chain, hchain⟩

theorem Puts.foldlM {blocks : List ConsensusBlock} (h : Puts store) (hd : ∀ b ∈ blocks, 0 ≤ b.difficulty)
    (hput : (blocks.foldlM (fun s b => Prod.snd <$> s.putBlock b) store) = .ok store') : Puts store' := by
  induction blocks generalizing store with
  | nil => exact Except.ok.inj hput ▸ h
  | cons b blocks ih =>
    rw [List.forall_mem_cons] at hd
    rw [List.foldlM_cons] at hput
    obtain ⟨_, hfirst, hput⟩ := bind_eq_ok.mp hput
    obtain ⟨_, hb, rfl⟩ := map_eq_ok.mp hfirst
    exact ih (h.put hd.1 hb) hd.2 hput

theorem Puts.rooted (h : Puts store) : Rooted store := by
  induction h with
  | empty => exact ⟨List.nodup_nil, nofun⟩
  | put _ _ hput ih => exact ih.put hput

end

/-! ## Sums over a branch -/

/-- The sum of `base ** difficulty` over the blocks of a branch. -/
def branchWork (base : Int) (chain : List StoredConsensusBlock) : Int :=
  (chain.map fun s => base ^ s.block.difficulty.toNat).sum

theorem branchWork_append (base : Int) (chain chain' : List StoredConsensusBlock) :
    branchWork base (chain ++ chain') = branchWork base chain + branchWork base chain' := by
  rw [branchWork, List.map_append, List.sum_append]
  rfl

theorem Branch.cumulativeWork_eq {rows : List BlockRow} {r : BlockRow} {chain : List StoredConsensusBlock}
    (h : Branch rows r chain) : r.cumulativeWork = branchWork 2 chain := by
  induction h with
  | @root r b _ _ _ hw => rw [hw, branchWork, List.map_singleton, List.sum_singleton]; rfl
  | @child r p b chain _ _ _ _ _ hw ih =>
    rw [branchWork_append, ← ih, hw, branchWork, List.map_singleton, List.sum_singleton]
    rfl

/-- No block of the first list is easier than any of the second. -/
def Harder (own other : List StoredConsensusBlock) : Prop :=
  ∀ s ∈ own, ∀ s' ∈ other, s'.block.difficulty ≤ s.block.difficulty

theorem sixteen_pow (n : Nat) : (16 : Int) ^ n = 8 ^ n * 2 ^ n := by
  rw [← mul_pow]
  rfl

section

variable {own other chain : List StoredConsensusBlock} {d : Nat}

theorem branchWork_le_mul (h : ∀ s ∈ chain, s.block.difficulty.toNat ≤ d) :
    branchWork 16 chain ≤ 8 ^ d * branchWork 2 chain := by
  rw [branchWork, branchWork, ← List.sum_map_mul_left]
  refine List.sum_le_sum fun s hs => ?_
  rw [sixteen_pow]
  exact mul_le_mul_of_nonneg_right (pow_le_pow_right₀ (by decide) (h s hs)) (by positivity)

theorem mul_le_branchWork (h : ∀ s ∈ chain, d ≤ s.block.difficulty.toNat) :
    8 ^ d * branchWork 2 chain ≤ branchWork 16 chain := by
  rw [branchWork, branchWork, ← List.sum_map_mul_left]
  refine List.sum_le_sum fun s hs => ?_
  rw [sixteen_pow]
  exact mul_le_mul_of_nonneg_right (pow_le_pow_right₀ (by decide) (h s hs)) (by positivity)

theorem Harder.exists_between (h : Harder own other) :
    ∃ d, (∀ s ∈ own, d ≤ s.block.difficulty.toNat) ∧ ∀ s ∈ other, s.block.difficulty.toNat ≤ d := by
  induction other with
  | nil => exact ⟨0, fun _ _ => Nat.zero_le _, nofun⟩
  | cons s' other ih =>
    obtain ⟨d, hown, hother⟩ := ih fun s hs s'' hs'' => h s hs s'' (List.mem_cons_of_mem _ hs'')
    refine ⟨max d s'.block.difficulty.toNat, fun s hs => max_le (hown s hs) ?_, List.forall_mem_cons.mpr ⟨le_max_right _ _, ?_⟩⟩
    · exact Int.toNat_le_toNat (h s hs s' List.mem_cons_self)
    · exact fun s hs => (hother s hs).trans (le_max_left _ _)

/-- Branches of which one is not easier are ranked by the two sums alike. -/
theorem Harder.branchWork_le (h : Harder own other) (hle : branchWork 2 other ≤ branchWork 2 own) :
    branchWork 16 other ≤ branchWork 16 own := by
  obtain ⟨d, hown, hother⟩ := h.exists_between
  calc branchWork 16 other ≤ 8 ^ d * branchWork 2 other := branchWork_le_mul hother
    _ ≤ 8 ^ d * branchWork 2 own := mul_le_mul_of_nonneg_left hle (by positivity)
    _ ≤ branchWork 16 own := mul_le_branchWork hown

end

/-- The branch of the best tip has the greatest sum of `2 ** difficulty`, and the greatest of `16 ** difficulty` among the
branches that are not harder than it where they part from it. -/
theorem bestTip_work (store : ForkStore) (h : Puts store) (tip : StoredConsensusBlock) (htip : store.bestTip = .ok (some tip)) :
    ∃ tipHash best, tip.block.hash = .ok tipHash ∧ store.chainToTip tipHash = .ok best ∧
      ∀ hash, store.hasBlock hash = true → ∃ chain, store.chainToTip hash = .ok chain ∧
        branchWork 2 chain ≤ branchWork 2 best ∧
        ∀ common own other, best = common ++ own → chain = common ++ other → Harder own other →
          branchWork 16 chain ≤ branchWork 16 best := by
  have hr := h.rooted
  rw [ForkStore.bestTip] at htip
  cases hfirst : Table.first BlockRow.better store.blocks with
  | none =>
    rw [hfirst] at htip
    cases htip
  | some r =>
    have hmem := Table.first_mem hfirst
    obtain ⟨best, hbest⟩ := hr.branch r hmem
    obtain ⟨b, hb, -⟩ := hbest.last
    simp only [hfirst, getBlock_of_mem hr.nodup hmem hb, map_eq_ok, Except.ok.injEq, Option.some.injEq] at htip
    obtain ⟨_, rfl, rfl⟩ := htip
    refine ⟨r.hash, best, hb.hash, hbest.chainToTip hr.nodup, fun hash hhas => ?_⟩
    obtain ⟨q, hq, rfl⟩ := List.mem_map.mp (Table.isSome_lookup.mp hhas)
    obtain ⟨chain, hchain⟩ := hr.branch q hq
    have hle : branchWork 2 chain ≤ branchWork 2 best := by
      rw [← hchain.cumulativeWork_eq, ← hbest.cumulativeWork_eq]
      exact work_le_of_first hfirst hq
    refine ⟨chain, hchain.chainToTip hr.nodup, hle, ?_⟩
    rintro common own other rfl rfl hharder
    rw [branchWork_append, branchWork_append] at hle ⊢
    have hown := hharder.branchWork_le (by omega)
    omega

/-! ## Two blocks against a harder one -/

def easyBlock : ConsensusBlock where
  height := 1
  previousHash := genesisHash
  transactions := []
  difficulty := 0
  timestamp := 0
  transactionRoot := zeroHash

def easyHash : Str :=
  hexEncode
    [255, 125, 166, 106, 207, 1, 234, 181, 149, 233, 172, 112, 167, 149, 60, 170, 104, 29, 50, 101, 149, 205, 88, 38,
     77, 89, 18, 122, 240, 103, 233, 142]

/-- The genesis block, a branch of two easy blocks after it, and one of a harder block. -/
def forkedBlocks : List ConsensusBlock :=
  [genesisBlock, easyBlock, { easyBlock with height := 2, previousHash := easyHash }, { easyBlock with difficulty := 1 }]

def hardHash : Str :=
  hexEncode
    [162, 47, 181, 170, 114, 26, 211, 60, 233, 243, 195, 236, 56, 67, 121, 79, 214, 117, 163, 101, 42, 61, 217, 133,
     245, 123, 49, 160, 254, 15, 21, 127]

theorem exists_forked : ∃ store tip tipHash best chain, Puts store ∧ store.bestTip = .ok (some tip) ∧
    tip.block.hash = .ok tipHash ∧ store.chainToTip tipHash = .ok best ∧ store.hasBlock hardHash = true ∧
    store.chainToTip hardHash = .ok chain ∧ branchWork 16 best < branchWork 16 chain := by
  have h : ((forkedBlocks.foldlM (fun s b => Prod.snd <$> s.putBlock b) ⟨[], none⟩ : Except PyError ForkStore) >>= fun store =>
      store.activeChain >>= fun best => store.chainToTip hardHash >>= fun chain =>
        pure (store.hasBlock hardHash, branchWork 16 best, branchWork 16 chain)) = .ok (true, 3, 17) := by
    decide +kernel
  obtain ⟨store, hstore, h⟩ := bind_eq_ok.mp h
  obtain ⟨best, hbest, h⟩ := bind_eq_ok.mp h
  obtain ⟨chain, hchain, h⟩ := bind_eq_ok.mp h
  simp only [pure_eq_ok, Prod.mk.injEq] at h
  obtain ⟨hhas, hown, hother⟩ := h
  obtain ⟨tip, htip, hbest⟩ := bind_eq_ok.mp hbest
  cases tip with
  | none =>
    obtain rfl := pure_eq_ok.mp hbest
    cases hown
  | some tip =>
    obtain ⟨tipHash, hhash, hbest⟩ := bind_eq_ok.mp hbest
    refine ⟨store, tip, tipHash, best, chain, Puts.foldlM (.empty none) (by decide) hstore, htip, hhash, hbest, hhas, hchain, ?_⟩
    rw [hown, hother]
    decide

theorem bestTip_work_forked : ∃ store tip, Puts store ∧ store.bestTip = .ok (some tip) ∧
    ∃ tipHash best, tip.block.hash = .ok tipHash ∧ store.chainToTip tipHash = .ok best ∧
      ∀ hash, store.hasBlock hash = true → ∃ chain, store.chainToTip hash = .ok chain ∧
        branchWork 2 chain ≤ branchWork 2 best ∧
        ∀ common own other, best = common ++ own → chain = common ++ other → Harder own other →
          branchWork 16 chain ≤ branchWork 16 best := by
  obtain ⟨store, tip, _, _, _, hputs, htip, -⟩ := exists_forked
  exact ⟨store, tip, hputs, htip, bestTip_work store hputs tip htip⟩

theorem bestTip_outworked : ∃ store tip tipHash best hash chain, Puts store ∧ store.bestTip = .ok (some tip) ∧
    tip.block.hash = .ok tipHash ∧ store.chainToTip tipHash = .ok best ∧ store.hasBlock hash = true ∧
    store.chainToTip hash = .ok chain ∧ branchWork 16 best < branchWork 16 chain := by
  obtain ⟨store, tip, tipHash, best, chain, h⟩ := exists_forked
  exact ⟨store, tip, tipHash, best, hardHash, chain, h⟩

end BCC.Proof
