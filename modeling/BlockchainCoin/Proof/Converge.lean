import BlockchainCoin.Proof.Lives
import BlockchainCoin.Proof.Reorg

/-!
# Nodes that converge

The rows of the fork store do not depend on the order in which their blocks came: a row is
determined by its block and by the row of its parent (`Grown.subset`). What a node reads
from its store does not depend on the order of the rows (`bestTip_perm`,
`activeChain_perm`), since the order of `best_tip` is total. So nodes that imported the same
blocks, in any two orders, agree.
-/

namespace BCC.Proof

open BCC.Impl

/-! ## Tables with the same rows -/

section

variable {store store' : ForkStore} (hp : store.blocks.Perm store'.blocks) (hn : (store.blocks.map (·.hash)).Nodup)

include hp hn

theorem getBlock_perm (hash : Str) : store.getBlock hash = store'.getBlock hash := by
  rw [ForkStore.getBlock, ForkStore.getBlock, Table.lookup_perm hp hn]

theorem bestTip_perm : store.bestTip = store'.bestTip := by
  have hanti : ∀ a ∈ store.blocks, ∀ b ∈ store.blocks, a.better b → b.better a → a = b := fun a ha b hb hab hba =>
    List.inj_on_of_nodup_map hn ha hb (hash_eq_of_better hab hba)
  rw [ForkStore.bestTip, ForkStore.bestTip, Table.first_perm better_total better_trans hanti hp]
  split
  · rfl
  · rw [getBlock_perm hp hn]

theorem walk_perm : ∀ fuel hash, store.walk fuel hash = store'.walk fuel hash
  | 0, _ => rfl
  | fuel + 1, hash => by
    rw [ForkStore.walk, ForkStore.walk, getBlock_perm hp hn]
    refine bind_congr fun current => ?_
    rw [walk_perm fuel]

theorem chainToTip_perm (hash : Str) : store.chainToTip hash = store'.chainToTip hash := by
  rw [ForkStore.chainToTip, ForkStore.chainToTip, walk_perm hp hn, hp.length_eq]

theorem storeActiveChain_perm : store.activeChain = store'.activeChain := by
  rw [ForkStore.activeChain, ForkStore.activeChain, bestTip_perm hp hn]
  refine bind_congr fun tip => ?_
  cases tip with
  | none => rfl
  | some tip => exact bind_congr fun hash => chainToTip_perm hp hn hash

theorem activeChain_perm [Ed25519] (f : ForkChoice) : f.activeChain store = f.activeChain store' := by
  rw [ForkChoice.activeChain, ForkChoice.activeChain, storeActiveChain_perm hp hn]

end

/-! ## Rows and the blocks they are of -/

section

variable {store store' : ForkStore} {b : ConsensusBlock} {hash : Str} {row : BlockRow}

/-- The row of a block is determined by its parent. -/
theorem newRow_congr (h : b.height ≠ 0 → store.getBlock b.previousHash = store'.getBlock b.previousHash) (hash : Str) :
    store.newRow b hash = store'.newRow b hash := by
  have hwork : store.newWork b = store'.newWork b := by
    unfold ForkStore.newWork
    split
    · rfl
    · rename_i hne
      rw [h hne]
  rw [ForkStore.newRow, ForkStore.newRow, hwork]

theorem getBlock_of_subset {stored : StoredConsensusBlock} (hn : (store.blocks.map (·.hash)).Nodup)
    (hn' : (store'.blocks.map (·.hash)).Nodup) (hsub : store.blocks ⊆ store'.blocks)
    (h : store.getBlock hash = .ok stored) : store'.getBlock hash = .ok stored := by
  rw [ForkStore.getBlock] at h ⊢
  cases hl : Table.lookup BlockRow.hash store.blocks hash with
  | none =>
    rw [hl] at h
    cases h
  | some r =>
    obtain ⟨hr, hrh⟩ := (Table.lookup_eq_some hn).mp hl
    rw [hl] at h
    rw [(Table.lookup_eq_some hn').mpr ⟨hsub hr, hrh⟩]
    exact h

/-- A row that was made stays the row of its block. -/
theorem newRow_of_subset (hn : (store.blocks.map (·.hash)).Nodup) (hn' : (store'.blocks.map (·.hash)).Nodup)
    (hsub : store.blocks ⊆ store'.blocks) (h : store.newRow b hash = .ok row) : store'.newRow b hash = .ok row := by
  rw [← h]
  refine (newRow_congr (fun hne => ?_) hash).symm
  obtain ⟨work, hwork, -⟩ := bind_eq_ok.mp h
  rcases newWork_eq_ok hwork with ⟨h₀, -⟩ | ⟨-, parent, hget, -⟩
  · exact absurd h₀ hne
  · rw [hget, getBlock_of_subset hn hn' hsub hget]

theorem newRow_eq_ok (h : store.newRow b hash = .ok row) :
    row.hash = hash ∧ row.height = b.height ∧ row.previousHash = b.previousHash := by
  simp only [ForkStore.newRow, bind_eq_ok, pure_eq_ok] at h
  obtain ⟨_, -, _, -, rfl⟩ := h
  exact ⟨rfl, rfl, rfl⟩

end

section Import

variable [Ed25519]

/-- The store after blocks were put into it: its old rows, and a row for each block whose hash was new. -/
structure Grown (f : ForkChoice) (store : ForkStore) (blocks : List ConsensusBlock) (store' : ForkStore) : Prop where
  ok : StoreOk f store'
  subset : store.blocks ⊆ store'.blocks
  rows : ∀ r ∈ store'.blocks, r ∈ store.blocks ∨ ∃ b ∈ blocks, b.hash = .ok r.hash ∧ store'.newRow b r.hash = .ok r
  hashes : ∀ b ∈ blocks, ∃ r ∈ store'.blocks, b.hash = .ok r.hash

namespace Grown

variable {f : ForkChoice} {store store₁ store' : ForkStore} {blocks : List ConsensusBlock} {b : ConsensusBlock}

theorem nil (h : StoreOk f store) : Grown f store [] store :=
  ⟨h, List.Subset.refl _, fun _ hr => .inl hr, nofun⟩

theorem cons {hash : Str} {stored : StoredConsensusBlock} (hok : StoreOk f store) (hhash : b.hash = .ok hash)
    (hst : Stores f store b hash stored store₁) (h : Grown f store₁ blocks store') : Grown f store (b :: blocks) store' := by
  have hok₁ := hst.storeOk hok hhash
  refine ⟨h.ok, List.Subset.trans hst.subset h.subset, fun r hr => ?_, fun b' hb' => ?_⟩
  · rcases h.rows r hr with hr | ⟨b', hb', hrow⟩
    · cases hst with
      | known => exact .inl hr
      | @new _ _ row _ _ hrow =>
        rcases List.mem_append.mp hr with hr | hr
        · exact .inl hr
        · obtain rfl := List.mem_singleton.mp hr
          obtain rfl := (newRow_eq_ok hrow).1
          refine .inr ⟨b, List.mem_cons_self, hhash, newRow_of_subset hok.nodup h.ok.nodup ?_ hrow⟩
          exact List.Subset.trans (List.subset_append_left _ _) h.subset
    · exact .inr ⟨b', List.mem_cons_of_mem _ hb', hrow⟩
  · rcases List.mem_cons.mp hb' with rfl | hb'
    · obtain ⟨r, hr, rfl⟩ := List.mem_map.mp (hst.mem hok hhash).1
      exact ⟨r, h.subset hr, hhash⟩
    · exact h.hashes b' hb'

/-- What is stored after some blocks is stored after them in another order. -/
theorem subset_of_subset {other other' : ForkStore} {blocks' : List ConsensusBlock} (h : Grown f store blocks store')
    (h' : Grown f other blocks' other') (hstart : store.blocks ⊆ other.blocks) (hstart' : other.blocks ⊆ store.blocks)
    (hblocks : blocks ⊆ blocks') (hdistinct : ∀ b ∈ blocks', ∀ b' ∈ blocks', b.hash = b'.hash → b = b') :
    store'.blocks ⊆ other'.blocks := by
  -- A row is there if its block would get the same row there.
  have hmem : ∀ r ∈ store'.blocks, (∀ b, store'.newRow b r.hash = .ok r → other'.newRow b r.hash = .ok r) →
      r ∈ other'.blocks := fun r hr hsame => by
    rcases h.rows r hr with hr' | ⟨b, hb, hhash, hrow⟩
    · exact h'.subset (hstart hr')
    · obtain ⟨r', hr', hhash'⟩ := h'.hashes b (hblocks hb)
      have hrr' : r'.hash = r.hash := Except.ok.inj (hhash'.symm.trans hhash)
      rcases h'.rows r' hr' with hold | ⟨b', hb', hb'hash, hrow'⟩
      · obtain rfl := List.inj_on_of_nodup_map h.ok.nodup (h.subset (hstart' hold)) hr hrr'
        exact hr'
      · obtain rfl := hdistinct b' hb' b (hblocks hb) (hb'hash.trans hhash'.symm)
        rw [hrr', hsame b' hrow, Except.ok.injEq] at hrow'
        exact hrow' ▸ hr'
  intro r hr
  obtain ⟨chain, -, hchain, -⟩ := h.ok.branch r hr
  induction hchain with
  | @root r _ hr hb h₀ _ =>
    refine hmem r hr fun b hrow => ?_
    rw [← hrow]
    refine (newRow_congr (fun hne => absurd ?_ hne) r.hash).symm
    rw [← (newRow_eq_ok hrow).2.1, hb.height, h₀]
  | @child r p _ _ hr hb hp hhash _ _ ih =>
    refine hmem r hr fun b hrow => ?_
    rw [← hrow]
    refine (newRow_congr (fun _ => ?_) r.hash).symm
    obtain ⟨bp, hbp, -⟩ := hp.last
    rw [← (newRow_eq_ok hrow).2.2, hb.previousHash, ← hhash, getBlock_of_mem h.ok.nodup hp.mem hbp,
      getBlock_of_mem h'.ok.nodup (ih hp.mem) hbp]

theorem perm {other other' : ForkStore} {blocks' : List ConsensusBlock} (h : Grown f store blocks store')
    (h' : Grown f other blocks' other') (hstart : store.blocks.Perm other.blocks) (hperm : blocks.Perm blocks')
    (hdistinct : (blocks.map fun b => b.hash).Nodup) : store'.blocks.Perm other'.blocks := by
  have hinj : ∀ b ∈ blocks, ∀ b' ∈ blocks, b.hash = b'.hash → b = b' := fun _ hb _ hb' he =>
    List.inj_on_of_nodup_map hdistinct hb hb' he
  have hinj' : ∀ b ∈ blocks', ∀ b' ∈ blocks', b.hash = b'.hash → b = b' := fun _ hb _ hb' he =>
    hinj _ (hperm.mem_iff.mpr hb) _ (hperm.mem_iff.mpr hb') he
  have hsub := h.subset_of_subset h' hstart.subset hstart.symm.subset hperm.subset hinj'
  have hsub' := h'.subset_of_subset h hstart.symm.subset hstart.subset hperm.symm.subset hinj
  exact (List.perm_ext_iff_of_nodup h.ok.nodup.of_map h'.ok.nodup.of_map).mpr fun r => ⟨fun hr => hsub hr, fun hr => hsub' hr⟩

end Grown

/-! ## Importing the blocks -/

/-- Calls of `import_block`, one after the other. -/
def importBlocks : List ConsensusBlock → Method ConsensusNode PyError (List StoredConsensusBlock)
  | [] => return []
  | b :: blocks => do
    let stored ← ConsensusNode.importBlock b
    let rest ← importBlocks blocks
    return stored :: rest

/-- What calls that return have done to the fork store. -/
theorem importBlocks_grown {blocks : List ConsensusBlock} {n n' : ConsensusNode} {stored : List StoredConsensusBlock}
    (h : NodeOk n) (hcall : (importBlocks blocks).call n = (.ok stored, n')) :
    NodeOk n' ∧ n'.forkChoice = n.forkChoice ∧ Grown n.forkChoice n.disk.store blocks n'.disk.store := by
  induction blocks generalizing n stored with
  | nil =>
    obtain ⟨-, rfl⟩ := Prod.mk.inj hcall
    exact ⟨h, rfl, .nil h.store⟩
  | cons b blocks ih =>
    rw [importBlocks] at hcall
    simp only [Method.call_bind_eq_ok] at hcall
    obtain ⟨s, n₁, himport, rest, n₂, hrest, hlast⟩ := hcall
    obtain ⟨-, rfl⟩ := Prod.mk.inj hlast
    have hok := h.importBlock b
    rw [himport] at hok
    obtain ⟨hash, store, a, hact⟩ := importBlock_returns h himport
    have hstore : n₁.disk.store = store := by rw [hact.node]
    have hfork : n₁.forkChoice = n.forkChoice := by rw [hact.node]
    obtain ⟨hok', hfork', hgrown⟩ := ih hok hrest
    rw [hfork, hstore] at hgrown
    exact ⟨hok', hfork'.trans hfork, .cons h.store hact.hash_eq hact.stores hgrown⟩

/-- Two nodes that start with the same stored blocks and import the same blocks, with pairwise distinct hashes, in any two
orders in which every call returns, end with the same tip, height, active chain, stored blocks and works, and active state. -/
theorem import_converges {calls calls' : List Call} {n n' m m' : ConsensusNode} {blocks blocks' : List ConsensusBlock}
    {stored stored' : List StoredConsensusBlock} (hn : World.after calls = .up n) (hn' : World.after calls' = .up n')
    (hparameters : n.forkChoice = n'.forkChoice) (hstart : n.disk.store.blocks.Perm n'.disk.store.blocks)
    (hperm : blocks.Perm blocks') (hdistinct : (blocks.map fun b => b.hash).Nodup)
    (himport : (importBlocks blocks).call n = (.ok stored, m))
    (himport' : (importBlocks blocks').call n' = (.ok stored', m')) :
    m.tipHash = m'.tipHash ∧ m.height = m'.height ∧ m.activeChainHashes = m'.activeChainHashes ∧
      (∀ hash, m.disk.store.getBlock hash = m'.disk.store.getBlock hash) ∧ SameState m.state m'.state := by
  obtain ⟨hok, hfork, hgrown⟩ := importBlocks_grown (nodeOk_after hn) himport
  obtain ⟨hok', hfork', hgrown'⟩ := importBlocks_grown (nodeOk_after hn') himport'
  have hsame : m.forkChoice = m'.forkChoice := hfork.trans (hparameters.trans hfork'.symm)
  rw [← hparameters] at hgrown'
  have hrows := hgrown.perm hgrown' hstart hperm hdistinct
  have hnodup := hok.store.nodup
  have htip := bestTip_perm hrows hnodup
  have hactive : m.forkChoice.activeChain m.disk.store = m'.forkChoice.activeChain m'.disk.store :=
    hsame ▸ activeChain_perm hrows hnodup m.forkChoice
  obtain ⟨a, ha, hstate⟩ := hok.active
  obtain ⟨a', ha', hstate'⟩ := hok'.active
  rw [hactive, ha', Except.ok.injEq] at ha
  subst ha
  refine ⟨?_, ?_, ?_, getBlock_perm hrows hnodup, ?_⟩
  · rw [ConsensusNode.tipHash, ConsensusNode.tipHash, htip]
  · rw [ConsensusNode.height, ConsensusNode.height, htip]
  · rw [ConsensusNode.activeChainHashes, ConsensusNode.activeChainHashes, hactive]
  · exact ⟨hstate.blockSubsidy.trans hstate'.blockSubsidy.symm, hstate.maxMoney.trans hstate'.maxMoney.symm,
      hstate.utxos.trans hstate'.utxos.symm⟩

end Import

/-- Two children of the genesis block, in both orders. -/
theorem import_converges_genesisNode :
    let _ := aliceVerify
    ∃ stored stored' m m', (importBlocks [paymentBlock, twinBlock]).call genesisNode = (.ok stored, m) ∧
      (importBlocks [twinBlock, paymentBlock]).call genesisNode = (.ok stored', m') ∧ m.tipHash = m'.tipHash ∧
      m.height = m'.height ∧ m.activeChainHashes = m'.activeChainHashes ∧
      (∀ hash, m.disk.store.getBlock hash = m'.disk.store.getBlock hash) ∧ SameState m.state m'.state := by
  intro _
  obtain ⟨stored, m, himport⟩ := Method.exists_call_of_isOk
    (show ((importBlocks [paymentBlock, twinBlock]).call genesisNode).1.isOk = true by decide +kernel)
  obtain ⟨stored', m', himport'⟩ := Method.exists_call_of_isOk
    (show ((importBlocks [twinBlock, paymentBlock]).call genesisNode).1.isOk = true by decide +kernel)
  have hdistinct : ([paymentBlock, twinBlock].map fun b => b.hash).Nodup := by decide +kernel
  exact ⟨stored, stored', m, m', himport, himport', import_converges created_genesisNode created_genesisNode rfl (.refl _)
    (.swap _ _ _) hdistinct himport himport'⟩

end BCC.Proof
