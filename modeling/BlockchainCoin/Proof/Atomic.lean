import BlockchainCoin.Proof.Admission
import BlockchainCoin.Proof.Restart

/-!
# What can fail once a block is stored

After `put_block` has committed, `import_block` can only fail where it writes the UTXO
index: `SQLiteUTXOIndex` has a 64-bit column for amounts and a primary key for the
outpoints that a branch consumes. `activate_returns_iff` says that it fails exactly
when the branch of the block or the active branch does not fit (`Indexable`), and so a
call that raises leaves everything but the invalid-block cache as it was when they do
(`importBlock_atomic_iff`).
-/

namespace BCC.Proof

open BCC.Impl BlockProcessor

/-! ## Chains that fit into the index -/

/-- The outpoints that the transactions of a chain consume. -/
def consumed (blocks : List ConsensusBlock) : List OutPoint :=
  ((blocks.flatMap (·.transactions)).filter fun t => ¬ t.isCoinbase).flatMap fun t => t.inputs.map (·.previousOutput)

/-- The UTXO index has room for a chain: every unspent amount fits into 64 bits, and no outpoint is consumed twice. -/
structure Indexable (a : ActiveChain) : Prop where
  amounts : ∀ o out, a.state.utxos.lookup o = some out → out.amount < 2 ^ 63
  spends : (consumed a.blocks).Nodup

theorem outpoints_chainSpends (blocks : List ConsensusBlock) :
    (chainSpends blocks).map IndexedSpend.outpoint = consumed blocks := by
  rw [chainSpends, consumed, List.map_flatMap]
  refine List.flatMap_congr fun t _ => ?_
  rw [List.map_map]
  conv_rhs => rw [← List.zipIdx_map_fst 0 t.inputs, List.map_map]
  rfl

theorem branchSpends_of_txids {blocks : List ConsensusBlock}
    (h : ∀ t ∈ blocks.flatMap (·.transactions), t.txid = .ok (txidOf t)) : branchSpends blocks = .ok (chainSpends blocks) := by
  have hspends : ∀ t ∈ blocks.flatMap (·.transactions), ∃ spends, transactionSpends t = .ok spends := fun t ht => by
    unfold transactionSpends
    split
    · exact ⟨_, rfl⟩
    · rw [h t ht]
      exact ⟨_, rfl⟩
  obtain ⟨spends, hspends⟩ := exists_mapM hspends
  have hbranch : branchSpends blocks = .ok spends.flatten := by
    rw [branchSpends, hspends]
    rfl
  rw [hbranch, branchSpends_eq hbranch]

variable [Ed25519]

section Replayed

variable {f : ForkChoice} {store : ForkStore} {r : BlockRow} {chain : List StoredConsensusBlock} {s : ConsensusState}

theorem Replayed.bindable_iff (h : Replayed f store r chain s) :
    Bindable s.utxos ↔ ∀ o out, s.utxos.lookup o = some out → out.amount < 2 ^ 63 := by
  rw [BCC.Proof.bindable_iff]
  refine forall₃_congr fun o out ho => ?_
  obtain ⟨hlo, hhi⟩ := h.index_lt ho
  have hpos := (h.built.valued.1 o out ho).1
  simp only [IsInt64]
  omega

/-- The inputs of a stored chain are numbered below the size of their transactions. -/
theorem Replayed.bindSpend (h : Replayed f store r chain s) {spend : IndexedSpend}
    (hspend : spend ∈ chainSpends (chain.map (·.block))) (tipHash : Str) : BCC.Impl.bindSpend ⟨tipHash, spend⟩ = .ok () := by
  obtain ⟨t, ht, hspend⟩ := List.mem_flatMap.mp hspend
  obtain ⟨⟨x, j⟩, hx, rfl⟩ := List.mem_map.mp hspend
  have ht := (List.mem_filter.mp ht).1
  obtain ⟨b, hb, htb⟩ := List.mem_flatMap.mp ht
  obtain ⟨stored, hstored, rfl⟩ := List.mem_map.mp hb
  obtain ⟨hwf, hsize⟩ := (h.branch.wellFormed stored hstored).transactions t htb
  obtain ⟨bs, hbs, -⟩ := bind_eq_ok.mp (h.built.txids t ht)
  have hlt := List.snd_lt_of_mem_zipIdx hx
  have hle := (lengths_le hbs).1
  have hbound := hsize bs hbs
  have hindex := (hwf.inputs x (List.fst_mem_of_mem_zipIdx hx)).index
  have hinput : IsInt64 (j : Int) := ⟨by omega, by omega⟩
  rw [BCC.Impl.bindSpend, bindInt_eq_ok.mpr hindex, ok_bind]
  exact bindInt_eq_ok.mpr hinput

theorem Replayed.saveTipSpends_returns (h : Replayed f store r chain s) (hn : (consumed (chain.map (·.block))).Nodup)
    (i : UTXOIndex) (tipHash : Str) : ∃ i', i.saveTipSpends tipHash (chain.map (·.block)) = .ok i' :=
  ⟨_, saveTipSpends_eq_ok.mpr ⟨_, branchSpends_of_txids h.built.txids, fun _ hspend => h.bindSpend hspend tipHash,
    by rwa [outpoints_chainSpends], rfl⟩⟩

end Replayed

omit [Ed25519] in
theorem consumed_nodup {i i' : UTXOIndex} {tipHash : Str} {blocks : List ConsensusBlock}
    (h : i.saveTipSpends tipHash blocks = .ok i') : (consumed blocks).Nodup := by
  obtain ⟨spends, hspends, -, hn, -⟩ := saveTipSpends_eq_ok.mp h
  rwa [branchSpends_eq hspends, outpoints_chainSpends] at hn

/-! ## The writes of the index -/

/-- The index has room for the branch of a hash and for the active branch. -/
def ChainsFit (f : ForkChoice) (store : ForkStore) (hash : Str) : Prop :=
  ∀ a, f.chainToTip store hash = .ok a ∨ f.activeChain store = .ok a → Indexable a

theorem indexWritten_iff {f : ForkChoice} {store : ForkStore} (hok : StoreOk f store) {hash : Str}
    (hmem : hash ∈ store.blocks.map (·.hash)) {a : ActiveChain} (ha : f.activeChain store = .ok a) (i : UTXOIndex) :
    (∃ i', IndexWritten f store hash a i i') ↔ ChainsFit f store hash := by
  obtain ⟨r, hr, rfl⟩ := List.mem_map.mp hmem
  obtain ⟨chain, s, hb, hs⟩ := hok.branch r hr
  have himported := hok.chainToTip hb hs
  have hreplayed : Replayed f store r chain s := ⟨hb, hs⟩
  obtain ⟨tip, chain', hfirst, hactive, hblocks⟩ : ∃ tip chain', Table.first BlockRow.better store.blocks = some tip ∧
      Replayed f store tip chain' a.state ∧ a.blocks = chain'.map (·.block) := by
    rcases hok.activeChain_eq_ok ha with ⟨hnil, -⟩ | ⟨tip, chain', hfirst, hb', hs', he⟩
    · exact absurd (hnil ▸ hr) List.not_mem_nil
    · exact ⟨tip, chain', hfirst, ⟨hb', hs'⟩, by rw [he]⟩
  constructor
  · rintro ⟨i', imported, _, _, _, _, _, himp, h₁, h₂, -, -, h₃, h₄⟩ a' (ha' | ha')
    · rw [himported, Except.ok.injEq] at himp ha'
      subst himp ha'
      exact ⟨hreplayed.bindable_iff.mp (saveTipSnapshot_eq_ok.mp h₁).1, consumed_nodup h₂⟩
    · rw [ha, Except.ok.injEq] at ha'
      subst ha'
      exact ⟨hactive.bindable_iff.mp (saveSnapshot_eq_ok.mp h₃).1, consumed_nodup h₄⟩
  · intro h
    have himp := h _ (.inl himported)
    have hact := h _ (.inr ha)
    obtain ⟨b, hrow, -, hlast⟩ := hactive.branch.last
    obtain ⟨i₂, h₂⟩ := hreplayed.saveTipSpends_returns himp.spends (withSnapshot i r.hash s.utxos) r.hash
    obtain ⟨i₄, h₄⟩ := hactive.saveTipSpends_returns (hblocks ▸ hact.spends)
      { withSnapshot i₂ tip.hash a.state.utxos with utxos := utxoRows a.state.utxos, activeTip := some tip.hash } tip.hash
    have htip : a.tip = some b := by rw [ActiveChain.tip, hblocks, hlast]
    exact ⟨i₄, _, b, tip.hash, _, i₂, _, himported, saveTipSnapshot_eq_ok.mpr ⟨hreplayed.bindable_iff.mpr himp.amounts, rfl⟩,
      h₂, htip, hrow.hash, saveSnapshot_eq_ok.mpr ⟨hactive.bindable_iff.mpr hact.amounts, rfl⟩, hblocks ▸ h₄⟩

theorem writeIndexes_of_written {n : ConsensusNode} {a : ActiveChain} {stored : StoredConsensusBlock} {hash : Str}
    {index : UTXOIndex} (hhash : stored.block.hash = .ok hash)
    (hw : IndexWritten n.forkChoice n.disk.store hash a n.disk.utxoIndex index) :
    (ConsensusNode.writeIndexes a stored).call n = (.ok (), { n with disk := { n.disk with utxoIndex := index } }) := by
  obtain ⟨imported, tip, activeHash, i₁, i₂, i₃, himp, h₁, h₂, htip, hact, h₃, h₄⟩ := hw
  simp only [ConsensusNode.writeIndexes, Method.call_bind_eq_ok, Method.call_reading_eq_ok, writeIndex_call, hhash,
    Except.ok.injEq, htip]
  exact ⟨_, _, ⟨rfl, rfl⟩, imported, _, ⟨himp, rfl⟩, (), _, ⟨i₁, h₁, rfl⟩, (), _, ⟨i₂, h₂, rfl⟩, activeHash, _, ⟨hact, rfl⟩,
    (), _, ⟨i₃, h₃, rfl⟩, index, h₄, rfl⟩

omit [Ed25519] in
theorem detectReorg_returns {old new : Option ConsensusBlock} (hold : ∀ b, old = some b → ∃ hash, b.hash = .ok hash)
    (hnew : ∀ b, new = some b → ∃ hash, b.hash = .ok hash) : ∃ reorg, ConsensusNode.detectReorg old new = .ok reorg := by
  unfold ConsensusNode.detectReorg
  split
  · rename_i b b'
    obtain ⟨hash, hhash⟩ := hold b rfl
    obtain ⟨hash', hhash'⟩ := hnew b' rfl
    rw [hhash, ok_bind, hhash', ok_bind]
    split
    · exact ⟨_, rfl⟩
    · split <;> exact ⟨_, rfl⟩
  · exact ⟨none, rfl⟩

theorem StoreOk.bestTip_hash {f : ForkChoice} {store : ForkStore} (h : StoreOk f store) {oldTip : Option StoredConsensusBlock}
    (htip : store.bestTip = .ok oldTip) : ∀ b, oldTip.map (·.block) = some b → ∃ hash, b.hash = .ok hash := by
  intro b hb
  cases hf : Table.first BlockRow.better store.blocks with
  | none =>
    rw [StoreOk.bestTip_of_nil (Table.first_eq_none.mp hf), Except.ok.injEq] at htip
    subst htip
    cases hb
  | some r =>
    obtain ⟨b', hrow, hbest⟩ := h.bestTip hf
    rw [hbest, Except.ok.injEq] at htip
    subst htip
    cases hb
    exact ⟨_, hrow.hash⟩

theorem StoreOk.tip_hash {f : ForkChoice} {store : ForkStore} (h : StoreOk f store) {a : ActiveChain}
    (ha : f.activeChain store = .ok a) : ∀ b, a.tip = some b → ∃ hash, b.hash = .ok hash := by
  intro b hb
  rcases h.activeChain_eq_ok ha with ⟨-, hnil, -⟩ | ⟨r, chain, -, hbranch, -, he⟩
  · rw [ActiveChain.tip, hnil] at hb
    cases hb
  · obtain ⟨b', hrow, -, hlast⟩ := hbranch.last
    rw [ActiveChain.tip, he, hlast, Option.some.injEq] at hb
    exact ⟨_, hb ▸ hrow.hash⟩

section Activate

variable {n : ConsensusNode} {b : ConsensusBlock} {hash : Str} {oldTip : Option StoredConsensusBlock}
  {stored : StoredConsensusBlock} {store : ForkStore}

/-- Once a block is stored, `import_block` returns exactly when the index has room for its branch and for the
active one. -/
theorem activate_returns_iff (h : NodeOk n) (hhash : b.hash = .ok hash) (htip : n.disk.store.bestTip = .ok oldTip)
    (hc : ∃ chain s, Candidate n.forkChoice n.disk.store b chain s)
    (hst : Stores n.forkChoice n.disk.store b hash stored store) :
    (∃ n', (ConsensusNode.activate oldTip b stored).call (withStore n store) = (.ok (), n')) ↔
      ChainsFit n.forkChoice store hash := by
  have hok := hst.storeOk h.store hhash
  have hmem := hst.mem h.store hhash
  obtain ⟨a, ha⟩ := hok.exists_activeChain h.params.2.2
  obtain ⟨chain, s, hc⟩ := hc
  obtain ⟨reorg, hreorg⟩ := detectReorg_returns (h.store.bestTip_hash htip) (hok.tip_hash ha)
  rw [← indexWritten_iff hok hmem.1 ha n.disk.utxoIndex]
  constructor
  · rintro ⟨n', hact⟩
    obtain ⟨a', _, index, ha', -, hindex, -⟩ := activate_returns h hhash ⟨chain, s, hc⟩ hst hact
    rw [ha', Except.ok.injEq] at ha
    exact ⟨index, ha ▸ hindex⟩
  · rintro ⟨index, hindex⟩
    have hactive : (ConsensusNode.activate oldTip b stored).call (withStore n store) = _ :=
      (Method.call_bind_of_ok (a := a) (congrArg (·, _) ha)).trans <| (Method.call_bind_of_ok (Method.call_modify _ _)).trans <|
        (Method.call_bind_of_ok (congrArg (·, _) hreorg)).trans <| (Method.call_bind_of_ok (Method.call_modify _ _)).trans <|
          (Method.call_bind_of_ok (writeIndexes_of_written hmem.2 hindex)).trans (dropIncluded_call h.mempool hc.txids)
    exact ⟨_, hactive⟩

end Activate

/-! ## All or nothing -/

/-- Everything is as it was, except that the hash of `b` may have been cached as invalid. -/
structure Unchanged (b : ConsensusBlock) (n n' : ConsensusNode) : Prop where
  store : n'.disk.store = n.disk.store
  state : n'.state = n.state
  mempool : n'.mempool = n.mempool
  mempoolStore : n'.disk.mempoolStore = n.disk.mempoolStore
  utxoIndex : n'.disk.utxoIndex = n.disk.utxoIndex
  invalidBlocks : n'.disk.invalidBlocks = n.disk.invalidBlocks ∨ ∃ hash reason, b.hash = .ok hash ∧
    n'.disk.invalidBlocks = n.disk.invalidBlocks.markInvalid hash reason

/-- When `import_block` raises, nothing has changed. -/
def AllOrNothing (n : ConsensusNode) (b : ConsensusBlock) : Prop :=
  ∀ e n', (ConsensusNode.importBlock b).call n = (.error e, n') → Unchanged b n n'

/-- If the block is stored, the index has room for its branch and for the one that is then active. -/
def IndexHasRoom (n : ConsensusNode) (b : ConsensusBlock) : Prop :=
  ∀ hash stored store, b.hash = .ok hash → n.disk.invalidBlocks.isInvalid hash = false →
    n.validateImportCandidate b = .ok () → n.disk.store.putBlock b = .ok (stored, store) → ChainsFit n.forkChoice store hash

theorem storeCandidate_call {n : ConsensusNode} {b : ConsensusBlock} {stored : StoredConsensusBlock} {store : ForkStore} :
    (ConsensusNode.storeCandidate b).call n = (.ok stored, withStore n store) ↔
      n.validateImportCandidate b = .ok () ∧ n.disk.store.putBlock b = .ok (stored, store) := by
  rw [ConsensusNode.storeCandidate, Method.call_assigning_eq_ok]
  simp only [bind_eq_ok, exists_unit, pure_eq_ok, Prod.mk.injEq, Prod.exists]
  constructor
  · rintro ⟨hvalid, _, store', hput, rfl, hstore⟩
    cases hstore
    exact ⟨hvalid, hput⟩
  · rintro ⟨hvalid, hput⟩
    exact ⟨hvalid, stored, store, hput, rfl, rfl⟩

/-- From every state a node comes to, a call of `import_block` that raises changes nothing, if there is room for
the block; and if there is none for a new block, a call does. -/
theorem importBlock_atomic_iff (calls : List Call) (n : ConsensusNode) (hn : World.after calls = .up n) :
    (∀ b, IndexHasRoom n b → AllOrNothing n b) ∧
      ∀ b hash, b.hash = .ok hash → n.disk.store.hasBlock hash = false → AllOrNothing n b → IndexHasRoom n b := by
  have h := nodeOk_after hn
  constructor
  · intro b hroom e n' hcall
    have hi := importBlock_cases h b
    rw [hcall] at hi
    generalize hr : (Except.error e : Except PyError StoredConsensusBlock) = r at hi
    cases hi with
    | refused => exact ⟨rfl, rfl, rfl, rfl, rfl, .inl rfl⟩
    | @rejected hash e hhash => exact ⟨rfl, rfl, rfl, rfl, rfl, .inr ⟨hash, e.message, hhash, rfl⟩⟩
    | @stored hash oldTip stored n₁ n₂ r' hhash hcache htip hst hact =>
      obtain ⟨store, hcand, hstores, rfl⟩ := (storeCandidate_eq_ok h hhash).mp hst
      obtain ⟨hvalid, hput⟩ := storeCandidate_call.mp hst
      have hfit := hroom hash stored store hhash hcache hvalid hput
      obtain ⟨n₃, hreturns⟩ := (activate_returns_iff h hhash htip hcand hstores).mpr hfit
      rw [hact, Prod.mk.injEq] at hreturns
      rw [hreturns.1] at hr
      cases hr
  · intro b hash hhash hnew hatomic hash' stored store hhash' hcache hvalid hput
    have hst := storeCandidate_call.mpr ⟨hvalid, hput⟩
    obtain ⟨_, hcand, hstores, hsame⟩ := (storeCandidate_eq_ok h hhash').mp hst
    obtain rfl : store = _ := congrArg (·.disk.store) hsame
    generalize hcall : (ConsensusNode.importBlock b).call n = result at hatomic
    have hi := importBlock_cases h b
    rw [hcall] at hi
    cases hi with
    | refused hc => rw [hc hash' hhash'] at hcache; cases hcache
    | rejected _ _ hst' => rw [hst] at hst'; cases hst'
    | @stored _ oldTip stored' n₁ n₂ r' _ _ htip hst' hact =>
      rw [hst, Prod.mk.injEq, Except.ok.injEq] at hst'
      obtain ⟨rfl, rfl⟩ := hst'
      cases r' with
      | ok u => exact (activate_returns_iff h hhash' htip hcand hstores).mp ⟨n₂, hact⟩
      | error e =>
        -- The block stays in the store, where it was not before.
        have hstore : n₂.disk.store = store := by
          have hsame := (activate_sameChain oldTip b stored (withStore n store) ⟨rfl, rfl, rfl, rfl⟩).snd
          rw [hact] at hsame
          exact hsame.store
        have hmem := (hstores.mem h.store hhash').1
        rw [← hstore, (hatomic e n₂ hcall).store] at hmem
        rw [hhash, Except.ok.injEq] at hhash'
        rw [ForkStore.hasBlock, ← Bool.not_eq_true, Table.isSome_lookup, hhash'] at hnew
        exact absurd hmem hnew

/-- A call that raises leaves another fork store. -/
def leavesStore (world : World) (b : ConsensusBlock) : Bool :=
  match world with
  | .down _ => false
  | .up n =>
    match (ConsensusNode.importBlock b).call n with
    | (.ok _, _) => false
    | (.error _, n') => n'.disk.store ≠ n.disk.store

theorem not_allOrNothing_of_leavesStore {world : World} {b : ConsensusBlock} (h : leavesStore world b = true) :
    ∃ n, world = .up n ∧ ¬ AllOrNothing n b := by
  cases world with
  | down d => cases h
  | up n =>
    refine ⟨n, rfl, fun hatomic => ?_⟩
    rw [leavesStore] at h
    split at h
    · cases h
    · rename_i e n' hcall
      exact of_decide_eq_true h (hatomic e n' hcall).store

omit [Ed25519]

theorem importBlock_atomic_genesisNode :
    let _ := aliceVerify
    (∀ b, IndexHasRoom genesisNode b → AllOrNothing genesisNode b) ∧ ∀ b hash, b.hash = .ok hash →
      genesisNode.disk.store.hasBlock hash = false → AllOrNothing genesisNode b → IndexHasRoom genesisNode b := by
  intro _
  exact importBlock_atomic_iff _ genesisNode created_genesisNode

/-! ## An outpoint that is consumed twice -/

/-- After the twin block, which makes the genesis output again once it is spent, a block that spends it again. -/
def rivalBlock : ConsensusBlock where
  height := 2
  previousHash := hexEncode
    [155, 227, 78, 64, 56, 240, 65, 186, 56, 241, 121, 193, 254, 116, 8, 196, 249, 132, 242, 107, 2, 185, 224, 193, 64,
      225, 248, 183, 89, 42, 253, 202]
  transactions := [aliceCoinbase (-2) 54, rivalPayment]
  difficulty := 0
  timestamp := 0
  transactionRoot := hexEncode
    [129, 208, 104, 142, 14, 167, 26, 196, 106, 3, 104, 27, 27, 161, 198, 129, 238, 22, 62, 110, 218, 247, 18, 122, 133,
      65, 210, 183, 194, 232, 240, 54]

/-- An outpoint is spent twice on one branch: the call raises, and the block is in the store. -/
theorem rivalBlock_not_atomic :
    let _ := aliceSigned [payment, rivalPayment]
    ∃ n, World.after [.create [(aliceAddress, 10)] ⟨0, 50, 1000⟩ 0 1, .importBlock twinBlock] = .up n ∧
      ¬ AllOrNothing n rivalBlock := by
  intro _
  exact not_allOrNothing_of_leavesStore (by decide +kernel)

end BCC.Proof
