import BlockchainCoin.Proof.Node

/-!
# Blocks that are imported

`import_block` and `mine_block` taken apart when they return: `Activates` has the
block stored, the active chain recomputed, the four writes of the UTXO index done
and the mempool filtered. When they raise, the mempool and its store are as they
were (`importBlock_pool`).
-/

namespace BCC.Proof

open BCC.Impl BlockProcessor

variable [Ed25519]

/-- The four writes of `import_block` to the UTXO index: the branch of the imported block, then the active
one. -/
def IndexWritten (f : ForkChoice) (store : ForkStore) (hash : Str) (a : ActiveChain) (index index' : UTXOIndex) :
    Prop :=
  ∃ imported tip activeHash i₁ i₂ i₃, f.chainToTip store hash = .ok imported ∧
    index.saveTipSnapshot hash imported.state.utxos = .ok i₁ ∧ i₁.saveTipSpends hash imported.blocks = .ok i₂ ∧
    a.tip = some tip ∧ tip.hash = .ok activeHash ∧
    i₂.saveSnapshot activeHash a.state.utxos = .ok i₃ ∧ i₃.saveTipSpends activeHash a.blocks = .ok index'

/-- What is left of the mempool after a block, on the state `s`. -/
def mempoolAfter (n : ConsensusNode) (s : ConsensusState) (b : ConsensusBlock) : List ConsensusTransaction :=
  keepValid n.mempoolPolicy s [] (n.mempool.filter fun t => txidOf t ∉ b.transactions.map txidOf)

/-- What `import_block` has done when it returns. -/
structure Activates (n : ConsensusNode) (b : ConsensusBlock) (stored : StoredConsensusBlock) (n' : ConsensusNode)
    (hash : Str) (store : ForkStore) (a : ActiveChain) : Prop where
  hash_eq : b.hash = .ok hash
  notCached : n.disk.invalidBlocks.isInvalid hash = false
  candidate : ∃ chain s, Candidate n.forkChoice n.disk.store b chain s
  stores : Stores n.forkChoice n.disk.store b hash stored store
  active : n.forkChoice.activeChain store = .ok a
  index : IndexWritten n.forkChoice store hash a n.disk.utxoIndex n'.disk.utxoIndex
  node : n' = { n with
    disk := { n.disk with
      store := store
      utxoIndex := n'.disk.utxoIndex
      mempoolStore := ⟨(mempoolAfter n a.state b).map rowOf⟩ }
    state := a.state
    mempool := mempoolAfter n a.state b
    lastReorg := n'.lastReorg }

omit [Ed25519] in
theorem writeIndex_call {n n' : ConsensusNode} {write : UTXOIndex → Except PyError UTXOIndex} {u : Unit} :
    (ConsensusNode.writeIndex write).call n = (.ok u, n') ↔ ∃ index, write n.disk.utxoIndex = .ok index ∧
      n' = { n with disk := { n.disk with utxoIndex := index } } := by
  rw [ConsensusNode.writeIndex, Method.call_assigning_eq_ok]
  simp only [bind_eq_ok, pure_eq_ok, Prod.mk.injEq]
  constructor
  · rintro ⟨index, hw, -, rfl⟩
    exact ⟨index, hw, rfl⟩
  · rintro ⟨index, hw, rfl⟩
    exact ⟨index, hw, trivial, rfl⟩

theorem writeIndexes_call {n n' : ConsensusNode} {a : ActiveChain} {stored : StoredConsensusBlock} {hash : Str} {u : Unit}
    (hhash : stored.block.hash = .ok hash) (h : (ConsensusNode.writeIndexes a stored).call n = (.ok u, n')) :
    ∃ index, IndexWritten n.forkChoice n.disk.store hash a n.disk.utxoIndex index ∧
      n' = { n with disk := { n.disk with utxoIndex := index } } := by
  simp only [ConsensusNode.writeIndexes, Method.call_bind_eq_ok, Method.call_reading_eq_ok, writeIndex_call, hhash,
    Except.ok.injEq] at h
  obtain ⟨_, _, ⟨rfl, rfl, rfl⟩, imported, _, ⟨himp, rfl⟩, _, _, ⟨i₁, h₁, rfl⟩, _, _, ⟨i₂, h₂, rfl⟩, activeHash, _,
    ⟨hact, rfl⟩, _, _, ⟨i₃, h₃, rfl⟩, i₄, h₄, rfl⟩ := h
  cases htip : a.tip with
  | none => rw [htip] at hact; cases hact
  | some tip =>
    rw [htip] at hact
    exact ⟨i₄, ⟨imported, tip, activeHash, i₁, i₂, i₃, himp, h₁, h₂, htip, hact, h₃, h₄⟩, rfl⟩

/-- What activating a branch did, if it returned. -/
theorem activate_returns {n n' : ConsensusNode} (h : NodeOk n) {b : ConsensusBlock} {hash : Str}
    {oldTip : Option StoredConsensusBlock} {stored : StoredConsensusBlock} {store : ForkStore} {u : Unit}
    (hhash : b.hash = .ok hash) (hc : ∃ chain s, Candidate n.forkChoice n.disk.store b chain s)
    (hst : Stores n.forkChoice n.disk.store b hash stored store)
    (hact : (ConsensusNode.activate oldTip b stored).call (withStore n store) = (.ok u, n')) :
    ∃ a reorg index, n.forkChoice.activeChain store = .ok a ∧
      ConsensusNode.detectReorg (oldTip.map (·.block)) a.tip = .ok reorg ∧
      IndexWritten n.forkChoice store hash a n.disk.utxoIndex index ∧
      n' = { n with
        disk := { n.disk with
          store := store
          utxoIndex := index
          mempoolStore := ⟨(mempoolAfter n a.state b).map rowOf⟩ }
        state := a.state
        mempool := mempoolAfter n a.state b
        lastReorg := reorg } := by
  simp only [ConsensusNode.activate, Method.call_bind_eq_ok, Method.call_reading_eq_ok, Method.call_modify, Prod.mk.injEq,
    true_and] at hact
  obtain ⟨a, _, ⟨ha, rfl⟩, _, _, rfl, reorg, _, ⟨hreorg, rfl⟩, _, _, rfl, _, n₃, hw, hdrop⟩ := hact
  obtain ⟨index, hindex, rfl⟩ := writeIndexes_call (hst.mem h.store hhash).2 hw
  obtain ⟨chain, s, hc⟩ := hc
  rw [dropIncluded_call (by exact h.mempool) hc.txids, Prod.mk.injEq] at hdrop
  obtain ⟨-, rfl⟩ := hdrop
  exact ⟨a, reorg, index, ha, hreorg, hindex, rfl⟩

/-- What `import_block` did, if it returned. -/
theorem importBlock_returns {n n' : ConsensusNode} (h : NodeOk n) {b : ConsensusBlock} {stored : StoredConsensusBlock}
    (hcall : (ConsensusNode.importBlock b).call n = (.ok stored, n')) :
    ∃ hash store a, Activates n b stored n' hash store a := by
  have hi := importBlock_cases h b
  rw [hcall] at hi
  generalize hr : (Except.ok stored : Except PyError StoredConsensusBlock) = r at hi
  cases hi with
  | refused => cases hr
  | rejected => cases hr
  | @stored hash oldTip stored' n₁ n₂ r' hhash hcache htip hst hact =>
    cases r' with
    | error e => cases hr
    | ok u =>
      cases hr
      obtain ⟨store, hcand, hstores, rfl⟩ := (storeCandidate_eq_ok h hhash).mp hst
      obtain ⟨a, reorg, index, ha, -, hindex, rfl⟩ := activate_returns h hhash hcand hstores hact
      exact ⟨hash, store, a, hhash, hcache, hcand, hstores, ha, hindex, rfl⟩

/-! ## Blocks that are not imported -/

/-- The mempool, its store and the difficulty are the same. -/
structure SamePool (n n' : ConsensusNode) : Prop where
  mempool : n'.mempool = n.mempool
  mempoolStore : n'.disk.mempoolStore = n.disk.mempoolStore
  difficulty : n'.difficulty = n.difficulty

theorem writeIndexes_samePool {n : ConsensusNode} (a : ActiveChain) (stored : StoredConsensusBlock) :
    Method.Preserves (SamePool n) (ConsensusNode.writeIndexes a stored) := by
  have hwrite : ∀ write, Method.Preserves (SamePool n) (ConsensusNode.writeIndex write) := fun write =>
    .assigning fun {m u m'} h hw => by
      simp only [bind_eq_ok, pure_eq_ok, Prod.mk.injEq] at hw
      obtain ⟨index, -, -, rfl⟩ := hw
      exact ⟨h.mempool, h.mempoolStore, h.difficulty⟩
  refine .bind (.reading _) fun storedHash => .bind (.reading _) fun imported => .bind (hwrite _) fun _ => ?_
  exact .bind (hwrite _) fun _ => .bind (.reading _) fun activeHash => .bind (hwrite _) fun _ => hwrite _

/-- When `import_block` raises, the mempool has not been touched: its filtering cannot fail. -/
theorem importBlock_samePool {n n' : ConsensusNode} (h : NodeOk n) {b : ConsensusBlock} {e : PyError}
    (hcall : (ConsensusNode.importBlock b).call n = (.error e, n')) : SamePool n n' := by
  have hi := importBlock_cases h b
  rw [hcall] at hi
  generalize hr : (Except.error e : Except PyError StoredConsensusBlock) = r at hi
  cases hi with
  | refused => exact ⟨rfl, rfl, rfl⟩
  | rejected => exact ⟨rfl, rfl, rfl⟩
  | @stored hash oldTip stored n₁ n₂ r' hhash hcache htip hst hact =>
    cases r' with
    | ok u => cases hr
    | error e' =>
      obtain ⟨store, ⟨chain, s, hc⟩, hstores, rfl⟩ := (storeCandidate_eq_ok h hhash).mp hst
      have hbefore : SamePool n (withStore n store) := ⟨rfl, rfl, rfl⟩
      have hend : Method.Ends (ConsensusNode.activate oldTip b stored) (withStore n store) (fun _ _ => True)
          fun _ => SamePool n := by
        refine .bind (.reading (fun a _ => .bind (.modify ?_)) fun _ _ => hbefore)
        refine .bind (.reading (fun reorg _ => .bind (.modify ?_)) fun _ _ => ⟨rfl, rfl, rfl⟩)
        refine .bind ((writeIndexes_samePool (n := n) a stored _ (by exact ⟨rfl, rfl, rfl⟩)).mono (fun _ m hm => ?_) fun _ _ hm => hm)
        have hd : DistinctTxids m.mempool := by rw [hm.mempool]; exact h.mempool
        exact .of_call (dropIncluded_call hd hc.txids) trivial
      rw [Method.Ends, hact] at hend
      exact hend

end BCC.Proof
