import BlockchainCoin.Proof.Atomic

/-!
# Spent and unspent outpoints of a tip

`SQLiteUTXOIndex` keeps, for the tip of every branch, the outputs that are unspent there
and the inputs that spent the others. Along an accepted chain an outpoint is created as
often as it is consumed, and once more when it is unspent at the end
(`Ledger.Run.balance`); the primary key of `spent_outpoints` holds each outpoint of a tip
once (`spendsOnce_after`). So the two tables of a tip account for every outpoint of its
branch (`outpoints_accounted`).
-/

namespace BCC.Proof

open BCC.Impl BCC.Ledger BlockProcessor

/-! ## Rows of spent outpoints -/

theorem spentByTip_eq (i : UTXOIndex) (tipHash : Str) (o : OutPoint) :
    i.spentByTip tipHash o = Table.lookup IndexedSpend.outpoint (spendsAt i tipHash) o := by
  rw [UTXOIndex.spentByTip, spendsAt, Table.lookup, Table.lookup]
  induction i.spentOutpoints with
  | nil => rfl
  | cons r rows ih =>
    by_cases ht : r.tipHash = tipHash <;> by_cases ho : r.spend.outpoint = o <;> simp_all

/-- The spends of a tip have distinct outpoints. -/
def SpendsOnce (i : UTXOIndex) : Prop := ∀ tipHash, ((spendsAt i tipHash).map IndexedSpend.outpoint).Nodup

theorem SpendsOnce.congr {i i' : UTXOIndex} (h : SpendsOnce i) (heq : i'.spentOutpoints = i.spentOutpoints) :
    SpendsOnce i' := fun tipHash => by
  rw [spendsAt, heq]
  exact h tipHash

theorem SpendsOnce.save {i i' : UTXOIndex} (h : SpendsOnce i) {tipHash : Str} {blocks : List ConsensusBlock}
    (hsave : i.saveTipSpends tipHash blocks = .ok i') : SpendsOnce i' := by
  obtain ⟨spends, -, -, hn, rfl⟩ := saveTipSpends_eq_ok.mp hsave
  intro q
  rw [spendsAt_withSpends]
  split
  · exact hn
  · exact h q

theorem saveSnapshot_spentOutpoints {i i' : UTXOIndex} {tipHash : Str} {u : UTXOSet}
    (hsave : i.saveSnapshot tipHash u = .ok i') : i'.spentOutpoints = i.spentOutpoints := by
  obtain ⟨-, rfl⟩ := saveSnapshot_eq_ok.mp hsave
  rfl

variable [Ed25519]

theorem IndexWritten.spendsOnce {f : ForkChoice} {store : ForkStore} {hash : Str} {a : ActiveChain} {i i' : UTXOIndex}
    (hw : IndexWritten f store hash a i i') (h : SpendsOnce i) : SpendsOnce i' := by
  obtain ⟨imported, tip, activeHash, i₁, i₂, i₃, -, h₁, h₂, -, -, h₃, h₄⟩ := hw
  obtain ⟨-, rfl⟩ := saveTipSnapshot_eq_ok.mp h₁
  have hsnap : SpendsOnce (withSnapshot i hash imported.state.utxos) := h.congr rfl
  have hfirst : SpendsOnce i₂ := hsnap.save h₂
  exact (hfirst.congr (saveSnapshot_spentOutpoints h₃)).save h₄

def WorldSpendsOnce : World → Prop
  | .down disk => SpendsOnce disk.utxoIndex
  | .up node => SpendsOnce node.disk.utxoIndex

theorem openNode_spentOutpoints {d d' : Disk} (hd : DiskOk d) {p : ChainParameters} {n : ConsensusNode}
    (hcall : (ConsensusNode.openNode p).call d = (.ok n, d')) :
    n.disk.utxoIndex.spentOutpoints = d.utxoIndex.spentOutpoints := by
  obtain ⟨store, a, s, d₂, hreq, ha, -, hopen, hinit⟩ := openNode_eq_ok.mp hcall
  obtain ⟨ts, hts, hrows⟩ := hd.pool
  have hd₂ : d₂.mempoolStore = d.mempoolStore ∧ d₂.utxoIndex.spentOutpoints = d.utxoIndex.spentOutpoints := by
    rcases openState_eq_ok.mp hopen with ⟨-, -, rfl⟩ | ⟨tip, hash, indexed, -, -, -, ⟨_, -, -, -, rfl⟩ | hcase⟩
    · exact ⟨rfl, rfl⟩
    · exact ⟨rfl, rfl⟩
    · obtain ⟨-, -, index, hsave, rfl⟩ := hcase
      exact ⟨rfl, saveSnapshot_spentOutpoints hsave⟩
  obtain ⟨us, rfl⟩ := init_returns hts (hd₂.1.trans hrows) hinit
  exact hd₂.2

theorem Returned.spendsOnce {w w' : World} {call : Call} (h : Returned w call w') (hok : WorldOk w)
    (hw : WorldSpendsOnce w) : WorldSpendsOnce w' := by
  cases h with
  | create hcall =>
    obtain ⟨genesis, hash, s, hc⟩ := create_returns hok hcall
    exact SpendsOnce.congr hw (saveSnapshot_spentOutpoints hc.index)
  | openNode hcall => exact SpendsOnce.congr hw (openNode_spentOutpoints hok hcall)
  | importBlock hcall =>
    obtain ⟨hash, store, a, hact⟩ := importBlock_returns hok hcall
    exact hact.index.spendsOnce hw
  | _ => exact hw

theorem spendsOnce_after {calls : List Call} (hret : (World.down Disk.empty).AllReturn calls) :
    WorldSpendsOnce (World.after calls) :=
  after_of_allReturn (fun _ => List.nodup_nil) (fun _ hok _ _ hw hr => hr.spendsOnce hok hw) hret

/-! ## The outpoints of a branch -/

/-- The input that `spend` names: the transaction of the chain, and the place of the input in it. -/
def SpentIn (chain : List StoredConsensusBlock) (spend : IndexedSpend) : Prop :=
  ∃ t ∈ chain.flatMap (·.block.transactions), ∃ (j : Nat) (x : TxInput), t.isCoinbase = false ∧
    t.txid = .ok spend.spendingTxid ∧ t.inputs[j]? = some x ∧ spend.inputIndex = j ∧ x.previousOutput = spend.outpoint

/-- The index accounts for the outpoints of the chain to a block, with `u` unspent. -/
structure Accounts (n : ConsensusNode) (hash : Str) (chain : List StoredConsensusBlock) (u : UTXOSet) : Prop where
  chain_eq : n.disk.store.chainToTip hash = .ok chain
  snapshot_eq : n.disk.utxoIndex.loadTipSnapshot hash = .ok (some u)
  counted : ∀ o, (createdOutpoints (chain.map (·.block))).count o =
    (if o ∈ u then 1 else 0) + if n.disk.utxoIndex.isSpentAtTip hash o then 1 else 0
  spent : ∀ o spend, n.disk.utxoIndex.spentByTip hash o = some spend ↔ SpentIn chain spend ∧ spend.outpoint = o

omit [Ed25519] in
theorem mem_chainSpends {blocks : List ConsensusBlock} (h : ∀ t ∈ blocks.flatMap (·.transactions), t.txid = .ok (txidOf t))
    {spend : IndexedSpend} : spend ∈ chainSpends blocks ↔ ∃ t ∈ blocks.flatMap (·.transactions), ∃ (j : Nat) (x : TxInput),
      t.isCoinbase = false ∧ t.txid = .ok spend.spendingTxid ∧ t.inputs[j]? = some x ∧ spend.inputIndex = j ∧
      x.previousOutput = spend.outpoint := by
  rw [chainSpends, List.mem_flatMap]
  constructor
  · rintro ⟨t, ht, hspend⟩
    obtain ⟨ht, hcb⟩ := List.mem_filter.mp ht
    obtain ⟨⟨x, j⟩, hx, rfl⟩ := List.mem_map.mp hspend
    exact ⟨t, ht, j, x, by simpa using hcb, h t ht, List.mem_zipIdx_iff_getElem?.mp hx, rfl, rfl⟩
  · rintro ⟨t, ht, j, x, hcb, htxid, hx, hj, ho⟩
    rw [h t ht, Except.ok.injEq] at htxid
    refine ⟨t, List.mem_filter.mpr ⟨ht, by simp [hcb]⟩, List.mem_map.mpr ⟨(x, j), List.mem_zipIdx_iff_getElem?.mpr hx, ?_⟩⟩
    rw [ho, htxid, ← hj]

omit [Ed25519] in
theorem mem_of_sortedEntries {u u' : UTXOSet} (h : u.sortedEntries = u'.sortedEntries) (o : OutPoint) : o ∈ u ↔ o ∈ u' := by
  rw [← AList.lookup_isSome, ← AList.lookup_isSome, AList.perm_lookup (perm_of_sortedEntries h)]

/-- Along an accepted chain an outpoint is created as often as it is consumed, and once more when it is unspent. -/
theorem Built.balance {subsidy maxMoney : Int} {bs : List ConsensusBlock} {q : Str} {s : ConsensusState}
    (h : Built subsidy maxMoney bs q s) (o : OutPoint) :
    (createdOutpoints bs).count o = (consumedOutpoints bs).count o + if o ∈ s.utxos then 1 else 0 := by
  obtain ⟨s₀, fs, hinit, hr⟩ := rebuildStateFromBlocks_eq_ok.mp (built_iff.mpr ⟨q, h⟩)
  have hrun := hr.run
  rw [(init_eq_ok hinit).1] at hrun
  have hperm := flatMap_appliedOrder_perm bs
  have hcreated : (createdBy chainRules (bs.flatMap appliedOrder)).Perm (createdOutpoints bs) := hperm.flatMap_right _
  have hconsumed : (consumedBy chainRules (bs.flatMap appliedOrder)).Perm (consumedOutpoints bs) := hperm.flatMap_right _
  have hbalance := hrun.balance o
  rw [hcreated.count_eq, hconsumed.count_eq, if_neg (AList.notMem_empty o)] at hbalance
  omega

omit [Ed25519] in
theorem consumedOutpoints_eq (blocks : List ConsensusBlock) :
    consumedOutpoints blocks = (chainSpends blocks).map IndexedSpend.outpoint := by
  rw [outpoints_chainSpends, consumed, consumedOutpoints, ← chainTransactions]
  induction chainTransactions blocks with
  | nil => rfl
  | cons t ts ih => cases hc : t.isCoinbase <;> simp [spentBy, hc, ih]

omit [Ed25519] in
/-- What `spent_by_tip` finds, and how often an outpoint is recorded. -/
theorem spentByTip_of_spends {i : UTXOIndex} {tipHash : Str} {blocks : List ConsensusBlock}
    (hn : ((spendsAt i tipHash).map IndexedSpend.outpoint).Nodup) (h : spendsAt i tipHash = chainSpends blocks) (o : OutPoint) :
    (∀ spend, i.spentByTip tipHash o = some spend ↔ spend ∈ chainSpends blocks ∧ spend.outpoint = o) ∧
    (consumedOutpoints blocks).count o = if i.isSpentAtTip tipHash o then 1 else 0 := by
  refine ⟨fun spend => ?_, ?_⟩
  · rw [spentByTip_eq, Table.lookup_eq_some hn, h]
  · rw [consumedOutpoints_eq, ← h, hn.count]
    refine if_congr ?_ rfl rfl
    rw [UTXOIndex.isSpentAtTip, spentByTip_eq, Table.isSome_lookup]

/-- After every run whose calls return, the tables of a stored block account for the outpoints of its chain. -/
theorem outpoints_accounted (calls : List Call) (hret : (World.down Disk.empty).AllReturn calls) (n : ConsensusNode)
    (hn : World.after calls = .up n) (hash : Str) (hb : n.disk.store.hasBlock hash = true) :
    ∃ chain u, Accounts n hash chain u := by
  have hok := nodeOk_after hn
  have hindexed := worldIndexed_after hret
  have honce := spendsOnce_after hret
  rw [hn] at hindexed honce
  obtain ⟨r, hr, rfl⟩ := List.mem_map.mp (Table.isSome_lookup.mp hb)
  obtain ⟨chain, s, hrep, hsnap, hspends⟩ := hindexed.indexed.tips r hr
  obtain ⟨o, ho⟩ := hrep.built.exists_mem (List.map_eq_nil_iff.not.mpr hrep.branch.ne_nil)
  obtain ⟨u, hu, hentries⟩ := loadTipSnapshot_of_rows hsnap ho
  have htxids := hrep.built.txids
  have hspent := spentByTip_of_spends (honce r.hash) (branchSpends_eq hspends)
  refine ⟨chain, u, hrep.branch.chainToTip hok.store.nodup, hu, fun o => ?_, fun o spend => ?_⟩
  · have hbalance := hrep.built.balance o
    rw [(hspent o).2] at hbalance
    have hmem := mem_of_sortedEntries hentries o
    simp only [hmem]
    omega
  · rw [(hspent o).1, mem_chainSpends htxids, List.flatMap_map]
    rfl

omit [Ed25519]

theorem outpoints_accounted_payment : ∃ n, @World.after aliceVerify
      [.create [(aliceAddress, 10)] ⟨0, 50, 1000⟩ 0 1, .importBlock paymentBlock] = .up n ∧
    n.disk.utxoIndex.isSpentAtTip paymentHash ⟨genesisTxid, 0⟩ = true ∧ ∃ chain u, Accounts n paymentHash chain u := by
  have hfacts : ∀ r, (@ConsensusNode.importBlock aliceVerify paymentBlock).call genesisNode = r → r.1.isOk = true ∧
      r.2.disk.store.hasBlock paymentHash = true ∧
      r.2.disk.utxoIndex.isSpentAtTip paymentHash ⟨genesisTxid, 0⟩ = true := by
    rintro _ rfl
    decide +kernel
  let _ := aliceVerify
  rcases hcall : (ConsensusNode.importBlock paymentBlock).call genesisNode with ⟨r, n⟩
  obtain ⟨hisOk, hhas, hspent⟩ := hfacts _ hcall
  have hafter := after_importBlock created_genesisNode hcall
  refine ⟨n, hafter, hspent, outpoints_accounted _ (allReturn_snoc created_returns ?_) n hafter _ hhas⟩
  show World.returns (World.after _) _ = true
  rw [created_genesisNode, World.returns, hcall]
  exact hisOk

end BCC.Proof
