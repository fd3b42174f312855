import BlockchainCoin.Proof.Chain

/-!
# Outpoints along a chain

Nothing ties the contents of a coinbase to the height of its block, and
`UTXOSet.add` refuses only an outpoint that is unspent now. So a coinbase can
return once its outputs are spent, and with it every outpoint it created
(`coinbase_returns`). It is the only way: a chain whose coinbases are distinct
creates and consumes every outpoint at most once (`lives_once_iff`), because
another transaction that came back would have to spend again what its first
life consumed (`Ledger.Run.once_of_empty`).
-/

namespace BCC.Proof

open BCC.Impl BCC.Ledger BlockProcessor

/-- The transactions of a chain, in chain order. -/
def chainTransactions (blocks : List ConsensusBlock) : List ConsensusTransaction :=
  blocks.flatMap (·.transactions)

/-- The outpoints `(txid, index)` a chain creates, once for each time it does. -/
def createdOutpoints (blocks : List ConsensusBlock) : List OutPoint :=
  (chainTransactions blocks).flatMap fun t => (createdFrom (txidOf t) 0 t.outputs).map Prod.fst

/-- The outpoints the inputs of a chain that are not coinbase inputs consume. -/
def consumedOutpoints (blocks : List ConsensusBlock) : List OutPoint :=
  (chainTransactions blocks).flatMap spentBy

/-- The coinbase transactions of a chain. -/
def coinbases (blocks : List ConsensusBlock) : List ConsensusTransaction :=
  (chainTransactions blocks).filter (·.isCoinbase)

/-- No transaction id occurs twice, and no outpoint is created or consumed twice. -/
structure OneLife (blocks : List ConsensusBlock) : Prop where
  txids : ((chainTransactions blocks).map txidOf).Nodup
  created : (createdOutpoints blocks).Nodup
  consumed : (consumedOutpoints blocks).Nodup

theorem appliedOrder_perm (b : ConsensusBlock) : (appliedOrder b).Perm b.transactions := by
  unfold appliedOrder
  cases b.transactions with
  | nil => exact .nil
  | cons c rest => exact List.perm_append_comm

theorem flatMap_appliedOrder_perm (blocks : List ConsensusBlock) :
    (blocks.flatMap appliedOrder).Perm (chainTransactions blocks) :=
  List.Perm.flatMap_left blocks fun b _ => appliedOrder_perm b

variable [Ed25519]

theorem Replays.run {s s' : ConsensusState} {h : Int} {p : Str} {bs : List ConsensusBlock} {fs : List Int}
    (hr : Replays s h p bs fs s') : Run chainRules s.utxos (bs.flatMap appliedOrder) s'.utxos := by
  induction hr with
  | nil => exact .nil _
  | cons ha _ _ ih => exact (validateCandidate_run (applyBlock_eq_ok.mp ha)).append ih

/-- In an accepted chain every transaction has a txid, and only coinbases consume nothing. -/
theorem Run.transactions {u u' : UTXOSet} {ts : List ConsensusTransaction} (hr : Run chainRules u ts u') :
    ∀ t ∈ ts, t.txid = .ok (txidOf t) ∧ ((spentBy t).isEmpty = true ↔ t.isCoinbase = true) := by
  intro t ht
  obtain ⟨n, hg⟩ := hr.guarded t ht
  refine ⟨hg.txid_eq, ?_⟩
  cases hc : t.isCoinbase with
  | true => simp [spentBy, hc]
  | false => simp [spentBy_of_not_coinbase hc, hg.inputs_ne hc]

/-- Accepted transactions are entries of the ledger that carry their txid as their identity. -/
theorem Run.identified {u u' : UTXOSet} {ts : List ConsensusTransaction} (hr : Run chainRules u ts u')
    (hinj : ∀ t ∈ ts, ∀ t' ∈ ts, t.txid = t'.txid → t = t') :
    Identified chainRules txidOf OutPoint.txid ts where
  owner _ _ _ hk := txid_of_mem_createdFrom hk
  ins t ht t' ht' he := by
    have htx := (Run.transactions hr t ht).1
    have htx' := (Run.transactions hr t' ht').1
    rw [hinj t ht t' ht' (by rw [htx, htx', he])]

/-- Outpoints have one life along an accepted chain exactly when its coinbases are distinct. -/
theorem lives_once_iff (blocks : List ConsensusBlock) (subsidy maxMoney : Int) (s : ConsensusState)
    (h : rebuildStateFromBlocks blocks subsidy maxMoney = .ok s)
    (hinj : ∀ t ∈ chainTransactions blocks, ∀ t' ∈ chainTransactions blocks, t.txid = t'.txid → t = t') :
    OneLife blocks ↔ (coinbases blocks).Nodup := by
  obtain ⟨s₀, fees, hinit, hr⟩ := rebuildStateFromBlocks_eq_ok.mp h
  have hrun := hr.run
  rw [(init_eq_ok hinit).1] at hrun
  have hperm := flatMap_appliedOrder_perm blocks
  constructor
  · intro hone
    exact (hone.txids.of_map _).filter _
  · intro hcb
    have hinj' : ∀ t ∈ blocks.flatMap appliedOrder, ∀ t' ∈ blocks.flatMap appliedOrder,
        t.txid = t'.txid → t = t' := fun t ht t' ht' => hinj t (hperm.subset ht) t' (hperm.subset ht')
    have hsrc : ((sources chainRules (blocks.flatMap appliedOrder)).map txidOf).Nodup := by
      have hfilter : sources chainRules (blocks.flatMap appliedOrder) =
          (blocks.flatMap appliedOrder).filter (·.isCoinbase) :=
        List.filter_congr fun t ht => Bool.eq_iff_iff.mpr (Run.transactions hrun t ht).2
      rw [hfilter]
      refine List.Nodup.map_on (fun t ht t' ht' he => ?_) ((hperm.filter _).nodup_iff.mpr hcb)
      have ht := (List.mem_filter.mp ht).1
      have ht' := (List.mem_filter.mp ht').1
      exact hinj' t ht t' ht' (by
        rw [(Run.transactions hrun t ht).1, (Run.transactions hrun t' ht').1, he])
    have hone := hrun.once_of_empty (Run.identified hrun hinj') hsrc
    exact ⟨(hperm.map _).nodup_iff.mp hone.ids, (hperm.flatMap_right _).nodup_iff.mp hone.created,
      (hperm.flatMap_right _).nodup_iff.mp hone.consumed⟩

/-! ## A coinbase that returns -/

omit [Ed25519]

/-- The transactions of Alice's chains have distinct txids. -/
theorem txid_sample_inj : ∀ t ∈ [aliceCoinbase (-1) 10, aliceCoinbase (-2) 53, payment],
    ∀ t' ∈ [aliceCoinbase (-1) 10, aliceCoinbase (-2) 53, payment], t.txid = t'.txid → t = t' := by
  have hn : ([aliceCoinbase (-1) 10, aliceCoinbase (-2) 53, payment].map (·.txid)).Nodup := by
    rw [txids_sample]
    decide
  exact fun t ht t' ht' => List.inj_on_of_nodup_map hn ht ht'

/-- A block that spends the genesis output and holds the genesis coinbase as its own. -/
def twinBlock : ConsensusBlock where
  height := 1
  previousHash := genesisHash
  transactions := [aliceCoinbase (-1) 10, payment]
  difficulty := 0
  timestamp := 0
  transactionRoot := hexEncode
    [21, 122, 78, 164, 207, 107, 50, 113, 41, 30, 5, 131, 243, 178, 64, 251, 99, 37, 44, 114, 0, 175, 71,
     69, 9, 232, 79, 211, 12, 153, 114, 80]

def afterTwin : ConsensusState :=
  { afterGenesis with
    utxos := ((∅ : UTXOSet).insert ⟨paymentTxid, 0⟩ ⟨7, aliceAddress⟩).insert ⟨genesisTxid, 0⟩ ⟨10, aliceAddress⟩ }

theorem applyBlock_twinBlock :
    (@applyBlock aliceVerify twinBlock 1 genesisHash).call afterGenesis = (.ok 3, afterTwin) := by
  decide +kernel

/-- A chain of two blocks creates the outpoint of the genesis output twice. -/
theorem coinbase_returns :
    @rebuildStateFromBlocks aliceVerify [genesisBlock, twinBlock] 50 1000 = .ok afterTwin ∧
    (∀ t ∈ chainTransactions [genesisBlock, twinBlock], ∀ t' ∈ chainTransactions [genesisBlock, twinBlock],
      t.txid = t'.txid → t = t') ∧
    ¬ ((chainTransactions [genesisBlock, twinBlock]).map txidOf).Nodup ∧
    ¬ (createdOutpoints [genesisBlock, twinBlock]).Nodup := by
  have hsub : chainTransactions [genesisBlock, twinBlock] ⊆
      [aliceCoinbase (-1) 10, aliceCoinbase (-2) 53, payment] := by
    simp [chainTransactions, genesisBlock, twinBlock]
  refine ⟨rebuild_genesisBlock applyBlock_twinBlock,
    fun t ht t' ht' => txid_sample_inj t (hsub ht) t' (hsub ht'), ?_, ?_⟩
  · simp [chainTransactions, genesisBlock, twinBlock]
  · simp [createdOutpoints, chainTransactions, genesisBlock, twinBlock, aliceCoinbase, createdFrom]

/-- On the chain whose second coinbase is a new one every outpoint has one life. -/
theorem lives_once_paymentBlock : OneLife [genesisBlock, paymentBlock] := by
  refine (@lives_once_iff aliceVerify [genesisBlock, paymentBlock] 50 1000 afterPayment
    (rebuild_genesisBlock applyBlock_paymentBlock) txid_sample_inj).mpr ?_
  decide

end BCC.Proof
