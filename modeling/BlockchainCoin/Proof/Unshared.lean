import BlockchainCoin.Proof.Relay
import BlockchainCoin.Proof.Reopen

/-!
# Inputs that no two entries share

`submit_transaction` replaces the entries that share an input with the new one, and every
other method only removes entries. So no outpoint is spent by two entries of a mempool
(`unshared_after`), and then the order of two entries of which one spends an output of the
other is the same in every list that applies (`not_swapped`).
-/

namespace BCC.Proof

open BCC.Impl BCC.Ledger

/-- No two entries spend the same outpoint. -/
def Unshared (ts : List ConsensusTransaction) : Prop :=
  ts.Pairwise fun t u => (inputOutpoints t).Disjoint (inputOutpoints u)

theorem Unshared.perm {ts us : List ConsensusTransaction} (h : Unshared ts) (hp : ts.Perm us) : Unshared us :=
  (hp.pairwise_iff fun h => h.symm).mp h

/-- The stored forms of pending transactions spend what these spend. -/
theorem unshared_stored {ts : List ConsensusTransaction} (hpending : ∀ t ∈ ts, IsPending t) :
    Unshared (ts.map storedTransaction) ↔ Unshared ts := by
  rw [Unshared, List.pairwise_map]
  refine List.Pairwise.iff_of_mem fun {t u} ht hu => ?_
  rw [inputOutpoints, inputOutpoints, (hpending t ht).names.previousOutputs, (hpending u hu).names.previousOutputs]
  rfl

/-- Rows are the rows of transactions up to their stored form. -/
theorem storedTransaction_of_rowOf {ts us : List ConsensusTransaction} (hts : DistinctTxids ts) (hus : DistinctTxids us)
    (h : (ts.map rowOf).Perm (us.map rowOf)) : (ts.map storedTransaction).Perm (us.map storedTransaction) := by
  have hdecode : ∀ {l : List ConsensusTransaction}, DistinctTxids l →
      (l.map rowOf).map decodeMempoolRow = (l.map storedTransaction).map Except.ok := fun {l} hl => by
    rw [List.map_map, List.map_map]
    exact List.map_congr_left fun t ht => decode_rowOf (hl.txid t ht)
  have hp := h.map decodeMempoolRow
  rw [hdecode hts, hdecode hus] at hp
  exact (List.map_perm_map_iff fun _ _ he => Except.ok.inj he).mp hp

/-! ## Runs -/

/-- The entries of the node, or those the store has rows of, spend nothing twice. -/
def WorldUnshared : World → Prop
  | .down disk => ∃ ts, DistinctTxids ts ∧ (∀ t ∈ ts, IsPending t) ∧ Unshared ts ∧ disk.mempoolStore = ⟨ts.map rowOf⟩
  | .up node => Unshared node.mempool

variable [Ed25519]

theorem Unshared.loaded {ts : List ConsensusTransaction} (h : Unshared ts) (hpending : ∀ t ∈ ts, IsPending t)
    (p : MempoolPolicy) (s : ConsensusState) : Unshared (loaded p s ts) := by
  obtain ⟨kept, he, hsub⟩ := keepValid_sublist p ((byTxid ts).map storedTransaction) s []
  rw [Proof.loaded, he]
  refine List.Pairwise.sublist hsub ((unshared_stored fun t ht => hpending t ?_).mpr (h.perm (byTxid_perm ts).symm))
  exact (byTxid_perm ts).subset ht

/-- What is saved of the entries of a node. -/
theorem Synced.unshared {n : ConsensusNode} (hn : NodeOk n) (hsync : Synced n) (h : Unshared n.mempool)
    {ts : List ConsensusTransaction} (hts : DistinctTxids ts) (hpending : ∀ t ∈ ts, IsPending t)
    (hrows : n.disk.mempoolStore = ⟨ts.map rowOf⟩) : Unshared ts := by
  have hperm := hsync.rows
  rw [hrows] at hperm
  rw [← unshared_stored hpending]
  exact ((unshared_stored hsync.pending).mpr h).perm (storedTransaction_of_rowOf hts hn.mempool hperm).symm

theorem Returned.unshared {w w' : World} {call : Call} (h : Returned w call w') (hok : WorldOk w) (hsync : WorldSynced w)
    (hw : WorldUnshared w) : WorldUnshared w' := by
  have hsub : ∀ {ts us : List ConsensusTransaction}, Unshared us → ts.Sublist us → Unshared ts := fun h hs => h.sublist hs
  have hkept : ∀ (p : MempoolPolicy) (s : ConsensusState) {ts : List ConsensusTransaction}, Unshared ts →
      Unshared (keepValid p s [] ts) := fun p s ts h => by
    obtain ⟨kept, he, hs⟩ := keepValid_sublist p ts s []
    rw [he]
    exact hsub h hs
  cases h with
  | create hcall =>
    obtain ⟨genesis, hash, s, hc⟩ := create_returns hok hcall
    show Unshared _
    rw [hc.mempool]
    exact .nil
  | openNode hcall =>
    obtain ⟨store, a, s, d₂, -, -, -, hopen, hinit⟩ := openNode_eq_ok.mp hcall
    obtain ⟨ts, hts, hpending, hun, hrows⟩ := hw
    have hpool : d₂.mempoolStore = ⟨ts.map rowOf⟩ := by
      rw [openState_index hopen]
      exact hrows
    obtain ⟨us, rfl⟩ := init_returns hts hpool hinit
    exact hun.loaded hpending _ _
  | close =>
    obtain ⟨ts, hts, hpending, hrows⟩ := Synced.pool hsync
    exact ⟨ts, hts, hpending, Synced.unshared hok hsync hw hts hpending hrows, hrows⟩
  | importBlock hcall =>
    obtain ⟨hash, store, a, hact⟩ := importBlock_returns hok hcall
    show Unshared _
    rw [hact.node]
    exact hkept _ _ (hsub hw List.filter_sublist)
  | submitTransaction hadm =>
    refine List.pairwise_append.mpr ⟨hsub hw hadm.sublist, List.pairwise_singleton _ _, fun u hu t ht => ?_⟩
    rw [List.mem_singleton.mp ht]
    exact hadm.disjoint u hu
  | pruneMempool => exact hkept _ _ hw
  | clearMempool => exact .nil
  | reloadMempool hts hpending hrows =>
    exact (Synced.unshared hok hsync hw hts hpending hrows).loaded hpending _ _
  | setPolicy => exact hw

theorem unshared_after {calls : List Call} (hret : (World.down Disk.empty).AllReturn calls) {n : ConsensusNode}
    (hn : World.after calls = .up n) : Unshared n.mempool := by
  have hw : WorldUnshared (World.after calls) := after_of_allReturn
    ⟨[], distinctTxids_nil, fun _ h => absurd h List.not_mem_nil, .nil, rfl⟩
    (fun _ hok hsync _ hw hr => hr.unshared hok hsync hw) hret
  rw [hn] at hw
  exact hw

/-! ## The order of entries -/

section Order

variable {s s₁ s₂ : ConsensusState} {ts ts' : List ConsensusTransaction} {fees fees' : List Int}
  {t t' : ConsensusTransaction}

theorem Entries.consumed (h : Entries s s₁ ts fees) (hun : Unshared ts) :
    (consumedBy (pricedRules s.maxMoney) (ts.zip fees)).Nodup := by
  refine List.nodup_flatMap.mpr ⟨h.run.nodup_ins, ?_⟩
  rw [← h.fst, Unshared, List.pairwise_map] at hun
  refine hun.imp_of_mem fun {e e'} he he' hd => ?_
  show (spentBy e.1).Disjoint (spentBy e'.1)
  rw [spentBy_of_not_coinbase (h.notCoinbase e he), spentBy_of_not_coinbase (h.notCoinbase e' he')]
  exact hd

/-- An entry that stands before one whose output it spends does not stand after it in another list that applies. -/
theorem not_swapped_of_spendsFrom (h : Entries s s₁ ts fees) (h' : Entries s s₂ ts' fees') (hun : Unshared ts')
    (hsub : [t, t'].Sublist ts) (hsub' : [t', t].Sublist ts') : ¬ SpendsFrom t t' := by
  obtain ⟨f, f', hpair⟩ := h.pair hsub
  obtain ⟨g', g, hpair'⟩ := h'.pair hsub'
  have hmem : (t, f) ∈ ts.zip fees ∧ (t', f') ∈ ts.zip fees := ⟨hpair.subset (by simp), hpair.subset (by simp)⟩
  rw [spendsFrom_iff (h.notCoinbase _ hmem.1) (h.txid _ hmem.2)]
  rintro ⟨o, ho, hcreated⟩
  -- The output was there from the start, and would be created next to itself.
  have hstart : o ∈ s.utxos := h.run.mem_of_consumed_before h.created hpair ho hcreated
  exact h'.run.not_created_before (h'.consumed hun) hstart hpair' ho hcreated

/-- Of two entries of which one spends an output of the other the same stands first in every list that applies. -/
theorem not_swapped (hmax : s.utxos.total ≤ s.maxMoney) (hc : ∀ t ∈ ts, t.isCoinbase = false) (hp : ts'.Perm ts)
    (hids : (ts.map (·.txid)).Nodup) (hun : Unshared ts) (h : Applies s ts) (h' : Applies s ts')
    (hlink : SpendsFrom t t' ∨ SpendsFrom t' t) (hsub : [t, t'].Sublist ts) : ¬ [t', t].Sublist ts' := by
  obtain ⟨fees, s₁, h⟩ := h
  obtain ⟨fees', s₂, h'⟩ := h'
  have hent := entries_of_applyEach hmax hc hids h
  have hent' := entries_of_applyEach hmax (fun t ht => hc t (hp.subset ht)) ((hp.map _).nodup_iff.mpr hids) h'
  intro hsub'
  rcases hlink with hs | hs
  · exact not_swapped_of_spendsFrom hent hent' (hun.perm hp.symm) hsub hsub' hs
  · exact not_swapped_of_spendsFrom hent' hent hun hsub' hsub hs

end Order

end BCC.Proof
