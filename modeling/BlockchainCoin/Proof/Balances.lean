import BlockchainCoin.Impl.Summaries
import BlockchainCoin.Proof.Decode
import BlockchainCoin.Proof.Index
import BlockchainCoin.Proof.Wallet

/-!
# Balances

`spendable_summary` reads the outputs of an address from the state in memory; the UTXO
index has them among the rows of the best tip. Both give the same, and what all
addresses own adds up to the supply (`spendableSummary_agrees`).
-/

namespace BCC.Proof

open BCC.Impl BCC.Ledger BlockProcessor

/-! ## Owners -/

/-- Every output is at an address that `_validate_outputs` lets pass. -/
def Owned (u : UTXOSet) : Prop := ∀ o out, u.lookup o = some out → isValidAddress out.address = true

theorem Owned.step {u u' : UTXOSet} {t : ConsensusTransaction} {txid : Str} {s : ConsensusState} (hu : Owned u)
    (hs : Step u (transfer t txid) u') (ho : s.validateOutputs t.outputs = .ok ()) : Owned u' := by
  intro o out hout
  rcases hs.lookup_eq_some hout with hc | ⟨-, h⟩
  · obtain ⟨i, -, hi⟩ := mem_createdFrom.mp hc
    exact ((validateOutputs_eq_ok.mp ho).2 out (List.mem_of_getElem? hi)).2.2
  · exact hu o out h

/-- The values of the classes of a list add up to the value of the list. -/
theorem sum_classes {α β : Type} [DecidableEq β] (f : α → β) (w : α → Int) {as : List β} (hn : as.Nodup) {l : List α}
    (h : ∀ x ∈ l, f x ∈ as) : (as.map fun a => ((l.filter fun x => f x = a).map w).sum).sum = (l.map w).sum := by
  induction l with
  | nil => simp
  | cons x l ih =>
    rw [List.forall_mem_cons] at h
    have hcons : ∀ a, (((x :: l).filter fun x => f x = a).map w).sum =
        (if a = f x then w x else 0) + ((l.filter fun x => f x = a).map w).sum := fun a => by
      by_cases ha : f x = a
      · rw [List.filter_cons_of_pos (by simpa using ha), List.map_cons, List.sum_cons, if_pos ha.symm]
      · rw [List.filter_cons_of_neg (by simpa using ha), if_neg (Ne.symm ha), Int.zero_add]
    rw [List.map_congr_left fun a _ => hcons a, List.sum_map_add, ih h.2, List.map_cons, List.sum_cons,
      List.sum_map_ite_eq, List.count_eq_one_of_mem hn h.1, one_nsmul]
    simp

variable [Ed25519]

theorem applyTransactions_owned {ts : List ConsensusTransaction} {fees f : Int} {s s' : ConsensusState}
    (hc : ∀ t ∈ ts, t.isCoinbase = false) (hu : Owned s.utxos)
    (h : ConsensusState.applyTransactions fees s ts = .ok (f, s')) : Owned s'.utxos := by
  induction ts generalizing fees s with
  | nil =>
    rw [ConsensusState.applyTransactions, Except.ok.injEq, Prod.mk.injEq] at h
    exact h.2 ▸ hu
  | cons t ts ih =>
    rw [ConsensusState.applyTransactions] at h
    obtain ⟨⟨fee, s₁⟩, ht, hts⟩ := bind_eq_ok.mp h
    obtain ⟨txid, hsp⟩ := (applyTransaction_eq_ok (hc t List.mem_cons_self)).mp ht
    exact ih (fun t ht => hc t (List.mem_cons_of_mem _ ht)) (hu.step hsp.step hsp.outputs) hts

theorem Built.owned {subsidy maxMoney : Int} {bs : List ConsensusBlock} {q : Str} {s : ConsensusState}
    (h : Built subsidy maxMoney bs q s) : Owned s.utxos := by
  induction h with
  | @nil s hinit =>
    rw [(init_eq_ok hinit).1]
    intro o out ho
    rw [AList.lookup_empty] at ho
    cases ho
  | @snoc bs b p q s s' f _ hv _ ih =>
    obtain ⟨c, rest, s₁, hc, hts, hcb⟩ := validateCandidate_eq_ok.mp hv
    obtain ⟨txid, hm⟩ := mints_of_applyCoinbaseOf hcb
    exact (applyTransactions_owned (checkBlock_eq_ok.mp hc).2.2.others ih hts).step hm.step hm.outputs

theorem NodeOk.owned {n : ConsensusNode} (h : NodeOk n) : Owned n.state.utxos := by
  obtain ⟨a, -, hs, q, hb⟩ := h.built
  intro o out ho
  rw [hs.lookup] at ho
  exact hb.owned o out ho

/-! ## Summaries of addresses -/

/-- What `spendable_summary` gives for an address, and the rows of the index at the best tip. -/
structure AddressTold (n : ConsensusNode) (address : Str) (s : SpendableSummary) : Prop where
  summary_eq : n.spendableSummary address = .ok s
  balance : s.balance = owned n.state.utxos address
  count : s.count = s.utxos.length
  indexed : ∀ tip hash, n.disk.store.bestTip = .ok (some tip) → tip.block.hash = .ok hash →
    (n.disk.utxoIndex.utxosForAddressAtTip hash address).map (fun row => (row.outpoint, row.output)) = s.utxos

omit [Ed25519] in
theorem map_utxoRows (u : UTXOSet) (address : Str) : ((utxoRows u).filter fun row => row.output.address = address).map
    (fun row => (row.outpoint, row.output)) = u.entriesForAddress address := by
  rw [utxoRows, UTXOSet.entriesForAddress, List.filter_map, List.map_map]
  exact List.map_id' _

/-- The summary of an address that is valid. -/
def spendable (n : ConsensusNode) (address : Str) : SpendableSummary :=
  ⟨address, amountOf (n.spendableOutputs address), (n.spendableOutputs address).length, n.spendableOutputs address⟩

omit [Ed25519] in
theorem spendableSummary_eq {n : ConsensusNode} {address : Str} (haddress : isValidAddress address = true) :
    n.spendableSummary address = .ok (spendable n address) := by
  rw [ConsensusNode.spendableSummary, raiseIf_of_not (by simp [haddress]), ok_bind]
  rfl

theorem addressTold {n : ConsensusNode} (h : NodeOk n) (hindexed : NodeIndexed n) {address : Str}
    (haddress : isValidAddress address = true) : ∃ s, AddressTold n address s := by
  refine ⟨spendable n address, spendableSummary_eq haddress, amountOf_entriesForAddress _ _, rfl, fun tip hash htip hhash => ?_⟩
  obtain ⟨a, ha, hs⟩ := h.active
  rcases h.store.activeChain_eq_ok ha with ⟨hnil, -⟩ | ⟨r, chain, hfirst, hb, hbuilt, -⟩
  · rw [StoreOk.bestTip_of_nil hnil] at htip
    cases htip
  obtain ⟨b, hrow, hbest⟩ := h.store.bestTip hfirst
  rw [htip, Except.ok.injEq, Option.some.injEq] at hbest
  subst hbest
  rw [hrow.hash, Except.ok.injEq] at hhash
  subst hhash
  obtain ⟨chain', s, hr, hsnap, -⟩ := hindexed.indexed.tips r (Table.first_mem hfirst)
  obtain rfl := hr.branch.unique h.store.nodup hb
  obtain rfl := hr.built.unique hbuilt
  rw [utxosForAddressAtTip_of_rows hsnap, map_utxoRows, UTXOSet.entriesForAddress, ← hs.utxos]
  rfl

/-- Addresses without repetition, each valid, among them all that own an output. -/
structure Owners (u : UTXOSet) (addresses : List Str) : Prop where
  nodup : addresses.Nodup
  valid : ∀ address ∈ addresses, isValidAddress address = true
  all : ∀ o out, u.lookup o = some out → out.address ∈ addresses

/-- After every run whose calls return, the state in memory and the index give the same outputs for every address, and what
the owners have adds up to the supply. -/
theorem spendableSummary_agrees (calls : List Call) (hret : (World.down Disk.empty).AllReturn calls) (n : ConsensusNode)
    (hn : World.after calls = .up n) :
    (∀ address, isValidAddress address = true → ∃ s, AddressTold n address s) ∧ (∃ addresses, Owners n.state.utxos addresses) ∧
      ∀ addresses, Owners n.state.utxos addresses → ∃ summaries, addresses.mapM n.spendableSummary = .ok summaries ∧
        (summaries.map (·.balance)).sum = n.state.utxos.total ∧ n.state.utxos.total ≤ n.state.maxMoney := by
  have h := nodeOk_after hn
  have hindexed := worldIndexed_after hret
  rw [hn] at hindexed
  refine ⟨fun _ => addressTold h hindexed, ⟨(n.state.utxos.entries.map (·.2.address)).dedup, List.nodup_dedup _, fun address hmem => ?_,
    fun o out ho => ?_⟩, fun addresses hown => ?_⟩
  · obtain ⟨e, he, rfl⟩ := List.mem_map.mp (List.mem_dedup.mp hmem)
    exact h.owned e.1 e.2 (AList.mem_lookup_iff.mpr he)
  · exact List.mem_dedup.mpr (List.mem_map.mpr ⟨⟨o, out⟩, AList.mem_lookup_iff.mp ho, rfl⟩)
  · have hsummaries : addresses.mapM n.spendableSummary = .ok (addresses.map (spendable n)) :=
      mapM_eq_ok.mpr (List.forall₂_map_right_iff.mpr (List.forall₂_same.mpr fun address hmem =>
        spendableSummary_eq (hown.valid address hmem)))
    refine ⟨_, hsummaries, ?_, h.total.2⟩
    have hbalances : (addresses.map (spendable n)).map (·.balance) = addresses.map (owned n.state.utxos) := by
      rw [List.map_map]
      exact List.map_congr_left fun address _ => amountOf_entriesForAddress _ _
    rw [hbalances]
    exact sum_classes (fun e : (_ : OutPoint) × TxOutput => e.2.address) (fun e => e.2.amount) hown.nodup fun e he =>
      hown.all e.1 e.2 (AList.mem_lookup_iff.mpr he)

omit [Ed25519]

theorem spendableSummary_agrees_genesisNode : let _ := aliceVerify
    ∃ s, AddressTold genesisNode aliceAddress s ∧ s.balance = 10 := by
  intro _
  have hvalid : isValidAddress aliceAddress = true := by decide +kernel
  obtain ⟨htold, -⟩ := spendableSummary_agrees _ created_returns genesisNode created_genesisNode
  obtain ⟨s, hs⟩ := htold aliceAddress hvalid
  refine ⟨s, hs, hs.balance.trans ?_⟩
  decide +kernel

end BCC.Proof
