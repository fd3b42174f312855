import BlockchainCoin.Proof.Chain
import BlockchainCoin.Proof.Codec

/-!
# Blocks read back from the store are accepted like the blocks that were stored

A block is validated as it arrives and replayed as the store gives it back. The
two can differ in hash texts and in entries of public keys that are not encoded
(`storedBlock`). Every outpoint of a state that was built from nothing is in
stored form (`Canonical`), so a transaction that is accepted on such a state
names its outpoints in that form, and its stored form is accepted with the same
result (`validateCandidate_storedBlock`).
-/

namespace BCC.Proof

open BCC.Impl BCC.Ledger BlockProcessor

/-! ## Outpoints in stored form -/

/-- Every outpoint of the UTXO set is in stored form. -/
def Canonical (u : UTXOSet) : Prop := ∀ o ∈ u, storedOutPoint o = o

theorem canonical_empty : Canonical ∅ := fun o ho => absurd ho (AList.notMem_empty o)

theorem storedHash_zeroHash : storedHash zeroHash = zeroHash := by
  have h : zeroHash = hexEncode (List.replicate 32 0) := by decide
  rw [h, storedHash_hexEncode]

theorem storedHash_txid {t : ConsensusTransaction} {txid : Str} (h : t.txid = .ok txid) :
    storedHash txid = txid := by
  obtain ⟨bs, -, he⟩ := bind_eq_ok.mp h
  rw [pure_eq_ok] at he
  rw [← he, sha256Hex, storedHash_hexEncode]

theorem storedHash_hash {b : ConsensusBlock} {hash : Str} (h : b.hash = .ok hash) : storedHash hash = hash := by
  obtain ⟨bs, -, he⟩ := bind_eq_ok.mp h
  rw [pure_eq_ok] at he
  rw [← he, sha256Hex, storedHash_hexEncode]

theorem Canonical.step {u u' : UTXOSet} {t : ConsensusTransaction} {txid : Str} (hu : Canonical u)
    (htx : t.txid = .ok txid) (hs : Step u (transfer t txid) u') : Canonical u' := by
  intro o ho
  obtain ⟨out, hout⟩ := Option.isSome_iff_exists.mp (AList.lookup_isSome.mpr ho)
  rcases hs.lookup_eq_some hout with hc | ⟨-, h⟩
  · have htxid := txid_of_mem_createdFrom (List.mem_map_of_mem (f := Prod.fst) hc)
    rw [storedOutPoint, htxid, storedHash_txid htx, ← htxid]
  · exact hu o (AList.lookup_isSome.mp (by rw [h]; rfl))

/-! ## Transactions -/

/-- The outpoints a transaction names are in stored form. -/
def NamesStored (t : ConsensusTransaction) : Prop :=
  ∀ x ∈ t.inputs, storedOutPoint x.previousOutput = x.previousOutput

theorem NamesStored.previousOutputs {t : ConsensusTransaction} (h : NamesStored t) :
    (storedTransaction t).inputs.map (·.previousOutput) = t.inputs.map (·.previousOutput) := by
  rw [storedTransaction, List.map_map]
  exact List.map_congr_left fun x hx => h x hx

theorem NamesStored.signingMessage {t : ConsensusTransaction} (h : NamesStored t) (j : Nat) :
    (storedTransaction t).signingMessage j = t.signingMessage j := by
  have hmap : ∀ f : OutPoint → Str, ((storedTransaction t).inputs.map fun i => f i.previousOutput) =
      t.inputs.map fun i => f i.previousOutput := fun f => by
    have hm := congrArg (List.map f) h.previousOutputs
    rw [List.map_map, List.map_map] at hm
    exact hm
  have h' := hmap fun o => jsonObject [jsonField "previous_output" (jsonObject
    [jsonField "index" (jsonInt o.index), jsonField "txid" (jsonText o.txid)])]
  simp only [ConsensusTransaction.signingMessage, h']
  rfl

theorem NamesStored.isCoinbase {t : ConsensusTransaction} (h : NamesStored t) :
    (storedTransaction t).isCoinbase = t.isCoinbase := by
  have hp := h.previousOutputs
  unfold ConsensusTransaction.isCoinbase
  match hi : t.inputs with
  | [] => simp [storedTransaction, hi]
  | [x] =>
    have hx := h x (by simp [hi])
    simp only [storedTransaction, hi, List.map_cons, List.map_nil, storedInput, hx]
  | x :: y :: xs => simp [storedTransaction, hi]

theorem namesStored_coinbase {t : ConsensusTransaction} (h : t.isCoinbase = true) : NamesStored t := by
  unfold ConsensusTransaction.isCoinbase at h
  split at h
  · rename_i i hi
    intro x hx
    rw [hi, List.mem_singleton] at hx
    rw [Bool.and_eq_true, beq_iff_eq] at h
    rw [hx, storedOutPoint, h.1, storedHash_zeroHash, ← h.1]
  · cases h

theorem coinbaseSigned_stored (t : ConsensusTransaction) :
    coinbaseSigned (storedTransaction t) = coinbaseSigned t := by
  unfold coinbaseSigned storedTransaction
  cases t.inputs with
  | nil => rfl
  | cons x xs => simp [storedInput]

theorem Mints.stored {s s' : ConsensusState} {t : ConsensusTransaction} {txid : Str} (h : Mints s t txid s') :
    Mints s (storedTransaction t) txid s' := by
  have hn := namesStored_coinbase h.isCoinbase
  have hc := hn.isCoinbase.trans h.isCoinbase
  refine ⟨(txid_storedTransaction t).trans h.txid_eq, h.version, h.outputs, hc,
    (coinbaseSigned_stored t).trans h.unsigned, ?_, h.le_max, h.params⟩
  have hstep := h.step
  simp only [transfer, spentBy, h.isCoinbase, hc, ite_true] at hstep ⊢
  exact hstep

theorem fromDict_storedKey {d : PublicKeyDict} {k : PublicKey} (h : PublicKey.fromDict d = some k) :
    PublicKey.fromDict (storedKey d) = some k := by
  simp only [PublicKey.fromDict, Option.bind_eq_bind, Option.bind_eq_some_iff, Option.pure_def,
    Option.some.injEq] at h
  obtain ⟨a, ha, key, hk, rfl⟩ := h
  simp [PublicKey.fromDict, storedKey, ha, hk]

variable [Ed25519]

theorem InputOk.stored {u : UTXOSet} {t : ConsensusTransaction} {j : Nat} {x : TxInput} (hn : NamesStored t)
    (hx : storedOutPoint x.previousOutput = x.previousOutput) (h : InputOk u t j x) :
    InputOk u (storedTransaction t) j (storedInput x) := by
  obtain ⟨out, hout, hs⟩ := h
  obtain ⟨d, signature, k, hd, hsig, hne, hk, ha, hv⟩ := validateInputSignature_eq_ok.mp hs
  refine ⟨out, ?_, validateInputSignature_eq_ok.mpr ⟨storedKey d, signature, k, ?_, hsig, hne,
    fromDict_storedKey hk, ha, ?_⟩⟩
  · rw [storedInput, hx]; exact hout
  · simp [storedInput, hd]
  · rw [hn.signingMessage]; exact hv

theorem Spends.namesStored {s s' : ConsensusState} {t : ConsensusTransaction} {txid : Str} {fee : Int}
    (hu : Canonical s.utxos) (h : Spends s t txid fee s') : NamesStored t := by
  intro x hx
  obtain ⟨j, hj⟩ := List.getElem?_of_mem hx
  obtain ⟨out, hout, -⟩ := h.inputOk j x hj
  exact hu _ (AList.lookup_isSome.mp (by rw [hout]; rfl))

theorem Spends.stored {s s' : ConsensusState} {t : ConsensusTransaction} {txid : Str} {fee : Int}
    (hu : Canonical s.utxos) (h : Spends s t txid fee s') : Spends s (storedTransaction t) txid fee s' := by
  have hn := h.namesStored hu
  have hspent : spentBy (storedTransaction t) = spentBy t := by
    rw [spentBy, spentBy, hn.isCoinbase, hn.previousOutputs]
  refine ⟨(txid_storedTransaction t).trans h.txid_eq, h.version, h.outputs, ?_, ?_, ?_, h.fee_nonneg, ?_,
    h.le_max, h.params⟩
  · simpa [storedTransaction] using h.inputs_ne
  · intro j y hy
    rw [storedTransaction, List.getElem?_map, Option.map_eq_some_iff] at hy
    obtain ⟨x, hx, rfl⟩ := hy
    exact (h.inputOk j x hx).stored hn (hn x (List.mem_of_getElem? hx))
  · rw [h.fee_eq, inputTotal, inputTotal, hspent]
    rfl
  · have hstep := h.step
    simp only [transfer, hspent] at hstep ⊢
    exact hstep

/-! ## Blocks -/

theorem applyTransactions_stored {ts : List ConsensusTransaction} {fees f : Int} {s s' : ConsensusState}
    (hu : Canonical s.utxos) (hc : ∀ t ∈ ts, t.isCoinbase = false)
    (h : ConsensusState.applyTransactions fees s ts = .ok (f, s')) :
    ConsensusState.applyTransactions fees s (ts.map storedTransaction) = .ok (f, s') ∧ Canonical s'.utxos ∧
      ∀ t ∈ ts, (storedTransaction t).isCoinbase = false := by
  induction ts generalizing fees s with
  | nil =>
    refine ⟨h, ?_, by simp⟩
    rw [ConsensusState.applyTransactions, Except.ok.injEq, Prod.mk.injEq] at h
    rwa [← h.2]
  | cons t ts ih =>
    rw [ConsensusState.applyTransactions] at h
    obtain ⟨⟨fee, s₁⟩, ht, hts⟩ := bind_eq_ok.mp h
    have htc := hc t List.mem_cons_self
    obtain ⟨txid, hsp⟩ := (applyTransaction_eq_ok htc).mp ht
    have hstored := hsp.stored hu
    have htc' := (hsp.namesStored hu).isCoinbase.trans htc
    have hu₁ := hu.step hsp.txid_eq hsp.step
    obtain ⟨hrest, hu', hcs⟩ := ih hu₁ (fun t ht => hc t (List.mem_cons_of_mem _ ht)) hts
    refine ⟨?_, hu', List.forall_mem_cons.mpr ⟨htc', hcs⟩⟩
    rw [List.map_cons, ConsensusState.applyTransactions,
      (applyTransaction_eq_ok htc').mpr ⟨txid, hstored⟩]
    exact hrest

omit [Ed25519] in
theorem applyCoinbaseOf_stored {s s' : ConsensusState} {b : ConsensusBlock} {c : ConsensusTransaction} {fees : Int}
    (hp : storedHash b.previousHash = b.previousHash) (h : s.applyCoinbaseOf b c fees = .ok s') :
    s.applyCoinbaseOf (storedBlock b) (storedTransaction c) fees = .ok s' := by
  unfold ConsensusState.applyCoinbaseOf at h ⊢
  simp only [storedBlock, hp]
  split
  · rename_i hg
    rw [if_pos hg] at h
    obtain ⟨txid, hm⟩ := applyGenesisCoinbase_eq_ok.mp h
    exact applyGenesisCoinbase_eq_ok.mpr ⟨txid, hm.stored⟩
  · rename_i hg
    rw [if_neg hg] at h
    obtain ⟨hf, hle, txid, hm⟩ := applyBlockCoinbase_eq_ok.mp h
    exact applyBlockCoinbase_eq_ok.mpr ⟨hf, hle, txid, hm.stored⟩

omit [Ed25519] in
theorem calculateTransactionRoot_stored (ts : List ConsensusTransaction) :
    calculateTransactionRoot (ts.map storedTransaction) = calculateTransactionRoot ts := by
  have hmap : ((ts.map storedTransaction).mapM fun t => t.txid >>= bytesFromhex) =
      ts.mapM fun t => t.txid >>= bytesFromhex := by
    rw [List.mapM_map]
    congr 1
    funext t
    simp only [Function.comp_apply, txid_storedTransaction]
  simp only [calculateTransactionRoot, List.map_eq_nil_iff, hmap]

omit [Ed25519] in
theorem storedHash_root {ts : List ConsensusTransaction} {root : Str}
    (h : calculateTransactionRoot ts = .ok root) : storedHash root = root := by
  unfold calculateTransactionRoot at h
  split at h
  · rw [pure_eq_ok] at h
    rw [← h, sha256Hex, storedHash_hexEncode]
  · obtain ⟨layer, -, h⟩ := bind_eq_ok.mp h
    rw [pure_eq_ok] at h
    rw [← h, storedHash_hexEncode]

/-- An accepted block is accepted again in the form the store gives it back in, with the same
result. -/
theorem validateCandidate_storedBlock {s s' : ConsensusState} {b : ConsensusBlock} {h : Int} {p : Str} {fees : Int}
    (hu : Canonical s.utxos) (hp : storedHash p = p) (hv : validateCandidate s b h p = .ok (fees, s')) :
    validateCandidate s (storedBlock b) h p = .ok (fees, s') ∧ Canonical s'.utxos := by
  obtain ⟨c, rest, s₁, hc, hts, hcb⟩ := validateCandidate_eq_ok.mp hv
  obtain ⟨hheight, hprev, hchk⟩ := checkBlock_eq_ok.mp hc
  obtain ⟨hts', hu₁, hcs⟩ := applyTransactions_stored hu hchk.others hts
  obtain ⟨txid, hm⟩ := mints_of_applyCoinbaseOf hcb
  have hprev' : storedHash b.previousHash = b.previousHash := by rw [hprev, hp]
  have hchk' : Checked (storedBlock b) (storedTransaction c) (rest.map storedTransaction) := by
    refine ⟨hchk.version, hchk.difficulty, ?_, ?_, ?_, hm.stored.isCoinbase, ?_⟩
    · obtain ⟨hash, hhash, hw⟩ := hchk.work
      exact ⟨hash, (hash_storedBlock b).trans hhash, hw⟩
    · simp only [storedBlock, calculateTransactionRoot_stored, hchk.root, storedHash_root hchk.root]
    · simp only [storedBlock, hchk.transactions, List.map_cons]
    · exact List.forall_mem_map.mpr hcs
  refine ⟨validateCandidate_eq_ok.mpr ⟨_, _, s₁, checkBlock_eq_ok.mpr ⟨hheight, ?_, hchk'⟩, hts',
    applyCoinbaseOf_stored hprev' hcb⟩, hu₁.step hm.txid_eq hm.step⟩
  rw [storedBlock, hprev', hprev]

/-- A chain replayed from nothing keeps every outpoint in stored form. -/
theorem Replays.canonical {s s' : ConsensusState} {h : Int} {p : Str} {bs : List ConsensusBlock} {fs : List Int}
    (hr : Replays s h p bs fs s') (hu : Canonical s.utxos) (hp : storedHash p = p) : Canonical s'.utxos := by
  induction hr with
  | nil => exact hu
  | cons ha hh _ ih =>
    exact ih (validateCandidate_storedBlock hu hp (applyBlock_eq_ok.mp ha)).2 (storedHash_hash hh)

end BCC.Proof
