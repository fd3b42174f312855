import BlockchainCoin.Proof.Dicts
import BlockchainCoin.Proof.History
import BlockchainCoin.Proof.Restart

/-!
# The dictionary form of stored blocks

`from_dict` takes an empty signature text for none. In a block that was accepted no
signature is the empty text: a coinbase has none, and the others verify
(`Built.signatures`). So a block that is read from the store is what the dictionary form
of it is read as (`storedBlock_fromDict`).
-/

namespace BCC.Proof

open BCC.Impl BlockProcessor

section

variable [PyText] {b : ConsensusBlock} {hash : Str}

/-- What `from_dict` makes of the dictionary of a block. -/
theorem fromDict_toDict_block (h : WellFormedBlock b) (hhash : b.hash = .ok hash) :
    ∃ data, b.toDict = .ok data ∧ ConsensusBlock.fromDict data =
      .ok { b with transactions := b.transactions.map fun t => { t with inputs := t.inputs.map withoutEmpty } } := by
  refine ⟨_, bind_eq_ok.mpr ⟨hash, hhash, rfl⟩, ?_⟩
  have htransactions : (b.transactions.map ConsensusTransaction.toDict).mapM ConsensusTransaction.fromDict =
      .ok (b.transactions.map fun t => { t with inputs := t.inputs.map withoutEmpty }) := by
    rw [mapM_eq_ok, List.forall₂_map_left_iff, List.forall₂_map_right_iff, List.forall₂_same]
    exact fun t ht => fromDict_toDict_transaction (h.transactions t ht).1
  have hroot : b.transactionRoot ≠ [] := fun he => by
    have hlength := h.transactionRoot.1
    rw [he] at hlength
    cases hlength
  refine bind_eq_ok.mpr ⟨_, rfl, bind_eq_ok.mpr ⟨_, rfl, bind_eq_ok.mpr ⟨_, rfl, bind_eq_ok.mpr ⟨_, htransactions, ?_⟩⟩⟩⟩
  refine bind_eq_ok.mpr ⟨_, rfl, bind_eq_ok.mpr ⟨_, rfl, bind_eq_ok.mpr ⟨_, rfl, bind_eq_ok.mpr ⟨_, rfl, ?_⟩⟩⟩⟩
  refine bind_eq_ok.mpr ⟨_, rfl, ?_⟩
  show ConsensusBlock.create b.height b.previousHash _ b.difficulty b.timestamp b.nonce b.transactionRoot b.version = _
  rw [ConsensusBlock.create, if_neg hroot]
  rfl

end

section

variable [Ed25519] {n : ConsensusNode} {b : ConsensusBlock} {hash : Str}

/-! ## Signatures of accepted blocks -/

/-- No signature in the block is the empty text. -/
def NoEmptySignature (b : ConsensusBlock) : Prop := ∀ t ∈ b.transactions, ∀ x ∈ t.inputs, x.signature ≠ some []

omit [Ed25519] in
theorem NoEmptySignature.withoutEmpty (h : NoEmptySignature b) :
    { b with transactions := b.transactions.map fun t => { t with inputs := t.inputs.map BCC.Proof.withoutEmpty } } = b := by
  have hinputs : ∀ t ∈ b.transactions, t.inputs.map BCC.Proof.withoutEmpty = t.inputs := fun t ht => by
    rw [List.map_congr_left fun x hx => withoutEmpty_eq_iff.mpr (h t ht x hx), List.map_id']
  have hmap : (b.transactions.map fun t : ConsensusTransaction =>
      { t with inputs := t.inputs.map BCC.Proof.withoutEmpty }) = b.transactions := by
    rw [List.map_congr_left fun t ht => by rw [hinputs t ht], List.map_id']
  rw [hmap]

omit [Ed25519] in
theorem signature_of_coinbase {t : ConsensusTransaction} (h : t.isCoinbase = true) (hunsigned : coinbaseSigned t = false) :
    ∀ x ∈ t.inputs, x.signature ≠ some [] := by
  unfold ConsensusTransaction.isCoinbase at h
  unfold coinbaseSigned at hunsigned
  split at h
  · rename_i x hx
    rw [hx] at hunsigned ⊢
    rw [Bool.or_eq_false_iff, Option.isSome_eq_false_iff, Option.isNone_iff_eq_none] at hunsigned
    exact List.forall_mem_singleton.mpr fun he => by rw [hunsigned.1] at he; cases he
  · cases h

theorem signatures_of_validateCandidate {s s' : ConsensusState} {height fees : Int} {previousHash : Str}
    (hv : validateCandidate s b height previousHash = .ok (fees, s')) : NoEmptySignature b := by
  obtain ⟨c, rest, s₁, hcheck, hts, hcb⟩ := validateCandidate_eq_ok.mp hv
  obtain ⟨-, -, hchecked⟩ := checkBlock_eq_ok.mp hcheck
  obtain ⟨txid, hmints⟩ := mints_of_applyCoinbaseOf hcb
  intro t ht
  rw [hchecked.transactions, List.mem_cons] at ht
  rcases ht with rfl | ht
  · exact signature_of_coinbase hmints.isCoinbase hmints.unsigned
  · intro x hx he
    obtain ⟨u, hguarded⟩ := (applyTransactions_run hchecked.others hts).guarded t ht
    obtain ⟨j, hj⟩ := List.getElem?_of_mem hx
    obtain ⟨out, -, hok⟩ := hguarded.inputOk (hchecked.others t ht) j x hj
    obtain ⟨d, signature, publicKey, -, hs, hne, -⟩ := validateInputSignature_eq_ok.mp hok
    rw [he, Option.some.injEq] at hs
    exact hne hs.symm

theorem Built.signatures {subsidy maxMoney : Int} {bs : List ConsensusBlock} {q : Str} {s : ConsensusState}
    (h : Built subsidy maxMoney bs q s) : ∀ b ∈ bs, NoEmptySignature b := by
  induction h with
  | nil => exact fun _ hb => absurd hb List.not_mem_nil
  | snoc _ hv _ ih =>
    intro b hb
    rcases List.mem_append.mp hb with hb | hb
    · exact ih b hb
    · rw [List.mem_singleton.mp hb]
      exact signatures_of_validateCandidate hv

/-- A block that is read from the store of a node can be given as a dictionary, and that dictionary is read as the block. -/
theorem storedBlock_fromDict [PyText] (calls : List Call) {n : ConsensusNode} (hn : World.after calls = .up n) {hash : Str}
    {stored : StoredConsensusBlock} (hget : n.disk.store.getBlock hash = .ok stored) :
    ∃ data, stored.block.toDict = .ok data ∧ ConsensusBlock.fromDict data = .ok stored.block := by
  have h := (nodeOk_after hn).store
  obtain ⟨r, hr, -, hrow, -⟩ := h.of_getBlock hget
  obtain ⟨chain, s, hbranch, hbuilt⟩ := h.branch r hr
  obtain ⟨b, hrow', hlast, -⟩ := hbranch.last
  have hdata := hrow'.data
  rw [hrow.data, Except.ok.injEq] at hdata
  subst hdata
  have hmem := List.mem_of_getLast? hlast
  have hsignatures : NoEmptySignature stored.block := hbuilt.signatures _ (List.mem_map.mpr ⟨_, hmem, rfl⟩)
  obtain ⟨data, hdict, hread⟩ := fromDict_toDict_block (hbranch.wellFormed _ hmem) hrow.hash
  exact ⟨data, hdict, by rw [hread, hsignatures.withoutEmpty]⟩

end

theorem storedBlock_fromDict_genesisBlock :
    let _ := aliceVerify
    let _ := decoding [] .null
    ∃ data, genesisBlock.toDict = .ok data ∧ ConsensusBlock.fromDict data = .ok genesisBlock := by
  intro _ _
  have hget : genesisNode.disk.store.getBlock genesisHash = .ok ⟨genesisBlock, 1⟩ := by decide +kernel
  exact storedBlock_fromDict _ created_genesisNode hget

end BCC.Proof
