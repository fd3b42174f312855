import BlockchainCoin.Proof.Block
import BlockchainCoin.Proof.Codec

/-!
# The header hash commits to the block

Two blocks that `validate_block` accepts and that share a hash have the same
encoding (`hash_commits`), as far as SHA-256 has no collision among the strings
hashed for them and their transactions do not spend each other in a cycle.

Equal hashes give equal headers, and equal headers give equal Merkle tops. By
`Merkle.eq_or_repeats_of_top_eq` the transactions are then the same, or one of
the blocks repeats a segment of them. A copy of the coinbase would lack a
signature, and a copied segment of other transactions would create its outputs
again, which `Ledger.Run.not_repeated` excludes. A transaction is never taken
for an inner node, since those are hashed from 64 bytes and no transaction with
an input is that short (`length_toBytes`).
-/

namespace BCC.Proof

open BCC.Impl BCC.Ledger BlockProcessor

/-! ## What is hashed -/

/-- The bytes of an encoding that did not raise. -/
def okBytes (x : Except PyError Bytes) : Bytes :=
  match x with
  | .ok bs => bs
  | .error _ => []

theorem okBytes_eq {x : Except PyError Bytes} {bs : Bytes} (h : x = .ok bs) : okBytes x = bs := by
  rw [h, okBytes]

/-- The leaves of a block's Merkle tree. -/
def leaves (b : ConsensusBlock) : List Bytes := b.transactions.map fun t => Sha256.digest (okBytes t.toBytes)

/-- The strings hashed for a block: its header, its transactions and the pairs of its Merkle tree. -/
def hashedStrings (b : ConsensusBlock) : List Bytes :=
  okBytes b.headerBytes :: b.transactions.map (fun t => okBytes t.toBytes) ++
    (Merkle.allPairs merkleCombine (leaves b)).map fun p => p.1 ++ p.2

/-- No transaction of the block spends an output of itself, directly or through others of the
block. -/
def NoSpendCycle [Ed25519] (b : ConsensusBlock) : Prop := Acyclic chainRules b.transactions

/-! ## Encodings -/

/-- No encoding of a transaction with an input is as short as a pair of hashes. -/
theorem length_toBytes {t : ConsensusTransaction} {bs : Bytes} (h : t.toBytes = .ok bs) (hne : t.inputs ≠ []) :
    64 < bs.length := by
  simp only [ConsensusTransaction.toBytes, bind_eq_ok, pure_eq_ok] at h
  obtain ⟨version, hv, inputCount, hic, inputs, hi, outputCount, hoc, outputs, ho, rfl⟩ := h
  have hmagic : transactionMagic.length = 7 := rfl
  have hin : 40 ≤ inputs.flatten.length := by
    have hi := mapM_eq_ok.mp hi
    generalize t.inputs = xs at hi hne
    cases hi with
    | nil => exact absurd rfl hne
    | cons hx _ =>
      simp only [TxInput.toBytes, ite_true, bind_eq_ok, pure_eq_ok] at hx
      obtain ⟨payload, hp, witness, -, rfl⟩ := hx
      simp only [List.flatten_cons, List.length_append, length_outPoint hp]
      omega
  simp only [List.length_append, length_encodeInt hv, length_encodeUint hic, length_encodeUint hoc, hmagic]
  omega

/-- The Merkle root stands at a fixed place in the header. -/
theorem headerBytes_root {b : ConsensusBlock} {header : Bytes} (h : b.headerBytes = .ok header) :
    encodeHash b.transactionRoot = .ok ((header.drop 56).take 32) := by
  simp only [ConsensusBlock.headerBytes, bind_eq_ok, pure_eq_ok] at h
  obtain ⟨version, hv, height, hh, prev, hp, root, hr, difficulty, hd, nonce, hn, rfl⟩ := h
  have hlen : (blockMagic ++ version ++ height ++ prev).length = 56 := by
    have hmagic : blockMagic.length = 8 := rfl
    simp only [List.length_append, length_encodeInt hv, length_encodeInt hh, (encodeHash_eq_ok.mp hp).2, hmagic]
  rw [List.append_assoc, List.append_assoc, List.append_assoc, List.drop_left' hlen,
    List.take_left' (encodeHash_eq_ok.mp hr).2, hr]

theorem calculateTransactionRoot_eq_ok {ts : List ConsensusTransaction} {root : Str} (hne : ts ≠ [])
    (h : calculateTransactionRoot ts = .ok root) : (∀ t ∈ ts, t.toBytes = .ok (okBytes t.toBytes)) ∧
      root = hexEncode ((Merkle.top merkleCombine
        (ts.map fun t => Sha256.digest (okBytes t.toBytes))).headD []) := by
  rw [calculateTransactionRoot, if_neg hne] at h
  obtain ⟨layer, hl, h⟩ := bind_eq_ok.mp h
  rw [pure_eq_ok] at h
  subst h
  have hmem : ∀ {t : ConsensusTransaction} {leaf : Bytes}, (t.txid >>= bytesFromhex) = .ok leaf →
      t.toBytes = .ok (okBytes t.toBytes) ∧ leaf = Sha256.digest (okBytes t.toBytes) := by
    intro t leaf ht
    simp only [ConsensusTransaction.txid, bind_eq_ok, pure_eq_ok] at ht
    obtain ⟨_, ⟨bs, hbs, rfl⟩, hleaf⟩ := ht
    rw [bytesFromhex, sha256Hex, hexDecode_hexEncode, Except.ok.injEq] at hleaf
    exact ⟨by rw [okBytes_eq hbs, hbs], by rw [okBytes_eq hbs, hleaf]⟩
  obtain ⟨hall, rfl⟩ := map_of_mapM_eq_ok hmem hl
  exact ⟨hall, rfl⟩

/-! ## Accepted blocks -/

theorem pair_lengths (b : ConsensusBlock) : ∀ p ∈ Merkle.allPairs merkleCombine (leaves b),
    p.1.length = 32 ∧ p.2.length = 32 := by
  refine Merkle.forall_mem_climbPairs (P := fun a : Bytes => a.length = 32) (fun _ _ => Sha256.length_digest _)
    fun a ha => ?_
  obtain ⟨t, -, rfl⟩ := List.mem_map.mp ha
  exact Sha256.length_digest _

theorem pair_mem {b : ConsensusBlock} {p : Bytes × Bytes} (h : p ∈ Merkle.allPairs merkleCombine (leaves b)) :
    p.1 ++ p.2 ∈ hashedStrings b :=
  List.mem_append_right _ (List.mem_map_of_mem h)

theorem transaction_mem {b : ConsensusBlock} {t : ConsensusTransaction} (h : t ∈ b.transactions) :
    okBytes t.toBytes ∈ hashedStrings b :=
  List.mem_append_left _ (List.mem_cons_of_mem _ (List.mem_map_of_mem h))

theorem header_mem (b : ConsensusBlock) : okBytes b.headerBytes ∈ hashedStrings b :=
  List.mem_append_left _ List.mem_cons_self

theorem injOn_pairs {b₁ b₂ : ConsensusBlock} {S : List Bytes} (hS : Sha256.NoCollision S)
    (h₁ : hashedStrings b₁ ⊆ S) (h₂ : hashedStrings b₂ ⊆ S) :
    Merkle.InjOn merkleCombine (Merkle.allPairs merkleCombine (leaves b₁))
      (Merkle.allPairs merkleCombine (leaves b₂)) := by
  intro p hp q hq he
  have hbytes := hS _ (h₁ (pair_mem hp)) _ (h₂ (pair_mem hq)) he
  have hlen := ((pair_lengths b₁ p hp).1).trans (pair_lengths b₂ q hq).1.symm
  exact Prod.ext_iff.mpr (List.append_inj hbytes hlen)

variable [Ed25519]

/-- What acceptance says of the transactions of a block. -/
structure AcceptedBody (u : UTXOSet) (b : ConsensusBlock) (c : ConsensusTransaction)
    (rest : List ConsensusTransaction) : Prop where
  checked : Checked b c rest
  run : ∃ u', Run chainRules u rest u'
  unsigned : coinbaseSigned c = false
  inputs_ne : ∀ t ∈ b.transactions, t.inputs ≠ []

theorem acceptedBody_of_validateBlock {s : ConsensusState} {b : ConsensusBlock} {h : Int} {p : Str} {fees : Int}
    (hv : validateBlock s b h p = .ok fees) : ∃ c rest, AcceptedBody s.utxos b c rest := by
  obtain ⟨⟨_, s'⟩, hv, -⟩ := bind_eq_ok.mp hv
  obtain ⟨c, rest, s₁, hc, hts, hcb⟩ := validateCandidate_eq_ok.mp hv
  have hb := (checkBlock_eq_ok.mp hc).2.2
  have hrun := applyTransactions_run hb.others hts
  obtain ⟨txid, hm⟩ := mints_of_applyCoinbaseOf hcb
  refine ⟨c, rest, hb, ⟨_, hrun⟩, hm.unsigned, fun t ht => ?_⟩
  rw [hb.transactions] at ht
  rcases List.mem_cons.mp ht with rfl | ht
  · intro hnil
    have := hb.coinbase
    rw [ConsensusTransaction.isCoinbase, hnil] at this
    exact Bool.false_ne_true this
  · obtain ⟨n, hg⟩ := hrun.guarded t ht
    exact hg.inputs_ne (hb.others t ht)

/-- A transaction that is not a coinbase carries a signature, so it is not encoded as one. -/
theorem AcceptedBody.coinbase_ne {u : UTXOSet} {b : ConsensusBlock} {c t : ConsensusTransaction}
    {rest : List ConsensusTransaction} (h : AcceptedBody u b c rest) (ht : t ∈ rest) {bs : Bytes}
    (hc : c.toBytes = .ok bs) : t.toBytes ≠ .ok bs := by
  intro htb
  have hstored : storedTransaction c = storedTransaction t := by
    have := (fromBytes_toBytes_transaction hc).symm.trans (fromBytes_toBytes_transaction htb)
    exact Except.ok.inj this
  have hinputs := congrArg ConsensusTransaction.inputs hstored
  simp only [storedTransaction] at hinputs
  obtain ⟨u', hrun⟩ := h.run
  obtain ⟨n, hg⟩ := hrun.guarded t ht
  have hcb := h.checked.coinbase
  have hun := h.unsigned
  cases hci : c.inputs with
  | nil => simp [ConsensusTransaction.isCoinbase, hci] at hcb
  | cons x xs =>
    cases hti : t.inputs with
    | nil => simp [hci, hti] at hinputs
    | cons y ys =>
      simp only [hci, hti, List.map_cons, List.cons.injEq] at hinputs
      have hsig := congrArg TxInput.signature hinputs.1
      simp only [storedInput] at hsig
      simp only [coinbaseSigned, hci, Bool.or_eq_false_iff, Option.isSome_eq_false_iff,
        Option.isNone_iff_eq_none] at hun
      obtain ⟨out, -, hok⟩ := hg.inputOk (h.checked.others t ht) 0 y (by rw [hti]; rfl)
      obtain ⟨d, signature, -, -, hs, -⟩ := validateInputSignature_eq_ok.mp hok
      rw [← hsig, hun.1] at hs
      cases hs

/-- An accepted block does not repeat a segment of its transactions. -/
theorem AcceptedBody.not_repeats {u : UTXOSet} {b : ConsensusBlock} {c : ConsensusTransaction}
    {rest : List ConsensusTransaction} (h : AcceptedBody u b c rest)
    (hbytes : ∀ t ∈ b.transactions, t.toBytes = .ok (okBytes t.toBytes))
    (hS : Sha256.NoCollision (hashedStrings b)) (hcycle : NoSpendCycle b) : ¬ Merkle.Repeats (leaves b) := by
  intro hrep
  obtain ⟨p, n, hn, hlen, heq⟩ := hrep.positions
  have hts := h.checked.transactions
  simp only [leaves, List.getElem?_map, List.length_map] at hlen heq
  rw [hts, List.length_cons] at hlen
  cases p with
  | zero =>
    -- The segment starts at the coinbase, whose copy is not a coinbase.
    have h₀ := heq 0 hn
    rw [hts] at h₀
    obtain ⟨m, rfl⟩ : ∃ m, n = m + 1 := ⟨n - 1, by omega⟩
    obtain ⟨t, ht⟩ : ∃ t, rest[m]? = some t := ⟨rest[m], List.getElem?_eq_getElem (by omega)⟩
    have htm := List.mem_of_getElem? ht
    simp only [Nat.zero_add, Nat.add_zero, List.getElem?_cons_zero, List.getElem?_cons_succ, ht, Option.map_some,
      Option.some.injEq] at h₀
    have hcm : c ∈ b.transactions := by rw [hts]; exact List.mem_cons_self
    have htb : t ∈ b.transactions := by rw [hts]; exact List.mem_cons_of_mem _ htm
    have he := hS _ (transaction_mem hcm) _ (transaction_mem htb) h₀
    exact h.coinbase_ne htm (hbytes c hcm) (he ▸ hbytes t htb)
  | succ p =>
    obtain ⟨u', hrun⟩ := h.run
    refine hrun.not_repeated txidOf (fun txid => ⟨txid, 0⟩) (fun t ht => ?_) ?_ hn
      (p := p) (by omega) fun i hi => ?_
    · obtain ⟨n, hg⟩ := hrun.guarded t ht
      exact mem_keys_createdFrom.mpr ⟨0, List.length_pos_iff.mpr hg.outputs_ne, rfl⟩
    · intro t ht hgen
      refine hcycle t (by rw [hts]; exact List.mem_cons_of_mem _ ht) (hgen.lift id fun x y hxy => ?_)
      rw [hts]
      exact ⟨List.mem_cons_of_mem _ hxy.1, List.mem_cons_of_mem _ hxy.2.1, hxy.2.2⟩
    · have htxid : rest.map txidOf = (rest.map fun t => Sha256.digest (okBytes t.toBytes)).map hexEncode := by
        rw [List.map_map]
        refine List.map_congr_left fun t ht => txidOf_eq ?_
        rw [ConsensusTransaction.txid, hbytes t (by rw [hts]; exact List.mem_cons_of_mem _ ht)]
        rfl
      have hi := heq i hi
      rw [hts, show p + 1 + i = p + i + 1 by omega, show p + 1 + n + i = p + n + i + 1 by omega,
        List.getElem?_cons_succ, List.getElem?_cons_succ] at hi
      rw [htxid]
      simp only [List.getElem?_map, hi]

/-! ## Blocks with one hash -/

/-- An accepted block's Merkle tree, as its header holds it. -/
theorem AcceptedBody.root {u : UTXOSet} {b : ConsensusBlock} {c : ConsensusTransaction}
    {rest : List ConsensusTransaction} (h : AcceptedBody u b c rest) {header : Bytes}
    (hheader : b.headerBytes = .ok header) :
    leaves b ≠ [] ∧ (∀ t ∈ b.transactions, t.toBytes = .ok (okBytes t.toBytes)) ∧
      Merkle.top merkleCombine (leaves b) = [(header.drop 56).take 32] := by
  have hne : b.transactions ≠ [] := by simp [h.checked.transactions]
  obtain ⟨hbytes, hroot⟩ := calculateTransactionRoot_eq_ok hne h.checked.root
  have hl : leaves b ≠ [] := by simpa [leaves] using hne
  obtain ⟨a, ha⟩ := Merkle.exists_top merkleCombine hl
  have henc := headerBytes_root hheader
  have hroot' : b.transactionRoot = hexEncode ((Merkle.top merkleCombine (leaves b)).headD []) := hroot
  rw [hroot', ha, List.headD_cons] at henc
  have hdec := (encodeHash_eq_ok.mp henc).1
  rw [hexDecode_hexEncode, Option.some.injEq] at hdec
  exact ⟨hl, hbytes, by rw [ha, hdec]⟩

omit [Ed25519] in
theorem headerBytes_eq_of_hash_eq {b₁ b₂ : ConsensusBlock} {hash : Str}
    (hS : Sha256.NoCollision (hashedStrings b₁ ++ hashedStrings b₂)) (h₁ : b₁.hash = .ok hash)
    (h₂ : b₂.hash = .ok hash) : ∃ header, b₁.headerBytes = .ok header ∧ b₂.headerBytes = .ok header := by
  obtain ⟨header₁, hh₁, he₁⟩ := bind_eq_ok.mp h₁
  obtain ⟨header₂, hh₂, he₂⟩ := bind_eq_ok.mp h₂
  rw [pure_eq_ok] at he₁ he₂
  have hm₁ := List.mem_append_left (hashedStrings b₂) (header_mem b₁)
  have hm₂ := List.mem_append_right (hashedStrings b₁) (header_mem b₂)
  rw [okBytes_eq hh₁] at hm₁
  rw [okBytes_eq hh₂] at hm₂
  have he := hS _ hm₁ _ hm₂ (hexEncode_inj (he₁.trans he₂.symm))
  exact ⟨header₁, hh₁, he ▸ hh₂⟩

/-- A transaction of one block is not an inner node over another. -/
theorem leaf_ne_pair {u : UTXOSet} {b₁ b₂ : ConsensusBlock} {c : ConsensusTransaction}
    {rest : List ConsensusTransaction} {S : List Bytes} (hS : Sha256.NoCollision S)
    (h₁ : hashedStrings b₁ ⊆ S) (h₂ : hashedStrings b₂ ⊆ S) (h : AcceptedBody u b₁ c rest)
    (hbytes : ∀ t ∈ b₁.transactions, t.toBytes = .ok (okBytes t.toBytes)) :
    ∀ a ∈ leaves b₁, ∀ q ∈ Merkle.allPairs merkleCombine (leaves b₂), a ≠ merkleCombine q.1 q.2 := by
  intro a ha q hq he
  obtain ⟨t, ht, rfl⟩ := List.mem_map.mp ha
  have hstr := hS _ (h₁ (transaction_mem ht)) _ (h₂ (pair_mem hq)) he
  have hlong := length_toBytes (hbytes t ht) (h.inputs_ne t ht)
  rw [hstr, List.length_append, (pair_lengths b₂ q hq).1, (pair_lengths b₂ q hq).2] at hlong
  omega

/-- Two accepted blocks with one hash have one encoding. -/
theorem hash_commits (s : ConsensusState) (expectedHeight : Int) (expectedPreviousHash : Str)
    (b₁ b₂ : ConsensusBlock) (fees₁ fees₂ : Int)
    (hv₁ : validateBlock s b₁ expectedHeight expectedPreviousHash = .ok fees₁)
    (hv₂ : validateBlock s b₂ expectedHeight expectedPreviousHash = .ok fees₂)
    (hS : Sha256.NoCollision (hashedStrings b₁ ++ hashedStrings b₂))
    (hcycle₁ : NoSpendCycle b₁) (hcycle₂ : NoSpendCycle b₂) (hhash : b₁.hash = b₂.hash) :
    b₁.toBytes = b₂.toBytes := by
  obtain ⟨c₁, rest₁, hb₁⟩ := acceptedBody_of_validateBlock hv₁
  obtain ⟨c₂, rest₂, hb₂⟩ := acceptedBody_of_validateBlock hv₂
  obtain ⟨hash, hh₁, -⟩ := hb₁.checked.work
  obtain ⟨header, hhead₁, hhead₂⟩ := headerBytes_eq_of_hash_eq hS hh₁ (hhash ▸ hh₁)
  obtain ⟨hne₁, hbytes₁, htop₁⟩ := hb₁.root hhead₁
  obtain ⟨hne₂, hbytes₂, htop₂⟩ := hb₂.root hhead₂
  have hsub₁ : hashedStrings b₁ ⊆ hashedStrings b₁ ++ hashedStrings b₂ := List.subset_append_left _ _
  have hsub₂ : hashedStrings b₂ ⊆ hashedStrings b₁ ++ hashedStrings b₂ := List.subset_append_right _ _
  have hleaves : leaves b₁ = leaves b₂ := by
    rcases Merkle.eq_or_repeats_of_top_eq hne₁ hne₂ (injOn_pairs hS hsub₁ hsub₁) (injOn_pairs hS hsub₁ hsub₂)
      (injOn_pairs hS hsub₂ hsub₂) (leaf_ne_pair hS hsub₁ hsub₂ hb₁ hbytes₁)
      (leaf_ne_pair hS hsub₂ hsub₁ hb₂ hbytes₂) (htop₁.trans htop₂.symm) with h | h | h
    · exact h
    · exact absurd h (hb₁.not_repeats hbytes₁ (hS.mono hsub₁) hcycle₁)
    · exact absurd h (hb₂.not_repeats hbytes₂ (hS.mono hsub₂) hcycle₂)
  have htoBytes : b₁.transactions.map (·.toBytes) = b₂.transactions.map (·.toBytes) := by
    refine Merkle.map_eq_of_map_eq (fun t ht t' ht' he => ?_) hleaves
    rw [hbytes₁ t ht, hbytes₂ t' ht',
      hS _ (hsub₁ (transaction_mem ht)) _ (hsub₂ (transaction_mem ht')) he]
  have hmapM : ∀ b : ConsensusBlock, (b.transactions.mapM fun t => t.toBytes >>= encodeBytes) =
      (b.transactions.map (·.toBytes)).mapM fun x => x >>= encodeBytes := fun b => by
    rw [List.mapM_map]; rfl
  have hlen := congrArg List.length htoBytes
  simp only [List.length_map] at hlen
  rw [ConsensusBlock.toBytes, ConsensusBlock.toBytes, hhead₁, hhead₂, hmapM, hmapM, htoBytes, hlen]

/-! ## A block with a second form

The dictionary of a public key may hold entries that are not encoded, so two blocks that are not equal
can have one encoding. -/

omit [Ed25519]

def annotatedPayment : ConsensusTransaction :=
  { payment with
    inputs := [⟨⟨genesisTxid, 0⟩, some paymentSignature, some { aliceKey with others := [(['n'], ['1'])] }⟩] }

def annotatedBlock : ConsensusBlock :=
  { paymentBlock with transactions := [aliceCoinbase (-2) 53, annotatedPayment] }

theorem applyBlock_annotatedBlock :
    (@applyBlock aliceVerify annotatedBlock 1 genesisHash).call afterGenesis = (.ok 3, afterPayment) := by
  decide +kernel

theorem noSpendCycle_of_spentBy {b : ConsensusBlock} [Ed25519]
    (h : ∀ x ∈ b.transactions, ∀ y ∈ b.transactions, ∀ o ∈ spentBy x, o.txid ≠ txidOf y) : NoSpendCycle b := by
  have hno : ∀ x y, ¬ Uses chainRules b.transactions x y := by
    rintro x y ⟨hx, hy, o, ho, hc⟩
    exact h x hx y hy o ho (txid_of_mem_createdFrom hc)
  intro x _ hgen
  obtain ⟨y, hxy, -⟩ := Relation.TransGen.head'_iff.mp hgen
  exact hno x y hxy

theorem toBytes_annotatedPayment : annotatedPayment.toBytes = payment.toBytes := by
  have h : storedTransaction annotatedPayment = storedTransaction payment := rfl
  rw [← toBytes_storedTransaction, h, toBytes_storedTransaction]

theorem hashedStrings_annotatedBlock : hashedStrings annotatedBlock = hashedStrings paymentBlock := by
  have h : annotatedBlock.headerBytes = paymentBlock.headerBytes := rfl
  simp only [hashedStrings, leaves, annotatedBlock, paymentBlock, List.map_cons, List.map_nil,
    toBytes_annotatedPayment] at h ⊢
  rw [h]

theorem noCollision_paymentBlock : Sha256.NoCollision (hashedStrings paymentBlock) := by
  have hn : ((hashedStrings paymentBlock).map Sha256.digest).Nodup := by decide +kernel
  exact fun x hx y hy => List.inj_on_of_nodup_map hn hx hy

/-- The payment spends the genesis output, which neither it nor the coinbase creates. -/
theorem noSpendCycle_payment [Ed25519] {b : ConsensusBlock} {t : ConsensusTransaction}
    (hb : b.transactions = [aliceCoinbase (-2) 53, t]) (ht : t.txid = payment.txid)
    (hs : spentBy t = [⟨genesisTxid, 0⟩]) : NoSpendCycle b := by
  have htx := txids_sample
  simp only [List.map_cons, List.map_nil, List.cons.injEq, and_true] at htx
  have hc : spentBy (aliceCoinbase (-2) 53) = [] := by decide
  have hne : genesisTxid ≠ rewardTxid ∧ genesisTxid ≠ paymentTxid := by decide
  refine noSpendCycle_of_spentBy fun x hx y hy o ho => ?_
  rw [hb, List.mem_cons, List.mem_singleton] at hx hy
  rcases hx with rfl | rfl
  · rw [hc] at ho
    cases ho
  · rw [hs, List.mem_singleton] at ho
    rcases hy with rfl | rfl
    · rw [ho, txidOf_eq htx.2.1]
      exact hne.1
    · rw [ho, txidOf_eq (ht.trans htx.2.2)]
      exact hne.2

/-- The two forms of the payment block are not equal, and the hash tells nothing apart that is
encoded. -/
theorem annotatedBlock_committed :
    annotatedBlock ≠ paymentBlock ∧ annotatedBlock.toBytes = paymentBlock.toBytes := by
  let _ := aliceVerify
  have hfees : ∀ b, (applyBlock b 1 genesisHash).call afterGenesis = (.ok 3, afterPayment) →
      validateBlock afterGenesis b 1 genesisHash = .ok 3 := fun b hb => by
    rw [validateBlock, applyBlock_eq_ok.mp hb]
    rfl
  refine ⟨by decide, hash_commits afterGenesis 1 genesisHash annotatedBlock paymentBlock 3 3
    (hfees _ applyBlock_annotatedBlock) (hfees _ applyBlock_paymentBlock) ?_
    (noSpendCycle_payment rfl ?_ rfl) (noSpendCycle_payment rfl rfl rfl) rfl⟩
  · rw [hashedStrings_annotatedBlock]
    exact noCollision_paymentBlock.mono (by simp)
  · rw [ConsensusTransaction.txid, ConsensusTransaction.txid, toBytes_annotatedPayment]

end BCC.Proof
