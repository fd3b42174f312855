import BlockchainCoin.Proof.Lives
import BlockchainCoin.Proof.Node

/-!
# Importing and replaying accept the same blocks

`import_block` compares a block with its parent in two places: the consensus
rules are applied with the block's own height and parent hash, and `put_block`
compares the heights afterwards, unless the hash is already stored. Together
they accept what a replay of the parent's chain and the block accepts
(`importBlock_iff_replay`), as far as `put_block` can write the block.
-/

namespace BCC.Proof

open BCC.Impl BlockProcessor

/-! ## What a header says -/

/-- Blocks with one header have the same stored form but for their transactions. -/
theorem storedBlock_of_headerBytes {b b' : ConsensusBlock} {header : Bytes} (h : b.headerBytes = .ok header)
    (h' : b'.headerBytes = .ok header) :
    storedBlock { b with transactions := [] } = storedBlock { b' with transactions := [] } := by
  have key : ∀ {c : ConsensusBlock}, c.headerBytes = .ok header →
      ConsensusBlock.fromBytes (header ++ beBytes 8 0 ++ []) = .ok (storedBlock { c with transactions := [] }) :=
    fun {c} hc => fromBytes_toBytes_block (b := { c with transactions := [] }) (by
      have hc' : ConsensusBlock.headerBytes { c with transactions := [] } = .ok header := hc
      rw [ConsensusBlock.toBytes, hc', ok_bind]
      rfl)
  have e := key h
  rw [key h', Except.ok.injEq] at e
  exact e.symm

variable [Ed25519]

/-! ## What a call does to the store and to the cache -/

/-- The three ways an import goes, as far as the blocks are concerned. -/
inductive ImportEffect (b : ConsensusBlock) (n n' : ConsensusNode) : Prop
  | refused : (∀ hash, b.hash = .ok hash → n.disk.invalidBlocks.isInvalid hash = true) →
      n'.disk.store = n.disk.store → n'.disk.invalidBlocks = n.disk.invalidBlocks → ImportEffect b n n'
  | rejected {hash : Str} {message : String} : b.hash = .ok hash → n.disk.invalidBlocks.isInvalid hash = false →
      (∀ chain s, Candidate n.forkChoice n.disk.store b chain s → ∀ stored store,
        ¬ Stores n.forkChoice n.disk.store b hash stored store) →
      n'.disk.store = n.disk.store → n'.disk.invalidBlocks = n.disk.invalidBlocks.markInvalid hash message →
      ImportEffect b n n'
  | stored {hash : Str} {chain : List StoredConsensusBlock} {s : ConsensusState} {stored : StoredConsensusBlock} :
      b.hash = .ok hash → n.disk.invalidBlocks.isInvalid hash = false → Candidate n.forkChoice n.disk.store b chain s →
      Stores n.forkChoice n.disk.store b hash stored n'.disk.store → n'.disk.invalidBlocks = n.disk.invalidBlocks →
      ImportEffect b n n'

theorem importBlock_effect {n : ConsensusNode} (h : NodeOk n) (b : ConsensusBlock) :
    ImportEffect b n ((ConsensusNode.importBlock b).call n).2 := by
  generalize hr : (ConsensusNode.importBlock b).call n = r
  have hi := importBlock_cases h b
  rw [hr] at hi
  cases hi with
  | refused hc => exact .refused hc rfl rfl
  | rejected hhash hc hcall =>
    refine .rejected hhash hc (fun chain s hcand stored store hst => ?_) rfl rfl
    rw [(storeCandidate_eq_ok h hhash).mpr ⟨store, ⟨chain, s, hcand⟩, hst, rfl⟩] at hcall
    cases hcall
  | @stored hash oldTip stored n₁ n₂ r hhash hc _ hcall hact =>
    obtain ⟨store, ⟨chain, s, hcand⟩, hst, rfl⟩ := (storeCandidate_eq_ok h hhash).mp hcall
    have hsame := (activate_sameChain oldTip b stored (withStore n store) ⟨rfl, rfl, rfl, rfl⟩).snd
    rw [hact] at hsame
    have hstore : n₂.disk.store = store := hsame.store
    exact .stored hhash hc hcand (hstore ▸ hst) hsame.invalidBlocks

/-! ## Agreement -/

/-- `put_block` can write `b` as a child of `parent`: its encoding exists and its integers are in range. -/
structure Fits (parent : StoredConsensusBlock) (b : ConsensusBlock) : Prop where
  encodes : ∃ payload, b.toBytes = .ok payload
  height : bindInt b.height = .ok ()
  difficulty : bindInt b.difficulty = .ok ()
  cumulativeWork : bindInt (parent.cumulativeWork + workFor b) = .ok ()

/-- No block is stored under the hash of `b` with another header. -/
def NoHeaderCollision (store : ForkStore) (b : ConsensusBlock) : Prop :=
  ∀ hash stored, b.hash = .ok hash → store.getBlock hash = .ok stored → stored.block.headerBytes = b.headerBytes

/-- The header of `b` is in the fork store, and it is not cached as invalid. -/
def Holds (n : ConsensusNode) (b : ConsensusBlock) : Prop :=
  ∃ hash stored, b.hash = .ok hash ∧ n.disk.store.getBlock hash = .ok stored ∧
    stored.block.headerBytes = b.headerBytes ∧ n.disk.invalidBlocks.isInvalid hash = false

/-- After a block went through `put_block`, its header is what is stored under its hash. -/
theorem Stores.header {f : ForkChoice} {store store' : ForkStore} {b : ConsensusBlock} {hash : Str}
    {stored : StoredConsensusBlock} (hst : Stores f store b hash stored store') (hok : StoreOk f store)
    (hhash : b.hash = .ok hash) (hcol : NoHeaderCollision store b) :
    ∃ held, store'.getBlock hash = .ok held ∧ held.block.headerBytes = b.headerBytes := by
  have hok' := hst.storeOk hok hhash
  cases hst with
  | known hmem hget => exact ⟨stored, hget, hcol hash stored hhash hget⟩
  | @new chain s row hmem he hrow hbind =>
    obtain ⟨rfl, hbranch, -⟩ := he.newRow hok hhash hrow
    obtain ⟨br, hbr, hlast, -⟩ := hbranch.last
    rw [List.getLast?_concat, Option.some.injEq, StoredConsensusBlock.mk.injEq] at hlast
    obtain ⟨rfl, -⟩ := hlast
    exact ⟨_, getBlock_of_mem hok'.nodup hbranch.mem hbr, headerBytes_storedBlock b⟩

section Agreement

variable {n : ConsensusNode} {b : ConsensusBlock} {hash : Str} {p : BlockRow} {chain : List StoredConsensusBlock}

/-- A block that replays on the branch of a row passes the checks before `put_block`. -/
theorem candidate_of_replay (h : NodeOk n) (hp : p.hash = b.previousHash) (hb : Branch n.disk.store.blocks p chain)
    {s : ConsensusState}
    (hs : ∃ q, Built n.forkChoice.blockSubsidy n.forkChoice.maxMoney (chain.map (·.block) ++ [b]) q s) :
    b.height = p.height + 1 ∧ Candidate n.forkChoice n.disk.store b chain s := by
  obtain ⟨q, hq⟩ := hs
  obtain ⟨p', s₀, fees, hpre, hv, -, hheight, hprev⟩ := hq.of_snoc_checked
  have hlen := hb.length
  have hnn := hb.height_nonneg
  rw [List.length_map] at hheight hv
  have hne : b.height ≠ 0 := by omega
  obtain ⟨chain', s', hb', hs'⟩ := h.store.branch p hb.mem
  obtain rfl := hb.unique h.store.nodup hb'
  obtain rfl := hpre.unique hs'
  exact ⟨hheight.trans hlen, .child hne hp hb hs' (by rwa [hheight, hprev])⟩

/-- A replayed block is stored. -/
theorem stores_of_replay (h : NodeOk n) (hhash : b.hash = .ok hash) (hp : p.hash = b.previousHash)
    (hb : Branch n.disk.store.blocks p chain) {s : ConsensusState}
    (hs : ∃ q, Built n.forkChoice.blockSubsidy n.forkChoice.maxMoney (chain.map (·.block) ++ [b]) q s)
    (hfits : ∀ bp, RowOf bp p → Fits ⟨bp, p.cumulativeWork⟩ b) :
    Candidate n.forkChoice n.disk.store b chain s ∧
      ∃ stored store, Stores n.forkChoice n.disk.store b hash stored store := by
  obtain ⟨hheight, hcand⟩ := candidate_of_replay h hp hb hs
  obtain ⟨bp, hbp, -⟩ := hb.last
  have hfit := hfits bp hbp
  have hnn := hb.height_nonneg
  have hne : b.height ≠ 0 := by omega
  have hget : n.disk.store.getBlock b.previousHash = .ok ⟨bp, p.cumulativeWork⟩ :=
    hp ▸ getBlock_of_mem h.store.nodup hb.mem hbp
  refine ⟨hcand, ?_⟩
  by_cases hmem : hash ∈ n.disk.store.blocks.map (·.hash)
  · obtain ⟨r, hr, rfl⟩ := List.mem_map.mp hmem
    obtain ⟨br, -, hgetr⟩ := h.store.getBlock hr
    exact ⟨_, _, .known hmem hgetr⟩
  · obtain ⟨payload, hpayload⟩ := hfit.encodes
    have hrow : n.disk.store.newRow b hash = .ok
        ⟨hash, b.height, b.previousHash, b.difficulty, p.cumulativeWork + workFor b, hexEncode payload⟩ := by
      have hwork : n.disk.store.newWork b = .ok (p.cumulativeWork + workFor b) := by
        have hext : b.height = bp.height + 1 := by rw [hheight, hbp.height]
        rw [ForkStore.newWork, if_neg hne, hget, ok_bind, raiseIf_of_not (not_not.mpr hext)]
        rfl
      simp only [ForkStore.newRow, hwork, encodeConsensusBlock, hpayload, ok_bind]
      rfl
    refine ⟨_, _, .new hmem (hcand.extends h.store hhash hrow) hrow ?_⟩
    simp only [ForkStore.bindRow, hfit.height, hfit.difficulty, hfit.cumulativeWork, ok_bind]

/-- A block whose hash is stored has the place in the tree that the stored header says. -/
theorem height_of_known (h : NodeOk n) (hhash : b.hash = .ok hash) (hne : b.height ≠ 0)
    (hp : p.hash = b.previousHash) (hb : Branch n.disk.store.blocks p chain)
    (hmem : hash ∈ n.disk.store.blocks.map (·.hash)) (hcol : NoHeaderCollision n.disk.store b) :
    b.height = p.height + 1 := by
  obtain ⟨r, hr, rfl⟩ := List.mem_map.mp hmem
  obtain ⟨chain', s', hb', hs'⟩ := h.store.branch r hr
  obtain ⟨br, hrow, hget⟩ := h.store.getBlock hr
  have hheader := hcol r.hash _ hhash hget
  obtain ⟨header, hh, -⟩ := bind_eq_ok.mp hhash
  have he := storedBlock_of_headerBytes (hheader.trans hh) hh
  simp only [storedBlock, ConsensusBlock.mk.injEq] at he
  obtain ⟨hheight, hprev, -⟩ := he
  cases hb' with
  | root _ hrow' h₀ =>
    have := hrow'.height
    have := hrow.height
    omega
  | @child _ p' br' _ _ hrow' hbp' hp' hh' =>
    have hr' := getBlock_of_mem h.store.nodup hr hrow'
    rw [hget, Except.ok.injEq, StoredConsensusBlock.mk.injEq] at hr'
    obtain ⟨rfl, -⟩ := hr'
    have hcanon : ∀ {q : BlockRow}, q ∈ n.disk.store.blocks → storedHash q.hash = q.hash := fun hq => by
      obtain ⟨bq, hbq, -⟩ := h.store.getBlock hq
      exact storedHash_hash hbq.hash
    rw [← hp', ← hp, hcanon hbp'.mem, hcanon hb.mem] at hprev
    obtain rfl := List.inj_on_of_nodup_map h.store.nodup hbp'.mem hb.mem hprev
    rw [← hheight, hh']

/-- What is stored replays. -/
theorem replay_of_stores (h : NodeOk n) (hhash : b.hash = .ok hash) (hp : p.hash = b.previousHash)
    (hb : Branch n.disk.store.blocks p chain) {s : ConsensusState}
    {stored : StoredConsensusBlock} {store : ForkStore} (hcand : Candidate n.forkChoice n.disk.store b chain' s)
    (hst : Stores n.forkChoice n.disk.store b hash stored store) (hcol : NoHeaderCollision store b) :
    Built n.forkChoice.blockSubsidy n.forkChoice.maxMoney (chain.map (·.block) ++ [b]) hash s := by
  cases hcand with
  | genesis _ hnil => exact absurd (hnil ▸ hb.mem) List.not_mem_nil
  | @child p' _ s₀ _ fees hne hp' hb' hs' hv =>
    obtain rfl := List.inj_on_of_nodup_map h.store.nodup hb'.mem hb.mem (hp'.trans hp.symm)
    obtain rfl := hb.unique h.store.nodup hb'
    have hheight : b.height = p'.height + 1 := by
      cases hst with
      | known hmem => exact height_of_known h hhash hne hp hb hmem hcol
      | new _ _ hrow =>
        obtain ⟨work, hwork, -⟩ := bind_eq_ok.mp hrow
        rcases newWork_eq_ok hwork with ⟨h₀, -⟩ | ⟨-, parent, hget, hheight, -⟩
        · exact absurd h₀ hne
        · obtain ⟨bp, hbp, -⟩ := hb.last
          rw [← hp, getBlock_of_mem h.store.nodup hb.mem hbp, Except.ok.injEq] at hget
          subst hget
          rw [hheight, hbp.height]
    refine hs'.snoc (f := fees) ?_ hhash
    rw [List.length_map, hb.length, ← hheight, hp]
    exact hv

end Agreement

omit [Ed25519] in
theorem isInvalid_markInvalid (c : InvalidBlockCache) (hash hash' : Str) (message : String) :
    (c.markInvalid hash message).isInvalid hash' = true ↔ hash' = hash ∨ c.isInvalid hash' = true := by
  simp only [InvalidBlockCache.isInvalid, InvalidBlockCache.markInvalid, Table.isSome_lookup]
  split
  · rename_i hin
    rw [List.map_map]
    have hkeys : Prod.fst ∘ (fun r : Str × String => if r.1 = hash then (hash, message) else r) = Prod.fst := by
      funext r
      by_cases hr : r.1 = hash <;> simp [hr]
    rw [hkeys]
    constructor
    · exact .inr
    · rintro (rfl | h)
      · exact hin
      · exact h
  · rw [List.map_append, List.mem_append, or_comm]
    simp

omit [Ed25519]

theorem chainToTip_genesisNode :
    genesisNode.disk.store.getBlock genesisHash = .ok ⟨genesisBlock, 1⟩ ∧
      genesisNode.disk.store.chainToTip genesisHash = .ok [⟨genesisBlock, 1⟩] := by
  decide +kernel

def paymentHash : Str :=
  match paymentBlock.hash with
  | .ok hash => hash
  | .error _ => []

theorem hash_paymentBlock : paymentBlock.hash = .ok paymentHash ∧
    genesisNode.disk.store.hasBlock paymentHash = false := by
  decide +kernel

theorem getBlock_of_not_hasBlock {store : ForkStore} {hash : Str} {stored : StoredConsensusBlock}
    (h : store.hasBlock hash = false) : store.getBlock hash ≠ .ok stored := by
  have hl : Table.lookup BlockRow.hash store.blocks hash = none := by simpa [ForkStore.hasBlock] using h
  rw [ForkStore.getBlock, hl]
  simp

theorem holds_importBlock [Ed25519] {n : ConsensusNode} {b : ConsensusBlock} (h : NodeOk n)
    (hb : Holds ((ConsensusNode.importBlock b).call n).2 b) : Holds n b ∨ ∃ payload, b.toBytes = .ok payload := by
  obtain ⟨hash, held, hhash, hget, hheader, hnot⟩ := hb
  cases importBlock_effect h b with
  | refused _ hstore hcache => exact .inl ⟨hash, held, hhash, hstore ▸ hget, hheader, hcache ▸ hnot⟩
  | rejected hhash' _ _ _ hmark =>
    rw [hhash, Except.ok.injEq] at hhash'
    subst hhash'
    rw [hmark, (isInvalid_markInvalid _ _ _ _).mpr (.inl rfl)] at hnot
    cases hnot
  | @stored hash' chain s stored hhash' _ _ hst hcache =>
    generalize ((ConsensusNode.importBlock b).call n).2.disk.store = store at hst hget
    cases hst with
    | known => exact .inl ⟨hash, held, hhash, hget, hheader, hcache ▸ hnot⟩
    | new _ _ hrow =>
      simp only [ForkStore.newRow, encodeConsensusBlock, bind_eq_ok] at hrow
      obtain ⟨_, -, _, ⟨payload, hpayload, -⟩, -⟩ := hrow
      exact .inr ⟨payload, hpayload⟩

/-- The payment with `k` characters after its signature that base64 skips. -/
def longPayment (k : Nat) : ConsensusTransaction :=
  { payment with
    inputs := [⟨⟨genesisTxid, 0⟩, some (paymentSignature ++ List.replicate k '!'), some aliceKey⟩] }

theorem b64decode_longPayment {k : Nat} (hk : k % 4 = 0) :
    b64decode (paymentSignature ++ List.replicate k '!') = b64decode paymentSignature := by
  have hascii : (paymentSignature ++ List.replicate k '!').all (fun c => c.toNat < 128) = true := by
    rw [List.all_append, Bool.and_eq_true]
    refine ⟨by decide, ?_⟩
    rw [List.all_eq_true]
    exact fun c hc => by rw [List.eq_of_mem_replicate hc]; decide
  have hlen : (4 - (paymentSignature ++ List.replicate k '!').length % 4) % 4 = 2 := by
    rw [List.length_append, List.length_replicate]
    have h86 : paymentSignature.length = 86 := rfl
    omega
  have hshort : b64decode paymentSignature = urlsafeB64decode (paymentSignature ++ List.replicate 2 '=') := rfl
  rw [hshort, b64decode, if_pos hascii, hlen, urlsafeB64decode, List.append_assoc,
    b64Scan_append_replicate (by decide) (by decide), urlsafeB64decode]

/-- The encoding is longer than its signature, which is not too long itself. -/
theorem toBytes_longPayment {k : Nat} (hk : k + 86 < 2 ^ 32) :
    ∃ bs, (longPayment k).toBytes = .ok bs ∧ bs.length = k + 277 := by
  have hutf : ∀ m, (utf8Encode (List.replicate m '!')).length = m := fun m => by
    induction m with
    | zero => rfl
    | succ m ih =>
      rw [List.replicate_succ, utf8Encode_cons, List.length_append, ih]
      exact Nat.add_comm 1 m
  have hlen : (utf8Encode (paymentSignature ++ List.replicate k '!')).length = 86 + k := by
    rw [utf8Encode_append, List.length_append, hutf]
    exact congrArg (· + k) (show (utf8Encode paymentSignature).length = 86 by decide)
  have htext : encodeText (paymentSignature ++ List.replicate k '!') =
      .ok (beBytes 4 (86 + k) ++ utf8Encode (paymentSignature ++ List.replicate k '!')) := by
    rw [encodeText, encodeBytes, hlen, raiseIf_of_not (by omega)]
    rfl
  obtain ⟨point, hpoint, hpointLength⟩ :=
    map_eq_ok.mp (by decide : List.length <$> OutPoint.toBytes ⟨genesisTxid, 0⟩ = .ok 40)
  obtain ⟨key, hkey, hkeyLength⟩ := map_eq_ok.mp
    (by decide : List.length <$> TxInput.publicKeyBytes ⟨⟨genesisTxid, 0⟩, none, some aliceKey⟩ = .ok 59)
  obtain ⟨output, houtput, houtputLength⟩ :=
    map_eq_ok.mp (by decide : List.length <$> TxOutput.toBytes ⟨7, aliceAddress⟩ = .ok 56)
  have hinput : (TxInput.mk ⟨genesisTxid, 0⟩ (some (paymentSignature ++ List.replicate k '!')) (some aliceKey)).toBytes =
      .ok (point ++ (1 :: (beBytes 4 (86 + k) ++ utf8Encode (paymentSignature ++ List.replicate k '!')) ++ key)) := by
    have hkey' : TxInput.publicKeyBytes
        ⟨⟨genesisTxid, 0⟩, some (paymentSignature ++ List.replicate k '!'), some aliceKey⟩ = .ok key := hkey
    simp only [TxInput.toBytes, TxInput.witnessBytes, TxInput.signatureBytes, hpoint, htext, hkey', ok_bind]
    rfl
  refine ⟨_, by simp only [ConsensusTransaction.toBytes, longPayment, payment, List.mapM_cons, List.mapM_nil, hinput,
    houtput, ok_bind]; rfl, ?_⟩
  simp only [List.length_append, List.length_flatten, List.map_cons, List.map_nil, List.sum_cons, List.sum_nil,
    List.length_cons, length_beBytes, hlen, hpointLength, hkeyLength, houtputLength]
  have hmagic : transactionMagic.length = 7 := rfl
  omega

theorem txid_longPayment {k : Nat} (hk : k + 86 < 2 ^ 32) :
    (longPayment k).txid = .ok (txidOf (longPayment k)) := by
  obtain ⟨bs, hbs, -⟩ := toBytes_longPayment hk
  have htx := txid_eq_ok.mpr ⟨bs, hbs, rfl⟩
  rw [txidOf_eq htx, htx]

/-- The state after the long payment: its output is all there is. -/
def afterLong (k : Nat) : ConsensusState :=
  { afterGenesis with utxos := (∅ : UTXOSet).insert ⟨txidOf (longPayment k), 0⟩ ⟨7, aliceAddress⟩ }

theorem spends_longPayment {k : Nat} (hk : k + 86 < 2 ^ 32) (h4 : k % 4 = 0) :
    @Spends aliceVerify afterGenesis (longPayment k) (txidOf (longPayment k)) 3 (afterLong k) := by
  let _ := aliceVerify
  -- The signature is not read by what these say, so they hold as they do for the payment.
  have houtputs : afterGenesis.validateOutputs payment.outputs = .ok () := by decide
  have hspent : spentBy payment = [⟨genesisTxid, 0⟩] := by decide
  have hfee : 3 = inputTotal afterGenesis.utxos payment - outputTotal payment.outputs := by decide
  have hconsume : Ledger.consume afterGenesis.utxos [⟨genesisTxid, 0⟩] = ∅ := by decide
  have hlookup : afterGenesis.utxos.lookup ⟨genesisTxid, 0⟩ = some ⟨10, aliceAddress⟩ := by decide
  have hpay : validateInputSignature payment 0 ⟨⟨genesisTxid, 0⟩, some paymentSignature, some aliceKey⟩
      ⟨10, aliceAddress⟩ = .ok () := by decide +kernel
  have htransfer : transfer (longPayment k) (txidOf (longPayment k)) =
      ⟨[⟨genesisTxid, 0⟩], [(⟨txidOf (longPayment k), 0⟩, ⟨7, aliceAddress⟩)]⟩ := by
    rw [transfer, show spentBy (longPayment k) = spentBy payment from rfl, hspent]
    rfl
  refine ⟨txid_longPayment hk, rfl, houtputs, List.cons_ne_nil _ _, ?_, hfee, by decide, ?_, ?_, rfl⟩
  · intro j x hx
    obtain ⟨rfl, rfl⟩ : j = 0 ∧
        x = ⟨⟨genesisTxid, 0⟩, some (paymentSignature ++ List.replicate k '!'), some aliceKey⟩ := by
      cases j with
      | zero => exact ⟨rfl, (Option.some.inj hx).symm⟩
      | succ j => cases hx
    refine ⟨⟨10, aliceAddress⟩, hlookup, ?_⟩
    obtain ⟨d, signature, key, hd, hsig, -, hkey, haddr, hver⟩ := validateInputSignature_eq_ok.mp hpay
    cases hd
    cases hsig
    refine validateInputSignature_eq_ok.mpr ⟨_, _, key, rfl, rfl, by simp [paymentSignature], hkey, haddr, ?_⟩
    have hmessage : (longPayment k).signingMessage 0 = payment.signingMessage 0 := rfl
    rw [hmessage, verifySignature, b64decode_longPayment h4]
    exact hver
  · rw [htransfer]
    refine ⟨List.nodup_singleton _, fun o ho => ?_, List.nodup_singleton _, fun o _ => ?_, ?_⟩
    · rw [List.mem_singleton.mp ho, ← AList.lookup_isSome, hlookup]
      rfl
    · rw [hconsume]
      exact AList.notMem_empty o
    · rw [hconsume]
      rfl
  · exact (by decide : (7 : Int) ≤ 1000)

/-- A block like the payment block, with the long payment in it. -/
def longBlock (c : ConsensusTransaction) (k : Nat) : ConsensusBlock :=
  { paymentBlock with
    transactions := [c, longPayment k]
    transactionRoot := match calculateTransactionRoot [c, longPayment k] with
      | .ok root => root
      | .error _ => [] }

theorem hash_longBlock {c : ConsensusTransaction} {cid : Str} {k : Nat} (hk : k + 86 < 2 ^ 32) (hc : c.txid = .ok cid) :
    calculateTransactionRoot [c, longPayment k] = .ok (longBlock c k).transactionRoot ∧
      ∃ hash, (longBlock c k).hash = .ok hash := by
  obtain ⟨bs, hbs, hcid⟩ := txid_eq_ok.mp hc
  obtain ⟨bs', hbs', -⟩ := toBytes_longPayment hk
  have hleaf : ∀ {t : ConsensusTransaction} {bs : Bytes}, t.toBytes = .ok bs →
      (t.txid >>= bytesFromhex) = .ok (Sha256.digest bs) := fun {t bs} h => by
    rw [ConsensusTransaction.txid, h, ok_bind]
    show bytesFromhex (hexEncode (Sha256.digest bs)) = _
    rw [bytesFromhex, hexDecode_hexEncode]
  have hroot : calculateTransactionRoot [c, longPayment k] =
      .ok (hexEncode (Sha256.digest (Sha256.digest bs ++ Sha256.digest bs'))) := by
    rw [calculateTransactionRoot, if_neg (List.cons_ne_nil _ _)]
    simp only [List.mapM_cons, List.mapM_nil, hleaf hbs, hleaf hbs', ok_bind]
    rfl
  have hfield : (longBlock c k).transactionRoot = hexEncode (Sha256.digest (Sha256.digest bs ++ Sha256.digest bs')) := by
    rw [longBlock, hroot]
  refine ⟨by rw [hfield, hroot], ?_⟩
  obtain ⟨prev, hprev⟩ := exists_of_isOk (x := encodeHash genesisHash) (by decide)
  have hheader : ∃ header, (longBlock c k).headerBytes = .ok header := by
    simp only [ConsensusBlock.headerBytes, hfield, encodeHash_hexEncode (Sha256.length_digest _)]
    simp only [longBlock, paymentBlock, hprev, ok_bind]
    exact ⟨_, rfl⟩
  obtain ⟨header, hheader⟩ := hheader
  exact ⟨_, by rw [ConsensusBlock.hash, hheader]; rfl⟩

/-- The block is accepted with either coinbase, unless that has the txid of the payment. -/
theorem applyBlock_longBlock {c : ConsensusTransaction} {cid : Str} {k : Nat} (hk : k + 86 < 2 ^ 32) (h4 : k % 4 = 0)
    (hc : (c, cid) ∈ [(aliceCoinbase (-2) 53, rewardTxid), (aliceCoinbase (-1) 10, genesisTxid)])
    (hne : cid ≠ txidOf (longPayment k)) :
    ∃ s, (@applyBlock aliceVerify (longBlock c k) 1 genesisHash).call afterGenesis = (.ok 3, s) := by
  let _ := aliceVerify
  have htxids := txids_sample
  simp only [List.map_cons, List.map_nil, List.cons.injEq, and_true] at htxids
  obtain ⟨hgenesis, hreward, -⟩ := htxids
  have hmint : c.txid = .ok cid ∧ c.version = 1 ∧ afterGenesis.validateOutputs c.outputs = .ok () ∧
      c.isCoinbase = true ∧ coinbaseSigned c = false ∧ outputTotal c.outputs ≤ 53 ∧
      ∃ amount, c.outputs = [⟨amount, aliceAddress⟩] ∧ amount ≤ 53 := by
    simp only [List.mem_cons, Prod.mk.injEq, List.not_mem_nil, or_false] at hc
    rcases hc with ⟨rfl, rfl⟩ | ⟨rfl, rfl⟩
    · exact ⟨hreward, rfl, by decide, by decide, rfl, by decide, 53, rfl, by decide⟩
    · exact ⟨hgenesis, rfl, by decide, by decide, rfl, by decide, 10, rfl, by decide⟩
  obtain ⟨hcid, hversion, houtputs, hcoinbase, hunsigned, htotal, amount, hamount, hle⟩ := hmint
  obtain ⟨hroot, hash, hhash⟩ := hash_longBlock hk hcid
  have hpay : (longPayment k).isCoinbase = false := (by decide : payment.isCoinbase = false)
  have hcheck : checkBlock (longBlock c k) 1 genesisHash = .ok (c, [longPayment k]) := by
    refine checkBlock_eq_ok.mpr ⟨rfl, rfl, rfl, Int.le_refl 0, ⟨hash, hhash, rfl⟩, hroot, rfl, hcoinbase, ?_⟩
    exact fun t ht => by rw [List.mem_singleton.mp ht]; exact hpay
  have happly : ConsensusState.applyTransactions 0 afterGenesis [longPayment k] = .ok (3, afterLong k) := by
    rw [ConsensusState.applyTransactions, (applyTransaction_eq_ok hpay).mpr ⟨_, spends_longPayment hk h4⟩]
    rfl
  have htransfer : transfer c cid = ⟨[], [(⟨cid, 0⟩, ⟨amount, aliceAddress⟩)]⟩ := by
    rw [transfer, spentBy, if_pos hcoinbase, hamount]
    rfl
  refine ⟨{ afterLong k with utxos := (afterLong k).utxos.insert ⟨cid, 0⟩ ⟨amount, aliceAddress⟩ },
    applyBlock_eq_ok.mpr (validateCandidate_eq_ok.mpr ⟨c, [longPayment k], afterLong k, hcheck, happly, ?_⟩)⟩
  rw [ConsensusState.applyCoinbaseOf, if_neg (by simp [longBlock, paymentBlock])]
  have hfresh : (⟨cid, 0⟩ : OutPoint) ∉ (afterLong k).utxos := by
    rw [afterLong, AList.mem_insert, not_or]
    refine ⟨fun e => hne (OutPoint.mk.inj e).1, AList.notMem_empty _⟩
  refine applyBlockCoinbase_eq_ok.mpr ⟨by decide, htotal, cid, hcid, hversion, houtputs, hcoinbase, hunsigned, ?_, ?_,
    rfl⟩
  · rw [htransfer]
    refine ⟨List.nodup_nil, fun o ho => absurd ho List.not_mem_nil, List.nodup_singleton _, fun o ho => ?_, rfl⟩
    rw [List.map_singleton, List.mem_singleton] at ho
    rw [ho]
    exact hfresh
  · rw [total_eq_worth, Ledger.worth_insert hfresh]
    have h7 : Ledger.worth TxOutput.amount (afterLong k).utxos = 7 := rfl
    have h1000 : (afterLong k).maxMoney = 1000 := rfl
    rw [h7, h1000]
    show 7 + amount ≤ 1000
    omega

/-- Only the genesis block is stored, and it has another height. -/
theorem not_holds_longBlock (c : ConsensusTransaction) (k : Nat) : ¬ Holds genesisNode (longBlock c k) := by
  rintro ⟨hash, held, hhash, hget, hheader, -⟩
  have hl : Table.lookup BlockRow.hash genesisNode.disk.store.blocks hash = some genesisRow := by
    cases hl : Table.lookup BlockRow.hash genesisNode.disk.store.blocks hash with
    | none => rw [ForkStore.getBlock, hl] at hget; cases hget
    | some row => rw [List.mem_singleton.mp (List.mem_of_find?_eq_some hl)]
  have hgenesis : genesisRow.hash = hash := by simpa using List.find?_some hl
  rw [← hgenesis, genesisRow, chainToTip_genesisNode.1, Except.ok.injEq] at hget
  subst hget
  obtain ⟨header, hh, -⟩ := bind_eq_ok.mp hhash
  have he := storedBlock_of_headerBytes (hheader.trans hh) hh
  simp only [storedBlock, ConsensusBlock.mk.injEq] at he
  exact absurd he.1 (by simp [genesisBlock, longBlock, paymentBlock])

theorem toBytes_longBlock {c : ConsensusTransaction} {k : Nat} {payload : Bytes} (hk : k + 86 < 2 ^ 32)
    (hlong : 2 ^ 32 ≤ k + 100) : (longBlock c k).toBytes ≠ .ok payload := by
  intro h
  simp only [ConsensusBlock.toBytes, bind_eq_ok, mapM_eq_ok] at h
  obtain ⟨_, -, _, -, payloads, hts, -⟩ := h
  obtain ⟨bs, hbs, hlen⟩ := toBytes_longPayment hk
  cases hts with
  | cons _ hts =>
    cases hts with
    | cons hpay _ =>
      obtain ⟨raw, hraw, hfield⟩ := hpay
      rw [hbs, Except.ok.injEq] at hraw
      rw [← hraw, encodeBytes, raiseIf_of (by omega)] at hfield
      cases hfield

end BCC.Proof
