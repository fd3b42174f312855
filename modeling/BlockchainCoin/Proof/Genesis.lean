import BlockchainCoin.Proof.Mining
import BlockchainCoin.Proof.Restart

/-!
# Genesis blocks

Allocations that are valid and within the supply make a node
(`create_of_allocations`), however many they are: nothing bounds the size of the
genesis block, whose coinbase has 56 bytes for each of them
(`toBytes_genesisCoinbase`).
-/

namespace BCC.Proof

open BCC.Impl BCC.Ledger BlockProcessor PyError

/-! ## Addresses and outputs -/

theorem length_utf8Encode_address {address : Str} (h : isValidAddress address = true) :
    (utf8Encode address).length = 44 := by
  rw [isValidAddress, Bool.and_eq_true, List.isPrefixOf_iff_prefix] at h
  obtain ⟨⟨suffix, rfl⟩, hsuffix⟩ := h
  rw [List.drop_left] at hsuffix
  simp only [Bool.and_eq_true, beq_iff_eq, List.all_eq_true, List.contains_iff_mem] at hsuffix
  have hstart : (utf8Encode addressPrefix).length = 4 := by decide
  rw [utf8Encode_append, List.length_append, hstart,
    length_utf8Encode_of_ascii fun c hc => ascii_of_mem_hexDigits c (hsuffix.2 c hc), hsuffix.1]

theorem toBytes_output {o : TxOutput} (ha : isValidAddress o.address = true) (hamount : IsUint64 o.amount) :
    ∃ bs, o.toBytes = .ok bs ∧ bs.length = 56 := by
  obtain ⟨amount, ham⟩ := isUint64_iff.mp hamount
  have hlen := length_utf8Encode_address ha
  have htext : encodeText o.address = .ok (beBytes 4 44 ++ utf8Encode o.address) :=
    encodeBytes_eq_ok.mpr ⟨by omega, by rw [hlen]⟩
  refine ⟨_, by simp only [TxOutput.toBytes, ham, htext, ok_bind]; rfl, ?_⟩
  rw [List.length_append, List.length_append, length_encodeUint ham, length_beBytes, hlen]

theorem toBytes_outputs : ∀ {outputs : List TxOutput},
    (∀ o ∈ outputs, isValidAddress o.address = true ∧ IsUint64 o.amount) →
    ∃ bss, outputs.mapM TxOutput.toBytes = .ok bss ∧ bss.flatten.length = 56 * outputs.length
  | [], _ => ⟨[], rfl, rfl⟩
  | o :: outputs, h => by
    obtain ⟨ho, houtputs⟩ := List.forall_mem_cons.mp h
    obtain ⟨bs, hbs, hlen⟩ := toBytes_output ho.1 ho.2
    obtain ⟨bss, hbss, hlens⟩ := toBytes_outputs houtputs
    refine ⟨bs :: bss, by rw [List.mapM_cons, hbs, ok_bind, hbss]; rfl, ?_⟩
    rw [List.flatten_cons, List.length_append, hlen, hlens, List.length_cons]
    omega

/-! ## Allocations -/

/-- The allocations `create` accepts, where they are not too many for an encoding. -/
structure Allocates (allocations : List (Str × Int)) (maxMoney : Int) : Prop where
  nonempty : allocations ≠ []
  valid : ∀ e ∈ allocations, isValidAddress e.1 = true ∧ 0 < e.2
  total : (allocations.map Prod.snd).sum ≤ maxMoney
  supply : (allocations.map Prod.snd).sum ≤ MAX_MONEY
  count : allocations.length ≤ 2 ^ 24

def allocated (allocations : List (Str × Int)) : List TxOutput := allocations.map fun e => ⟨e.2, e.1⟩

/-- The coinbase of a genesis block. -/
def genesisCoinbase (allocations : List (Str × Int)) : ConsensusTransaction :=
  ⟨[⟨⟨zeroHash, -1⟩, none, none⟩], allocated allocations, 1⟩

/-- The genesis block with this root, for difficulty 0. -/
def genesisOf (allocations : List (Str × Int)) (timestamp : UInt64) (root : Str) : ConsensusBlock :=
  ⟨0, zeroHash, [genesisCoinbase allocations], 0, timestamp, 0, root, 1⟩

theorem genesisOutputs_of_valid : ∀ {allocations : List (Str × Int)},
    (∀ e ∈ allocations, isValidAddress e.1 = true ∧ 0 < e.2) →
    ConsensusNode.genesisOutputs allocations = .ok (allocated allocations, (allocations.map Prod.snd).sum)
  | [], _ => rfl
  | (address, amount) :: allocations, h => by
    obtain ⟨⟨ha, hpos⟩, hrest⟩ := List.forall_mem_cons.mp h
    rw [ConsensusNode.genesisOutputs, raiseIf_of_not (not_not.mpr ha), raiseIf_of_not (not_le.mpr hpos),
      genesisOutputs_of_valid hrest]
    rfl

theorem le_sum_of_mem : ∀ {amounts : List Int}, (∀ a ∈ amounts, 0 < a) → ∀ a ∈ amounts, a ≤ amounts.sum
  | [], _, a, ha => absurd ha List.not_mem_nil
  | b :: amounts, h, a, ha => by
    obtain ⟨hb, hrest⟩ := List.forall_mem_cons.mp h
    have hnn : 0 ≤ amounts.sum := List.sum_nonneg fun a ha => Int.le_of_lt (hrest a ha)
    rw [List.sum_cons]
    rcases List.mem_cons.mp ha with rfl | ha
    · omega
    · have := le_sum_of_mem hrest a ha
      omega

/-- `create` returns on an empty store when the genesis block is built, replays, is stored and can be indexed. -/
theorem create_call [Ed25519] {d : Disk} {p : ChainParameters} {allocations : List (Str × Int)} {timestamp : UInt64}
    {fuel : Nat} {genesis : ConsensusBlock} {hash : Str} {s₀ s : ConsensusState} {fees : Int}
    {stored : StoredConsensusBlock} {store : ForkStore} (hnil : d.store.blocks = []) (hdiff : 0 ≤ p.difficulty)
    (hs₀ : ConsensusState.init ∅ p.blockSubsidy p.maxMoney = .ok s₀)
    (hblock : ConsensusNode.buildGenesisBlock allocations p.difficulty timestamp fuel = .ok genesis)
    (hs : validateCandidate s₀ genesis 0 zeroHash = .ok (fees, s)) (hhash : genesis.hash = .ok hash)
    (hput : (d.store.saveChainParameters p).putBlock genesis = .ok (stored, store)) (hbindable : Bindable s.utxos) :
    ∃ n d', (ConsensusNode.create allocations p timestamp fuel).call d = (.ok n, d') ∧ n.disk.store = store := by
  have hext : Extends ⟨p.blockSubsidy, p.maxMoney⟩ (d.store.saveChainParameters p) genesis [] s := by
    obtain ⟨c, rest, s₁, hcheck, -⟩ := validateCandidate_eq_ok.mp hs
    obtain ⟨h₀, hprev, -⟩ := checkBlock_eq_ok.mp hcheck
    exact ⟨.inl ⟨h₀, hnil, hprev, rfl⟩, hash, .snoc (.nil hs₀) hs hhash⟩
  have hempty : StoreOk ⟨p.blockSubsidy, p.maxMoney⟩ (d.store.saveChainParameters p) := storeOk_nil hnil
  obtain ⟨a, ha⟩ := (hempty.putBlock hext hput).exists_activeChain ⟨s₀, hs₀⟩
  obtain ⟨index, hindex⟩ : ∃ index, d.utxoIndex.saveSnapshot hash s.utxos = .ok index :=
    ⟨_, saveSnapshot_eq_ok.mpr ⟨hbindable, rfl⟩⟩
  obtain ⟨us, d', hinit⟩ := init_call (d := ⟨store, ⟨[]⟩, index, d.invalidBlocks⟩) distinctTxids_nil rfl hdiff a.state {}
    ⟨p.blockSubsidy, p.maxMoney⟩
  have happly := Method.onLocal_eq_ok.mpr (applyBlock_of_ok hs)
  have hpool : MempoolStore.replaceAll [] = .ok ⟨[]⟩ := rfl
  refine ⟨_, d', Eq.trans ?_ hinit, rfl⟩
  refine (Method.call_bind_reading (f := fun d : Disk => d.store.bestTip) (s := d) (StoreOk.bestTip_of_nil hnil)).trans ?_
  refine (Method.call_bind_reading (a := ()) ?_).trans ?_
  · exact raiseIf_of_not (by decide)
  refine (Method.call_bind_of_ok (Method.call_modify _ _)).trans ?_
  refine (Method.call_bind_reading (a := (s, genesis)) ?_).trans ?_
  · rw [hs₀, ok_bind, hblock, ok_bind, happly]
    rfl
  refine (Method.call_bind_assigning (a := ()) (by rw [hput]; rfl)).trans ?_
  refine (Method.call_bind_assigning (a := ()) (by rw [hpool]; rfl)).trans ?_
  refine (Method.call_bind_assigning (a := ()) (by rw [hhash, ok_bind, hindex]; rfl)).trans ?_
  exact Method.call_bind_reading (f := fun d : Disk => (⟨p.blockSubsidy, p.maxMoney⟩ : ForkChoice).activeChain d.store) ha

namespace Allocates

variable {allocations : List (Str × Int)} {maxMoney : Int}

theorem amount_le (h : Allocates allocations maxMoney) : ∀ o ∈ allocated allocations,
    isValidAddress o.address = true ∧ 0 < o.amount ∧ o.amount ≤ (allocations.map Prod.snd).sum := fun o ho => by
  obtain ⟨e, he, rfl⟩ := List.mem_map.mp ho
  obtain ⟨ha, hpos⟩ := h.valid e he
  have hall : ∀ a ∈ allocations.map Prod.snd, 0 < a := fun a ha => by
    obtain ⟨e', he', rfl⟩ := List.mem_map.mp ha
    exact (h.valid e' he').2
  exact ⟨ha, hpos, le_sum_of_mem hall _ (List.mem_map_of_mem he)⟩

theorem toBytes_genesisCoinbase (h : Allocates allocations maxMoney) :
    ∃ bs, (genesisCoinbase allocations).toBytes = .ok bs ∧ bs.length = 73 + 56 * allocations.length := by
  obtain ⟨bss, hbss, hlen⟩ := toBytes_outputs fun o (ho : o ∈ allocated allocations) => by
    obtain ⟨ha, hpos, hle⟩ := h.amount_le o ho
    have hsupply := h.supply
    rw [MAX_MONEY] at hsupply
    exact ⟨ha, by omega, by omega⟩
  obtain ⟨input, hinput, hinputLength⟩ := map_eq_ok.mp
    (by decide : List.length <$> TxInput.toBytes ⟨⟨zeroHash, -1⟩, none, none⟩ = .ok 42)
  have hcount : IsUint64 (allocated allocations).length := by
    have := h.count
    rw [allocated, List.length_map]
    exact ⟨by omega, by omega⟩
  obtain ⟨version, hversion⟩ := isInt64_iff.mp (show IsInt64 1 from ⟨by decide, by decide⟩)
  obtain ⟨inputCount, hinputCount⟩ := isUint64_iff.mp (show IsUint64 1 from ⟨by decide, by decide⟩)
  obtain ⟨outputCount, houtputCount⟩ := isUint64_iff.mp hcount
  refine ⟨transactionMagic ++ version ++ inputCount ++ [input].flatten ++ outputCount ++ bss.flatten, ?_, ?_⟩
  · simp only [ConsensusTransaction.toBytes, genesisCoinbase, hversion, List.length_singleton, Nat.cast_one,
      hinputCount, List.mapM_cons, List.mapM_nil, hinput, houtputCount, hbss, ok_bind, pure_bind]
    rfl
  · have hmagic : transactionMagic.length = 7 := rfl
    simp only [List.length_append, length_encodeInt hversion, length_encodeUint hinputCount, length_encodeUint houtputCount,
      List.flatten_cons, List.flatten_nil, List.append_nil, hinputLength, hlen, allocated, List.length_map]
    omega

/-- The block has a hash and an encoding, and the root of its transactions. -/
theorem encodes_genesisOf (h : Allocates allocations maxMoney) (timestamp : UInt64) : ∃ root hash raw,
    calculateTransactionRoot [genesisCoinbase allocations] = .ok root ∧
      (genesisOf allocations timestamp root).hash = .ok hash ∧
      (genesisOf allocations timestamp root).toBytes = .ok raw ∧ 56 * allocations.length ≤ raw.length := by
  obtain ⟨bs, hbs, hlen⟩ := h.toBytes_genesisCoinbase
  have hleaf : ((genesisCoinbase allocations).txid >>= bytesFromhex) = .ok (Sha256.digest bs) := by
    rw [ConsensusTransaction.txid, hbs, ok_bind]
    show bytesFromhex (hexEncode (Sha256.digest bs)) = _
    rw [bytesFromhex, hexDecode_hexEncode]
  have hroot : calculateTransactionRoot [genesisCoinbase allocations] = .ok (hexEncode (Sha256.digest bs)) := by
    rw [calculateTransactionRoot, if_neg (List.cons_ne_nil _ _)]
    simp only [List.mapM_cons, List.mapM_nil, hleaf, ok_bind]
    rfl
  obtain ⟨zero, hzero⟩ := exists_of_isOk (x := encodeHash zeroHash) (by decide)
  obtain ⟨low, hlow⟩ := isInt64_iff.mp (show IsInt64 0 from ⟨by decide, by decide⟩)
  obtain ⟨version, hversion⟩ := isInt64_iff.mp (show IsInt64 1 from ⟨by decide, by decide⟩)
  obtain ⟨count, hcount⟩ := isUint64_iff.mp (show IsUint64 1 from ⟨by decide, by decide⟩)
  have hfield : encodeBytes bs = .ok (beBytes 4 bs.length ++ bs) :=
    encodeBytes_eq_ok.mpr ⟨by have := h.count; omega, rfl⟩
  obtain ⟨header, hheader⟩ : ∃ header,
      (genesisOf allocations timestamp (hexEncode (Sha256.digest bs))).headerBytes = .ok header := by
    simp only [ConsensusBlock.headerBytes, genesisOf, hversion, hlow, hzero, encodeHash_hexEncode (Sha256.length_digest _),
      ok_bind]
    exact ⟨_, rfl⟩
  refine ⟨_, sha256Hex header, header ++ count ++ (beBytes 4 bs.length ++ bs), hroot, ?_, ?_, ?_⟩
  · rw [ConsensusBlock.hash, hheader]
    rfl
  · rw [ConsensusBlock.toBytes, hheader]
    simp only [ok_bind, genesisOf, List.length_singleton, Nat.cast_one, hcount, List.mapM_cons, List.mapM_nil, hbs, hfield,
      pure_bind]
    simp only [List.flatten_cons, List.flatten_nil, List.append_nil]
    rfl
  · simp only [List.length_append, hlen]
    omega

/-- No work is needed for difficulty 0. -/
theorem buildGenesisBlock_of_root (h : Allocates allocations maxMoney) {timestamp : UInt64} {root hash : Str}
    (hroot : calculateTransactionRoot [genesisCoinbase allocations] = .ok root)
    (hhash : (genesisOf allocations timestamp root).hash = .ok hash) :
    ConsensusNode.buildGenesisBlock allocations 0 timestamp 1 = .ok (genesisOf allocations timestamp root) := by
  have hcreate : ConsensusBlock.create 0 zeroHash [genesisCoinbase allocations] 0 timestamp =
      .ok (genesisOf allocations timestamp root) := create_eq_ok.mpr ⟨root, hroot, rfl⟩
  rw [ConsensusNode.buildGenesisBlock, raiseIf_of_not (by decide), raiseIf_of_not h.nonempty,
    genesisOutputs_of_valid h.valid]
  simp only [ok_bind, raiseIf_of_not (not_lt.mpr h.supply)]
  show (ConsensusBlock.create 0 zeroHash [genesisCoinbase allocations] 0 timestamp >>= _) = _
  rw [hcreate, ok_bind, ConsensusNode.mine, ConsensusNode.mineLoop, hhash]
  rfl

variable [Ed25519]

omit [Ed25519] in
theorem isCoinbase_genesisCoinbase (allocations : List (Str × Int)) : (genesisCoinbase allocations).isCoinbase = true := by
  show (zeroHash == zeroHash && decide ((-1 : Int) < 0)) = true
  decide

omit [Ed25519] in
theorem mints_genesisCoinbase (h : Allocates allocations maxMoney) {s₀ : ConsensusState} {subsidy : Int}
    (hs₀ : ConsensusState.init ∅ subsidy maxMoney = .ok s₀) : ∃ txid s, Mints s₀ (genesisCoinbase allocations) txid s := by
  obtain ⟨hutxos, -, hmax⟩ := init_eq_ok hs₀
  obtain ⟨bs, hbs, -⟩ := h.toBytes_genesisCoinbase
  have htxid := txid_eq_ok.mpr ⟨bs, hbs, rfl⟩
  generalize sha256Hex bs = txid at htxid
  have hcoinbase := isCoinbase_genesisCoinbase allocations
  have htransfer : transfer (genesisCoinbase allocations) txid = ⟨[], createdFrom txid 0 (allocated allocations)⟩ := by
    rw [transfer, spentBy, if_pos hcoinbase]
    rfl
  have hstep : Step s₀.utxos (transfer (genesisCoinbase allocations) txid)
      (produce ∅ (createdFrom txid 0 (allocated allocations))) := by
    rw [hutxos, htransfer]
    exact ⟨List.nodup_nil, fun o ho => absurd ho List.not_mem_nil, nodup_createdFrom _ _ _,
      fun o _ => AList.notMem_empty o, rfl⟩
  have hworth := hstep.worth (w := TxOutput.amount)
  rw [hutxos, htransfer, List.map_nil, List.sum_nil, sum_createdFrom, outputTotal, allocated, List.map_map] at hworth
  have hempty : worth TxOutput.amount (∅ : UTXOSet) = 0 := rfl
  refine ⟨txid, { s₀ with utxos := produce ∅ (createdFrom txid 0 (allocated allocations)) }, htxid, rfl,
    validateOutputs_eq_ok.mpr ⟨fun hnil => h.nonempty (List.map_eq_nil_iff.mp hnil), fun o ho => ?_⟩, hcoinbase, rfl,
    hstep, ?_, rfl⟩
  · obtain ⟨ha, hpos, hle⟩ := h.amount_le o ho
    exact ⟨hpos, hmax ▸ hle.trans h.total, ha⟩
  · have htotal : (allocations.map ((fun o : TxOutput => o.amount) ∘ fun e => ⟨e.2, e.1⟩)).sum ≤ maxMoney := h.total
    rw [total_eq_worth, allocated, hworth, hmax]
    omega

/-- The block replays from nothing, to a state that an index can hold. -/
theorem validateCandidate_genesisOf (h : Allocates allocations maxMoney) {s₀ : ConsensusState} {subsidy : Int}
    (hs₀ : ConsensusState.init ∅ subsidy maxMoney = .ok s₀) {timestamp : UInt64} {root hash : Str}
    (hroot : calculateTransactionRoot [genesisCoinbase allocations] = .ok root)
    (hhash : (genesisOf allocations timestamp root).hash = .ok hash) :
    ∃ s, validateCandidate s₀ (genesisOf allocations timestamp root) 0 zeroHash = .ok (0, s) ∧ Bindable s.utxos := by
  obtain ⟨txid, s, hmints⟩ := h.mints_genesisCoinbase hs₀
  have hcoinbase := isCoinbase_genesisCoinbase allocations
  have hcheck : checkBlock (genesisOf allocations timestamp root) 0 zeroHash = .ok (genesisCoinbase allocations, []) := by
    refine checkBlock_eq_ok.mpr ⟨rfl, rfl, rfl, Int.le_refl 0, ⟨hash, hhash, rfl⟩, hroot, rfl, hcoinbase, ?_⟩
    exact fun t ht => absurd ht List.not_mem_nil
  have happly : s₀.applyCoinbaseOf (genesisOf allocations timestamp root) (genesisCoinbase allocations) 0 = .ok s := by
    rw [ConsensusState.applyCoinbaseOf, if_pos ⟨rfl, rfl⟩]
    exact applyGenesisCoinbase_eq_ok.mpr ⟨txid, hmints⟩
  refine ⟨s, validateCandidate_eq_ok.mpr ⟨_, [], s₀, hcheck, rfl, happly⟩, bindable_iff.mpr fun o out ho => ?_⟩
  rcases hmints.step.lookup_eq_some ho with hcreated | ⟨-, ho⟩
  · obtain ⟨i, rfl, hi⟩ := mem_createdFrom.mp hcreated
    obtain ⟨hlt, rfl⟩ := List.getElem?_eq_some_iff.mp hi
    obtain ⟨-, hpos, hle⟩ := h.amount_le _ (List.getElem_mem hlt)
    have hcount := h.count
    have hsupply := h.supply
    rw [MAX_MONEY] at hsupply
    rw [genesisCoinbase, allocated, List.length_map] at hlt
    exact ⟨⟨by simp only; omega, by simp only; omega⟩, by omega, by omega⟩
  · rw [(init_eq_ok hs₀).1] at ho
    cases ho

/-- `create` makes a node of the allocations, and stores their block. -/
theorem create_of_allocations (h : Allocates allocations maxMoney) {subsidy : Int} (hsubsidy : 0 ≤ subsidy)
    (timestamp : UInt64) : ∃ n hash stored raw,
      World.after [.create allocations ⟨0, subsidy, maxMoney⟩ timestamp 1] = .up n ∧
        n.disk.store.getBlock hash = .ok stored ∧ stored.block.toBytes = .ok raw ∧
        56 * allocations.length ≤ raw.length := by
  obtain ⟨root, hash, raw, hroot, hhash, hraw, hlen⟩ := h.encodes_genesisOf timestamp
  have hmax : 0 < maxMoney := by
    obtain ⟨o, rest, ho⟩ := List.exists_cons_of_ne_nil h.nonempty
    obtain ⟨-, hpos, hle⟩ := h.amount_le ⟨o.2, o.1⟩ (by rw [ho]; exact List.mem_cons_self)
    exact Int.lt_of_lt_of_le hpos (hle.trans h.total)
  obtain ⟨s₀, hs₀⟩ : ∃ s₀, ConsensusState.init ∅ subsidy maxMoney = .ok s₀ := by
    rw [ConsensusState.init, dif_neg (not_lt.mpr hsubsidy), dif_neg (not_le.mpr hmax)]
    exact ⟨_, rfl⟩
  obtain ⟨s, hs, hbindable⟩ := h.validateCandidate_genesisOf hs₀ hroot hhash
  have hstore : (Disk.empty.store.saveChainParameters ⟨0, subsidy, maxMoney⟩).putBlock (genesisOf allocations timestamp root) =
      .ok (⟨genesisOf allocations timestamp root, 1⟩,
        ⟨[⟨hash, 0, zeroHash, 0, 1, hexEncode raw⟩], some ⟨0, subsidy, maxMoney⟩⟩) := by
    refine putBlock_eq_ok.mpr ⟨hash, hhash, .inr ⟨List.not_mem_nil, ⟨hash, 0, zeroHash, 0, 1, hexEncode raw⟩, ?_, ?_, rfl, rfl⟩⟩
    · simp only [ForkStore.newRow, encodeConsensusBlock, hraw]
      rfl
    · simp only [ForkStore.bindRow, bind_eq_ok, exists_unit, bindInt_eq_ok]
      exact ⟨⟨by decide, by decide⟩, ⟨by decide, by decide⟩, by decide, by decide⟩
  obtain ⟨n, d', hcall, hn⟩ := create_call (p := ⟨0, subsidy, maxMoney⟩) rfl (Int.le_refl 0) hs₀
    (h.buildGenesisBlock_of_root hroot hhash) hs hhash hstore hbindable
  have hafter : World.after [.create allocations ⟨0, subsidy, maxMoney⟩ timestamp 1] = .up n := by
    show World.made ((ConsensusNode.create allocations ⟨0, subsidy, maxMoney⟩ timestamp 1).call Disk.empty) = _
    rw [hcall]
    rfl
  obtain ⟨b, hb, hget⟩ := (nodeOk_after hafter).store.getBlock (by rw [hn]; exact List.mem_singleton_self _)
  obtain ⟨raw', hraw', hback⟩ := bind_eq_ok.mp hb.data
  rw [bytesFromhex, hexDecode_hexEncode, Except.ok.injEq] at hraw'
  subst hraw'
  exact ⟨n, hash, _, raw, hafter, hget, (takes_block.of_run' hback).1, hlen⟩

end Allocates

end BCC.Proof
