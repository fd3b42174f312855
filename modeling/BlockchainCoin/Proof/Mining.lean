import BlockchainCoin.Proof.Commitment
import BlockchainCoin.Proof.Pending

/-!
# Blocks the node assembles

`build_candidate_block` takes the pending transactions in an order in which they
apply (`prioritizedTransactions_eq_ok`) and pays their fees and the subsidy to the
miner. The block is refused only for its coinbase: `create_coinbase` lets an amount
of zero pass, and it compares the cap with the supply from which the fees are
already missing (`candidate_accepted_iff`).
-/

namespace BCC.Proof

open BCC.Impl BCC.Ledger BlockProcessor

theorem perm_of_lookup {u u' : UTXOSet} (h : ∀ o, u.lookup o = u'.lookup o) : u.entries.Perm u'.entries :=
  List.lookup_ext u.nodupKeys u'.nodupKeys fun o out => by
    have ho : u.entries.dlookup o = u'.entries.dlookup o := h o
    rw [ho]

theorem total_of_lookup {u u' : UTXOSet} (h : ∀ o, u.lookup o = u'.lookup o) : u.total = u'.total :=
  ((perm_of_lookup h).map fun e : (_ : OutPoint) × TxOutput => e.2.amount).sum_eq

variable [Ed25519]

/-! ## The selection -/

/-- Every pending transaction is selected, in an order in which they apply. -/
theorem prioritizedTransactions_eq_ok {count : Nat} {pending selected : List ConsensusTransaction}
    {s s' : ConsensusState} {f : Int} (hlen : pending.length = count)
    (h : ConsensusNode.prioritizedTransactions count s pending = .ok (selected, f, s')) :
    selected.Perm pending ∧ ∃ fees, applyEach s selected = .ok (fees, s') ∧ f = fees.sum := by
  induction count generalizing s pending selected f with
  | zero =>
    rw [ConsensusNode.prioritizedTransactions, Except.ok.injEq, Prod.mk.injEq, Prod.mk.injEq] at h
    obtain ⟨rfl, rfl, rfl⟩ := h
    rw [List.length_eq_zero_iff.mp hlen]
    exact ⟨.refl _, [], rfl, rfl⟩
  | succ count ih =>
    rw [ConsensusNode.prioritizedTransactions] at h
    obtain ⟨best, -, h⟩ := bind_eq_ok.mp h
    rcases best with _ | ⟨index, score⟩
    · cases h
    simp only at h
    cases ht : pending[index]? with
    | none => rw [ht] at h; cases h
    | some t =>
      rw [ht] at h
      simp only [bind_eq_ok, Prod.exists, pure_eq_ok, Prod.mk.injEq] at h
      obtain ⟨fee, s₁, hfee, rest, fees, s₂, hrest, rfl, rfl, rfl⟩ := h
      obtain ⟨hi, rfl⟩ := List.getElem?_eq_some_iff.mp ht
      have hcount : (pending.eraseIdx index).length = count := by
        rw [List.length_eraseIdx_of_lt hi]
        omega
      obtain ⟨hperm, fees', happ, rfl⟩ := ih hcount hrest
      refine ⟨(hperm.cons _).trans (List.getElem_cons_eraseIdx_perm hi), fee :: fees', ?_, List.sum_cons.symm⟩
      exact applyEach_cons.mpr ⟨fee, fees', s₁, hfee, happ, rfl⟩

/-- Pending transactions that apply in two orders pay the same fees and leave the same outputs. -/
theorem applyEach_confluent {s s₁ s₂ : ConsensusState} {ts us : List ConsensusTransaction} {fees fees' : List Int}
    (hc : ∀ t ∈ ts, t.isCoinbase = false) (hd : DistinctTxids ts)
    (h₁ : applyEach s ts = .ok (fees, s₁)) (h₂ : applyEach s us = .ok (fees', s₂)) (hp : us.Perm ts) :
    fees'.sum = fees.sum ∧ ∀ o, s₂.utxos.lookup o = s₁.utxos.lookup o := by
  have hc' : ∀ t ∈ us, t.isCoinbase = false := fun t ht => hc t (hp.mem_iff.mp ht)
  have hrun : ∀ {l : List ConsensusTransaction} {fs : List Int} {s' : ConsensusState},
      (∀ t ∈ l, t.isCoinbase = false) → applyEach s l = .ok (fs, s') → Run chainRules s.utxos l s'.utxos ∧
        s'.utxos.total = s.utxos.total - fs.sum := fun hl h => by
    exact ⟨applyTransactions_run hl (applyTransactions_of_applyEach h 0), (applyEach_total hl h).1⟩
  obtain ⟨hr₁, ht₁⟩ := hrun hc h₁
  obtain ⟨hr₂, ht₂⟩ := hrun hc' h₂
  have hn : (createdBy chainRules ts).Nodup := nodup_createdBy (o := OutPoint.txid)
    (fun t _ => nodup_createdFrom _ _ _) (fun t _ o ho => txid_of_mem_createdFrom ho) hd.nodup
  have hsame := hr₁.lookup_perm hr₂ hn hp
  have htotal := total_of_lookup hsame
  exact ⟨by omega, hsame⟩

/-! ## The reward -/

omit [Ed25519] in
/-- The coinbase of a block at `height` that pays `amount` to the miner. -/
def minerCoinbase (minerAddress : Str) (amount height : Int) : ConsensusTransaction :=
  ⟨[⟨⟨zeroHash, -(height + 1)⟩, none, none⟩], [⟨amount, minerAddress⟩], 1⟩

omit [Ed25519] in
theorem createCoinbase_eq_ok {s : ConsensusState} {minerAddress : Str} {fees height : Int} {c : ConsensusTransaction} :
    s.createCoinbase minerAddress fees height = .ok c ↔ isValidAddress minerAddress = true ∧ 0 ≤ fees ∧ 0 ≤ height ∧
      s.utxos.total + s.blockSubsidy ≤ s.maxMoney ∧ c = minerCoinbase minerAddress (s.blockSubsidy + fees) height := by
  simp only [ConsensusState.createCoinbase, bind_eq_ok, exists_unit, raiseIf_eq_ok, not_lt, pure_eq_ok,
    Bool.not_eq_true, Bool.not_eq_false]
  simp only [minerCoinbase, eq_comm]

omit [Ed25519] in
/-- A coinbase that pays the miner mints when the amount is positive, fits under the cap and its output is new. -/
theorem mints_minerCoinbase {s : ConsensusState} {minerAddress txid : Str} {amount height : Int}
    (haddr : isValidAddress minerAddress = true) (hheight : 0 ≤ height)
    (htxid : (minerCoinbase minerAddress amount height).txid = .ok txid) (hu : 0 ≤ s.utxos.total) :
    (∃ s', ∃ txid, Mints s (minerCoinbase minerAddress amount height) txid s') ↔
      0 < amount ∧ s.utxos.total + amount ≤ s.maxMoney ∧ ⟨txid, 0⟩ ∉ s.utxos := by
  have htotal : outputTotal [(⟨amount, minerAddress⟩ : TxOutput)] = amount := by simp [outputTotal]
  have hcoinbase : (minerCoinbase minerAddress amount height).isCoinbase = true := by
    simp only [minerCoinbase, ConsensusTransaction.isCoinbase, beq_self_eq_true, Bool.true_and, decide_eq_true_eq]
    omega
  constructor
  · rintro ⟨s', txid', h⟩
    have hid := h.txid_eq
    rw [htxid, Except.ok.injEq] at hid
    subst hid
    have hout := (validateOutputs_eq_ok.mp h.outputs).2 _ (List.mem_singleton_self _)
    have hle := h.le_max
    rw [h.total] at hle
    refine ⟨hout.1, by rw [← htotal]; exact hle, fun hm => ?_⟩
    refine h.step.fresh ⟨txid, 0⟩ (mem_keys_createdFrom.mpr ⟨0, Nat.one_pos, rfl⟩) (mem_consume.mpr ⟨hm, ?_⟩)
    simp [transfer, spentBy, hcoinbase]
  · rintro ⟨hpos, hle, hnew⟩
    simp only [mints_iff]
    have hadd : addOutputs (minerCoinbase minerAddress amount height) s.utxos 0 [⟨amount, minerAddress⟩] =
        .ok (s.utxos.insert ⟨txid, 0⟩ ⟨amount, minerAddress⟩) := by
      rw [addOutputs, htxid, ok_bind, show ((0 : Nat) : Int) = 0 from rfl, add_eq_ok.mpr ⟨hnew, rfl⟩, ok_bind, addOutputs]
    have hworth : UTXOSet.total (s.utxos.insert ⟨txid, 0⟩ ⟨amount, minerAddress⟩) = s.utxos.total + amount :=
      worth_insert (w := TxOutput.amount) hnew
    refine ⟨_, rfl, validateOutputs_eq_ok.mpr ⟨by simp [minerCoinbase], fun o ho => ?_⟩, hcoinbase, rfl, _, hadd,
      commit_eq_ok.mpr ⟨by rw [hworth]; exact hle, rfl⟩⟩
    rw [List.mem_singleton.mp ho]
    exact ⟨hpos, by simp only; omega, haddr⟩

/-! ## The block -/

omit [Ed25519] in
theorem create_eq_ok {height : Int} {previousHash : Str} {ts : List ConsensusTransaction} {difficulty : Int}
    {timestamp : UInt64} {b : ConsensusBlock} :
    ConsensusBlock.create height previousHash ts difficulty timestamp = .ok b ↔
      ∃ root, calculateTransactionRoot ts = .ok root ∧ b = ⟨height, previousHash, ts, difficulty, timestamp, 0, root, 1⟩ := by
  simp only [ConsensusBlock.create, if_true, bind_eq_ok, pure_eq_ok]
  simp only [eq_comm]

/-- A block that pays no more than it may is accepted when its coinbase mints, under either rule. -/
theorem validateBlock_iff_mints {s s₁ : ConsensusState} {b : ConsensusBlock} {c : ConsensusTransaction}
    {rest : List ConsensusTransaction} {h fees : Int} {p : Str} (hcheck : checkBlock b h p = .ok (c, rest))
    (htxs : ConsensusState.applyTransactions 0 s rest = .ok (fees, s₁)) (hf : 0 ≤ fees)
    (hpay : outputTotal c.outputs ≤ s₁.blockSubsidy + fees) :
    (∃ f, validateBlock s b h p = .ok f) ↔ ∃ s', ∃ txid, Mints s₁ c txid s' := by
  have hrule : ∀ s', s₁.applyCoinbaseOf b c fees = .ok s' ↔ ∃ txid, Mints s₁ c txid s' := fun s' => by
    refine ⟨mints_of_applyCoinbaseOf, fun hm => ?_⟩
    unfold ConsensusState.applyCoinbaseOf
    split
    · exact applyGenesisCoinbase_eq_ok.mpr hm
    · exact applyBlockCoinbase_eq_ok.mpr ⟨hf, hpay, hm⟩
  simp only [validateBlock, validateCandidate, hcheck, htxs, ok_bind, bind_eq_ok, Prod.exists, pure_eq_ok, Prod.mk.injEq,
    ← hrule]
  constructor
  · rintro ⟨_, _, s', ⟨_, hs', -, rfl⟩, -⟩
    exact ⟨_, hs'⟩
  · rintro ⟨s', hs'⟩
    exact ⟨fees, fees, s', ⟨s', hs', rfl, rfl⟩, rfl⟩

/-- A block the node assembled is accepted on its active state, whatever the nonce that gives it its work, exactly
when its reward is positive, the supply before it leaves room for the subsidy, and its coinbase is not an unspent one. -/
theorem candidate_accepted_iff (calls : List Call) (n : ConsensusNode) (hn : World.after calls = .up n)
    (fees : List Int) (s : ConsensusState) (hpool : applyEach n.state n.mempool = .ok (fees, s))
    (minerAddress : Str) (timestamp : UInt64) (b : ConsensusBlock)
    (hb : n.buildCandidateBlock minerAddress timestamp = .ok b) (height : Int) (hheight : n.height = .ok height)
    (tip : Str) (htip : n.tipHash = .ok tip) (nonce : Int) (hash : Str)
    (hhash : ConsensusBlock.hash { b with nonce := nonce } = .ok hash)
    (hwork : (List.replicate b.difficulty.toNat '0').isPrefixOf hash = true) :
    (∃ f, validateBlock n.state { b with nonce := nonce } (height + 1) tip = .ok f) ↔
      0 < n.state.blockSubsidy + fees.sum ∧ n.state.utxos.total + n.state.blockSubsidy ≤ n.state.maxMoney ∧
        ∀ txid, (minerCoinbase minerAddress (n.state.blockSubsidy + fees.sum) (height + 1)).txid = .ok txid →
          ⟨txid, 0⟩ ∉ s.utxos := by
  have hok := nodeOk_after hn
  have hsync := synced_after hn
  have hpending : ∀ t ∈ n.mempool, t.isCoinbase = false := fun t ht => (hsync.pending t ht).notCoinbase
  -- What `build_candidate_block` has put together.
  simp only [ConsensusNode.buildCandidateBlock, bind_eq_ok, exists_unit, Prod.exists, hheight, htip, Except.ok.injEq,
    exists_eq_left', createCoinbase_eq_ok, create_eq_ok] at hb
  obtain ⟨-, selected, f, s₂, hselect, c, ⟨haddr, hf, hpos, -, rfl⟩, root, hroot, rfl⟩ := hb
  obtain ⟨hperm, fees₂, happ, rfl⟩ := prioritizedTransactions_eq_ok rfl hselect
  obtain ⟨hfees, hsame⟩ := applyEach_confluent hpending hok.mempool hpool happ hperm
  have hselected : ∀ t ∈ selected, t.isCoinbase = false := fun t ht => hpending t (hperm.mem_iff.mp ht)
  have htxs := applyTransactions_of_applyEach happ 0
  rw [Int.zero_add] at htxs
  obtain ⟨htotal, -, hparams⟩ := applyTransactions_total hselected htxs
  have hsubsidy : s₂.blockSubsidy = n.state.blockSubsidy := by rw [hparams]
  have hmoney : s₂.maxMoney = n.state.maxMoney := by rw [hparams]
  have hvalued := applyTransactions_valued hselected hok.valued htxs
  rw [hsubsidy] at hroot hhash ⊢
  set coinbase := minerCoinbase minerAddress (n.state.blockSubsidy + fees₂.sum) (height + 1) with hcb
  obtain ⟨txid, htxid⟩ : ∃ txid, coinbase.txid = .ok txid := by
    obtain ⟨hbytes, -⟩ := calculateTransactionRoot_eq_ok (List.cons_ne_nil _ _) hroot
    exact ⟨_, txid_eq_ok.mpr ⟨_, hbytes coinbase List.mem_cons_self, rfl⟩⟩
  have hcheck : checkBlock ⟨height + 1, tip, coinbase :: selected, n.difficulty, timestamp, nonce, root, 1⟩ (height + 1) tip =
      .ok (coinbase, selected) := by
    refine checkBlock_eq_ok.mpr ⟨rfl, rfl, rfl, hsync.difficulty, ⟨hash, hhash, hwork⟩, hroot, rfl, ?_, hselected⟩
    simp only [hcb, minerCoinbase, ConsensusTransaction.isCoinbase, beq_self_eq_true, Bool.true_and, decide_eq_true_eq]
    omega
  have hpay : outputTotal coinbase.outputs ≤ s₂.blockSubsidy + fees₂.sum := by
    rw [hsubsidy]
    simp [hcb, minerCoinbase, outputTotal]
  rw [validateBlock_iff_mints hcheck htxs hf hpay, mints_minerCoinbase haddr hpos htxid hvalued.total_nonneg, hmoney, htotal,
    ← hfees]
  have hmem : (⟨txid, 0⟩ : OutPoint) ∈ s₂.utxos ↔ (⟨txid, 0⟩ : OutPoint) ∈ s.utxos := by
    rw [← AList.lookup_isSome, ← AList.lookup_isSome, hsame]
  rw [hmem]
  constructor
  · rintro ⟨hamount, hcap, hnew⟩
    refine ⟨hamount, by omega, fun txid' h => ?_⟩
    rw [htxid, Except.ok.injEq] at h
    exact h ▸ hnew
  · rintro ⟨hamount, hcap, hnew⟩
    exact ⟨hamount, by omega, hnew txid htxid⟩

/-! ## Alice's candidates

On the node with a subsidy of 50 the candidate is accepted; on one with no subsidy and an empty mempool its coinbase
pays nothing, which `_validate_outputs` refuses. -/

omit [Ed25519]

/-- The candidate after the genesis block whose coinbase pays Alice this amount. -/
def aliceCandidate (amount : Int) : ConsensusBlock where
  height := 1
  previousHash := genesisHash
  transactions := [minerCoinbase aliceAddress amount 1]
  difficulty := 0
  timestamp := 0
  transactionRoot := match calculateTransactionRoot [minerCoinbase aliceAddress amount 1] with
    | .ok root => root
    | .error _ => []

theorem candidate_accepted_aliceCandidate :
    ∃ f, @validateBlock aliceVerify afterGenesis (aliceCandidate 50) 1 genesisHash = .ok f := by
  let _ := aliceVerify
  obtain ⟨hash, hhash⟩ := exists_of_isOk (x := (aliceCandidate 50).hash) (by decide +kernel)
  exact (candidate_accepted_iff _ genesisNode created_genesisNode [] afterGenesis rfl aliceAddress 0 (aliceCandidate 50)
    (by decide +kernel) 0 (by decide +kernel) genesisHash (by decide +kernel) 0 hash hhash rfl).mpr
      ⟨by decide, by decide, fun txid h => by
        have hnew : ∀ o ∈ afterGenesis.utxos.keys, (minerCoinbase aliceAddress 50 1).txid ≠ .ok o.txid := by decide +kernel
        exact fun hm => hnew ⟨txid, 0⟩ hm h⟩

theorem unpaid_nonneg : (0 : Int) ≤ 0 := le_rfl

/-- Alice's node with blocks that are worth their fees only. -/
def unpaidNode : ConsensusNode :=
  { genesisNode with
    disk := { genesisNode.disk with store := ⟨[genesisRow], some ⟨0, 0, 1000⟩⟩ }
    state := { afterGenesis with blockSubsidy := 0, blockSubsidy_nonneg := unpaid_nonneg }
    forkChoice := ⟨0, 1000⟩ }

theorem unpaidNode_rejects_candidate :
    @World.after aliceVerify [.create [(aliceAddress, 10)] ⟨0, 0, 1000⟩ 0 1] = .up unpaidNode ∧ unpaidNode.mempool = [] ∧
      @ConsensusNode.buildCandidateBlock aliceVerify unpaidNode aliceAddress 0 = .ok (aliceCandidate 0) ∧
      unpaidNode.height = .ok 0 ∧ unpaidNode.tipHash = .ok genesisHash ∧ (aliceCandidate 0).hash.isOk = true ∧
      (aliceCandidate 0).difficulty = 0 ∧
      @validateBlock aliceVerify unpaidNode.state (aliceCandidate 0) 1 genesisHash =
        .error (.consensusError "output amount must be positive") := by
  refine ⟨by decide +kernel, rfl, by decide +kernel, by decide +kernel, by decide +kernel, by decide +kernel, rfl, ?_⟩
  decide +kernel

end BCC.Proof
