import BlockchainCoin.Proof.Block

/-!
# What a whole chain does to the money supply

`Replays` is `rebuild_state_from_blocks` with the fees `apply_block` returned
along the way (`replayBlocks_eq_ok`). A block takes its fees out of the total
and puts its coinbase in (`Accepted.total`), and from this the total of a chain
follows by induction over its blocks (`supply_conserved`).
-/

namespace BCC.Proof

open BCC.Impl BCC.Ledger BlockProcessor

variable [Ed25519]

/-! ## Transactions and blocks -/

theorem Spends.total {s s' : ConsensusState} {t : ConsensusTransaction} {txid : Str} {fee : Int}
    (h : Spends s t txid fee s') : s'.utxos.total = s.utxos.total - fee := by
  have hw := h.step.worth (w := TxOutput.amount)
  simp only [transfer, sum_createdFrom] at hw
  rw [total_eq_worth, total_eq_worth, hw, h.fee_eq, inputTotal]
  omega

omit [Ed25519] in
theorem Mints.total {s s' : ConsensusState} {t : ConsensusTransaction} {txid : Str} (h : Mints s t txid s') :
    s'.utxos.total = s.utxos.total + outputTotal t.outputs := by
  have hw := h.step.worth (w := TxOutput.amount)
  simp only [transfer, spentBy, h.isCoinbase, ite_true, sum_createdFrom, List.map_nil, List.sum_nil] at hw
  rw [total_eq_worth, total_eq_worth, hw]
  omega

/-- The transactions of a block before its coinbase: their fees leave the total. -/
theorem applyTransactions_total {ts : List ConsensusTransaction} {fees f : Int} {s s' : ConsensusState}
    (hc : ∀ t ∈ ts, t.isCoinbase = false) (h : ConsensusState.applyTransactions fees s ts = .ok (f, s')) :
    s'.utxos.total = s.utxos.total - (f - fees) ∧ fees ≤ f ∧ s' = { s with utxos := s'.utxos } := by
  induction ts generalizing fees s with
  | nil =>
    rw [ConsensusState.applyTransactions, Except.ok.injEq, Prod.mk.injEq] at h
    obtain ⟨rfl, rfl⟩ := h
    exact ⟨by omega, Int.le_refl _, rfl⟩
  | cons t ts ih =>
    rw [ConsensusState.applyTransactions] at h
    obtain ⟨⟨fee, s₁⟩, ht, hts⟩ := bind_eq_ok.mp h
    obtain ⟨txid, hsp⟩ := (applyTransaction_eq_ok (hc t List.mem_cons_self)).mp ht
    obtain ⟨htot, hle, hpar⟩ := ih (fun t ht => hc t (List.mem_cons_of_mem _ ht)) hts
    have h₁ := hsp.total
    have hfee := hsp.fee_nonneg
    refine ⟨by omega, by omega, ?_⟩
    rw [hpar, hsp.params]

/-- What the coinbase transactions of a block pay. -/
def coinbaseTotal (b : ConsensusBlock) : Int :=
  ((b.transactions.filter (·.isCoinbase)).map fun t => outputTotal t.outputs).sum

omit [Ed25519] in
theorem Checked.coinbaseTotal_eq {b : ConsensusBlock} {c : ConsensusTransaction}
    {rest : List ConsensusTransaction} (h : Checked b c rest) : coinbaseTotal b = outputTotal c.outputs := by
  have hrest : rest.filter (·.isCoinbase) = [] := List.filter_eq_nil_iff.mpr fun t ht => by simp [h.others t ht]
  simp [coinbaseTotal, h.transactions, h.coinbase, hrest]

/-- What an accepted block does to the total of the UTXO set. -/
structure Accepted (s : ConsensusState) (b : ConsensusBlock) (fees : Int) (s' : ConsensusState) : Prop where
  total : s'.utxos.total = s.utxos.total + coinbaseTotal b - fees
  fees_nonneg : 0 ≤ fees
  reward : b.height ≠ 0 → coinbaseTotal b ≤ s.blockSubsidy + fees
  le_max : s'.utxos.total ≤ s.maxMoney
  params : s' = { s with utxos := s'.utxos }

theorem accepted_of_validateCandidate {s s' : ConsensusState} {b : ConsensusBlock} {h : Int} {p : Str}
    {fees : Int} (hv : validateCandidate s b h p = .ok (fees, s')) : Accepted s b fees s' := by
  obtain ⟨c, rest, s₁, hc, hts, hcb⟩ := validateCandidate_eq_ok.mp hv
  obtain ⟨-, -, hb⟩ := checkBlock_eq_ok.mp hc
  obtain ⟨txid, hm⟩ := mints_of_applyCoinbaseOf hcb
  obtain ⟨htot, hfees, hpar⟩ := applyTransactions_total hb.others hts
  have hmt := hm.total
  refine ⟨by rw [hb.coinbaseTotal_eq]; omega, hfees, fun hh => ?_, ?_, ?_⟩
  · rw [ConsensusState.applyCoinbaseOf, if_neg (fun h => hh h.1)] at hcb
    have hr := (applyBlockCoinbase_eq_ok.mp hcb).2.1
    rw [hpar] at hr
    rw [hb.coinbaseTotal_eq]
    exact hr
  · have hmax := hm.le_max
    rw [hpar] at hmax
    exact hmax
  · rw [hm.params, hpar]

/-! ## Chains -/

/-- The blocks take `s` to `s'`, the first one at height `h` on the block of hash `p`; `apply_block`
returned the `fees` for them. -/
inductive Replays : ConsensusState → Int → Str → List ConsensusBlock → List Int → ConsensusState → Prop
  | nil (s : ConsensusState) (h : Int) (p : Str) : Replays s h p [] [] s
  | cons {s s₁ s' : ConsensusState} {h : Int} {p hash : Str} {b : ConsensusBlock} {bs : List ConsensusBlock}
      {f : Int} {fs : List Int} :
    (applyBlock b h p).call s = (.ok f, s₁) → b.hash = .ok hash → Replays s₁ (h + 1) hash bs fs s' →
      Replays s h p (b :: bs) (f :: fs) s'

theorem replayBlocks_eq_ok {bs : List ConsensusBlock} {s s' : ConsensusState} {h : Int} {p : Str} :
    replayBlocks s h p bs = .ok s' ↔ ∃ fs, Replays s h p bs fs s' := by
  induction bs generalizing s h p with
  | nil =>
    rw [replayBlocks, Except.ok.injEq]
    constructor
    · rintro rfl
      exact ⟨[], .nil s h p⟩
    · rintro ⟨fs, hr⟩
      cases hr
      rfl
  | cons b bs ih =>
    simp only [replayBlocks, bind_eq_ok, Method.onLocal_eq_ok, Prod.exists, ih]
    constructor
    · rintro ⟨f, s₁, ha, hash, hh, fs, hr⟩
      exact ⟨f :: fs, .cons ha hh hr⟩
    · rintro ⟨fs, hr⟩
      cases hr with
      | cons ha hh hr => exact ⟨_, _, ha, _, hh, _, hr⟩

theorem rebuildStateFromBlocks_eq_ok {bs : List ConsensusBlock} {subsidy maxMoney : Int} {s : ConsensusState} :
    rebuildStateFromBlocks bs subsidy maxMoney = .ok s ↔
      ∃ s₀ fs, ConsensusState.init ∅ subsidy maxMoney = .ok s₀ ∧ Replays s₀ 0 zeroHash bs fs s := by
  simp only [rebuildStateFromBlocks, bind_eq_ok, replayBlocks_eq_ok]
  exact exists_congr fun s₀ => exists_and_left.symm

omit [Ed25519] in
theorem init_eq_ok {u : UTXOSet} {subsidy maxMoney : Int} {s : ConsensusState}
    (h : ConsensusState.init u subsidy maxMoney = .ok s) :
    s.utxos = u ∧ s.blockSubsidy = subsidy ∧ s.maxMoney = maxMoney := by
  unfold ConsensusState.init at h
  split at h
  · cases h
  · split at h
    · cases h
    · rw [Except.ok.injEq] at h
      subst h
      exact ⟨rfl, rfl, rfl⟩

/-- The blocks of a chain after its first one earn at most the subsidy and their fees. -/
def Earned (subsidy : Int) (bs : List ConsensusBlock) (fs : List Int) : Prop :=
  List.Forall₂ (fun b f => coinbaseTotal b ≤ subsidy + f) bs fs

/-- The total over any part of a chain, by induction over its blocks. -/
theorem Replays.total {s s' : ConsensusState} {h : Int} {p : Str} {bs : List ConsensusBlock} {fs : List Int}
    (hr : Replays s h p bs fs s') :
    s'.utxos.total = s.utxos.total + (bs.map coinbaseTotal).sum - fs.sum ∧ (∀ f ∈ fs, 0 ≤ f) ∧
      (s.utxos.total ≤ s.maxMoney → s'.utxos.total ≤ s.maxMoney) ∧ s' = { s with utxos := s'.utxos } ∧
      (0 < h → Earned s.blockSubsidy bs fs) := by
  induction hr with
  | nil s h p => exact ⟨by simp, by simp, fun h => h, rfl, fun _ => .nil⟩
  | @cons s s₁ s' h p hash b bs f fs ha hh _ ih =>
    have hv := applyBlock_eq_ok.mp ha
    obtain ⟨c, rest, _, hc, -⟩ := validateCandidate_eq_ok.mp hv
    obtain ⟨hheight, -⟩ := checkBlock_eq_ok.mp hc
    have hacc := accepted_of_validateCandidate hv
    obtain ⟨htot, hfs, hmax, hpar, hearn⟩ := ih
    have hsub : s₁.blockSubsidy = s.blockSubsidy := by rw [hacc.params]
    have hmm : s₁.maxMoney = s.maxMoney := by rw [hacc.params]
    refine ⟨?_, ?_, fun _ => ?_, ?_, fun hpos => ?_⟩
    · rw [htot, hacc.total, List.map_cons, List.sum_cons, List.sum_cons]
      omega
    · exact List.forall_mem_cons.mpr ⟨hacc.fees_nonneg, hfs⟩
    · rw [← hmm]
      exact hmax (hmm ▸ hacc.le_max)
    · rw [hpar, hacc.params]
    · rw [← hsub]
      refine .cons ?_ (hearn (by omega))
      rw [hsub]
      exact hacc.reward (by omega)

omit [Ed25519] in
theorem Earned.sum_le {subsidy : Int} {bs : List ConsensusBlock} {fs : List Int} (h : Earned subsidy bs fs) :
    (bs.map coinbaseTotal).sum ≤ subsidy * bs.length + fs.sum := by
  induction h with
  | nil => simp
  | cons hb _ ih =>
    simp only [List.map_cons, List.sum_cons, List.length_cons, Nat.cast_add, Nat.cast_one]
    linarith

omit [Ed25519] in
theorem Earned.at {subsidy : Int} {bs : List ConsensusBlock} {fs : List Int} (h : Earned subsidy bs fs)
    {i : Nat} {b : ConsensusBlock} {f : Int} (hb : bs[i]? = some b) (hf : fs[i]? = some f) :
    coinbaseTotal b ≤ subsidy + f := by
  induction h generalizing i with
  | nil => cases hb
  | cons h _ ih =>
    cases i with
    | zero =>
      rw [List.getElem?_cons_zero, Option.some.injEq] at hb hf
      exact hb ▸ hf ▸ h
    | succ i => exact ih hb hf

/-- What the first block of a chain allocates. -/
def genesisAllocation (bs : List ConsensusBlock) : Int := ((bs.take 1).map coinbaseTotal).sum

/-- Conservation of money over whole chains. -/
theorem supply_conserved (blocks : List ConsensusBlock) (subsidy maxMoney : Int) (s : ConsensusState)
    (h : rebuildStateFromBlocks blocks subsidy maxMoney = .ok s) :
    ∃ s₀ fees, ConsensusState.init ∅ subsidy maxMoney = .ok s₀ ∧ Replays s₀ 0 zeroHash blocks fees s ∧
      s.utxos.total = (blocks.map coinbaseTotal).sum - fees.sum ∧
      (∀ i b f, 0 < i → blocks[i]? = some b → fees[i]? = some f → coinbaseTotal b ≤ subsidy + f) ∧
      s.utxos.total ≤ genesisAllocation blocks + subsidy * (blocks.length - 1 : Nat) ∧
      s.utxos.total ≤ maxMoney := by
  obtain ⟨s₀, fees, hinit, hr⟩ := rebuildStateFromBlocks_eq_ok.mp h
  obtain ⟨hu, hsub, hmax⟩ := init_eq_ok hinit
  obtain ⟨htot, hfees, hle, hpar, -⟩ := hr.total
  have hzero : s₀.utxos.total = 0 := by rw [hu]; rfl
  rw [hzero, Int.zero_add] at htot
  have hcap : s.utxos.total ≤ maxMoney := by
    rw [← hmax]
    exact hle (by have := s₀.maxMoney_pos; omega)
  refine ⟨s₀, fees, hinit, hr, htot, ?_⟩
  cases hr with
  | nil => exact ⟨by simp, by simp [htot, genesisAllocation], hcap⟩
  | @cons s₀ s₁ s _ _ hash b bs f fs ha hh hr =>
    have hacc := accepted_of_validateCandidate (applyBlock_eq_ok.mp ha)
    obtain ⟨-, -, -, -, hearn⟩ := hr.total
    have hs₁ : s₁.blockSubsidy = subsidy := by rw [hacc.params, hsub]
    have hE : Earned subsidy bs fs := hs₁ ▸ hearn (by decide)
    have hsum := hE.sum_le
    have hf := hacc.fees_nonneg
    refine ⟨?_, ?_, hcap⟩
    · rintro (_ | i) b' f' hpos hb' hf'
      · exact absurd hpos (Nat.lt_irrefl 0)
      · exact hE.at hb' hf'
    · simp only [List.map_cons, List.sum_cons] at htot
      simp only [genesisAllocation, List.take_succ_cons, List.take_zero, List.map_cons, List.map_nil,
        List.sum_cons, List.sum_nil, List.length_cons, Nat.add_sub_cancel]
      omega

def emptyState : ConsensusState := { afterGenesis with utxos := ∅ }

omit [Ed25519] in
theorem applyBlock_genesisBlock :
    (@applyBlock aliceVerify genesisBlock 0 zeroHash).call emptyState = (.ok 0, afterGenesis) := by
  decide +kernel

omit [Ed25519] in
theorem hash_genesisBlock : genesisBlock.hash = .ok genesisHash := by decide +kernel

omit [Ed25519] in
/-- A block on top of the genesis block makes a chain of two. -/
theorem rebuild_genesisBlock {b : ConsensusBlock} {f : Int} {s : ConsensusState}
    (hb : (@applyBlock aliceVerify b 1 genesisHash).call afterGenesis = (.ok f, s)) :
    @rebuildStateFromBlocks aliceVerify [genesisBlock, b] 50 1000 = .ok s := by
  let _ := aliceVerify
  obtain ⟨c, rest, _, hc, -⟩ := validateCandidate_eq_ok.mp (applyBlock_eq_ok.mp hb)
  obtain ⟨hash, hhash, -⟩ := (checkBlock_eq_ok.mp hc).2.2.work
  exact rebuildStateFromBlocks_eq_ok.mpr ⟨emptyState, [0, f], rfl,
    .cons applyBlock_genesisBlock hash_genesisBlock (.cons hb hhash (.nil _ _ _))⟩

omit [Ed25519] in
/-- Alice's chain allocates 10, earns 53 and burns a fee of 3 along the way. -/
theorem supply_paymentBlock : (([genesisBlock, paymentBlock].map coinbaseTotal).sum = 63) ∧
    ∃ fees : List Int, afterPayment.utxos.total = 63 - fees.sum ∧ afterPayment.utxos.total ≤ 10 + 50 * 1 := by
  have hsum : ([genesisBlock, paymentBlock].map coinbaseTotal).sum = 63 := by decide
  obtain ⟨_, fees, -, -, htot, -, hle, -⟩ := @supply_conserved aliceVerify [genesisBlock, paymentBlock] 50 1000
    afterPayment (rebuild_genesisBlock applyBlock_paymentBlock)
  exact ⟨hsum, fees, hsum ▸ htot, hle⟩

end BCC.Proof
