import BlockchainCoin.Proof.Assembly
import BlockchainCoin.Proof.Included

/-!
# Room in the mempool

What `submit_transaction` takes out of the mempool. A transaction that shares inputs
with entries replaces exactly these, and the fees grow by the bump
(`submit_replaces`). One that shares none finds a full mempool and takes the place of
the entry with the least score among those the others can do without
(`submit_evicts`).
-/

namespace BCC.Proof

open BCC.Impl BCC.Ledger

variable [Ed25519] {n : ConsensusNode} {t : ConsensusTransaction}

/-! ## Submission -/

/-- What `submit_transaction` leaves: the entries that stay and the new one, or the node as it was. -/
theorem submitTransaction_leaves (hd : DistinctTxids n.mempool) :
    (∃ e, n.submissionChecks t = .error e ∧ (ConsensusNode.submitTransaction t).call n = (.error e, n)) ∨
      ∃ txid remaining, n.submissionChecks t = .ok (txid, remaining) ∧
        (ConsensusNode.submitTransaction t).call n = (.ok txid, withMempool n (remaining ++ [t])) := by
  rw [submitTransaction_eq hd]
  cases n.submissionChecks t with
  | error e => exact .inl ⟨e, rfl, rfl⟩
  | ok r => exact .inr ⟨r.1, r.2, rfl, rfl⟩

theorem submissionChecks_eq_ok (hd : DistinctTxids n.mempool) {txid : Str} {remaining : List ConsensusTransaction}
    (h : n.submissionChecks t = .ok (txid, remaining)) : t.isCoinbase = false ∧ ∃ fee, n.makeRoom t = .ok (remaining, fee) ∧
      n.mempoolPolicy.validate t fee remaining.length = .ok () := by
  simp only [ConsensusNode.submissionChecks, bind_eq_ok, exists_unit, raiseIf_eq_ok, hasTxid_eq_ok hd, Except.ok.injEq,
    exists_eq_left', pure_eq_ok, Bool.not_eq_true, Prod.exists, Prod.mk.injEq] at h
  obtain ⟨_, -, hc, -, _, fee, hroom, hpolicy, -, rfl⟩ := h
  exact ⟨hc, fee, hroom, hpolicy⟩

/-! ## Replacement -/

/-- Room is made for a transaction that shares inputs with entries by dropping these: they apply after the entries
that stay, and so does the transaction, for a fee that is above theirs by the bump. -/
theorem makeRoom_replaces (hd : DistinctTxids n.mempool) (hne : conflicting n t ≠ []) {remaining : List ConsensusTransaction}
    {fee : Int} (h : n.makeRoom t = .ok (remaining, fee)) :
    remaining = staying n t ∧ ∃ c fees, applyEach n.state (staying n t) = .ok (fees, c) ∧
      (∃ s', c.applyTransaction t = .ok (fee, s')) ∧
      ∃ replaced s', applyEach c (conflicting n t) = .ok (replaced, s') ∧
        replaced.sum + n.mempoolPolicy.replacementFeeBump ≤ fee := by
  simp only [ConsensusNode.makeRoom, replacementContext_eq hd, if_neg hne, ConsensusNode.validateReplacementFee, bind_eq_ok,
    exists_unit, raiseIf_eq_ok, pure_eq_ok, replacedFees_eq_ok] at h
  obtain ⟨_, ⟨-, c, hc, _, ⟨replaced, s', hreplaced, rfl⟩, rfl⟩, c', hc', ⟨fee', s''⟩, happly, h⟩ := h
  simp only [if_neg hne, bind_eq_ok, exists_unit, raiseIf_eq_ok, pure_eq_ok, not_lt, Prod.mk.injEq] at h
  obtain ⟨hfee, rfl, rfl⟩ := h
  rw [hc, Except.ok.injEq] at hc'
  subst hc'
  obtain ⟨fees, hstay⟩ := candidateAfter_eq_ok.mp hc
  exact ⟨rfl, c, fees, hstay, ⟨s'', happly⟩, replaced, s', hreplaced, hfee⟩

omit [Ed25519] in
theorem staying_append_conflicting (n : ConsensusNode) (t : ConsensusTransaction) :
    (staying n t ++ conflicting n t).Perm n.mempool := by
  have hperm := List.filter_append_perm (fun u => (inputOutpoints u).any (· ∈ inputOutpoints t)) n.mempool
  have hstay : staying n t = n.mempool.filter fun u => !(inputOutpoints u).any (· ∈ inputOutpoints t) :=
    List.filter_congr fun u _ => by rw [decide_not, Bool.decide_eq_true]
  rw [hstay]
  exact List.perm_append_comm.trans hperm

/-- A transaction that shares inputs with entries and is admitted replaces exactly these, and the mempool is worth more
fees than before, by the bump at least: in whichever order its former entries apply, and there is one. One that is
refused leaves the mempool and its store as they were. -/
theorem submit_replaces (calls : List Call) (n : ConsensusNode) (hn : World.after calls = .up n)
    (t : ConsensusTransaction) (hshare : conflicting n t ≠ []) :
    (∀ txid n', (ConsensusNode.submitTransaction t).call n = (.ok txid, n') →
      n'.mempool = staying n t ++ [t] ∧ ∃ fees s', applyEach n'.state n'.mempool = .ok (fees, s') ∧
        (∃ old oldFees s₀, old.Perm n.mempool ∧ applyEach n.state old = .ok (oldFees, s₀)) ∧
        ∀ old oldFees s₀, old.Perm n.mempool → applyEach n.state old = .ok (oldFees, s₀) →
          oldFees.sum + n.mempoolPolicy.replacementFeeBump ≤ fees.sum) ∧
    ∀ e n', (ConsensusNode.submitTransaction t).call n = (.error e, n') →
      n'.mempool = n.mempool ∧ n'.disk.mempoolStore = n.disk.mempoolStore := by
  have hd := (nodeOk_after hn).mempool
  have hc : ∀ u ∈ n.mempool, u.isCoinbase = false := fun u hu => ((synced_after hn).pending u hu).notCoinbase
  rcases submitTransaction_leaves (t := t) hd with ⟨e, -, he⟩ | ⟨txid, remaining, hchecks, he⟩
  · rw [he]
    refine ⟨fun _ _ h => ?_, fun _ n' h => ?_⟩
    · cases h
    · rw [Prod.mk.injEq] at h
      exact h.2 ▸ ⟨rfl, rfl⟩
  · rw [he]
    refine ⟨fun _ n' h => ?_, fun _ _ h => ?_⟩
    · rw [Prod.mk.injEq] at h
      obtain ⟨-, rfl⟩ := h
      obtain ⟨-, fee, hroom, -⟩ := submissionChecks_eq_ok hd hchecks
      obtain ⟨rfl, c, fees, hstay, ⟨s', happly⟩, replaced, s₁, hreplaced, hfee⟩ := makeRoom_replaces hd hshare hroom
      have hnew : applyEach n.state (staying n t ++ [t]) = .ok (fees ++ [fee], s') :=
        applyEach_append.mpr ⟨c, fees, [fee], hstay, applyEach_cons.mpr ⟨fee, [], s', happly, rfl, rfl⟩, rfl⟩
      have hold : applyEach n.state (staying n t ++ conflicting n t) = .ok (fees ++ replaced, s₁) :=
        applyEach_append.mpr ⟨c, fees, replaced, hstay, hreplaced, rfl⟩
      have hperm := staying_append_conflicting n t
      refine ⟨rfl, fees ++ [fee], s', hnew, ⟨_, _, _, hperm, hold⟩, fun old oldFees s₀ hp ho => ?_⟩
      have hcold : ∀ u ∈ old, u.isCoinbase = false := fun u hu => hc u (hp.mem_iff.mp hu)
      have hdold : DistinctTxids old :=
        ⟨fun u hu => hd.txid u (hp.mem_iff.mp hu), (hp.map txidOf).nodup_iff.mpr hd.nodup⟩
      -- The fees of the entries do not depend on the order they are applied in.
      obtain ⟨hsum, -⟩ := applyEach_confluent hcold hdold ho hold (hperm.trans hp.symm)
      rw [List.sum_append] at hsum
      rw [← hsum, List.sum_append, List.sum_singleton]
      omega
    · cases h

omit [Ed25519] in
theorem submit_replaces_payment : ∃ txid n',
    (@ConsensusNode.submitTransaction (aliceSigned [payment, rivalPayment]) rivalPayment).call payingNode = (.ok txid, n') ∧
      n'.mempool = [rivalPayment] ∧ ∃ fees s',
        @applyEach (aliceSigned [payment, rivalPayment]) n'.state n'.mempool = .ok (fees, s') ∧ 3 + 1 ≤ fees.sum := by
  let _ := aliceSigned [payment, rivalPayment]
  have hn : World.after [.create [(aliceAddress, 10)] ⟨0, 50, 1000⟩ 0 1, .submitTransaction payment] = .up payingNode := by
    decide +kernel
  obtain ⟨txid, n', hcall⟩ := Method.exists_call_of_isOk
    (show ((ConsensusNode.submitTransaction rivalPayment).call payingNode).1.isOk = true by decide +kernel)
  have hold : ((applyEach payingNode.state [payment]).map Prod.fst) = .ok [3] := by decide +kernel
  obtain ⟨⟨_, s₀⟩, hold, rfl⟩ := map_eq_ok.mp hold
  obtain ⟨hpool, fees, s', hfees, -, hbump⟩ := (submit_replaces _ payingNode hn rivalPayment (by decide)).1 txid n' hcall
  exact ⟨txid, n', hcall, hpool, fees, s', hfees, hbump [payment] [3] s₀ (.refl _) hold⟩

/-! ## The order of scores -/

/-- The tuple `_transaction_policy_score` returns. -/
def scoreKey (s : PolicyScore) : Int ×ₗ Int ×ₗ Str := toLex (s.feeRate, toLex (s.fee, s.txid))

omit [Ed25519] in
theorem policyScore_lt_iff {a b : PolicyScore} : a.lt b ↔ scoreKey a < scoreKey b := by
  simp only [PolicyScore.lt, scoreKey, Prod.Lex.toLex_lt_toLex]

omit [Ed25519] in
theorem scoreKey_txid {a b : PolicyScore} (h : scoreKey a = scoreKey b) : a.txid = b.txid := by
  simp only [scoreKey, toLex_inj, Prod.mk.injEq] at h
  exact h.2.2

/-! ## Eviction -/

omit [Ed25519] in
theorem lookup_zip {keys : List Str} {values : List Int} {j : Nat} {key : Str} {value : Int} (hn : keys.Nodup)
    (h : (keys.zip values)[j]? = some (key, value)) : (keys.zip values).lookup key = some value := by
  induction keys generalizing values j with
  | nil => cases h
  | cons k keys ih =>
    rw [List.nodup_cons] at hn
    cases values with
    | nil => cases h
    | cons v values =>
      rw [List.zip_cons_cons] at h ⊢
      cases j with
      | zero =>
        rw [List.getElem?_cons_zero, Option.some.injEq, Prod.mk.injEq] at h
        rw [h.1, h.2, List.lookup_cons_self]
      | succ j =>
        rw [List.getElem?_cons_succ] at h
        have hk : key ≠ k := fun he => hn.1 (he ▸ (List.of_mem_zip (List.mem_of_getElem? h)).1)
        rw [List.lookup_cons, beq_false_of_ne hk]
        exact ih hn.2 h

/-- `_transaction_fees` is the fees of the transactions in their order, by txid. -/
theorem transactionFees_eq_ok {s : ConsensusState} {ts : List ConsensusTransaction} {pairs : List (Str × Int)}
    (htx : ∀ t ∈ ts, t.txid = .ok (txidOf t)) : transactionFees s ts = .ok pairs ↔
      ∃ fees s', applyEach s ts = .ok (fees, s') ∧ pairs = (ts.map txidOf).zip fees := by
  induction ts generalizing s pairs with
  | nil =>
    simp only [transactionFees, applyEach, Except.ok.injEq, Prod.mk.injEq]
    constructor
    · rintro rfl
      exact ⟨[], s, ⟨rfl, rfl⟩, rfl⟩
    · rintro ⟨_, _, ⟨rfl, rfl⟩, rfl⟩
      rfl
  | cons t ts ih =>
    rw [List.forall_mem_cons] at htx
    simp only [transactionFees, applyEach_cons, bind_eq_ok, Prod.exists, htx.1, Except.ok.injEq, exists_eq_left', ih htx.2,
      pure_eq_ok]
    constructor
    · rintro ⟨fee, s₁, ht, _, ⟨fees, s', hts, rfl⟩, rfl⟩
      exact ⟨fee :: fees, s', ⟨fee, fees, s₁, ht, hts, rfl⟩, rfl⟩
    · rintro ⟨_, s', ⟨fee, fees, s₁, ht, hts, rfl⟩, rfl⟩
      exact ⟨fee, s₁, ht, _, ⟨fees, s', hts, rfl⟩, rfl⟩

/-- The score the loop gives an entry. -/
def Scored (pairs : List (Str × Int)) (u : ConsensusTransaction) (score : PolicyScore) : Prop :=
  transactionPolicyScore u ((pairs.lookup (txidOf u)).getD 0) = .ok score

/-- The choice among the first `k` entries of `pool`: one whose removal leaves `t` applicable, and none of these has a
lesser score. -/
structure Least (n : ConsensusNode) (t : ConsensusTransaction) (pairs : List (Str × Int)) (pool : List ConsensusTransaction)
    (k : Nat) (b : EvictionChoice) : Prop where
  entry : ∃ i < k, ∃ e, pool[i]? = some e ∧ b.remaining = pool.eraseIdx i ∧ Scored pairs e b.score
  applies : AppliesAfter n.state b.remaining t b.fee
  least : ∀ j < k, ∀ u, pool[j]? = some u → Applies n.state (pool.eraseIdx j ++ [t]) →
    ∃ score, Scored pairs u score ∧ ¬ score.lt b.score

/-- What the loop has found after the first `k` entries. -/
def Choice (n : ConsensusNode) (t : ConsensusTransaction) (pairs : List (Str × Int)) (pool : List ConsensusTransaction)
    (k : Nat) : Option EvictionChoice → Prop
  | none => ∀ j < k, ¬ Applies n.state (pool.eraseIdx j ++ [t])
  | some b => Least n t pairs pool k b

theorem applies_snoc {s : ConsensusState} {ts : List ConsensusTransaction} :
    Applies s (ts ++ [t]) ↔ ∃ fee, AppliesAfter s ts t fee := by
  simp only [applies_append, applies_singleton, AppliesAfter, Prod.exists]
  constructor
  · rintro ⟨c, hc, fee, c', h⟩
    exact ⟨fee, c, c', hc, h⟩
  · rintro ⟨fee, c, c', hc, h⟩
    exact ⟨c, hc, fee, c', h⟩

section Step

variable {pairs : List (Str × Int)} {pool : List ConsensusTransaction} {k : Nat} {best : Option EvictionChoice}
  {existing : ConsensusTransaction} {score : PolicyScore}

/-- An entry that has to stay is no choice. -/
theorem Choice.skip (h : Choice n t pairs pool k best) (hno : ¬ Applies n.state (pool.eraseIdx k ++ [t])) :
    Choice n t pairs pool (k + 1) best := by
  cases best with
  | none =>
    intro j hj
    rcases Nat.lt_succ_iff_lt_or_eq.mp hj with hj | rfl
    · exact h j hj
    · exact hno
  | some b =>
    obtain ⟨i, hi, hentry⟩ := h.entry
    refine ⟨⟨i, by omega, hentry⟩, h.applies, fun j hj u hu happ => ?_⟩
    rcases Nat.lt_succ_iff_lt_or_eq.mp hj with hj | rfl
    · exact h.least j hj u hu happ
    · exact absurd happ hno

/-- An entry that can go is the choice when there was none, or its score is less. -/
theorem Choice.take (h : Choice n t pairs pool k best) (hk : pool[k]? = some existing) (hs : Scored pairs existing score)
    {fee : Int} (happ : AppliesAfter n.state (pool.eraseIdx k) t fee) (hless : ∀ b ∈ best, score.lt b.score) :
    Choice n t pairs pool (k + 1) (some ⟨pool.eraseIdx k, fee, score⟩) := by
  refine ⟨⟨k, by omega, existing, hk, rfl, hs⟩, happ, fun j hj u hu hj' => ?_⟩
  rcases Nat.lt_succ_iff_lt_or_eq.mp hj with hj | rfl
  · cases best with
    | none => exact absurd hj' (h j hj)
    | some b =>
      obtain ⟨score', hs', hnot⟩ := h.least j hj u hu hj'
      refine ⟨score', hs', fun hlt => hnot ?_⟩
      rw [policyScore_lt_iff] at hlt ⊢
      exact hlt.trans (policyScore_lt_iff.mp (hless b rfl))
  · rw [hk, Option.some.injEq] at hu
    refine ⟨score, hu ▸ hs, ?_⟩
    rw [policyScore_lt_iff]
    exact lt_irrefl _

theorem Choice.keep {b : EvictionChoice} (h : Choice n t pairs pool k (some b)) (hk : pool[k]? = some existing)
    (hs : Scored pairs existing score) (hless : ¬ score.lt b.score) : Choice n t pairs pool (k + 1) (some b) := by
  obtain ⟨i, hi, hentry⟩ := h.entry
  refine ⟨⟨i, by omega, hentry⟩, h.applies, fun j hj u hu happ => ?_⟩
  rcases Nat.lt_succ_iff_lt_or_eq.mp hj with hj | rfl
  · exact h.least j hj u hu happ
  · rw [hk, Option.some.injEq] at hu
    exact ⟨score, hu ▸ hs, hless⟩

end Step

/-- The loop of `_evict_for_policy` finds the choice among all entries. -/
theorem evictionLoop_choice {pairs : List (Str × Int)} {after : List ConsensusTransaction}
    (htx : ∀ u ∈ after, u.txid = .ok (txidOf u)) : ∀ {before : List ConsensusTransaction}
      {best found : Option EvictionChoice}, n.evictionLoop t pairs best before after = .ok found →
        Choice n t pairs (before ++ after) before.length best →
          Choice n t pairs (before ++ after) (before ++ after).length found := by
  induction after with
  | nil =>
    intro before best found h hbest
    rw [ConsensusNode.evictionLoop, Except.ok.injEq] at h
    rw [List.append_nil] at hbest ⊢
    exact h ▸ hbest
  | cons existing after ih =>
    intro before best found h hbest
    rw [List.forall_mem_cons] at htx
    have hk : (before ++ existing :: after)[before.length]? = some existing := by simp
    have herase : (before ++ existing :: after).eraseIdx before.length = before ++ after := by
      rw [List.eraseIdx_append_of_length_le (Nat.le_refl _), Nat.sub_self, List.eraseIdx_cons_zero]
    have hlength : before.length + 1 = (before ++ [existing]).length := by simp
    rw [← List.singleton_append, ← List.append_assoc] at hbest hk herase ⊢
    rw [ConsensusNode.evictionLoop, htx.1, ok_bind] at h
    obtain ⟨score, hscore, h⟩ := bind_eq_ok.mp h
    extract_lets trial better at h
    have htrial : ∀ fee, trial = .ok fee ↔ AppliesAfter n.state (before ++ after) t fee := fun fee => by
      simp only [trial, AppliesAfter, bind_eq_ok, Prod.exists, pure_eq_ok]
      constructor
      · rintro ⟨c, hc, _, c', hf, rfl⟩
        exact ⟨c, c', hc, hf⟩
      · rintro ⟨c, c', hc, hf⟩
        exact ⟨c, hc, fee, c', hf, rfl⟩
    cases hresult : trial with
    | error e =>
      rw [hresult] at h htrial
      refine ih htx.2 h (hlength ▸ hbest.skip ?_)
      rw [herase, applies_snoc]
      rintro ⟨fee, hfee⟩
      cases (htrial fee).mpr hfee
    | ok fee =>
      rw [hresult] at h htrial
      have happ := (htrial fee).mp rfl
      rw [← herase] at happ h
      refine ih htx.2 h (hlength ▸ ?_)
      cases best with
      | none => exact hbest.take hk hscore happ fun b hb => by cases hb
      | some b =>
        by_cases hlt : score.lt b.score
        · simp only [better, hlt, decide_true, if_true]
          exact hbest.take hk hscore happ fun b' hb => (Option.mem_some_iff.mp hb) ▸ hlt
        · simp only [better, hlt, decide_false, Bool.false_eq_true, if_false]
          exact hbest.keep hk hscore hlt

/-- Room is made in a full mempool, for a transaction that shares no input with it, by the choice of the loop; where
there is none, the mempool stays full. -/
theorem makeRoom_evicts (hd : DistinctTxids n.mempool) (hnone : conflicting n t = [])
    (hfull : n.mempoolPolicy.maxTransactions ≤ n.mempool.length) (hallow : n.mempoolPolicy.allowEviction = true)
    {remaining : List ConsensusTransaction} {fee' : Int} (h : n.makeRoom t = .ok (remaining, fee')) :
    ∃ fees c fee s' newScore, applyEach n.state n.mempool = .ok (fees, c) ∧ c.applyTransaction t = .ok (fee, s') ∧
      transactionPolicyScore t fee = .ok newScore ∧
      (remaining = n.mempool ∨ ∃ b, Least n t ((n.mempool.map txidOf).zip fees) n.mempool n.mempool.length b ∧
        remaining = b.remaining ∧ b.score.feeRate + n.mempoolPolicy.evictionFeeRateBump ≤ newScore.feeRate) := by
  simp only [ConsensusNode.makeRoom, replacementContext_eq hd, if_pos hnone, ok_bind, bind_eq_ok, Prod.exists, if_true,
    ConsensusNode.evictForPolicy, if_neg (not_lt.mpr hfull), hallow, Bool.true_eq_false, if_false,
    transactionFees_eq_ok hd.txid] at h
  obtain ⟨c, hc, fee, s', happly, newScore, hscore, _, ⟨fees, c', hfees, rfl⟩, found, hfound, h⟩ := h
  obtain ⟨fees', hfees'⟩ := candidateAfter_eq_ok.mp hc
  rw [hfees, Except.ok.injEq, Prod.mk.injEq] at hfees'
  obtain ⟨rfl, rfl⟩ := hfees'
  refine ⟨fees, c', fee, s', newScore, hfees, happly, hscore, ?_⟩
  have hchoice := evictionLoop_choice hd.txid hfound fun j hj => absurd hj (Nat.not_lt_zero j)
  cases found with
  | none =>
    rw [pure_eq_ok, Prod.mk.injEq] at h
    exact .inl h.1.symm
  | some b =>
    simp only [bind_eq_ok, exists_unit, raiseIf_eq_ok, not_lt, pure_eq_ok, Prod.mk.injEq] at h
    exact .inr ⟨b, hchoice, h.2.1.symm, h.1⟩

omit [Ed25519] in
theorem policyScore_txid {u : ConsensusTransaction} {fee : Int} {score : PolicyScore}
    (h : transactionPolicyScore u fee = .ok score) : u.txid = .ok score.txid := by
  obtain ⟨bs, hbs, -, -, rfl⟩ := transactionPolicyScore_eq_ok.mp h
  exact txid_eq_ok.mpr ⟨bs, hbs, rfl⟩

omit [Ed25519] in
/-- The score the loop gives an entry is the one of the fee it pays in the order of the mempool. -/
theorem scored_zip {ts : List ConsensusTransaction} {fees : List Int} {j : Nat} {u : ConsensusTransaction}
    (hd : DistinctTxids ts) (hlen : fees.length = ts.length) (hu : ts[j]? = some u) :
    ∃ f, fees[j]? = some f ∧ ∀ score, Scored ((ts.map txidOf).zip fees) u score → transactionPolicyScore u f = .ok score := by
  obtain ⟨hj, -⟩ := List.getElem?_eq_some_iff.mp hu
  have hf : fees[j]? = some fees[j] := List.getElem?_eq_getElem (by omega)
  have hzip : ((ts.map txidOf).zip fees)[j]? = some (txidOf u, fees[j]) := by
    rw [List.getElem?_zip_eq_some, List.getElem?_map, hu]
    exact ⟨rfl, hf⟩
  refine ⟨_, hf, fun score hs => ?_⟩
  rwa [Scored, lookup_zip hd.nodup hzip, Option.getD_some] at hs

/-- What an eviction for `t` is: the entry that was removed, the fees the entries paid in their order and the one `t`
pays after them, and the scores of the entry and of `t`. The others and then `t` apply, and of all entries of which this
is true, the one that was removed has the least score. -/
structure Eviction (n : ConsensusNode) (t : ConsensusTransaction) (n' : ConsensusNode) where
  index : Nat
  entry : ConsensusTransaction
  fees : List Int
  fee : Int
  score : PolicyScore
  newScore : PolicyScore
  entry_eq : n.mempool[index]? = some entry
  mempool_eq : n'.mempool = n.mempool.eraseIdx index ++ [t]
  fees_eq : ∃ s', applyEach n.state (n.mempool ++ [t]) = .ok (fees ++ [fee], s')
  score_eq : ∃ f, fees[index]? = some f ∧ transactionPolicyScore entry f = .ok score
  newScore_eq : transactionPolicyScore t fee = .ok newScore
  safe : Applies n.state (n.mempool.eraseIdx index ++ [t])
  least : ∀ j u, n.mempool[j]? = some u → j ≠ index → Applies n.state (n.mempool.eraseIdx j ++ [t]) →
    ∃ f other, fees[j]? = some f ∧ transactionPolicyScore u f = .ok other ∧ score.lt other
  bump : score.feeRate + n.mempoolPolicy.evictionFeeRateBump ≤ newScore.feeRate

/-- A transaction that shares no input with a full mempool and is admitted takes the place of the entry with the least
score among those whose removal leaves the rest and then the transaction applicable; its fee rate is above that of the
entry by the bump at least. One that is refused leaves the mempool and its store as they were. -/
theorem submit_evicts (calls : List Call) (n : ConsensusNode) (hn : World.after calls = .up n) (t : ConsensusTransaction)
    (hfull : (n.mempool.length : Int) = n.mempoolPolicy.maxTransactions) (hallow : n.mempoolPolicy.allowEviction = true)
    (hnone : conflicting n t = []) :
    (∀ txid n', (ConsensusNode.submitTransaction t).call n = (.ok txid, n') → Nonempty (Eviction n t n')) ∧
      ∀ e n', (ConsensusNode.submitTransaction t).call n = (.error e, n') →
        n'.mempool = n.mempool ∧ n'.disk.mempoolStore = n.disk.mempoolStore := by
  have hd := (nodeOk_after hn).mempool
  rcases submitTransaction_leaves (t := t) hd with ⟨e, -, he⟩ | ⟨txid, remaining, hchecks, he⟩
  · rw [he]
    refine ⟨fun _ _ h => ?_, fun _ n' h => ?_⟩
    · cases h
    · rw [Prod.mk.injEq] at h
      exact h.2 ▸ ⟨rfl, rfl⟩
  · rw [he]
    refine ⟨fun _ n' h => ?_, fun _ _ h => ?_⟩
    · rw [Prod.mk.injEq] at h
      obtain ⟨-, rfl⟩ := h
      obtain ⟨hc, fee', hroom, hpolicy⟩ := submissionChecks_eq_ok hd hchecks
      obtain ⟨fees, c, fee, s', newScore, hfees, happly, hnew, hcase⟩ :=
        makeRoom_evicts hd hnone hfull.ge hallow hroom
      rcases hcase with rfl | ⟨b, hb, rfl, hbump⟩
      · -- The policy refuses a transaction where the mempool is full.
        simp only [MempoolPolicy.validate, bind_eq_ok, exists_unit, raiseIf_eq_ok, not_le] at hpolicy
        omega
      · obtain ⟨i, -, e, hentry, hremaining, hscored⟩ := hb.entry
        obtain ⟨f, hf, hscore⟩ := scored_zip hd (length_of_applyEach hfees) hentry
        have hsafe : Applies n.state (n.mempool.eraseIdx i ++ [t]) := applies_snoc.mpr ⟨b.fee, hremaining ▸ hb.applies⟩
        refine ⟨⟨i, e, fees, fee, b.score, newScore, hentry, by rw [← hremaining]; rfl, ?_, ⟨f, hf, hscore _ hscored⟩, hnew,
          hsafe, fun j u hu hji happ => ?_, hbump⟩⟩
        · exact ⟨s', applyEach_append.mpr ⟨c, fees, [fee], hfees, applyEach_cons.mpr ⟨fee, [], s', happly, rfl, rfl⟩, rfl⟩⟩
        · obtain ⟨hj, -⟩ := List.getElem?_eq_some_iff.mp hu
          obtain ⟨other, hother, hnot⟩ := hb.least j hj u hu happ
          obtain ⟨f', hf', hscore'⟩ := scored_zip hd (length_of_applyEach hfees) hu
          refine ⟨f', other, hf', hscore' _ hother, ?_⟩
          -- Neither score is less than the other only where the txids are the same.
          rw [policyScore_lt_iff, not_lt] at hnot
          rw [policyScore_lt_iff]
          refine lt_of_le_of_ne hnot fun heq => hji ?_
          have htxid : u.txid = e.txid := by
            rw [policyScore_txid (hscore' _ hother), policyScore_txid (hscore _ hscored), scoreKey_txid heq]
          refine (List.getElem?_inj (by rw [List.length_map]; exact hj) hd.txids_nodup).mp ?_
          rw [List.getElem?_map, List.getElem?_map, hu, hentry, Option.map_some, Option.map_some, htxid]
    · cases h

/-- The transaction is admitted where it finds a full mempool that it shares no input with. -/
def evictsIn (world : World) (t : ConsensusTransaction) : Bool :=
  match world with
  | .down _ => false
  | .up n => (n.mempool.length : Int) = n.mempoolPolicy.maxTransactions ∧ n.mempoolPolicy.allowEviction = true ∧
      conflicting n t = [] ∧ ((ConsensusNode.submitTransaction t).call n).1.isOk = true

omit [Ed25519] in
/-- Alice's spend of her reward, which pays more, takes the place of her other payment. -/
theorem submit_evicts_nextPayment :
    let _ := aliceSigned [payment, nextPayment, rewardPayment]
    ∃ n, World.after [.create [(aliceAddress, 10)] ⟨0, 50, 1000⟩ 0 1, .importBlock paymentBlock,
        .submitTransaction nextPayment, .setPolicy { maxTransactions := 1 }] = .up n ∧
      ∃ txid n', (ConsensusNode.submitTransaction rewardPayment).call n = (.ok txid, n') ∧
        Nonempty (Eviction n rewardPayment n') := by
  intro _
  have hevicts : evictsIn (World.after [.create [(aliceAddress, 10)] ⟨0, 50, 1000⟩ 0 1, .importBlock paymentBlock,
      .submitTransaction nextPayment, .setPolicy { maxTransactions := 1 }]) rewardPayment = true := by decide +kernel
  cases hn : World.after [.create [(aliceAddress, 10)] ⟨0, 50, 1000⟩ 0 1, .importBlock paymentBlock,
      .submitTransaction nextPayment, .setPolicy { maxTransactions := 1 }] with
  | down d => rw [hn] at hevicts; cases hevicts
  | up n =>
    rw [hn] at hevicts
    obtain ⟨hfull, hallow, hnone, hok⟩ := of_decide_eq_true hevicts
    obtain ⟨txid, n', hcall⟩ := Method.exists_call_of_isOk hok
    exact ⟨n, rfl, txid, n', hcall, (submit_evicts _ n hn rewardPayment hfull hallow hnone).1 txid n' hcall⟩

end BCC.Proof
