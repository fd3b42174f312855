import BlockchainCoin.Proof.BanTerm
import BlockchainCoin.Proof.Pending

/-!
# Transactions that are submitted

`submit_transaction` replays other entries of the mempool: those that stay, then
those that are replaced, and the new transaction after those that stay. An
exception of one of these replays is a `ConsensusError`, whatever is wrong with
the entry that raised it; everything else that goes wrong is a matter of policy
(`admit_raises_iff`). `NodeService.receive` tells the two apart by the class of
the exception (`submit_separates_policy`).
-/

namespace BCC.Proof

open BCC.Impl BCC.Ledger

/-- `isinstance(exc, MempoolPolicyError)` -/
def isPolicyError : PyError → Bool
  | .mempoolPolicyError _ => true
  | _ => false

theorem not_policy_of_validation {e : PyError} (h : ofValidation e = true) : ¬ isPolicyError e = true := by
  cases e <;> simp_all [ofValidation, isPolicyError]

/-- Where validation is all that can go wrong, only a result is left. -/
theorem policy_iff_returns {α : Type} {x : Except PyError α} (h : Raises (ofValidation ·) x) :
    Raises (isPolicyError ·) x ↔ ∃ a, x = .ok a := h.iff_returns fun _ => not_policy_of_validation

/-! ## Policy -/

section Policy

variable {t : ConsensusTransaction}

theorem serializedSize_of_txid {txid : Str} (h : t.txid = .ok txid) : ∃ size, MempoolPolicy.serializedSize t = .ok size := by
  obtain ⟨bs, hbs, -⟩ := txid_eq_ok.mp h
  exact ⟨_, by rw [MempoolPolicy.serializedSize, hbs, ok_bind]; rfl⟩

theorem validate_raises (p : MempoolPolicy) (ht : ∃ txid, t.txid = .ok txid) (fee count : Int) :
    Raises (isPolicyError ·) (p.validate t fee count) := by
  obtain ⟨txid, ht⟩ := ht
  obtain ⟨size, hsize⟩ := serializedSize_of_txid ht
  have hminimum : ∀ size, Raises (isPolicyError ·) (p.minimumFee size count) := fun _ =>
    .bind (.raiseIf rfl) fun _ => .bind (.bind (.raiseIf rfl) fun _ => .pure _) fun _ => .pure _
  unfold MempoolPolicy.validate
  rw [hsize]
  exact .bind (.raiseIf rfl) fun _ => .bind (.raiseIf rfl) fun _ => .bind (.raiseIf rfl) fun _ => .bind (.ok _) fun _ =>
    .bind (.raiseIf rfl) fun _ => .bind (hminimum _) fun _ => .raiseIf rfl

theorem transactionPolicyScore_raises (ht : ∃ txid, t.txid = .ok txid) (fee : Int) :
    Raises (isPolicyError ·) (transactionPolicyScore t fee) := by
  obtain ⟨txid, ht⟩ := ht
  obtain ⟨size, hsize⟩ := serializedSize_of_txid ht
  unfold transactionPolicyScore
  rw [hsize, ht]
  exact .bind (.ok _) fun _ => .bind (.bind (.raiseIf rfl) fun _ => .bind (.raiseIf rfl) fun _ => .pure _) fun _ =>
    .bind (.ok _) fun _ => .pure _

end Policy

variable [Ed25519]

/-! ## Replaying entries -/

theorem applyEach_append {s s' : ConsensusState} {ts us : List ConsensusTransaction} {fees : List Int} :
    applyEach s (ts ++ us) = .ok (fees, s') ↔ ∃ c fees₁ fees₂, applyEach s ts = .ok (fees₁, c) ∧
      applyEach c us = .ok (fees₂, s') ∧ fees = fees₁ ++ fees₂ := by
  induction ts generalizing s fees with
  | nil =>
    simp only [List.nil_append, applyEach, Except.ok.injEq, Prod.mk.injEq]
    constructor
    · intro h
      exact ⟨s, [], fees, ⟨rfl, rfl⟩, h, rfl⟩
    · rintro ⟨_, _, _, ⟨rfl, rfl⟩, h, rfl⟩
      exact h
  | cons t ts ih =>
    rw [List.cons_append, applyEach_cons]
    simp only [ih, applyEach_cons]
    constructor
    · rintro ⟨fee, _, s₁, ht, ⟨c, fees₁, fees₂, hts, hus, rfl⟩, rfl⟩
      exact ⟨c, fee :: fees₁, fees₂, ⟨fee, fees₁, s₁, ht, hts, rfl⟩, hus, rfl⟩
    · rintro ⟨c, _, fees₂, ⟨fee, fees₁, s₁, ht, hts, rfl⟩, hus, rfl⟩
      exact ⟨fee, fees₁ ++ fees₂, s₁, ht, ⟨c, fees₁, fees₂, hts, hus, rfl⟩, rfl⟩

/-- The transactions apply one after the other. -/
def Applies (s : ConsensusState) (ts : List ConsensusTransaction) : Prop := ∃ fees s', applyEach s ts = .ok (fees, s')

theorem applies_append {s : ConsensusState} {ts us : List ConsensusTransaction} :
    Applies s (ts ++ us) ↔ ∃ c, candidateAfter s ts = .ok c ∧ Applies c us := by
  simp only [Applies, applyEach_append, candidateAfter_eq_ok]
  constructor
  · rintro ⟨_, s', c, fees₁, fees₂, hts, hus, rfl⟩
    exact ⟨c, ⟨fees₁, hts⟩, fees₂, s', hus⟩
  · rintro ⟨c, ⟨fees₁, hts⟩, fees₂, s', hus⟩
    exact ⟨fees₁ ++ fees₂, s', c, fees₁, fees₂, hts, hus, rfl⟩

theorem applies_singleton {s : ConsensusState} {t : ConsensusTransaction} :
    Applies s [t] ↔ ∃ r, s.applyTransaction t = .ok r := by
  simp only [Applies, applyEach_cons]
  constructor
  · rintro ⟨_, _, fee, _, s', ht, -⟩
    exact ⟨(fee, s'), ht⟩
  · rintro ⟨⟨fee, s'⟩, ht⟩
    exact ⟨[fee], s', fee, [], s', ht, rfl, rfl⟩

theorem replacedFees_eq_ok {s : ConsensusState} {ts : List ConsensusTransaction} {f : Int} :
    replacedFees s ts = .ok f ↔ ∃ fees s', applyEach s ts = .ok (fees, s') ∧ f = fees.sum := by
  induction ts generalizing s f with
  | nil =>
    simp only [replacedFees, applyEach, Except.ok.injEq, Prod.mk.injEq]
    constructor
    · rintro rfl
      exact ⟨[], s, ⟨rfl, rfl⟩, rfl⟩
    · rintro ⟨_, _, ⟨rfl, rfl⟩, rfl⟩
      rfl
  | cons t ts ih =>
    simp only [replacedFees, applyEach_cons, bind_eq_ok, Prod.exists, ih, pure_eq_ok]
    constructor
    · rintro ⟨fee, s₁, ht, _, ⟨fees, s', hts, rfl⟩, rfl⟩
      exact ⟨fee :: fees, s', ⟨fee, fees, s₁, ht, hts, rfl⟩, rfl⟩
    · rintro ⟨_, s', ⟨fee, fees, s₁, ht, hts, rfl⟩, rfl⟩
      exact ⟨fee, s₁, ht, _, ⟨fees, s', hts, rfl⟩, rfl⟩

theorem candidateAfter_raises : ∀ (ts : List ConsensusTransaction) (s : ConsensusState),
    Raises (ofValidation ·) (candidateAfter s ts)
  | [], _ => .ok _
  | t :: ts, s => .bind (applyTransaction_raises s t) fun _ => candidateAfter_raises ts _

theorem replacedFees_raises : ∀ (ts : List ConsensusTransaction) (s : ConsensusState),
    Raises (ofValidation ·) (replacedFees s ts)
  | [], _ => .ok _
  | t :: ts, s => .bind (applyTransaction_raises s t) fun _ => .bind (replacedFees_raises ts _) fun _ => .pure _

/-- The fees of entries that apply are found. -/
theorem transactionFees_of_applies {s : ConsensusState} {ts : List ConsensusTransaction} (h : Applies s ts)
    (hd : ∀ t ∈ ts, ∃ txid, t.txid = .ok txid) : ∃ fees, transactionFees s ts = .ok fees := by
  induction ts generalizing s with
  | nil => exact ⟨[], rfl⟩
  | cons t ts ih =>
    obtain ⟨_, s', h⟩ := h
    obtain ⟨fee, fees, s₁, ht, hts, -⟩ := applyEach_cons.mp h
    obtain ⟨txid, htxid⟩ := hd t List.mem_cons_self
    obtain ⟨rest, hrest⟩ := ih ⟨fees, s', hts⟩ fun u hu => hd u (List.mem_cons_of_mem _ hu)
    exact ⟨(txid, fee) :: rest, by simp only [transactionFees, ht, htxid, hrest, ok_bind]; rfl⟩

/-! ## Making room -/

section Room

variable {n : ConsensusNode} {t : ConsensusTransaction}

/-- The entries that share an input with `t`, which it replaces. -/
def conflicting (n : ConsensusNode) (t : ConsensusTransaction) : List ConsensusTransaction :=
  n.mempool.filter fun u => (inputOutpoints u).any (· ∈ inputOutpoints t)

/-- The entries that share no input with `t`. -/
def staying (n : ConsensusNode) (t : ConsensusTransaction) : List ConsensusTransaction :=
  n.mempool.filter fun u => ¬ (inputOutpoints u).any (· ∈ inputOutpoints t)

omit [Ed25519] in
theorem staying_of_conflicting_nil (h : conflicting n t = []) : staying n t = n.mempool := by
  refine List.filter_eq_self.mpr fun u hu => ?_
  have hno := List.filter_eq_nil_iff.mp h u hu
  simpa using hno

omit [Ed25519] in
theorem withoutTxids_conflicting (hd : DistinctTxids n.mempool) :
    withoutTxids ((conflicting n t).map txidOf) n.mempool = .ok (staying n t) := by
  rw [withoutTxids_eq_ok hd, Except.ok.injEq, staying]
  refine List.filter_congr fun u hu => ?_
  rw [decide_eq_decide, not_iff_not, List.mem_map]
  constructor
  · rintro ⟨v, hv, he⟩
    obtain ⟨hv, hmeet⟩ := List.mem_filter.mp hv
    rw [← List.inj_on_of_nodup_map hd.nodup hv hu he]
    exact hmeet
  · intro hmeet
    exact ⟨u, List.mem_filter.mpr ⟨hu, hmeet⟩, rfl⟩

theorem replacementContext_eq (hd : DistinctTxids n.mempool) : n.replacementContext t =
    if conflicting n t = [] then .ok ⟨n.mempool, [], 0⟩ else do
      raiseIf (¬ n.mempoolPolicy.allowReplacement) (.mempoolPolicyError "transaction conflicts with mempool policy")
      let c ← candidateAfter n.state (staying n t)
      let replacedFee ← replacedFees c (conflicting n t)
      return ⟨staying n t, conflicting n t, replacedFee⟩ := by
  have hids : (conflicting n t).mapM (fun u => u.txid) = .ok ((conflicting n t).map txidOf) :=
    (hd.sublist List.filter_sublist).mapM_txid
  unfold ConsensusNode.replacementContext
  extract_lets newInputs replaced
  have hreplaced : replaced = conflicting n t := rfl
  rw [hreplaced]
  split
  · rfl
  · simp only [hids, ok_bind, withoutTxids_conflicting hd]

theorem evictionLoop_raises {fees : List (Str × Int)} {after : List ConsensusTransaction}
    (hd : ∀ u ∈ after, ∃ txid, u.txid = .ok txid) : ∀ (best : Option EvictionChoice) (before : List ConsensusTransaction),
      Raises (isPolicyError ·) (n.evictionLoop t fees best before after) := by
  induction after with
  | nil => exact fun best before => .ok best
  | cons existing after ih =>
    intro best before
    have hexisting := hd existing List.mem_cons_self
    have hnext := ih fun u hu => hd u (List.mem_cons_of_mem _ hu)
    obtain ⟨txid, htxid⟩ := hexisting
    rw [ConsensusNode.evictionLoop, htxid, ok_bind]
    refine .bind (transactionPolicyScore_raises ⟨txid, htxid⟩ _) fun score => ?_
    extract_lets trial
    cases trial with
    | error e => exact hnext _ _
    | ok fee => exact hnext _ _

theorem evictForPolicy_raises {remaining : List ConsensusTransaction} (ht : ∃ txid, t.txid = .ok txid)
    (hd : ∀ u ∈ remaining, ∃ txid, u.txid = .ok txid) (happ : Applies n.state remaining) (fee : Int) :
    Raises (isPolicyError ·) (n.evictForPolicy t remaining fee) := by
  obtain ⟨fees, hfees⟩ := transactionFees_of_applies happ hd
  unfold ConsensusNode.evictForPolicy
  split
  · exact .pure _
  split
  · exact .pure _
  · rw [hfees]
    refine .bind (transactionPolicyScore_raises ht fee) fun score => .bind (.ok _) fun _ => ?_
    refine .bind (evictionLoop_raises hd none []) fun found => ?_
    split
    · exact .pure _
    · exact .bind (.raiseIf rfl) fun _ => .pure _

/-- Making room fails for a reason of policy only, exactly when replacement is not allowed, or the entries that
are replaced and the new transaction both apply after the entries that stay. -/
theorem makeRoom_raises_iff (hd : DistinctTxids n.mempool) (ht : ∃ txid, t.txid = .ok txid) :
    Raises (isPolicyError ·) (n.makeRoom t) ↔ (conflicting n t ≠ [] ∧ n.mempoolPolicy.allowReplacement = false) ∨
      (Applies n.state (staying n t ++ conflicting n t) ∧ Applies n.state (staying n t ++ [t])) := by
  have htxids : ∀ u ∈ n.mempool, ∃ txid, u.txid = .ok txid := fun u hu => ⟨_, hd.txid u hu⟩
  rw [ConsensusNode.makeRoom, replacementContext_eq hd]
  by_cases hc : conflicting n t = []
  · rw [if_pos hc, ok_bind, staying_of_conflicting_nil hc, hc, List.append_nil]
    simp only [Raises.bind_iff, policy_iff_returns (candidateAfter_raises _ _), policy_iff_returns (applyTransaction_raises _ _),
      if_true, ne_eq, not_true_eq_false, false_and, false_or, applies_append, applies_singleton]
    constructor
    · rintro ⟨⟨c, hcand⟩, hrest⟩
      obtain ⟨fees, hfees⟩ := candidateAfter_eq_ok.mp hcand
      exact ⟨⟨fees, c, hfees⟩, c, hcand, (hrest c hcand).1⟩
    · rintro ⟨happ, c, hcand, happly⟩
      refine ⟨⟨c, hcand⟩, fun c' hcand' => ?_⟩
      rw [hcand, Except.ok.injEq] at hcand'
      subst hcand'
      exact ⟨happly, fun r _ => evictForPolicy_raises ht htxids happ r.1⟩
  · rw [if_neg hc]
    cases hallow : n.mempoolPolicy.allowReplacement with
    | false => simpa [hc, raiseIf] using Raises.error (P := (isPolicyError ·)) rfl
    | true =>
      have hraise : raiseIf (¬ (true : Bool) = true) (.mempoolPolicyError "transaction conflicts with mempool policy" : PyError) =
          .ok () := raiseIf_of_not (by simp)
      rw [hraise, ok_bind]
      simp only [bind_assoc, pure_bind, Raises.bind_iff, policy_iff_returns (candidateAfter_raises _ _),
        policy_iff_returns (applyTransaction_raises _ _), policy_iff_returns (replacedFees_raises _ _), if_neg hc,
        Bool.true_eq_false, and_false, false_or, applies_append, applies_singleton]
      constructor
      · rintro ⟨⟨c, hcand⟩, hrest⟩
        obtain ⟨⟨f, hf⟩, hrest⟩ := hrest c hcand
        obtain ⟨fees, s', hfees, -⟩ := replacedFees_eq_ok.mp hf
        exact ⟨⟨c, hcand, fees, s', hfees⟩, c, hcand, ((hrest f hf).2 c hcand).1⟩
      · rintro ⟨⟨c, hcand, fees, s', hfees⟩, c', hcand', happly⟩
        rw [hcand, Except.ok.injEq] at hcand'
        subst hcand'
        refine ⟨⟨c, hcand⟩, fun c' hcand' => ?_⟩
        rw [hcand, Except.ok.injEq] at hcand'
        subst hcand'
        refine ⟨⟨_, replacedFees_eq_ok.mpr ⟨fees, s', hfees, rfl⟩⟩, fun f hf => ⟨⟨c, hcand⟩, fun c' hcand' => ?_⟩⟩
        rw [hcand, Except.ok.injEq] at hcand'
        subst hcand'
        exact ⟨happly, fun r _ => ⟨.raiseIf rfl, fun _ _ => .pure _⟩⟩

/-- The checks of `submit_transaction` fail for a reason of policy only, exactly when there is a txid, and the
transaction is known, replacement is not allowed, or everything that is replayed applies. -/
theorem admit_raises_iff (hd : DistinctTxids n.mempool) (hc : t.isCoinbase = false) :
    Raises (isPolicyError ·) (n.submissionChecks t) ↔ ∃ txid, t.txid = .ok txid ∧ (txid ∈ n.mempool.map txidOf ∨
      (conflicting n t ≠ [] ∧ n.mempoolPolicy.allowReplacement = false) ∨
      (Applies n.state (staying n t ++ conflicting n t) ∧ Applies n.state (staying n t ++ [t]))) := by
  have hcoinbase : raiseIf (t.isCoinbase = true) (.mempoolPolicyError "coinbase transactions cannot enter the mempool" : PyError) =
      .ok () := raiseIf_of_not (by simp [hc])
  rw [ConsensusNode.submissionChecks, Raises.bind_iff, policy_iff_returns (txid_raises t)]
  constructor
  · rintro ⟨⟨txid, htxid⟩, hrest⟩
    refine ⟨txid, htxid, ?_⟩
    by_cases hknown : txid ∈ n.mempool.map txidOf
    · exact .inl hknown
    · have hroom := hrest txid htxid
      rw [hcoinbase, ok_bind, hasTxid_eq_ok hd, ok_bind, raiseIf_of_not (by simpa using hknown), ok_bind, Raises.bind_iff] at hroom
      exact .inr ((makeRoom_raises_iff hd ⟨txid, htxid⟩).mp hroom.1)
  · rintro ⟨txid, htxid, hor⟩
    refine ⟨⟨txid, htxid⟩, fun txid' htxid' => ?_⟩
    rw [htxid, Except.ok.injEq] at htxid'
    subst htxid'
    rw [hcoinbase, ok_bind, hasTxid_eq_ok hd, ok_bind]
    rcases hor with hknown | hor
    · rw [raiseIf_of (by simpa using hknown)]
      exact .error rfl
    · exact .bind (.raiseIf rfl) fun _ => .bind ((makeRoom_raises_iff hd ⟨txid, htxid⟩).mpr hor) fun r =>
        .bind (validate_raises _ ⟨txid, htxid⟩ _ _) fun _ => .pure _

/-- A transaction that is valid on the active state applies after the entries it shares no input with, unless one
of its outputs is there already and not spent by itself. -/
theorem applies_after_staying (hn : NodeOk n) (hp : ∀ u ∈ n.mempool, IsPending u) (hc : t.isCoinbase = false) {fee : Int}
    (hv : n.state.validateTransaction t = .ok fee) {txid : Str} (ht : t.txid = .ok txid) {fees : List Int} {c : ConsensusState}
    (h : applyEach n.state (staying n t) = .ok (fees, c)) : Applies c [t] ↔
      ∀ i < t.outputs.length, (⟨txid, (i : Nat)⟩ : OutPoint) ∈ c.utxos → ⟨txid, (i : Nat)⟩ ∈ inputOutpoints t := by
  have hspent : ∀ o, o ∈ spentBy t ↔ o ∈ inputOutpoints t := fun o => by rw [spentBy_of_not_coinbase hc]; rfl
  have hstay : ∀ u ∈ staying n t, u.isCoinbase = false := fun u hu => (hp u (List.mem_filter.mp hu).1).notCoinbase
  obtain ⟨htotal, hfees, hparams⟩ := applyEach_total hstay h
  have hmoney : c.maxMoney = n.state.maxMoney := by rw [hparams]
  have hmax : c.utxos.total ≤ c.maxMoney := by
    have htop := hn.total.2
    omega
  obtain ⟨hversion, houts, hne, hnodup, hin, rfl, hfee⟩ := (validateTransaction_eq_ok hc).mp hv
  obtain ⟨-, hr, -⟩ := (applyEach_eq_ok hn.total.2 hstay).mp h
  -- The outputs it spends are still there: no entry that stays spends them.
  have hsame : ∀ o ∈ inputOutpoints t, c.utxos.lookup o = n.state.utxos.lookup o := fun o ho => by
    obtain ⟨x, hx, rfl⟩ := List.mem_map.mp ho
    obtain ⟨j, hj⟩ := List.getElem?_of_mem hx
    obtain ⟨out, hout, -⟩ := hin j x hj
    rw [hout]
    refine hr.kept hout fun e he => ?_
    have hu := (List.of_mem_zip he).1
    show x.previousOutput ∉ spentBy e.1
    rw [spentBy_of_not_coinbase (hstay _ hu)]
    intro hmem
    have hno := (List.mem_filter.mp hu).2
    simp only [decide_eq_true_eq, List.any_eq_true, not_exists, not_and] at hno
    exact hno _ hmem ho
  have hpriced : Priced c.maxMoney c.utxos t (inputTotal n.state.utxos t - outputTotal t.outputs) := by
    refine pricedRules_local _ n.state.utxos c.utxos (t, inputTotal n.state.utxos t - outputTotal t.outputs) (fun o ho => ?_) ?_
    · exact (hsame o ((hspent o).mp ho)).symm
    · exact ⟨hc, by rw [txidOf_eq ht]; exact ht, hversion, by rw [hmoney]; exact validateOutputs_eq_ok.mp houts, hne, hin, rfl, hfee⟩
  have hkey : ∀ o, o ∈ (transfer t (txidOf t)).outs.map Prod.fst ↔ ∃ i < t.outputs.length, o = ⟨txid, (i : Nat)⟩ := fun o => by
    rw [txidOf_eq ht]
    simp only [transfer, mem_keys_createdFrom, Nat.zero_add]
  rw [applies_singleton]
  constructor
  · rintro ⟨⟨fee, s'⟩, happ⟩ i hi hmem
    obtain ⟨-, hs, -⟩ := (applyTransaction_iff hmax hc).mp happ
    by_contra hno
    exact hs.fresh ⟨txid, i⟩ ((hkey _).mpr ⟨i, hi, rfl⟩) (mem_consume.mpr ⟨hmem, fun hin => hno ((hspent _).mp hin)⟩)
  · intro hfresh
    refine ⟨(_, { c with utxos := produce (consume c.utxos (spentBy t)) (transfer t (txidOf t)).outs }),
      (applyTransaction_iff hmax hc).mpr ⟨hpriced, ⟨?_, fun o ho => ?_, ?_, fun o ho hm => ?_, rfl⟩, rfl⟩⟩
    · show (spentBy t).Nodup
      rw [spentBy_of_not_coinbase hc]
      exact hnodup
    · have hin' := (hspent o).mp ho
      rw [← AList.lookup_isSome, hsame o hin']
      obtain ⟨x, hx, rfl⟩ := List.mem_map.mp hin'
      obtain ⟨j, hj⟩ := List.getElem?_of_mem hx
      obtain ⟨out, hout, -⟩ := hin j x hj
      rw [hout]
      rfl
    · exact nodup_createdFrom _ _ _
    · obtain ⟨i, hi, rfl⟩ := (hkey o).mp ho
      obtain ⟨hmem, hno⟩ := mem_consume.mp hm
      exact hno ((hspent _).mpr (hfresh i hi hmem))

end Room

/-! ## The service -/

section Service

variable {n : ConsensusNode} {t : ConsensusTransaction}

/-- `submit_transaction` returns the txid, or raises a `MempoolPolicyError`. -/
def AnsweredByPolicy (n : ConsensusNode) (t : ConsensusTransaction) : Prop :=
  (∃ txid, t.txid = .ok txid ∧ ((ConsensusNode.submitTransaction t).call n).1 = .ok txid) ∨
    ∃ message, ((ConsensusNode.submitTransaction t).call n).1 = .error (.mempoolPolicyError message)

theorem submitTransaction_result (hd : DistinctTxids n.mempool) :
    ((ConsensusNode.submitTransaction t).call n).1 = Prod.fst <$> n.submissionChecks t := by
  rw [submitTransaction_eq hd]
  cases n.submissionChecks t <;> rfl

theorem answeredByPolicy_iff (hd : DistinctTxids n.mempool) :
    AnsweredByPolicy n t ↔ Raises (isPolicyError ·) (n.submissionChecks t) := by
  rw [AnsweredByPolicy, submitTransaction_result hd]
  cases ha : n.submissionChecks t with
  | error e =>
    constructor
    · rintro (⟨_, -, h⟩ | ⟨message, h⟩)
      · cases h
      · cases h
        exact .error rfl
    · intro h
      cases e with
      | mempoolPolicyError message => exact .inr ⟨message, rfl⟩
      | _ => exact absurd (h _ rfl) (by simp [isPolicyError])
  | ok r =>
    refine ⟨fun _ => .ok r, fun _ => .inl ⟨r.1, ?_, rfl⟩⟩
    obtain ⟨txid, htxid, h⟩ := bind_eq_ok.mp ha
    simp only [bind_eq_ok, pure_eq_ok] at h
    obtain ⟨_, -, _, -, _, -, _, -, _, -, rfl⟩ := h
    exact htxid

/-- No score is added for an answer of the policy. -/
theorem AnsweredByPolicy.peers (h : AnsweredByPolicy n t) {txid : Str} (ht : t.txid = .ok txid) {service : NodeService}
    (hs : service.node = n) (address : Str) (now : Int) :
    ((NodeService.receiveTransaction address t now).call service).2.peers = service.peers := by
  have hsubmit : Method.Ends (Method.onPart NodeService.node (fun node s => { s with node := node })
      (ConsensusNode.submitTransaction t)) service (fun _ s' => s'.peers = service.peers)
      fun e s' => isPolicyError e = true ∧ s'.peers = service.peers := by
    rw [Method.Ends, Method.call_onPart, hs]
    rcases h with ⟨_, -, h⟩ | ⟨message, h⟩
    · rw [h]
    · rw [h]
      exact ⟨rfl, rfl⟩
  have hhandle : Method.Ends (NodeService.handleTransaction t) service (fun _ s' => s'.peers = service.peers)
      fun e s' => isPolicyError e = true ∧ s'.peers = service.peers := by
    refine .bind (.reading (fun txid' _ => .bind (.of_call (Method.call_get _) ?_)) fun e he => by rw [ht] at he; cases he)
    split
    · exact .pure rfl
    · exact .bind (hsubmit.mono (fun _ s' hp => .bind (.modify (.pure hp))) fun _ _ hp => hp)
  refine Method.Ends.snd (P := fun s' => s'.peers = service.peers) (.tryCatch (.bind (hhandle.mono (fun _ s' hp => .pure hp)
    fun e s' hp => ?_)))
  cases e with
  | mempoolPolicyError message => exact .pure hp.2
  | _ => exact absurd hp.1 (by simp [isPolicyError])

/-- Policy is kept apart from consensus for a transaction that is valid on the active state, and its sender is not
punished, exactly when it has a txid and is known, or conflicts where replacement is not allowed, or the entries
that stay and then those it replaces apply to the active state, and none of its outputs is there already. -/
theorem submit_separates_policy (calls : List Call) (n : ConsensusNode) (hn : World.after calls = .up n)
    (t : ConsensusTransaction) (hc : t.isCoinbase = false) (fee : Int) (hv : n.state.validateTransaction t = .ok fee) :
    (AnsweredByPolicy n t ∧ ∀ (service : NodeService) (address : Str) (now : Int), service.node = n →
        ((NodeService.receiveTransaction address t now).call service).2.peers = service.peers) ↔
      ∃ txid, t.txid = .ok txid ∧ ((∃ u ∈ n.mempool, u.txid = .ok txid) ∨
        (conflicting n t ≠ [] ∧ n.mempoolPolicy.allowReplacement = false) ∨
        (Applies n.state (staying n t ++ conflicting n t) ∧ ∀ fees c, applyEach n.state (staying n t) = .ok (fees, c) →
          ∀ i < t.outputs.length, (⟨txid, (i : Nat)⟩ : OutPoint) ∈ c.utxos → ⟨txid, (i : Nat)⟩ ∈ inputOutpoints t)) := by
  have hok := nodeOk_after hn
  have hknown : ∀ txid, (∃ u ∈ n.mempool, u.txid = .ok txid) ↔ txid ∈ n.mempool.map txidOf := fun txid => by
    rw [List.mem_map]
    refine exists_congr fun u => and_congr_right fun hu => ?_
    rw [hok.mempool.txid u hu, Except.ok.injEq]
  have hreplay : ∀ {txid}, t.txid = .ok txid → Applies n.state (staying n t ++ conflicting n t) →
      (Applies n.state (staying n t ++ [t]) ↔ ∀ fees c, applyEach n.state (staying n t) = .ok (fees, c) →
        ∀ i < t.outputs.length, (⟨txid, (i : Nat)⟩ : OutPoint) ∈ c.utxos → ⟨txid, (i : Nat)⟩ ∈ inputOutpoints t) := by
    intro txid ht happ
    obtain ⟨c, hcand, -⟩ := applies_append.mp happ
    obtain ⟨fees, hstay⟩ := candidateAfter_eq_ok.mp hcand
    have hfresh := applies_after_staying hok (synced_after hn).pending hc hv ht hstay
    rw [applies_append]
    constructor
    · rintro ⟨c₁, hcand₁, ht₁⟩ fees₂ c₂ hstay₂
      rw [hcand, Except.ok.injEq] at hcand₁
      rw [hstay, Except.ok.injEq, Prod.mk.injEq] at hstay₂
      rw [← hstay₂.2]
      exact hfresh.mp (hcand₁ ▸ ht₁)
    · intro h
      exact ⟨c, hcand, hfresh.mpr (h fees c hstay)⟩
  have hpolicy : AnsweredByPolicy n t ↔ ∃ txid, t.txid = .ok txid ∧ ((∃ u ∈ n.mempool, u.txid = .ok txid) ∨
      (conflicting n t ≠ [] ∧ n.mempoolPolicy.allowReplacement = false) ∨
      (Applies n.state (staying n t ++ conflicting n t) ∧ Applies n.state (staying n t ++ [t]))) := by
    rw [answeredByPolicy_iff hok.mempool, admit_raises_iff hok.mempool hc]
    simp only [hknown]
  have hcond : AnsweredByPolicy n t ↔ _ := hpolicy.trans (exists_congr fun txid => and_congr_right fun ht =>
    or_congr_right (or_congr_right (and_congr_right fun happ => hreplay ht happ)))
  rw [← hcond]
  refine ⟨fun h => h.1, fun h => ⟨h, fun service address now hs => ?_⟩⟩
  obtain ⟨txid, ht, -⟩ := hpolicy.mp h
  exact h.peers ht hs address now

end Service

/-! ## A payment and its rival

Alice's node has the payment pending and a transaction that spends its output. Her other spend of the genesis output
pays more; it would replace the payment, after which the entry that stays cannot be replayed. -/

omit [Ed25519]

theorem submit_separates_payment : @AnsweredByPolicy aliceVerify genesisNode payment := by
  let _ := aliceVerify
  refine ((submit_separates_policy _ genesisNode created_genesisNode payment (by decide) 3 (by decide +kernel)).mpr
    ⟨paymentTxid, by decide +kernel, .inr (.inr ⟨⟨[], _, rfl⟩, fun fees c h i hi hm => ?_⟩)⟩).1
  rw [show staying genesisNode payment = [] from rfl, applyEach, Except.ok.injEq, Prod.mk.injEq] at h
  rw [← h.2] at hm
  have hnew : ∀ o ∈ afterGenesis.utxos.keys, o.txid ≠ paymentTxid := by decide
  exact absurd rfl (hnew _ hm)

def rivalSignature : Str :=
  ['L', 'M', '9', 'K', 'z', 'j', '5', 'V', 'C', 'E', 'G', 'g', 's', 'X', 'M', 'u', '_', '1', 'R', 'K',
   'F', 'n', 'S', 'D', 'X', 'o', 't', 'T', 'e', 'M', 'y', 'w', 'U', 'b', 'R', '1', 'W', '4', 'u', 'L',
   'Y', 'l', 'Z', 'r', 'k', 'x', '-', 'w', '3', 'h', 'm', 'l', '8', 'O', 'Q', 'k', 'M', 'C', 'P', 'l',
   'l', 'g', 'n', 'I', 's', 'z', 'X', '_', 'u', 'L', '4', '9', 'P', 'v', 'b', 'p', 'M', 'N', 'L', 'T',
   'S', '0', 'Z', 'h', 'C', 'A']

/-- Alice spends the genesis output again and leaves a fee of 4. -/
def rivalPayment : ConsensusTransaction where
  inputs := [⟨⟨genesisTxid, 0⟩, some rivalSignature, some aliceKey⟩]
  outputs := [⟨6, aliceAddress⟩]

/-- The node with the payment and its child pending. -/
def chainedNode : ConsensusNode := withMempool genesisNode [payment, nextPayment]

/-- A service with one peer, who has done nothing wrong. -/
def chainedService : NodeService := { genesisService with node := chainedNode, peers := knownBook }

theorem rivalPayment_punished :
    @World.after (aliceSigned [payment, nextPayment, rivalPayment]) [.create [(aliceAddress, 10)] ⟨0, 50, 1000⟩ 0 1,
      .submitTransaction payment, .submitTransaction nextPayment] = .up chainedNode ∧
    rivalPayment.isCoinbase = false ∧
    @ConsensusState.validateTransaction (aliceSigned [payment, nextPayment, rivalPayment]) chainedNode.state rivalPayment = .ok 4 ∧
    ((@ConsensusNode.submitTransaction (aliceSigned [payment, nextPayment, rivalPayment]) rivalPayment).call chainedNode).1 =
      .error (.consensusError "missing output") ∧
    (((@NodeService.receiveTransaction (aliceSigned [payment, nextPayment, rivalPayment]) ['b', 'o', 'b'] rivalPayment 0).call
      chainedService).2.peers.peers.map (·.misbehaviorScore)) = [10] := by
  refine ⟨by decide +kernel, by decide, by decide +kernel, by decide +kernel, by decide +kernel⟩

end BCC.Proof
