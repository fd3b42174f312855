import BlockchainCoin.Proof.Admission
import BlockchainCoin.Proof.Mining

/-!
# Assembly takes the whole mempool

`_prioritized_mempool_transactions` picks among the pending entries that apply now.
The first of them always does, so the loop is never stuck; whichever it picks spends
no output of those before it, and the others still apply in the order they stood in
(`applyEach_pick`). Every mempool that applies is therefore selected as a whole, with
the fees its entries paid in their own order (`prioritizedTransactions_complete`).
-/

namespace BCC.Proof

open BCC.Impl BCC.Ledger

variable [Ed25519]

/-! ## The best entry -/

omit [Ed25519] in
theorem transactionPolicyScore_eq_ok {t : ConsensusTransaction} {fee : Int} {score : PolicyScore} :
    transactionPolicyScore t fee = .ok score ↔ ∃ bs, t.toBytes = .ok bs ∧ 0 ≤ fee ∧ bs ≠ [] ∧
      score = ⟨fee * 1000 / bs.length, fee, sha256Hex bs⟩ := by
  simp only [transactionPolicyScore, MempoolPolicy.serializedSize, MempoolPolicy.feeRate, bind_eq_ok, exists_unit,
    raiseIf_eq_ok, pure_eq_ok, not_lt, not_le, txid_eq_ok, ← List.length_pos_iff]
  constructor
  · rintro ⟨_, ⟨bs, hbs, rfl⟩, _, ⟨hfee, hlen, rfl⟩, _, ⟨bs', hbs', rfl⟩, rfl⟩
    rw [hbs, Except.ok.injEq] at hbs'
    exact ⟨bs, hbs, hfee, by omega, by rw [hbs']⟩
  · rintro ⟨bs, hbs, hfee, hlen, rfl⟩
    exact ⟨_, ⟨bs, hbs, rfl⟩, _, ⟨hfee, by omega, rfl⟩, _, ⟨bs, hbs, rfl⟩, rfl⟩

/-- A transaction that applies has a score. -/
theorem policyScore_of_applyTransaction {s s' : ConsensusState} {t : ConsensusTransaction} {fee : Int}
    (hc : t.isCoinbase = false) (h : s.applyTransaction t = .ok (fee, s')) :
    ∃ score, transactionPolicyScore t fee = .ok score := by
  obtain ⟨txid, hsp⟩ := (applyTransaction_eq_ok hc).mp h
  obtain ⟨bs, hbs, -⟩ := txid_eq_ok.mp hsp.txid_eq
  have hlen := length_toBytes hbs hsp.inputs_ne
  exact ⟨_, transactionPolicyScore_eq_ok.mpr ⟨bs, hbs, hsp.fee_nonneg, List.ne_nil_of_length_pos (by omega), rfl⟩⟩

/-- The inner loop returns what it started with or an entry that applies, and it finds one where there is one. -/
theorem bestIndex_returns {s : ConsensusState} {ts : List ConsensusTransaction} (hc : ∀ t ∈ ts, t.isCoinbase = false)
    (best : Option (Nat × PolicyScore)) (index : Nat) :
    ∃ found, ConsensusNode.bestIndex s best index ts = .ok found ∧
      (∀ b ∈ found, b ∈ best ∨ ∃ i t, b.1 = index + i ∧ ts[i]? = some t ∧ ∃ r, s.applyTransaction t = .ok r) ∧
      (found = none → best = none ∧ ∀ t ∈ ts, ∀ r, s.applyTransaction t ≠ .ok r) := by
  induction ts generalizing best index with
  | nil => exact ⟨best, rfl, fun b hb => .inl hb, fun h => ⟨h, fun t ht => absurd ht List.not_mem_nil⟩⟩
  | cons t ts ih =>
    rw [List.forall_mem_cons] at hc
    cases ht : s.applyTransaction t with
    | error e =>
      obtain ⟨found, h, hmem, hnone⟩ := ih hc.2 best (index + 1)
      refine ⟨found, by rw [ConsensusNode.bestIndex, ht]; exact h, fun b hb => (hmem b hb).imp_right ?_, fun hf =>
        ⟨(hnone hf).1, ?_⟩⟩
      · rintro ⟨i, u, hi, hu, hr⟩
        exact ⟨i + 1, u, by omega, hu, hr⟩
      · rw [List.forall_mem_cons, ht]
        exact ⟨fun r h => (nomatch h), (hnone hf).2⟩
    | ok r =>
      obtain ⟨fee, s'⟩ := r
      obtain ⟨score, hscore⟩ := policyScore_of_applyTransaction hc.1 ht
      -- Better or not, an entry is now known that applies.
      obtain ⟨next, hstep, hsome, hsource⟩ : ∃ next, ConsensusNode.bestIndex s best index (t :: ts) =
          ConsensusNode.bestIndex s next (index + 1) ts ∧ next ≠ none ∧ ∀ b ∈ next, b ∈ best ∨ b = (index, score) := by
        simp only [ConsensusNode.bestIndex, ht, hscore, ok_bind]
        cases best with
        | none => exact ⟨some (index, score), rfl, by simp, fun b hb => .inr (Option.mem_some_iff.mp hb).symm⟩
        | some best =>
          by_cases hlt : best.2.lt score
          · simp only [hlt, decide_true, if_true]
            exact ⟨_, rfl, by simp, fun b hb => .inr (Option.mem_some_iff.mp hb).symm⟩
          · simp only [hlt, decide_false, Bool.false_eq_true, if_false]
            exact ⟨_, rfl, by simp, fun b hb => .inl hb⟩
      obtain ⟨found, h, hmem, hnone⟩ := ih hc.2 next (index + 1)
      refine ⟨found, hstep.trans h, fun b hb => ?_, fun hf => absurd (hnone hf).1 hsome⟩
      rcases hmem b hb with hb | ⟨i, u, hi, hu, hr⟩
      · exact (hsource b hb).imp_right fun e => ⟨0, t, by rw [e, Nat.add_zero], rfl, (fee, s'), ht⟩
      · exact .inr ⟨i + 1, u, by omega, hu, hr⟩

/-- Among entries of which the first applies, one that applies is picked. -/
theorem bestIndex_cons {s : ConsensusState} {t : ConsensusTransaction} {ts : List ConsensusTransaction}
    (hc : ∀ u ∈ t :: ts, u.isCoinbase = false) (ht : ∃ r, s.applyTransaction t = .ok r) :
    ∃ i score u, ConsensusNode.bestIndex s none 0 (t :: ts) = .ok (some (i, score)) ∧ (t :: ts)[i]? = some u ∧
      ∃ r, s.applyTransaction u = .ok r := by
  obtain ⟨found, h, hmem, hnone⟩ := bestIndex_returns hc none 0
  cases found with
  | none =>
    obtain ⟨r, hr⟩ := ht
    exact absurd hr ((hnone rfl).2 t List.mem_cons_self r)
  | some b =>
    rcases hmem b rfl with hb | ⟨i, u, hi, hu, hr⟩
    · cases hb
    · rw [Nat.zero_add] at hi
      exact ⟨b.1, b.2, u, h, by rw [hi]; exact hu, hr⟩

/-! ## The rest still applies -/

/-- No outpoint of the ledger bears the txid of one of these transactions. -/
def FreshTxids (u : UTXOSet) (ts : List ConsensusTransaction) : Prop := ∀ o ∈ u, ∀ t ∈ ts, t.txid ≠ .ok o.txid

/-- What a transaction leaves bears the txids of what it found, and its own. -/
theorem FreshTxids.apply {s s' : ConsensusState} {t : ConsensusTransaction} {ts : List ConsensusTransaction} {fee : Int}
    (hnew : FreshTxids s.utxos ts) (hc : t.isCoinbase = false) (hother : ∀ u ∈ ts, u.txid ≠ t.txid)
    (h : s.applyTransaction t = .ok (fee, s')) : FreshTxids s'.utxos ts := by
  obtain ⟨txid, hsp⟩ := (applyTransaction_eq_ok hc).mp h
  intro o ho u hu
  by_cases hk : o ∈ (transfer t txid).outs.map Prod.fst
  · rw [txid_of_mem_createdFrom hk, ← hsp.txid_eq]
    exact hother u hu
  · rw [← AList.lookup_isSome, hsp.step.lookup hk] at ho
    split at ho
    · cases ho
    · exact hnew o (AList.lookup_isSome.mp ho) u hu

/-- What applies to a ledger spends no output whose txid is new to it. -/
theorem not_spendsFrom_of_fresh {s s' : ConsensusState} {t u : ConsensusTransaction} {fee : Int}
    (hc : t.isCoinbase = false) (h : s.applyTransaction t = .ok (fee, s')) (hnew : FreshTxids s.utxos [u]) :
    ¬ SpendsFrom t u := by
  rintro ⟨x, hx, htxid, -⟩
  obtain ⟨txid, hsp⟩ := (applyTransaction_eq_ok hc).mp h
  obtain ⟨j, hj⟩ := List.getElem?_of_mem hx
  obtain ⟨out, hout, -⟩ := hsp.inputOk j x hj
  have hm : x.previousOutput ∈ s.utxos := by
    rw [← AList.lookup_isSome]
    exact Option.isSome_iff_exists.mpr ⟨out, hout⟩
  exact hnew _ hm u List.mem_cons_self htxid

omit [Ed25519] in
/-- A pair of a list is one of the list with an element moved to its front, unless the element is its second one. -/
theorem pair_sublist_middle {τ : Type} {pre post : List τ} {a b u : τ} (h : [a, b].Sublist (pre ++ u :: post)) :
    a ∈ pre ∧ b = u ∨ [a, b].Sublist (u :: (pre ++ post)) := by
  obtain ⟨l, l', he, hl, hl'⟩ := List.sublist_append_iff.mp h
  cases hl' with
  | cons _ hl' => exact .inr (he ▸ (hl.append hl').cons u)
  | cons_cons _ hl' =>
    cases l with
    | nil =>
      rw [List.nil_append, List.cons.injEq] at he
      rw [he.1, he.2]
      exact .inr ((hl'.trans (List.sublist_append_right pre post)).cons_cons u)
    | cons x l =>
      rw [List.cons_append, List.cons.injEq] at he
      obtain ⟨rfl, he⟩ := he
      rcases List.singleton_eq_append_iff.mp he with ⟨-, hb⟩ | ⟨-, hb⟩
      · rw [List.cons.injEq] at hb
        exact .inl ⟨hl.subset List.mem_cons_self, hb.1.symm⟩
      · cases hb

theorem length_of_applyEach {s s' : ConsensusState} {ts : List ConsensusTransaction} {fees : List Int}
    (h : applyEach s ts = .ok (fees, s')) : fees.length = ts.length := by
  induction ts generalizing s fees with
  | nil =>
    rw [applyEach, Except.ok.injEq, Prod.mk.injEq] at h
    rw [← h.1, List.length_nil, List.length_nil]
  | cons t ts ih =>
    obtain ⟨fee, rest, s₁, -, hrest, rfl⟩ := applyEach_cons.mp h
    rw [List.length_cons, List.length_cons, ih hrest]

omit [Ed25519] in
theorem sum_of_zip_perm {ts us : List ConsensusTransaction} {fees fees' : List Int} (hf : fees.length = ts.length)
    (hf' : fees'.length = us.length) (h : (ts.zip fees).Perm (us.zip fees')) : fees.sum = fees'.sum := by
  have hm := h.map Prod.snd
  rw [List.map_snd_zip hf.le, List.map_snd_zip hf'.le] at hm
  exact hm.sum_eq

/-- A pending transaction that applies now can be taken first: the others apply after it, in their order and for
their fees. -/
theorem applyEach_pick {s s' : ConsensusState} {ts : List ConsensusTransaction} {fees : List Int} {i : Nat}
    {u : ConsensusTransaction} (hmax : s.utxos.total ≤ s.maxMoney) (hc : ∀ t ∈ ts, t.isCoinbase = false)
    (hids : (ts.map (·.txid)).Nodup) (hnew : FreshTxids s.utxos ts) (h : applyEach s ts = .ok (fees, s'))
    (hi : ts[i]? = some u) (hu : ∃ r, s.applyTransaction u = .ok r) :
    ∃ fee s₁ rest s'', s.applyTransaction u = .ok (fee, s₁) ∧ applyEach s₁ (ts.eraseIdx i) = .ok (rest, s'') ∧
      ((u :: ts.eraseIdx i).zip (fee :: rest)).Perm (ts.zip fees) := by
  obtain ⟨r, hr⟩ := hu
  obtain ⟨hlt, rfl⟩ := List.getElem?_eq_some_iff.mp hi
  obtain ⟨pre, post, hts, hpre⟩ : ∃ pre post, ts = pre ++ ts[i] :: post ∧ ts.eraseIdx i = pre ++ post :=
    ⟨ts.take i, ts.drop (i + 1), by simp, List.eraseIdx_eq_take_drop_succ ..⟩
  rw [hpre]
  generalize ts[i] = u at *
  subst hts
  have hmem : u ∈ pre ++ u :: post := List.mem_append_right _ List.mem_cons_self
  -- What stands before `u` is not linked with it, so only pairs without it or led by it are to be kept.
  have hfree : ∀ t ∈ pre, ¬ (SpendsFrom t u ∨ SpendsFrom u t) := fun t ht hlink => by
    have hsub : [t, u].Sublist (pre ++ u :: post) :=
      (List.singleton_sublist.mpr ht).append (List.singleton_sublist.mpr List.mem_cons_self)
    refine hlink.elim (not_spendsFrom_of_applyEach hmax hc hids hnew h hsub) ?_
    refine not_spendsFrom_of_fresh (hc u hmem) hr fun o ho t' ht' => hnew o ho t' ?_
    rw [List.mem_singleton.mp ht']
    exact List.mem_append_left _ ht
  have hkeep : ∀ t t', [t, t'].Sublist (pre ++ u :: post) → SpendsFrom t t' ∨ SpendsFrom t' t →
      [t, t'].Sublist (u :: (pre ++ post)) := fun t t' hsub hlink => by
    rcases pair_sublist_middle hsub with ⟨ht, rfl⟩ | hsub
    · exact absurd hlink (hfree t ht)
    · exact hsub
  obtain ⟨rest, s'', happ, hperm, -⟩ := applyEach_rearrange hmax hc hids h List.perm_middle.symm hkeep
  obtain ⟨fee, rest, s₁, hfee, hrest, rfl⟩ := applyEach_cons.mp happ
  exact ⟨fee, s₁, rest, s'', hfee, hrest, hperm⟩

/-! ## The whole selection -/

/-- Where the pending transactions apply in their order and their txids are new, assembly returns: it selects all of
them in an order in which they apply, each for the fee it pays in the mempool's own order. -/
theorem prioritizedTransactions_complete (s s' : ConsensusState) (ts : List ConsensusTransaction) (fees : List Int)
    (hmax : s.utxos.total ≤ s.maxMoney) (hc : ∀ t ∈ ts, t.isCoinbase = false) (hids : (ts.map (·.txid)).Nodup)
    (hnew : ∀ o ∈ s.utxos, ∀ t ∈ ts, t.txid ≠ .ok o.txid) (h : applyEach s ts = .ok (fees, s')) :
    ∃ selected fees' s'', ConsensusNode.prioritizedTransactions ts.length s ts = .ok (selected, fees.sum, s'') ∧
      selected.Perm ts ∧ applyEach s selected = .ok (fees', s'') ∧ (selected.zip fees').Perm (ts.zip fees) := by
  generalize hcount : ts.length = count
  induction count generalizing s s' ts fees with
  | zero =>
    obtain rfl := List.length_eq_zero_iff.mp hcount
    rw [applyEach, Except.ok.injEq, Prod.mk.injEq] at h
    obtain ⟨rfl, rfl⟩ := h
    exact ⟨[], [], s, rfl, .refl _, rfl, .refl _⟩
  | succ count ih =>
    obtain ⟨t, ts', rfl⟩ := List.exists_cons_of_length_eq_add_one hcount
    obtain ⟨fee₀, -, s₀, ht, -, -⟩ := applyEach_cons.mp h
    obtain ⟨i, score, u, hbest, hi, hu⟩ := bestIndex_cons hc ⟨_, ht⟩
    obtain ⟨fee, s₁, rest, s₂, hfee, hrest, hperm⟩ := applyEach_pick hmax hc hids hnew h hi hu
    generalize t :: ts' = pending at *
    -- What is pending after the pick is again such a list.
    have hmem : u ∈ pending := List.mem_of_getElem? hi
    obtain ⟨hlt, rfl⟩ := List.getElem?_eq_some_iff.mp hi
    have hsub := List.eraseIdx_sublist pending i
    have hpick : (pending[i] :: pending.eraseIdx i).Perm pending := List.getElem_cons_eraseIdx_perm hlt
    have hother : ∀ t ∈ pending.eraseIdx i, t.txid ≠ pending[i].txid := fun t ht he => by
      have hn := (hpick.map (·.txid)).nodup_iff.mpr hids
      rw [List.map_cons, List.nodup_cons] at hn
      exact hn.1 (he ▸ List.mem_map_of_mem ht)
    obtain ⟨txid, hsp⟩ := (applyTransaction_eq_ok (hc _ hmem)).mp hfee
    have hmoney : s₁.maxMoney = s.maxMoney := by rw [hsp.params]
    have hfresh : FreshTxids s.utxos (pending.eraseIdx i) := fun o ho t ht => hnew o ho t (hsub.subset ht)
    obtain ⟨selected, fees', s'', hsel, hpermsel, happ, hzip⟩ := ih s₁ s₂ _ rest (by rw [hmoney]; exact hsp.le_max)
      (fun t ht => hc t (hsub.subset ht)) (hids.sublist (hsub.map _)) (hfresh.apply (hc _ hmem) hother hfee) hrest
      (by rw [List.length_eraseIdx_of_lt hlt]; omega)
    refine ⟨pending[i] :: selected, fee :: fees', s'', ?_, (hpermsel.cons _).trans hpick,
      applyEach_cons.mpr ⟨fee, fees', s₁, hfee, happ, rfl⟩, ?_⟩
    · have hsum : fees.sum = (fee :: rest).sum :=
        (sum_of_zip_perm (by simp [length_of_applyEach hrest]) (length_of_applyEach h) hperm).symm
      rw [ConsensusNode.prioritizedTransactions, hbest, ok_bind]
      simp only [hi, hfee, hsel, ok_bind, hsum]
      rfl
    · exact (hzip.cons (pending[i], fee)).trans hperm

omit [Ed25519] in
theorem prioritizedTransactions_complete_payments : ∃ selected fees s'',
    @ConsensusNode.prioritizedTransactions (aliceSigned [nextPayment, rewardPayment]) 2 afterPayment
        [nextPayment, rewardPayment] = .ok (selected, 4, s'') ∧
      selected.Perm [nextPayment, rewardPayment] ∧
      @applyEach (aliceSigned [nextPayment, rewardPayment]) afterPayment selected = .ok (fees, s'') ∧
      (selected.zip fees).Perm [(nextPayment, 1), (rewardPayment, 3)] := by
  let _ := aliceSigned [nextPayment, rewardPayment]
  have hok : ((applyEach afterPayment [nextPayment, rewardPayment]).map Prod.fst) = .ok [1, 3] := by decide +kernel
  obtain ⟨⟨_, s'⟩, h, rfl⟩ := map_eq_ok.mp hok
  have hnew : ∀ o ∈ afterPayment.utxos.keys, ∀ t ∈ [nextPayment, rewardPayment], t.txid ≠ .ok o.txid := by decide +kernel
  exact prioritizedTransactions_complete afterPayment s' [nextPayment, rewardPayment] [1, 3] (by decide) (by decide)
    (by decide +kernel) hnew h

end BCC.Proof
