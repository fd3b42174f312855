import BlockchainCoin.Impl.Node
import BlockchainCoin.Proof.Block
import BlockchainCoin.Proof.Codec

/-!
# The mempool and its store

The entries of a mempool have distinct txids (`DistinctTxids`). Such a list can
always be saved (`replaceAll_eq_ok`), and what is read back are the same
transactions in their stored form, by txid (`transactions_rowOf`). Every method
that filters the mempool keeps a sublist of it (`keepValid_sublist`,
`makeRoom_sublist`).
-/

namespace BCC.Proof

open BCC.Impl

/-! ## Lists of transactions with distinct txids -/

/-- Every transaction has a txid, and no two have the same. -/
structure DistinctTxids (ts : List ConsensusTransaction) : Prop where
  txid : ∀ t ∈ ts, t.txid = .ok (txidOf t)
  nodup : (ts.map txidOf).Nodup

theorem DistinctTxids.sublist {ts us : List ConsensusTransaction} (h : DistinctTxids us) (hs : ts.Sublist us) :
    DistinctTxids ts :=
  ⟨fun t ht => h.txid t (hs.subset ht), h.nodup.sublist (hs.map _)⟩

theorem distinctTxids_nil : DistinctTxids [] := ⟨fun _ h => absurd h List.not_mem_nil, List.nodup_nil⟩

theorem DistinctTxids.mapM_txid {ts : List ConsensusTransaction} (h : DistinctTxids ts) :
    (ts.mapM fun t => t.txid) = .ok (ts.map txidOf) := by
  rw [mapM_eq_ok, List.forall₂_map_right_iff, List.forall₂_same]
  exact h.txid

theorem DistinctTxids.txids_nodup {ts : List ConsensusTransaction} (h : DistinctTxids ts) :
    (ts.map fun t => t.txid).Nodup := by
  have hmap : (ts.map fun t => t.txid) = (ts.map txidOf).map Except.ok := by
    rw [List.map_map]
    exact List.map_congr_left h.txid
  rw [hmap]
  exact h.nodup.map fun _ _ => Except.ok.inj

/-- A transaction with a txid that no entry has can be added at the end. -/
theorem DistinctTxids.snoc {ts : List ConsensusTransaction} {t : ConsensusTransaction} (h : DistinctTxids ts)
    (ht : t.txid = .ok (txidOf t)) (hn : txidOf t ∉ ts.map txidOf) : DistinctTxids (ts ++ [t]) := by
  refine ⟨fun u hu => ?_, ?_⟩
  · rcases List.mem_append.mp hu with hu | hu
    · exact h.txid u hu
    · rw [List.mem_singleton.mp hu]; exact ht
  · rw [List.map_append, List.nodup_append]
    refine ⟨h.nodup, List.nodup_singleton _, fun a ha b hb e => hn ?_⟩
    rw [List.map_singleton, List.mem_singleton] at hb
    exact hb ▸ e ▸ ha

/-! ## The store -/

/-- The row of a transaction. -/
def rowOf (t : ConsensusTransaction) : MempoolRow :=
  ⟨txidOf t, match t.toBytes with
    | .ok payload => hexEncode payload
    | .error _ => []⟩

theorem txid_eq_ok {t : ConsensusTransaction} {txid : Str} :
    t.txid = .ok txid ↔ ∃ bs, t.toBytes = .ok bs ∧ sha256Hex bs = txid := by
  simp only [ConsensusTransaction.txid, bind_eq_ok, pure_eq_ok]

theorem mempoolRow_eq_ok {t : ConsensusTransaction} {row : MempoolRow} :
    mempoolRow t = .ok row ↔ t.txid = .ok (txidOf t) ∧ row = rowOf t := by
  simp only [mempoolRow, bind_eq_ok, pure_eq_ok]
  constructor
  · rintro ⟨txid, htx, payload, hp, rfl⟩
    have he := txidOf_eq htx
    exact ⟨by rw [he]; exact htx, by rw [rowOf, he, hp]⟩
  · rintro ⟨htx, rfl⟩
    obtain ⟨bs, hbs, -⟩ := txid_eq_ok.mp htx
    exact ⟨_, htx, bs, hbs, by rw [rowOf, hbs]⟩

theorem decode_rowOf {t : ConsensusTransaction} (h : t.txid = .ok (txidOf t)) :
    decodeMempoolRow (rowOf t) = .ok (storedTransaction t) := by
  obtain ⟨bs, hbs, -⟩ := txid_eq_ok.mp h
  simp only [decodeMempoolRow, rowOf, hbs, bytesFromhex, hexDecode_hexEncode, ok_bind]
  exact fromBytes_toBytes_transaction hbs

theorem replaceAll_eq_ok {ts : List ConsensusTransaction} {store : MempoolStore} :
    MempoolStore.replaceAll ts = .ok store ↔ DistinctTxids ts ∧ store = ⟨ts.map rowOf⟩ := by
  have hmap : ∀ {new : List MempoolRow}, ts.mapM mempoolRow = .ok new ↔
      (∀ t ∈ ts, t.txid = .ok (txidOf t)) ∧ new = ts.map rowOf := by
    intro new
    constructor
    · intro h
      exact map_of_mapM_eq_ok (fun h => mempoolRow_eq_ok.mp h) h
    · rintro ⟨h, rfl⟩
      rw [mapM_eq_ok, List.forall₂_map_right_iff, List.forall₂_same]
      exact fun t ht => mempoolRow_eq_ok.mpr ⟨h t ht, rfl⟩
  have hkeys : (ts.map rowOf).map (·.txid) = ts.map txidOf := by
    rw [List.map_map]
    rfl
  simp only [MempoolStore.replaceAll, bind_eq_ok, hmap, Table.insertAll_eq_ok, pure_eq_ok]
  constructor
  · rintro ⟨_, ⟨htx, rfl⟩, _, ⟨-, hn, -, rfl⟩, rfl⟩
    exact ⟨⟨htx, hkeys ▸ hn⟩, rfl⟩
  · rintro ⟨h, rfl⟩
    exact ⟨_, ⟨h.txid, rfl⟩, _, ⟨fun _ _ => trivial, hkeys ▸ h.nodup, by simp, rfl⟩, rfl⟩

/-- The store is what `replace_all` left: a transaction for every row. -/
def PoolOk (store : MempoolStore) : Prop := ∃ ts, DistinctTxids ts ∧ store = ⟨ts.map rowOf⟩

theorem poolOk_nil : PoolOk ⟨[]⟩ := ⟨[], distinctTxids_nil, rfl⟩

theorem txidOf_storedTransaction (t : ConsensusTransaction) : txidOf (storedTransaction t) = txidOf t := by
  rw [txidOf, txidOf, txid_storedTransaction]

theorem rowOf_storedTransaction (t : ConsensusTransaction) : rowOf (storedTransaction t) = rowOf t := by
  rw [rowOf, rowOf, txidOf_storedTransaction, toBytes_storedTransaction]

theorem storedTransaction_distinct {ts : List ConsensusTransaction} (h : DistinctTxids ts) :
    DistinctTxids (ts.map storedTransaction) := by
  refine ⟨List.forall_mem_map.mpr fun t ht => ?_, ?_⟩
  · rw [txid_storedTransaction, txidOf_storedTransaction, h.txid t ht]
  · rw [List.map_map]
    exact (List.map_congr_left fun t _ => txidOf_storedTransaction t) ▸ h.nodup

/-- The transactions in the order of their rows. -/
def byTxid (ts : List ConsensusTransaction) : List ConsensusTransaction :=
  ts.insertionSort fun a b => (rowOf a).before (rowOf b)

theorem byTxid_perm (ts : List ConsensusTransaction) : (byTxid ts).Perm ts := List.perm_insertionSort _ ts

/-- What is read back: the transactions that were saved, in their stored form and by txid. -/
theorem transactions_rowOf {ts : List ConsensusTransaction} (h : DistinctTxids ts) :
    MempoolStore.transactions ⟨ts.map rowOf⟩ = .ok ((byTxid ts).map storedTransaction) := by
  have hsort : (ts.map rowOf).insertionSort MempoolRow.before = (byTxid ts).map rowOf :=
    (List.map_insertionSort _ MempoolRow.before rowOf ts fun _ _ _ _ => Iff.rfl).symm
  rw [MempoolStore.transactions, hsort, mapM_eq_ok, List.forall₂_map_right_iff, List.forall₂_map_left_iff,
    List.forall₂_same]
  exact fun t ht => decode_rowOf (h.txid t ((byTxid_perm ts).mem_iff.mp ht))

/-! ## Filtering -/

theorem hasTxid_eq_ok {ts : List ConsensusTransaction} (h : DistinctTxids ts) (txid : Str) :
    hasTxid txid ts = .ok (decide (txid ∈ ts.map txidOf)) := by
  induction ts with
  | nil => rfl
  | cons t ts ih =>
    have hts := h.sublist (List.sublist_cons_self t ts)
    rw [hasTxid, h.txid t List.mem_cons_self, ok_bind, ih hts]
    by_cases he : txidOf t = txid
    · rw [if_pos he, List.map_cons, he]
      simp [pure, Except.pure]
    · rw [if_neg he, List.map_cons]
      simp [Ne.symm he]

theorem withoutTxids_eq_ok {ts : List ConsensusTransaction} (h : DistinctTxids ts) (txids : List Str) :
    withoutTxids txids ts = .ok (ts.filter fun t => txidOf t ∉ txids) := by
  induction ts with
  | nil => rfl
  | cons t ts ih =>
    have hts := h.sublist (List.sublist_cons_self t ts)
    rw [withoutTxids, h.txid t List.mem_cons_self, ok_bind, ih hts, ok_bind]
    by_cases he : txidOf t ∈ txids <;> simp [he, pure, Except.pure]

theorem keepValid_sublist [Ed25519] (p : MempoolPolicy) (ts : List ConsensusTransaction) :
    ∀ (candidate : ConsensusState) (valid : List ConsensusTransaction),
      ∃ kept, keepValid p candidate valid ts = valid ++ kept ∧ kept.Sublist ts := by
  induction ts with
  | nil => exact fun _ valid => ⟨[], (List.append_nil valid).symm, .slnil⟩
  | cons t ts ih =>
    intro candidate valid
    rw [keepValid]
    split
    · obtain ⟨kept, he, hs⟩ := ih candidate valid
      exact ⟨kept, he, hs.cons t⟩
    · rename_i fee candidate' _
      split
      · obtain ⟨kept, he, hs⟩ := ih candidate' valid
        exact ⟨kept, he, hs.cons t⟩
      · obtain ⟨kept, he, hs⟩ := ih candidate' (valid ++ [t])
        exact ⟨t :: kept, by rw [he, List.append_assoc]; rfl, hs.cons_cons t⟩

theorem DistinctTxids.keepValid [Ed25519] {ts : List ConsensusTransaction} (h : DistinctTxids ts)
    (p : MempoolPolicy) (s : ConsensusState) : DistinctTxids (Impl.keepValid p s [] ts) := by
  obtain ⟨kept, he, hs⟩ := keepValid_sublist p ts s []
  rw [he]
  exact h.sublist hs

/-! ## Admission -/

section Admission

variable [Ed25519] {n : ConsensusNode} {t : ConsensusTransaction}

/-- `t` applies after `ts`, with this fee. -/
def AppliesAfter (s : ConsensusState) (ts : List ConsensusTransaction) (t : ConsensusTransaction) (fee : Int) :
    Prop :=
  ∃ c c', candidateAfter s ts = .ok c ∧ c.applyTransaction t = .ok (fee, c')

theorem replacementContext_eq_ok (hd : DistinctTxids n.mempool) {r : ReplacementContext}
    (h : n.replacementContext t = .ok r) :
    r.remaining.Sublist n.mempool ∧ ∀ u ∈ r.remaining, (inputOutpoints u).Disjoint (inputOutpoints t) := by
  have hmeet : ∀ {u : ConsensusTransaction}, (inputOutpoints u).any (· ∈ inputOutpoints t) = false →
      (inputOutpoints u).Disjoint (inputOutpoints t) := fun hu => by
    simpa [List.Disjoint] using hu
  unfold ConsensusNode.replacementContext at h
  extract_lets newInputs replaced at h
  split at h
  · rename_i hr
    rw [pure_eq_ok] at h
    subst h
    refine ⟨List.Sublist.refl _, fun u hu => hmeet ?_⟩
    simpa using List.filter_eq_nil_iff.mp hr u hu
  · have hsub : replaced.Sublist n.mempool := List.filter_sublist
    simp only [bind_eq_ok, exists_unit, (hd.sublist hsub).mapM_txid, Except.ok.injEq, exists_eq_left',
      withoutTxids_eq_ok hd, pure_eq_ok] at h
    obtain ⟨-, c, -, fee, -, rfl⟩ := h
    refine ⟨List.filter_sublist, fun u hu => hmeet ?_⟩
    obtain ⟨hu, hno⟩ := List.mem_filter.mp hu
    by_contra hyes
    rw [Bool.not_eq_false] at hyes
    simp only [decide_eq_true_eq] at hno
    exact hno (List.mem_map_of_mem (List.mem_filter.mpr ⟨hu, hyes⟩))

/-- What the loop of `_evict_for_policy` finds is the entries without one of them, and `t` applies after
these. -/
theorem evictionLoop_eq_ok {fees : List (Str × Int)} {after : List ConsensusTransaction} :
    ∀ {before : List ConsensusTransaction} {best found : Option EvictionChoice},
      n.evictionLoop t fees best before after = .ok found →
      (∀ b ∈ best, b.remaining.Sublist (before ++ after) ∧ AppliesAfter n.state b.remaining t b.fee) →
        ∀ b ∈ found, b.remaining.Sublist (before ++ after) ∧ AppliesAfter n.state b.remaining t b.fee := by
  induction after with
  | nil =>
    intro before best found h hbest
    rw [ConsensusNode.evictionLoop, Except.ok.injEq] at h
    exact h ▸ hbest
  | cons existing after ih =>
    intro before best found h hbest
    rw [← List.singleton_append, ← List.append_assoc] at hbest ⊢
    rw [ConsensusNode.evictionLoop] at h
    obtain ⟨txid, -, h⟩ := bind_eq_ok.mp h
    obtain ⟨score, -, h⟩ := bind_eq_ok.mp h
    extract_lets trial better at h
    cases htrial : trial with
    | error e => rw [htrial] at h; exact ih h hbest
    | ok fee =>
      rw [htrial] at h
      refine ih h fun b hb => ?_
      split at hb
      · rw [Option.mem_some_iff] at hb
        subst hb
        simp only [trial, bind_eq_ok, pure_eq_ok] at htrial
        obtain ⟨c, hc, ⟨f, c'⟩, hf, rfl⟩ := htrial
        exact ⟨(List.sublist_append_left before [existing]).append_right after, c, c', hc, hf⟩
      · exact hbest b hb

theorem evictForPolicy_eq_ok {remaining remaining' : List ConsensusTransaction} {fee fee' : Int}
    (h : n.evictForPolicy t remaining fee = .ok (remaining', fee')) (ha : AppliesAfter n.state remaining t fee) :
    remaining'.Sublist remaining ∧ AppliesAfter n.state remaining' t fee' := by
  have hkeep : (remaining, fee) = (remaining', fee') → remaining'.Sublist remaining ∧
      AppliesAfter n.state remaining' t fee' := fun e => by
    rw [Prod.mk.injEq] at e
    obtain ⟨rfl, rfl⟩ := e
    exact ⟨List.Sublist.refl _, ha⟩
  unfold ConsensusNode.evictForPolicy at h
  split at h
  · exact hkeep (pure_eq_ok.mp h)
  split at h
  · exact hkeep (pure_eq_ok.mp h)
  · obtain ⟨score, -, h⟩ := bind_eq_ok.mp h
    obtain ⟨fees, -, h⟩ := bind_eq_ok.mp h
    obtain ⟨found, hfound, h⟩ := bind_eq_ok.mp h
    have hbest := evictionLoop_eq_ok hfound (fun b hb => absurd hb (Option.not_mem_none b))
    cases found with
    | none => exact hkeep (pure_eq_ok.mp h)
    | some best =>
      simp only [bind_eq_ok, exists_unit, pure_eq_ok, Prod.mk.injEq] at h
      obtain ⟨-, rfl, rfl⟩ := h
      exact hbest best rfl

/-- What `submit_transaction` has checked of a transaction it admits, and of the entries it keeps. -/
structure Admitted (n : ConsensusNode) (t : ConsensusTransaction) (remaining : List ConsensusTransaction) (fee : Int) :
    Prop where
  txid : t.txid = .ok (txidOf t)
  fresh : txidOf t ∉ n.mempool.map txidOf
  notCoinbase : t.isCoinbase = false
  sublist : remaining.Sublist n.mempool
  disjoint : ∀ u ∈ remaining, (inputOutpoints u).Disjoint (inputOutpoints t)
  applies : AppliesAfter n.state remaining t fee
  policy : n.mempoolPolicy.validate t fee remaining.length = .ok ()

theorem Admitted.distinct {remaining : List ConsensusTransaction} {fee : Int} (h : Admitted n t remaining fee)
    (hd : DistinctTxids n.mempool) : DistinctTxids (remaining ++ [t]) :=
  (hd.sublist h.sublist).snoc h.txid fun hm => h.fresh ((h.sublist.map _).subset hm)

theorem admit_eq_ok (hd : DistinctTxids n.mempool) {txid : Str} {remaining : List ConsensusTransaction}
    (h : n.submissionChecks t = .ok (txid, remaining)) : ∃ fee, Admitted n t remaining fee := by
  simp only [ConsensusNode.submissionChecks, ConsensusNode.makeRoom, bind_eq_ok, exists_unit, raiseIf_eq_ok,
    hasTxid_eq_ok hd, Except.ok.injEq, exists_eq_left', pure_eq_ok, Bool.not_eq_true, decide_eq_false_iff_not,
    Prod.mk.injEq] at h
  obtain ⟨txid', htx, hcb, hfresh, ⟨remaining', fee⟩, ⟨r, hr, c, hc, ⟨fee₁, c'⟩, hf, hroom⟩, hpolicy, rfl, rfl⟩ := h
  have hid := txidOf_eq htx
  obtain ⟨hsub, hdisj⟩ := replacementContext_eq_ok hd hr
  have hroom' : remaining'.Sublist r.remaining ∧ AppliesAfter n.state remaining' t fee := by
    split at hroom
    · exact evictForPolicy_eq_ok hroom ⟨c, c', hc, hf⟩
    · simp only [bind_eq_ok, exists_unit, pure_eq_ok, Prod.mk.injEq] at hroom
      obtain ⟨-, rfl, rfl⟩ := hroom
      exact ⟨List.Sublist.refl _, c, c', hc, hf⟩
  exact ⟨fee, by rw [hid]; exact htx, by rw [hid]; exact hfresh, hcb, hroom'.1.trans hsub,
    fun u hu => hdisj u (hroom'.1.subset hu), hroom'.2, hpolicy⟩

end Admission

end BCC.Proof
