import BlockchainCoin.Proof.Admission

/-!
# Entries the policy lets stand

`_load_mempool` and `_prune_invalid_mempool` apply an entry before they ask the
policy, and one that it refuses stays applied for those after it. `sift` is the
loop with what became of every entry that applied. What it keeps stands on its
own (`Relays`) as long as no entry that is kept is linked to one that was refused
before it (`keepValid_relays`).
-/

namespace BCC.Proof

open BCC.Impl BCC.Ledger

/-! ## Policy -/

/-- What the policy asks of the place of an entry, its size and its fee. -/
theorem validate_eq_ok {p : MempoolPolicy} {t : ConsensusTransaction} {fee count : Int} :
    p.validate t fee count = .ok () ↔ ∃ bs, t.toBytes = .ok bs ∧ count < p.maxTransactions ∧
      t.inputs.length ≤ p.maxInputs ∧ t.outputs.length ≤ p.maxOutputs ∧ bs.length ≤ p.maxTransactionBytes ∧ 0 ≤ count ∧
      p.minRelayFee ≤ fee ∧ (bs.length * (p.minRelayFeeRate + count * p.dynamicFeeRateStep) + 999) / 1000 ≤ fee := by
  simp only [MempoolPolicy.validate, MempoolPolicy.serializedSize, MempoolPolicy.minimumFee,
    MempoolPolicy.effectiveMinRelayFeeRate, bind_eq_ok, exists_unit, raiseIf_eq_ok, pure_eq_ok, not_lt, not_le]
  constructor
  · rintro ⟨hmax, hin, hout, _, ⟨bs, hbs, rfl⟩, hsize, _, ⟨-, _, ⟨hcount, rfl⟩, rfl⟩, hfee⟩
    exact ⟨bs, hbs, hmax, hin, hout, hsize, hcount, le_trans (le_max_left _ _) hfee, le_trans (le_max_right _ _) hfee⟩
  · rintro ⟨bs, hbs, hmax, hin, hout, hsize, hcount, hfee, hrate⟩
    exact ⟨hmax, hin, hout, _, ⟨bs, hbs, rfl⟩, hsize, _, ⟨Int.natCast_nonneg _, _, ⟨hcount, rfl⟩, rfl⟩, max_le hfee hrate⟩

/-- The policy asks no more of an entry that comes earlier. -/
theorem validate_mono {p : MempoolPolicy} {t : ConsensusTransaction} {fee count count' : Int}
    (h : p.validate t fee count = .ok ()) (hle : count' ≤ count) (hpos : 0 ≤ count') : p.validate t fee count' = .ok () := by
  obtain ⟨bs, hbs, hmax, hin, hout, hsize, -, hfee, hrate⟩ := validate_eq_ok.mp h
  refine validate_eq_ok.mpr ⟨bs, hbs, by omega, hin, hout, hsize, hpos, hfee, le_trans ?_ hrate⟩
  have hstep : count' * p.dynamicFeeRateStep ≤ count * p.dynamicFeeRateStep :=
    Int.mul_le_mul_of_nonneg_right hle p.dynamicFeeRateStep_nonneg
  have hmul : (bs.length : Int) * (p.minRelayFeeRate + count' * p.dynamicFeeRateStep) ≤
      bs.length * (p.minRelayFeeRate + count * p.dynamicFeeRateStep) :=
    Int.mul_le_mul_of_nonneg_left (by omega) (Int.natCast_nonneg _)
  exact Int.ediv_le_ediv (by decide) (by omega)

variable [Ed25519]

/-- The entries apply one after the other, and the policy lets each pass at its place. -/
def Relays (p : MempoolPolicy) (s : ConsensusState) (ts : List ConsensusTransaction) : Prop :=
  ∃ fees s', applyEach s ts = .ok (fees, s') ∧
    ∀ (i : Nat) e, (ts.zip fees)[i]? = some e → p.validate e.1 e.2 i = .ok ()

theorem Relays.applies {p : MempoolPolicy} {s : ConsensusState} {ts : List ConsensusTransaction} (h : Relays p s ts) :
    Applies s ts := by
  obtain ⟨fees, s', h, -⟩ := h
  exact ⟨fees, s', h⟩

theorem relays_nil (p : MempoolPolicy) (s : ConsensusState) : Relays p s [] :=
  ⟨[], s, rfl, fun i e h => by simp at h⟩

/-! ## The loop -/

/-- An entry that applied, for this fee, and whether the policy let it pass. -/
structure Sifted where
  transaction : ConsensusTransaction
  fee : Int
  kept : Bool

/-- The loop of `_load_mempool` with what became of each entry that applied, after `count` others were kept. -/
def sift (p : MempoolPolicy) : ConsensusState → Nat → List ConsensusTransaction → List Sifted
  | _, _, [] => []
  | candidate, count, t :: ts =>
    match candidate.applyTransaction t with
    | .error _ => sift p candidate count ts
    | .ok (fee, candidate') =>
      match p.validate t fee count with
      | .error _ => ⟨t, fee, false⟩ :: sift p candidate' count ts
      | .ok _ => ⟨t, fee, true⟩ :: sift p candidate' (count + 1) ts

section Sift

variable {p : MempoolPolicy} {ts : List ConsensusTransaction}

theorem keepValid_eq_sift (c : ConsensusState) (valid : List ConsensusTransaction) :
    keepValid p c valid ts = valid ++ ((sift p c valid.length ts).filter (·.kept)).map (·.transaction) := by
  induction ts generalizing c valid with
  | nil => exact (List.append_nil valid).symm
  | cons t ts ih =>
    rw [keepValid, sift]
    cases c.applyTransaction t with
    | error e => exact ih c valid
    | ok r =>
      obtain ⟨fee, c'⟩ := r
      simp only
      cases p.validate t fee valid.length with
      | error e => exact ih c' valid
      | ok u =>
        simp only
        rw [ih c' (valid ++ [t]), List.append_assoc, List.length_append, List.length_singleton]
        rfl

theorem sift_sublist (c : ConsensusState) (count : Nat) : ((sift p c count ts).map (·.transaction)).Sublist ts := by
  induction ts generalizing c count with
  | nil => exact .slnil
  | cons t ts ih =>
    rw [sift]
    cases c.applyTransaction t with
    | error e => exact (ih c count).cons t
    | ok r =>
      simp only
      cases p.validate t r.1 count with
      | error e => exact (ih r.2 count).cons_cons t
      | ok u => exact (ih r.2 (count + 1)).cons_cons t

theorem applyEach_sift (c : ConsensusState) (count : Nat) :
    ∃ c', applyEach c ((sift p c count ts).map (·.transaction)) = .ok ((sift p c count ts).map (·.fee), c') := by
  induction ts generalizing c count with
  | nil => exact ⟨c, rfl⟩
  | cons t ts ih =>
    rw [sift]
    cases ht : c.applyTransaction t with
    | error e => exact ih c count
    | ok r =>
      simp only
      cases p.validate t r.1 count with
      | error e =>
        obtain ⟨c', h⟩ := ih r.2 count
        exact ⟨c', applyEach_cons.mpr ⟨r.1, _, r.2, ht, h, rfl⟩⟩
      | ok u =>
        obtain ⟨c', h⟩ := ih r.2 (count + 1)
        exact ⟨c', applyEach_cons.mpr ⟨r.1, _, r.2, ht, h, rfl⟩⟩

/-- What is kept has passed the policy at the place it is kept at. -/
theorem sift_validate (c : ConsensusState) (count : Nat) {i : Nat} {e : Sifted}
    (h : ((sift p c count ts).filter (·.kept))[i]? = some e) :
    p.validate e.transaction e.fee ((count + i : Nat) : Int) = .ok () := by
  induction ts generalizing c count i with
  | nil => simp [sift] at h
  | cons t ts ih =>
    rw [sift] at h
    cases ht : c.applyTransaction t with
    | error e' =>
      rw [ht] at h
      exact ih c count h
    | ok r =>
      rw [ht] at h
      simp only at h
      cases hv : p.validate t r.1 count with
      | error e' =>
        rw [hv] at h
        exact ih r.2 count h
      | ok u =>
        rw [hv] at h
        simp only [List.filter_cons_of_pos] at h
        cases i with
        | zero =>
          obtain rfl := Option.some.inj h
          exact hv
        | succ i =>
          have hi := ih r.2 (count + 1) h
          rwa [Nat.add_right_comm] at hi

/-- Nothing is refused where the policy lets every entry pass that applies to a state of kind `I`, at its place in
the list or earlier. -/
theorem sift_kept {I : ConsensusState → Prop} {base : Nat}
    (hstep : ∀ t ∈ ts, ∀ {c fee c'}, I c → c.applyTransaction t = .ok (fee, c') → I c')
    (hpass : ∀ (i : Nat) t, ts[i]? = some t → ∀ {c fee c'} {count : Nat}, I c → c.applyTransaction t = .ok (fee, c') →
      count ≤ base + i → p.validate t fee count = .ok ()) {c : ConsensusState} (hc : I c) {count : Nat} (hcount : count ≤ base) :
    ∀ e ∈ sift p c count ts, e.kept = true := by
  induction ts generalizing c count base with
  | nil => exact fun e he => absurd he List.not_mem_nil
  | cons t ts ih =>
    have hrest : ∀ {c : ConsensusState}, I c → ∀ {count : Nat}, count ≤ base + 1 → ∀ e ∈ sift p c count ts, e.kept = true :=
      ih (fun u hu => hstep u (List.mem_cons_of_mem t hu)) fun i u hu c fee c' count hc hu' hle =>
        hpass (i + 1) u hu hc hu' (by omega)
    rw [sift]
    cases ht : c.applyTransaction t with
    | error e => exact hrest hc (by omega)
    | ok r =>
      have hc' := hstep t List.mem_cons_self hc ht
      simp only [hpass 0 t rfl hc ht (by omega)]
      exact List.forall_mem_cons.mpr ⟨rfl, hrest hc' (by omega)⟩

end Sift

/-! ## What is kept -/

section Kept

variable {p : MempoolPolicy} {s : ConsensusState} {ts : List ConsensusTransaction}

/-- Entries that all stand are all kept. -/
theorem Relays.keepValid (h : Relays p s ts) : keepValid p s [] ts = ts := by
  obtain ⟨fees, s', h, hpass⟩ := h
  have key : ∀ (valid : List ConsensusTransaction), applyEach s ts = .ok (fees, s') →
      (∀ (i : Nat) e, (ts.zip fees)[i]? = some e → p.validate e.1 e.2 ((valid.length + i : Nat) : Int) = .ok ()) →
      Impl.keepValid p s valid ts = valid ++ ts := by
    clear h hpass
    induction ts generalizing s fees with
    | nil => exact fun valid _ _ => (List.append_nil valid).symm
    | cons t ts ih =>
      intro valid h hpass
      obtain ⟨fee, rest, s₁, ht, hts, rfl⟩ := applyEach_cons.mp h
      have hnext : Impl.keepValid p s₁ (valid ++ [t]) ts = valid ++ [t] ++ ts := ih rest (valid ++ [t]) hts fun i e he => by
        rw [List.length_append, List.length_singleton, Nat.add_assoc, Nat.add_comm 1 i]
        exact hpass (i + 1) e he
      have hfirst : p.validate t fee valid.length = .ok () := hpass 0 (t, fee) rfl
      rw [Impl.keepValid, ht]
      simp only [hfirst]
      rw [hnext, List.append_assoc]
      rfl
  exact key [] h fun i e he => by
    rw [List.length_nil, Nat.zero_add]
    exact hpass i e he

/-- Where nothing is lost, everything applies. -/
theorem applies_of_keepValid (h : (keepValid p s [] ts).length = ts.length) : Applies s ts := by
  rw [keepValid_eq_sift, List.nil_append, List.length_map, List.length_nil] at h
  have hle := List.length_filter_le (fun e : Sifted => e.kept) (sift p s 0 ts)
  have hsub : ((sift p s 0 ts).map (·.transaction)).Sublist ts := sift_sublist s 0
  have hall := hsub.eq_of_length_le (by rw [List.length_map]; omega)
  obtain ⟨s', happ⟩ : ∃ s', applyEach s ((sift p s 0 ts).map (·.transaction)) = .ok ((sift p s 0 ts).map (·.fee), s') :=
    applyEach_sift s 0
  rw [hall] at happ
  exact ⟨_, s', happ⟩

/-- What is kept stands without the entries that were refused, unless one of those is linked to an entry that is
kept after it. -/
theorem keepValid_relays (hmax : s.utxos.total ≤ s.maxMoney) (hc : ∀ t ∈ ts, t.isCoinbase = false)
    (hids : (ts.map (·.txid)).Nodup)
    (hfree : ∀ e e' : Sifted, [e, e'].Sublist (sift p s 0 ts) → e.kept = false → e'.kept = true →
      ¬ (SpendsFrom e.transaction e'.transaction ∨ SpendsFrom e'.transaction e.transaction)) :
    Relays p s (keepValid p s [] ts) := by
  rw [keepValid_eq_sift, List.nil_append, List.length_nil]
  have hsub : ((sift p s 0 ts).map (·.transaction)).Sublist ts := sift_sublist s 0
  obtain ⟨s', happ⟩ : ∃ s', applyEach s ((sift p s 0 ts).map (·.transaction)) = .ok ((sift p s 0 ts).map (·.fee), s') :=
    applyEach_sift s 0
  have hval {i : Nat} {e : Sifted} (he : ((sift p s 0 ts).filter (·.kept))[i]? = some e) :
      p.validate e.transaction e.fee ((0 + i : Nat) : Int) = .ok () := sift_validate s 0 he
  generalize sift p s 0 ts = es at hfree hsub happ hval ⊢
  have hids' : ((es.map (·.transaction)).map (·.txid)).Nodup := hids.sublist (hsub.map _)
  have hnodup : (es.map (·.transaction)).Nodup := .of_map _ hids'
  -- The same entries, those that were refused after all that are kept.
  have hperm : ((es.filter (·.kept)).map (·.transaction) ++ (es.filter (! ·.kept)).map (·.transaction)).Perm
      (es.map (·.transaction)) := by
    rw [← List.map_append]
    exact (List.filter_append_perm _ es).map _
  obtain ⟨fees', s'', happ', hzip, -⟩ := applyEach_rearrange hmax (fun t ht => hc t (hsub.subset ht)) hids' happ hperm
    fun t t' hpair hlink => by
      obtain ⟨l, hl, he⟩ := List.sublist_map_iff.mp hpair
      obtain ⟨e, rest, rfl, rfl, hrest⟩ := List.map_eq_cons_iff.mp he.symm
      obtain ⟨e', rest', rfl, rfl, hnil⟩ := List.map_eq_cons_iff.mp hrest
      rw [List.map_eq_nil_iff.mp hnil] at hl
      rw [← List.map_append]
      show ([e, e'].map (·.transaction)).Sublist _
      refine List.Sublist.map _ ?_
      have hmem : e ∈ es ∧ e' ∈ es := ⟨hl.subset (by simp), hl.subset (by simp)⟩
      cases hk : e.kept <;> cases hk' : e'.kept
      · have := hl.filter (! ·.kept)
        rw [List.filter_cons_of_pos (by simp [hk]), List.filter_cons_of_pos (by simp [hk']), List.filter_nil] at this
        exact this.trans (List.sublist_append_right _ _)
      · exact absurd hlink (hfree e e' hl hk hk')
      · exact (List.singleton_sublist.mpr (List.mem_filter.mpr ⟨hmem.1, hk⟩)).append
          (List.singleton_sublist.mpr (List.mem_filter.mpr ⟨hmem.2, by simp [hk']⟩))
      · have := hl.filter (·.kept)
        rw [List.filter_cons_of_pos (by simp [hk]), List.filter_cons_of_pos (by simp [hk']), List.filter_nil] at this
        exact this.trans (List.sublist_append_left _ _)
  obtain ⟨c, fees₁, fees₂, hkept, -, rfl⟩ := applyEach_append.mp happ'
  refine ⟨fees₁, c, hkept, fun i e he => ?_⟩
  have hlen : ((es.filter (·.kept)).map (·.transaction)).length = fees₁.length :=
    ((applyEach_eq_ok hmax fun t ht => hc t (hsub.subset (hperm.subset (List.mem_append_left _ ht)))).mp hkept).1.symm
  obtain ⟨htrans, -⟩ := List.getElem?_zip_eq_some.mp he
  rw [List.getElem?_map, Option.map_eq_some_iff] at htrans
  obtain ⟨e₀, he₀, htr⟩ := htrans
  have hpass := hval he₀
  rw [Nat.zero_add] at hpass
  -- The fee it is kept for is the fee it applied for before.
  have hmem : e ∈ es.map fun e => (e.transaction, e.fee) := by
    rw [← List.zip_map']
    refine hzip.subset ?_
    rw [List.zip_append hlen]
    exact List.mem_append_left _ (List.mem_of_getElem? he)
  obtain ⟨e₁, he₁, rfl⟩ := List.mem_map.mp hmem
  have heq : e₁ = e₀ :=
    List.inj_on_of_nodup_map hnodup he₁ (List.mem_filter.mp (List.mem_of_getElem? he₀)).1 htr.symm
  rw [heq]
  exact hpass

end Kept

end BCC.Proof
