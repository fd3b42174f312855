import BlockchainCoin.Framework.Reorder
import BlockchainCoin.Proof.Chain

/-!
# The order of transactions

A list of transactions that are not coinbases applies in order exactly when it
is a run of the ledger of outpoints whose entries are transactions with their
fees (`applyEach_eq_ok`): the supply check never fails, since fees only leave the
total. The rules of that ledger read the spent outputs only, so a list that
applies also does in every other order that keeps a transaction after those whose
outputs it spends (`applyEach_perm`).
-/

namespace BCC.Proof

open BCC.Impl BCC.Ledger

variable [Ed25519]

/-! ## One transaction -/

/-- What is checked of a transaction that is no coinbase and pays `fee`, in the ledger it is applied to. -/
structure Priced (maxMoney : Int) (u : UTXOSet) (t : ConsensusTransaction) (fee : Int) : Prop where
  notCoinbase : t.isCoinbase = false
  txid_eq : t.txid = .ok (txidOf t)
  version : t.version = 1
  outputs : t.outputs ≠ [] ∧ ∀ o ∈ t.outputs, 0 < o.amount ∧ o.amount ≤ maxMoney ∧ isValidAddress o.address = true
  inputs_ne : t.inputs ≠ []
  inputOk : ∀ j x, t.inputs[j]? = some x → InputOk u t j x
  fee_eq : fee = inputTotal u t - outputTotal t.outputs
  fee_nonneg : 0 ≤ fee

/-- The ledger of outpoints, its entries transactions with their fees. -/
def pricedRules (maxMoney : Int) : Rules (ConsensusTransaction × Int) OutPoint TxOutput where
  transfer e := transfer e.1 (txidOf e.1)
  guard u e := Priced maxMoney u e.1 e.2

omit [Ed25519] in
theorem inputTotal_congr {u u' : UTXOSet} {t : ConsensusTransaction}
    (h : ∀ o ∈ spentBy t, u.lookup o = u'.lookup o) : inputTotal u t = inputTotal u' t := by
  rw [inputTotal, inputTotal, List.map_congr_left fun o ho => ?_]
  rw [weightAt, weightAt, h o ho]

theorem pricedRules_local (maxMoney : Int) : (pricedRules maxMoney).Local := fun u u' e hsame h => by
  refine ⟨h.notCoinbase, h.txid_eq, h.version, h.outputs, h.inputs_ne, fun j x hx => ?_, ?_, h.fee_nonneg⟩
  · obtain ⟨out, hout, hsig⟩ := h.inputOk j x hx
    have ho : x.previousOutput ∈ spentBy e.1 := by
      rw [spentBy_of_not_coinbase h.notCoinbase]
      exact List.mem_map_of_mem (List.mem_of_getElem? hx)
    exact ⟨out, by rw [← hsame _ ho]; exact hout, hsig⟩
  · rw [h.fee_eq, inputTotal_congr hsame]

/-- Below the cap, what is checked of a transaction does not mention the supply. -/
theorem applyTransaction_iff {s s' : ConsensusState} {t : ConsensusTransaction} {fee : Int}
    (hmax : s.utxos.total ≤ s.maxMoney) (hc : t.isCoinbase = false) :
    s.applyTransaction t = .ok (fee, s') ↔ Priced s.maxMoney s.utxos t fee ∧
      Step s.utxos (transfer t (txidOf t)) s'.utxos ∧ s' = { s with utxos := s'.utxos } := by
  rw [applyTransaction_eq_ok hc]
  constructor
  · rintro ⟨txid, h⟩
    have ht := txidOf_eq h.txid_eq
    subst ht
    exact ⟨⟨hc, h.txid_eq, h.version, validateOutputs_eq_ok.mp h.outputs, h.inputs_ne, h.inputOk, h.fee_eq,
      h.fee_nonneg⟩, h.step, h.params⟩
  · rintro ⟨hp, hs, hpar⟩
    refine ⟨txidOf t, hp.txid_eq, hp.version, validateOutputs_eq_ok.mpr hp.outputs, hp.inputs_ne, hp.inputOk,
      hp.fee_eq, hp.fee_nonneg, hs, ?_, hpar⟩
    have hw := hs.worth (w := TxOutput.amount)
    have hfee := hp.fee_nonneg
    rw [hp.fee_eq, inputTotal] at hfee
    simp only [transfer, sum_createdFrom] at hw
    rw [total_eq_worth] at hmax ⊢
    omega

/-! ## Lists of transactions -/

/-- `apply_transaction` on one transaction after the other, with the fees it returns. -/
def applyEach : ConsensusState → List ConsensusTransaction → Except PyError (List Int × ConsensusState)
  | s, [] => .ok ([], s)
  | s, t :: ts => do
    let (fee, s') ← s.applyTransaction t
    let (fees, s'') ← applyEach s' ts
    return (fee :: fees, s'')

theorem applyEach_cons {s s'' : ConsensusState} {t : ConsensusTransaction} {ts : List ConsensusTransaction}
    {fees : List Int} : applyEach s (t :: ts) = .ok (fees, s'') ↔ ∃ fee rest s', s.applyTransaction t = .ok (fee, s') ∧
      applyEach s' ts = .ok (rest, s'') ∧ fees = fee :: rest := by
  simp only [applyEach, bind_eq_ok, Prod.exists, pure_eq_ok, Prod.mk.injEq]
  constructor
  · rintro ⟨fee, s', ht, rest, _, hts, rfl, rfl⟩
    exact ⟨fee, rest, s', ht, hts, rfl⟩
  · rintro ⟨fee, rest, s', ht, hts, rfl⟩
    exact ⟨fee, s', ht, rest, s'', hts, rfl, rfl⟩

theorem applyTransactions_of_applyEach {ts : List ConsensusTransaction} {s s' : ConsensusState} {fees : List Int}
    (h : applyEach s ts = .ok (fees, s')) (f : Int) :
    ConsensusState.applyTransactions f s ts = .ok (f + fees.sum, s') := by
  induction ts generalizing s fees f with
  | nil =>
    rw [applyEach, Except.ok.injEq, Prod.mk.injEq] at h
    obtain ⟨rfl, rfl⟩ := h
    rw [ConsensusState.applyTransactions, List.sum_nil, Int.add_zero]
  | cons t ts ih =>
    obtain ⟨fee, rest, s₁, ht, hts, rfl⟩ := applyEach_cons.mp h
    rw [ConsensusState.applyTransactions, ht, ok_bind]
    show ConsensusState.applyTransactions (f + fee) s₁ ts = _
    rw [ih hts, List.sum_cons, Int.add_assoc]

theorem applyEach_total {ts : List ConsensusTransaction} {s s' : ConsensusState} {fees : List Int}
    (hc : ∀ t ∈ ts, t.isCoinbase = false) (h : applyEach s ts = .ok (fees, s')) :
    s'.utxos.total = s.utxos.total - fees.sum ∧ 0 ≤ fees.sum ∧ s' = { s with utxos := s'.utxos } := by
  obtain ⟨htotal, hfees, hparams⟩ := applyTransactions_total hc (applyTransactions_of_applyEach h 0)
  exact ⟨by omega, by omega, hparams⟩

theorem applyEach_eq_ok {ts : List ConsensusTransaction} {s s' : ConsensusState} {fees : List Int}
    (hmax : s.utxos.total ≤ s.maxMoney) (hc : ∀ t ∈ ts, t.isCoinbase = false) :
    applyEach s ts = .ok (fees, s') ↔ fees.length = ts.length ∧
      Run (pricedRules s.maxMoney) s.utxos (ts.zip fees) s'.utxos ∧ s' = { s with utxos := s'.utxos } := by
  induction ts generalizing s fees with
  | nil =>
    rw [applyEach, Except.ok.injEq, Prod.mk.injEq, List.zip_nil_left]
    constructor
    · rintro ⟨rfl, rfl⟩
      exact ⟨rfl, .nil _, rfl⟩
    · rintro ⟨hlen, hr, hpar⟩
      have he : s'.utxos = s.utxos := by
        generalize s'.utxos = u at hr
        cases hr
        rfl
      exact ⟨(List.eq_nil_of_length_eq_zero hlen).symm, by rw [hpar, he]⟩
  | cons t ts ih =>
    have hts := fun u hu => hc u (List.mem_cons_of_mem t hu)
    rw [applyEach_cons]
    constructor
    · rintro ⟨fee, rest, s₁, h₁, hrest, rfl⟩
      obtain ⟨txid, hsp⟩ := (applyTransaction_eq_ok (hc t List.mem_cons_self)).mp h₁
      obtain ⟨hp, hs, hpar⟩ := (applyTransaction_iff hmax (hc t List.mem_cons_self)).mp h₁
      have hmoney : s₁.maxMoney = s.maxMoney := by rw [hpar]
      obtain ⟨hlen, hr, hpar'⟩ := (ih (by rw [hmoney]; exact hsp.le_max) hts).mp hrest
      rw [hmoney] at hr
      exact ⟨by rw [List.length_cons, List.length_cons, hlen], .cons hp hs hr, by rw [hpar', hpar]⟩
    · rintro ⟨hlen, hr, hpar⟩
      obtain ⟨fee, rest, rfl⟩ := List.exists_cons_of_length_eq_add_one hlen
      rw [List.zip_cons_cons] at hr
      cases hr with
      | @cons _ u₁ _ _ _ hp hs hr =>
        have h₁ : s.applyTransaction t = .ok (fee, { s with utxos := u₁ }) :=
          (applyTransaction_iff hmax (hc t List.mem_cons_self)).mpr ⟨hp, hs, rfl⟩
        obtain ⟨txid, hsp⟩ := (applyTransaction_eq_ok (hc t List.mem_cons_self)).mp h₁
        refine ⟨fee, rest, _, h₁, (ih (s := { s with utxos := u₁ }) hsp.le_max hts).mpr ⟨?_, hr, hpar⟩, rfl⟩
        simpa using hlen

/-! ## Orders -/

/-- An input of `t` spends an output of `t'`. -/
def SpendsFrom (t t' : ConsensusTransaction) : Prop :=
  ∃ x ∈ t.inputs, t'.txid = .ok x.previousOutput.txid ∧
    0 ≤ x.previousOutput.index ∧ x.previousOutput.index < t'.outputs.length

omit [Ed25519] in
theorem spendsFrom_iff {t t' : ConsensusTransaction} (hc : t.isCoinbase = false) (h' : t'.txid = .ok (txidOf t')) :
    SpendsFrom t t' ↔ ∃ o ∈ spentBy t, o ∈ (transfer t' (txidOf t')).outs.map Prod.fst := by
  have hout : ∀ o, o ∈ (transfer t' (txidOf t')).outs.map Prod.fst ↔
      ∃ i < t'.outputs.length, o = ⟨txidOf t', (0 + i : Nat)⟩ := fun o => mem_keys_createdFrom
  rw [spentBy_of_not_coinbase hc]
  simp only [SpendsFrom, hout, List.mem_map, h', Except.ok.injEq]
  constructor
  · rintro ⟨x, hx, hid, hlo, hhi⟩
    refine ⟨_, ⟨x, hx, rfl⟩, x.previousOutput.index.toNat, by omega, ?_⟩
    rw [hid, Nat.zero_add, Int.toNat_of_nonneg hlo]
  · rintro ⟨_, ⟨x, hx, rfl⟩, i, hi, he⟩
    exact ⟨x, hx, by rw [he], by rw [he]; exact Int.natCast_nonneg _, by rw [he]; simpa using hi⟩

/-- Transactions are linked as entries of the ledger when one spends an output of the other. -/
theorem linked_iff {maxMoney : Int} {e e' : ConsensusTransaction × Int} (hc : e.1.isCoinbase = false)
    (hc' : e'.1.isCoinbase = false) (h : e.1.txid = .ok (txidOf e.1)) (h' : e'.1.txid = .ok (txidOf e'.1)) :
    (pricedRules maxMoney).Linked e e' ↔ SpendsFrom e.1 e'.1 ∨ SpendsFrom e'.1 e.1 := by
  rw [spendsFrom_iff hc h', spendsFrom_iff hc' h]
  rfl

/-- What a list of transactions that applies is as entries of the ledger. -/
structure Entries (s s' : ConsensusState) (ts : List ConsensusTransaction) (fees : List Int) : Prop where
  run : Run (pricedRules s.maxMoney) s.utxos (ts.zip fees) s'.utxos
  fst : (ts.zip fees).map Prod.fst = ts
  txid : ∀ e ∈ ts.zip fees, e.1.txid = .ok (txidOf e.1)
  notCoinbase : ∀ e ∈ ts.zip fees, e.1.isCoinbase = false
  nodup : ((ts.zip fees).map fun e => txidOf e.1).Nodup
  created : (createdBy (pricedRules s.maxMoney) (ts.zip fees)).Nodup

theorem entries_of_applyEach {s s' : ConsensusState} {ts : List ConsensusTransaction} {fees : List Int}
    (hmax : s.utxos.total ≤ s.maxMoney) (hc : ∀ t ∈ ts, t.isCoinbase = false) (hids : (ts.map (·.txid)).Nodup)
    (h : applyEach s ts = .ok (fees, s')) : Entries s s' ts fees := by
  obtain ⟨hlen, hr, -⟩ := (applyEach_eq_ok hmax hc).mp h
  have hfst : (ts.zip fees).map Prod.fst = ts := List.map_fst_zip (by omega)
  have htx : ∀ e ∈ ts.zip fees, e.1.txid = .ok (txidOf e.1) := fun e he => by
    obtain ⟨u, hu⟩ := hr.guarded e he
    exact hu.txid_eq
  have hn : ((ts.zip fees).map fun e => txidOf e.1).Nodup := by
    have hm : ts.map (·.txid) = ((ts.zip fees).map fun e => txidOf e.1).map .ok := by
      rw [List.map_map, ← hfst, List.map_map, hfst]
      exact List.map_congr_left htx
    rw [hm] at hids
    exact hids.of_map
  exact ⟨hr, hfst, htx, fun e he => hc e.1 (List.of_mem_zip he).1, hn,
    nodup_createdBy (o := OutPoint.txid) (fun e _ => nodup_createdFrom _ _ _) (fun e _ o ho => txid_of_mem_createdFrom ho) hn⟩

/-- Two transactions of a list, with their fees. -/
theorem Entries.pair {s s' : ConsensusState} {ts : List ConsensusTransaction} {fees : List Int} (h : Entries s s' ts fees)
    {t t' : ConsensusTransaction} (hsub : [t, t'].Sublist ts) : ∃ f f', [(t, f), (t', f')].Sublist (ts.zip fees) := by
  rw [← h.fst, List.sublist_map_iff] at hsub
  obtain ⟨l, hl, he⟩ := hsub
  obtain ⟨⟨_, f⟩, rest, rfl, rfl, hrest⟩ := List.map_eq_cons_iff.mp he.symm
  obtain ⟨⟨_, f'⟩, rest', rfl, rfl, hnil⟩ := List.map_eq_cons_iff.mp hrest
  rw [List.map_eq_nil_iff.mp hnil] at hl
  exact ⟨f, f', hl⟩

/-- Where their outputs are new, no transaction spends an output of one that comes after it. -/
theorem not_spendsFrom_of_applyEach {s s' : ConsensusState} {ts : List ConsensusTransaction} {fees : List Int}
    (hmax : s.utxos.total ≤ s.maxMoney) (hc : ∀ t ∈ ts, t.isCoinbase = false) (hids : (ts.map (·.txid)).Nodup)
    (hnew : ∀ o ∈ s.utxos, ∀ t ∈ ts, t.txid ≠ .ok o.txid) (h : applyEach s ts = .ok (fees, s'))
    {t t' : ConsensusTransaction} (hsub : [t, t'].Sublist ts) : ¬ SpendsFrom t t' := by
  have hent := entries_of_applyEach hmax hc hids h
  obtain ⟨f, f', hpair⟩ := hent.pair hsub
  have hmem : (t, f) ∈ ts.zip fees ∧ (t', f') ∈ ts.zip fees := ⟨hpair.subset (by simp), hpair.subset (by simp)⟩
  have hfresh : ∀ o ∈ createdBy (pricedRules s.maxMoney) (ts.zip fees), o ∉ s.utxos := fun o ho hm => by
    obtain ⟨e, he, ho⟩ := List.mem_flatMap.mp ho
    refine hnew o hm e.1 (List.of_mem_zip he).1 ?_
    rw [hent.txid e he, txid_of_mem_createdFrom ho]
  rw [spendsFrom_iff (hent.notCoinbase _ hmem.1) (hent.txid _ hmem.2)]
  rintro ⟨o, ho, ho'⟩
  exact hent.run.created_before hent.created hfresh hpair ho ho'

/-- Transactions that apply in one order apply in every order in which two of them of which one spends an
output of the other stand as they did, for the same fees and with the same outputs left. -/
theorem applyEach_rearrange {s s' : ConsensusState} {ts ts' : List ConsensusTransaction} {fees : List Int}
    (hmax : s.utxos.total ≤ s.maxMoney) (hc : ∀ t ∈ ts, t.isCoinbase = false) (hids : (ts.map (·.txid)).Nodup)
    (h : applyEach s ts = .ok (fees, s')) (hp : ts'.Perm ts)
    (hord : ∀ t t', [t, t'].Sublist ts → SpendsFrom t t' ∨ SpendsFrom t' t → [t, t'].Sublist ts') :
    ∃ fees' s'', applyEach s ts' = .ok (fees', s'') ∧ (ts'.zip fees').Perm (ts.zip fees) ∧
      ∀ o, s''.utxos.lookup o = s'.utxos.lookup o := by
  have hent := entries_of_applyEach hmax hc hids h
  -- A transaction keeps its fee in the new order.
  obtain ⟨l, rfl, hl⟩ : Relation.Comp (· = List.map Prod.fst ·) (·.Perm ·) ts' (ts.zip fees) := by
    rw [List.eq_map_comp_perm]
    show ts'.Perm ((ts.zip fees).map Prod.fst)
    rw [hent.fst]
    exact hp
  have hkeep : ∀ e e', [e, e'].Sublist (ts.zip fees) → (pricedRules s.maxMoney).Linked e e' → [e, e'].Sublist l := by
    intro e e' hsub hlink
    have he : e ∈ ts.zip fees := hsub.subset (by simp)
    have he' : e' ∈ ts.zip fees := hsub.subset (by simp)
    rw [linked_iff (hent.notCoinbase e he) (hent.notCoinbase e' he') (hent.txid e he) (hent.txid e' he')] at hlink
    have hts : [e.1, e'.1].Sublist ts := by
      have := hsub.map Prod.fst
      rwa [hent.fst] at this
    obtain ⟨l', hl', heq⟩ := List.sublist_map_iff.mp (hord e.1 e'.1 hts hlink)
    -- The entries of `l` with these transactions are `e` and `e'`.
    have huniq : ∀ a ∈ l, ∀ b ∈ ts.zip fees, a.1 = b.1 → a = b := fun a ha b hb hab =>
      List.inj_on_of_nodup_map hent.nodup (hl.mem_iff.mp ha) hb (by rw [hab])
    obtain ⟨a, rest, rfl, ha, hrest⟩ := List.map_eq_cons_iff.mp heq.symm
    obtain ⟨a', rest', rfl, ha', hnil⟩ := List.map_eq_cons_iff.mp hrest
    rw [List.map_eq_nil_iff.mp hnil] at hl'
    rw [huniq a (hl'.subset (by simp)) e he ha, huniq a' (hl'.subset (by simp)) e' he' ha'] at hl'
    exact hl'
  obtain ⟨u, hr, hsame⟩ := hent.run.rearrange (pricedRules_local s.maxMoney) hl (.of_map _ hent.nodup) hent.created hkeep
  have hzip : (l.map Prod.fst).zip (l.map Prod.snd) = l := by rw [List.zip_map', List.map_id']
  refine ⟨l.map Prod.snd, { s with utxos := u }, ?_, by rw [hzip]; exact hl, hsame⟩
  refine (applyEach_eq_ok hmax (List.forall_mem_map.mpr fun e he => hent.notCoinbase e (hl.mem_iff.mp he))).mpr
    ⟨by simp, ?_, rfl⟩
  rw [hzip]
  exact hr

/-- Transactions that apply in one order apply in every order that has each of them after those whose
outputs it spends, for the same fees and with the same outputs left. -/
theorem applyEach_perm (s s' : ConsensusState) (ts ts' : List ConsensusTransaction) (fees : List Int)
    (hmax : s.utxos.total ≤ s.maxMoney) (hc : ∀ t ∈ ts, t.isCoinbase = false)
    (hids : (ts.map (·.txid)).Nodup) (hnew : ∀ o ∈ s.utxos, ∀ t ∈ ts, t.txid ≠ .ok o.txid)
    (h : applyEach s ts = .ok (fees, s')) (hp : ts'.Perm ts)
    (hord : ∀ (i j : Nat) (t t' : ConsensusTransaction), ts'[i]? = some t → ts'[j]? = some t' →
      SpendsFrom t t' → j < i) :
    ∃ fees' s'', applyEach s ts' = .ok (fees', s'') ∧ (ts'.zip fees').Perm (ts.zip fees) ∧
      ∀ o, s''.utxos.lookup o = s'.utxos.lookup o := by
  refine applyEach_rearrange hmax hc hids h hp fun t t' hsub hlink => ?_
  -- The first of the two in `ts` is the one whose output is spent.
  have hspends : SpendsFrom t' t := hlink.resolve_left (not_spendsFrom_of_applyEach hmax hc hids hnew h hsub)
  have hmem : t ∈ ts' ∧ t' ∈ ts' := ⟨hp.mem_iff.mpr (hsub.subset (by simp)), hp.mem_iff.mpr (hsub.subset (by simp))⟩
  have hne : t ≠ t' := by
    have := (List.Nodup.of_map _ hids).sublist hsub
    rw [List.nodup_cons, List.mem_singleton] at this
    exact this.1
  have hpairs : ts'.Pairwise fun a b => ¬ SpendsFrom a b :=
    List.pairwise_iff_getElem.mpr fun i j hi hj hij hs => by
      have := hord i j _ _ (List.getElem?_eq_getElem hi) (List.getElem?_eq_getElem hj) hs
      omega
  exact (sublist_pair_or hmem.1 hmem.2 hne).resolve_right fun hsub' =>
    List.pairwise_iff_forall_sublist.mp hpairs hsub' hspends

/-! ## Two payments

After `paymentBlock` Alice spends the output of her payment and the reward of the block. -/

def nextSignature : Str :=
  ['G', 'C', '8', '0', '5', 'X', 'd', 'Q', '-', 'x', '9', 'j', 'G', 'U', 'w', 'R', 'w', 'q', 'i', 'A',
   'd', 'd', 'P', 'R', 'o', '4', 'R', 'F', '2', 'V', 'L', 'c', '7', 'Q', 'j', 'D', 'l', 'M', 'w', 'e',
   'Y', '8', '6', 'Y', 'P', 'H', 'C', 'X', 'n', 'I', '5', 'C', 'h', 'T', '9', 'B', 'l', '5', 'H', 'F',
   'L', '9', 'I', 'r', 'F', 'R', 'V', '3', 'N', 'i', 'R', 'm', 's', 'S', 's', 'K', 'T', 'y', 'E', 't',
   '8', 'B', 'h', 's', 'B', 'w']

/-- Alice spends the output of `payment` and leaves a fee of 1. -/
def nextPayment : ConsensusTransaction where
  inputs := [⟨⟨paymentTxid, 0⟩, some nextSignature, some aliceKey⟩]
  outputs := [⟨6, aliceAddress⟩]

def rewardSignature : Str :=
  ['B', 'm', '1', 'i', 'w', '-', '-', '4', 'F', 'm', 's', 'Y', 'j', 'j', 's', 'e', '2', 'v', 'R', 'C',
   'n', 'p', 'w', 'P', 'g', 'c', 'v', 'Q', 'K', 'h', 'T', 'E', 's', 'p', 'l', 'X', 'a', 'g', '1', 'A',
   'P', '0', '9', 's', 'v', 'Q', 'd', 'e', 'W', 'P', 'w', '5', 'x', 'O', 'k', 'g', '3', 'R', 'T', 'w',
   'a', 'w', 'F', 'N', 'y', 'y', 'C', '6', 'P', 's', '7', 'J', 'Z', 'L', 'o', 'H', 'I', 'g', 's', 'p',
   'p', 'q', 'J', 'w', 'C', 'w']

/-- Alice spends the reward of `paymentBlock` and leaves a fee of 3. -/
def rewardPayment : ConsensusTransaction where
  inputs := [⟨⟨rewardTxid, 0⟩, some rewardSignature, some aliceKey⟩]
  outputs := [⟨50, aliceAddress⟩]

/-- A verification that accepts the signatures of the first inputs of `ts` as Alice's and nothing
else. -/
@[reducible] def aliceSigned (ts : List ConsensusTransaction) : Ed25519 where
  verify raw signature data := raw == aliceRaw && ts.any fun t =>
    t.inputs.any (fun x => (x.signature >>= b64decode) == some signature) && data == utf8Encode (t.signingMessage 0)

omit [Ed25519] in
theorem applyEach_perm_payments : ∃ fees s'',
    @applyEach (aliceSigned [nextPayment, rewardPayment]) afterPayment [rewardPayment, nextPayment] = .ok (fees, s'') ∧
      ([rewardPayment, nextPayment].zip fees).Perm [(nextPayment, 1), (rewardPayment, 3)] := by
  let _ := aliceSigned [nextPayment, rewardPayment]
  have hok : ((applyEach afterPayment [nextPayment, rewardPayment]).map Prod.fst) = .ok [1, 3] := by decide +kernel
  obtain ⟨⟨_, s'⟩, h, rfl⟩ := map_eq_ok.mp hok
  -- Neither spends an output of the other.
  have hfree : ∀ (i j : Nat) (t t' : ConsensusTransaction), [rewardPayment, nextPayment][i]? = some t →
      [rewardPayment, nextPayment][j]? = some t' → SpendsFrom t t' → j < i := by
    rintro i j t t' ht ht' ⟨x, hx, hid, -⟩
    have hno : ∀ t ∈ [rewardPayment, nextPayment], ∀ t' ∈ [rewardPayment, nextPayment], ∀ x ∈ t.inputs,
        t'.txid ≠ .ok x.previousOutput.txid := by decide +kernel
    exact absurd hid (hno t (List.mem_of_getElem? ht) t' (List.mem_of_getElem? ht') x hx)
  obtain ⟨fees, s'', h', hz, -⟩ := applyEach_perm afterPayment s' [nextPayment, rewardPayment]
    [rewardPayment, nextPayment] [1, 3] (by decide) (by decide) (by decide +kernel) (by decide +kernel) h (.swap _ _ _)
    hfree
  exact ⟨fees, s'', h', hz⟩

end BCC.Proof
