import BlockchainCoin.Framework.Ledger
import BlockchainCoin.Impl.Consensus

/-!
# What a transaction does to the consensus state

An accepted transaction is a transfer of the ledger of outpoints: it consumes
the outpoints its inputs name (none, for a coinbase) and creates its outputs
under its txid (`transfer`). `Spends` says everything that `apply_transaction`
checks and does for a transaction that is not a coinbase, and `Mints` what the
coinbase rules do; `applyTransaction_eq_ok`, `applyBlockCoinbase_eq_ok` and
`applyGenesisCoinbase_eq_ok` are the only proofs that unfold these functions.
-/

namespace BCC.Proof

open BCC.Impl BCC.Ledger

/-! ## Transfers -/

/-- The outpoints of `outputs` under `txid`, numbered from `index`. -/
def createdFrom (txid : Str) : Nat → List TxOutput → List (OutPoint × TxOutput)
  | _, [] => []
  | index, o :: os => (⟨txid, index⟩, o) :: createdFrom txid (index + 1) os

/-- The outpoints a transaction consumes; a coinbase consumes none. -/
def spentBy (t : ConsensusTransaction) : List OutPoint :=
  if t.isCoinbase then [] else t.inputs.map (·.previousOutput)

/-- A transaction as a transfer of the ledger of outpoints. -/
def transfer (t : ConsensusTransaction) (txid : Str) : Transfer OutPoint TxOutput :=
  ⟨spentBy t, createdFrom txid 0 t.outputs⟩

theorem mem_createdFrom {txid : Str} {outputs : List TxOutput} {index : Nat} {o : OutPoint} {out : TxOutput} :
    (o, out) ∈ createdFrom txid index outputs ↔ ∃ i, o = ⟨txid, (index + i : Nat)⟩ ∧ outputs[i]? = some out := by
  induction outputs generalizing index with
  | nil => simp [createdFrom]
  | cons a as ih =>
    rw [createdFrom, List.mem_cons, ih]
    constructor
    · rintro (h | ⟨i, rfl, h⟩)
      · obtain ⟨rfl, rfl⟩ := Prod.mk.inj h
        exact ⟨0, rfl, rfl⟩
      · exact ⟨i + 1, by rw [Nat.add_right_comm]; rfl, h⟩
    · rintro ⟨_ | i, rfl, h⟩
      · exact .inl (by simp_all)
      · exact .inr ⟨i, by rw [Nat.add_right_comm]; rfl, h⟩

theorem mem_keys_createdFrom {txid : Str} {outputs : List TxOutput} {index : Nat} {o : OutPoint} :
    o ∈ (createdFrom txid index outputs).map Prod.fst ↔
      ∃ i < outputs.length, o = ⟨txid, (index + i : Nat)⟩ := by
  simp only [List.mem_map, Prod.exists, mem_createdFrom, exists_and_right, exists_eq_right]
  constructor
  · rintro ⟨out, i, rfl, h⟩
    exact ⟨i, (List.getElem?_eq_some_iff.mp h).1, rfl⟩
  · rintro ⟨i, hi, rfl⟩
    exact ⟨_, i, rfl, List.getElem?_eq_getElem hi⟩

theorem txid_of_mem_createdFrom {txid : Str} {outputs : List TxOutput} {index : Nat} {o : OutPoint}
    (h : o ∈ (createdFrom txid index outputs).map Prod.fst) : o.txid = txid := by
  obtain ⟨i, -, rfl⟩ := mem_keys_createdFrom.mp h
  rfl

theorem nodup_createdFrom (txid : Str) (outputs : List TxOutput) (index : Nat) :
    ((createdFrom txid index outputs).map Prod.fst).Nodup := by
  induction outputs generalizing index with
  | nil => exact List.nodup_nil
  | cons a as ih =>
    rw [createdFrom, List.map_cons, List.nodup_cons]
    refine ⟨fun h => ?_, ih _⟩
    obtain ⟨i, -, h⟩ := mem_keys_createdFrom.mp h
    have := congrArg OutPoint.index h
    simp only at this
    omega

theorem sum_createdFrom (txid : Str) (outputs : List TxOutput) (index : Nat) :
    ((createdFrom txid index outputs).map fun e => e.2.amount).sum = outputTotal outputs := by
  induction outputs generalizing index with
  | nil => rfl
  | cons a as ih => rw [createdFrom, List.map_cons, List.sum_cons, ih]; rfl

theorem total_eq_worth (u : UTXOSet) : u.total = worth TxOutput.amount u := rfl

/-! ## The loops -/

theorem add_eq_ok {u u' : UTXOSet} {o : OutPoint} {out : TxOutput} :
    UTXOSet.add u o out = .ok u' ↔ o ∉ u ∧ u' = u.insert o out := by
  simp only [UTXOSet.add, bind_eq_ok, raiseIf_eq_ok, exists_and_left, pure_eq_ok, exists_const]
  exact and_congr_right fun _ => eq_comm

theorem addOutputs_eq_ok {t : ConsensusTransaction} {outputs : List TxOutput} {u u' : UTXOSet} {index : Nat}
    (hne : outputs ≠ []) : addOutputs t u index outputs = .ok u' ↔
      ∃ txid, t.txid = .ok txid ∧ (∀ k ∈ (createdFrom txid index outputs).map Prod.fst, k ∉ u) ∧
        u' = produce u (createdFrom txid index outputs) := by
  induction outputs generalizing u index with
  | nil => exact absurd rfl hne
  | cons o os ih =>
    rw [addOutputs]
    cases ht : t.txid with
    | error e => simp
    | ok txid =>
      simp only [ok_bind, Except.ok.injEq, exists_eq_left']
      rw [bind_eq_ok]
      simp only [add_eq_ok, createdFrom, List.map_cons, List.forall_mem_cons]
      have hnodup := nodup_createdFrom txid (o :: os) index
      rw [createdFrom, List.map_cons, List.nodup_cons] at hnodup
      have hfresh : ∀ k ∈ (createdFrom txid (index + 1) os).map Prod.fst,
          k ∉ u.insert (⟨txid, index⟩ : OutPoint) o ↔ k ∉ u := fun k hk => by
        rw [AList.mem_insert, not_or]
        exact and_iff_right fun e => hnodup.1 (e ▸ hk)
      constructor
      · rintro ⟨u₁, ⟨hn, rfl⟩, h⟩
        by_cases hos : os = []
        · subst hos
          rw [addOutputs, Except.ok.injEq] at h
          exact ⟨⟨hn, by simp [createdFrom]⟩, h.symm⟩
        · obtain ⟨txid', ht', hf, rfl⟩ := (ih hos).mp h
          rw [ht, Except.ok.injEq] at ht'
          subst ht'
          exact ⟨⟨hn, fun k hk => (hfresh k hk).mp (hf k hk)⟩, rfl⟩
      · rintro ⟨⟨hn, hf⟩, rfl⟩
        refine ⟨_, ⟨hn, rfl⟩, ?_⟩
        by_cases hos : os = []
        · subst hos; rfl
        · exact (ih hos).mpr ⟨txid, ht, fun k hk => (hfresh k hk).mpr (hf k hk), rfl⟩

theorem spendInputs_eq_ok {u u' : UTXOSet} {xs : List TxInput} (hn : (xs.map (·.previousOutput)).Nodup) :
    spendInputs u xs = .ok u' ↔
      (∀ k ∈ xs.map (·.previousOutput), k ∈ u) ∧ u' = consume u (xs.map (·.previousOutput)) := by
  induction xs generalizing u with
  | nil => simp [spendInputs, consume, eq_comm]
  | cons x xs ih =>
    rw [List.map_cons, List.nodup_cons] at hn
    have hmem : ∀ k ∈ xs.map (·.previousOutput), k ∈ u.erase x.previousOutput ↔ k ∈ u := fun k hk => by
      rw [AList.mem_erase]
      exact and_iff_right fun e => hn.1 (e ▸ hk)
    simp only [spendInputs, UTXOSet.spend, bind_eq_ok, raiseIf_eq_ok, not_not, pure_eq_ok, exists_and_left,
      exists_const, List.map_cons, List.forall_mem_cons]
    constructor
    · rintro ⟨_, ⟨hx, rfl⟩, h⟩
      obtain ⟨hm, rfl⟩ := (ih hn.2).mp h
      exact ⟨⟨hx, fun k hk => (hmem k hk).mp (hm k hk)⟩, rfl⟩
    · rintro ⟨⟨hx, hm⟩, rfl⟩
      exact ⟨_, ⟨hx, rfl⟩, (ih hn.2).mpr ⟨fun k hk => (hmem k hk).mpr (hm k hk), rfl⟩⟩

theorem get_eq_ok {u : UTXOSet} {o : OutPoint} {out : TxOutput} :
    UTXOSet.get u o = .ok out ↔ u.lookup o = some out := by
  unfold UTXOSet.get
  cases u.lookup o <;> simp

theorem validateOutputs_eq_ok {s : ConsensusState} {outputs : List TxOutput} :
    s.validateOutputs outputs = .ok () ↔ outputs ≠ [] ∧
      ∀ o ∈ outputs, 0 < o.amount ∧ o.amount ≤ s.maxMoney ∧ isValidAddress o.address = true := by
  simp only [ConsensusState.validateOutputs, ConsensusState.validateOutput, bind_eq_ok, exists_unit,
    raiseIf_eq_ok, forM_eq_ok, not_le, not_lt, not_not, ne_eq]

theorem commit_eq_ok {s s' : ConsensusState} {u : UTXOSet} :
    s.commit u = .ok s' ↔ u.total ≤ s.maxMoney ∧ s' = { s with utxos := u } := by
  simp only [ConsensusState.commit, bind_eq_ok, raiseIf_eq_ok, not_lt, exists_and_left, exists_const,
    pure_eq_ok]
  exact and_congr_right fun _ => eq_comm

theorem spentBy_of_not_coinbase {t : ConsensusTransaction} (hc : t.isCoinbase = false) :
    spentBy t = t.inputs.map (·.previousOutput) := by
  simp [spentBy, hc]

/-! ## Coinbases -/

/-- The coinbase `t` takes `s` to `s'`. -/
structure Mints (s : ConsensusState) (t : ConsensusTransaction) (txid : Str) (s' : ConsensusState) :
    Prop where
  txid_eq : t.txid = .ok txid
  version : t.version = 1
  outputs : s.validateOutputs t.outputs = .ok ()
  isCoinbase : t.isCoinbase = true
  unsigned : coinbaseSigned t = false
  step : Step s.utxos (transfer t txid) s'.utxos
  le_max : s'.utxos.total ≤ s.maxMoney
  params : s' = { s with utxos := s'.utxos }

/-- The steps both coinbase rules end in. -/
theorem mints_iff {s s' : ConsensusState} {t : ConsensusTransaction} :
    (∃ txid, Mints s t txid s') ↔ t.version = 1 ∧ s.validateOutputs t.outputs = .ok () ∧
      t.isCoinbase = true ∧ coinbaseSigned t = false ∧
        ∃ u, addOutputs t s.utxos 0 t.outputs = .ok u ∧ s.commit u = .ok s' := by
  constructor
  · rintro ⟨txid, h⟩
    have hne := (validateOutputs_eq_ok.mp h.outputs).1
    have hf := h.step.fresh
    have he := h.step.eq
    simp only [transfer, spentBy, h.isCoinbase, ite_true] at hf he
    refine ⟨h.version, h.outputs, h.isCoinbase, h.unsigned, s'.utxos,
      (addOutputs_eq_ok hne).mpr ⟨txid, h.txid_eq, hf, he⟩, commit_eq_ok.mpr ⟨h.le_max, h.params⟩⟩
  · rintro ⟨hv, ho, hc, hu, u, ha, hs⟩
    obtain ⟨txid, htx, hf, rfl⟩ := (addOutputs_eq_ok (validateOutputs_eq_ok.mp ho).1).mp ha
    obtain ⟨hmax, rfl⟩ := commit_eq_ok.mp hs
    refine ⟨txid, htx, hv, ho, hc, hu, ⟨?_, ?_, nodup_createdFrom _ _ _, ?_, ?_⟩, hmax, rfl⟩
    all_goals simp only [transfer, spentBy, hc, ite_true]
    · exact List.nodup_nil
    · exact fun k hk => absurd hk List.not_mem_nil
    · exact hf
    · rfl

theorem applyGenesisCoinbase_eq_ok {s s' : ConsensusState} {t : ConsensusTransaction} :
    s.applyGenesisCoinbase t = .ok s' ↔ ∃ txid, Mints s t txid s' := by
  rw [mints_iff]
  simp only [ConsensusState.applyGenesisCoinbase, validateTransactionVersion, bind_eq_ok, exists_unit,
    raiseIf_eq_ok, not_not, Bool.not_eq_true, Bool.not_eq_false]

theorem applyBlockCoinbase_eq_ok {s s' : ConsensusState} {t : ConsensusTransaction} {fees : Int} :
    s.applyBlockCoinbase t fees = .ok s' ↔
      0 ≤ fees ∧ outputTotal t.outputs ≤ s.blockSubsidy + fees ∧ ∃ txid, Mints s t txid s' := by
  rw [mints_iff]
  simp only [ConsensusState.applyBlockCoinbase, validateTransactionVersion, bind_eq_ok, exists_unit,
    raiseIf_eq_ok, not_not, Bool.not_eq_true, Bool.not_eq_false, not_lt]
  tauto

/-- Whatever the rule, an accepted coinbase mints. -/
theorem mints_of_applyCoinbaseOf {s s' : ConsensusState} {b : ConsensusBlock} {t : ConsensusTransaction}
    {fees : Int} (h : s.applyCoinbaseOf b t fees = .ok s') : ∃ txid, Mints s t txid s' := by
  unfold ConsensusState.applyCoinbaseOf at h
  split at h
  · exact applyGenesisCoinbase_eq_ok.mp h
  · exact (applyBlockCoinbase_eq_ok.mp h).2.2

/-! ## Transactions -/

variable [Ed25519]

/-- Input `j` of `t` is checked against the output it spends. -/
def InputOk (u : UTXOSet) (t : ConsensusTransaction) (j : Nat) (x : TxInput) : Prop :=
  ∃ out, u.lookup x.previousOutput = some out ∧ validateInputSignature t j x out = .ok ()

theorem validateInputs_eq_ok {s : ConsensusState} {t : ConsensusTransaction} {xs : List TxInput} {i : Nat}
    {seen : List OutPoint} {total r : Int} :
    s.validateInputs t i seen total xs = .ok r ↔
      (xs.map (·.previousOutput)).Nodup ∧ (∀ o ∈ xs.map (·.previousOutput), o ∉ seen) ∧
        (∀ j x, xs[j]? = some x → InputOk s.utxos t (i + j) x) ∧
        r = total + (xs.map fun x => weightAt TxOutput.amount s.utxos x.previousOutput).sum := by
  induction xs generalizing i seen total with
  | nil => simp [ConsensusState.validateInputs, eq_comm]
  | cons x xs ih =>
    have hcons : (∀ j y, (x :: xs)[j]? = some y → InputOk s.utxos t (i + j) y) ↔
        InputOk s.utxos t i x ∧ ∀ j y, xs[j]? = some y → InputOk s.utxos t (i + 1 + j) y := by
      constructor
      · intro h
        exact ⟨h 0 x rfl, fun j y hy => by rw [Nat.add_right_comm]; exact h (j + 1) y hy⟩
      · rintro ⟨h₀, h⟩ (_ | j) y hy
        · rw [List.getElem?_cons_zero, Option.some.injEq] at hy
          exact hy ▸ h₀
        · have := h j y hy
          rwa [Nat.add_right_comm] at this
    rw [hcons, ConsensusState.validateInputs]
    simp only [bind_eq_ok, raiseIf_eq_ok, exists_and_left, exists_const, get_eq_ok, ih, List.map_cons,
      List.nodup_cons, List.mem_cons, forall_eq_or_imp, not_or, List.sum_cons]
    constructor
    · rintro ⟨hseen, out, hout, _, hsig, hn, hs, hall, rfl⟩
      refine ⟨⟨fun h => (hs _ h).1 rfl, hn⟩, ⟨hseen, fun o ho => (hs o ho).2⟩, ⟨⟨out, hout, hsig⟩, hall⟩, ?_⟩
      simp only [weightAt, hout, Option.map_some, Option.getD_some]
      omega
    · rintro ⟨⟨hx, hn⟩, ⟨hseen, hs⟩, ⟨⟨out, hout, hsig⟩, hall⟩, rfl⟩
      refine ⟨hseen, out, hout, (), hsig, hn, fun o ho => ⟨fun e => hx (e ▸ ho), hs o ho⟩, hall, ?_⟩
      simp only [weightAt, hout, Option.map_some, Option.getD_some]
      omega

/-- The weight of the outpoints `t` consumes. -/
def inputTotal (u : UTXOSet) (t : ConsensusTransaction) : Int :=
  ((spentBy t).map (weightAt TxOutput.amount u)).sum

/-- `t`, not a coinbase, takes `s` to `s'` and pays `fee`: what `apply_transaction` checks, and what
it does. -/
structure Spends (s : ConsensusState) (t : ConsensusTransaction) (txid : Str) (fee : Int)
    (s' : ConsensusState) : Prop where
  txid_eq : t.txid = .ok txid
  version : t.version = 1
  outputs : s.validateOutputs t.outputs = .ok ()
  inputs_ne : t.inputs ≠ []
  inputOk : ∀ j x, t.inputs[j]? = some x → InputOk s.utxos t j x
  fee_eq : fee = inputTotal s.utxos t - outputTotal t.outputs
  fee_nonneg : 0 ≤ fee
  step : Step s.utxos (transfer t txid) s'.utxos
  le_max : s'.utxos.total ≤ s.maxMoney
  params : s' = { s with utxos := s'.utxos }

omit [Ed25519] in
theorem inputTotal_of_not_coinbase {t : ConsensusTransaction} (hc : t.isCoinbase = false) (u : UTXOSet) :
    inputTotal u t = (t.inputs.map fun x => weightAt TxOutput.amount u x.previousOutput).sum := by
  rw [inputTotal, spentBy_of_not_coinbase hc, List.map_map]
  rfl

theorem validateTransaction_eq_ok {s : ConsensusState} {t : ConsensusTransaction} {fee : Int} (hc : t.isCoinbase = false) :
    s.validateTransaction t = .ok fee ↔ t.version = 1 ∧ s.validateOutputs t.outputs = .ok () ∧ t.inputs ≠ [] ∧
      (t.inputs.map (·.previousOutput)).Nodup ∧ (∀ j x, t.inputs[j]? = some x → InputOk s.utxos t j x) ∧
      fee = inputTotal s.utxos t - outputTotal t.outputs ∧ 0 ≤ fee := by
  rw [inputTotal_of_not_coinbase hc]
  simp only [ConsensusState.validateTransaction, validateTransactionVersion, hc, Bool.false_eq_true, ite_false, bind_eq_ok,
    exists_unit, raiseIf_eq_ok, not_not, validateInputs_eq_ok, not_lt, pure_eq_ok, Nat.zero_add, List.not_mem_nil,
    not_false_eq_true, implies_true, true_and, Int.zero_add]
  constructor
  · rintro ⟨hv, ho, hne, _, ⟨hn, hin, rfl⟩, hle, rfl⟩
    exact ⟨hv, ho, hne, hn, hin, rfl, by omega⟩
  · rintro ⟨hv, ho, hne, hn, hin, rfl, hfee⟩
    exact ⟨hv, ho, hne, _, ⟨hn, hin, rfl⟩, by omega, rfl⟩

theorem applyTransaction_eq_ok {s s' : ConsensusState} {t : ConsensusTransaction} {fee : Int}
    (hc : t.isCoinbase = false) : s.applyTransaction t = .ok (fee, s') ↔ ∃ txid, Spends s t txid fee s' := by
  have hs := spentBy_of_not_coinbase hc
  simp only [ConsensusState.applyTransaction, validateTransaction_eq_ok hc, hc, Bool.false_eq_true, ite_false, bind_eq_ok,
    pure_eq_ok, Prod.mk.injEq, commit_eq_ok]
  constructor
  · rintro ⟨_, ⟨hv, ho, hne, hn, hin, rfl, hfee⟩, u, hu, u', hu', s₁, ⟨hmax, rfl⟩, rfl, rfl⟩
    obtain ⟨hm, rfl⟩ := (spendInputs_eq_ok hn).mp hu
    obtain ⟨txid, htx, hf, rfl⟩ := (addOutputs_eq_ok (validateOutputs_eq_ok.mp ho).1).mp hu'
    exact ⟨txid, htx, hv, ho, hne, hin, rfl, hfee,
      ⟨by simpa only [transfer, hs] using hn, by simpa only [transfer, hs] using hm, nodup_createdFrom _ _ _,
        by simpa only [transfer, hs] using hf, by simp only [transfer, hs]⟩, hmax, rfl⟩
  · rintro ⟨txid, h⟩
    have hn : (t.inputs.map (·.previousOutput)).Nodup := by simpa only [transfer, hs] using h.step.nodup_ins
    have he := h.step.eq
    simp only [transfer, hs] at he
    refine ⟨fee, ⟨h.version, h.outputs, h.inputs_ne, hn, h.inputOk, h.fee_eq, h.fee_nonneg⟩, _,
      (spendInputs_eq_ok hn).mpr ⟨by simpa only [transfer, hs] using h.step.mem_ins, rfl⟩, _,
      (addOutputs_eq_ok (validateOutputs_eq_ok.mp h.outputs).1).mpr
        ⟨txid, h.txid_eq, by simpa only [transfer, hs] using h.step.fresh, rfl⟩, s', ⟨?_, ?_⟩, rfl, rfl⟩
    · rw [← he]
      exact h.le_max
    · rw [← he]
      exact h.params

end BCC.Proof
