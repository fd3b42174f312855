import BlockchainCoin.Proof.Commitment
import BlockchainCoin.Proof.Import
import BlockchainCoin.Proof.Signing

/-!
# Signature texts and txids

The txid hashes the text of a signature, and verification looks at the bytes that the
text decodes to. `b64decode` is lenient, so whoever relays a payment may write its
signatures in other texts, and it is accepted under another txid (`respelled_txid`). The
texts that `b64encode` writes are the only ones of their kind (`b64decode_b64encode`).
-/

namespace BCC.Proof

open BCC.Impl

theorem b64decode_b64encode (data : Bytes) : b64decode (b64encode data) = some data := by
  have htext : b64encode data = b64Text data := strip_urlsafeB64encode data
  have hascii : ((b64Text data).all fun c => c.toNat < 128) = true := List.all_eq_true.mpr fun c hc => by
    obtain ⟨v, hv, rfl⟩ := b64Char_of_mem hc
    exact decide_eq_true (b64Char_ascii v hv)
  rw [htext, b64decode, if_pos hascii, length_b64Text]
  exact urlsafeB64decode_urlsafeB64encode data

/-- One input but for the text of its signature, which decodes to the same bytes. -/
structure RespelledInput (x x' : TxInput) : Prop where
  previousOutput : x'.previousOutput = x.previousOutput
  publicKey : x'.publicKey = x.publicKey
  decoded : x'.signature.map b64decode = x.signature.map b64decode

/-- One transaction but for the texts of its signatures. -/
structure Respelled (t t' : ConsensusTransaction) : Prop where
  version : t'.version = t.version
  outputs : t'.outputs = t.outputs
  inputs : List.Forall₂ RespelledInput t.inputs t'.inputs

/-- The signatures are written as `b64encode` writes them. -/
def CanonicalTexts (t : ConsensusTransaction) : Prop :=
  ∀ x ∈ t.inputs, ∀ text, x.signature = some text → ∃ raw, text = b64encode raw

section

variable {t t' : ConsensusTransaction} {x x' : TxInput}

theorem RespelledInput.eq_of_signature (h : RespelledInput x x') (hs : x.signature = x'.signature) : x = x' := by
  cases x
  cases x'
  simp only [TxInput.mk.injEq]
  exact ⟨h.previousOutput.symm, hs, h.publicKey.symm⟩

theorem Respelled.map_previousOutput (h : Respelled t t') :
    t'.inputs.map (·.previousOutput) = t.inputs.map (·.previousOutput) := by
  rw [← List.forall₂_eq_eq_eq, List.forall₂_map_left_iff, List.forall₂_map_right_iff]
  exact h.inputs.flip.imp fun _ _ hx => hx.previousOutput

theorem Respelled.eq_of_signatures (h : Respelled t t')
    (hs : t.inputs.map (·.signature) = t'.inputs.map (·.signature)) : t = t' := by
  have hinputs : t.inputs = t'.inputs := by
    have hin := h.inputs
    generalize t.inputs = xs at hin hs
    generalize t'.inputs = xs' at hin hs
    induction hin with
    | nil => rfl
    | cons hx _ ih =>
      rw [List.map_cons, List.map_cons, List.cons.injEq] at hs
      rw [hx.eq_of_signature hs.1, ih hs.2]
  cases t
  cases t'
  simp only [ConsensusTransaction.mk.injEq]
  exact ⟨hinputs, h.outputs.symm, h.version.symm⟩

/-- What `b64encode` writes is told apart by what it decodes to. -/
theorem Respelled.eq_of_canonical (h : Respelled t t') (hc : CanonicalTexts t) (hc' : CanonicalTexts t') : t = t' := by
  refine h.eq_of_signatures ?_
  rw [← List.forall₂_eq_eq_eq, List.forall₂_map_left_iff, List.forall₂_map_right_iff]
  refine List.forall₂_iff_get.mpr ⟨h.inputs.length_eq, fun i hi hi' => ?_⟩
  have hx := h.inputs.get hi hi'
  have hd := hx.decoded
  cases hs : (t.inputs.get ⟨i, hi⟩).signature with
  | none =>
    rw [hs, Option.map_none, Option.map_eq_none_iff] at hd
    exact hd.symm
  | some text =>
    rw [hs, Option.map_some, Option.map_eq_some_iff] at hd
    obtain ⟨text', hs', hd⟩ := hd
    obtain ⟨raw, rfl⟩ := hc _ (List.get_mem _ _) _ hs
    obtain ⟨raw', rfl⟩ := hc' _ (List.get_mem _ _) _ hs'
    rw [b64decode_b64encode, b64decode_b64encode, Option.some.injEq] at hd
    rw [hs', hd]

theorem Respelled.isCoinbase (h : Respelled t t') : t'.isCoinbase = t.isCoinbase := by
  have hin := h.inputs
  rw [ConsensusTransaction.isCoinbase, ConsensusTransaction.isCoinbase]
  generalize t.inputs = xs at hin
  generalize t'.inputs = xs' at hin
  cases hin with
  | nil => rfl
  | cons hx hrest =>
    cases hrest with
    | nil => simp only [hx.previousOutput]
    | cons => rfl

theorem Respelled.signingMessage (h : Respelled t t') (j : Nat) : t'.signingMessage j = t.signingMessage j := by
  have hmap := h.map_previousOutput
  rw [signingMessage_eq, signingMessage_eq, told, told, hmap, h.version, h.outputs]

/-- The txids are those of the encodings, which hold the texts. -/
theorem Respelled.txid_eq_iff (h : Respelled t t') {txid txid' : Str} (ht : t.txid = .ok txid) (ht' : t'.txid = .ok txid')
    (hS : Sha256.NoCollision [okBytes t.toBytes, okBytes t'.toBytes]) :
    txid = txid' ↔ t.inputs.map (·.signature) = t'.inputs.map (·.signature) := by
  constructor
  · intro he
    obtain ⟨bs, hbs, rfl⟩ := txid_eq_ok.mp ht
    obtain ⟨bs', hbs', rfl⟩ := txid_eq_ok.mp ht'
    rw [okBytes_eq hbs, okBytes_eq hbs'] at hS
    have hsame : bs = bs' := hS _ List.mem_cons_self _ (List.mem_cons_of_mem _ List.mem_cons_self) (hexEncode_inj he)
    subst hsame
    have hstored := Except.ok.inj ((fromBytes_toBytes_transaction hbs).symm.trans (fromBytes_toBytes_transaction hbs'))
    have hinputs := congrArg (fun u : ConsensusTransaction => u.inputs.map (·.signature)) hstored
    simp only [storedTransaction, List.map_map] at hinputs
    exact hinputs
  · intro hs
    rw [h.eq_of_signatures hs, ht', Except.ok.injEq] at ht
    exact ht.symm

variable [Ed25519]

theorem RespelledInput.validate (hx : RespelledInput x x') (h : Respelled t t') {j : Nat} {out : TxOutput}
    (hv : validateInputSignature t j x out = .ok ()) (hne : x'.signature ≠ some []) :
    validateInputSignature t' j x' out = .ok () := by
  obtain ⟨d, text, publicKey, hd, hs, -, hk, ha, hverify⟩ := validateInputSignature_eq_ok.mp hv
  have hdecoded := hx.decoded
  rw [hs, Option.map_some, Option.map_eq_some_iff] at hdecoded
  obtain ⟨text', hs', hdecoded⟩ := hdecoded
  refine validateInputSignature_eq_ok.mpr ⟨d, text', publicKey, hx.publicKey.trans hd, hs', ?_, hk, ha, ?_⟩
  · rintro rfl
    exact hne hs'
  · rw [verifySignature] at hverify ⊢
    rwa [hdecoded, h.signingMessage]

/-- A transaction in other texts is accepted like the one that it was. -/
theorem Respelled.validate_iff (h : Respelled t t') {s : ConsensusState} {fee : Int} (hc : t.isCoinbase = false)
    (hv : s.validateTransaction t = .ok fee) :
    s.validateTransaction t' = .ok fee ↔ ∀ x ∈ t'.inputs, x.signature ≠ some [] := by
  have hc' : t'.isCoinbase = false := h.isCoinbase.trans hc
  obtain ⟨hversion, houts, hne, hnodup, hin, hfee, hpos⟩ := (validateTransaction_eq_ok hc).mp hv
  have hspent : spentBy t' = spentBy t := by
    rw [spentBy_of_not_coinbase hc, spentBy_of_not_coinbase hc', h.map_previousOutput]
  have hlen := h.inputs.length_eq
  rw [validateTransaction_eq_ok hc']
  constructor
  · rintro ⟨-, -, -, -, hin', -⟩ x hx hs
    obtain ⟨j, hj⟩ := List.getElem?_of_mem hx
    obtain ⟨out, -, hok⟩ := hin' j x hj
    obtain ⟨d, text, publicKey, -, hs', hne', -⟩ := validateInputSignature_eq_ok.mp hok
    rw [hs, Option.some.injEq] at hs'
    exact hne' hs'.symm
  · intro hall
    refine ⟨h.version.trans hversion, h.outputs ▸ houts, ?_, h.map_previousOutput ▸ hnodup, fun j x' hj => ?_, ?_, hpos⟩
    · rwa [← List.length_pos_iff, ← hlen, List.length_pos_iff]
    · obtain ⟨hj', rfl⟩ := List.getElem?_eq_some_iff.mp hj
      have hx := h.inputs.get (hlen ▸ hj') hj'
      obtain ⟨out, hout, hok⟩ := hin j _ (List.getElem?_eq_getElem (hlen ▸ hj'))
      exact ⟨out, hx.previousOutput ▸ hout, hx.validate h hok (hall _ (List.getElem_mem hj'))⟩
    · rw [hfee, inputTotal, inputTotal, hspent, h.outputs]

/-- A payment in other texts is accepted like the one that it was, under another txid; only the canonical texts leave no
choice. -/
theorem respelled_txid (s : ConsensusState) (t t' : ConsensusTransaction) (fee : Int) (hv : s.validateTransaction t = .ok fee)
    (h : Respelled t t') (hS : Sha256.NoCollision [okBytes t.toBytes, okBytes t'.toBytes]) :
    (∀ txid txid', t.txid = .ok txid → t'.txid = .ok txid' →
      (txid = txid' ↔ t.inputs.map (·.signature) = t'.inputs.map (·.signature))) ∧
      (CanonicalTexts t → CanonicalTexts t' → t.txid = t'.txid) ∧
      (t.isCoinbase = false → (s.validateTransaction t' = .ok fee ↔ ∀ x ∈ t'.inputs, x.signature ≠ some [])) :=
  ⟨fun _ _ ht ht' => h.txid_eq_iff ht ht' hS, fun hc hc' => congrArg _ (h.eq_of_canonical hc hc'),
    fun hc => h.validate_iff hc hv⟩

end

theorem respelled_longPayment : Respelled payment (longPayment 4) where
  version := rfl
  outputs := rfl
  inputs := .cons ⟨rfl, rfl, congrArg some (b64decode_longPayment (by decide))⟩ .nil

theorem noCollision_longPayment : Sha256.NoCollision [okBytes payment.toBytes, okBytes (longPayment 4).toBytes] := by
  have hn : (([okBytes payment.toBytes, okBytes (longPayment 4).toBytes]).map Sha256.digest).Nodup := by decide +kernel
  exact fun x hx y hy => List.inj_on_of_nodup_map hn hx hy

theorem validate_longPayment {k : Nat} (hk : k + 86 < 2 ^ 32) (h4 : k % 4 = 0) :
    @ConsensusState.validateTransaction aliceVerify afterGenesis (longPayment k) = .ok 3 := by
  let _ := aliceVerify
  have hsp := spends_longPayment hk h4
  exact (validateTransaction_eq_ok rfl).mpr ⟨hsp.version, hsp.outputs, hsp.inputs_ne, List.nodup_singleton _, hsp.inputOk,
    hsp.fee_eq, hsp.fee_nonneg⟩

theorem validate_payment : @ConsensusState.validateTransaction aliceVerify afterGenesis payment = .ok 3 :=
  validate_longPayment (k := 0) (by decide) rfl

theorem respelled_txid_longPayment :
    let _ := aliceVerify
    (∀ txid txid', payment.txid = .ok txid → (longPayment 4).txid = .ok txid' →
      (txid = txid' ↔ payment.inputs.map (·.signature) = (longPayment 4).inputs.map (·.signature))) ∧
      (CanonicalTexts payment → CanonicalTexts (longPayment 4) → payment.txid = (longPayment 4).txid) ∧
      (payment.isCoinbase = false → (afterGenesis.validateTransaction (longPayment 4) = .ok 3 ↔
        ∀ x ∈ (longPayment 4).inputs, x.signature ≠ some [])) := by
  intro _
  exact respelled_txid afterGenesis payment (longPayment 4) 3 validate_payment respelled_longPayment noCollision_longPayment

theorem payment_malleable :
    let _ := aliceVerify
    afterGenesis.validateTransaction payment = .ok 3 ∧ afterGenesis.validateTransaction (longPayment 4) = .ok 3 ∧
      Respelled payment (longPayment 4) ∧ ∃ txid txid', payment.txid = .ok txid ∧ (longPayment 4).txid = .ok txid' ∧ txid ≠ txid' := by
  intro _
  have htxids := txids_sample
  rw [List.map_cons, List.map_cons, List.map_singleton, List.cons.injEq, List.cons.injEq, List.singleton_inj] at htxids
  obtain ⟨-, -, hpay⟩ := htxids
  have hlong := txid_longPayment (k := 4) (by decide)
  refine ⟨validate_payment, validate_longPayment (by decide) rfl, respelled_longPayment, _, _, hpay, hlong, ?_⟩
  rw [ne_eq, respelled_longPayment.txid_eq_iff hpay hlong noCollision_longPayment]
  decide

end BCC.Proof
