import BlockchainCoin.Proof.Transaction

/-!
# What a block does to the consensus state

`apply_block` validates on a copy and then repeats the block's transactions on
the live state. The repetition meets the same states as the validation did, so
it never raises (`applyBlock_of_ok`): the state after is the candidate, and
when validation raises nothing was touched (`applyBlock_of_error`).

An accepted block is a list of transfers of the ledger of outpoints, its
transactions in order and its coinbase last (`validateCandidate_run`); coins
then move only as `Ledger.Run.lost` and `Ledger.Run.gained` allow.
-/

namespace BCC.Proof

open BCC.Impl BCC.Ledger BlockProcessor

/-! ## The second pass -/

/-- What `validate_block` checks of a block without reading the state. -/
structure Checked (b : ConsensusBlock) (c : ConsensusTransaction) (rest : List ConsensusTransaction) :
    Prop where
  version : b.version = 1
  difficulty : 0 ≤ b.difficulty
  work : ∃ hash, b.hash = .ok hash ∧ (List.replicate b.difficulty.toNat '0').isPrefixOf hash = true
  root : calculateTransactionRoot b.transactions = .ok b.transactionRoot
  transactions : b.transactions = c :: rest
  coinbase : c.isCoinbase = true
  others : ∀ t ∈ rest, t.isCoinbase = false

theorem checkBlock_eq_ok {b : ConsensusBlock} {h : Int} {p : Str} {c : ConsensusTransaction}
    {rest : List ConsensusTransaction} :
    checkBlock b h p = .ok (c, rest) ↔ b.height = h ∧ b.previousHash = p ∧ Checked b c rest := by
  simp only [checkBlock, bind_eq_ok, exists_unit, raiseIf_eq_ok, not_not, not_lt]
  constructor
  · rintro ⟨hv, hh, hp, hd, hash, hhash, hw, root, hroot, hr, hm⟩
    split at hm
    · cases hm
    · rename_i hts
      simp only [bind_eq_ok, exists_unit, raiseIf_eq_ok, pure_eq_ok, Prod.mk.injEq, Bool.not_eq_false, Bool.not_eq_true,
        List.any_eq_false] at hm
      obtain ⟨hc, ho, rfl, rfl⟩ := hm
      exact ⟨hh, hp, hv, hd, ⟨hash, hhash, hw⟩, hr ▸ hroot, hts, hc, ho⟩
  · rintro ⟨hh, hp, hv, hd, ⟨hash, hhash, hw⟩, hroot, hts, hc, ho⟩
    refine ⟨hv, hh, hp, hd, hash, hhash, hw, _, hroot, rfl, ?_⟩
    rw [hts]
    simp only [bind_eq_ok, exists_unit, raiseIf_eq_ok, pure_eq_ok, Bool.not_eq_false, Bool.not_eq_true, List.any_eq_false]
    exact ⟨hc, ho, trivial⟩

variable [Ed25519]

theorem forM_applyLive {ts : List ConsensusTransaction} {fees f : Int} {s s' : ConsensusState}
    (h : ConsensusState.applyTransactions fees s ts = .ok (f, s')) :
    (ts.forM applyLive).call s = (.ok (), s') := by
  induction ts generalizing fees s with
  | nil =>
    rw [ConsensusState.applyTransactions, Except.ok.injEq, Prod.mk.injEq] at h
    rw [← h.2]; rfl
  | cons t ts ih =>
    rw [ConsensusState.applyTransactions] at h
    obtain ⟨⟨fee, s₁⟩, ht, hts⟩ := bind_eq_ok.mp h
    have hlive : (applyLive t).call s = (.ok (), s₁) := Method.call_assigning_of_ok (by rw [ht]; rfl)
    rw [List.forM_eq_forM, List.forM_cons, Method.call_bind_of_ok hlive]
    exact ih hts

theorem applyBlock_of_ok {s s' : ConsensusState} {b : ConsensusBlock} {h : Int} {p : Str} {fees : Int}
    (hv : validateCandidate s b h p = .ok (fees, s')) : (applyBlock b h p).call s = (.ok fees, s') := by
  have hread : (Method.reading fun s => validateBlock s b h p).call s = (.ok fees, s) := by
    rw [Method.call_reading, validateBlock, hv]; rfl
  obtain ⟨⟨c, rest⟩, hc, hv⟩ := bind_eq_ok.mp hv
  obtain ⟨⟨f, s₁⟩, hts, hv⟩ := bind_eq_ok.mp hv
  obtain ⟨s₂, hcb, hv⟩ := bind_eq_ok.mp hv
  rw [pure_eq_ok, Prod.mk.injEq] at hv
  obtain ⟨rfl, rfl⟩ := hv
  have hb := (checkBlock_eq_ok.mp hc).2.2.transactions
  rw [applyBlock, Method.call_bind_of_ok hread, hb]
  simp only [List.tail_cons]
  rw [Method.call_bind_of_ok (forM_applyLive hts),
    Method.call_bind_of_ok (Method.call_assigning_of_ok (by rw [hcb]; rfl)), Method.call_pure]

theorem applyBlock_of_error {s : ConsensusState} {b : ConsensusBlock} {h : Int} {p : Str} {e : PyError}
    (hv : validateCandidate s b h p = .error e) : (applyBlock b h p).call s = (.error e, s) := by
  have hread : (Method.reading fun s => validateBlock s b h p).call s = (.error e, s) := by
    rw [Method.call_reading, validateBlock, hv]; rfl
  rw [applyBlock, Method.call_bind_of_error hread]

theorem applyBlock_eq_ok {s s' : ConsensusState} {b : ConsensusBlock} {h : Int} {p : Str} {fees : Int} :
    (applyBlock b h p).call s = (.ok fees, s') ↔ validateCandidate s b h p = .ok (fees, s') := by
  cases hv : validateCandidate s b h p with
  | error e => simp [applyBlock_of_error hv]
  | ok r => obtain ⟨f, s₁⟩ := r; simp [applyBlock_of_ok hv]

/-- `apply_block` returns what `validate_block` returns and leaves the candidate it built; when it
raises, no transaction of the block stays applied. -/
theorem applyBlock_atomic (s : ConsensusState) (b : ConsensusBlock) (expectedHeight : Int)
    (expectedPreviousHash : Str) :
    (∀ f, ((applyBlock b expectedHeight expectedPreviousHash).call s).1 = .ok f ↔
      validateBlock s b expectedHeight expectedPreviousHash = .ok f) ∧
    (∀ f, ((applyBlock b expectedHeight expectedPreviousHash).call s).1 = .ok f →
      ∃ candidate, validateCandidate s b expectedHeight expectedPreviousHash = .ok (f, candidate) ∧
        ((applyBlock b expectedHeight expectedPreviousHash).call s).2.utxos = candidate.utxos) ∧
    (∀ e, ((applyBlock b expectedHeight expectedPreviousHash).call s).1 = .error e →
      ((applyBlock b expectedHeight expectedPreviousHash).call s).2.utxos = s.utxos) := by
  cases hv : validateCandidate s b expectedHeight expectedPreviousHash with
  | ok r =>
    obtain ⟨fees, candidate⟩ := r
    rw [applyBlock_of_ok hv, validateBlock, hv]
    refine ⟨fun f => Iff.rfl, fun f hf => ⟨candidate, ?_, rfl⟩, fun e he => (by cases he)⟩
    rw [Except.ok.injEq] at hf
    rw [hf]
  | error e =>
    rw [applyBlock_of_error hv, validateBlock, hv]
    exact ⟨fun f => Iff.rfl, fun f hf => (by cases hf), fun _ _ => rfl⟩

/-! ## Blocks as runs of the ledger -/

/-- The txid of a transaction that has one. -/
def txidOf (t : ConsensusTransaction) : Str :=
  match t.txid with
  | .ok txid => txid
  | .error _ => []

omit [Ed25519] in
theorem txidOf_eq {t : ConsensusTransaction} {txid : Str} (h : t.txid = .ok txid) : txidOf t = txid := by
  rw [txidOf, h]

/-- What is checked of a transaction in the ledger it is applied to. -/
structure Guard (u : UTXOSet) (t : ConsensusTransaction) : Prop where
  txid_eq : t.txid = .ok (txidOf t)
  outputs_ne : t.outputs ≠ []
  inputs_ne : t.isCoinbase = false → t.inputs ≠ []
  inputOk : t.isCoinbase = false → ∀ j x, t.inputs[j]? = some x → InputOk u t j x

/-- The ledger of outpoints. -/
def chainRules : Rules ConsensusTransaction OutPoint TxOutput where
  transfer t := transfer t (txidOf t)
  guard := Guard

/-- The transactions of a block in the order they are applied in: the coinbase is last. -/
def appliedOrder (b : ConsensusBlock) : List ConsensusTransaction :=
  b.transactions.tail ++ b.transactions.take 1

omit [Ed25519] in
theorem mem_appliedOrder {b : ConsensusBlock} {t : ConsensusTransaction} :
    t ∈ appliedOrder b ↔ t ∈ b.transactions := by
  unfold appliedOrder
  cases b.transactions with
  | nil => simp
  | cons c rest => simp [or_comm]

theorem Spends.run {s s' : ConsensusState} {t : ConsensusTransaction} {txid : Str} {fee : Int}
    (h : Spends s t txid fee s') : Run chainRules s.utxos [t] s'.utxos := by
  have ht := txidOf_eq h.txid_eq
  have hg : Guard s.utxos t := ⟨by rw [ht]; exact h.txid_eq, (validateOutputs_eq_ok.mp h.outputs).1,
    fun _ => h.inputs_ne, fun _ => h.inputOk⟩
  exact .single hg (by simpa only [chainRules, ht] using h.step)

theorem Mints.run {s s' : ConsensusState} {t : ConsensusTransaction} {txid : Str} (h : Mints s t txid s') :
    Run chainRules s.utxos [t] s'.utxos := by
  have ht := txidOf_eq h.txid_eq
  have hc : t.isCoinbase ≠ false := by simp [h.isCoinbase]
  have hg : Guard s.utxos t := ⟨by rw [ht]; exact h.txid_eq, (validateOutputs_eq_ok.mp h.outputs).1,
    fun h => absurd h hc, fun h => absurd h hc⟩
  exact .single hg (by simpa only [chainRules, ht] using h.step)

theorem applyTransactions_run {ts : List ConsensusTransaction} {fees f : Int} {s s' : ConsensusState}
    (hc : ∀ t ∈ ts, t.isCoinbase = false) (h : ConsensusState.applyTransactions fees s ts = .ok (f, s')) :
    Run chainRules s.utxos ts s'.utxos := by
  induction ts generalizing fees s with
  | nil =>
    rw [ConsensusState.applyTransactions, Except.ok.injEq, Prod.mk.injEq] at h
    rw [h.2]; exact .nil _
  | cons t ts ih =>
    rw [ConsensusState.applyTransactions] at h
    obtain ⟨⟨fee, s₁⟩, ht, hts⟩ := bind_eq_ok.mp h
    obtain ⟨txid, hsp⟩ := (applyTransaction_eq_ok (hc t List.mem_cons_self)).mp ht
    exact hsp.run.append (ih (fun t ht => hc t (List.mem_cons_of_mem _ ht)) hts)

/-- What `validate_block` checks and does, taken apart. -/
theorem validateCandidate_eq_ok {s s' : ConsensusState} {b : ConsensusBlock} {h : Int} {p : Str} {fees : Int} :
    validateCandidate s b h p = .ok (fees, s') ↔ ∃ c rest s₁, checkBlock b h p = .ok (c, rest) ∧
      ConsensusState.applyTransactions 0 s rest = .ok (fees, s₁) ∧ s₁.applyCoinbaseOf b c fees = .ok s' := by
  simp only [validateCandidate, bind_eq_ok, pure_eq_ok, Prod.exists, Prod.mk.injEq]
  constructor
  · rintro ⟨c, rest, hc, f, s₁, hts, s₂, hcb, rfl, rfl⟩
    exact ⟨c, rest, s₁, hc, hts, hcb⟩
  · rintro ⟨c, rest, s₁, hc, hts, hcb⟩
    exact ⟨c, rest, hc, fees, s₁, hts, s', hcb, rfl, rfl⟩

theorem validateCandidate_run {s s' : ConsensusState} {b : ConsensusBlock} {h : Int} {p : Str} {fees : Int}
    (hv : validateCandidate s b h p = .ok (fees, s')) : Run chainRules s.utxos (appliedOrder b) s'.utxos := by
  obtain ⟨c, rest, s₁, hc, hts, hcb⟩ := validateCandidate_eq_ok.mp hv
  have hb := (checkBlock_eq_ok.mp hc).2.2
  obtain ⟨txid, hm⟩ := mints_of_applyCoinbaseOf hcb
  rw [appliedOrder, hb.transactions]
  exact (applyTransactions_run hb.others hts).append hm.run

/-! ## Authorisation -/

/-- Input `j` of `t` spends `o` with the key of `out`'s address and a signature over its message. -/
def Authorises (t : ConsensusTransaction) (o : OutPoint) (out : TxOutput) : Prop :=
  ∃ j x d signature publicKey, t.inputs[j]? = some x ∧ x.previousOutput = o ∧ x.publicKey = some d ∧
    x.signature = some signature ∧ PublicKey.fromDict d = some publicKey ∧
    publicKey.address = out.address ∧ verifySignature publicKey (t.signingMessage j) signature = true

theorem validateInputSignature_eq_ok {t : ConsensusTransaction} {j : Nat} {x : TxInput} {out : TxOutput} :
    validateInputSignature t j x out = .ok () ↔ ∃ d signature publicKey, x.publicKey = some d ∧
      x.signature = some signature ∧ signature ≠ [] ∧ PublicKey.fromDict d = some publicKey ∧
      publicKey.address = out.address ∧ verifySignature publicKey (t.signingMessage j) signature = true := by
  unfold validateInputSignature
  cases hd : x.publicKey with
  | none => simp [throw, throwThe, MonadExceptOf.throw]
  | some d =>
    cases hs : x.signature with
    | none => simp [throw, throwThe, MonadExceptOf.throw]
    | some signature =>
      cases hk : PublicKey.fromDict d with
      | none => simp [bind_eq_ok, throw, throwThe, MonadExceptOf.throw, hk]
      | some publicKey =>
        -- A dictionary with both of its named entries is not empty.
        have hne : d.isEmpty = false := by
          unfold PublicKey.fromDict at hk
          cases ha : d.algorithm with
          | none => simp [ha] at hk
          | some a => simp [PublicKeyDict.isEmpty, ha]
        simp [bind_eq_ok, hk, hne]

theorem InputOk.authorises {u : UTXOSet} {t : ConsensusTransaction} {j : Nat} {x : TxInput} {out : TxOutput}
    (hx : t.inputs[j]? = some x) (h : InputOk u t j x) (hout : u.lookup x.previousOutput = some out) :
    Authorises t x.previousOutput out := by
  obtain ⟨out', hout', hs⟩ := h
  rw [hout, Option.some.injEq] at hout'
  subst hout'
  obtain ⟨d, signature, publicKey, hd, hsig, -, hk, ha, hv⟩ := validateInputSignature_eq_ok.mp hs
  exact ⟨j, x, d, signature, publicKey, hx, rfl, hd, hsig, hk, ha, hv⟩

/-- Coins move only with their owner's authorisation, and only outputs of the block's transactions
appear. -/
theorem applyBlock_authorised (s s' : ConsensusState) (b : ConsensusBlock) (expectedHeight : Int)
    (expectedPreviousHash : Str) (fees : Int)
    (hb : (applyBlock b expectedHeight expectedPreviousHash).call s = (.ok fees, s')) :
    (∀ o out, s.utxos.lookup o = some out → s'.utxos.lookup o = some out ∨
      ∃ t ∈ b.transactions, t.isCoinbase = false ∧ Authorises t o out) ∧
    (∀ o out, s'.utxos.lookup o = some out → s.utxos.lookup o ≠ some out →
      ∃ t ∈ b.transactions, ∃ (txid : Str) (i : Nat),
        t.txid = .ok txid ∧ o = ⟨txid, i⟩ ∧ t.outputs[i]? = some out) := by
  have hr := validateCandidate_run (applyBlock_eq_ok.mp hb)
  constructor
  · intro o out ho
    rcases hr.lost ho with h | ⟨t, ht, u, hg, hin, hu⟩
    · exact .inl h
    have hc : t.isCoinbase = false := by
      by_contra hc
      simp [chainRules, transfer, spentBy, hc] at hin
    refine .inr ⟨t, mem_appliedOrder.mp ht, hc, ?_⟩
    simp only [chainRules, transfer, spentBy_of_not_coinbase hc, List.mem_map] at hin
    obtain ⟨x, hx, rfl⟩ := hin
    obtain ⟨j, hj⟩ := List.getElem?_of_mem hx
    exact (hg.inputOk hc j x hj).authorises hj hu
  · intro o out ho hne
    rcases hr.gained ho with h | ⟨t, ht, u, hg, hout⟩
    · exact absurd h hne
    obtain ⟨i, rfl, hi⟩ := mem_createdFrom.mp hout
    exact ⟨t, mem_appliedOrder.mp ht, txidOf t, i, hg.txid_eq, by rw [Nat.zero_add], hi⟩

/-! ## A payment

Alice is paid by the genesis coinbase and pays herself in the next block. -/

/-- Alice's raw Ed25519 public key. -/
def aliceRaw : Bytes :=
  [138, 136, 227, 221, 116, 9, 241, 149, 253, 82, 219, 45, 60, 186, 93, 114, 202, 103, 9, 191, 29, 148,
   18, 27, 243, 116, 136, 1, 180, 15, 111, 92]

/-- Alice's key, as her inputs carry it. -/
def aliceKey : PublicKeyDict where
  algorithm := some keyAlgorithm
  key := some
    ['i', 'o', 'j', 'j', '3', 'X', 'Q', 'J', '8', 'Z', 'X', '9', 'U', 't', 's', 't', 'P', 'L', 'p', 'd',
     'c', 's', 'p', 'n', 'C', 'b', '8', 'd', 'l', 'B', 'I', 'b', '8', '3', 'S', 'I', 'A', 'b', 'Q', 'P',
     'b', '1', 'w']
  others := []

def aliceAddress : Str :=
  addressPrefix ++ hexEncode
    [163, 141, 203, 65, 5, 191, 198, 177, 44, 172, 162, 195, 225, 192, 235, 241, 132, 246, 49, 165]

/-- A coinbase that pays Alice. -/
def aliceCoinbase (index amount : Int) : ConsensusTransaction where
  inputs := [⟨⟨zeroHash, index⟩, none, none⟩]
  outputs := [⟨amount, aliceAddress⟩]

/-- The txid of the genesis coinbase `aliceCoinbase (-1) 10`. -/
def genesisTxid : Str :=
  hexEncode
    [129, 3, 59, 177, 35, 66, 134, 195, 47, 13, 17, 217, 132, 69, 217, 117, 36, 167, 168, 203, 77, 11,
     224, 93, 218, 88, 231, 252, 222, 124, 250, 113]

def paymentSignature : Str :=
  ['d', 'H', '2', 'a', 'n', 'k', 'X', '3', '4', 'O', 'J', '_', 'I', '4', 'O', 'D', 'S', 'V', 'v', 'Z',
   'U', 'i', 'M', 't', '4', 'e', 'l', 'V', 'w', 'O', 'E', 'n', 'I', 'n', '7', 'q', 'F', 'I', '4', '_',
   'c', 'y', 'n', 'k', 'v', '5', 'i', 'I', 'R', 'g', 'K', '0', 'Z', 'J', '4', '6', 'T', 'S', 'A', 'F',
   'H', '0', 'K', 'G', 'j', 'C', 'e', 'K', 'G', 'u', 'L', 'L', 'z', 'd', 'R', 'u', 'T', 'v', '-', 'H',
   'F', 'u', 'o', 'p', 'C', 'A']

/-- Alice spends the genesis output and leaves a fee of 3. -/
def payment : ConsensusTransaction where
  inputs := [⟨⟨genesisTxid, 0⟩, some paymentSignature, some aliceKey⟩]
  outputs := [⟨7, aliceAddress⟩]

/-- A verification that accepts Alice's signature of `payment` and nothing else. -/
@[reducible] def aliceVerify : Ed25519 where
  verify raw signature data := raw == aliceRaw && some signature == b64decode paymentSignature &&
    data == utf8Encode (payment.signingMessage 0)

/-- The genesis block: its one transaction is its transaction root. -/
def genesisBlock : ConsensusBlock where
  height := 0
  previousHash := zeroHash
  transactions := [aliceCoinbase (-1) 10]
  difficulty := 0
  timestamp := 0
  transactionRoot := genesisTxid

def genesisHash : Str :=
  hexEncode
    [57, 230, 45, 204, 73, 133, 132, 235, 98, 23, 7, 103, 78, 210, 115, 74, 251, 200, 163, 98, 99, 219,
     141, 91, 12, 214, 252, 5, 162, 175, 26, 112]

/-- The block after it: a coinbase that earns the subsidy of 50 and the fee, and the payment. -/
def paymentBlock : ConsensusBlock where
  height := 1
  previousHash := genesisHash
  transactions := [aliceCoinbase (-2) 53, payment]
  difficulty := 0
  timestamp := 0
  transactionRoot := hexEncode
    [65, 121, 29, 80, 12, 212, 61, 38, 43, 91, 45, 108, 26, 2, 238, 91, 244, 80, 91, 34, 117, 82, 86, 54,
     120, 50, 97, 111, 137, 232, 178, 5]

def paymentTxid : Str :=
  hexEncode
    [148, 132, 180, 252, 88, 133, 123, 162, 158, 45, 81, 104, 94, 246, 71, 31, 172, 237, 52, 65, 221, 8,
     119, 68, 248, 210, 238, 219, 17, 37, 208, 88]

def rewardTxid : Str :=
  hexEncode
    [200, 140, 42, 215, 59, 211, 249, 17, 253, 156, 90, 249, 240, 146, 158, 116, 72, 139, 225, 18, 148,
     156, 163, 167, 105, 221, 182, 181, 130, 8, 24, 7]


omit [Ed25519] in
theorem txids_sample : [aliceCoinbase (-1) 10, aliceCoinbase (-2) 53, payment].map (·.txid) =
    [.ok genesisTxid, .ok rewardTxid, .ok paymentTxid] := by
  decide +kernel

/-- The state after the genesis block, with a subsidy of 50. -/
def afterGenesis : ConsensusState where
  utxos := (∅ : UTXOSet).insert ⟨genesisTxid, 0⟩ ⟨10, aliceAddress⟩
  blockSubsidy := 50
  maxMoney := 1000
  blockSubsidy_nonneg := by decide
  maxMoney_pos := by decide

def afterPayment : ConsensusState :=
  { afterGenesis with
    utxos := ((∅ : UTXOSet).insert ⟨paymentTxid, 0⟩ ⟨7, aliceAddress⟩).insert ⟨rewardTxid, 0⟩ ⟨53, aliceAddress⟩ }

omit [Ed25519] in
theorem applyBlock_paymentBlock :
    (@applyBlock aliceVerify paymentBlock 1 genesisHash).call afterGenesis = (.ok 3, afterPayment) := by
  decide +kernel

omit [Ed25519] in
/-- The genesis output is gone after the payment, and its owner signed for it. -/
theorem paymentBlock_authorised : afterPayment.utxos.lookup ⟨genesisTxid, 0⟩ = none ∧
    ∃ t ∈ paymentBlock.transactions, t.isCoinbase = false ∧
      @Authorises aliceVerify t ⟨genesisTxid, 0⟩ ⟨10, aliceAddress⟩ := by
  have hgone : afterPayment.utxos.lookup ⟨genesisTxid, 0⟩ = none := by decide
  have h := (@applyBlock_authorised aliceVerify _ _ _ _ _ _ applyBlock_paymentBlock).1
    ⟨genesisTxid, 0⟩ ⟨10, aliceAddress⟩ (by decide)
  rw [hgone] at h
  exact ⟨hgone, h.resolve_left (by simp)⟩

end BCC.Proof
