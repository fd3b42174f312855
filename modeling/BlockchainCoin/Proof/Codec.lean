import BlockchainCoin.Impl.Transaction

/-!
# Decoding what was encoded

`Reads r bs a` says that the reader `r` takes `bs` off the front of any payload
and returns `a`. Every encoder has a reader that reads its bytes back, so a
block or transaction that can be encoded is decoded again
(`fromBytes_toBytes_transaction`, `fromBytes_toBytes_block`) in its stored form:
hash texts in lower case without white space, and public keys without the
entries that are not encoded. The stored form has the same encoding, so the
same txid and the same hash.
-/

namespace BCC.Proof

open BCC.Impl

/-! ## Readers -/

/-- `r` reads `bs` as `a`, whatever follows. -/
def Reads {α : Type} (r : Reader α) (bs : Bytes) (a : α) : Prop := ∀ rest, r (bs ++ rest) = .ok (a, rest)

namespace Reads

variable {α β : Type}

theorem pure (a : α) : Reads (Pure.pure a) [] a := fun _ => rfl

theorem bind {r : Reader α} {f : α → Reader β} {bs cs : Bytes} {a : α} {b : β} (hr : Reads r bs a)
    (hf : Reads (f a) cs b) : Reads (r >>= f) (bs ++ cs) b := fun rest => by
  have h := hr (cs ++ rest)
  rw [← List.append_assoc] at h
  simp only [Bind.bind, StateT.bind, h]
  exact hf rest

/-- The last step of a reader returns without reading more. -/
theorem last {r : Reader α} {f : α → Reader β} {bs : Bytes} {a : α} {b : β} (hr : Reads r bs a)
    (hf : Reads (f a) [] b) : Reads (r >>= f) bs b := by
  have h := hr.bind hf
  rwa [List.append_nil] at h

theorem map {r : Reader α} {bs : Bytes} {a : α} (f : α → β) (hr : Reads r bs a) :
    Reads (f <$> r) bs (f a) := fun rest => by
  simp only [Functor.map, StateT.map, hr rest]
  rfl

theorem read (bs : Bytes) {n : Nat} (hn : bs.length = n) : Reads (Reader.read n) bs bs := fun rest => by
  subst hn
  simp [Reader.read]

theorem readMany {r : Reader α} {bss : List Bytes} {as : List α} (h : List.Forall₂ (Reads r) bss as) :
    Reads (Reader.readMany r as.length) bss.flatten as := by
  induction h with
  | nil => exact .pure _
  | cons ha _ ih =>
    rw [List.flatten_cons, List.length_cons, Reader.readMany]
    exact ha.bind (ih.last (.pure _))

theorem readExpected (expected : Bytes) (message : String) :
    Reads (Reader.readExpected expected message) expected () := by
  refine (Reads.read expected rfl).last ?_
  rw [if_pos rfl]
  exact .pure _

theorem readOptional_none (r : Reader α) (message : String) :
    Reads (Reader.readOptional r message) [0] none :=
  (Reads.read [0] rfl).last (.pure _)

theorem readOptional_some {r : Reader α} {bs : Bytes} {a : α} (h : Reads r bs a) (message : String) :
    Reads (Reader.readOptional r message) (1 :: bs) (some a) :=
  (Reads.read [1] rfl).bind (h.map some)

theorem run'_finished {r : Reader α} {bs : Bytes} {a : α} (h : Reads r bs a) :
    (Reader.finished r).run' bs = .ok a := by
  have h := h []
  rw [List.append_nil] at h
  simp only [Reader.finished, StateT.run', Bind.bind, StateT.bind, h]
  rfl

end Reads

/-! ## Fields -/

theorem reads_decodeInt {value : Int} {bs : Bytes} (h : encodeInt value = .ok bs) :
    Reads decodeInt bs value := by
  simp only [encodeInt, bind_eq_ok, exists_unit, raiseIf_eq_ok, not_or, not_lt, not_le, pure_eq_ok] at h
  obtain ⟨⟨hlo, hhi⟩, rfl⟩ := h
  have hn : (value % 2 ^ 64).toNat < 256 ^ 8 := by omega
  have hval : (if (((value % 2 ^ 64).toNat : Nat) : Int) < 2 ^ 63 then (((value % 2 ^ 64).toNat : Nat) : Int)
      else ((value % 2 ^ 64).toNat : Nat) - 2 ^ 64) = value := by
    split <;> omega
  refine (Reads.read _ (length_beBytes _ _)).last ?_
  simp only [ofBeBytes_beBytes hn, hval]
  exact .pure _

theorem reads_decodeUint {value : Int} {bs : Bytes} (h : encodeUint value = .ok bs) :
    0 ≤ value ∧ Reads decodeUint bs value.toNat := by
  simp only [encodeUint, bind_eq_ok, exists_unit, raiseIf_eq_ok, not_lt, not_le, pure_eq_ok] at h
  obtain ⟨hlo, hhi, rfl⟩ := h
  have hn : value.toNat < 256 ^ 8 := by omega
  refine ⟨hlo, (Reads.read _ (length_beBytes _ _)).last ?_⟩
  rw [ofBeBytes_beBytes hn]
  exact .pure _

theorem reads_decodeFloat (value : UInt64) : Reads decodeFloat (encodeFloat value) value := by
  have hn : value.toNat < 256 ^ 8 := value.toNat_lt
  refine (Reads.read _ (length_beBytes _ _)).last ?_
  rw [ofBeBytes_beBytes hn, UInt64.ofNat_toNat]
  exact .pure _

theorem reads_decodeBytes {value bs : Bytes} (h : encodeBytes value = .ok bs) : Reads decodeBytes bs value := by
  simp only [encodeBytes, bind_eq_ok, exists_unit, raiseIf_eq_ok, not_lt, pure_eq_ok] at h
  obtain ⟨hlen, rfl⟩ := h
  refine (Reads.read _ (length_beBytes _ _)).bind (.read _ ?_)
  rw [ofBeBytes_beBytes (by omega)]

theorem reads_decodeText {value : Str} {bs : Bytes} (h : encodeText value = .ok bs) :
    Reads decodeText bs value := by
  refine (reads_decodeBytes h).last ?_
  rw [utf8Decode_utf8Encode]
  exact .pure _

theorem encodeHash_eq_ok {value : Str} {bs : Bytes} :
    encodeHash value = .ok bs ↔ hexDecode value = some bs ∧ bs.length = 32 := by
  unfold encodeHash
  cases hexDecode value with
  | none => simp [throw, throwThe, MonadExceptOf.throw]
  | some raw =>
    simp only [bind_eq_ok, exists_unit, raiseIf_eq_ok, not_not, pure_eq_ok, Option.some.injEq]
    constructor
    · rintro ⟨h, rfl⟩
      exact ⟨rfl, h⟩
    · rintro ⟨rfl, h⟩
      exact ⟨h, rfl⟩

/-! ### Lengths -/

theorem length_encodeInt {value : Int} {bs : Bytes} (h : encodeInt value = .ok bs) : bs.length = 8 := by
  simp only [encodeInt, bind_eq_ok, exists_unit, raiseIf_eq_ok, pure_eq_ok] at h
  rw [← h.2, length_beBytes]

theorem length_encodeUint {value : Int} {bs : Bytes} (h : encodeUint value = .ok bs) : bs.length = 8 := by
  simp only [encodeUint, bind_eq_ok, exists_unit, raiseIf_eq_ok, pure_eq_ok] at h
  rw [← h.2.2, length_beBytes]

theorem length_outPoint {o : OutPoint} {bs : Bytes} (h : o.toBytes = .ok bs) : bs.length = 40 := by
  simp only [OutPoint.toBytes, bind_eq_ok, pure_eq_ok] at h
  obtain ⟨txid, htxid, index, hindex, rfl⟩ := h
  rw [List.length_append, (encodeHash_eq_ok.mp htxid).2, length_encodeInt hindex]

/-! ## The stored form -/

/-- The text a hash is read back as. -/
def storedHash (value : Str) : Str :=
  match hexDecode value with
  | some raw => hexEncode raw
  | none => value

theorem storedHash_of_encodeHash {value : Str} {bs : Bytes} (h : encodeHash value = .ok bs) :
    storedHash value = hexEncode bs := by
  rw [storedHash, (encodeHash_eq_ok.mp h).1]

@[simp] theorem storedHash_hexEncode (bs : Bytes) : storedHash (hexEncode bs) = hexEncode bs := by
  rw [storedHash, hexDecode_hexEncode]

theorem storedHash_storedHash (value : Str) : storedHash (storedHash value) = storedHash value := by
  cases h : hexDecode value with
  | none => simp only [storedHash, h]
  | some raw => simp only [storedHash, h, hexDecode_hexEncode]

theorem encodeHash_hexEncode {bs : Bytes} (h : bs.length = 32) : encodeHash (hexEncode bs) = .ok bs :=
  encodeHash_eq_ok.mpr ⟨hexDecode_hexEncode bs, h⟩

@[simp] theorem encodeHash_storedHash (value : Str) : encodeHash (storedHash value) = encodeHash value := by
  unfold encodeHash storedHash
  cases h : hexDecode value with
  | none => simp only [h]
  | some raw => simp only [hexDecode_hexEncode]

def storedOutPoint (o : OutPoint) : OutPoint := ⟨storedHash o.txid, o.index⟩

def storedKey (d : PublicKeyDict) : PublicKeyDict := ⟨some (d.algorithm.getD []), some (d.key.getD []), []⟩

def storedInput (x : TxInput) : TxInput :=
  ⟨storedOutPoint x.previousOutput, x.signature, x.publicKey.map storedKey⟩

/-- The transaction that decoding `t`'s encoding gives. -/
def storedTransaction (t : ConsensusTransaction) : ConsensusTransaction :=
  { t with inputs := t.inputs.map storedInput }

/-- The block that decoding `b`'s encoding gives. -/
def storedBlock (b : ConsensusBlock) : ConsensusBlock :=
  { b with
    previousHash := storedHash b.previousHash
    transactionRoot := storedHash b.transactionRoot
    transactions := b.transactions.map storedTransaction }

/-! The stored form has the same encoding. -/

@[simp] theorem toBytes_storedInput (x : TxInput) : (storedInput x).toBytes = x.toBytes := by
  cases x with
  | mk o signature publicKey =>
    simp only [storedInput, storedOutPoint, TxInput.toBytes, TxInput.witnessBytes, OutPoint.toBytes,
      encodeHash_storedHash, TxInput.signatureBytes, TxInput.publicKeyBytes]
    cases publicKey <;> rfl

@[simp] theorem toBytes_storedTransaction (t : ConsensusTransaction) :
    (storedTransaction t).toBytes = t.toBytes := by
  have h : (fun x : TxInput => x.toBytes) ∘ storedInput = fun x : TxInput => x.toBytes :=
    funext fun x => toBytes_storedInput x
  simp only [storedTransaction, ConsensusTransaction.toBytes, List.length_map, List.mapM_map, h]

@[simp] theorem txid_storedTransaction (t : ConsensusTransaction) : (storedTransaction t).txid = t.txid := by
  rw [ConsensusTransaction.txid, ConsensusTransaction.txid, toBytes_storedTransaction]

@[simp] theorem headerBytes_storedBlock (b : ConsensusBlock) : (storedBlock b).headerBytes = b.headerBytes := by
  simp only [storedBlock, ConsensusBlock.headerBytes, encodeHash_storedHash]

@[simp] theorem hash_storedBlock (b : ConsensusBlock) : (storedBlock b).hash = b.hash := by
  rw [ConsensusBlock.hash, ConsensusBlock.hash, headerBytes_storedBlock]

/-! ## Transactions -/

theorem reads_outPoint {o : OutPoint} {bs : Bytes} (h : o.toBytes = .ok bs) :
    Reads OutPoint.fromReader bs (storedOutPoint o) := by
  simp only [OutPoint.toBytes, bind_eq_ok, pure_eq_ok] at h
  obtain ⟨txid, htxid, index, hindex, rfl⟩ := h
  rw [storedOutPoint, storedHash_of_encodeHash htxid]
  exact (Reads.read _ (encodeHash_eq_ok.mp htxid).2).bind ((reads_decodeInt hindex).last (.pure _))

theorem reads_signature {x : TxInput} {bs : Bytes} (h : x.signatureBytes = .ok bs) (message : String) :
    Reads (Reader.readOptional decodeText message) bs x.signature := by
  unfold TxInput.signatureBytes at h
  cases hx : x.signature with
  | none =>
    rw [hx, pure_eq_ok] at h
    exact h ▸ Reads.readOptional_none _ _
  | some s =>
    rw [hx, map_eq_ok] at h
    obtain ⟨cs, hcs, rfl⟩ := h
    exact (reads_decodeText hcs).readOptional_some message

theorem reads_publicKey {x : TxInput} {bs : Bytes} (h : x.publicKeyBytes = .ok bs) (message : String) :
    Reads (Reader.readOptional decodePublicKey message) bs (x.publicKey.map storedKey) := by
  unfold TxInput.publicKeyBytes at h
  cases hx : x.publicKey with
  | none =>
    rw [hx, pure_eq_ok] at h
    exact h ▸ Reads.readOptional_none _ _
  | some d =>
    simp only [hx, bind_eq_ok, pure_eq_ok] at h
    obtain ⟨algorithm, ha, key, hk, rfl⟩ := h
    have hread : Reads decodePublicKey (algorithm ++ key) (storedKey d) :=
      (reads_decodeText ha).bind ((reads_decodeText hk).last (.pure _))
    exact hread.readOptional_some message

theorem reads_input {x : TxInput} {bs : Bytes} (h : x.toBytes = .ok bs) :
    Reads TxInput.fromReader bs (storedInput x) := by
  simp only [TxInput.toBytes, TxInput.witnessBytes, ite_true, bind_eq_ok, pure_eq_ok] at h
  obtain ⟨payload, hpayload, witness, ⟨sig, hsig, key, hkey, rfl⟩, rfl⟩ := h
  refine (reads_outPoint hpayload).bind ?_
  rw [if_pos rfl]
  exact (reads_signature hsig _).bind ((reads_publicKey hkey _).last (.pure _))

theorem reads_output {o : TxOutput} {bs : Bytes} (h : o.toBytes = .ok bs) : Reads TxOutput.fromReader bs o := by
  simp only [TxOutput.toBytes, bind_eq_ok, pure_eq_ok] at h
  obtain ⟨amount, hamount, address, haddress, rfl⟩ := h
  obtain ⟨hnn, hread⟩ := reads_decodeUint hamount
  have ho : (⟨(o.amount.toNat : Int), o.address⟩ : TxOutput) = o := by rw [Int.toNat_of_nonneg hnn]
  refine hread.bind ((reads_decodeText haddress).last ?_)
  rw [ho]
  exact .pure _

theorem reads_readMany {α β : Type} {r : Reader β} {encode : α → Except PyError Bytes} (stored : α → β)
    (hr : ∀ {a : α} {bs : Bytes}, encode a = .ok bs → Reads r bs (stored a)) {as : List α}
    {bss : List Bytes} (h : as.mapM encode = .ok bss) :
    Reads (Reader.readMany r as.length) bss.flatten (as.map stored) := by
  have hall : List.Forall₂ (Reads r) bss (as.map stored) := by
    rw [List.forall₂_map_right_iff]
    have h := mapM_eq_ok.mp h
    exact (h.imp fun _ _ h => hr h).flip
  rw [← List.length_map stored]
  exact Reads.readMany hall

/-- A transaction is read back when its inputs are, with or without their witnesses. -/
theorem reads_transaction_of {includeWitness : Bool} (stored : TxInput → TxInput)
    (hx : ∀ {x : TxInput} {bs : Bytes}, x.toBytes includeWitness = .ok bs →
      Reads (TxInput.fromReader includeWitness) bs (stored x))
    {t : ConsensusTransaction} {bs : Bytes} (h : t.toBytes includeWitness = .ok bs) :
    Reads (ConsensusTransaction.fromReader includeWitness) bs { t with inputs := t.inputs.map stored } := by
  simp only [ConsensusTransaction.toBytes, bind_eq_ok, pure_eq_ok] at h
  obtain ⟨version, hv, inputCount, hic, inputs, hi, outputCount, hoc, outputs, ho, rfl⟩ := h
  have hmagic : transactionMagic = transactionMagic.take 5 ++ transactionMagic.drop 5 := rfl
  rw [hmagic]
  simp only [List.append_assoc]
  refine (Reads.readExpected _ _).bind ((Reads.readExpected _ _).bind ((reads_decodeInt hv).bind
    ((reads_decodeUint hic).2.bind ?_)))
  refine (reads_readMany stored hx hi).bind ((reads_decodeUint hoc).2.bind ?_)
  refine (reads_readMany id reads_output ho).last ?_
  rw [List.map_id]
  exact .pure _

theorem reads_transaction {t : ConsensusTransaction} {bs : Bytes} (h : t.toBytes = .ok bs) :
    Reads ConsensusTransaction.fromReader bs (storedTransaction t) :=
  reads_transaction_of storedInput reads_input h

/-- A transaction that can be encoded is decoded again. -/
theorem fromBytes_toBytes_transaction {t : ConsensusTransaction} {bs : Bytes} (h : t.toBytes = .ok bs) :
    ConsensusTransaction.fromBytes bs = .ok (storedTransaction t) :=
  (reads_transaction h).run'_finished

/-! ## Blocks -/

theorem reads_transactionField {t : ConsensusTransaction} {bs : Bytes}
    (h : (t.toBytes >>= encodeBytes) = .ok bs) :
    Reads ConsensusTransaction.decodeField bs (storedTransaction t) := by
  obtain ⟨raw, hraw, h⟩ := bind_eq_ok.mp h
  refine (reads_decodeBytes h).last ?_
  rw [fromBytes_toBytes_transaction hraw]
  exact .pure _

/-- A block that can be encoded is decoded again. -/
theorem fromBytes_toBytes_block {b : ConsensusBlock} {bs : Bytes} (h : b.toBytes = .ok bs) :
    ConsensusBlock.fromBytes bs = .ok (storedBlock b) := by
  simp only [ConsensusBlock.toBytes, ConsensusBlock.headerBytes, bind_eq_ok, pure_eq_ok] at h
  obtain ⟨_, ⟨version, hv, height, hh, prev, hp, root, hr, difficulty, hd, nonce, hn, rfl⟩, count, hc, ts, hts,
    rfl⟩ := h
  have hmagic : blockMagic = blockMagic.take 6 ++ blockMagic.drop 6 := rfl
  rw [hmagic]
  simp only [List.append_assoc]
  refine Reads.run'_finished ?_
  refine (Reads.readExpected _ _).bind ((Reads.readExpected _ _).bind ((reads_decodeInt hv).bind
    ((reads_decodeInt hh).bind ((Reads.read _ (encodeHash_eq_ok.mp hp).2).bind
      ((Reads.read _ (encodeHash_eq_ok.mp hr).2).bind ((reads_decodeInt hd).bind
        ((reads_decodeFloat _).bind ((reads_decodeInt hn).bind ((reads_decodeUint hc).2.bind ?_)))))))))
  refine (reads_readMany storedTransaction reads_transactionField hts).last ?_
  rw [storedBlock, storedHash_of_encodeHash hp, storedHash_of_encodeHash hr]
  exact .pure _

end BCC.Proof
