import BlockchainCoin.Impl.Dicts
import BlockchainCoin.Proof.Decode
import BlockchainCoin.Proof.Handshake

/-!
# The dictionary form of decoded transactions

The binary form says whether an input has a signature by a flag, the dictionary form by
whether its value is truthy. So the two agree except on an empty signature text, which
`from_dict` takes for none (`fromDict_toDict_transaction`, `fromDict_toDict_iff`).
-/

namespace BCC.Proof

open BCC.Impl

variable [PyText]

/-- The input without a signature that is the empty text. -/
def withoutEmpty (x : TxInput) : TxInput := { x with signature := x.signature.filter (· ≠ []) }

theorem fromDict_toDict_input {x : TxInput} (h : ∀ d, x.publicKey = some d → IsKey d) :
    TxInput.fromDict x.toDict = .ok (withoutEmpty x) := by
  obtain ⟨point, signature, publicKey⟩ := x
  have hread : (if (Json.ofKey publicKey).truthy then some <$> (Json.ofKey publicKey).asPublicKey else pure none) =
      .ok publicKey := by
    cases publicKey with
    | none => rfl
    | some d =>
      obtain ⟨algorithm, text, rfl, -⟩ := h d rfl
      rfl
  have hsignature : (if (Json.ofText signature).truthy then some (Json.ofText signature).text else none) =
      signature.filter (· ≠ []) := by
    cases signature with
    | none => rfl
    | some text => cases text <;> rfl
  refine bind_eq_ok.mpr ⟨.ofKey publicKey, rfl, bind_eq_ok.mpr ⟨publicKey, hread, bind_eq_ok.mpr ⟨point, rfl, ?_⟩⟩⟩
  refine bind_eq_ok.mpr ⟨.ofText signature, rfl, ?_⟩
  rw [hsignature]
  rfl

/-- What `from_dict` makes of the dictionary of a transaction. -/
theorem fromDict_toDict_transaction {t : ConsensusTransaction} (h : WellFormed t) :
    ConsensusTransaction.fromDict t.toDict = .ok { t with inputs := t.inputs.map withoutEmpty } := by
  have hinputs : (t.inputs.map fun x => x.toDict).mapM TxInput.fromDict = .ok (t.inputs.map withoutEmpty) := by
    rw [mapM_eq_ok, List.forall₂_map_left_iff, List.forall₂_map_right_iff, List.forall₂_same]
    exact fun x hx => fromDict_toDict_input (h.inputs x hx).publicKey
  have houtputs : (t.outputs.map TxOutput.toDict).mapM TxOutput.fromDict = .ok t.outputs := by
    rw [mapM_eq_ok, List.forall₂_map_left_iff, List.forall₂_same]
    exact fun o _ => rfl
  refine bind_eq_ok.mpr ⟨_, rfl, bind_eq_ok.mpr ⟨_, rfl, bind_eq_ok.mpr ⟨_, rfl, ?_⟩⟩⟩
  refine bind_eq_ok.mpr ⟨_, hinputs, bind_eq_ok.mpr ⟨_, houtputs, rfl⟩⟩

omit [PyText] in
theorem withoutEmpty_eq_iff {x : TxInput} : withoutEmpty x = x ↔ x.signature ≠ some [] := by
  obtain ⟨point, signature, publicKey⟩ := x
  rw [withoutEmpty, TxInput.mk.injEq]
  cases signature with
  | none => simp
  | some text => cases text <;> simp

/-- The dictionary form of a decoded transaction is read back as it was exactly where no signature is the empty text. -/
theorem fromDict_toDict_iff (payload : Bytes) (includeWitness : Bool) (t : ConsensusTransaction)
    (h : ConsensusTransaction.fromBytes payload includeWitness = .ok t) :
    ConsensusTransaction.fromDict t.toDict = .ok t ↔ ∀ x ∈ t.inputs, x.signature ≠ some [] := by
  obtain ⟨-, hw, -⟩ := (takes_transaction includeWitness).of_run' h
  rw [fromDict_toDict_transaction hw, Except.ok.injEq]
  have hmap : ({ t with inputs := t.inputs.map withoutEmpty } : ConsensusTransaction) = t ↔
      t.inputs.map withoutEmpty = t.inputs := by
    cases t
    simp only [ConsensusTransaction.mk.injEq, and_true]
  rw [hmap, ← List.forall₂_eq_eq_eq, List.forall₂_map_left_iff, List.forall₂_same]
  exact forall₂_congr fun x _ => withoutEmpty_eq_iff

/-- A transaction whose one input has the empty text for its signature. -/
def emptySigned : ConsensusTransaction where
  inputs := [⟨⟨zeroHash, 0⟩, some [], none⟩]
  outputs := []

omit [PyText]

theorem fromDict_toDict_payment :
    let _ := decoding [] .null
    ∃ payload, ConsensusTransaction.fromBytes payload = .ok payment ∧
      (ConsensusTransaction.fromDict payment.toDict = .ok payment ↔ ∀ x ∈ payment.inputs, x.signature ≠ some []) := by
  intro _
  have h : (payment.toBytes >>= fun payload => ConsensusTransaction.fromBytes payload) = .ok payment := by
    decide +kernel
  obtain ⟨payload, -, h⟩ := bind_eq_ok.mp h
  exact ⟨payload, h, fromDict_toDict_iff payload true payment h⟩

theorem emptySigned_changed :
    let _ := decoding [] .null
    ∃ payload t, ConsensusTransaction.fromBytes payload = .ok t ∧ ConsensusTransaction.fromDict t.toDict ≠ .ok t := by
  intro _
  have h : (emptySigned.toBytes >>= fun payload => ConsensusTransaction.fromBytes payload) = .ok emptySigned := by
    decide +kernel
  obtain ⟨payload, -, h⟩ := bind_eq_ok.mp h
  obtain ⟨-, hw, -⟩ := (takes_transaction true).of_run' h
  refine ⟨payload, emptySigned, h, ?_⟩
  rw [fromDict_toDict_transaction hw, ne_eq, Except.ok.injEq]
  decide

end BCC.Proof
