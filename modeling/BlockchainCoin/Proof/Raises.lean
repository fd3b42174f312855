import BlockchainCoin.Impl.Consensus
import BlockchainCoin.Proof.Block

/-!
# The exceptions of validation

Validating a transaction or a block raises a `ConsensusError`, or an error of the
encoding of one of its fields (`validateCandidate_raises`).
-/

namespace BCC.Proof

open BCC.Impl BlockProcessor

/-- The exceptions of the consensus rules and of the encoding. -/
def ofValidation : PyError → Bool
  | .consensusError _ | .structError _ | .valueError _ => true
  | _ => false

/-! ## Encoding -/

theorem encodeInt_raises (value : Int) : Raises (ofValidation ·) (encodeInt value) :=
  .bind (.raiseIf rfl) fun _ => .pure _

theorem encodeUint_raises (value : Int) : Raises (ofValidation ·) (encodeUint value) :=
  .bind (.raiseIf rfl) fun _ => .bind (.raiseIf rfl) fun _ => .pure _

theorem encodeBytes_raises (value : Bytes) : Raises (ofValidation ·) (encodeBytes value) :=
  .bind (.raiseIf rfl) fun _ => .pure _

theorem encodeText_raises (value : Str) : Raises (ofValidation ·) (encodeText value) := encodeBytes_raises _

theorem encodeHash_raises (value : Str) : Raises (ofValidation ·) (encodeHash value) := by
  unfold encodeHash
  split
  · exact .throw rfl
  · exact .bind (.raiseIf rfl) fun _ => .pure _

theorem toBytes_input_raises (x : TxInput) (includeWitness : Bool) :
    Raises (ofValidation ·) (x.toBytes includeWitness) := by
  have houtpoint : Raises (ofValidation ·) x.previousOutput.toBytes :=
    .bind (encodeHash_raises _) fun _ => .bind (encodeInt_raises _) fun _ => .pure _
  have hsignature : Raises (ofValidation ·) x.signatureBytes := by
    unfold TxInput.signatureBytes
    split
    · exact .pure _
    · exact .map _ (encodeText_raises _)
  have hkey : Raises (ofValidation ·) x.publicKeyBytes := by
    unfold TxInput.publicKeyBytes
    split
    · exact .pure _
    · exact .bind (encodeText_raises _) fun _ => .bind (encodeText_raises _) fun _ => .pure _
  refine .bind houtpoint fun _ => ?_
  split
  · exact .bind (.bind hsignature fun _ => .bind hkey fun _ => .pure _) fun _ => .pure _
  · exact .pure _

theorem toBytes_raises (t : ConsensusTransaction) : Raises (ofValidation ·) t.toBytes := by
  have houtput : ∀ o : TxOutput, Raises (ofValidation ·) o.toBytes := fun o =>
    .bind (encodeUint_raises _) fun _ => .bind (encodeText_raises _) fun _ => .pure _
  refine .bind (encodeInt_raises _) fun _ => .bind (encodeUint_raises _) fun _ => ?_
  refine .bind (.mapM (fun x => toBytes_input_raises x true) _) fun _ => ?_
  exact .bind (encodeUint_raises _) fun _ => .bind (.mapM houtput _) fun _ => .pure _

theorem txid_raises (t : ConsensusTransaction) : Raises (ofValidation ·) t.txid :=
  .bind (toBytes_raises t) fun _ => .pure _

theorem headerBytes_raises (b : ConsensusBlock) : Raises (ofValidation ·) b.headerBytes := by
  refine .bind (encodeInt_raises _) fun _ => .bind (encodeInt_raises _) fun _ => ?_
  refine .bind (encodeHash_raises _) fun _ => .bind (encodeHash_raises _) fun _ => ?_
  exact .bind (encodeInt_raises _) fun _ => .bind (encodeInt_raises _) fun _ => .pure _

theorem hash_raises (b : ConsensusBlock) : Raises (ofValidation ·) b.hash :=
  .bind (headerBytes_raises b) fun _ => .pure _

theorem toBytes_block_raises (b : ConsensusBlock) : Raises (ofValidation ·) b.toBytes := by
  refine .bind (headerBytes_raises b) fun _ => .bind (encodeUint_raises _) fun _ => ?_
  exact .bind (.mapM (fun t => .bind (toBytes_raises t) fun _ => encodeBytes_raises _) _) fun _ => .pure _

theorem calculateTransactionRoot_raises (ts : List ConsensusTransaction) :
    Raises (ofValidation ·) (calculateTransactionRoot ts) := by
  have hleaf : ∀ t : ConsensusTransaction, Raises (ofValidation ·) (t.txid >>= bytesFromhex) := fun t =>
    .bind (txid_raises t) fun txid => by
      unfold bytesFromhex
      split
      · exact .ok _
      · exact .error rfl
  unfold calculateTransactionRoot
  split
  · exact .pure _
  · exact .bind (.mapM hleaf _) fun _ => .pure _

/-! ## Transactions -/

theorem validateOutputs_raises (s : ConsensusState) (outputs : List TxOutput) :
    Raises (ofValidation ·) (s.validateOutputs outputs) := by
  have houtput : ∀ o, Raises (ofValidation ·) (s.validateOutput o) := fun _ =>
    .bind (.raiseIf rfl) fun _ => .bind (.raiseIf rfl) fun _ => .raiseIf rfl
  exact .bind (.raiseIf rfl) fun _ => .forM houtput _

theorem addOutputs_raises (t : ConsensusTransaction) :
    ∀ (u : UTXOSet) (index : Nat) (outputs : List TxOutput), Raises (ofValidation ·) (addOutputs t u index outputs)
  | _, _, [] => .ok _
  | _, _, _ :: outputs => .bind (txid_raises t) fun _ =>
    .bind (.bind (.raiseIf rfl) fun _ => .pure _) fun u' => addOutputs_raises t u' _ outputs

theorem spendInputs_raises : ∀ (u : UTXOSet) (xs : List TxInput), Raises (ofValidation ·) (spendInputs u xs)
  | _, [] => .ok _
  | _, _ :: xs => .bind (.bind (.raiseIf rfl) fun _ => .pure _) fun u' => spendInputs_raises u' xs

theorem commit_raises (s : ConsensusState) (u : UTXOSet) : Raises (ofValidation ·) (s.commit u) :=
  .bind (.raiseIf rfl) fun _ => .pure _

section

variable [Ed25519]

theorem validateInputSignature_raises (t : ConsensusTransaction) (j : Nat) (x : TxInput) (out : TxOutput) :
    Raises (ofValidation ·) (validateInputSignature t j x out) := by
  unfold validateInputSignature
  split
  · refine .bind (.raiseIf rfl) fun _ => ?_
    split
    · exact .throw rfl
    · exact .bind (.raiseIf rfl) fun _ => .raiseIf rfl
  · exact .throw rfl

theorem validateInputs_raises (s : ConsensusState) (t : ConsensusTransaction) :
    ∀ (xs : List TxInput) (j : Nat) (seen : List OutPoint) (total : Int),
      Raises (ofValidation ·) (s.validateInputs t j seen total xs)
  | [], _, _, _ => .ok _
  | x :: xs, _, _, _ => .bind (.raiseIf rfl) fun _ => .bind (by
      unfold UTXOSet.get
      split
      · exact .ok _
      · exact .error rfl) fun _ =>
    .bind (validateInputSignature_raises t _ x _) fun _ => validateInputs_raises s t xs _ _ _

theorem applyTransaction_raises (s : ConsensusState) (t : ConsensusTransaction) :
    Raises (ofValidation ·) (s.applyTransaction t) := by
  have hvalid : Raises (ofValidation ·) (s.validateTransaction t) := by
    refine .bind (.raiseIf rfl) fun _ => .bind (validateOutputs_raises s _) fun _ => ?_
    split
    · exact .bind (.raiseIf rfl) fun _ => .bind (.raiseIf rfl) fun _ => .bind (.raiseIf rfl) fun _ => .pure _
    · exact .bind (.raiseIf rfl) fun _ => .bind (validateInputs_raises s t _ _ _ _) fun _ =>
        .bind (.raiseIf rfl) fun _ => .pure _
  refine .bind hvalid fun fee => ?_
  extract_lets rest
  have hrest : ∀ u, Raises (ofValidation ·) (rest u) := fun u =>
    .bind (addOutputs_raises t u _ _) fun _ => .bind (commit_raises s _) fun _ => .pure _
  split
  · exact .bind (.pure _) hrest
  · exact .bind (spendInputs_raises _ _) hrest

theorem applyTransactions_raises : ∀ (ts : List ConsensusTransaction) (fees : Int) (s : ConsensusState),
    Raises (ofValidation ·) (ConsensusState.applyTransactions fees s ts)
  | [], _, _ => .ok _
  | t :: ts, _, s => .bind (applyTransaction_raises s t) fun _ => applyTransactions_raises ts _ _

/-! ## Blocks -/

omit [Ed25519] in
theorem checkBlock_raises (b : ConsensusBlock) (h : Int) (p : Str) : Raises (ofValidation ·) (checkBlock b h p) := by
  refine .bind (.raiseIf rfl) fun _ => .bind (.raiseIf rfl) fun _ => .bind (.raiseIf rfl) fun _ => ?_
  refine .bind (.raiseIf rfl) fun _ => .bind (hash_raises b) fun _ => .bind (.raiseIf rfl) fun _ => ?_
  refine .bind (calculateTransactionRoot_raises _) fun _ => .bind (.raiseIf rfl) fun _ => ?_
  split
  · exact .throw rfl
  · exact .bind (.raiseIf rfl) fun _ => .bind (.raiseIf rfl) fun _ => .pure _

omit [Ed25519] in
theorem applyCoinbaseOf_raises (s : ConsensusState) (b : ConsensusBlock) (t : ConsensusTransaction) (fees : Int) :
    Raises (ofValidation ·) (s.applyCoinbaseOf b t fees) := by
  have hend : ∀ u : UTXOSet, Raises (ofValidation ·) (addOutputs t u 0 t.outputs >>= s.commit) := fun u =>
    .bind (addOutputs_raises t u _ _) fun _ => commit_raises s _
  unfold ConsensusState.applyCoinbaseOf
  split
  · exact .bind (.raiseIf rfl) fun _ => .bind (validateOutputs_raises s _) fun _ => .bind (.raiseIf rfl) fun _ =>
      .bind (.raiseIf rfl) fun _ => hend _
  · exact .bind (.raiseIf rfl) fun _ => .bind (validateOutputs_raises s _) fun _ => .bind (.raiseIf rfl) fun _ =>
      .bind (.raiseIf rfl) fun _ => .bind (.raiseIf rfl) fun _ => .bind (.raiseIf rfl) fun _ => hend _

theorem validateCandidate_raises (s : ConsensusState) (b : ConsensusBlock) (h : Int) (p : Str) :
    Raises (ofValidation ·) (validateCandidate s b h p) :=
  .bind (checkBlock_raises b h p) fun _ => .bind (applyTransactions_raises _ _ _) fun _ =>
    .bind (applyCoinbaseOf_raises _ _ _ _) fun _ => .pure _

end

end BCC.Proof
