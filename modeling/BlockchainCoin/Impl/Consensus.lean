import BlockchainCoin.Impl.Transaction

/-!
# `consensus.py`: state transition rules

The UTXO set and the rules by which transactions and blocks change it. The
methods of `ConsensusState` assign `self.utxos` once, as their last step, so
they are functions to the next state; `BlockProcessor.apply_block` changes the
live state once for each transaction, so it is a `Method` of that state, and an
exception in the middle of it would leave the transactions before it applied.
-/

namespace BCC.Impl

open PyError

/-! ## The UTXO set -/

/-- `UTXOSet`: the dictionary from outpoints to their unspent outputs. Values are immutable here, so
`copy` is the value itself. -/
abbrev UTXOSet := AList fun _ : OutPoint => TxOutput

/-- Dictionaries are compared by their entries, in a way that evaluates. -/
instance : DecidableEq UTXOSet := fun _ _ => decidable_of_iff _ AList.ext_iff.symm

namespace UTXOSet

def add (u : UTXOSet) (outpoint : OutPoint) (output : TxOutput) : Except PyError UTXOSet := do
  raiseIf (outpoint ∈ u) (consensusError "duplicate utxo")
  return u.insert outpoint output

def spend (u : UTXOSet) (outpoint : OutPoint) : Except PyError UTXOSet := do
  raiseIf (outpoint ∉ u) (consensusError "missing or already spent output")
  return u.erase outpoint

def get (u : UTXOSet) (outpoint : OutPoint) : Except PyError TxOutput :=
  match u.lookup outpoint with
  | some output => .ok output
  | none => .error (consensusError "missing output")

def total (u : UTXOSet) : Int := (u.entries.map fun e => e.2.amount).sum

/-- The order of `sorted(..., key=(txid, index))`. -/
def entryLe (a b : OutPoint × TxOutput) : Prop :=
  a.1.txid < b.1.txid ∨ a.1.txid = b.1.txid ∧ a.1.index ≤ b.1.index

instance : DecidableRel entryLe := fun a b =>
  inferInstanceAs (Decidable (a.1.txid < b.1.txid ∨ a.1.txid = b.1.txid ∧ a.1.index ≤ b.1.index))

/-- `UTXOSet.entries` -/
def sortedEntries (u : UTXOSet) : List (OutPoint × TxOutput) :=
  (u.entries.map fun e => (e.1, e.2)).insertionSort entryLe

/-- `UTXOSet.entries_for_address` -/
def entriesForAddress (u : UTXOSet) (address : Str) : List (OutPoint × TxOutput) :=
  u.sortedEntries.filter fun entry => entry.2.address = address

end UTXOSet

/-! ## The consensus state -/

/-- `ConsensusState`, with what its constructor checks. -/
@[ext]
structure ConsensusState where
  utxos : UTXOSet
  blockSubsidy : Int
  maxMoney : Int
  blockSubsidy_nonneg : 0 ≤ blockSubsidy
  maxMoney_pos : 0 < maxMoney

instance : DecidableEq ConsensusState := fun _ _ => decidable_of_iff' _ ConsensusState.ext_iff

/-- The constructor of `ConsensusState`. -/
def ConsensusState.init (utxos : UTXOSet) (blockSubsidy maxMoney : Int) : Except PyError ConsensusState :=
  if h₁ : blockSubsidy < 0 then .error (consensusError "block subsidy cannot be negative")
  else if h₂ : maxMoney ≤ 0 then .error (consensusError "max money must be positive")
  else .ok ⟨utxos, blockSubsidy, maxMoney, Int.not_lt.mp h₁, Int.not_le.mp h₂⟩

/-- The sum of a transaction's output amounts. -/
def outputTotal (outputs : List TxOutput) : Int := (outputs.map (·.amount)).sum

def validateTransactionVersion (t : ConsensusTransaction) : Except PyError Unit :=
  raiseIf (t.version ≠ 1) (consensusError "transaction version is unsupported")

/-- The loop over the inputs, spending each one's previous output. -/
def spendInputs : UTXOSet → List TxInput → Except PyError UTXOSet
  | u, [] => .ok u
  | u, x :: xs => do
    let u' ← u.spend x.previousOutput
    spendInputs u' xs

/-- The loop over the outputs of `t` from the one at `index` on, adding each under `t`'s txid. -/
def addOutputs (t : ConsensusTransaction) : UTXOSet → Nat → List TxOutput → Except PyError UTXOSet
  | u, _, [] => .ok u
  | u, index, o :: os => do
    let txid ← t.txid
    let u' ← u.add ⟨txid, index⟩ o
    addOutputs t u' (index + 1) os

/-- A coinbase input carries no witness. -/
def coinbaseSigned (t : ConsensusTransaction) : Bool :=
  match t.inputs with
  | x :: _ => x.signature.isSome || x.publicKey.isSome
  | [] => false

/-- `_validate_input_signature` -/
def validateInputSignature [Ed25519] (t : ConsensusTransaction) (inputIndex : Nat) (x : TxInput)
    (previousOutput : TxOutput) : Except PyError Unit :=
  match x.publicKey, x.signature with
  | some d, some signature => do
    raiseIf (d.isEmpty ∨ signature = []) (consensusError "input is missing witness")
    match PublicKey.fromDict d with
    | none => throw (consensusError "invalid input public key")
    | some publicKey =>
      raiseIf (publicKey.address ≠ previousOutput.address)
        (consensusError "input public key does not own output")
      raiseIf (¬ verifySignature publicKey (t.signingMessage inputIndex) signature)
        (consensusError "invalid input signature")
  | _, _ => throw (consensusError "input is missing witness")

namespace ConsensusState

/-- The body of the loop of `_validate_outputs`. -/
def validateOutput (s : ConsensusState) (output : TxOutput) : Except PyError Unit := do
  raiseIf (output.amount ≤ 0) (consensusError "output amount must be positive")
  raiseIf (s.maxMoney < output.amount) (consensusError "output exceeds maximum supply")
  raiseIf (¬ isValidAddress output.address) (consensusError "invalid output address")

/-- `_validate_outputs` -/
def validateOutputs (s : ConsensusState) (outputs : List TxOutput) : Except PyError Unit := do
  raiseIf (outputs = []) (consensusError "transaction has no outputs")
  outputs.forM s.validateOutput

/-- `_validate_coinbase` -/
def validateCoinbase (s : ConsensusState) (t : ConsensusTransaction) : Except PyError Int := do
  raiseIf (t.inputs.length ≠ 1) (consensusError "coinbase must have exactly one input")
  raiseIf (coinbaseSigned t) (consensusError "coinbase input must not be signed")
  raiseIf (s.blockSubsidy < outputTotal t.outputs) (consensusError "coinbase pays more than subsidy")
  return 0

/-- The loop over the inputs of `t` from the one at `inputIndex` on: `seen` are the outpoints before
it and `inputTotal` their amounts. -/
def validateInputs [Ed25519] (s : ConsensusState) (t : ConsensusTransaction) :
    Nat → List OutPoint → Int → List TxInput → Except PyError Int
  | _, _, inputTotal, [] => .ok inputTotal
  | inputIndex, seen, inputTotal, x :: xs => do
    raiseIf (x.previousOutput ∈ seen) (consensusError "transaction double-spends an input")
    let previousOutput ← s.utxos.get x.previousOutput
    validateInputSignature t inputIndex x previousOutput
    validateInputs s t (inputIndex + 1) (x.previousOutput :: seen) (inputTotal + previousOutput.amount) xs

/-- `ConsensusState.validate_transaction` -/
def validateTransaction [Ed25519] (s : ConsensusState) (t : ConsensusTransaction) :
    Except PyError Int := do
  validateTransactionVersion t
  s.validateOutputs t.outputs
  if t.isCoinbase then
    s.validateCoinbase t
  else
    raiseIf (t.inputs = []) (consensusError "transaction has no inputs")
    let inputTotal ← s.validateInputs t 0 [] 0 t.inputs
    raiseIf (inputTotal < outputTotal t.outputs) (consensusError "transaction spends more than its inputs")
    return inputTotal - outputTotal t.outputs

/-- The last steps of every transition: the supply check, then `self.utxos = updated`. -/
def commit (s : ConsensusState) (updated : UTXOSet) : Except PyError ConsensusState := do
  raiseIf (s.maxMoney < updated.total) (consensusError "utxo set exceeds maximum supply")
  return { s with utxos := updated }

/-- `ConsensusState.apply_transaction` -/
def applyTransaction [Ed25519] (s : ConsensusState) (t : ConsensusTransaction) :
    Except PyError (Int × ConsensusState) := do
  let fee ← s.validateTransaction t
  let spent ← if t.isCoinbase then pure s.utxos else spendInputs s.utxos t.inputs
  let updated ← addOutputs t spent 0 t.outputs
  let s' ← s.commit updated
  return (fee, s')

/-- `ConsensusState.create_coinbase` -/
def createCoinbase (s : ConsensusState) (minerAddress : Str) (fees height : Int) :
    Except PyError ConsensusTransaction := do
  raiseIf (¬ isValidAddress minerAddress) (consensusError "invalid miner address")
  raiseIf (fees < 0) (consensusError "fees cannot be negative")
  raiseIf (height < 0) (consensusError "height cannot be negative")
  raiseIf (s.maxMoney < s.utxos.total + s.blockSubsidy) (consensusError "coinbase would exceed maximum supply")
  return ⟨[⟨⟨zeroHash, -(height + 1)⟩, none, none⟩], [⟨s.blockSubsidy + fees, minerAddress⟩], 1⟩

/-- `ConsensusState.apply_block_coinbase` -/
def applyBlockCoinbase (s : ConsensusState) (t : ConsensusTransaction) (fees : Int) :
    Except PyError ConsensusState := do
  validateTransactionVersion t
  s.validateOutputs t.outputs
  raiseIf (¬ t.isCoinbase) (consensusError "block reward transaction must be coinbase")
  raiseIf (fees < 0) (consensusError "fees cannot be negative")
  raiseIf (coinbaseSigned t) (consensusError "coinbase input must not be signed")
  raiseIf (s.blockSubsidy + fees < outputTotal t.outputs)
    (consensusError "coinbase pays more than subsidy plus fees")
  let updated ← addOutputs t s.utxos 0 t.outputs
  s.commit updated

/-- `ConsensusState.apply_genesis_coinbase` -/
def applyGenesisCoinbase (s : ConsensusState) (t : ConsensusTransaction) :
    Except PyError ConsensusState := do
  validateTransactionVersion t
  s.validateOutputs t.outputs
  raiseIf (¬ t.isCoinbase) (consensusError "genesis transaction must be coinbase")
  raiseIf (coinbaseSigned t) (consensusError "coinbase input must not be signed")
  let updated ← addOutputs t s.utxos 0 t.outputs
  s.commit updated

/-- The loop of `validate_block` over the transactions after the coinbase, with the fees so far. -/
def applyTransactions [Ed25519] : Int → ConsensusState → List ConsensusTransaction →
    Except PyError (Int × ConsensusState)
  | fees, s, [] => .ok (fees, s)
  | fees, s, t :: ts => do
    let (fee, s') ← s.applyTransaction t
    applyTransactions (fees + fee) s' ts

/-- The coinbase rule a block falls under. -/
def applyCoinbaseOf (s : ConsensusState) (b : ConsensusBlock) (t : ConsensusTransaction) (fees : Int) :
    Except PyError ConsensusState :=
  if b.height = 0 ∧ b.previousHash = zeroHash then s.applyGenesisCoinbase t
  else s.applyBlockCoinbase t fees

end ConsensusState

/-! ## Blocks -/

namespace BlockProcessor

/-- The checks of `validate_block` that do not read the state; they return the block's coinbase and
its other transactions. -/
def checkBlock (b : ConsensusBlock) (expectedHeight : Int) (expectedPreviousHash : Str) :
    Except PyError (ConsensusTransaction × List ConsensusTransaction) := do
  raiseIf (b.version ≠ 1) (consensusError "block version is unsupported")
  raiseIf (b.height ≠ expectedHeight) (consensusError "block height is invalid")
  raiseIf (b.previousHash ≠ expectedPreviousHash) (consensusError "block previous hash is invalid")
  raiseIf (b.difficulty < 0) (consensusError "block difficulty cannot be negative")
  let hash ← b.hash
  raiseIf (¬ (List.replicate b.difficulty.toNat '0').isPrefixOf hash)
    (consensusError "block proof of work is invalid")
  let root ← calculateTransactionRoot b.transactions
  raiseIf (b.transactionRoot ≠ root) (consensusError "block transaction root is invalid")
  match b.transactions with
  | [] => throw (consensusError "block has no transactions")
  | coinbase :: rest =>
    raiseIf (¬ coinbase.isCoinbase) (consensusError "first transaction must be coinbase")
    raiseIf (rest.any (·.isCoinbase)) (consensusError "block has multiple coinbase transactions")
    return (coinbase, rest)

/-- `validate_block`, with the candidate state it builds. -/
def validateCandidate [Ed25519] (s : ConsensusState) (b : ConsensusBlock) (expectedHeight : Int)
    (expectedPreviousHash : Str) : Except PyError (Int × ConsensusState) := do
  let (coinbase, rest) ← checkBlock b expectedHeight expectedPreviousHash
  let (fees, candidate) ← ConsensusState.applyTransactions 0 s rest
  let candidate ← candidate.applyCoinbaseOf b coinbase fees
  return (fees, candidate)

/-- `BlockProcessor.validate_block` -/
def validateBlock [Ed25519] (s : ConsensusState) (b : ConsensusBlock) (expectedHeight : Int)
    (expectedPreviousHash : Str) : Except PyError Int := do
  let (fees, _) ← validateCandidate s b expectedHeight expectedPreviousHash
  return fees

/-- `self.state.apply_transaction(transaction)` on the live state, its fee not used. -/
def applyLive [Ed25519] (t : ConsensusTransaction) : Method ConsensusState PyError Unit :=
  Method.assigning fun s => do
    let (_, s') ← s.applyTransaction t
    return ((), s')

/-- `BlockProcessor.apply_block` -/
def applyBlock [Ed25519] (b : ConsensusBlock) (expectedHeight : Int) (expectedPreviousHash : Str) :
    Method ConsensusState PyError Int := do
  let fees ← Method.reading fun s => validateBlock s b expectedHeight expectedPreviousHash
  b.transactions.tail.forM applyLive
  match b.transactions with
  | [] => pure ()
  | coinbase :: _ => Method.assigning fun s => do
    let s' ← s.applyCoinbaseOf b coinbase fees
    return ((), s')
  return fees

end BlockProcessor

/-- The loop of `rebuild_state_from_blocks` over the blocks from `expectedHeight` on. -/
def replayBlocks [Ed25519] (s : ConsensusState) (expectedHeight : Int) (expectedPreviousHash : Str) :
    List ConsensusBlock → Except PyError ConsensusState
  | [] => .ok s
  | b :: bs => do
    let (_, s') ← (BlockProcessor.applyBlock b expectedHeight expectedPreviousHash).onLocal s
    let hash ← b.hash
    replayBlocks s' (expectedHeight + 1) hash bs

/-- `rebuild_state_from_blocks` -/
def rebuildStateFromBlocks [Ed25519] (blocks : List ConsensusBlock) (blockSubsidy maxMoney : Int) :
    Except PyError ConsensusState := do
  let s ← ConsensusState.init ∅ blockSubsidy maxMoney
  replayBlocks s 0 zeroHash blocks

end BCC.Impl
