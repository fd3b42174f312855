import BlockchainCoin.Impl.Dicts
import BlockchainCoin.Impl.Import

/-!
# `utxo_node.py`: summaries

What a node tells its operator about the chain, the mempool and an address. The
dictionaries are structures with the same fields.
-/

namespace BCC.Impl

open PyError

/-- An element of `mempool_summary`. -/
structure PendingSummary where
  txid : Str
  inputs : Nat
  outputs : Nat
  outputValue : Int
  fee : Option Int
  feeRate : Option Int
  bytes : Int
  valid : Bool
  deriving DecidableEq

/-- What `spendable_summary` returns. -/
structure SpendableSummary where
  address : Str
  balance : Int
  count : Nat
  utxos : List (OutPoint × TxOutput)

/-- What `block_summary` returns. -/
structure BlockSummary where
  hash : Str
  height : Int
  previousHash : Str
  difficulty : Int
  timestamp : UInt64
  nonce : Int
  transactionRoot : Str
  transactions : List Str
  transactionCount : Nat
  cumulativeWork : Int
  active : Bool
  deriving DecidableEq

/-- The values of the field `status`. -/
inductive TransactionStatus
  | confirmed
  | mempool
  deriving DecidableEq

/-- What `transaction_summary` returns. -/
structure TransactionSummary where
  txid : Str
  status : TransactionStatus
  coinbase : Bool
  inputs : List Json
  outputs : List Json
  inputCount : Nat
  outputCount : Nat
  outputValue : Int
  blockHash : Option Str
  height : Option Int

namespace ConsensusNode

section

variable [Ed25519]

/-! ## The mempool -/

/-- The `try` of `mempool_summary`: the fee and its rate, and the candidate afterwards. -/
def tryEntry (candidate : ConsensusState) (t : ConsensusTransaction) (size : Int) : Option (Int × Int) × ConsensusState :=
  match candidate.applyTransaction t with
  | .error _ => (none, candidate)
  | .ok (fee, candidate') =>
    match MempoolPolicy.feeRate fee size with
    | .error _ => (none, candidate')
    | .ok feeRate => (some (fee, feeRate), candidate')

/-- The loop of `mempool_summary`. -/
def summarizeEntries : ConsensusState → List ConsensusTransaction → Except PyError (List PendingSummary)
  | _, [] => .ok []
  | candidate, t :: ts => do
    let size ← MempoolPolicy.serializedSize t
    let entry := tryEntry candidate t size
    let txid ← t.txid
    let rest ← summarizeEntries entry.2 ts
    return ⟨txid, t.inputs.length, t.outputs.length, outputTotal t.outputs, entry.1.map Prod.fst, entry.1.map Prod.snd, size,
      entry.1.isSome⟩ :: rest

/-- `ConsensusNode.mempool_summary` -/
def mempoolSummary (n : ConsensusNode) : Except PyError (List PendingSummary) := summarizeEntries n.state n.mempool

/-! ## Addresses -/

omit [Ed25519] in
/-- `ConsensusNode.spendable_summary` -/
def spendableSummary (n : ConsensusNode) (address : Str) : Except PyError SpendableSummary := do
  raiseIf (isValidAddress address = false) (consensusNodeError "address is invalid")
  let entries := n.spendableOutputs address
  return ⟨address, (entries.map (·.2.amount)).sum, entries.length, entries⟩

/-! ## Blocks -/

omit [Ed25519] in
/-- The dictionary of `block_summary`. -/
def describeBlock (activeHashes : List Str) (block : ConsensusBlock) (stored : StoredConsensusBlock) :
    Except PyError BlockSummary := do
  let hash ← block.hash
  let txids ← block.transactions.mapM (·.txid)
  return ⟨hash, block.height, block.previousHash, block.difficulty, block.timestamp, block.nonce, block.transactionRoot,
    txids, block.transactions.length, stored.cumulativeWork, hash ∈ activeHashes⟩

/-- `ConsensusNode.block_summary` -/
def blockSummary (n : ConsensusNode) (blockHash : Option Str) (height : Option Int) : Except PyError BlockSummary := do
  raiseIf (blockHash.isNone = height.isNone) (consensusNodeError "provide exactly one of block_hash or height")
  let active ← n.forkChoice.activeChain n.disk.store
  let activeHashes ← active.blocks.mapM (·.hash)
  match height with
  | some height => do
    raiseIf (height < 0) (consensusNodeError "height cannot be negative")
    match active.blocks[height.toNat]? with
    | none => throw (consensusNodeError ("unknown active-chain block height: " ++ toString height))
    | some block => do
      let hash ← block.hash
      let stored ← n.disk.store.getBlock hash
      describeBlock activeHashes block stored
  | none => do
    let hash := blockHash.getD []
    let stored ← catchAs (n.disk.store.getBlock hash) isStorageError
      (consensusNodeError ("unknown block: " ++ String.ofList hash))
    describeBlock activeHashes stored.block stored

/-! ## Transactions -/

omit [Ed25519] in
/-- `_transaction_summary` -/
def describeTransaction (t : ConsensusTransaction) (status : TransactionStatus) (blockHash : Option Str) (height : Option Int) :
    Except PyError TransactionSummary := do
  let txid ← t.txid
  return ⟨txid, status, t.isCoinbase, t.inputs.map fun x => x.toDict, t.outputs.map TxOutput.toDict, t.inputs.length,
    t.outputs.length, outputTotal t.outputs, blockHash, height⟩

omit [Ed25519] in
/-- The first of the transactions with the txid. -/
def findTransaction (txid : Str) : List ConsensusTransaction → Except PyError (Option ConsensusTransaction)
  | [] => .ok none
  | t :: ts => do
    let existing ← t.txid
    if existing = txid then return some t else findTransaction txid ts

omit [Ed25519] in
/-- The loop of `transaction_summary` over the blocks: the first block that has the transaction, and the transaction. -/
def findConfirmed (txid : Str) : List ConsensusBlock → Except PyError (Option (ConsensusBlock × ConsensusTransaction))
  | [] => .ok none
  | block :: blocks => do
    match ← findTransaction txid block.transactions with
    | some t => return some (block, t)
    | none => findConfirmed txid blocks

/-- `ConsensusNode.transaction_summary` -/
def transactionSummary (n : ConsensusNode) (txid : Str) : Except PyError TransactionSummary := do
  let active ← n.forkChoice.activeChain n.disk.store
  match ← findConfirmed txid active.blocks with
  | some (block, t) => do
    let hash ← block.hash
    describeTransaction t .confirmed (some hash) (some block.height)
  | none => do
    match ← findTransaction txid n.mempool with
    | some t => describeTransaction t .mempool none none
    | none => throw (consensusNodeError ("unknown transaction: " ++ String.ofList txid))

end

end ConsensusNode

end BCC.Impl
