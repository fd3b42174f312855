import BlockchainCoin.Framework.Table
import BlockchainCoin.Impl.Consensus

/-!
# `storage.py`: the stores of a node

Each store is the tables of its database. A `with self.connection` block either
commits or, when a statement in it raises, leaves the tables as they were, so a
method that writes is a function to the store after it, which is used only when
it returns. Integers are bound as signed 64-bit values, and a second row with
the primary key of another is an `IntegrityError`.
-/

namespace BCC.Impl

open PyError

/-- Binding an integer to a statement. -/
def bindInt (value : Int) : Except PyError Unit :=
  raiseIf (value < -2 ^ 63 ∨ 2 ^ 63 ≤ value) (overflowError "Python int too large to convert to SQLite INTEGER")

/-! ## Fork store -/

/-- `StoredConsensusBlock` -/
structure StoredConsensusBlock where
  block : ConsensusBlock
  cumulativeWork : Int
  deriving DecidableEq

/-- `ChainParameters` -/
structure ChainParameters where
  difficulty : Int
  blockSubsidy : Int
  maxMoney : Int
  deriving DecidableEq

/-- A row of `fork_blocks`. -/
structure BlockRow where
  hash : Str
  height : Int
  previousHash : Str
  difficulty : Int
  cumulativeWork : Int
  data : Str
  deriving DecidableEq

/-- `SQLiteForkStore`: the table `fork_blocks`, and the chain parameters in `metadata`. -/
structure ForkStore where
  blocks : List BlockRow
  parameters : Option ChainParameters
  deriving DecidableEq

/-- `_encode_consensus_block` -/
def encodeConsensusBlock (b : ConsensusBlock) : Except PyError Str := do
  let payload ← b.toBytes
  return hexEncode payload

/-- `_decode_consensus_block` -/
def decodeConsensusBlock (payload : Str) : Except PyError ConsensusBlock := do
  let raw ← bytesFromhex payload
  ConsensusBlock.fromBytes raw

/-- `ORDER BY cumulative_work DESC, height DESC, hash ASC` -/
def BlockRow.better (a b : BlockRow) : Prop :=
  b.cumulativeWork < a.cumulativeWork ∨ a.cumulativeWork = b.cumulativeWork ∧
    (b.height < a.height ∨ a.height = b.height ∧ a.hash ≤ b.hash)

instance : DecidableRel BlockRow.better := fun a b =>
  inferInstanceAs (Decidable (b.cumulativeWork < a.cumulativeWork ∨ a.cumulativeWork = b.cumulativeWork ∧
    (b.height < a.height ∨ a.height = b.height ∧ a.hash ≤ b.hash)))

/-- `ORDER BY height ASC, hash ASC` -/
def BlockRow.before (a b : BlockRow) : Prop := a.height < b.height ∨ a.height = b.height ∧ a.hash ≤ b.hash

instance : DecidableRel BlockRow.before := fun a b =>
  inferInstanceAs (Decidable (a.height < b.height ∨ a.height = b.height ∧ a.hash ≤ b.hash))

/-- `_work_for`; the difficulty of a block that is stored is not negative. -/
def workFor (b : ConsensusBlock) : Int := 2 ^ b.difficulty.toNat

namespace ForkStore

def hasBlock (s : ForkStore) (hash : Str) : Bool := (Table.lookup BlockRow.hash s.blocks hash).isSome

/-- `SQLiteForkStore.get_block` -/
def getBlock (s : ForkStore) (hash : Str) : Except PyError StoredConsensusBlock :=
  match Table.lookup BlockRow.hash s.blocks hash with
  | none => .error (storageError ("unknown block: " ++ String.ofList hash))
  | some row => do
    let block ← decodeConsensusBlock row.data
    return ⟨block, row.cumulativeWork⟩

/-- The cumulative work of a block that is new to the store. -/
def newWork (s : ForkStore) (b : ConsensusBlock) : Except PyError Int :=
  if b.height = 0 then do
    raiseIf (b.previousHash ≠ zeroHash) (storageError "genesis block previous hash is invalid")
    return workFor b
  else do
    let parent ← s.getBlock b.previousHash
    raiseIf (b.height ≠ parent.block.height + 1) (storageError "block height does not extend parent")
    return parent.cumulativeWork + workFor b

/-- The integers of a row of `fork_blocks`. -/
def bindRow (row : BlockRow) : Except PyError Unit := do
  bindInt row.height
  bindInt row.difficulty
  bindInt row.cumulativeWork

/-- The row of a block that is new to the store. -/
def newRow (s : ForkStore) (b : ConsensusBlock) (hash : Str) : Except PyError BlockRow := do
  let cumulativeWork ← s.newWork b
  let payload ← encodeConsensusBlock b
  return ⟨hash, b.height, b.previousHash, b.difficulty, cumulativeWork, payload⟩

/-- `SQLiteForkStore.put_block` -/
def putBlock (s : ForkStore) (b : ConsensusBlock) : Except PyError (StoredConsensusBlock × ForkStore) := do
  let hash ← b.hash
  if s.hasBlock hash then
    let stored ← s.getBlock hash
    return (stored, s)
  else
    let row ← s.newRow b hash
    let blocks ← Table.insert BlockRow.hash bindRow
      (integrityError "UNIQUE constraint failed: fork_blocks.hash") s.blocks row
    return (⟨b, row.cumulativeWork⟩, { s with blocks := blocks })

/-- `SQLiteForkStore.best_tip` -/
def bestTip (s : ForkStore) : Except PyError (Option StoredConsensusBlock) :=
  match Table.first BlockRow.better s.blocks with
  | none => .ok none
  | some row => some <$> s.getBlock row.hash

/-- `ORDER BY hash ASC` -/
def hashLe (a b : BlockRow) : Prop := a.hash ≤ b.hash

instance : DecidableRel hashLe := fun a b => inferInstanceAs (Decidable (a.hash ≤ b.hash))

/-- `SQLiteForkStore.children_of` -/
def childrenOf (s : ForkStore) (hash : Str) : Except PyError (List StoredConsensusBlock) :=
  ((s.blocks.filter fun row => row.previousHash = hash).insertionSort hashLe).mapM fun row => s.getBlock row.hash

/-- The loop of `chain_to_tip`, from the block of hash `tipHash` down, with at most `fuel` blocks. A
walk longer than the table passes a block twice and does not end. -/
def walk (s : ForkStore) : Nat → Str → Except PyError (List StoredConsensusBlock)
  | 0, _ => .error endless
  | fuel + 1, tipHash => do
    let current ← s.getBlock tipHash
    if current.block.height = 0 then
      return [current]
    else
      let rest ← s.walk fuel current.block.previousHash
      return current :: rest

/-- `SQLiteForkStore.chain_to_tip` -/
def chainToTip (s : ForkStore) (tipHash : Str) : Except PyError (List StoredConsensusBlock) := do
  let chain ← s.walk (s.blocks.length + 1) tipHash
  return chain.reverse

/-- `SQLiteForkStore.active_chain` -/
def activeChain (s : ForkStore) : Except PyError (List StoredConsensusBlock) := do
  match ← s.bestTip with
  | none => return []
  | some tip =>
    let hash ← tip.block.hash
    s.chainToTip hash

/-- The hashes `iter_blocks` goes through. -/
def iterHashes (s : ForkStore) : List Str := (s.blocks.insertionSort BlockRow.before).map (·.hash)

def saveChainParameters (s : ForkStore) (parameters : ChainParameters) : ForkStore :=
  { s with parameters := some parameters }

/-- `SQLiteForkStore.require_chain_parameters`, with the store it leaves. -/
def requireChainParameters (s : ForkStore) (expected : ChainParameters) : Except PyError ForkStore := do
  match s.parameters with
  | none =>
    let tip ← s.bestTip
    if tip.isNone then return s.saveChainParameters expected
    else throw (storageError "chain parameters are missing")
  | some stored =>
    if stored = expected then return s
    else throw (storageError "chain parameters do not match stored chain")

end ForkStore

/-! ## UTXO index -/

/-- A row of `utxos`. -/
structure UtxoRow where
  outpoint : OutPoint
  output : TxOutput
  deriving DecidableEq

/-- A row of `utxo_snapshots`. -/
structure SnapshotRow where
  tipHash : Str
  row : UtxoRow
  deriving DecidableEq

/-- `IndexedSpend` -/
structure IndexedSpend where
  outpoint : OutPoint
  spendingTxid : Str
  inputIndex : Int
  deriving DecidableEq

/-- A row of `spent_outpoints`. -/
structure SpendRow where
  tipHash : Str
  spend : IndexedSpend
  deriving DecidableEq

/-- `SQLiteUTXOIndex`: its three tables, and the active tip in `metadata`. -/
structure UTXOIndex where
  utxos : List UtxoRow
  utxoSnapshots : List SnapshotRow
  spentOutpoints : List SpendRow
  activeTip : Option Str
  deriving DecidableEq

/-- The rows of a UTXO set, in the order of `UTXOSet.entries`. -/
def utxoRows (u : UTXOSet) : List UtxoRow := u.sortedEntries.map fun e => ⟨e.1, e.2⟩

def bindUtxo (row : UtxoRow) : Except PyError Unit := do
  bindInt row.outpoint.index
  bindInt row.output.amount

def bindSpend (row : SpendRow) : Except PyError Unit := do
  bindInt row.spend.outpoint.index
  bindInt row.spend.inputIndex

/-- The spends of a transaction's inputs from the one at `inputIndex` on. -/
def inputSpends (spendingTxid : Str) : Nat → List TxInput → List IndexedSpend
  | _, [] => []
  | inputIndex, x :: xs =>
    ⟨x.previousOutput, spendingTxid, inputIndex⟩ :: inputSpends spendingTxid (inputIndex + 1) xs

/-- The spends of one transaction. -/
def transactionSpends (t : ConsensusTransaction) : Except PyError (List IndexedSpend) :=
  if t.isCoinbase then return []
  else do
    let txid ← t.txid
    return inputSpends txid 0 t.inputs

/-- The loop of `save_tip_spends` over the blocks of a branch. -/
def branchSpends (blocks : List ConsensusBlock) : Except PyError (List IndexedSpend) := do
  let spends ← (blocks.flatMap (·.transactions)).mapM transactionSpends
  return spends.flatten

/-- `UTXOSet(entries)` on rows that were read back. -/
def utxosOfRows (rows : List UtxoRow) : Except PyError UTXOSet :=
  rows.foldlM (fun u row => u.add row.outpoint row.output) ∅

/-- The order of `ORDER BY txid ASC, output_index ASC`. -/
def UtxoRow.before (a b : UtxoRow) : Prop := UTXOSet.entryLe (a.outpoint, a.output) (b.outpoint, b.output)

instance : DecidableRel UtxoRow.before := fun a b =>
  inferInstanceAs (Decidable (UTXOSet.entryLe (a.outpoint, a.output) (b.outpoint, b.output)))

/-- The same order on `spent_outpoints`. -/
def IndexedSpend.before (a b : IndexedSpend) : Prop :=
  a.outpoint.txid < b.outpoint.txid ∨ a.outpoint.txid = b.outpoint.txid ∧ a.outpoint.index ≤ b.outpoint.index

instance : DecidableRel IndexedSpend.before := fun a b =>
  inferInstanceAs (Decidable (a.outpoint.txid < b.outpoint.txid ∨
    a.outpoint.txid = b.outpoint.txid ∧ a.outpoint.index ≤ b.outpoint.index))

namespace UTXOIndex

/-- `_save_tip_snapshot` -/
def writeTipSnapshot (i : UTXOIndex) (tipHash : Str) (u : UTXOSet) : Except PyError UTXOIndex := do
  let snapshots ← Table.insertAll (fun r : SnapshotRow => (r.tipHash, r.row.outpoint))
    (fun r => bindUtxo r.row) (integrityError "UNIQUE constraint failed: utxo_snapshots")
    (i.utxoSnapshots.filter fun r => r.tipHash ≠ tipHash) ((utxoRows u).map fun row => ⟨tipHash, row⟩)
  return { i with utxoSnapshots := snapshots }

/-- `SQLiteUTXOIndex.save_tip_snapshot` -/
def saveTipSnapshot (i : UTXOIndex) (tipHash : Str) (u : UTXOSet) : Except PyError UTXOIndex :=
  i.writeTipSnapshot tipHash u

/-- `SQLiteUTXOIndex.save_snapshot` -/
def saveSnapshot (i : UTXOIndex) (tipHash : Str) (u : UTXOSet) : Except PyError UTXOIndex := do
  let i ← { i with utxos := [], activeTip := some tipHash }.writeTipSnapshot tipHash u
  let utxos ← Table.insertAll UtxoRow.outpoint bindUtxo (integrityError "UNIQUE constraint failed: utxos")
    i.utxos (utxoRows u)
  return { i with utxos := utxos }

/-- `SQLiteUTXOIndex.save_tip_spends` -/
def saveTipSpends (i : UTXOIndex) (tipHash : Str) (blocks : List ConsensusBlock) :
    Except PyError UTXOIndex := do
  let spends ← branchSpends blocks
  let rows ← Table.insertAll (fun r : SpendRow => (r.tipHash, r.spend.outpoint)) bindSpend
    (integrityError "UNIQUE constraint failed: spent_outpoints")
    (i.spentOutpoints.filter fun r => r.tipHash ≠ tipHash) (spends.map fun spend => ⟨tipHash, spend⟩)
  return { i with spentOutpoints := rows }

/-- `SQLiteUTXOIndex.load_tip_snapshot` -/
def loadTipSnapshot (i : UTXOIndex) (tipHash : Str) : Except PyError (Option UTXOSet) :=
  let rows := (i.utxoSnapshots.filter fun r => r.tipHash = tipHash).map (·.row)
  if rows = [] then return none
  else some <$> utxosOfRows (rows.insertionSort UtxoRow.before)

/-- `SQLiteUTXOIndex.load_snapshot` -/
def loadSnapshot (i : UTXOIndex) (expectedTipHash : Str) : Except PyError (Option UTXOSet) := do
  match ← i.loadTipSnapshot expectedTipHash with
  | some u => return some u
  | none =>
    if i.activeTip = some expectedTipHash then
      some <$> utxosOfRows (i.utxos.insertionSort UtxoRow.before)
    else return none

/-- `SQLiteUTXOIndex.load_tip_spends` -/
def loadTipSpends (i : UTXOIndex) (tipHash : Str) : List IndexedSpend :=
  ((i.spentOutpoints.filter fun r => r.tipHash = tipHash).map (·.spend)).insertionSort IndexedSpend.before

/-- `SQLiteUTXOIndex.spent_by_tip` -/
def spentByTip (i : UTXOIndex) (tipHash : Str) (outpoint : OutPoint) : Option IndexedSpend :=
  (Table.lookup (fun r : SpendRow => (r.tipHash, r.spend.outpoint)) i.spentOutpoints (tipHash, outpoint)).map (·.spend)

/-- `SQLiteUTXOIndex.is_spent_at_tip` -/
def isSpentAtTip (i : UTXOIndex) (tipHash : Str) (outpoint : OutPoint) : Bool := (i.spentByTip tipHash outpoint).isSome

/-- `SQLiteUTXOIndex.utxos_for_address_at_tip` -/
def utxosForAddressAtTip (i : UTXOIndex) (tipHash address : Str) : List UtxoRow :=
  ((i.utxoSnapshots.filter fun r => r.tipHash = tipHash ∧ r.row.output.address = address).map
    (·.row)).insertionSort UtxoRow.before

end UTXOIndex

/-! ## Mempool store -/

/-- A row of `mempool_transactions`. -/
structure MempoolRow where
  txid : Str
  data : Str
  deriving DecidableEq

/-- `SQLiteMempoolStore` -/
structure MempoolStore where
  rows : List MempoolRow
  deriving DecidableEq

/-- The row of a transaction: its txid and `_encode` of it. -/
def mempoolRow (t : ConsensusTransaction) : Except PyError MempoolRow := do
  let txid ← t.txid
  let payload ← t.toBytes
  return ⟨txid, hexEncode payload⟩

/-- `SQLiteMempoolStore._decode` -/
def decodeMempoolRow (row : MempoolRow) : Except PyError ConsensusTransaction := do
  let raw ← bytesFromhex row.data
  ConsensusTransaction.fromBytes raw

/-- The order of `ORDER BY txid ASC`. -/
def MempoolRow.before (a b : MempoolRow) : Prop := a.txid ≤ b.txid

instance : DecidableRel MempoolRow.before := fun a b => inferInstanceAs (Decidable (a.txid ≤ b.txid))

namespace MempoolStore

/-- `SQLiteMempoolStore.replace_all` -/
def replaceAll (transactions : List ConsensusTransaction) : Except PyError MempoolStore := do
  let new ← transactions.mapM mempoolRow
  let rows ← Table.insertAll MempoolRow.txid (fun _ => return ())
    (integrityError "UNIQUE constraint failed: mempool_transactions.txid") [] new
  return ⟨rows⟩

/-- `SQLiteMempoolStore.transactions` -/
def transactions (s : MempoolStore) : Except PyError (List ConsensusTransaction) :=
  (s.rows.insertionSort MempoolRow.before).mapM decodeMempoolRow

def count (s : MempoolStore) : Nat := s.rows.length

end MempoolStore

/-! ## Invalid-block cache -/

/-- `SQLiteInvalidBlockCache`: the hashes with the reason of each. -/
structure InvalidBlockCache where
  rows : List (Str × String)
  deriving DecidableEq

namespace InvalidBlockCache

def isInvalid (c : InvalidBlockCache) (hash : Str) : Bool := (Table.lookup Prod.fst c.rows hash).isSome

def reason (c : InvalidBlockCache) (hash : Str) : Option String :=
  (Table.lookup Prod.fst c.rows hash).map Prod.snd

/-- `SQLiteInvalidBlockCache.mark_invalid`: a hash that is there gets the new reason. -/
def markInvalid (c : InvalidBlockCache) (hash : Str) (reason : String) : InvalidBlockCache :=
  if c.isInvalid hash then ⟨c.rows.map fun r => if r.1 = hash then (hash, reason) else r⟩
  else ⟨c.rows ++ [(hash, reason)]⟩

end InvalidBlockCache

end BCC.Impl
