import BlockchainCoin.Impl.Node

/-!
# `utxo_node.py`: mining, importing, creating and opening

`import_block` validates a block on the replayed branch of its parent, stores
it, and then replaces the active state, writes the index and filters the
mempool; everything after the store has no way back. `World` is a node and its
files over time: a node is created or opened on the files, its methods are
called, and it is closed.
-/

namespace BCC.Impl

open PyError

/-- `except Exception as exc: raise e`. A loop that does not end is not caught. -/
def asError {α : Type} (x : Except PyError α) (e : PyError) : Except PyError α :=
  catchAs x (fun exc => exc ≠ endless) e

namespace ConsensusNode

/-! ## Mining -/

/-- The loop of `_mine`, with at most `fuel` hashes. -/
def mineLoop (block : ConsensusBlock) : Nat → Int → ConsensusBlock → Except PyError ConsensusBlock
  | 0, _, _ => .error endless
  | fuel + 1, nonce, mined => do
    let hash ← mined.hash
    if (List.replicate block.difficulty.toNat '0').isPrefixOf hash then
      return mined
    else
      let next ← ConsensusBlock.create block.height block.previousHash block.transactions block.difficulty
        block.timestamp (nonce + 1) [] block.version
      mineLoop block fuel (nonce + 1) next

/-- `_mine` -/
def mine (fuel : Nat) (block : ConsensusBlock) : Except PyError ConsensusBlock :=
  mineLoop block fuel block.nonce block

/-- The loop of `_build_genesis_block` over the allocations: their outputs and their total. -/
def genesisOutputs : List (Str × Int) → Except PyError (List TxOutput × Int)
  | [] => .ok ([], 0)
  | (address, amount) :: rest => do
    raiseIf (¬ isValidAddress address)
      (consensusNodeError ("invalid genesis address: " ++ String.ofList address))
    raiseIf (amount ≤ 0) (consensusNodeError "genesis allocations must be positive")
    let (outputs, total) ← genesisOutputs rest
    return (⟨amount, address⟩ :: outputs, amount + total)

/-- `_build_genesis_block` -/
def buildGenesisBlock (allocations : List (Str × Int)) (difficulty : Int) (timestamp : UInt64) (fuel : Nat) :
    Except PyError ConsensusBlock := do
  raiseIf (difficulty < 0) (consensusNodeError "difficulty cannot be negative")
  raiseIf (allocations = []) (consensusNodeError "genesis allocations are required")
  let (outputs, total) ← genesisOutputs allocations
  raiseIf (MAX_MONEY < total) (consensusNodeError "genesis allocations exceed maximum supply")
  let coinbase : ConsensusTransaction := ⟨[⟨⟨zeroHash, -1⟩, none, none⟩], outputs, 1⟩
  let block ← ConsensusBlock.create 0 zeroHash [coinbase] difficulty timestamp
  mine fuel block

variable [Ed25519]

/-- The inner loop of `_prioritized_mempool_transactions`: the index of the best entry that applies,
from the entry at `index` on. -/
def bestIndex (candidate : ConsensusState) : Option (Nat × PolicyScore) → Nat → List ConsensusTransaction →
    Except PyError (Option (Nat × PolicyScore))
  | best, _, [] => .ok best
  | best, index, t :: ts =>
    match candidate.applyTransaction t with
    | .error _ => bestIndex candidate best (index + 1) ts
    | .ok (fee, _) => do
      let score ← transactionPolicyScore t fee
      let better := match best with
        | none => true
        | some (_, bestScore) => decide (bestScore.lt score)
      bestIndex candidate (if better then some (index, score) else best) (index + 1) ts

/-- `_prioritized_mempool_transactions`, for as many entries as there are pending: the selected
transactions, their fees and the candidate after them. -/
def prioritizedTransactions : Nat → ConsensusState → List ConsensusTransaction →
    Except PyError (List ConsensusTransaction × Int × ConsensusState)
  | 0, candidate, _ => .ok ([], 0, candidate)
  | count + 1, candidate, pending => do
    match ← bestIndex candidate none 0 pending with
    | none => throw (consensusNodeError "mempool contains transactions that cannot be mined")
    | some (index, _) =>
      match pending[index]? with
      | none => throw (valueError "pop index out of range")
      | some t =>
        let (fee, candidate') ← candidate.applyTransaction t
        let (selected, fees, candidate'') ← prioritizedTransactions count candidate' (pending.eraseIdx index)
        return (t :: selected, fee + fees, candidate'')

/-- `ConsensusNode.build_candidate_block` -/
def buildCandidateBlock (n : ConsensusNode) (minerAddress : Str) (timestamp : UInt64) :
    Except PyError ConsensusBlock := do
  raiseIf (¬ isValidAddress minerAddress) (consensusNodeError "invalid miner address")
  let (transactions, fees, candidate) ← prioritizedTransactions n.mempool.length n.state n.mempool
  let height ← n.height
  let coinbase ← candidate.createCoinbase minerAddress fees (height + 1)
  let previousHash ← n.tipHash
  ConsensusBlock.create (height + 1) previousHash (coinbase :: transactions) n.difficulty timestamp

/-! ## Importing -/

/-- `_validate_import_candidate` -/
def validateImportCandidate (n : ConsensusNode) (block : ConsensusBlock) : Except PyError Unit :=
  if block.height = 0 then do
    let tip ← n.disk.store.bestTip
    raiseIf (tip.isSome = true) (consensusNodeError "genesis block already exists")
    let state ← ConsensusState.init ∅ n.state.blockSubsidy n.state.maxMoney
    let _ ← (BlockProcessor.applyBlock block 0 zeroHash).onLocal state
    return ()
  else do
    let parentBranch ← catchAs (n.forkChoice.chainToTip n.disk.store block.previousHash) isStorageError
      (consensusNodeError "block parent is unknown")
    let _ ← (BlockProcessor.applyBlock block block.height block.previousHash).onLocal parentBranch.state
    return ()

omit [Ed25519] in
/-- `_detect_reorg` -/
def detectReorg (oldTip newTip : Option ConsensusBlock) : Except PyError (Option ReorgEvent) :=
  match oldTip, newTip with
  | some old, some new => do
    let oldHash ← old.hash
    let newHash ← new.hash
    if oldHash = newHash then return none
    else if new.previousHash = oldHash ∧ new.height = old.height + 1 then return none
    else return some ⟨oldHash, newHash, old.height, new.height⟩
  | _, _ => return none

/-- Validation and `put_block`, the part of `import_block` whose exceptions are cached. -/
def storeCandidate (block : ConsensusBlock) : Method ConsensusNode PyError StoredConsensusBlock :=
  Method.assigning fun n => do
    n.validateImportCandidate block
    let (stored, store) ← n.disk.store.putBlock block
    return (stored, { n with disk := { n.disk with store := store } })

/-- A statement that replaces the UTXO index. -/
def writeIndex (write : UTXOIndex → Except PyError UTXOIndex) : Method ConsensusNode PyError Unit :=
  Method.assigning fun n => do
    let index ← write n.disk.utxoIndex
    return ((), { n with disk := { n.disk with utxoIndex := index } })

/-- `self.invalid_blocks.mark_invalid(block_hash, str(exc))` -/
def markInvalid (hash : Str) (exc : PyError) : Method ConsensusNode PyError Unit :=
  modify fun n =>
    { n with disk := { n.disk with invalidBlocks := n.disk.invalidBlocks.markInvalid hash exc.message } }

/-- The index writes of `import_block`, for the branch of the imported block and for the active one. -/
def writeIndexes (active : ActiveChain) (stored : StoredConsensusBlock) : Method ConsensusNode PyError Unit := do
  let storedHash ← Method.reading fun _ => stored.block.hash
  let imported ← Method.reading fun n => n.forkChoice.chainToTip n.disk.store storedHash
  writeIndex (·.saveTipSnapshot storedHash imported.state.utxos)
  writeIndex (·.saveTipSpends storedHash imported.blocks)
  let activeHash ← Method.reading fun _ => match active.tip with
    | none => .error assertionError
    | some tip => tip.hash
  writeIndex (·.saveSnapshot activeHash active.state.utxos)
  writeIndex (·.saveTipSpends activeHash active.blocks)

/-- The end of `import_block`: the mempool without the transactions of the block. -/
def dropIncluded (block : ConsensusBlock) : Method ConsensusNode PyError Unit := do
  let includedTxids ← Method.reading fun _ => block.transactions.mapM (·.txid)
  let mempool ← Method.reading fun n => withoutTxids includedTxids n.mempool
  modify fun n => { n with mempool := mempool }
  pruneInvalidMempool
  saveMempool

/-- What `import_block` does after the block is stored. -/
def activate (oldTip : Option StoredConsensusBlock) (block : ConsensusBlock) (stored : StoredConsensusBlock) :
    Method ConsensusNode PyError Unit := do
  let active ← Method.reading fun n => n.forkChoice.activeChain n.disk.store
  modify fun n => { n with state := active.state }
  let reorg ← Method.reading fun _ => detectReorg (oldTip.map (·.block)) active.tip
  modify fun n => { n with lastReorg := reorg }
  writeIndexes active stored
  dropIncluded block

/-- `self.invalid_blocks.reason(block_hash) or "previously rejected block"` -/
def rejection (c : InvalidBlockCache) (hash : Str) : String :=
  match c.reason hash with
  | none | some "" => "previously rejected block"
  | some reason => reason

/-- `ConsensusNode.import_block` -/
def importBlock (block : ConsensusBlock) : Method ConsensusNode PyError StoredConsensusBlock := do
  let oldTip ← Method.reading fun n => n.disk.store.bestTip
  let blockHash ← Method.reading fun _ => asError block.hash (consensusNodeError "block header is invalid")
  let n ← get
  if n.disk.invalidBlocks.isInvalid blockHash then
    throw (consensusNodeError ("block is cached as invalid: " ++ rejection n.disk.invalidBlocks blockHash))
  else
    let stored ← tryCatch (storeCandidate block) fun exc =>
      if exc = endless then throw exc
      else do
        markInvalid blockHash exc
        throw exc
    activate oldTip block stored
    return stored

/-- `ConsensusNode.mine_block` -/
def mineBlock (minerAddress : Str) (timestamp : UInt64) (fuel : Nat) :
    Method ConsensusNode PyError StoredConsensusBlock := do
  let candidate ← Method.reading (buildCandidateBlock · minerAddress timestamp)
  let block ← Method.reading fun _ => mine fuel candidate
  importBlock block

/-! ## Creating and opening -/

/-- The constructor, on the files of the node. -/
def init (state : ConsensusState) (difficulty : Int) (mempoolPolicy : MempoolPolicy) (forkChoice : ForkChoice) :
    Method Disk PyError ConsensusNode := do
  Method.reading fun _ => raiseIf (difficulty < 0) (consensusNodeError "difficulty cannot be negative")
  let mempool ← loadMempool mempoolPolicy state
  let disk ← get
  return ⟨disk, state, difficulty, mempool, mempoolPolicy, forkChoice, none⟩

/-- `ConsensusNode.create` -/
def create (genesisAllocations : List (Str × Int)) (parameters : ChainParameters) (timestamp : UInt64)
    (fuel : Nat) : Method Disk PyError ConsensusNode := do
  let tip ← Method.reading fun d => d.store.bestTip
  Method.reading fun _ => raiseIf (tip.isSome = true) (consensusNodeError "node database already has a chain")
  modify fun d => { d with store := d.store.saveChainParameters parameters }
  let (state, genesis) ← Method.reading fun _ => do
    let state ← ConsensusState.init ∅ parameters.blockSubsidy parameters.maxMoney
    let genesis ← buildGenesisBlock genesisAllocations parameters.difficulty timestamp fuel
    let (_, state) ← (BlockProcessor.applyBlock genesis 0 zeroHash).onLocal state
    return (state, genesis)
  Method.assigning fun d => do
    let (_, store) ← d.store.putBlock genesis
    return ((), { d with store := store })
  Method.assigning fun d => do
    let rows ← MempoolStore.replaceAll []
    return ((), { d with mempoolStore := rows })
  Method.assigning fun d => do
    let hash ← genesis.hash
    let index ← d.utxoIndex.saveSnapshot hash state.utxos
    return ((), { d with utxoIndex := index })
  let forkChoice : ForkChoice := ⟨parameters.blockSubsidy, parameters.maxMoney⟩
  let active ← Method.reading fun d => forkChoice.activeChain d.store
  init active.state parameters.difficulty .standard forkChoice

/-- The state `open` starts from: the indexed snapshot of the active tip where it agrees with the
replayed one. -/
def openState (forkChoice : ForkChoice) (active : ActiveChain) : Method Disk PyError ConsensusState :=
  match active.tip with
  | none => return active.state
  | some tip => do
    let hash ← Method.reading fun _ => tip.hash
    let indexed ← Method.reading fun d => d.utxoIndex.loadSnapshot hash
    match indexed.filter fun u => u.sortedEntries = active.state.utxos.sortedEntries with
    | some u => Method.reading fun _ => ConsensusState.init u forkChoice.blockSubsidy forkChoice.maxMoney
    | none =>
      Method.assigning fun d => do
        let index ← d.utxoIndex.saveSnapshot hash active.state.utxos
        return ((), { d with utxoIndex := index })
      return active.state

/-- `ConsensusNode.open` -/
def openNode (parameters : ChainParameters) : Method Disk PyError ConsensusNode := do
  let forkChoice : ForkChoice := ⟨parameters.blockSubsidy, parameters.maxMoney⟩
  let validated : Method Disk PyError ConsensusState := do
    Method.assigning fun d => do
      let store ← d.store.requireChainParameters parameters
      return ((), { d with store := store })
    let active ← Method.reading fun d => forkChoice.activeChain d.store
    Method.reading fun d => forkChoice.validateAllKnownBranches d.store
    openState forkChoice active
  let state ← tryCatch validated fun exc =>
    throw (if exc = endless then exc else consensusNodeError "stored consensus chain failed validation")
  init state parameters.difficulty .standard forkChoice

end ConsensusNode

/-! ## Runs -/

/-- The files of a node while no node uses them, or the node that does. -/
inductive World
  | down (disk : Disk)
  | up (node : ConsensusNode)
  deriving DecidableEq

def World.disk : World → Disk
  | down disk => disk
  | up node => node.disk

/-- What can be called. -/
inductive Call
  | create (genesisAllocations : List (Str × Int)) (parameters : ChainParameters) (timestamp : UInt64) (fuel : Nat)
  | openNode (parameters : ChainParameters)
  | close
  | importBlock (block : ConsensusBlock)
  | mineBlock (minerAddress : Str) (timestamp : UInt64) (fuel : Nat)
  | submitTransaction (transaction : ConsensusTransaction)
  | pruneMempool
  | clearMempool
  | reloadMempool
  | setPolicy (mempoolPolicy : MempoolPolicy)

/-- The world after a node was made or could not be. -/
def World.made : Except PyError ConsensusNode × Disk → World
  | (.ok node, _) => up node
  | (.error _, disk) => down disk

variable [Ed25519]

/-- A call, whether it returns or raises; a call that does not apply does nothing. -/
def World.step : World → Call → World
  | down disk, .create allocations parameters timestamp fuel =>
    made ((ConsensusNode.create allocations parameters timestamp fuel).call disk)
  | down disk, .openNode parameters => made ((ConsensusNode.openNode parameters).call disk)
  | up node, .close => down node.disk
  | up node, .importBlock block => up ((ConsensusNode.importBlock block).call node).2
  | up node, .mineBlock minerAddress timestamp fuel =>
    up ((ConsensusNode.mineBlock minerAddress timestamp fuel).call node).2
  | up node, .submitTransaction transaction => up ((ConsensusNode.submitTransaction transaction).call node).2
  | up node, .pruneMempool => up (ConsensusNode.pruneMempool.call node).2
  | up node, .clearMempool => up (ConsensusNode.clearMempool.call node).2
  | up node, .reloadMempool => up (ConsensusNode.reloadMempool.call node).2
  | up node, .setPolicy mempoolPolicy => up { node with mempoolPolicy := mempoolPolicy }
  | world, _ => world

/-- The world after calls made from empty files on. -/
def World.after (calls : List Call) : World := calls.foldl step (down Disk.empty)

/-- A call that applies and does not raise. -/
def World.returns : World → Call → Bool
  | down disk, .create allocations parameters timestamp fuel =>
    ((ConsensusNode.create allocations parameters timestamp fuel).call disk).1.isOk
  | down disk, .openNode parameters => ((ConsensusNode.openNode parameters).call disk).1.isOk
  | up _, .close => true
  | up node, .importBlock block => ((ConsensusNode.importBlock block).call node).1.isOk
  | up node, .mineBlock minerAddress timestamp fuel =>
    ((ConsensusNode.mineBlock minerAddress timestamp fuel).call node).1.isOk
  | up node, .submitTransaction transaction => ((ConsensusNode.submitTransaction transaction).call node).1.isOk
  | up node, .pruneMempool => (ConsensusNode.pruneMempool.call node).1.isOk
  | up node, .clearMempool => (ConsensusNode.clearMempool.call node).1.isOk
  | up node, .reloadMempool => (ConsensusNode.reloadMempool.call node).1.isOk
  | up _, .setPolicy _ => true
  | _, _ => false

/-- Every call of a run returns. -/
def World.AllReturn : World → List Call → Prop
  | _, [] => True
  | world, call :: calls => world.returns call = true ∧ (world.step call).AllReturn calls

/-- The block a call hands to `import_block`, if it gets that far. -/
def Call.offered (node : ConsensusNode) : Call → Option ConsensusBlock
  | .importBlock block => some block
  | .mineBlock minerAddress timestamp fuel =>
    (do let candidate ← node.buildCandidateBlock minerAddress timestamp
        ConsensusNode.mine fuel candidate).toOption
  | _ => none

end BCC.Impl
