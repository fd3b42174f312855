import BlockchainCoin.Impl.Storage

/-!
# `fork_choice.py`: the active chain

The best stored branch, replayed through the consensus rules.
-/

namespace BCC.Impl

open PyError

/-- `ActiveChain` -/
structure ActiveChain where
  blocks : List ConsensusBlock
  state : ConsensusState
  cumulativeWork : Int

def ActiveChain.tip (a : ActiveChain) : Option ConsensusBlock := a.blocks.getLast?

/-- `ForkChoice`: the parameters branches are replayed with. The store is the node's. -/
structure ForkChoice where
  blockSubsidy : Int
  maxMoney : Int
  deriving DecidableEq

namespace ForkChoice

variable [Ed25519]

/-- `ForkChoice._validate_stored_chain` -/
def validateStoredChain (f : ForkChoice) (storedChain : List StoredConsensusBlock) :
    Except PyError ActiveChain := do
  let blocks := storedChain.map (·.block)
  let state ← catchAs (rebuildStateFromBlocks blocks f.blockSubsidy f.maxMoney) isConsensusError
    (forkChoiceError "stored branch failed consensus validation")
  match storedChain.getLast? with
  | none => throw (valueError "list index out of range")
  | some last => return ⟨blocks, state, last.cumulativeWork⟩

/-- `ForkChoice.active_chain` -/
def activeChain (f : ForkChoice) (store : ForkStore) : Except PyError ActiveChain := do
  let storedChain ← catchAs store.activeChain isStorageError (forkChoiceError "active branch is disconnected")
  if storedChain = [] then
    let state ← ConsensusState.init ∅ f.blockSubsidy f.maxMoney
    return ⟨[], state, 0⟩
  else
    f.validateStoredChain storedChain

/-- `ForkChoice.add_block`; the block stays in the store when `active_chain` raises. -/
def addBlock (f : ForkChoice) (b : ConsensusBlock) : Method ForkStore PyError ActiveChain := do
  let _ ← Method.assigning fun store => store.putBlock b
  Method.reading f.activeChain

/-- `ForkChoice.chain_to_tip` -/
def chainToTip (f : ForkChoice) (store : ForkStore) (tipHash : Str) : Except PyError ActiveChain := do
  let storedChain ← store.chainToTip tipHash
  f.validateStoredChain storedChain

/-- One block of `validate_all_known_branches`. -/
def validateKnownBranch (f : ForkChoice) (store : ForkStore) (hash : Str) : Except PyError Unit := do
  let stored ← store.getBlock hash
  let tipHash ← stored.block.hash
  let _ ← catchAs (f.chainToTip store tipHash) isStorageError (forkChoiceError "stored branch is disconnected")
  return ()

/-- `ForkChoice.validate_all_known_branches` -/
def validateAllKnownBranches (f : ForkChoice) (store : ForkStore) : Except PyError Unit :=
  store.iterHashes.forM (f.validateKnownBranch store)

end ForkChoice

end BCC.Impl
