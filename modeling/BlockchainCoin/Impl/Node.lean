import BlockchainCoin.Impl.ForkChoice

/-!
# `utxo_node.py`: the node

`ConsensusNode` holds the active state, the mempool and its four stores. Its
methods may raise after some of them have changed, so they are `Method`s of the
node. A node made by `create` or `open` always has all four stores; the clock a
new block takes its timestamp from, and the number of nonces mining goes
through, are arguments.
-/

namespace BCC.Impl

open PyError

/-! ## Mempool policy -/

/-- `MempoolPolicy`, with what its constructor checks. -/
@[ext]
structure MempoolPolicy where
  maxTransactions : Int := 5000
  maxTransactionBytes : Int := 100000
  maxInputs : Int := 128
  maxOutputs : Int := 128
  minRelayFee : Int := 0
  minRelayFeeRate : Int := 0
  dynamicFeeRateStep : Int := 0
  allowReplacement : Bool := true
  replacementFeeBump : Int := 1
  allowEviction : Bool := true
  evictionFeeRateBump : Int := 1
  maxTransactions_pos : 0 < maxTransactions := by decide
  maxTransactionBytes_pos : 0 < maxTransactionBytes := by decide
  maxInputs_pos : 0 < maxInputs := by decide
  maxOutputs_pos : 0 < maxOutputs := by decide
  minRelayFee_nonneg : 0 ≤ minRelayFee := by decide
  minRelayFeeRate_nonneg : 0 ≤ minRelayFeeRate := by decide
  dynamicFeeRateStep_nonneg : 0 ≤ dynamicFeeRateStep := by decide
  replacementFeeBump_nonneg : 0 ≤ replacementFeeBump := by decide
  evictionFeeRateBump_nonneg : 0 ≤ evictionFeeRateBump := by decide

instance : DecidableEq MempoolPolicy := fun _ _ => decidable_of_iff' _ MempoolPolicy.ext_iff

namespace MempoolPolicy

/-- `MempoolPolicy()` -/
abbrev standard : MempoolPolicy := {}

def serializedSize (t : ConsensusTransaction) : Except PyError Int := do
  let payload ← t.toBytes
  return payload.length

def effectiveMinRelayFeeRate (p : MempoolPolicy) (currentCount : Int) : Except PyError Int := do
  raiseIf (currentCount < 0) (mempoolPolicyError "mempool transaction count cannot be negative")
  return p.minRelayFeeRate + currentCount * p.dynamicFeeRateStep

def minimumFee (p : MempoolPolicy) (transactionBytes currentCount : Int) : Except PyError Int := do
  raiseIf (transactionBytes < 0) (mempoolPolicyError "transaction byte size cannot be negative")
  let feeRate ← p.effectiveMinRelayFeeRate currentCount
  return max p.minRelayFee ((transactionBytes * feeRate + 999) / 1000)

def feeRate (fee transactionBytes : Int) : Except PyError Int := do
  raiseIf (fee < 0) (mempoolPolicyError "transaction fee cannot be negative")
  raiseIf (transactionBytes ≤ 0) (mempoolPolicyError "transaction byte size must be positive")
  return fee * 1000 / transactionBytes

/-- `MempoolPolicy.validate` -/
def validate (p : MempoolPolicy) (t : ConsensusTransaction) (fee currentCount : Int) : Except PyError Unit := do
  raiseIf (p.maxTransactions ≤ currentCount) (mempoolPolicyError "mempool transaction limit reached")
  raiseIf (p.maxInputs < t.inputs.length)
    (mempoolPolicyError "transaction has too many inputs for mempool policy")
  raiseIf (p.maxOutputs < t.outputs.length)
    (mempoolPolicyError "transaction has too many outputs for mempool policy")
  let size ← serializedSize t
  raiseIf (p.maxTransactionBytes < size) (mempoolPolicyError "transaction exceeds mempool size policy")
  let minimum ← p.minimumFee size currentCount
  raiseIf (fee < minimum) (mempoolPolicyError "transaction fee is below mempool relay minimum")

end MempoolPolicy

/-! ## The node -/

/-- `ReorgEvent` -/
structure ReorgEvent where
  oldTip : Str
  newTip : Str
  oldHeight : Int
  newHeight : Int
  deriving DecidableEq

/-- What a node keeps on disk. -/
structure Disk where
  store : ForkStore
  mempoolStore : MempoolStore
  utxoIndex : UTXOIndex
  invalidBlocks : InvalidBlockCache
  deriving DecidableEq

/-- The files of a node that was never started. -/
def Disk.empty : Disk := ⟨⟨[], none⟩, ⟨[]⟩, ⟨[], [], [], none⟩, ⟨[]⟩⟩

/-- `ConsensusNode` -/
structure ConsensusNode where
  disk : Disk
  state : ConsensusState
  difficulty : Int
  mempool : List ConsensusTransaction
  mempoolPolicy : MempoolPolicy
  forkChoice : ForkChoice
  lastReorg : Option ReorgEvent
  deriving DecidableEq

/-- Scores of transactions are compared as tuples. -/
structure PolicyScore where
  feeRate : Int
  fee : Int
  txid : Str
  deriving DecidableEq

def PolicyScore.lt (a b : PolicyScore) : Prop :=
  a.feeRate < b.feeRate ∨ a.feeRate = b.feeRate ∧ (a.fee < b.fee ∨ a.fee = b.fee ∧ a.txid < b.txid)

instance : DecidableRel PolicyScore.lt := fun a b =>
  inferInstanceAs (Decidable (a.feeRate < b.feeRate ∨
    a.feeRate = b.feeRate ∧ (a.fee < b.fee ∨ a.fee = b.fee ∧ a.txid < b.txid)))

/-- `_input_outpoints` -/
def inputOutpoints (t : ConsensusTransaction) : List OutPoint := t.inputs.map (·.previousOutput)

section

variable [Ed25519]

/-- The loop of `_load_mempool` and of `_prune_invalid_mempool`: an entry is applied to the candidate
before the policy is asked, and stays applied when the policy refuses it. -/
def keepValid (p : MempoolPolicy) : ConsensusState → List ConsensusTransaction → List ConsensusTransaction →
    List ConsensusTransaction
  | _, valid, [] => valid
  | candidate, valid, t :: ts =>
    match candidate.applyTransaction t with
    | .error _ => keepValid p candidate valid ts
    | .ok (fee, candidate') =>
      match p.validate t fee valid.length with
      | .error _ => keepValid p candidate' valid ts
      | .ok _ => keepValid p candidate' (valid ++ [t]) ts

/-- The loop of `_candidate_after`. -/
def candidateAfter : ConsensusState → List ConsensusTransaction → Except PyError ConsensusState
  | candidate, [] => .ok candidate
  | candidate, t :: ts => do
    let (_, candidate') ← candidate.applyTransaction t
    candidateAfter candidate' ts

/-- The loop of `_replacement_context` over the transactions that are replaced. -/
def replacedFees : ConsensusState → List ConsensusTransaction → Except PyError Int
  | _, [] => .ok 0
  | candidate, t :: ts => do
    let (fee, candidate') ← candidate.applyTransaction t
    let rest ← replacedFees candidate' ts
    return fee + rest

/-- `_transaction_fees`, as the pairs of its dictionary. -/
def transactionFees : ConsensusState → List ConsensusTransaction → Except PyError (List (Str × Int))
  | _, [] => .ok []
  | candidate, t :: ts => do
    let (fee, candidate') ← candidate.applyTransaction t
    let txid ← t.txid
    let rest ← transactionFees candidate' ts
    return (txid, fee) :: rest

/-- `_transaction_policy_score` -/
def transactionPolicyScore (t : ConsensusTransaction) (fee : Int) : Except PyError PolicyScore := do
  let size ← MempoolPolicy.serializedSize t
  let feeRate ← MempoolPolicy.feeRate fee size
  let txid ← t.txid
  return ⟨feeRate, fee, txid⟩

end

/-- `_ReplacementContext` -/
structure ReplacementContext where
  remaining : List ConsensusTransaction
  replaced : List ConsensusTransaction
  replacedFee : Int

/-- What the loop of `_evict_for_policy` has found so far. -/
structure EvictionChoice where
  remaining : List ConsensusTransaction
  fee : Int
  score : PolicyScore

/-- `any(existing.txid == txid for existing in ts)` -/
def hasTxid (txid : Str) : List ConsensusTransaction → Except PyError Bool
  | [] => .ok false
  | t :: ts => do
    let existing ← t.txid
    if existing = txid then return true else hasTxid txid ts

/-- `[t for t in ts if t.txid not in txids]` -/
def withoutTxids (txids : List Str) : List ConsensusTransaction → Except PyError (List ConsensusTransaction)
  | [] => .ok []
  | t :: ts => do
    let txid ← t.txid
    let rest ← withoutTxids txids ts
    return if txid ∈ txids then rest else t :: rest

namespace ConsensusNode

variable [Ed25519]

/-! ## Mempool -/

/-- `_replacement_context` -/
def replacementContext (n : ConsensusNode) (t : ConsensusTransaction) : Except PyError ReplacementContext := do
  let newInputs := inputOutpoints t
  let replaced := n.mempool.filter fun existing => (inputOutpoints existing).any (· ∈ newInputs)
  if replaced = [] then
    return ⟨n.mempool, [], 0⟩
  else
    raiseIf (¬ n.mempoolPolicy.allowReplacement) (mempoolPolicyError "transaction conflicts with mempool policy")
    let replacedTxids ← replaced.mapM (·.txid)
    let remaining ← withoutTxids replacedTxids n.mempool
    let replacementCandidate ← candidateAfter n.state remaining
    let replacedFee ← replacedFees replacementCandidate replaced
    return ⟨remaining, replaced, replacedFee⟩

/-- `_validate_replacement_fee` -/
def validateReplacementFee (p : MempoolPolicy) (fee replacedFee : Int) : Except PyError Unit :=
  raiseIf (fee < replacedFee + p.replacementFeeBump)
    (mempoolPolicyError "replacement fee is below mempool replacement minimum")

/-- The loop of `_evict_for_policy` over the entries from the first of `after` on. -/
def evictionLoop (n : ConsensusNode) (t : ConsensusTransaction) (existingFees : List (Str × Int)) :
    Option EvictionChoice → List ConsensusTransaction → List ConsensusTransaction →
      Except PyError (Option EvictionChoice)
  | best, _, [] => .ok best
  | best, before, existing :: after => do
    let txid ← existing.txid
    let existingScore ← transactionPolicyScore existing ((existingFees.lookup txid).getD 0)
    let trial : Except PyError Int := do
      let candidate ← candidateAfter n.state (before ++ after)
      let (candidateFee, _) ← candidate.applyTransaction t
      return candidateFee
    match trial with
    | .error _ => n.evictionLoop t existingFees best (before ++ [existing]) after
    | .ok candidateFee =>
      let better := match best with
        | none => true
        | some b => decide (existingScore.lt b.score)
      n.evictionLoop t existingFees
        (if better then some ⟨before ++ after, candidateFee, existingScore⟩ else best) (before ++ [existing]) after

/-- `_evict_for_policy` -/
def evictForPolicy (n : ConsensusNode) (t : ConsensusTransaction) (remaining : List ConsensusTransaction)
    (fee : Int) : Except PyError (List ConsensusTransaction × Int) := do
  if remaining.length < n.mempoolPolicy.maxTransactions then
    return (remaining, fee)
  else if n.mempoolPolicy.allowEviction = false then
    return (remaining, fee)
  else
    let newScore ← transactionPolicyScore t fee
    let existingFees ← transactionFees n.state remaining
    match ← n.evictionLoop t existingFees none [] remaining with
    | none => return (remaining, fee)
    | some best =>
      raiseIf (newScore.feeRate < best.score.feeRate + n.mempoolPolicy.evictionFeeRateBump)
        (mempoolPolicyError "transaction fee rate is below mempool eviction minimum")
      return (best.remaining, best.fee)

/-- The entries `submit_transaction` keeps and their fee, by replacement or eviction. -/
def makeRoom (n : ConsensusNode) (t : ConsensusTransaction) : Except PyError (List ConsensusTransaction × Int) := do
  let replacement ← n.replacementContext t
  let candidate ← candidateAfter n.state replacement.remaining
  let (fee, _) ← candidate.applyTransaction t
  if replacement.replaced = [] then
    n.evictForPolicy t replacement.remaining fee
  else
    validateReplacementFee n.mempoolPolicy fee replacement.replacedFee
    return (replacement.remaining, fee)

/-- The checks of `submit_transaction`: the txid, and the entries that stay before the new one. -/
def submissionChecks (n : ConsensusNode) (t : ConsensusTransaction) : Except PyError (Str × List ConsensusTransaction) := do
  let txid ← t.txid
  raiseIf t.isCoinbase (mempoolPolicyError "coinbase transactions cannot enter the mempool")
  let known ← hasTxid txid n.mempool
  raiseIf known (mempoolPolicyError "transaction already in mempool")
  let (remaining, fee) ← n.makeRoom t
  n.mempoolPolicy.validate t fee remaining.length
  return (txid, remaining)

/-- `self.mempool_store.replace_all(self.mempool)` -/
def saveMempool : Method ConsensusNode PyError Unit := Method.assigning fun n => do
  let rows ← MempoolStore.replaceAll n.mempool
  return ((), { n with disk := { n.disk with mempoolStore := rows } })

/-- `ConsensusNode.submit_transaction` -/
def submitTransaction (t : ConsensusTransaction) : Method ConsensusNode PyError Str := do
  let (txid, remaining) ← Method.reading (submissionChecks · t)
  modify fun n => { n with mempool := remaining ++ [t] }
  saveMempool
  return txid

/-- `_prune_invalid_mempool` -/
def pruneInvalidMempool : Method ConsensusNode PyError Unit :=
  modify fun n => { n with mempool := keepValid n.mempoolPolicy n.state [] n.mempool }

/-- `ConsensusNode.prune_mempool` -/
def pruneMempool : Method ConsensusNode PyError Nat := do
  let original ← get
  pruneInvalidMempool
  saveMempool
  let n ← get
  return original.mempool.length - n.mempool.length

/-- `ConsensusNode.clear_mempool` -/
def clearMempool : Method ConsensusNode PyError Nat := do
  let original ← get
  modify fun n => { n with mempool := [] }
  saveMempool
  return original.mempool.length

/-- `_load_mempool`, on the files of a node with this policy and state. -/
def loadMempool (p : MempoolPolicy) (state : ConsensusState) : Method Disk PyError (List ConsensusTransaction) := do
  let stored ← Method.reading (·.mempoolStore.transactions)
  let valid := keepValid p state [] stored
  let d ← get
  if valid.length ≠ d.mempoolStore.count then
    Method.assigning fun d => do
      let rows ← MempoolStore.replaceAll valid
      return ((), { d with mempoolStore := rows })
  return valid

/-- `self.mempool = self._load_mempool()` -/
def reloadMempool : Method ConsensusNode PyError Unit := do
  let n ← get
  let valid ← Method.onPart ConsensusNode.disk (fun d n => { n with disk := d })
    (loadMempool n.mempoolPolicy n.state)
  modify fun n => { n with mempool := valid }

/-! ## Chain queries -/

omit [Ed25519] in
/-- `ConsensusNode.tip_hash` -/
def tipHash (n : ConsensusNode) : Except PyError Str := do
  match ← n.disk.store.bestTip with
  | none => return zeroHash
  | some tip => tip.block.hash

omit [Ed25519] in
/-- `ConsensusNode.height` -/
def height (n : ConsensusNode) : Except PyError Int := do
  match ← n.disk.store.bestTip with
  | none => return -1
  | some tip => return tip.block.height

/-- `ConsensusNode.active_chain_hashes` -/
def activeChainHashes (n : ConsensusNode) : Except PyError (List Str) := do
  let active ← n.forkChoice.activeChain n.disk.store
  active.blocks.mapM (·.hash)

/-! ## Spending from a wallet -/

omit [Ed25519] in
/-- `ConsensusNode.spendable_outputs` -/
def spendableOutputs (n : ConsensusNode) (address : Str) : List (OutPoint × TxOutput) :=
  n.state.utxos.entriesForAddress address

omit [Ed25519] in
/-- The loop of `create_transaction` over the outputs of the wallet: those it selects, and their total. -/
def selectOutputs (needed : Int) : List (OutPoint × TxOutput) → Int → List (OutPoint × TxOutput) →
    List (OutPoint × TxOutput) × Int
  | selected, total, [] => (selected, total)
  | selected, total, utxo :: utxos =>
    let selected := selected ++ [utxo]
    let total := total + utxo.2.amount
    if needed ≤ total then (selected, total) else selectOutputs needed selected total utxos

omit [Ed25519] in
/-- The loop of `create_transaction` that signs every input. -/
def signAll (wallet : Wallet) (t : ConsensusTransaction) : Except PyError ConsensusTransaction :=
  (List.range t.inputs.length).foldlM (fun t (index : Nat) => t.signInput index wallet) t

omit [Ed25519] in
/-- `ConsensusNode.create_transaction` -/
def createTransaction (n : ConsensusNode) (wallet : Wallet) (recipient : Str) (amount : Int) (fee : Int := 1) :
    Except PyError ConsensusTransaction := do
  raiseIf (amount ≤ 0) (consensusNodeError "amount must be positive")
  raiseIf (fee < 0) (consensusNodeError "fee cannot be negative")
  raiseIf (isValidAddress recipient = false) (consensusNodeError "recipient address is invalid")
  let needed := amount + fee
  let (selected, total) := selectOutputs needed [] 0 (n.spendableOutputs wallet.address)
  raiseIf (total < needed) (consensusNodeError "insufficient funds")
  let change := total - needed
  let outputs : List TxOutput := ⟨amount, recipient⟩ :: if change = 0 then [] else [⟨change, wallet.address⟩]
  signAll wallet { inputs := selected.map fun utxo => { previousOutput := utxo.1 }, outputs := outputs }

end ConsensusNode

end BCC.Impl
