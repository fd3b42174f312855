import BlockchainCoin.Impl.Network

/-!
# `consensus.py`: transactions and blocks as dictionaries

`to_dict` gives the fields of a transaction or a block as a value that JSON can hold, and
`from_dict` reads them from such a value. What `cast` promises without a check
(a public key is a dictionary of texts) is a `TypeError` here.
-/

namespace BCC.Impl

open PyError

/-- `value.get(key, default)` -/
def Json.getOr (value : Json) (key : String) (default : Json) : Except PyError Json :=
  match value with
  | obj fields => .ok ((fields.lookup key.toList).getD default)
  | _ => .error (attributeError "object has no attribute 'get'")

/-- A text, or `None`. -/
def Json.ofText : Option Str → Json
  | none => null
  | some value => str value

/-- `cast(dict[str, str], value)`, as the dictionary of a public key. -/
def Json.asPublicKey : Json → Except PyError PublicKeyDict
  | obj fields => do
    let texts ← fields.mapM fun e => match e.2 with
      | str value => pure (e.1, value)
      | _ => throw (typeError "public key is not a dictionary of texts")
    return ⟨texts.lookup "algorithm".toList, texts.lookup "key".toList,
      texts.filter fun e => e.1 ≠ "algorithm".toList ∧ e.1 ≠ "key".toList⟩
  | _ => .error (typeError "public key is not a dictionary of texts")

/-- The dictionary of a public key, as it is held. -/
def PublicKeyDict.toDict (d : PublicKeyDict) : Json :=
  .obj ((d.algorithm.map fun value => ("algorithm".toList, .str value)).toList ++
    (d.key.map fun value => ("key".toList, .str value)).toList ++ d.others.map fun e => (e.1, .str e.2))

/-- The dictionary of a public key, or `None`. -/
def Json.ofKey : Option PublicKeyDict → Json
  | none => null
  | some d => d.toDict

namespace OutPoint

def toDict (o : OutPoint) : Json := .obj [("txid".toList, .str o.txid), ("index".toList, .int o.index)]

/-- `OutPoint.from_dict` -/
def fromDict [PyText] (data : Json) : Except PyError OutPoint := do
  let txid ← data.item "txid"
  let index ← data.item "index" >>= Json.toInt
  return ⟨txid.text, index⟩

end OutPoint

namespace TxInput

/-- `TxInput.to_dict` -/
def toDict (x : TxInput) (includeWitness : Bool := true) : Json :=
  .obj (("previous_output".toList, x.previousOutput.toDict) ::
    if includeWitness then
      [("signature".toList, .ofText x.signature), ("public_key".toList, .ofKey x.publicKey)]
    else [])

/-- `TxInput.from_dict`; a signature or a public key that is falsy is none. -/
def fromDict [PyText] (data : Json) : Except PyError TxInput := do
  let key ← data.get "public_key"
  let publicKey ← (if key.truthy then some <$> key.asPublicKey else pure none)
  let previousOutput ← data.item "previous_output" >>= OutPoint.fromDict
  let signature ← data.get "signature"
  return ⟨previousOutput, if signature.truthy then some signature.text else none, publicKey⟩

end TxInput

namespace TxOutput

def toDict (o : TxOutput) : Json := .obj [("amount".toList, .int o.amount), ("address".toList, .str o.address)]

/-- `TxOutput.from_dict` -/
def fromDict [PyText] (data : Json) : Except PyError TxOutput := do
  let amount ← data.item "amount" >>= Json.toInt
  let address ← data.item "address"
  return ⟨amount, address.text⟩

end TxOutput

namespace ConsensusTransaction

def toDict (t : ConsensusTransaction) : Json :=
  .obj [("version".toList, .int t.version), ("inputs".toList, .arr (t.inputs.map fun x => x.toDict)),
    ("outputs".toList, .arr (t.outputs.map TxOutput.toDict))]

/-- `ConsensusTransaction.from_dict` -/
def fromDict [PyText] (data : Json) : Except PyError ConsensusTransaction := do
  let inputs ← data.getOr "inputs" (.arr [])
  let outputs ← data.getOr "outputs" (.arr [])
  let version ← data.getOr "version" (.int 1) >>= Json.toInt
  let inputs ← inputs.iter >>= fun items => items.mapM TxInput.fromDict
  let outputs ← outputs.iter >>= fun items => items.mapM TxOutput.fromDict
  return ⟨inputs, outputs, version⟩

end ConsensusTransaction

namespace ConsensusBlock

/-- The fields of `ConsensusBlock.header`. -/
def header (b : ConsensusBlock) : List (Str × Json) :=
  [("difficulty".toList, .int b.difficulty), ("height".toList, .int b.height), ("nonce".toList, .int b.nonce),
    ("previous_hash".toList, .str b.previousHash), ("timestamp".toList, .float b.timestamp),
    ("transaction_root".toList, .str b.transactionRoot), ("version".toList, .int b.version)]

/-- `ConsensusBlock.to_dict` -/
def toDict (b : ConsensusBlock) : Except PyError Json := do
  let hash ← b.hash
  return .obj (b.header ++ [("hash".toList, .str hash),
    ("transactions".toList, .arr (b.transactions.map ConsensusTransaction.toDict))])

/-- `ConsensusBlock.from_dict` -/
def fromDict [PyText] (data : Json) : Except PyError ConsensusBlock := do
  let transactions ← data.getOr "transactions" (.arr [])
  let height ← data.item "height" >>= Json.toInt
  let previousHash ← data.item "previous_hash"
  let transactions ← transactions.iter >>= fun items => items.mapM ConsensusTransaction.fromDict
  let difficulty ← data.item "difficulty" >>= Json.toInt
  let timestamp ← data.item "timestamp" >>= Json.toFloat
  let nonce ← data.item "nonce" >>= Json.toInt
  let transactionRoot ← data.item "transaction_root"
  let version ← data.getOr "version" (.int 1) >>= Json.toInt
  ConsensusBlock.create height previousHash.text transactions difficulty timestamp nonce transactionRoot.text version

end ConsensusBlock

end BCC.Impl
