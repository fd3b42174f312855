import BlockchainCoin.Impl.Crypto
import BlockchainCoin.Framework.Merkle

/-!
# `consensus.py`: transactions, blocks and their binary encoding

The data types of the chain and their canonical encoding, in both directions.
Encoding raises when a field is out of its range or a hash text is not 32
hexadecimal bytes, so hashes (`txid`, `hash`) may raise too. Decoding reads from
the front of a payload; the cursor of `_ByteReader` is the payload not yet read.
-/

namespace BCC.Impl

open PyError

/-! ## Encoding of fields -/

/-- `struct.pack(">q", value)` -/
def encodeInt (value : Int) : Except PyError Bytes := do
  raiseIf (value < -2 ^ 63 ∨ 2 ^ 63 ≤ value) (structError "int too large to convert")
  return beBytes 8 (value % 2 ^ 64).toNat

def encodeUint (value : Int) : Except PyError Bytes := do
  raiseIf (value < 0) (consensusError "unsigned integer cannot be negative")
  raiseIf (2 ^ 64 ≤ value) (structError "int too large to convert")
  return beBytes 8 value.toNat

/-- `struct.pack(">d", value)`, for a value given by its 64-bit pattern. -/
def encodeFloat (value : UInt64) : Bytes := beBytes 8 value.toNat

def encodeBytes (value : Bytes) : Except PyError Bytes := do
  raiseIf (2 ^ 32 - 1 < value.length) (consensusError "binary field is too large")
  return beBytes 4 value.length ++ value

def encodeText (value : Str) : Except PyError Bytes := encodeBytes (utf8Encode value)

def encodeHash (value : Str) : Except PyError Bytes := do
  match hexDecode value with
  | none => throw (consensusError "hash field is not hexadecimal")
  | some raw =>
    raiseIf (raw.length ≠ 32) (consensusError "hash field must be 32 bytes")
    return raw

/-! ## Decoding of fields -/

/-- `_ByteReader`, on the payload from its offset on. -/
abbrev Reader := StateT Bytes (Except PyError)

namespace Reader

def read (size : Nat) : Reader Bytes := fun payload =>
  if payload.length < size then .error (consensusError "binary payload is truncated")
  else .ok (payload.take size, payload.drop size)

def requireFinished : Reader Unit := fun payload =>
  if payload ≠ [] then .error (consensusError "binary payload has trailing bytes") else .ok ((), payload)

/-- An item and the end of the payload. -/
def finished {α : Type} (item : Reader α) : Reader α := do
  let a ← item
  requireFinished
  return a

/-- Bytes that must be the ones expected. -/
def readExpected (expected : Bytes) (message : String) : Reader Unit := do
  let raw ← read expected.length
  if raw = expected then pure () else throw (consensusError message)

/-- A presence flag, and the item it announces. -/
def readOptional {α : Type} (item : Reader α) (message : String) : Reader (Option α) := do
  let present ← read 1
  if present = [0] then pure none
  else if present = [1] then some <$> item
  else throw (consensusError message)

/-- `tuple(item(reader) for _ in range(count))` -/
def readMany {α : Type} (item : Reader α) : Nat → Reader (List α)
  | 0 => pure []
  | count + 1 => do
    let a ← item
    let rest ← readMany item count
    return a :: rest

end Reader

open Reader

def decodeInt : Reader Int := do
  let raw ← read 8
  let n : Int := ofBeBytes raw
  return if n < 2 ^ 63 then n else n - 2 ^ 64

def decodeUint : Reader Nat := do
  let raw ← read 8
  return ofBeBytes raw

def decodeFloat : Reader UInt64 := do
  let raw ← read 8
  return UInt64.ofNat (ofBeBytes raw)

def decodeBytes : Reader Bytes := do
  let size ← read 4
  read (ofBeBytes size)

def decodeText : Reader Str := do
  let raw ← decodeBytes
  match utf8Decode raw with
  | some s => pure s
  | none => throw (consensusError "text field is not valid utf-8")

/-! ## Transactions -/

/-- `OutPoint` -/
structure OutPoint where
  txid : Str
  index : Int
  deriving DecidableEq, Repr

/-- The dictionary a public key is given as: its two named entries, and the entries under other
keys. -/
structure PublicKeyDict where
  algorithm : Option Str
  key : Option Str
  others : List (Str × Str)
  deriving DecidableEq, Repr

/-- Whether the dictionary is falsy. -/
def PublicKeyDict.isEmpty (d : PublicKeyDict) : Bool :=
  d.algorithm.isNone && d.key.isNone && d.others.isEmpty

/-- `PublicKey.from_dict`; `none` is its `KeyError`. -/
def PublicKey.fromDict (d : PublicKeyDict) : Option PublicKey := do
  let algorithm ← d.algorithm
  let key ← d.key
  return ⟨algorithm, key⟩

/-- `PublicKey.to_dict` -/
def PublicKey.toDict (k : PublicKey) : PublicKeyDict := ⟨some k.algorithm, some k.key, []⟩

/-- `TxInput` -/
structure TxInput where
  previousOutput : OutPoint
  signature : Option Str := none
  publicKey : Option PublicKeyDict := none
  deriving DecidableEq, Repr

/-- `TxOutput` -/
structure TxOutput where
  amount : Int
  address : Str
  deriving DecidableEq, Repr

/-- `ConsensusTransaction` -/
structure ConsensusTransaction where
  inputs : List TxInput
  outputs : List TxOutput
  version : Int := 1
  deriving DecidableEq, Repr

def OutPoint.toBytes (o : OutPoint) : Except PyError Bytes := do
  let txid ← encodeHash o.txid
  let index ← encodeInt o.index
  return txid ++ index

/-- The signature of an input, after its presence flag. -/
def TxInput.signatureBytes (i : TxInput) : Except PyError Bytes :=
  match i.signature with
  | none => pure [0]
  | some s => (1 :: ·) <$> encodeText s

/-- The public key of an input, after its presence flag; an entry that is missing is encoded as an
empty text. -/
def TxInput.publicKeyBytes (i : TxInput) : Except PyError Bytes :=
  match i.publicKey with
  | none => pure [0]
  | some d => do
    let algorithm ← encodeText (d.algorithm.getD [])
    let key ← encodeText (d.key.getD [])
    return 1 :: (algorithm ++ key)

def TxInput.witnessBytes (i : TxInput) : Except PyError Bytes := do
  let signature ← i.signatureBytes
  let publicKey ← i.publicKeyBytes
  return signature ++ publicKey

def TxInput.toBytes (i : TxInput) (includeWitness : Bool := true) : Except PyError Bytes := do
  let payload ← i.previousOutput.toBytes
  if includeWitness then
    let witness ← i.witnessBytes
    return payload ++ witness
  else
    return payload

def TxOutput.toBytes (o : TxOutput) : Except PyError Bytes := do
  let amount ← encodeUint o.amount
  let address ← encodeText o.address
  return amount ++ address

/-- `b"bcctx" + struct.pack(">H", BINARY_CODEC_VERSION)` -/
def transactionMagic : Bytes := [98, 99, 99, 116, 120, 0, 1]

def ConsensusTransaction.toBytes (t : ConsensusTransaction) (includeWitness : Bool := true) :
    Except PyError Bytes := do
  let version ← encodeInt t.version
  let inputCount ← encodeUint t.inputs.length
  let inputs ← t.inputs.mapM (·.toBytes includeWitness)
  let outputCount ← encodeUint t.outputs.length
  let outputs ← t.outputs.mapM (·.toBytes)
  return transactionMagic ++ version ++ inputCount ++ inputs.flatten ++ outputCount ++ outputs.flatten

/-- `ConsensusTransaction.txid` -/
def ConsensusTransaction.txid (t : ConsensusTransaction) : Except PyError Str := do
  let payload ← t.toBytes
  return sha256Hex payload

/-- `ConsensusTransaction.is_coinbase` -/
def ConsensusTransaction.isCoinbase (t : ConsensusTransaction) : Bool :=
  match t.inputs with
  | [i] => i.previousOutput.txid == zeroHash && decide (i.previousOutput.index < 0)
  | _ => false

/-- `ConsensusTransaction.signing_message` -/
def ConsensusTransaction.signingMessage (t : ConsensusTransaction) (inputIndex : Nat) : Str :=
  jsonObject
    [jsonField "input_index" (jsonInt inputIndex),
      jsonField "inputs" (jsonArray (t.inputs.map fun i =>
        jsonObject [jsonField "previous_output" (jsonObject
          [jsonField "index" (jsonInt i.previousOutput.index),
            jsonField "txid" (jsonText i.previousOutput.txid)])])),
      jsonField "outputs" (jsonArray (t.outputs.map fun o =>
        jsonObject [jsonField "address" (jsonText o.address), jsonField "amount" (jsonInt o.amount)])),
      jsonField "version" (jsonInt t.version)]

/-- `ConsensusTransaction.sign_input` -/
def ConsensusTransaction.signInput (t : ConsensusTransaction) (inputIndex : Int) (wallet : Wallet) :
    Except PyError ConsensusTransaction := do
  raiseIf (inputIndex < 0 ∨ t.inputs.length ≤ inputIndex) (consensusError "input index out of range")
  let i := inputIndex.toNat
  return { t with inputs := t.inputs.modify i fun x =>
    ⟨x.previousOutput, some (wallet.sign (t.signingMessage i)), some wallet.publicKey.toDict⟩ }

def OutPoint.fromReader : Reader OutPoint := do
  let txid ← read 32
  let index ← decodeInt
  return ⟨hexEncode txid, index⟩

/-- The public key of an input, as the dictionary it is decoded to. -/
def decodePublicKey : Reader PublicKeyDict := do
  let algorithm ← decodeText
  let key ← decodeText
  return ⟨some algorithm, some key, []⟩

def TxInput.fromReader (includeWitness : Bool := true) : Reader TxInput := do
  let previousOutput ← OutPoint.fromReader
  if includeWitness then
    let signature ← readOptional decodeText "signature presence flag is invalid"
    let publicKey ← readOptional decodePublicKey "public key presence flag is invalid"
    return ⟨previousOutput, signature, publicKey⟩
  else
    return ⟨previousOutput, none, none⟩

def TxOutput.fromReader : Reader TxOutput := do
  let amount ← decodeUint
  let address ← decodeText
  return ⟨amount, address⟩

def ConsensusTransaction.fromReader (includeWitness : Bool := true) : Reader ConsensusTransaction := do
  readExpected (transactionMagic.take 5) "transaction binary magic is invalid"
  readExpected (transactionMagic.drop 5) "transaction binary codec version is unsupported"
  let version ← decodeInt
  let inputCount ← decodeUint
  let inputs ← readMany (TxInput.fromReader includeWitness) inputCount
  let outputCount ← decodeUint
  let outputs ← readMany TxOutput.fromReader outputCount
  return ⟨inputs, outputs, version⟩

/-- `ConsensusTransaction.from_bytes` -/
def ConsensusTransaction.fromBytes (payload : Bytes) (includeWitness : Bool := true) :
    Except PyError ConsensusTransaction :=
  (finished (ConsensusTransaction.fromReader includeWitness)).run' payload

/-! ## Blocks -/

/-- `bytes.fromhex` -/
def bytesFromhex (value : Str) : Except PyError Bytes :=
  match hexDecode value with
  | some raw => .ok raw
  | none => .error (valueError "non-hexadecimal number found in fromhex() arg")

/-- `bytes.fromhex(sha256_hex(left + right))` -/
def merkleCombine (left right : Bytes) : Bytes := Sha256.digest (left ++ right)

/-- `calculate_transaction_root` -/
def calculateTransactionRoot (transactions : List ConsensusTransaction) : Except PyError Str := do
  if transactions = [] then
    return sha256Hex []
  else
    let layer ← transactions.mapM fun t => t.txid >>= bytesFromhex
    return hexEncode ((Merkle.top merkleCombine layer).headD [])

/-- `ConsensusBlock`, its timestamp as the 64-bit pattern of the float. -/
structure ConsensusBlock where
  height : Int
  previousHash : Str
  transactions : List ConsensusTransaction
  difficulty : Int
  timestamp : UInt64
  nonce : Int := 0
  transactionRoot : Str
  version : Int := 1
  deriving DecidableEq, Repr

/-- The constructor with its `__post_init__`: an omitted transaction root is computed. -/
def ConsensusBlock.create (height : Int) (previousHash : Str) (transactions : List ConsensusTransaction)
    (difficulty : Int) (timestamp : UInt64) (nonce : Int := 0) (transactionRoot : Str := [])
    (version : Int := 1) : Except PyError ConsensusBlock := do
  let root ← if transactionRoot = [] then calculateTransactionRoot transactions else pure transactionRoot
  return ⟨height, previousHash, transactions, difficulty, timestamp, nonce, root, version⟩

/-- `b"bccblk" + struct.pack(">H", BINARY_CODEC_VERSION)` -/
def blockMagic : Bytes := [98, 99, 99, 98, 108, 107, 0, 1]

def ConsensusBlock.headerBytes (b : ConsensusBlock) : Except PyError Bytes := do
  let version ← encodeInt b.version
  let height ← encodeInt b.height
  let previousHash ← encodeHash b.previousHash
  let transactionRoot ← encodeHash b.transactionRoot
  let difficulty ← encodeInt b.difficulty
  let nonce ← encodeInt b.nonce
  return blockMagic ++ version ++ height ++ previousHash ++ transactionRoot ++ difficulty ++
    encodeFloat b.timestamp ++ nonce

/-- `ConsensusBlock.hash` -/
def ConsensusBlock.hash (b : ConsensusBlock) : Except PyError Str := do
  let header ← b.headerBytes
  return sha256Hex header

def ConsensusBlock.toBytes (b : ConsensusBlock) : Except PyError Bytes := do
  let header ← b.headerBytes
  let count ← encodeUint b.transactions.length
  let transactions ← b.transactions.mapM fun t => t.toBytes >>= encodeBytes
  return header ++ count ++ transactions.flatten

/-- A transaction in a block: a length, and the payload `from_bytes` is called on. -/
def ConsensusTransaction.decodeField : Reader ConsensusTransaction := do
  let raw ← decodeBytes
  ConsensusTransaction.fromBytes raw

def ConsensusBlock.fromReader : Reader ConsensusBlock := do
  readExpected (blockMagic.take 6) "block binary magic is invalid"
  readExpected (blockMagic.drop 6) "block binary codec version is unsupported"
  let version ← decodeInt
  let height ← decodeInt
  let previousHash ← read 32
  let transactionRoot ← read 32
  let difficulty ← decodeInt
  let timestamp ← decodeFloat
  let nonce ← decodeInt
  let count ← decodeUint
  let transactions ← readMany ConsensusTransaction.decodeField count
  return ⟨height, hexEncode previousHash, transactions, difficulty, timestamp, nonce,
    hexEncode transactionRoot, version⟩

/-- `ConsensusBlock.from_bytes`; the decoded root is not empty, so `__post_init__` keeps it. -/
def ConsensusBlock.fromBytes (payload : Bytes) : Except PyError ConsensusBlock :=
  (finished ConsensusBlock.fromReader).run' payload

end BCC.Impl
