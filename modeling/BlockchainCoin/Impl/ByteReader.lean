import BlockchainCoin.Framework.Cursor
import BlockchainCoin.Impl.Transaction

/-!
# `consensus.py`: the decoders on their cursor

`_ByteReader` with its payload and its offset, and the decoders that read from it. Each is
the one of the same name on the bytes that are left, and logs its reads and the elements it
begins to decode: inputs, outputs and the transactions of a block. A transaction of a block
has a reader of its own, on the chunk that the outer one read.
-/

namespace BCC.Impl

open PyError

/-- `_ByteReader` -/
abbrev ByteReader := Cursor UInt8

namespace ByteReader

/-- `_ByteReader.read` -/
def read (size : Nat) : Method ByteReader PyError Bytes := Cursor.read (consensusError "binary payload is truncated") size

/-- `_ByteReader.require_finished` -/
def requireFinished : Method ByteReader PyError Unit := do
  let r ← get
  if r.offset ≠ r.payload.length then throw (consensusError "binary payload has trailing bytes") else return ()

/-- `if reader.read(len(expected)) != expected: raise` -/
def readExpected (expected : Bytes) (message : String) : Method ByteReader PyError Unit := do
  let raw ← read expected.length
  if raw = expected then return () else throw (consensusError message)

/-- A presence flag, and the item it announces. -/
def readOptional {α : Type} (item : Method ByteReader PyError α) (message : String) :
    Method ByteReader PyError (Option α) := do
  let present ← read 1
  if present = [0] then return none
  else if present = [1] then do
    let a ← item
    return some a
  else throw (consensusError message)

/-- `_decode_int` -/
def decodeInt : Method ByteReader PyError Int := do
  let raw ← read 8
  let n : Int := ofBeBytes raw
  return if n < 2 ^ 63 then n else n - 2 ^ 64

/-- `_decode_uint` -/
def decodeUint : Method ByteReader PyError Nat := do
  let raw ← read 8
  return ofBeBytes raw

/-- `_decode_float` -/
def decodeFloat : Method ByteReader PyError UInt64 := do
  let raw ← read 8
  return UInt64.ofNat (ofBeBytes raw)

/-- `_decode_bytes` -/
def decodeBytes : Method ByteReader PyError Bytes := do
  let size ← read 4
  read (ofBeBytes size)

/-- `_decode_text` -/
def decodeText : Method ByteReader PyError Str := do
  let raw ← decodeBytes
  match utf8Decode raw with
  | some s => return s
  | none => throw (consensusError "text field is not valid utf-8")

/-- `OutPoint.from_reader` -/
def outPoint : Method ByteReader PyError OutPoint := do
  let txid ← read 32
  let index ← decodeInt
  return ⟨hexEncode txid, index⟩

/-- The dictionary of a public key. -/
def publicKey : Method ByteReader PyError PublicKeyDict := do
  let algorithm ← decodeText
  let key ← decodeText
  return ⟨some algorithm, some key, []⟩

/-- `TxInput.from_reader` -/
def txInput (includeWitness : Bool) : Method ByteReader PyError TxInput := do
  let previousOutput ← outPoint
  if includeWitness then do
    let signature ← readOptional decodeText "signature presence flag is invalid"
    let publicKey ← readOptional publicKey "public key presence flag is invalid"
    return ⟨previousOutput, signature, publicKey⟩
  else return ⟨previousOutput, none, none⟩

/-- `TxOutput.from_reader` -/
def txOutput : Method ByteReader PyError TxOutput := do
  let amount ← decodeUint
  let address ← decodeText
  return ⟨amount, address⟩

/-- `ConsensusTransaction.from_bytes`, on its reader. -/
def transaction (includeWitness : Bool) : Method ByteReader PyError ConsensusTransaction := do
  readExpected (transactionMagic.take 5) "transaction binary magic is invalid"
  readExpected (transactionMagic.drop 5) "transaction binary codec version is unsupported"
  let version ← decodeInt
  let inputCount ← decodeUint
  let inputs ← Cursor.many (txInput includeWitness) inputCount
  let outputCount ← decodeUint
  let outputs ← Cursor.many txOutput outputCount
  requireFinished
  return ⟨inputs, outputs, version⟩

/-- `ConsensusTransaction.from_bytes(_decode_bytes(reader))` -/
def transactionField : Method ByteReader PyError ConsensusTransaction := do
  let raw ← decodeBytes
  Cursor.nested raw (transaction true)

/-- `ConsensusBlock.from_bytes`, on its reader. -/
def block : Method ByteReader PyError ConsensusBlock := do
  readExpected (blockMagic.take 6) "block binary magic is invalid"
  readExpected (blockMagic.drop 6) "block binary codec version is unsupported"
  let version ← decodeInt
  let height ← decodeInt
  let previousHash ← read 32
  let transactionRoot ← read 32
  let difficulty ← decodeInt
  let timestamp ← decodeFloat
  let nonce ← decodeInt
  let count ← decodeUint
  let transactions ← Cursor.many transactionField count
  requireFinished
  return ⟨height, hexEncode previousHash, transactions, difficulty, timestamp, nonce, hexEncode transactionRoot, version⟩

end ByteReader

end BCC.Impl
