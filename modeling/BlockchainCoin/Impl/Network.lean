import BlockchainCoin.Impl.Transaction

/-!
# `network.py`: messages and frames

A peer message is decoded from a JSON value, which may be anything, so every
access to it raises what Python raises there: `AttributeError` from a method the
value does not have, `KeyError`, `TypeError`, `ValueError` and `OverflowError`.
The texts of numbers and of containers, and the JSON decoder, are Python's own and
parameters (`PyText`).
-/

namespace BCC.Impl

open PyError

/-! ## JSON values -/

/-- A value of `json.loads`; a float is given by its 64-bit pattern. -/
inductive Json
  | null
  | bool (value : Bool)
  | int (value : Int)
  | float (bits : UInt64)
  | str (value : Str)
  | arr (items : List Json)
  | obj (fields : List (Str × Json))

/-- What is left open of Python's texts: `repr` of floats, lists and dictionaries, `int` and `float` of texts,
the JSON text of a float, and `json.loads`. -/
class PyText where
  repr : Json → Str
  parseInt : Str → Option Int
  parseFloat : Str → Option UInt64
  floatText : UInt64 → Str
  loads : Bytes → Except PyError Json

namespace Json

/-- `value.get(key)`, where a key that is not there gives `None`. -/
def get (value : Json) (key : String) : Except PyError Json :=
  match value with
  | obj fields => .ok ((fields.lookup key.toList).getD null)
  | _ => .error (attributeError "object has no attribute 'get'")

/-- `value[key]` -/
def item (value : Json) (key : String) : Except PyError Json :=
  match value with
  | obj fields =>
    match fields.lookup key.toList with
    | some v => .ok v
    | none => .error (keyError key)
  | _ => .error (typeError "indices must be integers")

/-- `bool(value)` -/
def truthy : Json → Bool
  | null => false
  | bool value => value
  | int value => value ≠ 0
  | float bits => bits % 2 ^ 63 ≠ 0
  | str value => value ≠ []
  | arr items => !items.isEmpty
  | obj fields => !fields.isEmpty

/-- The value of an `int`, of which `bool` is a subclass. -/
def asInt : Json → Option Int
  | int value => some value
  | bool value => some (if value then 1 else 0)
  | _ => none

/-- `value is None` -/
def isNull : Json → Bool
  | null => true
  | _ => false

/-- `isinstance(value, int)`, and not below a bound. -/
def isIntFrom (low : Int) (value : Json) : Bool := value.asInt.any (low ≤ ·)

/-- `isinstance(value, str) and value` -/
def isNonEmptyText : Json → Bool
  | str value => value ≠ []
  | _ => false

/-- `value == s`, for a text `s`. -/
def isText (s : Str) : Json → Bool
  | str value => value = s
  | _ => false

/-- `str(value)` -/
def text [PyText] : Json → Str
  | str value => value
  | int value => jsonInt value
  | bool true => ['T', 'r', 'u', 'e']
  | bool false => ['F', 'a', 'l', 's', 'e']
  | null => ['N', 'o', 'n', 'e']
  | value => PyText.repr value

/-- `int(value)` of a float, which drops what is after the point. -/
def intOfFloat (bits : UInt64) : Except PyError Int :=
  let exponent := bits.toNat / 2 ^ 52 % 2 ^ 11
  let fraction := bits.toNat % 2 ^ 52
  if exponent = 2047 then
    .error (if fraction = 0 then overflowError "cannot convert float infinity to integer"
      else valueError "cannot convert float NaN to integer")
  else
    let significand := if exponent = 0 then fraction else fraction + 2 ^ 52
    let magnitude : Int := (significand * 2 ^ exponent / 2 ^ 1075 : Nat)
    .ok (if bits.toNat < 2 ^ 63 then magnitude else -magnitude)

/-- `int(value)` -/
def toInt [PyText] : Json → Except PyError Int
  | int value => .ok value
  | bool value => .ok (if value then 1 else 0)
  | float bits => intOfFloat bits
  | str value =>
    match PyText.parseInt value with
    | some i => .ok i
    | none => .error (valueError "invalid literal for int() with base 10")
  | _ => .error (typeError "int() argument must be a string, a bytes-like object or a real number")

/-- The nearest float to a positive integer, ties to the even one, as the 63 bits after the sign. -/
def floatOfNat (n : Nat) : Except PyError Nat :=
  let shift := n.log2 - 52
  let quotient := n / 2 ^ shift
  let rest := 2 * (n % 2 ^ shift)
  let rounded := if 2 ^ shift < rest ∨ rest = 2 ^ shift ∧ quotient % 2 = 1 then quotient + 1 else quotient
  -- A significand that is rounded up to 2 ^ 53 carries into the exponent.
  let bits := (1075 + shift) * 2 ^ 52 + rounded - 2 ^ 52
  if n < 2 ^ 53 then .ok ((1023 + n.log2) * 2 ^ 52 + n * 2 ^ (52 - n.log2) - 2 ^ 52)
  else if bits < 2047 * 2 ^ 52 then .ok bits
  else .error (overflowError "int too large to convert to float")

/-- `float(value)` of an integer. -/
def floatOfInt (value : Int) : Except PyError UInt64 :=
  if value = 0 then .ok 0
  else do
    let bits ← floatOfNat value.natAbs
    return (UInt64.ofNat (if value < 0 then 2 ^ 63 + bits else bits))

/-- `float(value)` -/
def toFloat [PyText] : Json → Except PyError UInt64
  | float bits => .ok bits
  | int value => floatOfInt value
  | bool value => floatOfInt (if value then 1 else 0)
  | str value =>
    match PyText.parseFloat value with
    | some bits => .ok bits
    | none => .error (valueError "could not convert string to float")
  | _ => .error (typeError "float() argument must be a string or a real number")

/-- What a loop over the value goes through. -/
def iter : Json → Except PyError (List Json)
  | arr items => .ok items
  | obj fields => .ok (fields.map fun e => str e.1)
  | str value => .ok (value.map fun c => str [c])
  | _ => .error (typeError "object is not iterable")

/-- An element of a sequence of pairs that a dictionary is made from; a key that is no text is never looked up. -/
def toPair (element : Json) : Except PyError (Option (Str × Json)) := do
  let parts ← element.iter
  match parts with
  | [arr _, _] | [obj _, _] => throw (typeError "unhashable type")
  | [str key, value] => return some (key, value)
  | [_, _] => return none
  | _ => throw (valueError "dictionary update sequence element has a length other than 2")

/-- `dict(value)`; of two pairs with one key the later counts. -/
def toDict : Json → Except PyError Json
  | obj fields => .ok (obj fields)
  | value => do
    let elements ← value.iter
    let pairs ← elements.mapM toPair
    return obj (pairs.reduceOption.reverse)

end Json

/-! ### Encoding -/

mutual

/-- `canonical_json` -/
def canonicalJson [PyText] : Json → Str
  | .null => ['n', 'u', 'l', 'l']
  | .bool true => ['t', 'r', 'u', 'e']
  | .bool false => ['f', 'a', 'l', 's', 'e']
  | .int value => jsonInt value
  | .float bits => PyText.floatText bits
  | .str value => jsonText value
  | .arr items => jsonArray (canonicalItems items)
  | .obj fields => jsonObject (((canonicalFields fields).insertionSort fun a b => a.1 ≤ b.1).map fun e =>
      jsonText e.1 ++ ':' :: e.2)

def canonicalItems [PyText] : List Json → List Str
  | [] => []
  | item :: items => canonicalJson item :: canonicalItems items

def canonicalFields [PyText] : List (Str × Json) → List (Str × Str)
  | [] => []
  | (key, value) :: fields => (key, canonicalJson value) :: canonicalFields fields

end

/-! ## Frames: constants and authentication -/

/-- `NETWORK_MAGIC`: `b"BCCN"` -/
def networkMagic : Bytes := [66, 67, 67, 78]

def protocolVersion : Int := 1

def maxMessageSize : Nat := 2000000

def maxInventoryItems : Nat := 2000

def headerSize : Nat := 8

def authTagSize : Nat := 32

/-- `hmac.new(key, message, sha256).digest()`, for blocks of 64 bytes. -/
def hmacSha256 (key message : Bytes) : Bytes :=
  let short := if 64 < key.length then Sha256.digest key else key
  let block := short ++ List.replicate (64 - short.length) 0
  Sha256.digest (block.map (· ^^^ 0x5c) ++ Sha256.digest (block.map (· ^^^ 0x36) ++ message))

/-- `FrameAuthenticator(key).tag` -/
def frameTag (key headerAndPayload : Bytes) : Except PyError Bytes := do
  raiseIf (key = []) (networkError "frame authentication key is required")
  return hmacSha256 key headerAndPayload

/-- `FrameAuthenticator(key).verify` -/
def frameVerify (key headerAndPayload tag : Bytes) : Except PyError Unit := do
  raiseIf (key = []) (networkError "frame authentication key is required")
  raiseIf (tag.length ≠ authTagSize) (networkError "frame authentication tag is invalid")
  raiseIf (hmacSha256 key headerAndPayload ≠ tag) (networkError "frame authentication failed")

/-! ## Inventory and headers -/

def isHashText (s : Str) : Bool := s.length == 64 && s.all hexDigits.contains

/-- `_is_hash` -/
def isHash : Json → Bool
  | .str s => isHashText s
  | _ => false

/-- `InventoryVector` -/
structure InventoryVector where
  kind : Str
  hash : Str
  deriving DecidableEq

def kindTx : Str := ['t', 'x']

def kindBlock : Str := ['b', 'l', 'o', 'c', 'k']

/-- The kind under which a session remembers a header: `"block_header"`. -/
def kindHeader : Str := ['b', 'l', 'o', 'c', 'k', '_', 'h', 'e', 'a', 'd', 'e', 'r']

namespace InventoryVector

def toDict (v : InventoryVector) : Json := .obj [("kind".toList, .str v.kind), ("hash".toList, .str v.hash)]

/-- `InventoryVector.from_dict` -/
def fromDict [PyText] (data : Json) : Except PyError InventoryVector := do
  let kind ← data.item "kind"
  let itemHash ← data.item "hash"
  raiseIf (kind.text ≠ kindTx ∧ kind.text ≠ kindBlock) (networkError "inventory kind is invalid")
  raiseIf (isHashText itemHash.text = false) (networkError "inventory hash is invalid")
  return ⟨kind.text, itemHash.text⟩

end InventoryVector

/-- `BlockHeader`; the timestamp is the 64-bit pattern of the float. -/
structure BlockHeader where
  height : Int
  previousHash : Str
  transactionRoot : Str
  difficulty : Int
  timestamp : UInt64
  nonce : Int
  version : Int := 1
  deriving DecidableEq

namespace BlockHeader

def fromBlock (b : ConsensusBlock) : BlockHeader :=
  ⟨b.height, b.previousHash, b.transactionRoot, b.difficulty, b.timestamp, b.nonce, b.version⟩

/-- `BlockHeader.hash`: the hash of the block with this header and no transactions. -/
def hash (h : BlockHeader) : Except PyError Str :=
  ConsensusBlock.hash {
    height := h.height
    previousHash := h.previousHash
    transactions := []
    difficulty := h.difficulty
    timestamp := h.timestamp
    nonce := h.nonce
    transactionRoot := h.transactionRoot
    version := h.version }

def toDict (h : BlockHeader) : Except PyError Json := do
  let hash ← h.hash
  return .obj [
    ("difficulty".toList, .int h.difficulty),
    ("hash".toList, .str hash),
    ("height".toList, .int h.height),
    ("nonce".toList, .int h.nonce),
    ("previous_hash".toList, .str h.previousHash),
    ("timestamp".toList, .float h.timestamp),
    ("transaction_root".toList, .str h.transactionRoot),
    ("version".toList, .int h.version)]

/-- `except (KeyError, TypeError, ValueError)`, with the subclasses of `ValueError`. -/
def isMalformed : PyError → Bool
  | keyError _ | typeError _ | valueError _ | consensusError _ | networkError _ | peerManagerError _ => true
  | _ => false

/-- The fields of a header, as they are converted. -/
def readFields [PyText] (data : Json) : Except PyError BlockHeader := do
  let height ← data.item "height" >>= Json.toInt
  let previousHash ← data.item "previous_hash"
  let transactionRoot ← data.item "transaction_root"
  let difficulty ← data.item "difficulty" >>= Json.toInt
  let timestamp ← data.item "timestamp" >>= Json.toFloat
  let nonce ← data.item "nonce" >>= Json.toInt
  let version ← match data with
    | .obj fields => ((fields.lookup "version".toList).getD (.int 1)).toInt
    | _ => throw (attributeError "object has no attribute 'get'")
  return ⟨height, previousHash.text, transactionRoot.text, difficulty, timestamp, nonce, version⟩

/-- `BlockHeader.from_dict` -/
def fromDict [PyText] (data : Json) : Except PyError BlockHeader := do
  let header ← catchAs (readFields data) isMalformed (networkError "block header is malformed")
  let headerHash ← data.get "hash"
  raiseIf (header.height < 0) (networkError "block header height is invalid")
  raiseIf (header.difficulty < 0) (networkError "block header difficulty is invalid")
  raiseIf (header.version ≠ 1) (networkError "block header version is unsupported")
  raiseIf (isHashText header.previousHash = false) (networkError "block header previous hash is invalid")
  raiseIf (isHashText header.transactionRoot = false) (networkError "block header transaction root is invalid")
  match headerHash with
  | .null => return header
  | given => do
    let hash ← header.hash
    raiseIf (given.isText hash = false) (networkError "block header hash is invalid")
    return header

end BlockHeader

/-- The loop of `validate_header_chain`, after a header with this hash and height. -/
def validateHeaders : Option (Str × Int) → List BlockHeader → Except PyError Unit
  | _, [] => .ok ()
  | prior, header :: headers => do
    let hash ← header.hash
    raiseIf (¬ (List.replicate header.difficulty.toNat '0').isPrefixOf hash = true)
      (networkError "block header proof of work is invalid")
    match prior with
    | none => pure ()
    | some (priorHash, priorHeight) => do
      raiseIf (header.previousHash ≠ priorHash) (networkError "block headers are disconnected")
      raiseIf (header.height ≠ priorHeight + 1) (networkError "block header height is not sequential")
    validateHeaders (some (hash, header.height)) headers

/-- `validate_header_chain`, without an anchor. -/
def validateHeaderChain (headers : List BlockHeader) : Except PyError (List BlockHeader) := do
  validateHeaders none headers
  return headers

/-- `headers_from_payload` -/
def headersFromPayload [PyText] (payload : Json) : Except PyError (List BlockHeader) := do
  let headers ← payload.get "headers"
  match headers with
  | .arr items => do
    raiseIf (2000 < items.length) (networkError "headers payload is too large")
    let headers ← items.mapM fun header => header.toDict >>= BlockHeader.fromDict
    validateHeaderChain headers
  | _ => throw (networkError "headers payload is invalid")

/-! ## Payloads of transactions and blocks -/

/-- `except (ConsensusError, ValueError)` -/
def isPayloadError : PyError → Bool
  | valueError _ | consensusError _ | networkError _ | peerManagerError _ => true
  | _ => false

/-- `transaction_from_payload` -/
def transactionFromPayload (payload : Json) : Except PyError ConsensusTransaction := do
  let rawTransaction ← payload.get "transaction_bytes"
  match rawTransaction with
  | .str value =>
    catchAs (bytesFromhex value >>= fun raw => ConsensusTransaction.fromBytes raw) isPayloadError
      (networkError "transaction binary payload is invalid")
  | _ => throw (networkError "transaction payload is invalid")

/-- `block_from_payload` -/
def blockFromPayload (payload : Json) : Except PyError ConsensusBlock := do
  let rawBlock ← payload.get "block_bytes"
  match rawBlock with
  | .str value =>
    catchAs (bytesFromhex value >>= ConsensusBlock.fromBytes) isPayloadError
      (networkError "block binary payload is invalid")
  | _ => throw (networkError "block payload is invalid")

/-! ## Messages -/

/-- `MessageType` -/
inductive MessageType
  | version
  | verack
  | ping
  | pong
  | inv
  | getdata
  | getheaders
  | headers
  | tx
  | block
  | reject
  deriving DecidableEq

namespace MessageType

def all : List MessageType := [version, verack, ping, pong, inv, getdata, getheaders, headers, tx, block, reject]

def value : MessageType → Str
  | version => ['v', 'e', 'r', 's', 'i', 'o', 'n']
  | verack => ['v', 'e', 'r', 'a', 'c', 'k']
  | ping => ['p', 'i', 'n', 'g']
  | pong => ['p', 'o', 'n', 'g']
  | inv => ['i', 'n', 'v']
  | getdata => ['g', 'e', 't', 'd', 'a', 't', 'a']
  | getheaders => ['g', 'e', 't', 'h', 'e', 'a', 'd', 'e', 'r', 's']
  | headers => ['h', 'e', 'a', 'd', 'e', 'r', 's']
  | tx => kindTx
  | block => kindBlock
  | reject => ['r', 'e', 'j', 'e', 'c', 't']

/-- `MessageType(value)` -/
def ofValue (value : Str) : Except PyError MessageType :=
  match all.find? fun t => t.value = value with
  | some t => .ok t
  | none => .error (valueError "is not a valid MessageType")

end MessageType

/-- `PeerMessage` -/
structure PeerMessage where
  messageType : MessageType
  payload : Json
  version : Int := protocolVersion

namespace PeerMessage

def toDict (m : PeerMessage) : Json :=
  .obj [("type".toList, .str m.messageType.value), ("version".toList, .int m.version), ("payload".toList, m.payload)]

section

variable [PyText]

def encodePayload (m : PeerMessage) : Bytes := utf8Encode (canonicalJson m.toDict)

/-- `PeerMessage.to_frame` -/
def toFrame (m : PeerMessage) (authKey : Bytes) : Except PyError Bytes := do
  let payload := m.encodePayload
  raiseIf (maxMessageSize < payload.length) (networkError "message exceeds maximum size")
  let frame := networkMagic ++ beBytes 4 payload.length ++ payload
  let tag ← frameTag authKey frame
  return frame ++ tag

/-! ### Validation -/

def validateEmpty (payload : Json) : Except PyError Unit :=
  raiseIf (payload.truthy = true) (networkError "message payload must be empty")

omit [PyText] in
def validateVersion (payload : Json) : Except PyError Unit := do
  let network ← payload.get "network"
  let height ← payload.get "height"
  let nodeId ← payload.get "node_id"
  raiseIf (network.isNonEmptyText = false) (networkError "version network is invalid")
  raiseIf (height.isIntFrom (-1) = false) (networkError "version height is invalid")
  raiseIf (nodeId.isNonEmptyText = false) (networkError "version node id is invalid")

omit [PyText] in
def validateNonce (payload : Json) : Except PyError Unit := do
  let nonce ← payload.get "nonce"
  raiseIf (nonce.isIntFrom 0 = false) (networkError "nonce is invalid")

/-- `_validate_inventory` -/
def validateInventory (payload : Json) : Except PyError Unit := do
  let items ← payload.get "items"
  match items with
  | .arr items => do
    raiseIf (maxInventoryItems < items.length) (networkError "inventory items exceed maximum count")
    items.forM fun item => do
      let data ← item.toDict
      let _ ← InventoryVector.fromDict data
      pure ()
  | _ => throw (networkError "inventory items are invalid")

omit [PyText] in
/-- `_validate_getheaders` -/
def validateGetheaders (payload : Json) : Except PyError Unit := do
  let locator ← payload.get "locator"
  let stopHash ← payload.get "stop_hash"
  let limit ← payload.get "limit"
  match locator with
  | .arr items => do
    raiseIf (limit.isIntFrom 0 = false ∨ limit.isIntFrom 2001 = true) (networkError "header limit is invalid")
    raiseIf (stopHash.isNull = false ∧ isHash stopHash = false) (networkError "header stop hash is invalid")
    items.forM fun item => raiseIf (isHash item = false) (networkError "header locator hash is invalid")
  | _ => throw (networkError "header locator is invalid")

/-- `_validate_headers` -/
def validateHeadersPayload (payload : Json) : Except PyError Unit := do
  let _ ← headersFromPayload payload
  pure ()

omit [PyText] in
def validateTransaction (payload : Json) : Except PyError Unit := do
  let _ ← transactionFromPayload payload
  pure ()

omit [PyText] in
def validateBlock (payload : Json) : Except PyError Unit := do
  let _ ← blockFromPayload payload
  pure ()

omit [PyText] in
def validateReject (payload : Json) : Except PyError Unit := do
  let reason ← payload.get "reason"
  raiseIf (reason.isNonEmptyText = false) (networkError "reject reason is invalid")

/-- `PeerMessage.validate_payload` -/
def validatePayload (m : PeerMessage) : Except PyError Unit :=
  match m.messageType with
  | .version => validateVersion m.payload
  | .verack => validateEmpty m.payload
  | .ping | .pong => validateNonce m.payload
  | .inv | .getdata => validateInventory m.payload
  | .getheaders => validateGetheaders m.payload
  | .headers => validateHeadersPayload m.payload
  | .tx => validateTransaction m.payload
  | .block => validateBlock m.payload
  | .reject => validateReject m.payload

/-! ### Decoding -/

/-- The fields of a message, as they are converted. -/
def readFields (data : Json) : Except PyError PeerMessage := do
  let value ← data.item "type"
  let messageType ← MessageType.ofValue value.text
  let version ← data.item "version" >>= Json.toInt
  let payload ← data.item "payload"
  return ⟨messageType, payload, version⟩

/-- `PeerMessage.from_dict` -/
def fromDict (data : Json) : Except PyError PeerMessage := do
  let message ← catchAs (readFields data) BlockHeader.isMalformed (networkError "message is malformed")
  raiseIf (message.version ≠ protocolVersion) (networkError "protocol version is unsupported")
  message.validatePayload
  return message

/-- `except (UnicodeDecodeError, json.JSONDecodeError)` -/
def isDecodeError : PyError → Bool
  | jsonDecodeError _ => true
  | _ => false

/-- `PeerMessage.from_frame` -/
def fromFrame (frame authKey : Bytes) : Except PyError PeerMessage := do
  raiseIf (frame.length < headerSize) (networkError "frame is too short")
  raiseIf (frame.take 4 ≠ networkMagic) (networkError "network magic is invalid")
  let size := ofBeBytes ((frame.take headerSize).drop 4)
  raiseIf (maxMessageSize < size) (networkError "message exceeds maximum size")
  let ending := headerSize + size
  let expectedSize := ending + authTagSize
  raiseIf (frame.length ≠ expectedSize) (networkError "frame payload length mismatch")
  frameVerify authKey (frame.take ending) ((frame.take expectedSize).drop ending)
  let payload := (frame.take ending).drop headerSize
  let decoded ← catchAs (PyText.loads payload) isDecodeError (networkError "frame payload is not valid JSON")
  match decoded with
  | .obj fields => fromDict (.obj fields)
  | _ => throw (networkError "message payload must be an object")

end

end PeerMessage

/-- `read_frame` -/
def readFrame [PyText] (buffer authKey : Bytes) : Except PyError (PeerMessage × Bytes) := do
  raiseIf (buffer.length < headerSize) (networkError "buffer does not contain a complete header")
  raiseIf (buffer.take 4 ≠ networkMagic) (networkError "network magic is invalid")
  let size := ofBeBytes ((buffer.take headerSize).drop 4)
  raiseIf (maxMessageSize < size) (networkError "message exceeds maximum size")
  let ending := headerSize + size + authTagSize
  raiseIf (buffer.length < ending) (networkError "buffer does not contain a complete frame")
  let message ← PeerMessage.fromFrame (buffer.take ending) authKey
  return (message, buffer.drop ending)

/-! ## Building messages -/

/-- `version_message` -/
def versionMessage (network : Str) (height : Int) (nodeId : Str) : PeerMessage :=
  ⟨.version, .obj [("network".toList, .str network), ("height".toList, .int height), ("node_id".toList, .str nodeId)],
    protocolVersion⟩

/-- `inventory_message`, for an `inv` or a `getdata` message. -/
def inventoryMessage (messageType : MessageType) (items : List InventoryVector) : PeerMessage :=
  ⟨messageType, .obj [("items".toList, .arr (items.map InventoryVector.toDict))], protocolVersion⟩

/-- `getheaders_message` -/
def getheadersMessage (locator : List Str) (stopHash : Option Str) (limit : Int) : PeerMessage :=
  ⟨.getheaders, .obj [("limit".toList, .int limit), ("locator".toList, .arr (locator.map .str)),
    ("stop_hash".toList, stopHash.elim .null .str)], protocolVersion⟩

/-- `headers_message` -/
def headersMessage (headers : List BlockHeader) : Except PyError PeerMessage := do
  let headers ← headers.mapM BlockHeader.toDict
  return ⟨.headers, .obj [("headers".toList, .arr headers)], protocolVersion⟩

/-- `transaction_message` -/
def transactionMessage (t : ConsensusTransaction) : Except PyError PeerMessage := do
  let payload ← t.toBytes
  return ⟨.tx, .obj [("transaction_bytes".toList, .str (hexEncode payload))], protocolVersion⟩

/-- `block_message` -/
def blockMessage (b : ConsensusBlock) : Except PyError PeerMessage := do
  let payload ← b.toBytes
  return ⟨.block, .obj [("block_bytes".toList, .str (hexEncode payload))], protocolVersion⟩

/-- A REJECT with a reason. -/
def rejectMessage (reason : String) : PeerMessage := ⟨.reject, .obj [("reason".toList, .str reason.toList)], protocolVersion⟩

end BCC.Impl
