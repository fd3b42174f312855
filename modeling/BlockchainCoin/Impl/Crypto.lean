import BlockchainCoin.Framework.Base64
import BlockchainCoin.Framework.Sha256

/-!
# `crypto.py` and `constants.py`

Hashing, canonical JSON text, addresses and signature verification. The
Ed25519 primitive itself belongs to the `cryptography` package and is a
parameter (`Ed25519`); everything around it, from the base64 text of keys and
signatures to the message that is signed, is here.
-/

namespace BCC.Impl

/-- The exceptions the node raises or meets, each with its message. -/
inductive PyError
  /-- `consensus.ConsensusError` -/
  | consensusError (message : String)
  /-- `storage.StorageError` -/
  | storageError (message : String)
  /-- `fork_choice.ForkChoiceError` -/
  | forkChoiceError (message : String)
  /-- `utxo_node.ConsensusNodeError` -/
  | consensusNodeError (message : String)
  /-- `utxo_node.MempoolPolicyError` -/
  | mempoolPolicyError (message : String)
  /-- `struct.error`, from an integer outside the range of its format -/
  | structError (message : String)
  /-- `ValueError`, from text that is not what a codec expects -/
  | valueError (message : String)
  /-- `OverflowError`, from an integer that SQLite cannot store -/
  | overflowError (message : String)
  /-- `sqlite3.IntegrityError`, from a second row with one primary key -/
  | integrityError (message : String)
  /-- `peers.PeerManagerError` -/
  | peerManagerError (message : String)
  /-- `network.NetworkError` -/
  | networkError (message : String)
  /-- `peer.PeerError` -/
  | peerError (message : String)
  /-- `service.NodeServiceError` -/
  | nodeServiceError (message : String)
  /-- `json.JSONDecodeError` or `UnicodeDecodeError`, from bytes that are no JSON text -/
  | jsonDecodeError (message : String)
  /-- `AttributeError`, from a method that a value does not have -/
  | attributeError (message : String)
  /-- `KeyError`, from a key that a dictionary does not have -/
  | keyError (message : String)
  /-- `TypeError`, from a value of another type than an operation takes -/
  | typeError (message : String)
  /-- `AssertionError` -/
  | assertionError
  /-- Not an exception: a loop of the source that does not end. -/
  | endless
  deriving DecidableEq, Repr

namespace PyError

/-- `str(exc)`. -/
def message : PyError → String
  | consensusError m | storageError m | forkChoiceError m | consensusNodeError m
  | mempoolPolicyError m | structError m | valueError m | overflowError m | integrityError m
  | peerManagerError m | networkError m | peerError m | nodeServiceError m | jsonDecodeError m | attributeError m
  | keyError m | typeError m => m
  | assertionError | endless => ""

def isConsensusError : PyError → Bool
  | consensusError _ => true
  | _ => false

def isStorageError : PyError → Bool
  | storageError _ => true
  | _ => false

end PyError

/-- `constants.MAX_MONEY` -/
def MAX_MONEY : Int := 21000000000000000

/-! ## Hashes and addresses -/

/-- `sha256_hex` on bytes. -/
def sha256Hex (data : Bytes) : Str := hexEncode (Sha256.digest data)

/-- `sha256_hex` on text. -/
def sha256HexText (data : Str) : Str := sha256Hex (utf8Encode data)

@[simp] theorem length_sha256Hex (data : Bytes) : (sha256Hex data).length = 64 := by
  rw [sha256Hex, length_hexEncode, Sha256.length_digest]

/-- The hash text of the parent of a genesis block, and of the output a coinbase spends: `"0" * 64`. -/
def zeroHash : Str := List.replicate 64 '0'

def addressPrefix : Str := ['b', 'c', 'c', '_']

/-- `is_valid_address` -/
def isValidAddress (address : Str) : Bool :=
  addressPrefix.isPrefixOf address &&
    (let suffix := address.drop addressPrefix.length
     suffix.length == 40 && suffix.all hexDigits.contains)

/-! ## Canonical JSON

The values that are signed are objects of integers, texts and lists of objects; their keys are
written in sorted order. -/

/-- The decimal text of an integer. -/
def jsonInt : Int → Str
  | .ofNat n => Nat.toDigits 10 n
  | .negSucc n => '-' :: Nat.toDigits 10 (n + 1)

/-- `\u` and the four hexadecimal digits of a UTF-16 code unit. -/
def jsonUnit (n : Nat) : Str :=
  ['\\', 'u', hexDigit (n / 4096 % 16), hexDigit (n / 256 % 16), hexDigit (n / 16 % 16), hexDigit (n % 16)]

/-- A character of a JSON text that is written in ASCII. -/
def jsonChar (c : Char) : Str :=
  if c = '"' then ['\\', '"']
  else if c = '\\' then ['\\', '\\']
  else if c = '\n' then ['\\', 'n']
  else if c = '\r' then ['\\', 'r']
  else if c = '\t' then ['\\', 't']
  else if c = '\x0c' then ['\\', 'f']
  else if c = '\x08' then ['\\', 'b']
  else if ' ' ≤ c ∧ c ≤ '~' then [c]
  else if c.toNat < 0x10000 then jsonUnit c.toNat
  else jsonUnit (0xd800 + (c.toNat - 0x10000) / 0x400) ++ jsonUnit (0xdc00 + (c.toNat - 0x10000) % 0x400)

def jsonText (s : Str) : Str := '"' :: s.flatMap jsonChar ++ ['"']

def jsonField (key : String) (value : Str) : Str := jsonText key.toList ++ ':' :: value

def jsonObject (fields : List Str) : Str := '\x7b' :: List.intercalate [','] fields ++ ['\x7d']

def jsonArray (items : List Str) : Str := '[' :: List.intercalate [','] items ++ [']']

/-! ## Signatures -/

/-- The Ed25519 verification of the `cryptography` package: whether
`Ed25519PublicKey.from_public_bytes(raw).verify(signature, data)` returns, rather than raising
`ValueError` or `InvalidSignature`. -/
class Ed25519 where
  verify : (raw signature data : Bytes) → Bool

/-- `b64encode` -/
def b64encode (data : Bytes) : Str := (urlsafeB64encode data).rdropWhile (· == '=')

/-- `b64decode`; `none` when it raises a `ValueError`, for text outside ASCII or incomplete
base64. -/
def b64decode (data : Str) : Option Bytes :=
  if data.all fun c => c.toNat < 128 then
    urlsafeB64decode (data ++ List.replicate ((4 - data.length % 4) % 4) '=')
  else none

/-- `PublicKey` -/
structure PublicKey where
  algorithm : Str
  key : Str
  deriving DecidableEq, Repr

def keyAlgorithm : Str := ['e', 'd', '2', '5', '5', '1', '9']

/-- `PublicKey.address` -/
def PublicKey.address (k : PublicKey) : Str := addressPrefix ++ (sha256HexText k.key).take 40

/-- What a signer uses of its `Wallet`: the public key, and `sign`, which is Ed25519's. -/
structure Wallet where
  publicKey : PublicKey
  sign : Str → Str

/-- `Wallet.address` -/
def Wallet.address (wallet : Wallet) : Str := wallet.publicKey.address

/-- `verify_signature`; a `ValueError` of `material` or of `b64decode` is a failed check too. -/
def verifySignature [Ed25519] (publicKey : PublicKey) (message signature : Str) : Bool :=
  publicKey.algorithm == keyAlgorithm &&
    match b64decode publicKey.key, b64decode signature with
    | some raw, some sig => Ed25519.verify raw sig (utf8Encode message)
    | _, _ => false

end BCC.Impl
