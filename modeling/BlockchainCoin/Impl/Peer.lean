import BlockchainCoin.Framework.Except
import BlockchainCoin.Impl.Network

/-!
# `peer.py`: sessions

`PeerSession` is one side of a connection: how far the handshake is, and what the
other side has announced and asked for. A handler may have assigned to the session
before it raises; `receive` turns the exceptions of the protocol into a REJECT and
a higher score, and lets every other exception pass.
-/

namespace BCC.Impl

open PyError

/-- `PeerSession` -/
structure PeerSession where
  network : Str
  nodeId : Str
  height : Int := -1
  remoteNodeId : Option Str := none
  remoteHeight : Int := -1
  versionSent : Bool := false
  versionReceived : Bool := false
  verackSent : Bool := false
  verackReceived : Bool := false
  pendingPings : Finset Int := ∅
  knownInventory : Finset (Str × Str) := ∅
  requestedInventory : Finset (Str × Str) := ∅
  misbehaviorScore : Int := 0
  maxInventoryItems : Int := 10000
  deriving DecidableEq

namespace PeerSession

def handshakeComplete (s : PeerSession) : Bool :=
  s.versionSent && s.versionReceived && s.verackSent && s.verackReceived

/-- `start_handshake` -/
def startHandshake : Method PeerSession PyError PeerMessage := do
  modify fun s => { s with versionSent := true }
  let s ← get
  return versionMessage s.network s.height s.nodeId

/-- `send_verack` -/
def sendVerack : Method PeerSession PyError PeerMessage := do
  let s ← get
  if s.versionReceived = false then throw (peerError "cannot verack before receiving version")
  else
    modify fun s => { s with verackSent := true }
    return ⟨.verack, .obj [], protocolVersion⟩

/-- `send_ping` -/
def sendPing (nonce : Int) : Method PeerSession PyError PeerMessage := do
  if nonce < 0 then throw (peerError "ping nonce cannot be negative")
  else
    modify fun s => { s with pendingPings := insert nonce s.pendingPings }
    return ⟨.ping, .obj [("nonce".toList, .int nonce)], protocolVersion⟩

/-- `announce` -/
def announce (items : List InventoryVector) : Method PeerSession PyError PeerMessage := do
  modify fun s => { s with knownInventory := items.foldl (fun known item => insert (item.kind, item.hash) known) s.knownInventory }
  return inventoryMessage .inv items

/-- `request` -/
def request (items : List InventoryVector) : Method PeerSession PyError PeerMessage := do
  modify fun s => { s with requestedInventory := items.foldl (fun known item => insert (item.kind, item.hash) known) s.requestedInventory }
  return inventoryMessage .getdata items

section

variable [PyText]

/-- `_handle_version` -/
def handleVersion (message : PeerMessage) : Method PeerSession PyError (List PeerMessage) := do
  let network ← Method.reading fun _ => message.payload.item "network"
  let s ← get
  if network.text ≠ s.network then throw (peerError "peer is on a different network")
  else
    let nodeId ← Method.reading fun _ => message.payload.item "node_id"
    modify fun s => { s with remoteNodeId := some nodeId.text }
    if nodeId.text = s.nodeId then throw (peerError "peer has the same node id")
    else
      let height ← Method.reading fun _ => message.payload.item "height" >>= Json.toInt
      modify fun s => { s with remoteHeight := height, versionReceived := true }
      let version ← if s.versionSent = false then List.singleton <$> startHandshake else pure []
      let verack ← if s.verackSent = false then List.singleton <$> sendVerack else pure []
      return version ++ verack

omit [PyText] in
/-- `_handle_verack` -/
def handleVerack : Method PeerSession PyError (List PeerMessage) := do
  let s ← get
  if s.versionSent = false then throw (peerError "received verack before sending version")
  else
    modify fun s => { s with verackReceived := true }
    return []

omit [PyText] in
/-- `_handle_ping` -/
def handlePing (message : PeerMessage) : Method PeerSession PyError (List PeerMessage) := do
  let nonce ← Method.reading fun _ => message.payload.item "nonce"
  return [⟨.pong, .obj [("nonce".toList, nonce)], protocolVersion⟩]

/-- `_handle_pong` -/
def handlePong (message : PeerMessage) : Method PeerSession PyError (List PeerMessage) := do
  let nonce ← Method.reading fun _ => message.payload.item "nonce" >>= Json.toInt
  let s ← get
  if nonce ∉ s.pendingPings then throw (peerError "pong nonce was not pending")
  else
    modify fun s => { s with pendingPings := s.pendingPings.erase nonce }
    return []

/-- The loop of `_handle_inv`, with the items it wants so far. -/
def wantItems : List InventoryVector → List Json → Method PeerSession PyError (List InventoryVector)
  | wanted, [] => pure wanted
  | wanted, rawItem :: rawItems => do
    let item ← Method.reading fun _ => InventoryVector.fromDict rawItem
    let s ← get
    if (item.kind, item.hash) ∈ s.knownInventory then wantItems wanted rawItems
    else if s.maxInventoryItems ≤ s.knownInventory.card then throw (peerError "known inventory limit reached")
    else
      modify fun s => { s with knownInventory := insert (item.kind, item.hash) s.knownInventory }
      wantItems (wanted ++ [item]) rawItems

/-- `_handle_inv` -/
def handleInv (message : PeerMessage) : Method PeerSession PyError (List PeerMessage) := do
  let rawItems ← Method.reading fun _ => message.payload.item "items" >>= Json.iter
  let wanted ← wantItems [] rawItems
  if wanted = [] then return [] else List.singleton <$> request wanted

/-- The loop of `_handle_getdata`. -/
def rememberRequests : List Json → Method PeerSession PyError Unit
  | [] => pure ()
  | rawItem :: rawItems => do
    let item ← Method.reading fun _ => InventoryVector.fromDict rawItem
    let s ← get
    if s.maxInventoryItems ≤ s.requestedInventory.card then throw (peerError "requested inventory limit reached")
    else
      modify fun s => { s with requestedInventory := insert (item.kind, item.hash) s.requestedInventory }
      rememberRequests rawItems

/-- `_handle_getdata` -/
def handleGetdata (message : PeerMessage) : Method PeerSession PyError (List PeerMessage) := do
  let rawItems ← Method.reading fun _ => message.payload.item "items" >>= Json.iter
  rememberRequests rawItems
  return []

omit [PyText] in
/-- An item of a locator, which has been checked to be a text, in the set of requests. -/
def hashText : Json → Except PyError Str
  | .str value => .ok value
  | _ => .error (typeError "unhashable type")

omit [PyText] in
/-- `_handle_getheaders` -/
def handleGetheaders (message : PeerMessage) : Method PeerSession PyError (List PeerMessage) := do
  let hashes ← Method.reading fun _ => message.payload.item "locator" >>= Json.iter >>= List.mapM hashText
  modify fun s => { s with
    requestedInventory := hashes.foldl (fun requested hash => insert (kindHeader, hash) requested) s.requestedInventory }
  return []

/-- The loop of the `_handle_headers` of a session. -/
def rememberHeaders : List BlockHeader → Method PeerSession PyError Unit
  | [] => pure ()
  | header :: headers => do
    let s ← get
    if s.maxInventoryItems ≤ s.knownInventory.card then throw (peerError "known inventory limit reached")
    else
      let hash ← Method.reading fun _ => header.hash
      modify fun s => { s with knownInventory := insert (kindHeader, hash) s.knownInventory }
      rememberHeaders headers

/-- `PeerSession._handle_headers` -/
def handleHeaders (message : PeerMessage) : Method PeerSession PyError (List PeerMessage) := do
  let headers ← Method.reading fun _ => headersFromPayload message.payload
  rememberHeaders headers
  return []

omit [PyText] in
/-- `_handle_payload` of a TX message. -/
def handleTransaction (message : PeerMessage) : Method PeerSession PyError (List PeerMessage) := do
  let txid ← Method.reading fun _ => transactionFromPayload message.payload >>= ConsensusTransaction.txid
  modify fun s => { s with knownInventory := insert (kindTx, txid) s.knownInventory }
  return []

omit [PyText] in
/-- `_handle_payload` of a BLOCK message. -/
def handleBlock (message : PeerMessage) : Method PeerSession PyError (List PeerMessage) := do
  let hash ← Method.reading fun _ => blockFromPayload message.payload >>= ConsensusBlock.hash
  modify fun s => { s with knownInventory := insert (kindBlock, hash) s.knownInventory }
  return []

omit [PyText] in
/-- `_handle_reject` -/
def handleReject : Method PeerSession PyError (List PeerMessage) := do
  modify fun s => { s with misbehaviorScore := s.misbehaviorScore + 1 }
  return []

/-- The handler of a message, by its type. -/
def handle (message : PeerMessage) : Method PeerSession PyError (List PeerMessage) :=
  match message.messageType with
  | .version => handleVersion message
  | .verack => handleVerack
  | .ping => handlePing message
  | .pong => handlePong message
  | .inv => handleInv message
  | .getdata => handleGetdata message
  | .getheaders => handleGetheaders message
  | .headers => handleHeaders message
  | .tx => handleTransaction message
  | .block => handleBlock message
  | .reject => handleReject

omit [PyText] in
/-- `except (NetworkError, PeerError)` -/
def isProtocolError : PyError → Bool
  | networkError _ | peerError _ => true
  | _ => false

/-- `PeerSession.receive` -/
def receive (message : PeerMessage) : Method PeerSession PyError (List PeerMessage) :=
  tryCatch (do
    Method.reading fun _ => message.validatePayload
    handle message) fun exc =>
      if isProtocolError exc then do
        modify fun s => { s with misbehaviorScore := s.misbehaviorScore + 1 }
        return [rejectMessage "invalid message"]
      else throw exc

end

end PeerSession

end BCC.Impl
