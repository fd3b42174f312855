import BlockchainCoin.Framework.Dict
import BlockchainCoin.Impl.Import
import BlockchainCoin.Impl.Peer
import BlockchainCoin.Impl.Peers

/-!
# `service.py`: the peer service

`NodeService` takes the messages of peers to their sessions and to the node,
schedules block downloads over the peers, and keeps score. What it has seen is
cached beside the node by txid and block hash. The sync store is the table of a
`PeerSyncProgressStore`, which gives back what was saved last.
-/

namespace BCC.Impl

open PyError

/-! ## Results and counters -/

/-- `ServiceResult` -/
structure ServiceResult where
  direct : List PeerMessage := []
  directTo : Dict Str (List PeerMessage) := ∅
  relay : List PeerMessage := []
  disconnect : Bool := false

/-- `BlockDownload` -/
structure BlockDownload where
  blockHash : Str
  peer : Str
  requestedAt : Int
  deriving DecidableEq

/-- `PeerSyncProgress` -/
structure PeerSyncProgress where
  requestedBlocks : Int := 0
  completedBlocks : Int := 0
  timedOutBlocks : Int := 0
  failedBlocks : Int := 0
  deriving DecidableEq

namespace PeerSyncProgress

def qualityScore (p : PeerSyncProgress) : Int :=
  max 0 (p.failedBlocks * 100 + p.timedOutBlocks * 20 + p.requestedBlocks - p.completedBlocks * 10)

/-- The increments of `_record_progress`. -/
def add (p change : PeerSyncProgress) : PeerSyncProgress :=
  ⟨p.requestedBlocks + change.requestedBlocks, p.completedBlocks + change.completedBlocks,
    p.timedOutBlocks + change.timedOutBlocks, p.failedBlocks + change.failedBlocks⟩

end PeerSyncProgress

/-- The tuple `_select_block_download_peer` takes the least of. -/
structure DownloadRank where
  inFlight : Nat
  quality : Int
  score : Int
  notSource : Bool
  address : Str
  deriving DecidableEq

def DownloadRank.lt (a b : DownloadRank) : Prop :=
  a.inFlight < b.inFlight ∨ a.inFlight = b.inFlight ∧
    (a.quality < b.quality ∨ a.quality = b.quality ∧
      (a.score < b.score ∨ a.score = b.score ∧
        (a.notSource < b.notSource ∨ a.notSource = b.notSource ∧ a.address < b.address)))

instance : DecidableRel DownloadRank.lt := fun a b =>
  inferInstanceAs (Decidable (a.inFlight < b.inFlight ∨ a.inFlight = b.inFlight ∧
    (a.quality < b.quality ∨ a.quality = b.quality ∧
      (a.score < b.score ∨ a.score = b.score ∧
        (a.notSource < b.notSource ∨ a.notSource = b.notSource ∧ a.address < b.address)))))

/-! ## The service -/

/-- `NodeService`, with what its constructor checks. -/
@[ext]
structure NodeService where
  node : ConsensusNode
  network : Str
  nodeId : Str
  peers : PeerAddressManager := .empty
  blockDownloadTimeout : Int := 120
  maxBlockDownloadBatch : Nat := 16
  maxBlockDownloadsPerPeer : Nat := 128
  peerSyncStore : Option (Dict Str PeerSyncProgress) := none
  sessions : Dict Str PeerSession := ∅
  transactions : Dict Str ConsensusTransaction := ∅
  blocks : Dict Str ConsensusBlock := ∅
  inFlightBlocks : Dict Str BlockDownload := ∅
  peerSync : Dict Str PeerSyncProgress := ∅
  network_ne : network ≠ [] := by decide
  nodeId_ne : nodeId ≠ [] := by decide
  timeout_nonneg : 0 ≤ blockDownloadTimeout := by decide
  batch_pos : 0 < maxBlockDownloadBatch := by decide
  perPeer_pos : 0 < maxBlockDownloadsPerPeer := by decide

instance : DecidableEq NodeService := fun _ _ => decidable_of_iff' _ NodeService.ext_iff

/-- The slices of a list at every multiple of `size`, at most `fuel` of them. -/
def slices {α : Type} (size : Nat) : Nat → List α → List (List α)
  | 0, _ | _, [] => []
  | fuel + 1, items => items.take size :: slices size fuel (items.drop size)

namespace NodeService

/-! ### Parts -/

/-- A method of the address book. -/
def onPeers {α : Type} (x : Method PeerAddressManager PyError α) : Method NodeService PyError α :=
  Method.onPart NodeService.peers (fun peers s => { s with peers := peers }) x

/-- A method of the session of an address. -/
def onSession {α : Type} (address : Str) (x : Method PeerSession PyError α) : Method NodeService PyError α := fun s =>
  match s.sessions.get? address with
  | none => (.error (keyError "session"), s)
  | some session => ((x.call session).1, { s with sessions := s.sessions.set address (x.call session).2 })

/-- A method of the node. -/
def onNode {α : Type} (x : Method ConsensusNode PyError α) : Method NodeService PyError α :=
  Method.onPart NodeService.node (fun node s => { s with node := node }) x

/-- `PeerSession(network=self.network, node_id=self.node_id, height=self.node.height)` -/
def newSession (s : NodeService) : Except PyError PeerSession := do
  let height ← s.node.height
  return { network := s.network, nodeId := s.nodeId, height := height }

/-- `self.sessions[address] = PeerSession(...)` -/
def openSession (address : Str) : Method NodeService PyError Unit := Method.assigning fun s => do
  let session ← s.newSession
  return ((), { s with sessions := s.sessions.set address session })

/-! ### Download counters -/

/-- `_progress_for`: the counters of an address, which are loaded when they are first asked for. -/
def loadedProgress (s : NodeService) (address : Str) : PeerSyncProgress :=
  match s.peerSync.get? address with
  | some progress => progress
  | none => ((s.peerSyncStore.bind (·.get? address)).getD {})

/-- `_progress_for` -/
def progressFor (address : Str) : Method NodeService PyError PeerSyncProgress := do
  let s ← get
  let progress := s.loadedProgress address
  modify fun s => if s.peerSync.contains address then s else { s with peerSync := s.peerSync.set address progress }
  return progress

/-- `_record_progress` -/
def recordProgress (address : Str) (change : PeerSyncProgress) : Method NodeService PyError Unit := do
  let progress ← progressFor address
  let changed := progress.add change
  modify fun s => { s with peerSync := s.peerSync.set address changed }
  -- `_save_progress`
  modify fun s => { s with peerSyncStore := s.peerSyncStore.map (·.set address changed) }

/-- `_in_flight_count` -/
def inFlightCount (s : NodeService) (address : Str) : Nat := s.inFlightBlocks.count fun d => d.peer = address

/-- The loop of `_clear_peer_downloads`. -/
def withoutDownloads (address : Str) (s : NodeService) : NodeService :=
  (s.inFlightBlocks.entries.filter fun e => e.2.peer = address).foldl
    (fun s e => { s with inFlightBlocks := s.inFlightBlocks.erase e.1 }) s

/-- `_clear_peer_downloads(address, failed=True)` -/
def clearPeerDownloads (address : Str) : Method NodeService PyError Unit := do
  let s ← get
  let failedCount := s.inFlightCount address
  modify (withoutDownloads address)
  if failedCount = 0 then return ()
  else recordProgress address { failedBlocks := failedCount }

/-- The loop of `expire_block_downloads`. -/
def dropExpired : List BlockDownload → Method NodeService PyError Unit
  | [] => pure ()
  | download :: downloads => do
    modify fun s => { s with inFlightBlocks := s.inFlightBlocks.erase download.blockHash }
    recordProgress download.peer { timedOutBlocks := 1 }
    dropExpired downloads

/-- `expire_block_downloads` -/
def expireBlockDownloads (now : Int) : Method NodeService PyError (List BlockDownload) := do
  let s ← get
  let expired := s.inFlightBlocks.values.filter fun d => s.blockDownloadTimeout ≤ now - d.requestedAt
  dropExpired expired
  return expired

/-! ### Scheduling downloads -/

/-- `_should_request_block` -/
def shouldRequestBlock (s : NodeService) (blockHash : Str) : Bool :=
  !s.blocks.contains blockHash && !s.inFlightBlocks.contains blockHash && !s.node.disk.store.hasBlock blockHash

/-- The rank of a candidate. -/
def rankOf (source address : Str) : Method NodeService PyError DownloadRank := do
  let s ← get
  let progress ← progressFor address
  let record ← Method.reading (·.peers.getPeer address)
  return ⟨s.inFlightCount address, progress.qualityScore, record.misbehaviorScore, address ≠ source, address⟩

/-- The `min` of `_select_block_download_peer`: the first of the candidates with the least rank. -/
def leastRank (source : Str) : Option DownloadRank → List Str → Method NodeService PyError (Option DownloadRank)
  | best, [] => pure best
  | best, address :: addresses => do
    let rank ← rankOf source address
    let least := match best with
      | none => rank
      | some best => if rank.lt best then rank else best
    leastRank source (some least) addresses

/-- The candidates of `_select_block_download_peer`. -/
def downloadCandidates (s : NodeService) (source blockHash : Str) (avoid : Option Str) : List Str :=
  let candidates := (s.sessions.entries.filter fun e =>
    e.1 = source || (kindHeader, blockHash) ∈ e.2.knownInventory).map Prod.fst
  let alternatives := candidates.filter fun address => some address ≠ avoid
  if alternatives = [] then candidates else alternatives

/-- `_select_block_download_peer` -/
def selectBlockDownloadPeer (source blockHash : Str) (avoid : Option Str) : Method NodeService PyError (Option Str) := do
  let s ← get
  let candidates := s.downloadCandidates source blockHash avoid
  if candidates = [] then return some source
  else
    let belowLimit := candidates.filter fun address => s.inFlightCount address < s.maxBlockDownloadsPerPeer
    let best ← leastRank source none belowLimit
    return best.map (·.address)

/-- The body of the loops of `_handle_headers` and `retry_expired_block_downloads`. -/
def requestBlock (source blockHash : Str) (avoid : Option Str) (now : Int) (requests : Dict Str (List InventoryVector)) :
    Method NodeService PyError (Dict Str (List InventoryVector)) := do
  let s ← get
  if s.shouldRequestBlock blockHash = false then return requests
  else
    match ← selectBlockDownloadPeer source blockHash avoid with
    | none => return requests
    | some peer => do
      modify fun s => { s with inFlightBlocks := s.inFlightBlocks.set blockHash ⟨blockHash, peer, now⟩ }
      recordProgress peer { requestedBlocks := 1 }
      return requests.set peer ((requests.get? peer).getD [] ++ [⟨kindBlock, blockHash⟩])

/-- The GETDATA messages of the requests to each peer, by `_chunk_inventory`. -/
def getdataMessages (s : NodeService) (requests : Dict Str (List InventoryVector)) : List (Str × List PeerMessage) :=
  requests.entries.map fun e =>
    (e.1, (slices s.maxBlockDownloadBatch e.2.length e.2).map (inventoryMessage .getdata))

/-- The loop of `_handle_headers`. -/
def requestHeaders (address : Str) (now : Int) : Dict Str (List InventoryVector) → List BlockHeader →
    Method NodeService PyError (Dict Str (List InventoryVector))
  | requests, [] => pure requests
  | requests, header :: headers => do
    let hash ← Method.reading fun _ => header.hash
    let requests ← requestBlock address hash none now requests
    requestHeaders address now requests headers

/-- The loop of `retry_expired_block_downloads`. -/
def retryDownloads (now : Int) : Dict Str (List InventoryVector) → List BlockDownload →
    Method NodeService PyError (Dict Str (List InventoryVector))
  | requests, [] => pure requests
  | requests, download :: downloads => do
    let requests ← requestBlock download.peer download.blockHash (some download.peer) now requests
    retryDownloads now requests downloads

/-- `retry_expired_block_downloads` -/
def retryExpiredBlockDownloads (now : Int) : Method NodeService PyError (List (Str × List PeerMessage)) := do
  let expired ← expireBlockDownloads now
  let requests ← retryDownloads now ∅ expired
  let s ← get
  return s.getdataMessages requests

/-! ### Connections -/

/-- `connect_peer` -/
def connectPeer (address : Str) (now : Int) (inbound : Bool) : Method NodeService PyError PeerMessage := do
  let _ ← onPeers (PeerAddressManager.markConnecting address now inbound)
  let _ ← onPeers (PeerAddressManager.markConnected address now)
  openSession address
  onSession address PeerSession.startHandshake

/-- `accept_inbound_peer` -/
def acceptInboundPeer (address : Str) (now : Int) : Method NodeService PyError Unit := do
  let _ ← onPeers (PeerAddressManager.markConnecting address now true)
  let _ ← onPeers (PeerAddressManager.markConnected address now)
  openSession address

/-- `disconnect_peer` -/
def disconnectPeer (address : Str) (now : Int) : Method NodeService PyError Unit := do
  let _ ← onPeers (PeerAddressManager.markDisconnected address now)
  modify fun s => { s with sessions := s.sessions.erase address }
  clearPeerDownloads address

/-- `_session_for` -/
def sessionFor (address : Str) (now : Int) : Method NodeService PyError Unit := do
  let s ← get
  if s.sessions.contains address then return ()
  else
    let _ ← tryCatch (onPeers (PeerAddressManager.markConnected address now)) fun exc =>
      match exc with
      | peerManagerError _ => do
        let _ ← onPeers (PeerAddressManager.addPeer address now false)
        onPeers (PeerAddressManager.markConnected address now)
      | exc => throw exc
    openSession address

/-- `_penalize_peer` -/
def penalizePeer (address : Str) (score now : Int) : Method NodeService PyError Bool := do
  let record ← onPeers (Method.assigning fun m => m.reportMisbehavior address score now)
  if record.isBanned = false then return false
  else
    modify fun s => { s with sessions := s.sessions.erase address }
    clearPeerDownloads address
    return true

/-! ### Handlers -/

section

variable [Ed25519]

/-- `_handle_transaction`, on the transaction of the message. -/
def handleTransaction (t : ConsensusTransaction) : Method NodeService PyError (List PeerMessage) := do
  let txid ← Method.reading fun _ => t.txid
  let s ← get
  if s.transactions.contains txid then
    return []
  else
    let _ ← onNode (ConsensusNode.submitTransaction t)
    modify fun s => { s with transactions := s.transactions.set txid t }
    return [inventoryMessage .inv [⟨kindTx, txid⟩]]

/-- The loop of `_handle_block` and of `mine_local_block` that caches the transactions of a block. -/
def cacheTransactions : List ConsensusTransaction → Method NodeService PyError Unit
  | [] => pure ()
  | t :: ts => do
    let txid ← Method.reading fun _ => t.txid
    modify fun s => { s with transactions := s.transactions.set txid t }
    cacheTransactions ts

/-- `_handle_block`, on the block of the message. -/
def handleBlock (block : ConsensusBlock) : Method NodeService PyError (List PeerMessage) := do
  let hash ← Method.reading fun _ => block.hash
  let s ← get
  if s.blocks.contains hash then
    return []
  else
    let _ ← onNode (ConsensusNode.importBlock block)
    modify fun s => { s with blocks := s.blocks.set hash block }
    let s ← get
    modify fun s => { s with inFlightBlocks := s.inFlightBlocks.erase hash }
    match s.inFlightBlocks.get? hash with
    | some download => recordProgress download.peer { completedBlocks := 1 }
    | none => pure ()
    cacheTransactions block.transactions
    return [inventoryMessage .inv [⟨kindBlock, hash⟩]]

omit [Ed25519] in
/-- The loop of `_handle_getdata`. -/
def serveItems [PyText] (s : NodeService) : List PeerMessage → List Json → Except PyError (List PeerMessage)
  | responses, [] => .ok responses
  | responses, rawItem :: rawItems => do
    let item ← InventoryVector.fromDict rawItem
    match (if item.kind = kindTx then s.transactions.get? item.hash else none),
        (if item.kind = kindBlock then s.blocks.get? item.hash else none) with
    | some t, _ => do
      let message ← transactionMessage t
      serveItems s (responses ++ [message]) rawItems
    | none, some b => do
      let message ← blockMessage b
      serveItems s (responses ++ [message]) rawItems
    | none, none => throw (nodeServiceError "requested inventory is unknown")

omit [Ed25519] in
/-- `_handle_getdata` -/
def handleGetdata [PyText] (s : NodeService) (payload : Json) : Except PyError (List PeerMessage) := do
  let rawItems ← payload.item "items" >>= Json.iter
  s.serveItems [] rawItems

/-- The first of the locator's hashes that has a height, in `_handle_getheaders`. -/
def startOf (heightsByHash : Dict Str Nat) : List Json → Nat
  | [] => 0
  | .str hash :: locator =>
    match heightsByHash.get? hash with
    | some height => height + 1
    | none => startOf heightsByHash locator
  | _ :: locator => startOf heightsByHash locator

/-- The loop of `_handle_getheaders`. -/
def collectHeaders (stopHash : Json) (limit : Int) : List BlockHeader → List StoredConsensusBlock →
    Except PyError (List BlockHeader)
  | headers, [] => .ok headers
  | headers, stored :: chain => do
    let headers := headers ++ [BlockHeader.fromBlock stored.block]
    let hash ← stored.block.hash
    if stopHash.isText hash ∨ limit ≤ headers.length then return headers
    else collectHeaders stopHash limit headers chain

/-- `heights_by_hash` of `_handle_getheaders`. -/
def heightsByHash (hashes : List Str) : Dict Str Nat :=
  hashes.zipIdx.foldl (fun heights e => heights.set e.1 e.2) ∅

omit [Ed25519] in
/-- `_handle_getheaders` -/
def handleGetheaders [PyText] (s : NodeService) (payload : Json) : Except PyError PeerMessage := do
  let chain ← s.node.disk.store.activeChain
  let locator ← payload.item "locator" >>= Json.iter
  let stopHash ← payload.get "stop_hash"
  let limit ← payload.item "limit" >>= Json.toInt
  let hashes ← chain.mapM fun stored => stored.block.hash
  let start := startOf (heightsByHash hashes) locator
  let headers ← collectHeaders stopHash limit [] (chain.drop start)
  headersMessage headers

omit [Ed25519] in
/-- `_handle_headers` -/
def handleHeaders [PyText] (address : Str) (payload : Json) (now : Int) :
    Method NodeService PyError (List (Str × List PeerMessage)) := do
  let _ ← expireBlockDownloads now
  let headers ← Method.reading fun _ => headersFromPayload payload
  Method.reading fun s => match headers with
    | [] => .ok ()
    | header :: _ => do
      let tipHash ← s.node.tipHash
      raiseIf (header.previousHash ≠ tipHash ∧ s.node.disk.store.hasBlock header.previousHash = false)
        (nodeServiceError "headers do not connect to a known block")
  let requests ← requestHeaders address now ∅ headers
  let s ← get
  return s.getdataMessages requests

/-! ### Receiving -/

omit [Ed25519] in
/-- The exceptions of a handler, as `receive` answers them. -/
def answered (address : Str) (direct : List PeerMessage) (now : Int) (handle : Method NodeService PyError ServiceResult) :
    Method NodeService PyError ServiceResult :=
  tryCatch handle fun exc =>
    match exc with
    | mempoolPolicyError _ => return { direct := direct ++ [rejectMessage "policy rejected"] }
    | consensusError _ | consensusNodeError _ | nodeServiceError _ => do
      let disconnect ← penalizePeer address 10 now
      return { direct := direct ++ [rejectMessage "invalid payload"], disconnect := disconnect }
    | exc => throw exc

/-- `NodeService.receive`, for a TX message that the session of its sender accepts. -/
def receiveTransaction (address : Str) (t : ConsensusTransaction) (now : Int) :
    Method NodeService PyError ServiceResult :=
  answered address [] now do
    let relay ← handleTransaction t
    return { relay := relay }

omit [Ed25519] in
/-- The loop that tells the requests to the sender of the headers from those to others. -/
def routeRequests (address : Str) : ServiceResult → List (Str × List PeerMessage) → ServiceResult
  | result, [] => result
  | result, (peer, messages) :: targeted =>
    if peer = address then routeRequests address { result with direct := result.direct ++ messages } targeted
    else routeRequests address
      { result with directTo := result.directTo.set peer ((result.directTo.get? peer).getD [] ++ messages) } targeted

/-- What `receive` does with a message the session has answered with `direct`. -/
def dispatch [PyText] (address : Str) (message : PeerMessage) (direct : List PeerMessage) (now : Int) :
    Method NodeService PyError ServiceResult :=
  match message.messageType with
  | .tx => do
    let t ← Method.reading fun _ => transactionFromPayload message.payload
    let relay ← handleTransaction t
    return { direct := direct, relay := relay }
  | .block => do
    let b ← Method.reading fun _ => blockFromPayload message.payload
    let relay ← handleBlock b
    return { direct := direct, relay := relay }
  | .getdata => do
    let responses ← Method.reading (·.handleGetdata message.payload)
    return { direct := direct ++ responses }
  | .getheaders => do
    let response ← Method.reading (·.handleGetheaders message.payload)
    return { direct := direct ++ [response] }
  | .headers => do
    let targeted ← handleHeaders address message.payload now
    return routeRequests address { direct := direct } targeted
  | _ => return { direct := direct }

/-- `NodeService.receive` -/
def receive [PyText] (address : Str) (message : PeerMessage) (now : Int) : Method NodeService PyError ServiceResult := do
  let found ← tryCatch (do sessionFor address now; return true) fun exc =>
    match exc with
    | peerManagerError _ => return false
    | exc => throw exc
  if found = false then return { direct := [rejectMessage "peer banned"], disconnect := true }
  else
    let direct ← onSession address (PeerSession.receive message)
    match direct with
    | ⟨.reject, _, _⟩ :: _ => do
      let disconnect ← penalizePeer address 10 now
      return { direct := direct, disconnect := disconnect }
    | _ => answered address direct now (dispatch address message direct now)

/-! ### Local calls -/

/-- `submit_local_transaction` -/
def submitLocalTransaction (t : ConsensusTransaction) : Method NodeService PyError ServiceResult := do
  let txid ← onNode (ConsensusNode.submitTransaction t)
  modify fun s => { s with transactions := s.transactions.set txid t }
  return { relay := [inventoryMessage .inv [⟨kindTx, txid⟩]] }

/-- `mine_local_block` -/
def mineLocalBlock (minerAddress : Str) (timestamp : UInt64) (fuel : Nat) : Method NodeService PyError ServiceResult := do
  let stored ← onNode (ConsensusNode.mineBlock minerAddress timestamp fuel)
  let hash ← Method.reading fun _ => stored.block.hash
  modify fun s => { s with blocks := s.blocks.set hash stored.block }
  cacheTransactions stored.block.transactions
  return { relay := [inventoryMessage .inv [⟨kindBlock, hash⟩]] }

end

end NodeService

end BCC.Impl
