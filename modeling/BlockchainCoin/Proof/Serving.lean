import BlockchainCoin.Proof.Calls
import BlockchainCoin.Proof.Handshake

/-!
# Serving blocks

Headers come from the fork store (`Advertised.stored`) and blocks from the cache of
the service, which holds the blocks that were received or mined through it. What is
cached has its hash and can be encoded (`CacheOk`), and so a request for one block is
answered with the block if and only if it is cached (`serves_iff`).
-/

namespace BCC.Proof

open BCC.Impl PyError NodeService

section

variable [PyText] {a : Str} {s : NodeService} {hash : Str} {message : PeerMessage}

/-! ## Advertised headers -/

/-- A header in the answer to a request for headers. -/
def Advertised (s : NodeService) (header : BlockHeader) : Prop :=
  ∃ request headers response, s.handleGetheaders request = .ok response ∧ headersMessage headers = .ok response ∧
    header ∈ headers

omit [PyText] in
theorem toDict_inj {h h' : BlockHeader} {j : Json} (hj : h.toDict = .ok j) (hj' : h'.toDict = .ok j) : h = h' := by
  obtain ⟨x, -, hx⟩ := bind_eq_ok.mp hj
  obtain ⟨x', -, hx'⟩ := bind_eq_ok.mp hj'
  rw [pure_eq_ok] at hx hx'
  rw [← hx] at hx'
  cases h
  cases h'
  simp only [Json.obj.injEq, List.cons.injEq, Prod.mk.injEq, Json.int.injEq, Json.str.injEq, Json.float.injEq, true_and,
    and_true] at hx'
  obtain ⟨rfl, -, rfl, rfl, rfl, rfl, rfl, rfl⟩ := hx'
  rfl

omit [PyText] in
theorem headers_eq_of_mapM {hs hs' : List BlockHeader} {js : List Json} (h : hs.mapM BlockHeader.toDict = .ok js)
    (h' : hs'.mapM BlockHeader.toDict = .ok js) : hs = hs' := by
  replace h := mapM_eq_ok.mp h
  replace h' := mapM_eq_ok.mp h'
  induction h generalizing hs' with
  | nil => exact (List.forall₂_nil_right_iff.mp h').symm
  | cons hj _ ih =>
    cases h' with
    | cons hj' hrest => rw [toDict_inj hj hj', ih hrest]

omit [PyText] in
theorem collectHeaders_mem {stopHash : Json} {limit : Int} : ∀ {chain : List StoredConsensusBlock} {headers headers' : List BlockHeader},
    collectHeaders stopHash limit headers chain = .ok headers' → ∀ header ∈ headers', header ∈ headers ∨
      ∃ stored ∈ chain, header = .fromBlock stored.block
  | [], headers, headers', h => fun header hh => by
    cases h
    exact .inl hh
  | stored :: chain, headers, headers', h => fun header hh => by
    have hmem : header ∈ headers ++ [BlockHeader.fromBlock stored.block] → header ∈ headers ∨
        ∃ stored' ∈ stored :: chain, header = .fromBlock stored'.block := fun hin => by
      rcases List.mem_append.mp hin with hin | hin
      · exact .inl hin
      · exact .inr ⟨stored, List.mem_cons_self, List.mem_singleton.mp hin⟩
    obtain ⟨hash, -, h⟩ := bind_eq_ok.mp h
    split at h
    · cases h
      exact hmem hh
    · rcases collectHeaders_mem h header hh with hin | ⟨stored', hin, he⟩
      · exact hmem hin
      · exact .inr ⟨stored', List.mem_cons_of_mem _ hin, he⟩

/-- An advertised header is that of a block of the active chain. -/
theorem Advertised.stored {header : BlockHeader} (h : Advertised s header) (hhash : header.hash = .ok hash) :
    ∃ chain stored, s.node.disk.store.activeChain = .ok chain ∧ stored ∈ chain ∧ stored.block.hash = .ok hash := by
  obtain ⟨request, headers, response, hrequest, hheaders, hmem⟩ := h
  simp only [NodeService.handleGetheaders, bind_eq_ok] at hrequest
  obtain ⟨chain, hchain, _, -, _, -, _, -, _, -, headers', hcollect, hresponse⟩ := hrequest
  obtain ⟨js, hjs, hjs'⟩ := bind_eq_ok.mp hheaders
  obtain ⟨ks, hks, hks'⟩ := bind_eq_ok.mp hresponse
  rw [pure_eq_ok] at hjs' hks'
  rw [← hjs', PeerMessage.mk.injEq] at hks'
  simp only [Json.obj.injEq, List.cons.injEq, Prod.mk.injEq, Json.arr.injEq, true_and, and_true] at hks'
  subst hks'
  rw [headers_eq_of_mapM hjs hks] at hmem
  rcases collectHeaders_mem hcollect header hmem with hin | ⟨stored, hin, rfl⟩
  · cases hin
  · exact ⟨chain, stored, hchain, List.mem_of_mem_drop hin, hhash⟩

/-! ## The cache -/

/-- What is cached has the hash it is cached under, and can be encoded. -/
def CacheOk (s : NodeService) : Prop := ∀ hash b, s.blocks.get? hash = some b → b.hash = .ok hash ∧ ∃ raw, b.toBytes = .ok raw

omit [PyText] in
theorem CacheOk.turn [Ed25519] {s' : NodeService} (h : CacheOk s) (hs : Turn a s s') : CacheOk s' := by
  cases hs with
  | work hs =>
    cases hs with
    | node | cacheTransaction | request | resolve | session => exact h
    | cacheBlock hhash hraw =>
      intro hash' b hb
      rw [Dict.get?_set] at hb
      split at hb
      · rename_i he
        cases hb
        exact he ▸ ⟨hhash, _, hraw⟩
      · exact h hash' b hb
    | load address =>
      unfold withProgress
      split <;> exact h
  | mark | «open» | score => exact h
  | drop =>
    unfold CacheOk
    rw [cleared_blocks]
    exact h

/-! ## A request for one block -/

/-- A GETDATA message that names one block. -/
structure NamesBlock (message : PeerMessage) (hash : Str) : Prop where
  messageType : message.messageType = .getdata
  items : ∃ item, (message.payload.item "items" >>= Json.iter) = .ok [item] ∧
    InventoryVector.fromDict item = .ok ⟨kindBlock, hash⟩

/-- What the service answers to a request for one block. -/
theorem NamesBlock.handleGetdata (h : NamesBlock message hash) (s : NodeService) :
    s.handleGetdata message.payload = match s.blocks.get? hash with
      | some b => List.singleton <$> blockMessage b
      | none => .error (nodeServiceError "requested inventory is unknown") := by
  obtain ⟨item, hitems, hitem⟩ := h.items
  rw [NodeService.handleGetdata, hitems]
  simp only [ok_bind, serveItems, hitem, if_neg (show ¬ kindBlock = kindTx by decide), if_true]
  cases s.blocks.get? hash with
  | none => rfl
  | some b => cases blockMessage b <;> rfl

variable [Ed25519]

/-- What `receive` does with a message that the session of its sender accepts without an answer. -/
theorem receive_accepted {session session' : PeerSession} (hsession : s.sessions.get? a = some session)
    (haccepts : (PeerSession.receive message).call session = (.ok [], session')) (now : Int) :
    (receive a message now).call s =
      (answered a [] now (dispatch a message [] now)).call { s with sessions := s.sessions.set a session' } := by
  rw [receive_eq, sessionFor_there hsession]
  dsimp only
  rw [receiveFrom, Method.call_bind, call_onSession hsession, haccepts]

/-- The message is answered with one block, which has the hash, and no score changes. -/
def Serves (s : NodeService) (a : Str) (message : PeerMessage) (now : Int) (hash : Str) : Prop :=
  ∃ result s' response b, (receive a message now).call s = (.ok result, s') ∧ result.direct = [response] ∧
    response.messageType = .block ∧ blockFromPayload response.payload = .ok b ∧ b.hash = .ok hash ∧
    ∀ address, (s'.peers.lookup address).map (·.misbehaviorScore) = (s.peers.lookup address).map (·.misbehaviorScore)

omit [PyText] [Ed25519] in
/-- A block that can be encoded is decoded from the message that carries it, with the same hash. -/
theorem blockFromPayload_blockMessage {b : ConsensusBlock} {raw : Bytes} (h : b.toBytes = .ok raw) :
    ∃ response, blockMessage b = .ok response ∧ response.messageType = .block ∧
      blockFromPayload response.payload = .ok (storedBlock b) := by
  refine ⟨_, bind_eq_ok.mpr ⟨raw, h, rfl⟩, rfl, ?_⟩
  show catchAs (bytesFromhex (hexEncode raw) >>= ConsensusBlock.fromBytes) isPayloadError _ = _
  rw [bytesFromhex, hexDecode_hexEncode]
  show catchAs (ConsensusBlock.fromBytes raw) isPayloadError _ = _
  rw [fromBytes_toBytes_block h, catchAs_ok]

theorem serves_of_cached (hcache : CacheOk s) (h : NamesBlock message hash) {session session' : PeerSession}
    (hsession : s.sessions.get? a = some session)
    (haccepts : (PeerSession.receive message).call session = (.ok [], session')) (now : Int)
    (hthere : s.blocks.contains hash = true) : Serves s a message now hash := by
  obtain ⟨b, hb⟩ := Option.isSome_iff_exists.mp hthere
  obtain ⟨hhash, raw, hraw⟩ := hcache hash b hb
  obtain ⟨response, hresponse, htype, hblock⟩ := blockFromPayload_blockMessage hraw
  have hcall : (answered a [] now (dispatch a message [] now)).call { s with sessions := s.sessions.set a session' } =
      (.ok { direct := [response] }, { s with sessions := s.sessions.set a session' }) := by
    rw [answered, Method.call_tryCatch, dispatch, h.messageType]
    simp only [Method.call_bind, Method.call_reading, h.handleGetdata, hb, hresponse]
    rfl
  exact ⟨_, _, response, _, (receive_accepted hsession haccepts now).trans hcall, rfl, htype, hblock,
    (hash_storedBlock b).trans hhash, fun _ => rfl⟩

theorem not_serves_of_uncached (h : NamesBlock message hash) {session session' : PeerSession}
    (hsession : s.sessions.get? a = some session)
    (haccepts : (PeerSession.receive message).call session = (.ok [], session')) (now : Int)
    (hnone : s.blocks.get? hash = none) : ¬ Serves s a message now hash := by
  rintro ⟨result, s', response, b, hcall, hdirect, htype, -⟩
  rw [receive_accepted hsession haccepts] at hcall
  have hanswer : (answered a [] now (dispatch a message [] now)).call { s with sessions := s.sessions.set a session' } =
      (do let disconnect ← penalizePeer a 10 now
          return { direct := [rejectMessage "invalid payload"], disconnect := disconnect } :
        Method NodeService PyError ServiceResult).call { s with sessions := s.sessions.set a session' } := by
    rw [answered, Method.call_tryCatch, dispatch, h.messageType]
    simp only [Method.call_bind, Method.call_reading, h.handleGetdata, hnone]
    rfl
  rw [hanswer, Method.call_bind_eq_ok] at hcall
  obtain ⟨disconnect, s₁, -, hresult⟩ := hcall
  rw [Method.call_pure, Prod.mk.injEq, Except.ok.injEq] at hresult
  rw [← hresult.1, List.cons.injEq] at hdirect
  rw [← hdirect.1] at htype
  cases htype

end

/-! ## The genesis block -/

section

variable [PyText] {hash : Str}

theorem fromDict_toDict {v : InventoryVector} (hkind : v.kind = kindTx ∨ v.kind = kindBlock) (hhash : isHashText v.hash = true) :
    InventoryVector.fromDict v.toDict = .ok v := by
  have hkinds : ¬ (v.kind ≠ kindTx ∧ v.kind ≠ kindBlock) := fun h => hkind.elim h.1 h.2
  have hhash : ¬ isHashText v.hash = false := by rw [hhash]; exact Bool.noConfusion
  refine bind_eq_ok.mpr ⟨.str v.kind, rfl, bind_eq_ok.mpr ⟨.str v.hash, rfl, ?_⟩⟩
  exact bind_eq_ok.mpr ⟨(), raiseIf_eq_ok.mpr hkinds, bind_eq_ok.mpr ⟨(), raiseIf_eq_ok.mpr hhash, rfl⟩⟩

/-- A request for one block. -/
def blockRequest (hash : Str) : PeerMessage := inventoryMessage .getdata [⟨kindBlock, hash⟩]

theorem namesBlock_blockRequest (hash : Str) (hhash : isHashText hash = true) : NamesBlock (blockRequest hash) hash :=
  ⟨rfl, _, rfl, fromDict_toDict (.inr rfl) hhash⟩

/-- What names one block is a valid inventory. -/
theorem validateInventory_one (hhash : isHashText hash = true) (messageType : MessageType) :
    PeerMessage.validateInventory (inventoryMessage messageType [⟨kindBlock, hash⟩]).payload = .ok () := by
  have hget : (inventoryMessage messageType [⟨kindBlock, hash⟩]).payload.get "items" =
      .ok (.arr [InventoryVector.toDict ⟨kindBlock, hash⟩]) := rfl
  have hdict : (InventoryVector.toDict ⟨kindBlock, hash⟩).toDict = .ok (InventoryVector.toDict ⟨kindBlock, hash⟩) := rfl
  refine bind_eq_ok.mpr ⟨_, hget, ?_⟩
  refine bind_eq_ok.mpr ⟨(), raiseIf_eq_ok.mpr (show ¬ maxInventoryItems < 1 by decide), bind_eq_ok.mpr ⟨(), ?_, rfl⟩⟩
  exact bind_eq_ok.mpr ⟨_, hdict, bind_eq_ok.mpr ⟨_, fromDict_toDict (.inr rfl) hhash, rfl⟩⟩

/-- A session that has room for it accepts a request for one block. -/
theorem receive_blockRequest (session : PeerSession) (hash : Str) (hhash : isHashText hash = true)
    (hroom : ¬ session.maxInventoryItems ≤ session.requestedInventory.card) :
    ∃ session', (PeerSession.receive (blockRequest hash)).call session = (.ok [], session') := by
  have hitem := fromDict_toDict (v := ⟨kindBlock, hash⟩) (.inr rfl) hhash
  have hvalid : (blockRequest hash).validatePayload = .ok () := validateInventory_one hhash .getdata
  have hitems : ((blockRequest hash).payload.item "items" >>= Json.iter) = .ok [InventoryVector.toDict ⟨kindBlock, hash⟩] := rfl
  have hhandle : (PeerSession.handle (blockRequest hash)).call session =
      (.ok [], { session with requestedInventory := insert (kindBlock, hash) session.requestedInventory }) := by
    show (PeerSession.handleGetdata (blockRequest hash)).call session = _
    simp only [PeerSession.handleGetdata, PeerSession.rememberRequests, Method.call_bind, Method.call_reading, hitems, hitem,
      Method.call_get, if_neg hroom, Method.call_modify, Method.call_pure]
  refine ⟨{ session with requestedInventory := insert (kindBlock, hash) session.requestedInventory }, ?_⟩
  rw [PeerSession.receive, Method.call_tryCatch, Method.call_bind, Method.call_reading, hvalid]
  simp only [hhandle]

end

/-- A request for the header of the first block. -/
def headersRequest : Json := .obj [("locator".toList, .arr []), ("limit".toList, .int 1)]

/-- Bob connects to a new service. -/
def connectedService : NodeService :=
  let _ := aliceVerify
  let _ := decoding [] .null
  serviceAfter genesisService [.connectPeer ['b', 'o', 'b'] 0 false]

theorem advertised_genesisBlock :
    let _ := decoding [] .null
    Advertised connectedService (.fromBlock genesisBlock) := by
  intro _
  have hchain : connectedService.node.disk.store.activeChain = .ok [⟨genesisBlock, 1⟩] := by decide +kernel
  have hhash : (BlockHeader.fromBlock genesisBlock).hash = .ok genesisHash := hash_genesisBlock
  obtain ⟨response, hresponse⟩ : ∃ response, headersMessage [.fromBlock genesisBlock] = .ok response := by
    simp only [headersMessage, List.mapM_cons, List.mapM_nil, BlockHeader.toDict, hhash, ok_bind, pure_bind]
    exact ⟨_, rfl⟩
  refine ⟨headersRequest, [.fromBlock genesisBlock], response, ?_, hresponse, List.mem_singleton_self _⟩
  have hlocator : (headersRequest.item "locator" >>= Json.iter) = .ok [] := rfl
  have hstop : headersRequest.get "stop_hash" = .ok .null := rfl
  have hlimit : (headersRequest.item "limit" >>= Json.toInt) = .ok 1 := rfl
  rw [← hresponse, NodeService.handleGetheaders, hchain, hlocator, hstop, hlimit]
  simp only [ok_bind, List.mapM_cons, List.mapM_nil, hash_genesisBlock, pure_bind, startOf, List.drop_zero, collectHeaders,
    List.nil_append, List.length_singleton]
  rfl

end BCC.Proof
