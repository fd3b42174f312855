import BlockchainCoin.Proof.Atomic
import BlockchainCoin.Proof.Converge
import BlockchainCoin.Proof.Gossip
import BlockchainCoin.Proof.Mined

/-!
# Blocks that spread

A node imports a block that a node with the same stored blocks has imported
(`InStep.importBlock`): its store grows by the same row, and its index has room for the
same branches. So a service that hears of a block asks for it, imports what it is sent and
announces it in turn (`hop_call`). From the service that takes it in, a block spreads to
all that hops lead to, which then have the same chain (`block_spreads`).
-/

namespace BCC.Proof

open BCC.Impl PyError NodeService

variable [Ed25519] {n m n' : ConsensusNode} {b : ConsensusBlock} {hash : Str}

/-! ## Nodes in step -/

/-- Two nodes with the same parameters and the same stored blocks. -/
structure InStep (n m : ConsensusNode) : Prop where
  forkChoice : n.forkChoice = m.forkChoice
  rows : n.disk.store.blocks.Perm m.disk.store.blocks

omit [Ed25519] in
theorem InStep.symm (h : InStep n m) : InStep m n := ⟨h.forkChoice.symm, h.rows.symm⟩

omit [Ed25519] in
theorem InStep.trans {o : ConsensusNode} (h : InStep n m) (h' : InStep m o) : InStep n o :=
  ⟨h.forkChoice.trans h'.forkChoice, h.rows.trans h'.rows⟩

/-- Two nodes that tell the same about their chains. -/
structure SameView (n m : ConsensusNode) : Prop where
  tipHash : n.tipHash = m.tipHash
  height : n.height = m.height
  activeChainHashes : n.activeChainHashes = m.activeChainHashes
  getBlock : ∀ hash, n.disk.store.getBlock hash = m.disk.store.getBlock hash
  state : SameState n.state m.state

theorem InStep.sameView (h : InStep n m) (hn : NodeOk n) (hm : NodeOk m) : SameView n m := by
  have hnodup := hn.store.nodup
  have htip := bestTip_perm h.rows hnodup
  have hactive : n.forkChoice.activeChain n.disk.store = m.forkChoice.activeChain m.disk.store :=
    h.forkChoice ▸ activeChain_perm h.rows hnodup n.forkChoice
  obtain ⟨a, ha, hs⟩ := hn.active
  obtain ⟨a', ha', hs'⟩ := hm.active
  rw [hactive, ha', Except.ok.injEq] at ha
  subst ha
  refine ⟨?_, ?_, ?_, getBlock_perm h.rows hnodup, ?_⟩
  · rw [ConsensusNode.tipHash, ConsensusNode.tipHash, htip]
  · rw [ConsensusNode.height, ConsensusNode.height, htip]
  · rw [ConsensusNode.activeChainHashes, ConsensusNode.activeChainHashes, hactive]
  · exact ⟨hs.blockSubsidy.trans hs'.blockSubsidy.symm, hs.maxMoney.trans hs'.maxMoney.symm, hs.utxos.trans hs'.utxos.symm⟩

/-! ## The block as it is sent -/

section

variable {f : ForkChoice} {store store' : ForkStore} {chain : List StoredConsensusBlock} {s : ConsensusState}

theorem Candidate.perm (h : Candidate f store b chain s) (hp : store.blocks.Perm store'.blocks) : Candidate f store' b chain s := by
  cases h with
  | genesis h₀ hnil hinit hv => exact .genesis h₀ (List.perm_nil.mp (hnil ▸ hp).symm) hinit hv
  | child hne hparent hb hs hv => exact .child hne hparent (hb.mono hp.subset) hs hv

/-- A block that passes the checks passes them in the form in which it is decoded. -/
theorem Candidate.storedBlock (h : Candidate f store b chain s) :
    storedHash b.previousHash = b.previousHash ∧ Candidate f store (storedBlock b) chain s := by
  cases h with
  | genesis h₀ hnil hinit hv =>
    obtain ⟨c, rest, s₁, hcheck, -⟩ := validateCandidate_eq_ok.mp hv
    obtain ⟨-, hprev, -⟩ := checkBlock_eq_ok.mp hcheck
    obtain ⟨hu, -⟩ := init_eq_ok hinit
    exact ⟨by rw [hprev, storedHash_zeroHash],
      .genesis h₀ hnil hinit (validateCandidate_storedBlock (hu ▸ canonical_empty) storedHash_zeroHash hv).1⟩
  | @child p _ s₀ _ fees hne hparent hb hs hv =>
    obtain ⟨-, -, hu, hp⟩ := hs.facts
    have hprev : storedHash b.previousHash = b.previousHash := hparent ▸ hp
    have hv' := (validateCandidate_storedBlock hu hprev hv).1
    have hfield : (BCC.Proof.storedBlock b).previousHash = b.previousHash := hprev
    exact ⟨hprev, .child hne (hparent.trans hfield.symm) hb hs (hfield.symm ▸ hv')⟩

omit [Ed25519] in
theorem toBytes_storedBlock (b : ConsensusBlock) : (storedBlock b).toBytes = b.toBytes := by
  have h : (fun t : ConsensusTransaction => t.toBytes >>= encodeBytes) ∘ storedTransaction =
      fun t : ConsensusTransaction => t.toBytes >>= encodeBytes := funext fun t => by
    rw [Function.comp_apply, toBytes_storedTransaction]
  simp only [ConsensusBlock.toBytes, headerBytes_storedBlock]
  simp only [storedBlock, List.length_map, List.mapM_map, h]

omit [Ed25519] in
/-- It gets the same row. -/
theorem newRow_storedBlock (hprev : storedHash b.previousHash = b.previousHash) (store : ForkStore) (hash : Str) :
    store.newRow (storedBlock b) hash = store.newRow b hash := by
  have hwork : store.newWork (storedBlock b) = store.newWork b := by
    simp only [ForkStore.newWork, storedBlock, hprev]
    rfl
  rw [ForkStore.newRow, ForkStore.newRow, hwork, encodeConsensusBlock, encodeConsensusBlock, toBytes_storedBlock]
  simp only [storedBlock, hprev]

/-- Where the blocks are the same, the index has room for the same branches. -/
theorem ChainsFit.perm (h : ChainsFit f store hash) (hp : store.blocks.Perm store'.blocks)
    (hn : (store.blocks.map (·.hash)).Nodup) : ChainsFit f store' hash := by
  rintro a (ha | ha)
  · refine h a (.inl ?_)
    rwa [ForkChoice.chainToTip, chainToTip_perm hp hn]
  · refine h a (.inr ?_)
    rwa [activeChain_perm hp hn]

end

/-! ## Importing it again -/

/-- A block that may be stored is imported if the index has room for its branch and for the active one. -/
theorem importBlock_of_fit {store : ForkStore} {stored : StoredConsensusBlock} (h : NodeOk n) (hhash : b.hash = .ok hash)
    (hc : ∃ chain s, Candidate n.forkChoice n.disk.store b chain s) (hst : Stores n.forkChoice n.disk.store b hash stored store)
    (hcache : n.disk.invalidBlocks.isInvalid hash = false) (hfit : ChainsFit n.forkChoice store hash) :
    ∃ n', (ConsensusNode.importBlock b).call n = (.ok stored, n') ∧ n'.forkChoice = n.forkChoice ∧ n'.disk.store = store := by
  have hcand := (storeCandidate_eq_ok h hhash).mpr ⟨_, hc, hst, rfl⟩
  generalize hr : (ConsensusNode.importBlock b).call n = r
  have hi := importBlock_cases h b
  rw [hr] at hi
  cases hi with
  | refused hinvalid => rw [hinvalid hash hhash] at hcache; cases hcache
  | rejected _ _ hcall => rw [hcand] at hcall; cases hcall
  | @stored _ oldTip stored' n₁ n₂ r _ _ htip hcall hact =>
    rw [hcand, Prod.mk.injEq, Except.ok.injEq] at hcall
    obtain ⟨rfl, rfl⟩ := hcall
    obtain ⟨n', hn'⟩ := (activate_returns_iff h hhash htip hc hst).mpr hfit
    rw [hact, Prod.mk.injEq] at hn'
    obtain ⟨rfl, rfl⟩ := hn'
    obtain ⟨a, reorg, index, -, -, -, rfl⟩ := activate_returns h hhash hc hst hact
    exact ⟨_, rfl, rfl, rfl⟩

/-- What a node has imported, a node in step with it imports too, in the form in which it is sent. -/
theorem InStep.importBlock (h : InStep n m) (hn : NodeOk n) (hm : NodeOk m) {stored : StoredConsensusBlock}
    (himport : (ConsensusNode.importBlock b).call n = (.ok stored, n')) (hhash : b.hash = .ok hash)
    (hcache : m.disk.invalidBlocks.isInvalid hash = false) :
    ∃ stored' m', (ConsensusNode.importBlock (storedBlock b)).call m = (.ok stored', m') ∧ InStep n' m' := by
  obtain ⟨hash', store, a, hact⟩ := importBlock_returns hn himport
  obtain rfl : hash = hash' := Except.ok.inj (hhash.symm.trans hact.hash_eq)
  have hok := hact.stores.storeOk hn.store hhash
  obtain ⟨i, hfit⟩ : ∃ i, ∃ i', IndexWritten n.forkChoice store hash a i i' := ⟨_, _, hact.index⟩
  have hfits := (indexWritten_iff hok (hact.stores.mem hn.store hhash).1 hact.active i).mp hfit
  obtain ⟨chain, s, hc⟩ := hact.candidate
  obtain ⟨hprev, hcand⟩ := hc.storedBlock
  have hcand' := (hcand.perm h.rows)
  rw [h.forkChoice] at hcand' hfits
  have hhash' : (storedBlock b).hash = .ok hash := (hash_storedBlock b).trans hhash
  have hnode : n'.forkChoice = n.forkChoice ∧ n'.disk.store = store := by rw [hact.node]; exact ⟨rfl, rfl⟩
  -- The store of the other node grows by the same row.
  obtain ⟨stored', store', hstores, hrows⟩ : ∃ stored' store',
      Stores m.forkChoice m.disk.store (storedBlock b) hash stored' store' ∧ store.blocks.Perm store'.blocks := by
    cases hact.stores with
    | known hmem hget =>
      refine ⟨stored, m.disk.store, .known ((h.rows.map _).mem_iff.mp hmem) ?_, h.rows⟩
      rw [← getBlock_perm h.rows hn.store.nodup, hget]
    | @new _ _ row hmem _ hrow hbind =>
      have hrow' : m.disk.store.newRow (storedBlock b) hash = .ok row := by
        rw [newRow_storedBlock hprev, ← hrow]
        exact (newRow_congr (fun _ => getBlock_perm h.rows hn.store.nodup _) hash).symm
      exact ⟨_, _, .new (fun hin => hmem ((h.rows.map _).mem_iff.mpr hin)) (hcand'.extends hm.store hhash' hrow') hrow' hbind,
        h.rows.append_right [row]⟩
  obtain ⟨m', hcall, hfork, hstore⟩ := importBlock_of_fit hm hhash' ⟨_, _, hcand'⟩ hstores hcache (hfits.perm hrows hok.nodup)
  refine ⟨stored', m', hcall, ?_, ?_⟩
  · rw [hnode.1, hfork, h.forkChoice]
  · rw [hnode.2, hstore]
    exact hrows

/-! ## What sessions answer -/

section

variable [PyText] {a : Str} {s s' : NodeService} {session : PeerSession} {response : PeerMessage}

/-- An INV that announces one block. -/
def blockAnnouncement (hash : Str) : PeerMessage := inventoryMessage .inv [⟨kindBlock, hash⟩]

omit [Ed25519] [PyText] in
theorem isHashText_hash (h : b.hash = .ok hash) : isHashText hash = true := by
  obtain ⟨header, -, he⟩ := bind_eq_ok.mp h
  rw [pure_eq_ok] at he
  rw [← he, sha256Hex]
  exact Bool.of_not_eq_false (isHashText_of_isHash (isHash_hexEncode (Sha256.length_digest _)))

omit [Ed25519] in
/-- A session that does not know the block, and has room for it, asks for it. -/
theorem receive_blockAnnouncement (hhash : isHashText hash = true) (hnew : (kindBlock, hash) ∉ session.knownInventory)
    (hroom : (session.knownInventory.card : Int) < session.maxInventoryItems) :
    ∃ session', (PeerSession.receive (blockAnnouncement hash)).call session = (.ok [blockRequest hash], session') := by
  have hitem := fromDict_toDict (v := ⟨kindBlock, hash⟩) (.inr rfl) hhash
  have hvalid : (blockAnnouncement hash).validatePayload = .ok () := validateInventory_one hhash .inv
  have hitems : ((blockAnnouncement hash).payload.item "items" >>= Json.iter) =
      .ok [InventoryVector.toDict ⟨kindBlock, hash⟩] := rfl
  have hhandle : ∃ session', (PeerSession.handle (blockAnnouncement hash)).call session = (.ok [blockRequest hash], session') := by
    show ∃ session', (PeerSession.handleInv (blockAnnouncement hash)).call session = _
    simp only [PeerSession.handleInv, PeerSession.wantItems, Method.call_bind, Method.call_reading, hitems, hitem,
      Method.call_get, if_neg hnew, if_neg (not_le.mpr hroom), Method.call_modify, Method.call_pure, List.nil_append]
    exact ⟨_, rfl⟩
  obtain ⟨session', hhandle⟩ := hhandle
  refine ⟨session', ?_⟩
  rw [PeerSession.receive, Method.call_tryCatch, Method.call_bind, Method.call_reading, hvalid]
  simp only [hhandle]

omit [Ed25519] in
/-- A session accepts a block that can be encoded. -/
theorem receive_blockMessage (hhash : b.hash = .ok hash) (htype : response.messageType = .block)
    (hblock : blockFromPayload response.payload = .ok (storedBlock b)) (session : PeerSession) :
    ∃ session', (PeerSession.receive response).call session = (.ok [], session') := by
  have hvalid : response.validatePayload = .ok () := by
    rw [PeerMessage.validatePayload, htype]
    exact bind_eq_ok.mpr ⟨_, hblock, rfl⟩
  have hread : (blockFromPayload response.payload >>= ConsensusBlock.hash) = .ok hash := by
    rw [hblock, ok_bind, hash_storedBlock, hhash]
  refine ⟨{ session with knownInventory := insert (kindBlock, hash) session.knownInventory }, ?_⟩
  rw [PeerSession.receive, Method.call_tryCatch, Method.call_bind, Method.call_reading, hvalid]
  simp only [PeerSession.handle, htype, PeerSession.handleBlock, Method.call_bind, Method.call_reading, hread,
    Method.call_modify, Method.call_pure]

/-! ## What services answer -/

/-- The service with another session for an address. -/
def withSession (a : Str) (session : PeerSession) (s : NodeService) : NodeService :=
  { s with sessions := s.sessions.set a session }

/-- A service asks for a block that is announced to it. -/
theorem announcement_call (hhash : isHashText hash = true) (hsession : s.sessions.get? a = some session)
    (hnew : (kindBlock, hash) ∉ session.knownInventory)
    (hroom : (session.knownInventory.card : Int) < session.maxInventoryItems) (now : Int) :
    ∃ session', (receive a (blockAnnouncement hash) now).call s =
      (.ok { direct := [blockRequest hash] }, withSession a session' s) := by
  obtain ⟨session', hasks⟩ := receive_blockAnnouncement hhash hnew hroom
  refine ⟨session', ?_⟩
  rw [receive_eq, sessionFor_there hsession]
  dsimp only
  rw [receiveFrom, Method.call_bind, call_onSession hsession, hasks]
  rfl

/-- A service sends a block that it has cached. -/
theorem request_call {raw : Bytes} (hhash : isHashText hash = true) (hraw : b.toBytes = .ok raw)
    (hcached : s.blocks.get? hash = some b) (hsession : s.sessions.get? a = some session)
    (hroom : (session.requestedInventory.card : Int) < session.maxInventoryItems) (now : Int) :
    ∃ response session', (receive a (blockRequest hash) now).call s = (.ok { direct := [response] }, withSession a session' s) ∧
      response.messageType = .block ∧ blockFromPayload response.payload = .ok (storedBlock b) := by
  obtain ⟨session', haccepts⟩ := receive_blockRequest session hash hhash (not_le.mpr hroom)
  obtain ⟨response, hresponse, htype, hblock⟩ := blockFromPayload_blockMessage hraw
  refine ⟨response, session', ?_, htype, hblock⟩
  have hnames := namesBlock_blockRequest hash hhash
  rw [receive_accepted hsession haccepts, answered, Method.call_tryCatch, dispatch, hnames.messageType]
  simp only [Method.call_bind, Method.call_reading, hnames.handleGetdata, hcached, hresponse]
  rfl

/-- The node of the service imported a block when it was `n`, and the service has cached the block. -/
structure TakenIn (n : ConsensusNode) (b : ConsensusBlock) (hash : Str) (s : NodeService) : Prop where
  hash_eq : b.hash = .ok hash
  raw : ∃ raw, b.toBytes = .ok raw
  imported : ∃ stored, (ConsensusNode.importBlock b).call n = (.ok stored, s.node)
  cached : s.blocks.get? hash = some b

omit [PyText] in
/-- The block is stored. -/
theorem TakenIn.stored (h : TakenIn n b hash s) (hn : NodeOk n) : NodeOk s.node ∧ s.node.disk.store.hasBlock hash = true := by
  obtain ⟨stored, himport⟩ := h.imported
  obtain ⟨hash', store, a, hact⟩ := importBlock_returns hn himport
  obtain rfl : hash = hash' := Except.ok.inj (h.hash_eq.symm.trans hact.hash_eq)
  have hok := hn.importBlock b
  rw [himport] at hok
  refine ⟨hok, ?_⟩
  rw [ForkStore.hasBlock, Table.isSome_lookup, hact.node]
  exact (hact.stores.mem hn.store hact.hash_eq).1

omit [Ed25519] [PyText] in
theorem cacheTransactions_call : ∀ (ts : List ConsensusTransaction) (s : NodeService), ∃ transactions,
    (cacheTransactions ts).call s = ((fun _ => ()) <$> ts.mapM fun t => t.txid, { s with transactions := transactions })
  | [], s => ⟨s.transactions, rfl⟩
  | t :: ts, s => by
    rw [List.mapM_cons]
    cases ht : t.txid with
    | error e =>
      refine ⟨s.transactions, ?_⟩
      simp only [cacheTransactions, Method.call_bind, Method.call_reading, ht]
      rfl
    | ok txid =>
      obtain ⟨transactions, hcall⟩ := cacheTransactions_call ts { s with transactions := s.transactions.set txid t }
      refine ⟨transactions, ?_⟩
      simp only [cacheTransactions, Method.call_bind, Method.call_reading, ht, Method.call_modify, hcall, ok_bind]
      cases ts.mapM fun t => t.txid <;> rfl

omit [Ed25519] [PyText] in
/-- What follows once a block is cached cannot fail, and leaves the node, the blocks and the sessions as they are. -/
theorem recordReceived_call {txids : List Str} (h : (b.transactions.mapM fun t => t.txid) = .ok txids) (hash : Str)
    (s : NodeService) : ∃ s', (recordReceived b hash).call s = (.ok [blockAnnouncement hash], s') ∧ s'.node = s.node ∧
      s'.blocks = s.blocks ∧ s'.sessions = s.sessions := by
  simp only [recordReceived, Method.call_bind, Method.call_get, Method.call_modify]
  cases s.inFlightBlocks.get? hash with
  | none =>
    obtain ⟨transactions, hcall⟩ := cacheTransactions_call b.transactions
      { s with inFlightBlocks := s.inFlightBlocks.erase hash }
    simp only [Method.call_bind, Method.call_pure, hcall, h]
    exact ⟨_, rfl, rfl, rfl, rfl⟩
  | some download =>
    obtain ⟨transactions, hcall⟩ := cacheTransactions_call b.transactions (recorded download.peer { completedBlocks := 1 }
      { s with inFlightBlocks := s.inFlightBlocks.erase hash })
    simp only [Method.call_bind, call_recordProgress, hcall, h, Method.call_pure]
    exact ⟨_, rfl, rfl, rfl, rfl⟩

omit [PyText] in
/-- A service that has not cached a block takes it in if its node imports it. -/
theorem handleBlock_call (hhash : b.hash = .ok hash) (hraw : ∃ raw, b.toBytes = .ok raw) (h : NodeOk s.node)
    (hnew : s.blocks.contains hash = false) {stored : StoredConsensusBlock}
    (himport : (ConsensusNode.importBlock b).call s.node = (.ok stored, n')) :
    ∃ s', (handleBlock b).call s = (.ok [blockAnnouncement hash], s') ∧ TakenIn s.node b hash s' ∧ s'.node = n' ∧
      s'.sessions = s.sessions := by
  obtain ⟨_, _, _, hact⟩ := importBlock_returns h himport
  obtain ⟨chain, state, hc⟩ := hact.candidate
  obtain ⟨s', hcall, hnode, hblocks, hsessions⟩ :=
    recordReceived_call hc.txids hash { s with node := n', blocks := s.blocks.set hash b }
  refine ⟨s', ?_, ⟨hhash, hraw, ⟨stored, hnode ▸ himport⟩, ?_⟩, hnode, hsessions⟩
  · rw [← hcall]
    simp only [handleBlock, onNode, Method.call_bind, Method.call_reading, Method.call_get, hhash,
      if_neg (ne_true_of_eq_false hnew), Method.call_onPart, himport, Method.call_modify]
    rfl
  · rw [hblocks, Dict.get?_set_self]

/-- A service takes in the block that it is sent. -/
theorem block_call (hhash : b.hash = .ok hash) (hraw : ∃ raw, b.toBytes = .ok raw) (h : NodeOk s.node)
    (htype : response.messageType = .block) (hblock : blockFromPayload response.payload = .ok (storedBlock b))
    (hsession : s.sessions.get? a = some session) (hnew : s.blocks.contains hash = false) {stored : StoredConsensusBlock}
    (himport : (ConsensusNode.importBlock (storedBlock b)).call s.node = (.ok stored, n')) (now : Int) :
    ∃ s', (receive a response now).call s = (.ok { relay := [blockAnnouncement hash] }, s') ∧
      TakenIn s.node (storedBlock b) hash s' ∧ s'.node = n' ∧ ∃ session', s'.sessions = s.sessions.set a session' := by
  obtain ⟨session', haccepts⟩ := receive_blockMessage hhash htype hblock session
  obtain ⟨s', hcall, htaken, hnode, hsessions⟩ := handleBlock_call (s := { s with sessions := s.sessions.set a session' })
    ((hash_storedBlock b).trans hhash) (toBytes_storedBlock b ▸ hraw) h hnew himport
  refine ⟨s', ?_, htaken, hnode, session', hsessions⟩
  rw [receive_accepted hsession haccepts, answered, Method.call_tryCatch, dispatch, htype]
  simp only [Method.call_bind, Method.call_reading, hblock, hcall]
  rfl

end

/-! ## Networks -/

section

variable [PyText] {net : Str → NodeService} {x y : Str}

/-- `y` receives messages of `x`, which it knows under this address: what it answers to `x`, and what it relays. -/
def deliver (x y : Str) (now : Int) : List PeerMessage → Method (Str → NodeService) PyError (List PeerMessage × List PeerMessage)
  | [] => return ([], [])
  | message :: messages => do
    let result ← Method.onPart (· y) (fun s net => Function.update net y s) (NodeService.receive x message now)
    let rest ← deliver x y now messages
    return (result.direct ++ rest.1, result.relay ++ rest.2)

/-- `x` sends what it relays to `y` and answers its requests; the result is what `y` relays. -/
def hop (x y : Str) (now : Int) (announced : List PeerMessage) : Method (Str → NodeService) PyError (List PeerMessage) := do
  let requests ← deliver x y now announced
  let responses ← deliver y x now requests.1
  let last ← deliver x y now responses.1
  return last.2

/-- Hops of a message that is relayed, one after the other; the result is what each receiver relays. -/
def relayAlong (now : Int) (announced : List PeerMessage) : List (Str × Str) →
    Method (Str → NodeService) PyError (List (List PeerMessage))
  | [] => return []
  | edge :: edges => do
    let relayed ← hop edge.1 edge.2 now announced
    let rest ← relayAlong now announced edges
    return relayed :: rest

theorem deliver_one (net : Str → NodeService) {message : PeerMessage} {now : Int} {result : ServiceResult} {s s' : NodeService}
    (hs : net y = s) (h : (NodeService.receive x message now).call s = (.ok result, s')) :
    (deliver x y now [message]).call net = (.ok (result.direct, result.relay), Function.update net y s') := by
  simp only [deliver, Method.call_bind, Method.call_onPart, hs, h, Method.call_pure, List.append_nil]

/-- The session of `y` for `x` does not know the block and has room for it, and that of `x` for `y` has room for a request. -/
structure Ready (net : Str → NodeService) (hash : Str) (x y : Str) : Prop where
  hears : ∃ session, (net y).sessions.get? x = some session ∧ (kindBlock, hash) ∉ session.knownInventory ∧
    (session.knownInventory.card : Int) < session.maxInventoryItems
  serves : ∃ session, (net x).sessions.get? y = some session ∧
    (session.requestedInventory.card : Int) < session.maxInventoryItems

/-- A service that has neither taken in the block nor refused it, and is in step with `n`. -/
structure Lacks (n : ConsensusNode) (hash : Str) (s : NodeService) : Prop where
  node : NodeReached s
  inStep : InStep n s.node
  notRefused : s.node.disk.invalidBlocks.isInvalid hash = false
  notCached : s.blocks.contains hash = false

/-- A block goes from a service that has taken it in to one that lacks it. -/
theorem hop_call (hxy : x ≠ y) (hn : NodeOk n) (htaken : TakenIn n b hash (net x)) (hlacks : Lacks n hash (net y))
    (hready : Ready net hash x y) (now : Int) :
    ∃ net' session, (hop x y now [blockAnnouncement hash]).call net = (.ok [blockAnnouncement hash], net') ∧
      net' x = withSession y session (net x) ∧ TakenIn (net y).node (storedBlock b) hash (net' y) ∧
      InStep (net x).node (net' y).node ∧ (∀ z ≠ x, (net' y).sessions.get? z = (net y).sessions.get? z) ∧
      ∀ z, z ≠ x → z ≠ y → net' z = net z := by
  have hhash := isHashText_hash htaken.hash_eq
  obtain ⟨raw, hraw⟩ := htaken.raw
  obtain ⟨session, hsession, hnew, hroom⟩ := hready.hears
  obtain ⟨session', hsession', hroom'⟩ := hready.serves
  obtain ⟨stored, himport⟩ := htaken.imported
  obtain ⟨stored', m, himport', hstep⟩ := hlacks.inStep.importBlock hn hlacks.node.nodeOk himport htaken.hash_eq hlacks.notRefused
  -- The announcement, the request and the block.
  obtain ⟨t₁, hcall₁⟩ := announcement_call hhash hsession hnew hroom now
  obtain ⟨response, t₂, hcall₂, htype, hblock⟩ := request_call hhash hraw htaken.cached hsession' hroom' now
  obtain ⟨s, hcall₃, htaken', hnode, t₃, hsessions⟩ := block_call (s := withSession x t₁ (net y)) htaken.hash_eq ⟨raw, hraw⟩
    hlacks.node.nodeOk htype hblock (Dict.get?_set_self _ _ _) hlacks.notCached himport' now
  have h₁ := deliver_one net rfl hcall₁
  have h₂ := deliver_one (Function.update net y (withSession x t₁ (net y))) (Function.update_of_ne hxy _ _) hcall₂
  have h₃ := deliver_one (Function.update (Function.update net y (withSession x t₁ (net y))) x (withSession y t₂ (net x)))
    ((Function.update_of_ne hxy.symm _ _).trans (Function.update_self _ _ _)) hcall₃
  refine ⟨_, t₂, (Method.call_bind_of_ok h₁).trans <| (Method.call_bind_of_ok h₂).trans <| (Method.call_bind_of_ok h₃).trans rfl,
    ?_, ?_, ?_, fun z hz => ?_, fun z hzx hzy => ?_⟩
  · rw [Function.update_of_ne hxy, Function.update_self]
  · rw [Function.update_self]
    exact htaken'
  · rw [Function.update_self, hnode]
    exact hstep
  · rw [Function.update_self, hsessions, Dict.get?_set, if_neg hz]
    exact (Dict.get?_set _ _ _ _).trans (if_neg hz)
  · rw [Function.update_of_ne hzy, Function.update_of_ne hzx, Function.update_of_ne hzy]

/-- Each edge goes from a service that has been reached to one that has not. -/
inductive Spreads : List Str → List (Str × Str) → Prop
  | nil {reached : List Str} : Spreads reached []
  | cons {reached : List Str} {edge : Str × Str} {edges : List (Str × Str)} : edge.1 ∈ reached → edge.2 ∉ reached →
      Spreads (edge.2 :: reached) edges → Spreads reached (edge :: edges)

omit [Ed25519] [PyText] in
theorem Spreads.target {reached : List Str} {edges : List (Str × Str)} (h : Spreads reached edges) :
    ∀ e ∈ edges, e.2 ∉ reached := by
  induction h with
  | nil => exact fun _ he => absurd he List.not_mem_nil
  | cons _ hy _ ih => exact List.forall_mem_cons.mpr ⟨hy, fun e he hmem => ih e he (List.mem_cons_of_mem _ hmem)⟩

/-- What holds while a block spreads: the services that have been reached have taken it in, which brought them in step with
`n'`, and nothing else has changed but the sessions that they have for each other. -/
structure Visited (n n' : ConsensusNode) (hash : Str) (net : Str → NodeService) (reached : List Str) (net' : Str → NodeService) :
    Prop where
  taken : ∀ y ∈ reached, ∃ m b, NodeOk m ∧ InStep n m ∧ TakenIn m b hash (net' y)
  inStep : ∀ y ∈ reached, InStep n' (net' y).node
  sessions : ∀ y ∈ reached, ∀ z ∉ reached, (net' y).sessions.get? z = (net y).sessions.get? z
  others : ∀ z ∉ reached, net' z = net z

/-- A hop reaches one more service. -/
theorem Visited.hop {net₀ : Str → NodeService} {reached : List Str} (h : Visited n n' hash net₀ reached net) (hx : x ∈ reached)
    (hy : y ∉ reached) (hlacks : Lacks n hash (net₀ y)) (hready : Ready net₀ hash x y) (now : Int) :
    ∃ net', (BCC.Proof.hop x y now [blockAnnouncement hash]).call net = (.ok [blockAnnouncement hash], net') ∧
      Visited n n' hash net₀ (y :: reached) net' := by
  obtain ⟨m, b, hm, hstep, htaken⟩ := h.taken x hx
  have hnety := h.others y hy
  have hxy : x ≠ y := fun he => hy (he ▸ hx)
  have hlacks' : Lacks m hash (net y) := by
    rw [hnety]
    exact ⟨hlacks.node, hstep.symm.trans hlacks.inStep, hlacks.notRefused, hlacks.notCached⟩
  have hready' : Ready net hash x y := by
    refine ⟨?_, ?_⟩
    · rw [hnety]
      exact hready.hears
    · rw [h.sessions x hx y hy]
      exact hready.serves
  obtain ⟨net', session, hhop, hnetx, htaken', hstep', hsessions, hothers⟩ := hop_call hxy hm htaken hlacks' hready' now
  -- Of the services that had been reached, `x` has another session for `y`.
  have hold : ∀ z ∈ reached, (net' z).node = (net z).node ∧ (net' z).blocks = (net z).blocks ∧
      ∀ w ≠ y, (net' z).sessions.get? w = (net z).sessions.get? w := fun z hz => by
    by_cases hzx : z = x
    · rw [hzx, hnetx]
      exact ⟨rfl, rfl, fun w hw => (Dict.get?_set _ _ _ _).trans (if_neg hw)⟩
    · rw [hothers z hzx fun he => hy (he ▸ hz)]
      exact ⟨rfl, rfl, fun _ _ => rfl⟩
  rw [hnety] at htaken' hsessions
  refine ⟨net', hhop, List.forall_mem_cons.mpr ⟨⟨_, _, hlacks.node.nodeOk, hlacks.inStep, htaken'⟩, fun z hz => ?_⟩,
    List.forall_mem_cons.mpr ⟨(h.inStep x hx).trans hstep', fun z hz => ?_⟩,
    List.forall_mem_cons.mpr ⟨fun w hw => ?_, fun z hz w hw => ?_⟩, fun z hz => ?_⟩
  · obtain ⟨o, c, ho, hostep, hotaken⟩ := h.taken z hz
    obtain ⟨hnode, hblocks, -⟩ := hold z hz
    exact ⟨o, c, ho, hostep, hotaken.hash_eq, hotaken.raw, hnode.symm ▸ hotaken.imported, hblocks.symm ▸ hotaken.cached⟩
  · rw [(hold z hz).1]
    exact h.inStep z hz
  · exact hsessions w fun he => hw (he ▸ List.mem_cons_of_mem y hx)
  · rw [List.mem_cons, not_or] at hw
    rw [(hold z hz).2.2 w hw.1, h.sessions z hz w hw.2]
  · rw [List.mem_cons, not_or] at hz
    rw [hothers z (fun he => hz.2 (he ▸ hx)) hz.1, h.others z hz.2]

/-- A block spreads along edges to all that they reach. -/
theorem Visited.relayAlong {net₀ : Str → NodeService} {edges : List (Str × Str)} {reached : List Str} (now : Int)
    (hspreads : Spreads reached edges) (h : Visited n n' hash net₀ reached net) (hlacks : ∀ e ∈ edges, Lacks n hash (net₀ e.2))
    (hready : ∀ e ∈ edges, Ready net₀ hash e.1 e.2) :
    ∃ net', (BCC.Proof.relayAlong now [blockAnnouncement hash] edges).call net =
        (.ok (edges.map fun _ => [blockAnnouncement hash]), net') ∧
      ∃ reached', Visited n n' hash net₀ reached' net' ∧ ∀ z, z ∈ reached' ↔ z ∈ reached ∨ z ∈ edges.map Prod.snd := by
  induction hspreads generalizing net with
  | nil => exact ⟨net, rfl, _, h, fun z => by simp⟩
  | @cons reached edge edges hx hy _ ih =>
    rw [List.forall_mem_cons] at hlacks hready
    obtain ⟨net₁, hhop, h₁⟩ := h.hop hx hy hlacks.1 hready.1 now
    obtain ⟨net', hrest, reached', h', hreached⟩ := ih h₁ hlacks.2 hready.2
    refine ⟨net', ?_, reached', h', fun z => ?_⟩
    · simp only [BCC.Proof.relayAlong, Method.call_bind, hhop, hrest, Method.call_pure, List.map_cons]
    · rw [hreached, List.map_cons, List.mem_cons, List.mem_cons]
      tauto

/-- A call in which a service takes in a block that is new to it: one that it is sent, or one that it mines. -/
inductive TakesIn (hash : Str) (s : NodeService) : NodeService → Prop
  | received {b : ConsensusBlock} {s' : NodeService} (hraw : ∃ raw, b.toBytes = .ok raw)
    (hcall : (NodeService.handleBlock b).call s = (.ok [blockAnnouncement hash], s')) : TakesIn hash s s'
  | mined {minerAddress : Str} {timestamp : UInt64} {fuel : Nat} {result : ServiceResult} {s' : NodeService}
    (hnew : s.node.disk.store.hasBlock hash = false)
    (hcall : (mineLocalBlock minerAddress timestamp fuel).call s = (.ok result, s'))
    (hrelay : result.relay = [blockAnnouncement hash]) : TakesIn hash s s'

omit [Ed25519] [PyText] in
theorem blockAnnouncement_inj {hash hash' : Str} (h : blockAnnouncement hash = blockAnnouncement hash') : hash = hash' := by
  simp only [blockAnnouncement, inventoryMessage, PeerMessage.mk.injEq, Json.obj.injEq, List.cons.injEq, Prod.mk.injEq,
    Json.arr.injEq, true_and, and_true] at h
  have hitems := List.map_injective_iff.mpr toDict_injective h
  rw [List.cons.injEq, InventoryVector.mk.injEq] at hitems
  exact hitems.1.2

omit [PyText] in
theorem handleBlock_takenIn {s s' : NodeService} (h : NodeOk s.node) (hraw : ∃ raw, b.toBytes = .ok raw)
    (hcall : (NodeService.handleBlock b).call s = (.ok [blockAnnouncement hash], s')) : TakenIn s.node b hash s' := by
  cases hhash : b.hash with
  | error e =>
    simp only [NodeService.handleBlock, Method.call_bind, Method.call_reading, hhash] at hcall
    cases hcall
  | ok hash' =>
    by_cases hthere : s.blocks.contains hash' = true
    · simp only [NodeService.handleBlock, Method.call_bind, Method.call_reading, hhash, Method.call_get, if_pos hthere,
        Method.call_pure] at hcall
      cases hcall
    · rcases himport : (ConsensusNode.importBlock b).call s.node with ⟨e | stored, n'⟩
      · simp only [NodeService.handleBlock, onNode, Method.call_bind, Method.call_reading, hhash, Method.call_get,
          if_neg hthere, Method.call_onPart, himport] at hcall
        cases hcall
      · obtain ⟨s'', hcall', htaken, -⟩ := handleBlock_call hhash hraw h (Bool.eq_false_iff.mpr hthere) himport
        rw [hcall, Prod.mk.injEq, Except.ok.injEq, List.cons.injEq] at hcall'
        obtain ⟨⟨hmessage, -⟩, rfl⟩ := hcall'
        rwa [blockAnnouncement_inj hmessage]

omit [PyText] in
theorem mineLocalBlock_returns {s s' : NodeService} {minerAddress : Str} {timestamp : UInt64} {fuel : Nat} {result : ServiceResult}
    (hcall : (mineLocalBlock minerAddress timestamp fuel).call s = (.ok result, s')) :
    ∃ stored hash', (ConsensusNode.mineBlock minerAddress timestamp fuel).call s.node = (.ok stored, s'.node) ∧
      stored.block.hash = .ok hash' ∧ result.relay = [blockAnnouncement hash'] ∧
      s'.blocks = s.blocks.set hash' stored.block ∧ s'.sessions = s.sessions := by
  rw [mineLocalBlock] at hcall
  simp only [Method.call_bind_eq_ok, Method.call_reading_eq_ok] at hcall
  obtain ⟨stored, s₁, hmine, hash', _, ⟨hhash, rfl⟩, ⟨⟩, s₂, hset, ⟨⟩, s₃, hcache, hlast⟩ := hcall
  obtain ⟨transactions, hcall⟩ := cacheTransactions_call stored.block.transactions s₂
  rw [onNode, Method.call_onPart, Prod.mk.injEq] at hmine
  obtain ⟨hreturns, rfl⟩ := hmine
  rw [Method.call_modify, Prod.mk.injEq] at hset
  obtain ⟨-, rfl⟩ := hset
  rw [hcall, Prod.mk.injEq] at hcache
  obtain ⟨-, rfl⟩ := hcache
  rw [Method.call_pure, Prod.mk.injEq, Except.ok.injEq] at hlast
  obtain ⟨rfl, rfl⟩ := hlast
  exact ⟨stored, hash', Prod.ext hreturns rfl, hhash, rfl, rfl, rfl⟩

omit [PyText] in
theorem mineLocalBlock_takenIn {s s' : NodeService} {minerAddress : Str} {timestamp : UInt64} {fuel : Nat} {result : ServiceResult}
    (h : NodeOk s.node) (hnew : s.node.disk.store.hasBlock hash = false)
    (hcall : (mineLocalBlock minerAddress timestamp fuel).call s = (.ok result, s'))
    (hrelay : result.relay = [blockAnnouncement hash]) : ∃ b, TakenIn s.node b hash s' := by
  obtain ⟨stored, hash', hmine, hhash, hrelay', hblocks, -⟩ := mineLocalBlock_returns hcall
  rw [hrelay, List.cons.injEq] at hrelay'
  obtain rfl := blockAnnouncement_inj hrelay'.1
  obtain ⟨-, -, b, -, -, himport⟩ := mineBlock_returns hmine
  obtain ⟨hash', store, a, hact⟩ := importBlock_returns h himport
  obtain rfl : hash = hash' := Except.ok.inj (hhash.symm.trans (hact.stores.mem h.store hact.hash_eq).2)
  cases hact.stores with
  | known hknown =>
    rw [ForkStore.hasBlock, ← Bool.not_eq_true, Table.isSome_lookup] at hnew
    exact absurd hknown hnew
  | new =>
    exact ⟨b, hact.hash_eq, toBytes_of_mineBlock h hmine, ⟨_, himport⟩, by rw [hblocks, Dict.get?_set_self]⟩

/-- A block that a service takes in and relays spreads along any tree of services that lack it and are in step with that
service, in any order of hops: each of them imports the block and relays it in turn, and then they all tell the same about
their chains. No other service is involved. -/
theorem block_spreads {net : Str → NodeService} {x : Str} (hx : NodeReached (net x)) {hash : Str} {s : NodeService}
    (htakes : TakesIn hash (net x) s) {edges : List (Str × Str)} (hspreads : Spreads [x] edges)
    (hlacks : ∀ e ∈ edges, Lacks (net x).node hash (net e.2))
    (hready : ∀ e ∈ edges, Ready (Function.update net x s) hash e.1 e.2) (now : Int) :
    ∃ net', (relayAlong now [blockAnnouncement hash] edges).call (Function.update net x s) =
        (.ok (edges.map fun _ => [blockAnnouncement hash]), net') ∧
      (∀ y ∈ x :: edges.map Prod.snd, SameView s.node (net' y).node ∧ (net' y).node.disk.store.hasBlock hash = true ∧
        (net' y).blocks.contains hash = true) ∧
      ∀ z ∉ x :: edges.map Prod.snd, net' z = net z := by
  have hn := hx.nodeOk
  obtain ⟨b, htaken⟩ : ∃ b, TakenIn (net x).node b hash s := by
    cases htakes with
    | received hraw hcall => exact ⟨_, handleBlock_takenIn hn hraw hcall⟩
    | mined hnew hcall hrelay => exact mineLocalBlock_takenIn hn hnew hcall hrelay
  have hself : Function.update net x s x = s := Function.update_self _ _ _
  have hothers : ∀ z ≠ x, Function.update net x s z = net z := fun z hz => Function.update_of_ne hz _ _
  have hstart : Visited (net x).node s.node hash (Function.update net x s) [x] (Function.update net x s) := by
    refine ⟨List.forall_mem_singleton.mpr ⟨_, b, hn, ⟨rfl, .refl _⟩, hself.symm ▸ htaken⟩,
      List.forall_mem_singleton.mpr ?_, fun _ _ _ _ => rfl, fun _ _ => rfl⟩
    rw [hself]
    exact ⟨rfl, .refl _⟩
  obtain ⟨net', hcall, reached, h, hmem⟩ := hstart.relayAlong now hspreads (fun e he => by
    rw [hothers e.2 fun heq => hspreads.target e he (List.mem_singleton.mpr heq)]
    exact hlacks e he) hready
  have hreached : ∀ z, z ∈ reached ↔ z ∈ x :: edges.map Prod.snd := fun z => by
    rw [hmem, List.mem_singleton, List.mem_cons]
  refine ⟨net', hcall, fun y hy => ?_, fun z hz => ?_⟩
  · obtain ⟨m, c, hm, -, htaken'⟩ := h.taken y ((hreached y).mpr hy)
    obtain ⟨hok, hstored⟩ := htaken'.stored hm
    exact ⟨(h.inStep y ((hreached y).mpr hy)).sameView (htaken.stored hn).1 hok, hstored, Dict.contains_of_get? htaken'.cached⟩
  · rw [h.others z fun hmem => hz ((hreached z).mp hmem), hothers z fun he => hz (he ▸ List.mem_cons_self)]

end

/-! ## A block of Alice -/

omit [Ed25519]

/-- New services that have a session for each of four addresses. -/
def newServices (_ : Str) : NodeService :=
  { genesisService with sessions := [['a'], ['b'], ['c'], ['d']].foldl (fun sessions address =>
      sessions.set address { network := ['m', 'a', 'i', 'n'], nodeId := ['n', '1'], height := 0 }) ∅ }

/-- The first block after the genesis block, which is mined at the first address. -/
theorem block_spreads_newServices :
    let _ := aliceVerify
    let _ := decoding [] .null
    ∃ hash s net', TakesIn hash (newServices ['a']) s ∧
      (relayAlong 0 [blockAnnouncement hash] [(['a'], ['b']), (['a'], ['c']), (['b'], ['d'])]).call
        (Function.update newServices ['a'] s) =
          (.ok [[blockAnnouncement hash], [blockAnnouncement hash], [blockAnnouncement hash]], net') ∧
      ∀ y ∈ [['a'], ['b'], ['c'], ['d']], SameView s.node (net' y).node ∧ (net' y).node.disk.store.hasBlock hash = true ∧
        (net' y).blocks.contains hash = true := by
  intro _ _
  have hreached : NodeReached (newServices ['a']) := ⟨_, created_genesisNode⟩
  have hreturns : ((mineLocalBlock aliceAddress 0 1).call (newServices ['a'])).1.isOk = true := by decide +kernel
  obtain ⟨result, s, hcall⟩ := Method.exists_call_of_isOk hreturns
  obtain ⟨stored, hash, hmine, hhash, hrelay, -, hsessions⟩ := mineLocalBlock_returns hcall
  have hnew : (newServices ['a']).node.disk.store.hasBlock hash = false := by
    obtain ⟨-, -, b, -, hoffered, himport⟩ := mineBlock_returns hmine
    have hb : Call.offered genesisNode (Call.mineBlock aliceAddress 0 1) = some (aliceCandidate 50) := by decide +kernel
    have hfree : (aliceCandidate 50).hash.map genesisNode.disk.store.hasBlock = .ok false := by decide +kernel
    obtain ⟨_, _, _, hact⟩ := importBlock_returns hreached.nodeOk himport
    obtain rfl := Option.some.inj (hoffered.symm.trans hb)
    have hsame := (hact.stores.mem hreached.nodeOk.store hact.hash_eq).2
    rw [hhash, Except.ok.injEq] at hsame
    rw [hact.hash_eq, Except.map, Except.ok.injEq, ← hsame] at hfree
    exact hfree
  have hsession : ∀ y ∈ [['a'], ['b'], ['c'], ['d']], ∀ z, (Function.update newServices ['a'] s z).sessions.get? y =
      some { network := ['m', 'a', 'i', 'n'], nodeId := ['n', '1'], height := 0 } := by
    have hget : ∀ y ∈ [['a'], ['b'], ['c'], ['d']], (newServices ['a']).sessions.get? y =
      some { network := ['m', 'a', 'i', 'n'], nodeId := ['n', '1'], height := 0 } := by decide
    intro y hy z
    by_cases hz : z = ['a']
    · rw [hz, Function.update_self, hsessions]
      exact hget y hy
    · rw [Function.update_of_ne hz]
      exact hget y hy
  have hready : ∀ y ∈ [['a'], ['b'], ['c'], ['d']], ∀ z ∈ [['a'], ['b'], ['c'], ['d']],
      Ready (Function.update newServices ['a'] s) hash y z := fun y hy z hz =>
    ⟨⟨_, hsession y hy z, Finset.notMem_empty _, by decide⟩, ⟨_, hsession z hz y, by decide⟩⟩
  have htakes : TakesIn hash (newServices ['a']) s := .mined hnew hcall hrelay
  have hspreads : Spreads [['a']] [(['a'], ['b']), (['a'], ['c']), (['b'], ['d'])] :=
    .cons (by decide) (by decide) (.cons (by decide) (by decide) (.cons (by decide) (by decide) .nil))
  have hknown : ∀ e ∈ [(['a'], ['b']), (['a'], ['c']), (['b'], ['d'])],
      e.1 ∈ [['a'], ['b'], ['c'], ['d']] ∧ e.2 ∈ [['a'], ['b'], ['c'], ['d']] := by decide
  obtain ⟨net', hspread, hall, -⟩ := block_spreads hreached htakes hspreads
    (fun _ _ => ⟨hreached, ⟨rfl, .refl _⟩, rfl, rfl⟩) (fun e he => hready e.1 (hknown e he).1 e.2 (hknown e he).2) 0
  exact ⟨hash, s, net', htakes, hspread, hall⟩

end BCC.Proof
