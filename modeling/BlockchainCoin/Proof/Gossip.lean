import BlockchainCoin.Proof.Headers
import BlockchainCoin.Proof.Serving

/-!
# Gossip

What a handler relays it has not kept before and keeps now (`FreshRelay`), and what is kept
is never dropped (`Cached.turn`). So no vector is relayed twice, by whatever way its
item comes again, and what was relayed can be asked for ever after
(`relayed_once_and_served`).
-/

namespace BCC.Proof

open BCC.Impl PyError NodeService

section

variable {a : Str} {s s' : NodeService} {v : InventoryVector}

/-! ## What is kept -/

/-- The service keeps the transaction or the block that the vector names. -/
def Cached (s : NodeService) (v : InventoryVector) : Prop :=
  v.kind = kindTx ∧ s.transactions.contains v.hash = true ∨ v.kind = kindBlock ∧ s.blocks.contains v.hash = true

/-- The transactions are kept under their txids. -/
def TransactionsOk (s : NodeService) : Prop := ∀ txid t, s.transactions.get? txid = some t → t.txid = .ok txid

theorem cleared_transactions (address : Str) (s : NodeService) : (cleared address s).transactions = s.transactions := by
  unfold cleared
  split <;> rfl

variable [Ed25519]

theorem Cached.work (h : Cached s v) (hs : Work a s s') : Cached s' v := by
  cases hs with
  | node | request | resolve | session => exact h
  | cacheTransaction => exact h.imp (And.imp_right (contains_set _ _ _ _)) id
  | cacheBlock => exact h.imp id (And.imp_right (contains_set _ _ _ _))
  | load address =>
    unfold withProgress
    split <;> exact h

theorem Cached.turn (h : Cached s v) (hs : Turn a s s') : Cached s' v := by
  cases hs with
  | work hs => exact h.work hs
  | mark | «open» | score => exact h
  | drop =>
    unfold Cached
    rw [cleared_transactions, cleared_blocks]
    exact h

theorem Cached.turns (h : Cached s v) (hs : Relation.ReflTransGen (Turn a) s s') : Cached s' v := by
  induction hs with
  | refl => exact h
  | tail _ hstep ih => exact ih.turn hstep

theorem TransactionsOk.turn (h : TransactionsOk s) (hs : Turn a s s') : TransactionsOk s' := by
  cases hs with
  | work hs =>
    cases hs with
    | node | cacheBlock | request | resolve | session => exact h
    | cacheTransaction htxid =>
      intro txid' t ht
      rw [Dict.get?_set] at ht
      split at ht
      · rename_i he
        cases ht
        exact he ▸ htxid
      · exact h txid' t ht
    | load address =>
      unfold withProgress
      split <;> exact h
  | mark | «open» | score => exact h
  | drop =>
    unfold TransactionsOk
    rw [cleared_transactions]
    exact h

/-! ## What is relayed -/

/-- What is relayed on the way from one state to another: nothing, or one vector whose item was not kept and now
is. -/
def FreshRelay (s s' : NodeService) (relay : List PeerMessage) : Prop :=
  relay = [] ∨ ∃ v, relay = [inventoryMessage .inv [v]] ∧ isHashText v.hash = true ∧ ¬ Cached s v ∧ Cached s' v

/-- What comes before is a sequence of turns, and so has not dropped what was kept. -/
theorem FreshRelay.after {s₁ : NodeService} {relay : List PeerMessage} (h : FreshRelay s₁ s' relay)
    (hs : Relation.ReflTransGen (Turn a) s s₁) : FreshRelay s s' relay := by
  rcases h with rfl | ⟨v, rfl, hhash, hnew, hcached⟩
  · exact .inl rfl
  · exact .inr ⟨v, rfl, hhash, fun hold => hnew (hold.turns hs), hcached⟩

omit [Ed25519] in
theorem isHashText_txid {t : ConsensusTransaction} {txid : Str} (h : t.txid = .ok txid) : isHashText txid = true := by
  obtain ⟨bs, -, rfl⟩ := txid_eq_ok.mp h
  exact Bool.of_not_eq_false (isHashText_of_isHash (isHash_hexEncode (Sha256.length_digest bs)))

omit [Ed25519] in
theorem not_cached_tx {txid : Str} (h : ¬ s.transactions.contains txid = true) : ¬ Cached s ⟨kindTx, txid⟩ := by
  rintro (⟨-, hthere⟩ | ⟨hkind, -⟩)
  · exact h hthere
  · exact absurd hkind (show ¬ kindTx = kindBlock by decide)

omit [Ed25519] in
theorem not_cached_block {hash : Str} (h : ¬ s.blocks.contains hash = true) : ¬ Cached s ⟨kindBlock, hash⟩ := by
  rintro (⟨hkind, -⟩ | ⟨-, hthere⟩)
  · exact absurd hkind (show ¬ kindBlock = kindTx by decide)
  · exact h hthere

theorem handleTransaction_relays (t : ConsensusTransaction) (s : NodeService) :
    Method.Ends (handleTransaction t) s (fun relay s' => FreshRelay s s' relay) fun _ _ => True := by
  refine .bind (.reading (fun txid htxid => .bind (.get ?_)) fun _ _ => trivial)
  split
  · exact .pure (.inl rfl)
  · rename_i hnew
    refine .bind ((Method.Ends.of_snd (P := fun _ => True) trivial).mono (fun _ s₁ _ => .bind (.modify (.pure ?_)))
      fun _ _ h => h)
    refine .inr ⟨⟨kindTx, txid⟩, rfl, isHashText_txid htxid, not_cached_tx hnew, .inl ⟨rfl, ?_⟩⟩
    exact Dict.contains_of_get? (Dict.get?_set_self _ _ _)

theorem handleBlock_relays (b : ConsensusBlock) (s : NodeService) :
    Method.Ends (handleBlock b) s (fun relay s' => FreshRelay s s' relay) fun _ _ => True := by
  refine .bind (.reading (fun hash hhash => .bind (.get ?_)) fun _ _ => trivial)
  split
  · exact .pure (.inl rfl)
  · rename_i hnew
    refine .bind ((Method.Ends.of_snd (P := fun _ => True) trivial).mono (fun _ s₁ _ => .bind (.modify ?_)) fun _ _ h => h)
    -- The steps after the block is cached keep it.
    have hcached : Cached { s₁ with blocks := s₁.blocks.set hash b } ⟨kindBlock, hash⟩ :=
      .inr ⟨rfl, Dict.contains_of_get? (Dict.get?_set_self _ _ _)⟩
    have hrest : Method.EndsBy (Work []) { s₁ with blocks := s₁.blocks.set hash b } (recordReceived b hash)
        { s₁ with blocks := s₁.blocks.set hash b } fun relay _ => relay = [inventoryMessage .inv [⟨kindBlock, hash⟩]] :=
      recordReceived_endsBy b hash .refl
    refine Method.Ends.mono hrest (fun relay s₂ h => ?_) fun _ _ _ => trivial
    exact .inr ⟨_, h.2, Bool.of_not_eq_false (isHashText_of_isHash (isHash_hash hhash)), not_cached_block hnew,
      hcached.turns (turn_of_work h.1)⟩

omit [Ed25519] in
theorem relay_routeRequests (address : Str) : ∀ (targeted : List (Str × List PeerMessage)) {result : ServiceResult},
    (routeRequests address result targeted).relay = result.relay
  | [], _ => rfl
  | (peer, messages) :: targeted, result => by
    unfold routeRequests
    split
    · exact relay_routeRequests address targeted
    · exact relay_routeRequests address targeted

variable [PyText]

theorem dispatch_relays (address : Str) (message : PeerMessage) (direct : List PeerMessage) (now : Int) (s : NodeService) :
    Method.Ends (dispatch address message direct now) s (fun result s' => FreshRelay s s' result.relay) fun _ _ => True := by
  unfold dispatch
  split
  · refine .bind (.reading (fun t _ => ?_) fun _ _ => trivial)
    exact .bind ((handleTransaction_relays t s).mono (fun _ _ h => .pure h) fun _ _ h => h)
  · refine .bind (.reading (fun b _ => ?_) fun _ _ => trivial)
    exact .bind ((handleBlock_relays b s).mono (fun _ _ h => .pure h) fun _ _ h => h)
  · exact .bind (.reading (fun _ _ => .pure (.inl rfl)) fun _ _ => trivial)
  · exact .bind (.reading (fun _ _ => .pure (.inl rfl)) fun _ _ => trivial)
  · refine .bind ((Method.Ends.of_snd (P := fun _ => True) trivial).mono (fun targeted _ _ => .pure (.inl ?_))
      fun _ _ h => h)
    exact relay_routeRequests address targeted
  · exact .pure (.inl rfl)

omit [PyText] [Ed25519] in
/-- A penalty relays nothing. -/
theorem penalizePeer_relays (address : Str) (score now : Int) {result : Bool → ServiceResult}
    (hresult : ∀ disconnect, (result disconnect).relay = []) (s s₁ : NodeService) :
    Method.Ends (do let disconnect ← penalizePeer address score now
                    return result disconnect : Method NodeService PyError ServiceResult) s₁
      (fun result s' => FreshRelay s s' result.relay) fun _ _ => True :=
  .bind ((Method.Ends.of_snd (P := fun _ => True) trivial).mono (fun disconnect _ _ => .pure (.inl (hresult disconnect)))
    fun _ _ h => h)

omit [PyText] [Ed25519] in
theorem answered_relays {x : Method NodeService PyError ServiceResult} (address : Str) (direct : List PeerMessage)
    (now : Int) (h : Method.Ends x s (fun result s' => FreshRelay s s' result.relay) fun _ _ => True) :
    Method.Ends (answered address direct now x) s (fun result s' => FreshRelay s s' result.relay) fun _ _ => True := by
  refine .tryCatch (h.mono (fun _ _ h => h) fun e s₁ _ => ?_)
  split
  · exact .pure (.inl rfl)
  · exact penalizePeer_relays address 10 now (fun _ => rfl) s s₁
  · exact penalizePeer_relays address 10 now (fun _ => rfl) s s₁
  · exact penalizePeer_relays address 10 now (fun _ => rfl) s s₁
  · exact .throw trivial

theorem receiveFrom_relays {session : PeerSession} (hsession : s.sessions.get? a = some session) (message : PeerMessage)
    (now : Int) : Method.Ends (receiveFrom a message now) s (fun result s' => FreshRelay s s' result.relay) fun _ _ => True := by
  have hstep : Relation.ReflTransGen (Turn a) s
      { s with sessions := s.sessions.set a ((PeerSession.receive message).call session).2 } :=
    .single (.work (.session hsession))
  refine .bind ?_
  rw [Method.Ends, call_onSession hsession]
  generalize (PeerSession.receive message).call session = r at hstep
  obtain ⟨e | direct, session'⟩ := r
  · trivial
  · dsimp only
    split
    · exact penalizePeer_relays a 10 now (fun _ => rfl) s _
    · exact (answered_relays a _ now (dispatch_relays a message _ now _)).mono (fun _ _ h => h.after hstep) fun _ _ h => h

theorem receive_relays {message : PeerMessage} {now : Int} {result : ServiceResult}
    (h : (receive a message now).call s = (.ok result, s')) : FreshRelay s s' result.relay := by
  have hfound := sessionFor_found a now s
  rw [receive_eq] at h
  rcases hx : (sessionFor a now).call s with ⟨e | ⟨⟩, s₁⟩
  · rw [hx] at h
    split at h
    · rename_i heq
      cases heq
    · cases h
      exact .inl rfl
    · cases h
  · rw [hx] at h hfound
    obtain ⟨session, hsession⟩ := hfound.session
    exact ((receiveFrom_relays hsession message now).of_return h).after hfound.turn

/-! ## Runs -/

/-- What a call relays, if it is a `receive` that returns. -/
def ServiceCall.relays (s : NodeService) : ServiceCall → List PeerMessage
  | receive address message now =>
    match ((NodeService.receive address message now).call s).1 with
    | .ok result => result.relay
    | .error _ => []
  | _ => []

/-- What the calls of `receive` in a run relay, in order. -/
def relayed (s : NodeService) : List ServiceCall → List PeerMessage
  | [] => []
  | call :: calls => call.relays s ++ relayed (call.apply s) calls

theorem ServiceCall.relays_relays (call : ServiceCall) (s : NodeService) : FreshRelay s (call.apply s) (call.relays s) := by
  cases call with
  | receive address message now =>
    rcases hx : (NodeService.receive address message now).call s with ⟨e | result, s'⟩
    · simp only [ServiceCall.relays, hx]
      exact .inl rfl
    · simp only [ServiceCall.relays, ServiceCall.apply, hx]
      exact receive_relays hx
  | _ => exact .inl rfl

/-- An INV names the vectors of its list and no others. -/
def Announces (message : PeerMessage) (v : InventoryVector) : Prop :=
  ∃ items, message = inventoryMessage .inv items ∧ v ∈ items

omit [Ed25519] [PyText] in
theorem toDict_injective : Function.Injective InventoryVector.toDict := by
  rintro ⟨kind, hash⟩ ⟨kind', hash'⟩ h
  simp only [InventoryVector.toDict, Json.obj.injEq, List.cons.injEq, Prod.mk.injEq, Json.str.injEq, true_and, and_true] at h
  rw [h.1, h.2]

omit [Ed25519] [PyText] in
theorem announces_inventoryMessage {items : List InventoryVector} :
    Announces (inventoryMessage .inv items) v ↔ v ∈ items := by
  refine ⟨fun ⟨items', h, hv⟩ => ?_, fun hv => ⟨items, rfl, hv⟩⟩
  simp only [inventoryMessage, PeerMessage.mk.injEq, Json.obj.injEq, List.cons.injEq, Prod.mk.injEq, Json.arr.injEq,
    true_and, and_true] at h
  rwa [List.map_injective_iff.mpr toDict_injective h]

theorem Cached.apply (hok : ServiceOk s) (h : Cached s v) (call : ServiceCall) : Cached (call.apply s) v :=
  (hok.apply (P := fun s => Cached s v) h (fun _ h hturn => h.turn hturn) call).2

theorem ServiceOk.next (h : ServiceOk s) (call : ServiceCall) : ServiceOk (call.apply s) :=
  (h.apply (P := fun _ => True) trivial (fun _ _ _ => trivial) call).1

theorem Cached.run (hok : ServiceOk s) (h : Cached s v) (calls : List ServiceCall) : Cached (serviceAfter s calls) v := by
  induction calls generalizing s with
  | nil => exact h
  | cons call calls ih => exact ih (hok.next call) (h.apply hok call)

/-- Everything relayed in a run names one vector, whose item was not kept before the run and is kept after it. -/
theorem relayed_fresh (hok : ServiceOk s) (calls : List ServiceCall) : ∀ message ∈ relayed s calls,
    ∃ v, message = inventoryMessage .inv [v] ∧ isHashText v.hash = true ∧ ¬ Cached s v ∧
      Cached (serviceAfter s calls) v := by
  induction calls generalizing s with
  | nil => exact fun _ h => absurd h List.not_mem_nil
  | cons call calls ih =>
    intro message hmessage
    rcases List.mem_append.mp hmessage with hmessage | hmessage
    · rcases call.relays_relays s with hnil | ⟨v, hv, hhash, hnew, hcached⟩
      · rw [hnil] at hmessage
        cases hmessage
      · rw [hv, List.mem_singleton] at hmessage
        exact ⟨v, hmessage, hhash, hnew, hcached.run (hok.next call) calls⟩
    · obtain ⟨v, hv, hhash, hnew, hcached⟩ := ih (hok.next call) message hmessage
      exact ⟨v, hv, hhash, fun hold => hnew (hold.apply hok call), hcached⟩

theorem relayed_once (hok : ServiceOk s) (calls : List ServiceCall) :
    (relayed s calls).Pairwise fun message message' => ∀ v, ¬ (Announces message v ∧ Announces message' v) := by
  induction calls generalizing s with
  | nil => exact .nil
  | cons call calls ih =>
    refine List.pairwise_append.mpr ⟨?_, ih (hok.next call), fun message hmessage message' hmessage' v hnames => ?_⟩
    · rcases call.relays_relays s with hnil | ⟨v, hv, -⟩
      · rw [hnil]
        exact .nil
      · rw [hv]
        exact List.pairwise_singleton _ _
    · obtain ⟨v', rfl, -, hnew, -⟩ := relayed_fresh (hok.next call) calls message' hmessage'
      obtain rfl := List.mem_singleton.mp (announces_inventoryMessage.mp hnames.2)
      rcases call.relays_relays s with hnil | ⟨v', hv', -, -, hcached⟩
      · rw [hnil] at hmessage
        cases hmessage
      · rw [hv', List.mem_singleton] at hmessage
        rw [hmessage, announces_inventoryMessage, List.mem_singleton] at hnames
        exact hnew (hnames.1 ▸ hcached)

/-! ## What is served -/

/-- A TX or a BLOCK message with the item of the vector. -/
def Delivers (response : PeerMessage) (v : InventoryVector) : Prop :=
  (v.kind = kindTx ∧ response.messageType = .tx ∧
    ∃ t, transactionFromPayload response.payload = .ok t ∧ t.txid = .ok v.hash) ∨
  (v.kind = kindBlock ∧ response.messageType = .block ∧
    ∃ b, blockFromPayload response.payload = .ok b ∧ b.hash = .ok v.hash)

omit [Ed25519] [PyText] in
/-- A transaction that has a txid is decoded from the message that carries it, with the same txid. -/
theorem transactionFromPayload_transactionMessage {t : ConsensusTransaction} {raw : Bytes} (h : t.toBytes = .ok raw) :
    ∃ response, transactionMessage t = .ok response ∧ response.messageType = .tx ∧
      transactionFromPayload response.payload = .ok (storedTransaction t) := by
  refine ⟨_, bind_eq_ok.mpr ⟨raw, h, rfl⟩, rfl, ?_⟩
  show catchAs (bytesFromhex (hexEncode raw) >>= ConsensusTransaction.fromBytes) isPayloadError _ = _
  rw [bytesFromhex, hexDecode_hexEncode]
  show catchAs (ConsensusTransaction.fromBytes raw) isPayloadError _ = _
  rw [fromBytes_toBytes_transaction h, catchAs_ok]

omit [Ed25519] in
theorem handleGetdata_of_cached (htransactions : TransactionsOk s) (hblocks : CacheOk s) (hhash : isHashText v.hash = true)
    (h : Cached s v) : ∃ response, s.handleGetdata (inventoryMessage .getdata [v]).payload = .ok [response] ∧
      Delivers response v := by
  have hitems : ((inventoryMessage .getdata [v]).payload.item "items" >>= Json.iter) = .ok [v.toDict] := rfl
  have hitem : InventoryVector.fromDict v.toDict = .ok v := fromDict_toDict (h.imp And.left And.left) hhash
  rw [NodeService.handleGetdata, hitems]
  simp only [ok_bind, serveItems, hitem]
  rcases h with ⟨hkind, hthere⟩ | ⟨hkind, hthere⟩
  · obtain ⟨t, ht⟩ := Option.isSome_iff_exists.mp hthere
    have htxid := htransactions _ t ht
    obtain ⟨raw, hraw, -⟩ := txid_eq_ok.mp htxid
    obtain ⟨response, hresponse, htype, hdecoded⟩ := transactionFromPayload_transactionMessage hraw
    refine ⟨response, ?_, .inl ⟨hkind, htype, _, hdecoded, (txid_storedTransaction t).trans htxid⟩⟩
    rw [if_pos hkind, ht]
    simp only [hresponse, ok_bind]
    rfl
  · obtain ⟨b, hb⟩ := Option.isSome_iff_exists.mp hthere
    obtain ⟨hblock, raw, hraw⟩ := hblocks _ b hb
    obtain ⟨response, hresponse, htype, hdecoded⟩ := blockFromPayload_blockMessage hraw
    refine ⟨response, ?_, .inr ⟨hkind, htype, _, hdecoded, (hash_storedBlock b).trans hblock⟩⟩
    rw [if_neg (by rw [hkind]; decide), if_pos hkind, hb]
    simp only [hresponse, ok_bind]
    rfl

/-- Over any calls, no vector is in two of the INV messages that `receive` relays, each of which names one vector.
After any further calls, a request for this vector alone is answered with its transaction or its block. -/
theorem relayed_once_and_served (hstart : Started s) (calls later : List ServiceCall) :
    ((relayed s calls).Pairwise fun message message' => ∀ v, ¬ (Announces message v ∧ Announces message' v)) ∧
    ∀ message ∈ relayed s calls, ∃ v, message = inventoryMessage .inv [v] ∧
      ∃ response, (serviceAfter s (calls ++ later)).handleGetdata (inventoryMessage .getdata [v]).payload = .ok [response] ∧
        Delivers response v := by
  refine ⟨relayed_once hstart.serviceOk calls, fun message hmessage => ?_⟩
  obtain ⟨v, hv, hhash, -, hcached⟩ := relayed_fresh hstart.serviceOk calls message hmessage
  refine ⟨v, hv, ?_⟩
  have hblocks := serviceAfter_induct (P := CacheOk) hstart (fun _ _ hb => by rw [hstart.blocks] at hb; cases hb)
    (fun _ h hturn => h.turn hturn) (calls ++ later)
  have htransactions := serviceAfter_induct (P := TransactionsOk) hstart
    (fun _ _ ht => by rw [hstart.transactions] at ht; cases ht) (fun _ h hturn => h.turn hturn) (calls ++ later)
  have hok := serviceAfter_induct (P := fun _ => True) hstart trivial (fun _ _ _ => trivial) calls
  rw [serviceAfter, List.foldl_append] at hblocks htransactions ⊢
  exact handleGetdata_of_cached htransactions.2 hblocks.2 hhash (hcached.run hok.1 later)

end

/-! ## One payment from two peers -/

def paymentMessage : PeerMessage :=
  match transactionMessage payment with
  | .ok message => message
  | .error _ => rejectMessage "no message"

def paymentTwice : List ServiceCall :=
  [.receive ['b', 'o', 'b'] paymentMessage 0, .receive ['e', 'v', 'e'] paymentMessage 0]

theorem relayed_once_paymentTwice :
    let _ := aliceVerify
    let _ := decoding [] .null
    (relayed genesisService paymentTwice).length = 1 ∧
    ((relayed genesisService paymentTwice).Pairwise fun message message' =>
      ∀ v, ¬ (Announces message v ∧ Announces message' v)) ∧
    ∀ message ∈ relayed genesisService paymentTwice, ∃ v, message = inventoryMessage .inv [v] ∧
      ∃ response, (serviceAfter genesisService (paymentTwice ++ [])).handleGetdata (inventoryMessage .getdata [v]).payload =
        .ok [response] ∧ Delivers response v := by
  intro _ _
  have hstart : Started genesisService := started_genesisService
  exact ⟨by decide +kernel, relayed_once_and_served hstart paymentTwice []⟩

end BCC.Proof
