import BlockchainCoin.Proof.Gossip

/-!
# Transactions that come again

`_handle_transaction` answers a transaction whose txid is in the cache of the
service with nothing, and the cache never forgets. The mempool does: it is
cleared, its entries are replaced and evicted, and blocks remove them. So a TX
message brings its transaction into the mempool, where `submit_transaction` would
take it, exactly when the service has not seen it before (`received_kept_iff`).
-/

namespace BCC.Proof

open BCC.Impl PyError NodeService

section

variable [Ed25519] [PyText] {a : Str} {s s' : NodeService} {message : PeerMessage} {now : Int}

/-! ## Accepted messages -/

/-- The session of the sender, an old or a new one, accepts the message without an answer, which leaves the service
as `s'`. -/
def HandedOn (s : NodeService) (a : Str) (message : PeerMessage) (now : Int) (s' : NodeService) : Prop :=
  ∃ s₁ session session', (sessionFor a now).call s = (.ok (), s₁) ∧ s₁.sessions.get? a = some session ∧
    (PeerSession.receive message).call session = (.ok [], session') ∧
    s' = { s₁ with sessions := s₁.sessions.set a session' }

theorem HandedOn.receive (h : HandedOn s a message now s') :
    (receive a message now).call s = (answered a [] now (dispatch a message [] now)).call s' := by
  obtain ⟨s₁, session, session', hfound, hsession, haccepts, rfl⟩ := h
  rw [receive_eq, hfound]
  dsimp only
  rw [receiveFrom, Method.call_bind, call_onSession hsession, haccepts]

omit [Ed25519] in
/-- Only the address book and the sessions have changed. -/
theorem HandedOn.same (h : HandedOn s a message now s') : s'.node = s.node ∧ s'.transactions = s.transactions := by
  obtain ⟨s₁, session, session', hfound, -, -, rfl⟩ := h
  have hcases := sessionFor_found a now s
  rw [hfound] at hcases
  cases hcases with
  | there => exact ⟨rfl, rfl⟩
  | opened => exact ⟨rfl, rfl⟩

/-! ## Transactions -/

variable {t : ConsensusTransaction} {txid : Str}

omit [Ed25519] in
/-- Every session accepts a transaction that has a txid. -/
theorem handedOn_transaction {session : PeerSession} (hsession : s.sessions.get? a = some session)
    (htype : message.messageType = .tx) (ht : transactionFromPayload message.payload = .ok t) (htxid : t.txid = .ok txid)
    (now : Int) : ∃ s', HandedOn s a message now s' := by
  have hvalid : message.validatePayload = .ok () := by
    rw [PeerMessage.validatePayload, htype]
    exact bind_eq_ok.mpr ⟨t, ht, rfl⟩
  have hhandle : (PeerSession.handle message).call session =
      (.ok [], { session with knownInventory := insert (kindTx, txid) session.knownInventory }) := by
    rw [PeerSession.handle, htype]
    simp only [PeerSession.handleTransaction, Method.call_bind, Method.call_reading, ht, ok_bind, htxid, Method.call_modify,
      Method.call_pure]
  have haccepts : (PeerSession.receive message).call session =
      (.ok [], { session with knownInventory := insert (kindTx, txid) session.knownInventory }) := by
    rw [PeerSession.receive, Method.call_tryCatch, Method.call_bind, Method.call_reading, hvalid]
    simp only [hhandle]
  exact ⟨_, s, session, _, sessionFor_there hsession, hsession, haccepts, rfl⟩

omit [PyText] in
/-- What is submitted is in the mempool then, and was not before. -/
theorem submitTransaction_mem {n n' : ConsensusNode} (h : DistinctTxids n.mempool)
    (hsubmit : (ConsensusNode.submitTransaction t).call n = (.ok txid, n')) :
    t ∉ n.mempool ∧ t ∈ n'.mempool ∧ t.txid = .ok txid := by
  have htxid := txid_of_submitTransaction hsubmit
  rcases submitTransaction_call h t with ⟨e, he⟩ | ⟨txid', remaining, fee, hadmitted, hok⟩
  · rw [hsubmit] at he
    cases he
  · rw [hsubmit, Prod.mk.injEq] at hok
    rw [hok.2]
    exact ⟨fun hmem => hadmitted.fresh (List.mem_map_of_mem hmem), List.mem_append_right _ (List.mem_singleton_self t), htxid⟩

/-- A TX message with a transaction that the service has seen changes nothing in the mempool. -/
theorem receive_seen (hhanded : HandedOn s a message now s') (htype : message.messageType = .tx)
    (ht : transactionFromPayload message.payload = .ok t) (htxid : t.txid = .ok txid)
    (hseen : s.transactions.contains txid = true) : ((receive a message now).call s).2.node = s.node := by
  obtain ⟨hnode, hsame⟩ := hhanded.same
  have hhandle : (handleTransaction t).call s' = (.ok [], s') := by
    rw [handleTransaction, Method.call_bind, Method.call_reading, htxid]
    dsimp only
    rw [Method.call_bind, Method.call_get]
    dsimp only
    rw [if_pos (hsame ▸ hseen)]
    rfl
  rw [hhanded.receive, answered, Method.call_tryCatch, dispatch, htype]
  simp only [Method.call_bind, Method.call_reading, ht, hhandle, Method.call_pure]
  exact hnode

/-- A TX message with a transaction that the service has not seen is submitted. -/
theorem receive_unseen (hhanded : HandedOn s a message now s') (htype : message.messageType = .tx)
    (ht : transactionFromPayload message.payload = .ok t) (htxid : t.txid = .ok txid)
    (hnew : s.transactions.contains txid = false) {n : ConsensusNode}
    (hsubmit : (ConsensusNode.submitTransaction t).call s.node = (.ok txid, n)) :
    ((receive a message now).call s).2.node = n := by
  obtain ⟨hnode, hsame⟩ := hhanded.same
  have hhandle : (handleTransaction t).call s' = (.ok [inventoryMessage .inv [⟨kindTx, txid⟩]],
      { s' with node := n, transactions := s'.transactions.set txid t }) := by
    rw [handleTransaction, Method.call_bind, Method.call_reading, htxid]
    dsimp only
    rw [Method.call_bind, Method.call_get]
    dsimp only
    rw [if_neg (by rw [hsame, hnew]; exact Bool.false_ne_true), Method.call_bind, onNode, Method.call_onPart, hnode, hsubmit]
    rfl
  rw [hhanded.receive, answered, Method.call_tryCatch, dispatch, htype]
  simp only [Method.call_bind, Method.call_reading, ht, hhandle, Method.call_pure]

/-- In every state of a service, a TX message that the session of its sender accepts, with a transaction that
`submit_transaction` would accept, brings it into the mempool if and only if the service has not seen its txid. -/
theorem received_kept_iff (hstart : Started s) (calls : List ServiceCall)
    (hhanded : HandedOn (serviceAfter s calls) a message now s') (htype : message.messageType = .tx)
    (ht : transactionFromPayload message.payload = .ok t)
    (hsubmit : ∃ n, (ConsensusNode.submitTransaction t).call (serviceAfter s calls).node = (.ok txid, n)) :
    t ∉ (serviceAfter s calls).node.mempool ∧ t.txid = .ok txid ∧
      (t ∈ ((receive a message now).call (serviceAfter s calls)).2.node.mempool ↔
        (serviceAfter s calls).transactions.contains txid = false) := by
  obtain ⟨n, hsubmit⟩ := hsubmit
  have hok := (serviceAfter_induct (P := fun _ => True) hstart trivial (fun _ _ _ => trivial) calls).1
  obtain ⟨hnew, hmem, htxid⟩ := submitTransaction_mem hok.node.nodeOk.mempool hsubmit
  refine ⟨hnew, htxid, fun hkept => ?_, fun hunseen => ?_⟩
  · rw [← Bool.not_eq_true]
    intro hseen
    rw [receive_seen hhanded htype ht htxid hseen] at hkept
    exact hnew hkept
  · rw [receive_unseen hhanded htype ht htxid hunseen hsubmit]
    exact hmem

end

/-! ## One payment before and after the mempool is cleared -/

theorem payment_txid : payment.txid = .ok paymentTxid := by
  have htxids := txids_sample
  simp only [List.map_cons, List.cons.injEq] at htxids
  exact htxids.2.2.1

theorem decode_paymentMessage : transactionFromPayload paymentMessage.payload = .ok payment := by
  decide +kernel

/-- Bob connects. -/
def bobConnects : List ServiceCall := [.connectPeer ['b', 'o', 'b'] 0 false]

theorem received_kept_iff_payment :
    let _ := aliceVerify
    let _ := decoding [] .null
    payment ∉ (serviceAfter genesisService bobConnects).node.mempool ∧ payment.txid = .ok paymentTxid ∧
      (payment ∈ ((receive ['b', 'o', 'b'] paymentMessage 0).call (serviceAfter genesisService bobConnects)).2.node.mempool ↔
        (serviceAfter genesisService bobConnects).transactions.contains paymentTxid = false) := by
  intro _ _
  have hstart : Started genesisService := started_genesisService
  have hsession : (serviceAfter genesisService bobConnects).sessions.get? ['b', 'o', 'b'] =
      some { network := ['m', 'a', 'i', 'n'], nodeId := ['n', '1'], height := 0, versionSent := true } := by
    decide +kernel
  obtain ⟨s', hhanded⟩ := handedOn_transaction hsession rfl decode_paymentMessage payment_txid 0
  have hsubmit : ∃ n, (ConsensusNode.submitTransaction payment).call (serviceAfter genesisService bobConnects).node =
      (.ok paymentTxid, n) := by
    obtain ⟨txid, n, hn⟩ := Method.exists_call_of_isOk (x := ConsensusNode.submitTransaction payment)
      (s := (serviceAfter genesisService bobConnects).node) (by decide +kernel)
    have htxid := txid_of_submitTransaction hn
    rw [payment_txid, Except.ok.injEq] at htxid
    exact ⟨n, htxid ▸ hn⟩
  exact received_kept_iff hstart bobConnects hhanded rfl decode_paymentMessage hsubmit

/-- The payment is submitted, and the mempool is cleared. -/
def paymentCleared : List ServiceCall := bobConnects ++ [.submitLocalTransaction payment, .node .clearMempool]

/-- Bob's message with the payment is accepted, the node would accept the payment, and it stays out of the mempool. -/
theorem payment_dropped :
    let _ := aliceVerify
    let _ := decoding [] .null
    let s := serviceAfter genesisService paymentCleared
    Started genesisService ∧ (∃ s', HandedOn s ['b', 'o', 'b'] paymentMessage 0 s') ∧ paymentMessage.messageType = .tx ∧
      transactionFromPayload paymentMessage.payload = .ok payment ∧
      (∃ txid n, (ConsensusNode.submitTransaction payment).call s.node = (.ok txid, n)) ∧ payment ∉ s.node.mempool ∧
      payment ∉ ((receive ['b', 'o', 'b'] paymentMessage 0).call s).2.node.mempool := by
  intro _ _ s
  have hsession : s.sessions.get? ['b', 'o', 'b'] =
      some { network := ['m', 'a', 'i', 'n'], nodeId := ['n', '1'], height := 0, versionSent := true } := by
    decide +kernel
  obtain ⟨s', hhanded⟩ := handedOn_transaction hsession rfl decode_paymentMessage payment_txid 0
  have hmempool : payment ∉ s.node.mempool := by
    rw [show s.node.mempool = [] from rfl]
    exact List.not_mem_nil
  refine ⟨started_genesisService, ⟨s', hhanded⟩, rfl, decode_paymentMessage, Method.exists_call_of_isOk (by decide +kernel), hmempool, ?_⟩
  rw [receive_seen hhanded rfl decode_paymentMessage payment_txid (by decide +kernel)]
  exact hmempool

end BCC.Proof
