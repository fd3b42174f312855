import BlockchainCoin.Impl.Peer

/-!
# The handshake of two sessions

Two sessions and the messages on their way between them, which may arrive in any
order. A session's four flags and the messages in flight determine each other up to
what is still to be delivered (`Follows`): a version is in flight or received once
its sender has started, a verack is in flight or received once its sender has
answered, and nothing is received that was not sent. `receive_version` and
`receive_verack` are what a delivery does; every step keeps `Agrees`.
-/

namespace BCC.Proof

open BCC.Impl PyError

/-- The version message that a session starts the handshake with. -/
def ownVersion (s : PeerSession) : PeerMessage := versionMessage s.network s.height s.nodeId

def verackMessage : PeerMessage := ⟨.verack, .obj [], protocolVersion⟩

theorem ownVersion_ne_verackMessage (s : PeerSession) : ownVersion s ≠ verackMessage :=
  fun h => by cases congrArg PeerMessage.messageType h

theorem call_startHandshake (s : PeerSession) :
    PeerSession.startHandshake.call s = (.ok (ownVersion s), { s with versionSent := true }) := rfl

/-! ## What a delivery does -/

section

variable [PyText]

omit [PyText] in
/-- The fields of a version message, as a session reads them. -/
theorem item_versionMessage (network : Str) (height : Int) (nodeId : Str) :
    (versionMessage network height nodeId).payload.item "network" = .ok (.str network) ∧
      (versionMessage network height nodeId).payload.item "node_id" = .ok (.str nodeId) ∧
      (versionMessage network height nodeId).payload.item "height" = .ok (.int height) := ⟨rfl, rfl, rfl⟩

theorem validatePayload_ownVersion {o : PeerSession} (hn : o.network ≠ []) (hi : o.nodeId ≠ []) (hh : -1 ≤ o.height) :
    (ownVersion o).validatePayload = .ok () := by
  have hheight : (Json.int o.height).isIntFrom (-1) = true := decide_eq_true hh
  have hnetwork : (Json.str o.network).isNonEmptyText = true := decide_eq_true hn
  have hid : (Json.str o.nodeId).isNonEmptyText = true := decide_eq_true hi
  show (do
    raiseIf ((Json.str o.network).isNonEmptyText = false) (networkError "version network is invalid")
    raiseIf ((Json.int o.height).isIntFrom (-1) = false) (networkError "version height is invalid")
    raiseIf ((Json.str o.nodeId).isNonEmptyText = false) (networkError "version node id is invalid")) = _
  rw [hheight, hnetwork, hid]
  rfl

/-- A session answers the version of a session of its network with its own, unless it has started, and with
a verack, unless it has sent one. -/
theorem receive_ownVersion {s o : PeerSession} (hn : o.network ≠ []) (hi : o.nodeId ≠ []) (hh : -1 ≤ o.height)
    (hnet : o.network = s.network) (hne : o.nodeId ≠ s.nodeId) :
    (PeerSession.receive (ownVersion o)).call s =
      (.ok ((if s.versionSent then [] else [ownVersion s]) ++ if s.verackSent then [] else [verackMessage]),
        { s with
          remoteNodeId := some o.nodeId, remoteHeight := o.height, versionSent := true, versionReceived := true
          verackSent := true }) := by
  obtain ⟨hnetwork, hid, hheight⟩ := item_versionMessage o.network o.height o.nodeId
  have hhandle : (PeerSession.handleVersion (ownVersion o)).call s =
      (.ok ((if s.versionSent then [] else [ownVersion s]) ++ if s.verackSent then [] else [verackMessage]),
        { s with
          remoteNodeId := some o.nodeId, remoteHeight := o.height, versionSent := true, versionReceived := true
          verackSent := true }) := by
    obtain ⟨network, nodeId, height, remoteNodeId, remoteHeight, versionSent, versionReceived, verackSent⟩ := s
    simp only [PeerSession.handleVersion, ownVersion, Method.call_bind, Method.call_reading, hnetwork, hid, hheight]
    simp only [Method.call_get, Json.text, hnet, ne_eq, not_true_eq_false, if_false, Method.call_bind,
      Method.call_modify, hne, Method.call_reading, ok_bind, Json.toInt]
    cases versionSent <;> cases verackSent <;> rfl
  simp only [PeerSession.receive, Method.call_tryCatch, Method.call_bind, Method.call_reading,
    validatePayload_ownVersion hn hi hh]
  exact (by rw [show PeerSession.handle (ownVersion o) = PeerSession.handleVersion (ownVersion o) from rfl, hhandle])

theorem receive_verackMessage {s : PeerSession} (h : s.versionSent = true) :
    (PeerSession.receive verackMessage).call s = (.ok [], { s with verackReceived := true }) := by
  have hhandle : (PeerSession.handleVerack).call s = (.ok [], { s with verackReceived := true }) := by
    simp only [PeerSession.handleVerack, Method.call_bind, Method.call_get, h, Bool.true_eq_false, if_false,
      Method.call_modify, Method.call_pure]
  have hpayload : verackMessage.validatePayload = .ok () := rfl
  simp only [PeerSession.receive, Method.call_tryCatch, Method.call_bind, Method.call_reading, hpayload]
  rw [show PeerSession.handle verackMessage = PeerSession.handleVerack from rfl, hhandle]

/-! ## Two sessions and what is in flight -/

/-- Two sessions, and the messages on their way to each of them. -/
structure Link where
  near : PeerSession
  far : PeerSession
  toNear : Multiset PeerMessage
  toFar : Multiset PeerMessage

/-- The link as its other side sees it. -/
def Link.swap (l : Link) : Link := ⟨l.far, l.near, l.toFar, l.toNear⟩

/-- The messages that a call sends; one that raises sends none. -/
def sent (result : Except PyError (List PeerMessage)) : Multiset PeerMessage :=
  match result with
  | .ok responses => responses
  | .error _ => 0

/-- What happens at the near side: it starts the handshake, or a message in flight arrives and what it
answers is put in flight. -/
inductive Moves : Link → Link → Prop
  | start {l : Link} {m : PeerMessage} {s : PeerSession} (h : PeerSession.startHandshake.call l.near = (.ok m, s)) :
    Moves l { l with near := s, toFar := m ::ₘ l.toFar }
  | deliver {l : Link} {m : PeerMessage} {rest : Multiset PeerMessage}
    {result : Except PyError (List PeerMessage)} {s : PeerSession} (hm : l.toNear = m ::ₘ rest)
    (h : (PeerSession.receive m).call l.near = (result, s)) :
    Moves l ⟨s, l.far, rest, sent result + l.toFar⟩

/-- A step of the link, at either side. -/
def Exchange (l l' : Link) : Prop := Moves l l' ∨ Moves l.swap l'.swap

/-- What `s` has done, what `o` has seen of it, and the messages from `s` to `o` that are in flight. -/
structure Follows (s o : PeerSession) (out : Multiset PeerMessage) : Prop where
  network : s.network = o.network
  network_ne : s.network ≠ []
  nodeId_ne : s.nodeId ≠ []
  ids : s.nodeId ≠ o.nodeId
  height : -1 ≤ s.height
  score : s.misbehaviorScore = 0
  /-- Only versions and veracks are in flight, -/
  only : ∀ m ∈ out, m = ownVersion s ∨ m = verackMessage
  /-- and only after they were sent. -/
  version_sent : ownVersion s ∈ out → s.versionSent = true
  verack_sent : verackMessage ∈ out → s.verackSent = true
  received : o.versionReceived = true → s.versionSent = true ∧ o.remoteNodeId = some s.nodeId
  acknowledged : o.verackReceived = true → s.verackSent = true
  /-- A session answers a version at once. -/
  answered : s.versionReceived = true ↔ s.verackSent = true
  answered_sent : s.verackSent = true → s.versionSent = true
  /-- What was sent is in flight or has arrived. -/
  version_arrives : s.versionSent = true → o.versionReceived = true ∨ ownVersion s ∈ out
  verack_arrives : s.verackSent = true → o.verackReceived = true ∨ verackMessage ∈ out

/-- Each side follows the other. -/
structure Agrees (l : Link) : Prop where
  near : Follows l.near l.far l.toFar
  far : Follows l.far l.near l.toNear

omit [PyText] in
theorem Agrees.swap {l : Link} (h : Agrees l) : Agrees l.swap := ⟨h.far, h.near⟩

omit [PyText] in
theorem Agrees.start {l : Link} (h : Agrees l) :
    Agrees { l with near := { l.near with versionSent := true }, toFar := ownVersion l.near ::ₘ l.toFar } where
  near := { h.near with
    only := fun m hm => (Multiset.mem_cons.mp hm).elim .inl (h.near.only m)
    version_sent := fun _ => rfl
    verack_sent := fun hm =>
      h.near.verack_sent ((Multiset.mem_cons.mp hm).resolve_left (ownVersion_ne_verackMessage _).symm)
    received := fun hr => ⟨rfl, (h.near.received hr).2⟩
    answered_sent := fun _ => rfl
    version_arrives := fun _ => .inr (Multiset.mem_cons_self _ _)
    verack_arrives := fun hs => (h.near.verack_arrives hs).imp_right (Multiset.mem_cons_of_mem ·) }
  far := { h.far with }

omit [PyText] in
/-- A verack that is in flight goes to a session that has sent its version. -/
theorem Agrees.versionSent_of_verack {l : Link} (h : Agrees l) (hm : verackMessage ∈ l.toNear) :
    l.near.versionSent = true :=
  (h.near.received (h.far.answered.mpr (h.far.verack_sent hm))).1

omit [PyText] in
theorem Agrees.verack {l : Link} (h : Agrees l) {rest : Multiset PeerMessage} (hm : l.toNear = verackMessage ::ₘ rest) :
    Agrees { l with near := { l.near with verackReceived := true }, toNear := rest } where
  near := { h.near with }
  far := { h.far with
    only := fun m hr => h.far.only m (hm ▸ Multiset.mem_cons_of_mem hr)
    version_sent := fun hr => h.far.version_sent (hm ▸ Multiset.mem_cons_of_mem hr)
    verack_sent := fun hr => h.far.verack_sent (hm ▸ Multiset.mem_cons_of_mem hr)
    acknowledged := fun _ => h.far.verack_sent (hm ▸ Multiset.mem_cons_self _ _)
    version_arrives := fun hs => (h.far.version_arrives hs).imp_right fun hr =>
      (Multiset.mem_cons.mp (hm ▸ hr)).resolve_left (ownVersion_ne_verackMessage _)
    verack_arrives := fun _ => .inl rfl }

/-- What a session answers to a version. -/
def versionAnswer (s : PeerSession) : List PeerMessage :=
  (if s.versionSent then [] else [ownVersion s]) ++ if s.verackSent then [] else [verackMessage]

omit [PyText] in
theorem mem_versionAnswer {s : PeerSession} {m : PeerMessage} :
    m ∈ versionAnswer s ↔ s.versionSent = false ∧ m = ownVersion s ∨ s.verackSent = false ∧ m = verackMessage := by
  unfold versionAnswer
  cases s.versionSent <;> cases s.verackSent <;> simp

omit [PyText] in
theorem Agrees.version {l : Link} (h : Agrees l) {rest : Multiset PeerMessage} (hm : l.toNear = ownVersion l.far ::ₘ rest) :
    Agrees ⟨{ l.near with
      remoteNodeId := some l.far.nodeId, remoteHeight := l.far.height, versionSent := true, versionReceived := true
      verackSent := true }, l.far, rest, (versionAnswer l.near : Multiset PeerMessage) + l.toFar⟩ where
  near := { h.near with
    only := fun m hr => by
      rcases Multiset.mem_add.mp hr with hr | hr
      · exact (mem_versionAnswer.mp (Multiset.mem_coe.mp hr)).imp And.right And.right
      · exact h.near.only m hr
    version_sent := fun _ => rfl
    verack_sent := fun _ => rfl
    received := fun hr => ⟨rfl, (h.near.received hr).2⟩
    acknowledged := fun _ => rfl
    answered := Iff.rfl
    answered_sent := fun _ => rfl
    version_arrives := fun _ => by
      cases hs : l.near.versionSent with
      | true => exact (h.near.version_arrives hs).imp_right fun hr => Multiset.mem_add.mpr (.inr hr)
      | false =>
        exact .inr (Multiset.mem_add.mpr (.inl (Multiset.mem_coe.mpr (mem_versionAnswer.mpr (.inl ⟨hs, rfl⟩)))))
    verack_arrives := fun _ => by
      cases hs : l.near.verackSent with
      | true => exact (h.near.verack_arrives hs).imp_right fun hr => Multiset.mem_add.mpr (.inr hr)
      | false =>
        exact .inr (Multiset.mem_add.mpr (.inl (Multiset.mem_coe.mpr (mem_versionAnswer.mpr (.inr ⟨hs, rfl⟩))))) }
  far := { h.far with
    only := fun m hr => h.far.only m (hm ▸ Multiset.mem_cons_of_mem hr)
    version_sent := fun hr => h.far.version_sent (hm ▸ Multiset.mem_cons_of_mem hr)
    verack_sent := fun hr => h.far.verack_sent (hm ▸ Multiset.mem_cons_of_mem hr)
    received := fun _ => ⟨h.far.version_sent (hm ▸ Multiset.mem_cons_self _ _), rfl⟩
    version_arrives := fun _ => .inl rfl
    verack_arrives := fun hs => (h.far.verack_arrives hs).imp_right fun hr =>
      (Multiset.mem_cons.mp (hm ▸ hr)).resolve_left (ownVersion_ne_verackMessage _).symm }

/-- Whatever is in flight is a version or a verack that the session it goes to accepts. -/
theorem Agrees.receive {l : Link} (h : Agrees l) {m : PeerMessage} (hm : m ∈ l.toNear) :
    m = ownVersion l.far ∧ (PeerSession.receive m).call l.near = (.ok (versionAnswer l.near),
        { l.near with
          remoteNodeId := some l.far.nodeId, remoteHeight := l.far.height, versionSent := true
          versionReceived := true, verackSent := true }) ∨
      m = verackMessage ∧
        (PeerSession.receive m).call l.near = (.ok [], { l.near with verackReceived := true }) := by
  rcases h.far.only m hm with rfl | rfl
  · exact .inl ⟨rfl, receive_ownVersion h.far.network_ne h.far.nodeId_ne h.far.height h.far.network h.far.ids⟩
  · exact .inr ⟨rfl, receive_verackMessage (h.versionSent_of_verack hm)⟩

theorem Agrees.moves {l l' : Link} (h : Agrees l) (hs : Moves l l') : Agrees l' := by
  cases hs with
  | start hc =>
    rw [call_startHandshake] at hc
    cases hc
    exact h.start
  | deliver hm hc =>
    rcases h.receive (hm ▸ Multiset.mem_cons_self _ _) with ⟨rfl, hr⟩ | ⟨rfl, hr⟩
    · rw [hr] at hc
      cases hc
      exact h.version hm
    · rw [hr] at hc
      cases hc
      rw [show sent (.ok []) + l.toFar = l.toFar from zero_add _]
      exact h.verack hm

theorem Agrees.exchange {l l' : Link} (h : Agrees l) (hs : Exchange l l') : Agrees l' :=
  hs.elim h.moves fun hs => (h.swap.moves hs).swap

theorem Agrees.run {l l' : Link} (h : Agrees l) (hs : Relation.ReflTransGen Exchange l l') : Agrees l' := by
  induction hs with
  | refl => exact h
  | tail _ hstep ih => exact ih.exchange hstep

/-! ## Runs -/

/-- A session whose handshake has not begun. -/
structure Unstarted (s : PeerSession) : Prop where
  versionSent : s.versionSent = false
  versionReceived : s.versionReceived = false
  verackSent : s.verackSent = false
  verackReceived : s.verackReceived = false
  misbehaviorScore : s.misbehaviorScore = 0

omit [PyText] in
theorem Unstarted.follows {s o : PeerSession} (hs : Unstarted s) (ho : Unstarted o) (hnet : s.network = o.network)
    (hn : s.network ≠ []) (hi : s.nodeId ≠ []) (hne : s.nodeId ≠ o.nodeId) (hh : -1 ≤ s.height) : Follows s o 0 where
  network := hnet
  network_ne := hn
  nodeId_ne := hi
  ids := hne
  height := hh
  score := hs.misbehaviorScore
  only := fun m hm => absurd hm (Multiset.notMem_zero m)
  version_sent := fun hm => absurd hm (Multiset.notMem_zero _)
  verack_sent := fun hm => absurd hm (Multiset.notMem_zero _)
  received := fun hr => absurd (ho.versionReceived.symm.trans hr) Bool.false_ne_true
  acknowledged := fun hr => absurd (ho.verackReceived.symm.trans hr) Bool.false_ne_true
  answered := by rw [hs.versionReceived, hs.verackSent]
  answered_sent := fun hr => absurd (hs.verackSent.symm.trans hr) Bool.false_ne_true
  version_arrives := fun hr => absurd (hs.versionSent.symm.trans hr) Bool.false_ne_true
  verack_arrives := fun hr => absurd (hs.verackSent.symm.trans hr) Bool.false_ne_true

omit [PyText] in
theorem handshakeComplete_iff {s : PeerSession} : s.handshakeComplete = true ↔
    ((s.versionSent = true ∧ s.versionReceived = true) ∧ s.verackSent = true) ∧ s.verackReceived = true := by
  simp only [PeerSession.handshakeComplete, Bool.and_eq_true]

omit [PyText] in
/-- A side that is complete has been heard, and knows whom it talks to. -/
theorem Agrees.complete {l : Link} (h : Agrees l) (hc : l.near.handshakeComplete = true) :
    l.far.versionReceived = true ∧ l.near.remoteNodeId = some l.far.nodeId := by
  obtain ⟨⟨⟨-, hr⟩, -⟩, hv⟩ := handshakeComplete_iff.mp hc
  exact ⟨h.far.answered.mpr (h.far.acknowledged hv), (h.far.received hr).2⟩

omit [PyText] in
/-- With nothing in flight, a side that has started has been answered. -/
theorem Agrees.quiet {l : Link} (h : Agrees l) (hn : l.toNear = 0) (hf : l.toFar = 0) (hs : l.near.versionSent = true) :
    l.near.handshakeComplete = true ∧ l.far.handshakeComplete = true := by
  have hfar : l.far.versionReceived = true :=
    (h.near.version_arrives hs).resolve_right (by rw [hf]; exact Multiset.notMem_zero _)
  have hfarSent : l.far.verackSent = true := h.far.answered.mp hfar
  have hfarVersion : l.far.versionSent = true := h.far.answered_sent hfarSent
  have hnear : l.near.versionReceived = true :=
    (h.far.version_arrives hfarVersion).resolve_right (by rw [hn]; exact Multiset.notMem_zero _)
  have hnearSent : l.near.verackSent = true := h.near.answered.mp hnear
  have hfarVerack : l.far.verackReceived = true :=
    (h.near.verack_arrives hnearSent).resolve_right (by rw [hf]; exact Multiset.notMem_zero _)
  have hnearVerack : l.near.verackReceived = true :=
    (h.far.verack_arrives hfarSent).resolve_right (by rw [hn]; exact Multiset.notMem_zero _)
  exact ⟨handshakeComplete_iff.mpr ⟨⟨⟨hs, hnear⟩, hnearSent⟩, hnearVerack⟩,
    handshakeComplete_iff.mpr ⟨⟨⟨hfarVersion, hfar⟩, hfarSent⟩, hfarVerack⟩⟩

/-- A delivery never fails, and never produces a REJECT. -/
theorem Agrees.accepted {l : Link} (h : Agrees l) {m : PeerMessage} (hm : m ∈ l.toNear) :
    ∃ responses s, (PeerSession.receive m).call l.near = (.ok responses, s) ∧
      ∀ r ∈ responses, r.messageType ≠ .reject := by
  rcases h.receive hm with ⟨-, hr⟩ | ⟨-, hr⟩
  · refine ⟨_, _, hr, fun r hr => ?_⟩
    rcases mem_versionAnswer.mp hr with ⟨-, rfl⟩ | ⟨-, rfl⟩
    · exact nofun
    · exact nofun
  · exact ⟨_, _, hr, fun r hr => absurd hr List.not_mem_nil⟩

/-- Two sessions of one network with ids of their own agree in every state that starts and deliveries, in
any order, lead to: nothing that is in flight is rejected, no score rises, a side that is complete has been
heard by the other and knows its id, and once a side has started and nothing is in flight, both are complete. -/
theorem handshake_agreement {a b : PeerSession} (ha : Unstarted a) (hb : Unstarted b) (hnet : a.network = b.network)
    (hn : a.network ≠ []) (hai : a.nodeId ≠ []) (hbi : b.nodeId ≠ []) (hne : a.nodeId ≠ b.nodeId)
    (hah : -1 ≤ a.height) (hbh : -1 ≤ b.height) {l : Link}
    (hrun : Relation.ReflTransGen Exchange ⟨a, b, 0, 0⟩ l) :
    (∀ m ∈ l.toNear, ∃ responses s, (PeerSession.receive m).call l.near = (.ok responses, s) ∧
        ∀ r ∈ responses, r.messageType ≠ .reject) ∧
      (∀ m ∈ l.toFar, ∃ responses s, (PeerSession.receive m).call l.far = (.ok responses, s) ∧
        ∀ r ∈ responses, r.messageType ≠ .reject) ∧
      l.near.misbehaviorScore = 0 ∧ l.far.misbehaviorScore = 0 ∧
      (l.near.handshakeComplete = true → l.far.versionReceived = true ∧ l.near.remoteNodeId = some l.far.nodeId) ∧
      (l.far.handshakeComplete = true → l.near.versionReceived = true ∧ l.far.remoteNodeId = some l.near.nodeId) ∧
      (l.near.versionSent = true ∨ l.far.versionSent = true → l.toNear = 0 → l.toFar = 0 →
        l.near.handshakeComplete = true ∧ l.far.handshakeComplete = true) := by
  have hstart : Agrees ⟨a, b, 0, 0⟩ :=
    ⟨ha.follows hb hnet hn hai hne hah, hb.follows ha hnet.symm (hnet ▸ hn) hbi hne.symm hbh⟩
  have h : Agrees l := hstart.run hrun
  refine ⟨fun m hm => h.accepted hm, fun m hm => h.swap.accepted hm, h.near.score, h.far.score, h.complete,
    h.swap.complete, fun hs hnear hfar => hs.elim (h.quiet hnear hfar) fun hs => ?_⟩
  exact (h.swap.quiet hfar hnear hs).symm

end

/-- Texts of Python for an example in which `json.loads` sees one document. -/
@[reducible] def decoding (document : Bytes) (value : Json) : PyText where
  repr _ := []
  parseInt _ := none
  parseFloat _ := none
  floatText _ := []
  loads b := if b = document then .ok value else .error (jsonDecodeError "Expecting value")

def aliceSession : PeerSession := { network := ['m', 'a', 'i', 'n'], nodeId := ['a', 'l', 'i', 'c', 'e'] }

def bobSession : PeerSession := { network := ['m', 'a', 'i', 'n'], nodeId := ['b', 'o', 'b'], height := 5 }

/-- Once one of two fresh sessions has started, the other accepts its version. -/
theorem handshake_agreement_alice :
    let _ := decoding [] .null
    ∃ responses s, (PeerSession.receive (ownVersion aliceSession)).call bobSession = (.ok responses, s) ∧
      ∀ r ∈ responses, r.messageType ≠ .reject :=
  letI := decoding [] .null
  (handshake_agreement (a := aliceSession) (b := bobSession) ⟨rfl, rfl, rfl, rfl, rfl⟩ ⟨rfl, rfl, rfl, rfl, rfl⟩ rfl
    (by decide) (by decide) (by decide) (by decide) (by decide) (by decide)
    (.single (.inl (.start (call_startHandshake aliceSession))))).2.1 (ownVersion aliceSession) (by simp)

end BCC.Proof
