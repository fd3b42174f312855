import BlockchainCoin.Proof.Handshake

/-!
# Pings between two sessions

Two sessions that ping each other, also before their handshake is complete, while
messages arrive in any order. Told apart, what is in flight is a handshake, the pings
of each side and the pongs that answer them, and the pings and pongs of a side are its
pending nonces, each of them once (`Parted`). So no pong is refused, and nothing is pending
once nothing is in flight (`pings_answered`).
-/

namespace BCC.Proof

open BCC.Impl PyError

def pingMessage (nonce : Int) : PeerMessage := ⟨.ping, .obj [("nonce".toList, .int nonce)], protocolVersion⟩

def pongMessage (nonce : Int) : PeerMessage := ⟨.pong, .obj [("nonce".toList, .int nonce)], protocolVersion⟩

/-- The nonce of a payload, where it is an integer. -/
def nonceOf (m : PeerMessage) : Option Int :=
  match m.payload.item "nonce" with
  | .ok (.int nonce) => some nonce
  | _ => none

theorem pingMessage_injective : Function.Injective pingMessage := fun _ _ h => Option.some.inj (congrArg nonceOf h)

theorem pongMessage_injective : Function.Injective pongMessage := fun _ _ h => Option.some.inj (congrArg nonceOf h)

theorem call_sendPing {nonce : Int} (h : 0 ≤ nonce) (s : PeerSession) :
    (PeerSession.sendPing nonce).call s =
      (.ok (pingMessage nonce), { s with pendingPings := insert nonce s.pendingPings }) := by
  rw [PeerSession.sendPing, if_neg (not_lt.mpr h)]
  rfl

section

variable [PyText]

omit [PyText] in
theorem validateNonce_int {nonce : Int} (h : 0 ≤ nonce) :
    PeerMessage.validateNonce (.obj [("nonce".toList, .int nonce)]) = .ok () := by
  have hnonce : (Json.int nonce).isIntFrom 0 = true := decide_eq_true h
  show raiseIf ((Json.int nonce).isIntFrom 0 = false) (networkError "nonce is invalid") = _
  rw [hnonce]
  rfl

/-- A ping is answered with its nonce. -/
theorem receive_pingMessage {nonce : Int} (h : 0 ≤ nonce) (s : PeerSession) :
    (PeerSession.receive (pingMessage nonce)).call s = (.ok [pongMessage nonce], s) := by
  have hvalid : (pingMessage nonce).validatePayload = .ok () := validateNonce_int h
  simp only [PeerSession.receive, Method.call_tryCatch, Method.call_bind, Method.call_reading, hvalid]
  rfl

/-- A pong with a nonce that is pending is taken. -/
theorem receive_pongMessage {nonce : Int} (h : 0 ≤ nonce) {s : PeerSession} (hpending : nonce ∈ s.pendingPings) :
    (PeerSession.receive (pongMessage nonce)).call s = (.ok [], { s with pendingPings := s.pendingPings.erase nonce }) := by
  have hvalid : (pongMessage nonce).validatePayload = .ok () := validateNonce_int h
  have hitem : ((pongMessage nonce).payload.item "nonce" >>= Json.toInt) = .ok nonce := rfl
  have hhandle : (PeerSession.handlePong (pongMessage nonce)).call s =
      (.ok [], { s with pendingPings := s.pendingPings.erase nonce }) := by
    simp only [PeerSession.handlePong, Method.call_bind, Method.call_reading, hitem, Method.call_get]
    rw [if_neg (not_not.mpr hpending)]
    rfl
  simp only [PeerSession.receive, Method.call_tryCatch, Method.call_bind, Method.call_reading, hvalid]
  rw [show PeerSession.handle (pongMessage nonce) = PeerSession.handlePong (pongMessage nonce) from rfl, hhandle]

/-! ## What is in flight -/

/-- What happens at the near side: a step of `Moves`, or it sends a ping with a nonce that is not pending. -/
inductive Talks : Link → Link → Prop
  | move {l l' : Link} (h : Moves l l') : Talks l l'
  | ping {l : Link} {nonce : Int} {m : PeerMessage} {s : PeerSession} (hnew : nonce ∉ l.near.pendingPings)
    (h : (PeerSession.sendPing nonce).call l.near = (.ok m, s)) : Talks l { l with near := s, toFar := m ::ₘ l.toFar }

/-- A step of the link, at either side. -/
def Talk (l l' : Link) : Prop := Talks l l' ∨ Talks l.swap l'.swap

/-- What is in flight, told apart: the messages of the handshake, which are those of `core`; the nonces of the pings of
the near side and of the pongs that come back to it; and those of the far side. -/
structure Parted (l core : Link) (pings pongs farPings farPongs : Multiset Int) : Prop where
  near : core.near = l.near
  far : core.far = l.far
  toFar : l.toFar = core.toFar + (pings.map pingMessage + farPongs.map pongMessage)
  toNear : l.toNear = core.toNear + (farPings.map pingMessage + pongs.map pongMessage)
  agrees : Agrees core
  /-- Every pending nonce is in flight, once. -/
  pending : pings + pongs = l.near.pendingPings.val
  farPending : farPings + farPongs = l.far.pendingPings.val
  nonneg : ∀ nonce ∈ l.near.pendingPings, 0 ≤ nonce
  farNonneg : ∀ nonce ∈ l.far.pendingPings, 0 ≤ nonce

variable {l core : Link} {pings pongs farPings farPongs : Multiset Int}

omit [PyText] in
theorem Parted.swap (h : Parted l core pings pongs farPings farPongs) :
    Parted l.swap core.swap farPings farPongs pings pongs :=
  ⟨h.far, h.near, h.toNear, h.toFar, h.agrees.swap, h.farPending, h.pending, h.farNonneg, h.nonneg⟩

omit [PyText] in
theorem Agrees.pendingPings {l : Link} (h : Agrees l) (pending : Finset Int) :
    Agrees { l with near := { l.near with pendingPings := pending } } where
  near := { h.near with }
  far := { h.far with }

omit [PyText] in
theorem Parted.pings_subset (h : Parted l core pings pongs farPings farPongs) {nonce : Int} (hp : nonce ∈ pings + pongs) :
    nonce ∈ l.near.pendingPings := by
  rw [h.pending] at hp
  exact hp

omit [PyText] in
/-- A new ping is in flight. -/
theorem Parted.ping (h : Parted l core pings pongs farPings farPongs) {nonce : Int} (hnonce : 0 ≤ nonce)
    (hnew : nonce ∉ l.near.pendingPings) :
    Parted { l with
        near := { l.near with pendingPings := insert nonce l.near.pendingPings }, toFar := pingMessage nonce ::ₘ l.toFar }
      { core with near := { core.near with pendingPings := insert nonce l.near.pendingPings } }
      (nonce ::ₘ pings) pongs farPings farPongs where
  near := by rw [h.near]
  far := h.far
  toFar := by
    show pingMessage nonce ::ₘ l.toFar = _
    rw [h.toFar, Multiset.map_cons, Multiset.cons_add, Multiset.add_cons]
  toNear := h.toNear
  agrees := h.agrees.pendingPings _
  pending := by
    show nonce ::ₘ pings + pongs = (insert nonce l.near.pendingPings).val
    rw [Finset.insert_val_of_notMem hnew, Multiset.cons_add, h.pending]
  farPending := h.farPending
  nonneg := fun n hn => (Finset.mem_insert.mp hn).elim (fun he => he ▸ hnonce) (h.nonneg n)
  farNonneg := h.farNonneg

omit [PyText] in
/-- A ping has arrived, and its pong is in flight. -/
theorem Parted.pong (h : Parted l core pings pongs farPings farPongs) {nonce : Int} {farPings' : Multiset Int}
    (hq : farPings = nonce ::ₘ farPings') {rest : Multiset PeerMessage} (hrest : l.toNear = pingMessage nonce ::ₘ rest) :
    Parted { l with toNear := rest, toFar := pongMessage nonce ::ₘ l.toFar } core pings pongs farPings'
      (nonce ::ₘ farPongs) where
  near := h.near
  far := h.far
  toFar := by
    show pongMessage nonce ::ₘ l.toFar = _
    rw [h.toFar, Multiset.map_cons, Multiset.add_cons, Multiset.add_cons]
  toNear := by
    rw [h.toNear, hq, Multiset.map_cons, Multiset.cons_add, Multiset.add_cons] at hrest
    exact ((Multiset.cons_inj_right _).mp hrest).symm
  agrees := h.agrees
  pending := h.pending
  farPending := by
    rw [Multiset.add_cons, ← Multiset.cons_add, ← hq]
    exact h.farPending
  nonneg := h.nonneg
  farNonneg := h.farNonneg

omit [PyText] in
/-- A pong has arrived, and its nonce is not pending any more. -/
theorem Parted.answered (h : Parted l core pings pongs farPings farPongs) {nonce : Int} {pongs' : Multiset Int}
    (hp : pongs = nonce ::ₘ pongs') {rest : Multiset PeerMessage} (hrest : l.toNear = pongMessage nonce ::ₘ rest) :
    Parted { l with near := { l.near with pendingPings := l.near.pendingPings.erase nonce }, toNear := rest }
      { core with near := { core.near with pendingPings := l.near.pendingPings.erase nonce } } pings pongs' farPings farPongs where
  near := by rw [h.near]
  far := h.far
  toFar := h.toFar
  toNear := by
    rw [h.toNear, hp, Multiset.map_cons, Multiset.add_cons, Multiset.add_cons] at hrest
    exact ((Multiset.cons_inj_right _).mp hrest).symm
  agrees := h.agrees.pendingPings _
  pending := by
    show pings + pongs' = (l.near.pendingPings.erase nonce).val
    rw [Finset.erase_val, ← h.pending, hp, Multiset.add_cons, Multiset.erase_cons_head]
  farPending := h.farPending
  nonneg := fun n hn => h.nonneg n (Finset.mem_of_mem_erase hn)
  farNonneg := h.farNonneg

/-- What may arrive at the near side. -/
inductive Arrives (l core : Link) (pings pongs farPings farPongs : Multiset Int) (m : PeerMessage) : Prop
  | handshake (h : m ∈ core.toNear)
  | ping {nonce : Int} (h : nonce ∈ farPings) (hm : m = pingMessage nonce)
  | pong {nonce : Int} (h : nonce ∈ pongs) (hm : m = pongMessage nonce)

omit [PyText] in
theorem Parted.arrives (h : Parted l core pings pongs farPings farPongs) {m : PeerMessage} (hm : m ∈ l.toNear) :
    Arrives l core pings pongs farPings farPongs m := by
  rw [h.toNear, Multiset.mem_add, Multiset.mem_add, Multiset.mem_map, Multiset.mem_map] at hm
  rcases hm with hm | ⟨nonce, hn, rfl⟩ | ⟨nonce, hn, rfl⟩
  · exact .handshake hm
  · exact .ping hn rfl
  · exact .pong hn rfl

/-- The messages of the handshake leave the pending nonces as they are. -/
theorem Agrees.receive_pending {l : Link} (h : Agrees l) {m : PeerMessage} (hm : m ∈ l.toNear)
    {result : Except PyError (List PeerMessage)} {s : PeerSession} (hc : (PeerSession.receive m).call l.near = (result, s)) :
    s.pendingPings = l.near.pendingPings := by
  rcases h.receive hm with ⟨-, hr⟩ | ⟨-, hr⟩
  · rw [hr] at hc
    exact (congrArg (·.2.pendingPings) hc).symm
  · rw [hr] at hc
    exact (congrArg (·.2.pendingPings) hc).symm

/-- The invariant, for some way to tell the messages apart. -/
def InFlight (l : Link) : Prop := ∃ core pings pongs farPings farPongs, Parted l core pings pongs farPings farPongs

omit [PyText] in
theorem InFlight.swap {l : Link} (h : InFlight l) : InFlight l.swap := by
  obtain ⟨core, pings, pongs, farPings, farPongs, h⟩ := h
  exact ⟨core.swap, farPings, farPongs, pings, pongs, h.swap⟩

theorem InFlight.moves {l l' : Link} (h : InFlight l) (hs : Moves l l') : InFlight l' := by
  obtain ⟨core, pings, pongs, farPings, farPongs, h⟩ := h
  cases hs with
  | start hc =>
    rw [call_startHandshake] at hc
    cases hc
    refine ⟨{ core with near := { core.near with versionSent := true }, toFar := ownVersion core.near ::ₘ core.toFar }, pings,
      pongs, farPings, farPongs, by rw [h.near], h.far, ?_, h.toNear, h.agrees.start, h.pending, h.farPending, h.nonneg,
      h.farNonneg⟩
    show ownVersion l.near ::ₘ l.toFar = _
    rw [h.toFar, h.near, Multiset.cons_add]
  | @deliver m rest result s hm hc =>
    cases h.arrives (hm ▸ Multiset.mem_cons_self _ _) with
    | handshake hmem =>
      obtain ⟨coreRest, hcore⟩ := Multiset.exists_cons_of_mem hmem
      have hc' : (PeerSession.receive m).call core.near = (result, s) := by
        rw [h.near]
        exact hc
      have hpending : s.pendingPings = l.near.pendingPings := h.near ▸ h.agrees.receive_pending hmem hc'
      refine ⟨⟨s, core.far, coreRest, sent result + core.toFar⟩, pings, pongs, farPings, farPongs, rfl, h.far, ?_, ?_,
        h.agrees.moves (.deliver hcore hc'), ?_, h.farPending, ?_, h.farNonneg⟩
      · show sent result + l.toFar = _
        rw [h.toFar, add_assoc]
      · rw [h.toNear, hcore, Multiset.cons_add] at hm
        exact ((Multiset.cons_inj_right _).mp hm).symm
      · rw [hpending]
        exact h.pending
      · rw [hpending]
        exact h.nonneg
    | @ping nonce hq he =>
      subst he
      obtain ⟨farPings', hq⟩ := Multiset.exists_cons_of_mem hq
      have hfar : nonce ∈ l.far.pendingPings :=
        h.swap.pings_subset (Multiset.mem_add.mpr (.inl (hq ▸ Multiset.mem_cons_self _ _)))
      rw [receive_pingMessage (h.farNonneg nonce hfar)] at hc
      cases hc
      exact ⟨core, pings, pongs, farPings', nonce ::ₘ farPongs, h.pong hq hm⟩
    | @pong nonce hp he =>
      subst he
      obtain ⟨pongs', hp⟩ := Multiset.exists_cons_of_mem hp
      have hnear : nonce ∈ l.near.pendingPings :=
        h.pings_subset (Multiset.mem_add.mpr (.inr (hp ▸ Multiset.mem_cons_self _ _)))
      rw [receive_pongMessage (h.nonneg nonce hnear) hnear] at hc
      cases hc
      rw [show sent (.ok []) + l.toFar = l.toFar from zero_add _]
      exact ⟨_, pings, pongs', farPings, farPongs, h.answered hp hm⟩

theorem InFlight.talks {l l' : Link} (h : InFlight l) (hs : Talks l l') : InFlight l' := by
  cases hs with
  | move hs => exact h.moves hs
  | @ping nonce m s hnew hc =>
    obtain ⟨core, pings, pongs, farPings, farPongs, h⟩ := h
    rcases lt_or_ge nonce 0 with hneg | hnonce
    · rw [PeerSession.sendPing, if_pos hneg] at hc
      cases hc
    · rw [call_sendPing hnonce] at hc
      cases hc
      exact ⟨_, _, _, _, _, h.ping hnonce hnew⟩

theorem InFlight.run {l l' : Link} (h : InFlight l) (hs : Relation.ReflTransGen Talk l l') : InFlight l' := by
  induction hs with
  | refl => exact h
  | tail _ hstep ih => exact hstep.elim ih.talks fun hs => (ih.swap.talks hs).swap

/-! ## Runs -/

/-- Whatever arrives is taken, and answered without a REJECT. -/
theorem InFlight.accepted {l : Link} (h : InFlight l) {m : PeerMessage} (hm : m ∈ l.toNear) :
    ∃ responses s, (PeerSession.receive m).call l.near = (.ok responses, s) ∧
      ∀ r ∈ responses, r.messageType ≠ .reject := by
  obtain ⟨core, pings, pongs, farPings, farPongs, h⟩ := h
  cases h.arrives hm with
  | handshake hmem => exact h.near ▸ h.agrees.accepted hmem
  | @ping nonce hq he =>
    subst he
    have hfar := h.swap.pings_subset (Multiset.mem_add.mpr (.inl hq))
    refine ⟨_, _, receive_pingMessage (h.farNonneg nonce hfar) l.near, fun r hr => ?_⟩
    rw [List.mem_singleton.mp hr]
    exact nofun
  | @pong nonce hp he =>
    subst he
    have hnear := h.pings_subset (Multiset.mem_add.mpr (.inr hp))
    exact ⟨_, _, receive_pongMessage (h.nonneg nonce hnear) hnear, fun r hr => absurd hr List.not_mem_nil⟩

omit [PyText] in
/-- A nonce is pending while its ping or its pong is in flight. -/
theorem InFlight.pending_iff {l : Link} (h : InFlight l) (nonce : Int) :
    nonce ∈ l.near.pendingPings ↔ pingMessage nonce ∈ l.toFar ∨ pongMessage nonce ∈ l.toNear := by
  obtain ⟨core, pings, pongs, farPings, farPongs, h⟩ := h
  -- The handshake has no pings and no pongs.
  have hcore : ∀ {s o : PeerSession} {out : Multiset PeerMessage} {m : PeerMessage}, Follows s o out →
      m.messageType = .ping ∨ m.messageType = .pong → m ∉ out := fun hf htype hmem => by
    rcases hf.only _ hmem with rfl | rfl <;> rcases htype with htype | htype <;> cases htype
  have hping : pingMessage nonce ∈ l.toFar ↔ nonce ∈ pings := by
    rw [h.toFar, Multiset.mem_add, Multiset.mem_add, Multiset.mem_map_of_injective pingMessage_injective]
    refine ⟨fun hm => ?_, fun hm => .inr (.inl hm)⟩
    rcases hm with hm | hm | hm
    · exact absurd hm (hcore h.agrees.near (.inl rfl))
    · exact hm
    · obtain ⟨_, -, he⟩ := Multiset.mem_map.mp hm
      cases congrArg PeerMessage.messageType he
  have hpong : pongMessage nonce ∈ l.toNear ↔ nonce ∈ pongs := by
    rw [h.toNear, Multiset.mem_add, Multiset.mem_add, Multiset.mem_map_of_injective pongMessage_injective]
    refine ⟨fun hm => ?_, fun hm => .inr (.inr hm)⟩
    rcases hm with hm | hm | hm
    · exact absurd hm (hcore h.agrees.far (.inr rfl))
    · obtain ⟨_, -, he⟩ := Multiset.mem_map.mp hm
      cases congrArg PeerMessage.messageType he
    · exact hm
  rw [hping, hpong, ← Multiset.mem_add, h.pending]
  rfl

/-- Two sessions of one network that start the handshake and ping each other with nonces that are not pending, while
messages arrive in any order: nothing is rejected and no score rises, a nonce is pending at a side exactly while its
ping or its pong is in flight, and when nothing is in flight, nothing is pending and a handshake that has begun is
complete. -/
theorem pings_answered {a b : PeerSession} (ha : Unstarted a) (hb : Unstarted b) (hap : a.pendingPings = ∅)
    (hbp : b.pendingPings = ∅) (hnet : a.network = b.network) (hn : a.network ≠ []) (hai : a.nodeId ≠ [])
    (hbi : b.nodeId ≠ []) (hne : a.nodeId ≠ b.nodeId) (hah : -1 ≤ a.height) (hbh : -1 ≤ b.height) {l : Link}
    (hrun : Relation.ReflTransGen Talk ⟨a, b, 0, 0⟩ l) :
    (∀ m ∈ l.toNear, ∃ responses s, (PeerSession.receive m).call l.near = (.ok responses, s) ∧
        ∀ r ∈ responses, r.messageType ≠ .reject) ∧
      (∀ m ∈ l.toFar, ∃ responses s, (PeerSession.receive m).call l.far = (.ok responses, s) ∧
        ∀ r ∈ responses, r.messageType ≠ .reject) ∧
      l.near.misbehaviorScore = 0 ∧ l.far.misbehaviorScore = 0 ∧
      (∀ nonce, nonce ∈ l.near.pendingPings ↔ pingMessage nonce ∈ l.toFar ∨ pongMessage nonce ∈ l.toNear) ∧
      (∀ nonce, nonce ∈ l.far.pendingPings ↔ pingMessage nonce ∈ l.toNear ∨ pongMessage nonce ∈ l.toFar) ∧
      (l.toNear = 0 → l.toFar = 0 → l.near.pendingPings = ∅ ∧ l.far.pendingPings = ∅ ∧
        (l.near.versionSent = true ∨ l.far.versionSent = true →
          l.near.handshakeComplete = true ∧ l.far.handshakeComplete = true)) := by
  have hstart : InFlight ⟨a, b, 0, 0⟩ := by
    refine ⟨⟨a, b, 0, 0⟩, 0, 0, 0, 0, rfl, rfl, rfl, rfl, ⟨ha.follows hb hnet hn hai hne hah,
      hb.follows ha hnet.symm (hnet ▸ hn) hbi hne.symm hbh⟩, ?_, ?_, fun nonce hm => ?_, fun nonce hm => ?_⟩
    · show 0 + 0 = a.pendingPings.val
      rw [hap]
      rfl
    · show 0 + 0 = b.pendingPings.val
      rw [hbp]
      rfl
    · exact absurd (hap ▸ hm : nonce ∈ (∅ : Finset Int)) (Finset.notMem_empty nonce)
    · exact absurd (hbp ▸ hm : nonce ∈ (∅ : Finset Int)) (Finset.notMem_empty nonce)
  have h : InFlight l := hstart.run hrun
  refine ⟨fun m hm => h.accepted hm, fun m hm => h.swap.accepted hm, ?_, ?_, h.pending_iff, h.swap.pending_iff,
    fun hnear hfar => ⟨?_, ?_, fun hs => ?_⟩⟩
  · obtain ⟨core, _, _, _, _, h⟩ := h
    exact h.near ▸ h.agrees.near.score
  · obtain ⟨core, _, _, _, _, h⟩ := h
    exact h.far ▸ h.agrees.far.score
  · refine Finset.eq_empty_of_forall_notMem fun nonce hm => ?_
    rcases (h.pending_iff nonce).mp hm with hm | hm
    · exact Multiset.notMem_zero _ (hfar ▸ hm)
    · exact Multiset.notMem_zero _ (hnear ▸ hm)
  · refine Finset.eq_empty_of_forall_notMem fun nonce hm => ?_
    rcases (h.swap.pending_iff nonce).mp hm with hm | hm
    · exact Multiset.notMem_zero _ (hnear ▸ (show pingMessage nonce ∈ l.toNear from hm))
    · exact Multiset.notMem_zero _ (hfar ▸ (show pongMessage nonce ∈ l.toFar from hm))
  · obtain ⟨core, _, _, _, _, h⟩ := h
    have hcoreNear : core.toNear = 0 := (add_eq_zero.mp (h.toNear.symm.trans hnear)).1
    have hcoreFar : core.toFar = 0 := (add_eq_zero.mp (h.toFar.symm.trans hfar)).1
    rw [← h.near, ← h.far] at hs ⊢
    exact hs.elim (h.agrees.quiet hcoreNear hcoreFar) fun hs => (h.agrees.swap.quiet hcoreFar hcoreNear hs).symm

end

/-- A ping may overtake the handshake. -/
theorem pings_answered_alice :
    let _ := decoding [] .null
    ∃ responses s, (PeerSession.receive (pingMessage 7)).call bobSession = (.ok responses, s) ∧
      ∀ r ∈ responses, r.messageType ≠ .reject :=
  letI := decoding [] .null
  (pings_answered (a := aliceSession) (b := bobSession) ⟨rfl, rfl, rfl, rfl, rfl⟩ ⟨rfl, rfl, rfl, rfl, rfl⟩ rfl rfl rfl
    (by decide) (by decide) (by decide) (by decide) (by decide) (by decide)
    (.single (.inl (.ping (Finset.notMem_empty 7) (call_sendPing (by decide) aliceSession))))).2.1 (pingMessage 7) (by simp)

end BCC.Proof
