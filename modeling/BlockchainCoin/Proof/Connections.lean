import BlockchainCoin.Impl.Transport
import BlockchainCoin.Proof.Calls
import BlockchainCoin.Proof.Handshake

/-!
# Connections of the server

A handler that returns only removes itself from the server. The session of its
address, the record and the downloads are released when the service drops the
connection, for a ban (`Advance.released`), and kept when the connection ends in any
other way (`Advance.leaked`): a run leaves nothing behind exactly when none of its
connections ends so (`released_iff`).
-/

namespace BCC.Proof

open BCC.Impl PyError NodeService

/-! ## Other addresses -/

section

variable [Ed25519] {a : Str} {s s' : NodeService}

/-- The sessions and records of all other addresses are as they were. -/
structure Others (a : Str) (s s' : NodeService) : Prop where
  session : ∀ b, b ≠ a → s'.sessions.get? b = s.sessions.get? b
  record : ∀ b, b ≠ a → s'.peers.lookup b = s.peers.lookup b

omit [Ed25519] in
theorem Others.refl (a : Str) (s : NodeService) : Others a s s := ⟨fun _ _ => rfl, fun _ _ => rfl⟩

omit [Ed25519] in
theorem Others.trans {s'' : NodeService} (h : Others a s s') (h' : Others a s' s'') : Others a s s'' :=
  ⟨fun b hb => (h'.session b hb).trans (h.session b hb), fun b hb => (h'.record b hb).trans (h.record b hb)⟩

theorem Turn.others (h : Turn a s s') : Others a s s' := by
  cases h with
  | work h =>
    cases h with
    | node | cacheTransaction | cacheBlock | request | resolve => exact ⟨fun _ _ => rfl, fun _ _ => rfl⟩
    | load address =>
      unfold withProgress
      split <;> exact ⟨fun _ _ => rfl, fun _ _ => rfl⟩
    | session => exact ⟨fun b hb => Dict.get?_set_of_ne _ _ hb, fun _ _ => rfl⟩
  | mark hm => exact ⟨fun _ _ => rfl, hm.others⟩
  | «open» => exact ⟨fun b hb => Dict.get?_set_of_ne _ _ hb, fun _ _ => rfl⟩
  | @score old score hold =>
    have haddress := address_of_lookup hold
    have hupdate : s.peers.lookup ({ old with misbehaviorScore := score } : PeerRecord).address = some old := by
      show s.peers.lookup old.address = _
      rw [haddress]
      exact hold
    exact ⟨fun _ _ => rfl, fun b hb => (lookup_update hupdate b).trans (if_neg fun he => hb (he.trans haddress))⟩
  | drop hold ha hr =>
    refine ⟨fun b hb => ?_, fun b hb => ?_⟩
    · rw [cleared_sessions]
      exact Dict.get?_erase_of_ne _ hb
    · rw [cleared_peers]
      exact (lookup_update (ha.symm ▸ hold) b).trans (if_neg fun he => hb (he.trans ha))

theorem others_of_turns (h : Relation.ReflTransGen (Turn a) s s') : Others a s s' := by
  induction h with
  | refl => exact .refl a s
  | tail _ hstep ih => exact ih.trans hstep.others

theorem ServiceOk.turns (h : ServiceOk s) (hs : Relation.ReflTransGen (Turn a) s s') : ServiceOk s' := by
  induction hs with
  | refl => exact h
  | tail _ hstep ih => exact ih.turn hstep

/-- While it works, the service keeps all sessions. -/
theorem Work.contains (h : Work a s s') (b : Str) : s'.sessions.contains b = s.sessions.contains b := by
  cases h with
  | node | cacheTransaction | cacheBlock | request | resolve => rfl
  | load address =>
    unfold withProgress
    split <;> rfl
  | session hold =>
    rw [Dict.contains, Dict.contains, Dict.get?_set]
    split
    · rename_i hb
      rw [hb, hold]
      rfl
    · rfl

theorem contains_of_works (h : Relation.ReflTransGen (Work a) s s') (b : Str) :
    s'.sessions.contains b = s.sessions.contains b := by
  induction h with
  | refl => rfl
  | tail _ hstep ih => exact (hstep.contains b).trans ih

/-- The height of a node that calls have led to can be read. -/
theorem newSession_returns (h : NodeOk s.node) : ∃ session, s.newSession = .ok session := by
  obtain ⟨tip, htip, -⟩ := bestTip_isSome h.store
  cases tip <;>
  · simp only [NodeService.newSession, ConsensusNode.height, htip, ok_bind]
    exact ⟨_, rfl⟩

end

/-! ## Turns of the server -/

section

variable [PyText] [Ed25519] {a : Str} {s s' : NodeTCPServer}

/-- The address an event is about. -/
def addressOf : ServerEvent → Str
  | .connect address | .recv address _ | .next address | .eof address | .fail address => address

/-- Every open connection has a session, in a service that is in order. -/
structure Linked (s : NodeTCPServer) : Prop where
  service : ServiceOk s.service
  session : ∀ a, s.handlers.contains a = true → s.service.sessions.contains a = true

/-- What one turn of the server leads to for the address `a`. -/
inductive Advance (a : Str) (s : NodeTCPServer) : NodeTCPServer × Option Ending → Prop
  | idle : Advance a s (s, none)
  /-- The connection is open, with a session. -/
  | stays {service : NodeService} {handler : Handler} (hturns : Relation.ReflTransGen (Turn a) s.service service)
    (hsession : service.sessions.contains a = true) :
    Advance a s ({ s with service := service, handlers := s.handlers.set a handler }, none)
  /-- The service has admitted no connection. -/
  | refused {service : NodeService} (hno : s.handlers.contains a = false)
    (hturns : Relation.ReflTransGen (Turn a) s.service service) (hsession : service.sessions.get? a = s.service.sessions.get? a)
    (hrecord : ∀ r, service.peers.lookup a = some r → r.isActive = true →
      ∃ old, s.service.peers.lookup a = some old ∧ old.isActive = true) :
    Advance a s ({ s with service := service }, some .refused)
  /-- The service has dropped the connection. -/
  | released {service : NodeService} (hturns : Relation.ReflTransGen (Turn a) s.service service)
    (hsession : service.sessions.get? a = none)
    (hrecord : ∀ r, service.peers.lookup a = some r → r.isActive = false) :
    Advance a s ({ s with service := service }.finish a, some .disconnected)
  /-- The connection is gone, and its session is still there. -/
  | leaked {service : NodeService} {ending : Ending} (hturns : Relation.ReflTransGen (Turn a) s.service service)
    (hsession : service.sessions.contains a = true) (hending : ending ≠ .refused ∧ ending ≠ .disconnected) :
    Advance a s ({ s with service := service }.finish a, some ending)

omit [PyText] in
theorem connect_advance (h : Linked s) (a : Str) : Advance a s (s.connect a) := by
  unfold NodeTCPServer.connect
  split
  · exact .idle
  · rename_i hno
    have hno : s.handlers.contains a = false := Bool.eq_false_iff.mpr hno
    have hadmission := acceptInboundPeer_admission a 0 s.service
    rcases hcall : (acceptInboundPeer a 0).call s.service with ⟨e | ⟨⟩, service⟩
    · rw [hcall] at hadmission
      refine .refused hno hadmission.turn ?_ ?_
      · cases hadmission <;> rfl
      · cases hadmission with
        | refused _ hr => exact hr
        | failed _ he =>
          obtain ⟨session, hsession⟩ := newSession_returns h.service.node.nodeOk
          rw [hsession] at he
          cases he
    · rw [hcall] at hadmission
      refine .stays hadmission.turn ?_
      cases hadmission with
      | opened => exact Dict.contains_of_get? (Dict.get?_set_self _ _ _)

omit [Ed25519] in
theorem recv_handler (chunk : Bytes) : s.recv a chunk = (s, none) ∨ ∃ handler, s.handlers.get? a = some handler ∧
    ((∃ handler, s.recv a chunk = ({ s with handlers := s.handlers.set a handler }, none)) ∨
      s.recv a chunk = (s.finish a, some .malformed) ∨ s.recv a chunk = (s.finish a, some .raised)) := by
  unfold NodeTCPServer.recv
  split
  · rename_i buffer hget
    refine .inr ⟨_, hget, ?_⟩
    split
    · exact .inl ⟨_, rfl⟩
    · exact .inr (.inl rfl)
    · exact .inr (.inr rfl)
  · exact .inl rfl

/-- The session of an open connection is there, and `receive` serves it. -/
theorem receive_served (h : ServiceOk s.service) {session : PeerSession} (hsession : s.service.sessions.get? a = some session)
    (message : PeerMessage) (now : Int) : Served a s.service ((receive a message now).call s.service) := by
  rw [receive_eq, sessionFor_there hsession]
  exact receiveFrom_served h.downloads hsession message now

theorem next_advance (h : Linked s) (a : Str) : Advance a s (s.next a) := by
  unfold NodeTCPServer.next
  split
  · rename_i buffer message messages hget
    have hthere := h.session a (Dict.contains_of_get? hget)
    obtain ⟨session, hsession⟩ := Option.isSome_iff_exists.mp hthere
    have hserved := receive_served h.service hsession message 0
    rcases hcall : (receive a message 0).call s.service with ⟨e | result, service⟩
    · rw [hcall] at hserved
      refine .leaked hserved.turn ?_ ⟨nofun, nofun⟩
      cases hserved with
      | raised hs => exact (contains_of_works hs a).trans hthere
    · rw [hcall] at hserved
      have hturns := hserved.turn
      dsimp only
      cases hserved with
      | done hs hdisconnect =>
        rw [if_neg (by rw [hdisconnect]; exact Bool.false_ne_true)]
        exact .stays hturns ((contains_of_works hs a).trans hthere)
      | penalized hs hp =>
        generalize hd : result.disconnect = disconnect at hp
        cases hp with
        | scored =>
          rw [if_neg Bool.false_ne_true]
          exact .stays hturns ((contains_of_works hs a).trans hthere)
        | dropped hold ha hbanned _ =>
          rw [if_pos rfl]
          refine .released hturns ?_ fun r hr => ?_
          · rw [cleared_sessions]
            exact (Dict.get?_erase _ _ _).trans (if_pos rfl)
          · rw [cleared_peers] at hr
            have hr := (lookup_update (ha.symm ▸ hold) a).symm.trans hr
            rw [if_pos ha.symm, Option.some.injEq] at hr
            rw [← hr]
            simp [PeerRecord.isActive, of_decide_eq_true (show decide _ = true from hbanned)]
  · exact .idle

/-- Every turn of the server is one of these. -/
theorem step_advance (h : Linked s) (event : ServerEvent) : Advance (addressOf event) s (s.step event) := by
  have hgone : ∀ {address ending} {handler : Handler}, s.handlers.get? address = some handler →
      ending ≠ .refused ∧ ending ≠ .disconnected → Advance address s (s.finish address, some ending) :=
    fun hget => .leaked .refl (h.session _ (Dict.contains_of_get? hget))
  cases event with
  | connect address => exact connect_advance h address
  | recv address chunk =>
    show Advance address s (s.recv address chunk)
    rcases recv_handler (s := s) (a := address) chunk with hr | ⟨_, hget, ⟨_, hr⟩ | hr | hr⟩
    · rw [hr]
      exact .idle
    · rw [hr]
      exact .stays .refl (h.session _ (Dict.contains_of_get? hget))
    · rw [hr]
      exact hgone hget ⟨nofun, nofun⟩
    · rw [hr]
      exact hgone hget ⟨nofun, nofun⟩
  | next address => exact next_advance h address
  | eof address =>
    show Advance address s (s.eof address)
    unfold NodeTCPServer.eof
    split
    · rename_i hget
      exact hgone hget ⟨nofun, nofun⟩
    · exact .idle
  | fail address =>
    show Advance address s (s.fail address)
    unfold NodeTCPServer.fail
    split
    · rename_i hcontains
      obtain ⟨handler, hget⟩ := Option.isSome_iff_exists.mp hcontains
      exact hgone hget ⟨nofun, nofun⟩
    · exact .idle

/-! ## What is left of a connection -/

/-- Nothing is left of the connections of an address. -/
structure Released (s : NodeService) (a : Str) : Prop where
  session : s.sessions.get? a = none
  record : ∀ r, s.peers.lookup a = some r → r.isActive = false
  downloads : ∀ {hash d}, s.inFlightBlocks.get? hash = some d → d.peer ≠ a

/-- Nothing is left of a connection that is not open. -/
def Tidy (s : NodeTCPServer) : Prop := ∀ a, s.handlers.contains a = false → Released s.service a

omit [PyText] in
theorem released_of {s : NodeService} (h : ServiceOk s) (hsession : s.sessions.get? a = none)
    (hrecord : ∀ r, s.peers.lookup a = some r → r.isActive = false) : Released s a :=
  ⟨hsession, hrecord, fun hd he => by
    have hthere := h.downloads.session hd
    rw [he, Dict.contains, hsession] at hthere
    cases hthere⟩

omit [PyText] in
theorem Advance.linked {r : Option Ending} (h : Linked s) (hs : Advance a s (s', r)) : Linked s' := by
  have hother : ∀ {service : NodeService}, Relation.ReflTransGen (Turn a) s.service service → ∀ b, b ≠ a →
      s.handlers.contains b = true → service.sessions.contains b = true := fun hturns b hb hthere => by
    rw [Dict.contains, (others_of_turns hturns).session b hb]
    exact h.session b hthere
  cases hs with
  | idle => exact h
  | stays hturns hsession =>
    refine ⟨h.service.turns hturns, fun b hb => ?_⟩
    by_cases hba : b = a
    · exact hba ▸ hsession
    · rw [Dict.contains, Dict.get?_set_of_ne _ _ hba] at hb
      exact hother hturns b hba hb
  | refused hno hturns =>
    refine ⟨h.service.turns hturns, fun b hb => hother hturns b (fun hba => ?_) hb⟩
    rw [hba, hno] at hb
    cases hb
  | released hturns | leaked hturns =>
    refine ⟨h.service.turns hturns, fun b hb => ?_⟩
    by_cases hba : b = a
    · rw [hba, NodeTCPServer.finish, Dict.contains, Dict.get?_erase, if_pos rfl] at hb
      cases hb
    · rw [NodeTCPServer.finish, Dict.contains, Dict.get?_erase_of_ne _ hba] at hb
      exact hother hturns b hba hb

omit [PyText] in
/-- A turn leaves nothing behind unless a connection ends in it without being dropped. -/
theorem Advance.tidy {r : Option Ending} (h : Linked s) (ht : Tidy s) (hs : Advance a s (s', r))
    (hr : ∀ ending, r = some ending → ending = .refused ∨ ending = .disconnected) : Tidy s' := by
  have hlinked := hs.linked h
  have hother : ∀ {service : NodeService}, Relation.ReflTransGen (Turn a) s.service service → ServiceOk service → ∀ b, b ≠ a →
      s.handlers.contains b = false → Released service b := fun hturns hok b hb hno => by
    have hothers := others_of_turns hturns
    have hreleased := ht b hno
    exact released_of hok ((hothers.session b hb).trans hreleased.session)
      fun r hr => hreleased.record r ((hothers.record b hb).symm.trans hr)
  cases hs with
  | idle => exact ht
  | stays hturns =>
    intro b hb
    have hba : b ≠ a := fun hba => by
      rw [hba, Dict.contains, Dict.get?_set_self] at hb
      cases hb
    rw [Dict.contains, Dict.get?_set_of_ne _ _ hba] at hb
    exact hother hturns hlinked.service b hba hb
  | refused hno hturns hsession hrecord =>
    intro b hb
    by_cases hba : b = a
    · subst hba
      refine released_of hlinked.service (hsession.trans (ht b hno).session) fun r hr => Bool.eq_false_iff.mpr fun hactive => ?_
      obtain ⟨old, hold, hactive⟩ := hrecord r hr hactive
      rw [(ht b hno).record old hold] at hactive
      cases hactive
    · exact hother hturns hlinked.service b hba hb
  | released hturns hsession hrecord =>
    intro b hb
    by_cases hba : b = a
    · subst hba
      exact released_of hlinked.service hsession hrecord
    · rw [NodeTCPServer.finish, Dict.contains, Dict.get?_erase_of_ne _ hba] at hb
      exact hother hturns hlinked.service b hba hb
  | leaked _ _ hending =>
    rcases hr _ rfl with he | he
    · exact absurd he hending.1
    · exact absurd he hending.2

omit [PyText] in
/-- A connection that ends without being dropped leaves its session behind. -/
theorem Advance.not_tidy {ending : Ending} (hs : Advance a s (s', some ending))
    (hending : ¬ (ending = .refused ∨ ending = .disconnected)) : ¬ Tidy s' := by
  cases hs with
  | refused => exact absurd (.inl rfl) hending
  | released => exact absurd (.inr rfl) hending
  | @leaked service _ _ hsession =>
    intro ht
    have hreleased : Released service a := ht a (by rw [NodeTCPServer.finish, Dict.contains, Dict.get?_erase, if_pos rfl]; rfl)
    rw [Dict.contains, hreleased.session] at hsession
    cases hsession

omit [PyText] [Ed25519] in
/-- Where nothing is left behind, no more records are open inbound connections than there are handlers. -/
theorem Tidy.inboundCount_le (h : Tidy s) : s.service.peers.inboundCount ≤ s.handlers.keys.length := by
  rw [PeerAddressManager.inboundCount, PeerAddressManager.activeCount, List.countP_eq_length_filter]
  have hnodup := (s.service.peers.peers_nodup).sublist
    ((List.filter_sublist (p := fun r => r.isActive && decide (r.inbound = true))).map PeerRecord.address)
  have hsubset : (s.service.peers.peers.filter fun r => r.isActive && decide (r.inbound = true)).map PeerRecord.address ⊆
      s.handlers.keys := by
    intro b hb
    obtain ⟨r, hr, rfl⟩ := List.mem_map.mp hb
    obtain ⟨hmem, hactive⟩ := List.mem_filter.mp hr
    by_contra hno
    have hrecord := (h r.address (Bool.eq_false_iff.mpr fun hthere => hno (Dict.contains_iff.mp hthere))).record r
      (lookup_eq_some.mpr ⟨hmem, rfl⟩)
    rw [hrecord] at hactive
    cases hactive
  rw [← List.length_map (f := PeerRecord.address)]
  exact (List.subperm_of_subset hnodup hsubset).length_le

/-! ## Runs -/

/-- The server after any events. -/
def serverAfter (s : NodeTCPServer) (events : List ServerEvent) : NodeTCPServer := events.foldl (fun s e => (s.step e).1) s

/-- How the handlers that returned in a run ended. -/
def endings : NodeTCPServer → List ServerEvent → List Ending
  | _, [] => []
  | s, event :: events => (s.step event).2.toList ++ endings (s.step event).1 events

/-- In a run of a server whose service is new and knows no open connection: in every state, nothing is left of any
connection that is not open, and there are no more inbound connections than handlers, if and only if every
connection of the run was refused, or dropped by the service. -/
theorem released_iff (hstart : Started s.service) (hrecords : ∀ r ∈ s.service.peers.peers, r.isActive = false)
    (hhandlers : s.handlers = ∅) (events : List ServerEvent) :
    (∀ before rest, events = before ++ rest →
      (∀ a, (serverAfter s before).handlers.contains a = false → Released (serverAfter s before).service a) ∧
      (serverAfter s before).service.peers.inboundCount ≤ (serverAfter s before).handlers.keys.length) ↔
    ∀ ending ∈ endings s events, ending = .refused ∨ ending = .disconnected := by
  have hrun : ∀ (events : List ServerEvent) {s : NodeTCPServer}, Linked s → Tidy s →
      ((∀ before rest, events = before ++ rest → Tidy (serverAfter s before)) ↔
        ∀ ending ∈ endings s events, ending = .refused ∨ ending = .disconnected) := fun events => by
    induction events with
    | nil =>
      intro s _ ht
      refine ⟨fun _ => nofun, fun _ before rest h => ?_⟩
      rw [(List.nil_eq_append_iff.mp h).1]
      exact ht
    | cons event events ih =>
      intro s h ht
      have hadvance := step_advance h event
      rcases hstep : s.step event with ⟨s₁, ending⟩
      rw [hstep] at hadvance
      have hafter : ∀ before, serverAfter s (event :: before) = serverAfter s₁ before := fun before => by
        rw [serverAfter, List.foldl_cons, hstep]
        rfl
      have hendings : endings s (event :: events) = ending.toList ++ endings s₁ events := by rw [endings, hstep]
      simp only [hendings, List.forall_mem_append]
      constructor
      · intro hall
        have hgood : ∀ e, ending = some e → e = .refused ∨ e = .disconnected := fun e he => by
          subst he
          by_contra hbad
          have ht₁ := hall [event] events rfl
          rw [hafter] at ht₁
          exact hadvance.not_tidy hbad ht₁
        have ht₁ := hadvance.tidy h ht hgood
        refine ⟨fun e he => hgood e (Option.mem_toList.mp he), (ih (hadvance.linked h) ht₁).mp fun before rest hb => ?_⟩
        rw [← hafter]
        exact hall (event :: before) rest (by rw [hb]; rfl)
      · rintro ⟨hgood, hrest⟩ before rest hb
        cases before with
        | nil => exact ht
        | cons event' before =>
          rw [List.cons_append, List.cons.injEq] at hb
          rw [← hb.1, hafter]
          have ht₁ := hadvance.tidy h ht fun e he => hgood e (Option.mem_toList.mpr he)
          exact (ih (hadvance.linked h) ht₁).mpr hrest before rest hb.2
  have hnone : ∀ a, s.handlers.contains a = false := fun a => by rw [hhandlers]; rfl
  have hlinked : Linked s := ⟨hstart.serviceOk, fun a ha => by rw [hnone a] at ha; cases ha⟩
  have htidy : Tidy s := fun a _ => released_of hstart.serviceOk (by rw [hstart.sessions]; rfl)
    fun r hr => hrecords r (lookup_eq_some.mp hr).1
  rw [← hrun events hlinked htidy]
  exact ⟨fun h before rest hb => (h before rest hb).1, fun h before rest hb => ⟨h before rest hb, (h before rest hb).inboundCount_le⟩⟩

end

/-- A server on a node that has only its genesis block. -/
def genesisServer : NodeTCPServer where
  service := genesisService
  authKey := [1]
  handlers := ∅
  authKey_ne := by decide

theorem released_genesisServer :
    let _ := aliceVerify
    let _ := decoding [] .null
    (∀ before rest, [ServerEvent.connect ['b', 'o', 'b']] = before ++ rest →
      (∀ a, (serverAfter genesisServer before).handlers.contains a = false →
        Released (serverAfter genesisServer before).service a) ∧
      (serverAfter genesisServer before).service.peers.inboundCount ≤
        (serverAfter genesisServer before).handlers.keys.length) ↔
    ∀ ending ∈ endings genesisServer [.connect ['b', 'o', 'b']], ending = .refused ∨ ending = .disconnected :=
  let _ := aliceVerify
  let _ := decoding [] .null
  released_iff started_genesisService (fun r hr => by cases hr) rfl [.connect ['b', 'o', 'b']]

/-- Bob connects, and closes the connection: his session and his connected record are still there. -/
theorem closed_connection_remains :
    let _ := aliceVerify
    let _ := decoding [] .null
    let events : List ServerEvent := [.connect ['b', 'o', 'b'], .eof ['b', 'o', 'b']]
    endings genesisServer events = [.eof] ∧ (serverAfter genesisServer events).service.sessions.get? ['b', 'o', 'b'] ≠ none ∧
      ¬ (serverAfter genesisServer events).service.peers.inboundCount ≤
        (serverAfter genesisServer events).handlers.keys.length := by
  decide +kernel

end BCC.Proof
