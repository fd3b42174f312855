import BlockchainCoin.Proof.Effects

/-!
# The calls of the service

Every call of `NodeService` is a sequence of turns (`ServiceCall.turns`), and what
every turn keeps holds after any calls (`serviceAfter_induct`). For the calls that begin
and end connections it is also said which turns they take: `Found`, `Served` and
`Penalized` for the parts of `receive`, `Admission` and `Disconnected` for the others.
-/

namespace BCC.Proof

open BCC.Impl PyError NodeService

section

variable [Ed25519] [PyText] {a : Str} {s₀ s : NodeService}

/-! ## Penalties -/

/-- A record with a higher score. -/
def penalized (score : Int) (r : PeerRecord) : PeerRecord := { r with misbehaviorScore := r.misbehaviorScore + score }

/-- What `_penalize_peer` does: nothing to an unknown peer, and otherwise it raises the score, and drops the
connection of a peer that is banned for it. -/
inductive Penalized (a : Str) (score : Int) (s : NodeService) : Except PyError Bool × NodeService → Prop
  | raised {e : PyError} (h : s.peers.lookup a = none ∨ score < 0) : Penalized a score s (.error e, s)
  | scored {old : PeerRecord} (h : s.peers.lookup a = some old) :
    Penalized a score s (.ok false, { s with peers := s.peers.update (penalized score old) })
  | dropped {old r : PeerRecord} (h : s.peers.lookup a = some old) (ha : r.address = a) (hr : r.isBanned = true)
    (hscore : r.misbehaviorScore = old.misbehaviorScore + score) :
    Penalized a score s (.ok true, cleared a { s with peers := s.peers.update r, sessions := s.sessions.erase a })

omit [Ed25519] [PyText] in
theorem penalizePeer_cases (a : Str) (score now : Int) (s : NodeService) :
    Penalized a score s ((penalizePeer a score now).call s) := by
  simp only [penalizePeer, Method.call_bind, onPeers, Method.call_onPart]
  cases hreport : s.peers.reportMisbehavior a score now with
  | error e =>
    rw [Method.call_assigning_of_error hreport]
    refine .raised ?_
    by_contra hcontra
    rw [not_or, Int.not_lt] at hcontra
    obtain ⟨old, hold⟩ := Option.ne_none_iff_exists'.mp hcontra.1
    have hok : ∃ r m, s.peers.reportMisbehavior a score now = .ok (r, m) :=
      ⟨_, _, reportMisbehavior_eq_ok.mpr ⟨hcontra.2, old, hold, rfl, rfl⟩⟩
    obtain ⟨_, _, hok⟩ := hok
    rw [hreport] at hok
    cases hok
  | ok result =>
    obtain ⟨r, m⟩ := result
    rw [Method.call_assigning_of_ok hreport]
    obtain ⟨-, old, hold, hr, rfl⟩ := reportMisbehavior_eq_ok.mp hreport
    have haddress : r.address = a := by
      rw [hr]
      split <;> exact address_of_lookup (r := old) hold
    have hscore : r.misbehaviorScore = old.misbehaviorScore + score := by
      rw [hr]
      split <;> rfl
    cases hbanned : r.isBanned with
    | false =>
      have hr' : r = penalized score old := by
        split at hr
        · rw [hr] at hbanned
          cases hbanned
        · exact hr
      rw [hr'] at hbanned ⊢
      simp only [hbanned, if_true, Method.call_pure]
      exact .scored hold
    | true =>
      simp only [hbanned, Bool.true_eq_false, if_false, Method.call_bind, Method.call_modify, call_clearPeerDownloads,
        Method.call_pure]
      exact .dropped hold haddress hbanned hscore

omit [PyText] in
theorem Penalized.turn {a : Str} {score : Int} {s s' : NodeService} {result : Except PyError Bool}
    (h : Penalized a score s (result, s')) : Relation.ReflTransGen (Turn a) s s' := by
  cases h with
  | raised => exact .refl
  | scored hold => exact .single (.score hold)
  | dropped hold ha hr _ =>
    exact .single (.drop hold ha (by simp [PeerRecord.isActive, of_decide_eq_true (show decide _ = true from hr)]))

/-! ## Receiving -/

/-- What `receive` does for an address that has a session: it works, and then it returns, raises, or penalises the
address. -/
inductive Served (a : Str) (s : NodeService) : Except PyError ServiceResult × NodeService → Prop
  | done {result : ServiceResult} {s' : NodeService} (hs : Relation.ReflTransGen (Work a) s s')
    (h : result.disconnect = false) : Served a s (.ok result, s')
  | raised {e : PyError} {s' : NodeService} (hs : Relation.ReflTransGen (Work a) s s') : Served a s (.error e, s')
  | penalized {result : ServiceResult} {s' s'' : NodeService} (hs : Relation.ReflTransGen (Work a) s s')
    (h : Penalized a 10 s' (.ok result.disconnect, s'')) : Served a s (.ok result, s'')

omit [PyText] in
/-- A penalty, and the result with what it says. -/
theorem served_of_penalizePeer {s₁ : NodeService} (hs : Relation.ReflTransGen (Work a) s s₁) (now : Int)
    {result : Bool → ServiceResult} (hresult : ∀ disconnect, (result disconnect).disconnect = disconnect) :
    Served a s ((do let disconnect ← penalizePeer a 10 now
                    return result disconnect : Method NodeService PyError ServiceResult).call s₁) := by
  have hcases := penalizePeer_cases a 10 now s₁
  rw [Method.call_bind]
  rcases hp : (penalizePeer a 10 now).call s₁ with ⟨e | disconnect, s'⟩
  · rw [hp] at hcases
    cases hcases
    exact .raised hs
  · rw [hp] at hcases
    exact .penalized hs ((hresult disconnect).symm ▸ hcases)

omit [PyText] in
theorem served_of_answered {x : Method NodeService PyError ServiceResult} {s₁ : NodeService} (direct : List PeerMessage)
    (now : Int) (h : Method.EndsBy (Work a) s x s₁ fun result _ => result.disconnect = false) :
    Served a s ((answered a direct now x).call s₁) := by
  rw [Method.EndsBy, Method.Ends] at h
  rw [answered, Method.call_tryCatch]
  rcases hx : x.call s₁ with ⟨e | result, s'⟩
  · rw [hx] at h
    dsimp only
    split
    · exact .done h rfl
    · exact served_of_penalizePeer h now fun _ => rfl
    · exact served_of_penalizePeer h now fun _ => rfl
    · exact served_of_penalizePeer h now fun _ => rfl
    · exact .raised h
  · rw [hx] at h
    exact .done h.1 h.2

/-- `receive`, once the session is found. -/
def receiveFrom (address : Str) (message : PeerMessage) (now : Int) : Method NodeService PyError ServiceResult := do
  let direct ← onSession address (PeerSession.receive message)
  match direct with
  | ⟨.reject, _, _⟩ :: _ => do
    let disconnect ← penalizePeer address 10 now
    return { direct := direct, disconnect := disconnect }
  | _ => answered address direct now (dispatch address message direct now)

omit [Ed25519] [PyText] in
theorem call_onSession {α : Type} {session : PeerSession} (h : s.sessions.get? a = some session) (x : Method PeerSession PyError α) :
    (onSession a x).call s = ((x.call session).1, { s with sessions := s.sessions.set a (x.call session).2 }) := by
  rw [Method.call, onSession, h]

theorem receiveFrom_served (hok : DownloadsOk s) {session : PeerSession} (hsession : s.sessions.get? a = some session)
    (message : PeerMessage) (now : Int) : Served a s ((receiveFrom a message now).call s) := by
  have hstep : Relation.ReflTransGen (Work a) s
      { s with sessions := s.sessions.set a ((PeerSession.receive message).call session).2 } := .single (.session hsession)
  have hcontains : (s.sessions.set a ((PeerSession.receive message).call session).2).contains a = true := by
    rw [Dict.contains, Dict.get?_set_self]
    rfl
  rw [receiveFrom, Method.call_bind, call_onSession hsession]
  generalize (PeerSession.receive message).call session = r at hstep hcontains
  obtain ⟨e | direct, session'⟩ := r
  · exact .raised hstep
  · dsimp only
    split
    · exact served_of_penalizePeer hstep now fun _ => rfl
    · exact served_of_answered _ now (dispatch_endsBy message _ now (hok.work (.session hsession)) hcontains hstep)

/-- What the search for a session leads to: the session that is there, a new one for an address that is connected
now, or none, because the address is banned or invalid or the height of the node cannot be read. -/
inductive Found (a : Str) (s : NodeService) : Except PyError Unit × NodeService → Prop
  | there {session : PeerSession} (h : s.sessions.get? a = some session) : Found a s (.ok (), s)
  | opened {m : PeerAddressManager} {r : PeerRecord} {session : PeerSession} (hnone : s.sessions.get? a = none)
    (hm : Marks a s.peers m) (hr : m.lookup a = some r) (hstate : r.state = .connected)
    (hsession : s.newSession = .ok session) :
    Found a s (.ok (), { s with peers := m, sessions := s.sessions.set a session })
  | refused {m : PeerAddressManager} {text : String} (hnone : s.sessions.get? a = none) (hm : Marks a s.peers m)
    (hr : ∀ r, m.lookup a = some r → r.isBanned = true) :
    Found a s (.error (peerManagerError text), { s with peers := m })
  | failed {m : PeerAddressManager} {e : PyError} (hm : Marks a s.peers m) (he : s.newSession = .error e) :
    Found a s (.error e, { s with peers := m })

omit [Ed25519] [PyText] in
theorem onPeers_ends {α : Type} {x : Method PeerAddressManager PyError α} {Q : α → NodeService → Prop}
    {R : PyError → NodeService → Prop}
    (h : Method.Ends x s.peers (fun r m => Q r { s with peers := m }) fun e m => R e { s with peers := m }) :
    Method.Ends (onPeers x) s Q R := by
  rw [Method.Ends] at h
  rw [Method.Ends, onPeers, Method.call_onPart]
  rcases hx : x.call s.peers with ⟨_ | _, m⟩
  · rw [hx] at h
    exact h
  · rw [hx] at h
    exact h

omit [Ed25519] [PyText] in
theorem openSession_ends {Q : Unit → NodeService → Prop} {R : PyError → NodeService → Prop}
    (hok : ∀ session, s.newSession = .ok session → Q () { s with sessions := s.sessions.set a session })
    (herr : ∀ e, s.newSession = .error e → R e s) : Method.Ends (openSession a) s Q R := by
  refine .assigning (fun u s' h => ?_) fun e h => ?_
  · obtain ⟨session, hsession, h⟩ := bind_eq_ok.mp h
    rw [pure_eq_ok, Prod.mk.injEq] at h
    rw [← h.2]
    exact hok session hsession
  · rcases bind_eq_error.mp h with h | ⟨_, _, h⟩
    · exact herr e h
    · cases h

omit [Ed25519] [PyText] in
theorem sessionFor_there {session : PeerSession} {now : Int} (h : s.sessions.get? a = some session) :
    (sessionFor a now).call s = (.ok (), s) := by
  rw [sessionFor, Method.call_bind, Method.call_get]
  dsimp only
  rw [if_pos (Dict.contains_of_get? h)]
  rfl

omit [Ed25519] [PyText] in
theorem sessionFor_found (a : Str) (now : Int) (s : NodeService) : Found a s ((sessionFor a now).call s) := by
  have key : Method.Ends (sessionFor a now) s (fun u s' => Found a s (.ok u, s')) fun e s' => Found a s (.error e, s') := by
    refine .bind (.get ?_)
    split
    · rename_i hthere
      obtain ⟨session, hsession⟩ := Option.isSome_iff_exists.mp hthere
      exact .pure (.there hsession)
    · rename_i hnone
      have hnone : s.sessions.get? a = none := Option.not_isSome_iff_eq_none.mp hnone
      -- The session is opened for the record that `mark_connected` has returned.
      have hopen : ∀ {m : PeerAddressManager} {r : PeerRecord}, Marks a s.peers m → m.lookup a = some r →
          r.state = .connected → Method.Ends (openSession a) { s with peers := m }
            (fun u s' => Found a s (.ok u, s')) fun e s' => Found a s (.error e, s') := by
        intro m r hm hr hstate
        exact openSession_ends (fun session hsession => .opened hnone hm hr hstate hsession) fun e he => .failed hm he
      refine .bind (.tryCatch (onPeers_ends (markConnected_marks.mono (fun r m h => ?_) fun e m h => ?_)))
      · exact hopen h.1 h.2.1 h.2.2
      · obtain ⟨⟨text, rfl⟩, hm, hbanned⟩ := h
        refine .bind (onPeers_ends (addPeer_marks.mono (fun _ m₁ h₁ => ?_) fun e m₁ h₁ => ?_))
        · refine onPeers_ends (markConnected_marks.mono (fun r m₂ h₂ => ?_) fun e m₂ h₂ => ?_)
          · exact hopen ((hm.trans h₁.1).trans h₂.1) h₂.2.1 h₂.2.2
          · obtain ⟨⟨text', rfl⟩, hm₂, hbanned⟩ := h₂
            exact .refused hnone ((hm.trans h₁.1).trans hm₂) hbanned
        · obtain ⟨⟨text', rfl⟩, rfl⟩ := h₁
          exact .refused hnone hm hbanned
  rw [Method.Ends] at key
  rcases hx : (sessionFor a now).call s with ⟨_ | _, s'⟩
  · rw [hx] at key
    exact key
  · rw [hx] at key
    exact key

theorem receive_eq (a : Str) (message : PeerMessage) (now : Int) (s : NodeService) :
    (receive a message now).call s = match (sessionFor a now).call s with
      | (.ok (), s') => (receiveFrom a message now).call s'
      | (.error (peerManagerError _), s') => (.ok { direct := [rejectMessage "peer banned"], disconnect := true }, s')
      | (.error e, s') => (.error e, s') := by
  rw [receive, Method.call_bind, Method.call_tryCatch, Method.call_bind]
  rcases (sessionFor a now).call s with ⟨e | ⟨⟩, s'⟩
  · cases e <;> rfl
  · rfl

omit [PyText] in
theorem Found.turn {a : Str} {s s' : NodeService} {result : Except PyError Unit} (h : Found a s (result, s')) :
    Relation.ReflTransGen (Turn a) s s' := by
  cases h with
  | there => exact .refl
  | opened _ hm hr hstate _ => exact (Relation.ReflTransGen.single (.mark hm)).tail (.open hr hstate)
  | refused _ hm _ => exact .single (.mark hm)
  | failed hm _ => exact .single (.mark hm)

omit [PyText] in
theorem turn_of_work {a : Str} {s s' : NodeService} (h : Relation.ReflTransGen (Work a) s s') :
    Relation.ReflTransGen (Turn a) s s' :=
  Relation.ReflTransGen.mono (fun _ _ => .work) _ _ h

omit [PyText] in
theorem Served.turn {a : Str} {s s' : NodeService} {r : Except PyError ServiceResult} (h : Served a s (r, s')) :
    Relation.ReflTransGen (Turn a) s s' := by
  cases h with
  | done hs _ => exact turn_of_work hs
  | raised hs => exact turn_of_work hs
  | penalized hs hp => exact (turn_of_work hs).trans hp.turn

omit [PyText] in
theorem DownloadsOk.turns {a : Str} {s s' : NodeService} (h : DownloadsOk s) (hs : Relation.ReflTransGen (Turn a) s s') :
    DownloadsOk s' := by
  induction hs with
  | refl => exact h
  | tail _ hstep ih => exact ih.turn hstep

omit [Ed25519] [PyText] in
theorem Found.session {a : Str} {s s' : NodeService} (h : Found a s (.ok (), s')) :
    ∃ session, s'.sessions.get? a = some session := by
  cases h with
  | there h => exact ⟨_, h⟩
  | opened => exact ⟨_, Dict.get?_set_self _ _ _⟩

/-- `receive` is a sequence of turns. -/
theorem receive_turns (hok : DownloadsOk s) (message : PeerMessage) (now : Int) :
    Relation.ReflTransGen (Turn a) s ((receive a message now).call s).2 := by
  have hfound := sessionFor_found a now s
  rw [receive_eq]
  rcases hx : (sessionFor a now).call s with ⟨e | ⟨⟩, s'⟩
  · rw [hx] at hfound
    cases e <;> exact hfound.turn
  · rw [hx] at hfound
    obtain ⟨session, hsession⟩ := hfound.session
    have hserved := receiveFrom_served (hok.turns hfound.turn) hsession message now
    exact hfound.turn.trans (Served.turn (r := ((receiveFrom a message now).call s').1) hserved)

/-! ## Connecting -/

/-- What `accept_inbound_peer` and the beginning of `connect_peer` lead to. -/
inductive Admission (a : Str) (s : NodeService) : Except PyError Unit × NodeService → Prop
  | opened {m : PeerAddressManager} {r : PeerRecord} {session : PeerSession} (hm : Marks a s.peers m)
    (hr : m.lookup a = some r) (hstate : r.state = .connected) (hsession : s.newSession = .ok session) :
    Admission a s (.ok (), { s with peers := m, sessions := s.sessions.set a session })
  | refused {m : PeerAddressManager} {text : String} (hm : Marks a s.peers m)
    (hr : ∀ r, m.lookup a = some r → r.isActive = true → ∃ old, s.peers.lookup a = some old ∧ old.isActive = true) :
    Admission a s (.error (peerManagerError text), { s with peers := m })
  | failed {m : PeerAddressManager} {e : PyError} (hm : Marks a s.peers m) (he : s.newSession = .error e) :
    Admission a s (.error e, { s with peers := m })

omit [PyText] in
theorem Admission.turn {a : Str} {s s' : NodeService} {r : Except PyError Unit} (h : Admission a s (r, s')) :
    Relation.ReflTransGen (Turn a) s s' := by
  cases h with
  | opened hm hr hstate _ => exact (Relation.ReflTransGen.single (.mark hm)).tail (.open hr hstate)
  | refused hm _ => exact .single (.mark hm)
  | failed hm _ => exact .single (.mark hm)

omit [Ed25519] [PyText] in
theorem of_ends {α : Type} {x : Method NodeService PyError α} {P : Except PyError α × NodeService → Prop}
    (h : Method.Ends x s (fun r s' => P (.ok r, s')) fun e s' => P (.error e, s')) : P (x.call s) := by
  rw [Method.Ends] at h
  rcases hx : x.call s with ⟨_ | _, _⟩
  · rw [hx] at h
    exact h
  · rw [hx] at h
    exact h

omit [Ed25519] [PyText] in
/-- The marks of a new connection, whatever comes after them. -/
theorem marks_ends {α : Type} {now : Int} {inbound : Bool} {x : Method NodeService PyError α}
    {Q : α → NodeService → Prop} {R : PyError → NodeService → Prop}
    (hrefused : ∀ text m, Marks a s.peers m →
      (∀ r, m.lookup a = some r → r.isActive = true → ∃ old, s.peers.lookup a = some old ∧ old.isActive = true) →
      R (peerManagerError text) { s with peers := m })
    (hconnected : ∀ m r, Marks a s.peers m → m.lookup a = some r → r.state = .connected →
      Method.Ends x { s with peers := m } Q R) :
    Method.Ends (do let _ ← onPeers (PeerAddressManager.markConnecting a now inbound)
                    let _ ← onPeers (PeerAddressManager.markConnected a now)
                    x) s Q R := by
  refine .bind (onPeers_ends (markConnecting_marks.mono (fun r₁ m₁ h₁ => ?_) fun e m₁ h₁ => ?_))
  · obtain ⟨hm₁, hr₁, hstate, -⟩ := h₁
    refine .bind (onPeers_ends (markConnected_marks.mono (fun r m h => ?_) fun e m h => ?_))
    · exact hconnected m r (hm₁.trans h.1) h.2.1 h.2.2
    · -- The record is connecting, and so `mark_connected` does not find it banned.
      obtain ⟨⟨text, rfl⟩, hm, hbanned⟩ := h
      obtain ⟨r, hr⟩ := Option.isSome_iff_exists.mp (hm.known (by rw [hr₁]; rfl))
      obtain ⟨old, hold, hban⟩ := hm.banned r hr (of_decide_eq_true (hbanned r hr))
      rw [hr₁, Option.some.injEq] at hold
      rw [← hold, hstate] at hban
      cases hban
  · obtain ⟨⟨text, rfl⟩, hm, hr⟩ := h₁
    exact hrefused text m₁ hm hr

omit [Ed25519] [PyText] in
theorem acceptInboundPeer_admission (a : Str) (now : Int) (s : NodeService) :
    Admission a s ((acceptInboundPeer a now).call s) :=
  of_ends <| marks_ends (fun _ _ hm hr => .refused hm hr) fun _ _ hm hr hstate =>
    openSession_ends (fun _ hsession => .opened hm hr hstate hsession) fun _ he => .failed hm he

omit [PyText] in
theorem connectPeer_turns (a : Str) (now : Int) (inbound : Bool) (s : NodeService) :
    Relation.ReflTransGen (Turn a) s ((connectPeer a now inbound).call s).2 := by
  refine of_ends (P := fun r => Relation.ReflTransGen (Turn a) s r.2) ?_
  refine marks_ends (fun _ _ hm _ => .single (.mark hm)) fun m r hm hr hstate => .bind ?_
  have hmark : Relation.ReflTransGen (Turn a) s { s with peers := m } := .single (.mark hm)
  refine openSession_ends (fun session _ => ?_) fun _ _ => hmark
  have hopen : Relation.ReflTransGen (Turn a) s { s with peers := m, sessions := s.sessions.set a session } :=
    hmark.tail (.open hr hstate)
  have hstart : (onSession a PeerSession.startHandshake).call { s with peers := m, sessions := s.sessions.set a session } =
      (.ok (versionMessage session.network session.height session.nodeId), { s with
        peers := m, sessions := (s.sessions.set a session).set a { session with versionSent := true } }) := by
    rw [Method.call, onSession, Dict.get?_set_self]
    rfl
  exact .of_call hstart (hopen.tail (.work (.session (Dict.get?_set_self _ _ _))))

/-- What `disconnect_peer` does: nothing to an unknown peer, and otherwise it drops the connection. -/
inductive Disconnected (a : Str) (s : NodeService) : Except PyError Unit × NodeService → Prop
  | raised {e : PyError} : Disconnected a s (.error e, s)
  | dropped {old r : PeerRecord} (h : s.peers.lookup a = some old) (ha : r.address = a) (hr : r.isActive = false)
    (hban : r.state = .banned → old.state = .banned) :
    Disconnected a s (.ok (), cleared a { s with peers := s.peers.update r, sessions := s.sessions.erase a })

omit [Ed25519] [PyText] in
theorem disconnectPeer_disconnected (a : Str) (now : Int) (s : NodeService) :
    Disconnected a s ((disconnectPeer a now).call s) := by
  refine of_ends (.bind (onPeers_ends (markDisconnected_marks.mono (fun r m h => ?_) fun e m h => ?_)))
  · obtain ⟨old, hold, ha, hr, hban, rfl⟩ := h
    exact .bind (.modify (.of_call (call_clearPeerDownloads a _) (.dropped hold ha hr hban)))
  · subst h
    exact .raised

omit [PyText] in
theorem disconnectPeer_turns (a : Str) (now : Int) (s : NodeService) :
    Relation.ReflTransGen (Turn a) s ((disconnectPeer a now).call s).2 := by
  have h := disconnectPeer_disconnected a now s
  rcases hx : (disconnectPeer a now).call s with ⟨_, s'⟩
  rw [hx] at h
  cases h with
  | raised => exact .refl
  | dropped hold ha hr _ => exact .single (.drop hold ha hr)

/-! ## Local calls -/

omit [PyText] in
theorem retryExpiredBlockDownloads_works (a : Str) (hok : DownloadsOk s) (now : Int) :
    Relation.ReflTransGen (Work a) s ((retryExpiredBlockDownloads now).call s).2 := by
  have h : Method.EndsBy (Work a) s (retryExpiredBlockDownloads now) s fun _ _ => True := by
    refine .bind (expireBlockDownloads_endsBy hok now .refl) fun expired s₁ hs₁ h₁ => ?_
    refine .bind (retryDownloads_endsBy now expired ∅ (fun d hd => by rw [h₁.1]; exact h₁.2 d hd) hs₁) fun _ s₂ hs₂ _ => ?_
    exact .bind_get (.pure hs₂ trivial)
  exact h.snd

omit [PyText] in
theorem expireBlockDownloads_works (a : Str) (hok : DownloadsOk s) (now : Int) :
    Relation.ReflTransGen (Work a) s ((expireBlockDownloads now).call s).2 :=
  (expireBlockDownloads_endsBy hok now .refl).snd

omit [PyText] in
/-- What `submit_transaction` returns is the txid. -/
theorem txid_of_submitTransaction {n n' : ConsensusNode} {t : ConsensusTransaction} {txid : Str}
    (h : (ConsensusNode.submitTransaction t).call n = (.ok txid, n')) : t.txid = .ok txid := by
  obtain ⟨⟨txid', remaining⟩, n₁, hadmit, h⟩ := Method.call_bind_eq_ok.mp h
  obtain ⟨_, _, -, h⟩ := Method.call_bind_eq_ok.mp h
  obtain ⟨_, _, -, h⟩ := Method.call_bind_eq_ok.mp h
  rw [Method.call_pure, Prod.mk.injEq, Except.ok.injEq] at h
  obtain ⟨txid'', htxid, hadmit⟩ := bind_eq_ok.mp (Method.call_reading_eq_ok.mp hadmit).1
  simp only [bind_eq_ok, exists_unit, pure_eq_ok, Prod.mk.injEq, Prod.exists] at hadmit
  obtain ⟨-, _, -, -, _, _, -, -, rfl, -⟩ := hadmit
  rw [htxid, h.1]

omit [PyText] in
theorem submitLocalTransaction_works (a : Str) (t : ConsensusTransaction) :
    Relation.ReflTransGen (Work a) s ((submitLocalTransaction t).call s).2 := by
  have h : Method.EndsBy (Work a) s (submitLocalTransaction t) s fun _ _ => True := by
    refine .bind (onNode_endsBy (.submitTransaction t) (fun _ => rfl) .refl) fun txid s₁ hs₁ h₁ => ?_
    obtain ⟨n, hn, -⟩ := h₁
    exact .bind_modify (.pure (hs₁.tail (.cacheTransaction (txid_of_submitTransaction hn))) trivial)
  exact h.snd

omit [PyText] in
/-- The block that `mine_block` returns has an encoding: it was written to the store, or read from it. -/
theorem toBytes_of_mineBlock {n n' : ConsensusNode} (h : NodeOk n) {minerAddress : Str} {timestamp : UInt64} {fuel : Nat}
    {stored : StoredConsensusBlock} (hmine : (ConsensusNode.mineBlock minerAddress timestamp fuel).call n = (.ok stored, n')) :
    ∃ raw, stored.block.toBytes = .ok raw := by
  rcases mineBlock_cases n minerAddress timestamp fuel with ⟨e, he⟩ | ⟨b, -, hb⟩
  · rw [he] at hmine
    cases hmine
  · rw [hb] at hmine
    have hi := importBlock_cases h b
    rw [hmine] at hi
    generalize hr : (Except.ok stored, n') = r at hi
    cases hi with
    | refused => cases hr
    | rejected => cases hr
    | @stored hash oldTip stored' n₁ n₂ r hhash _ _ hcall hact =>
      obtain ⟨store, -, hst, -⟩ := (storeCandidate_eq_ok h hhash).mp hcall
      have hstored : stored' = stored := by
        rw [Prod.mk.injEq] at hr
        cases r with
        | error e => cases hr.1
        | ok u => cases hr.1; rfl
      subst hstored
      cases hst with
      | known _ hget =>
        unfold ForkStore.getBlock at hget
        split at hget
        · cases hget
        · obtain ⟨block, hblock, hget⟩ := bind_eq_ok.mp hget
          obtain ⟨raw, -, hraw⟩ := bind_eq_ok.mp hblock
          rw [pure_eq_ok] at hget
          subst hget
          exact ⟨raw, (takes_block.of_run' hraw).1⟩
      | new _ _ hrow _ =>
        obtain ⟨_, -, hrow⟩ := bind_eq_ok.mp hrow
        obtain ⟨payload, hpayload, -⟩ := bind_eq_ok.mp hrow
        obtain ⟨raw, hraw, -⟩ := bind_eq_ok.mp hpayload
        exact ⟨raw, hraw⟩

omit [PyText] in
theorem mineLocalBlock_works (a : Str) (h : NodeOk s.node) (minerAddress : Str) (timestamp : UInt64) (fuel : Nat) :
    Relation.ReflTransGen (Work a) s ((mineLocalBlock minerAddress timestamp fuel).call s).2 := by
  have h : Method.EndsBy (Work a) s (mineLocalBlock minerAddress timestamp fuel) s fun _ _ => True := by
    refine .bind (onNode_endsBy (.mineBlock minerAddress timestamp fuel) (fun _ => rfl) .refl)
      fun stored s₁ hs₁ h₁ => ?_
    obtain ⟨n, hn, -⟩ := h₁
    obtain ⟨raw, hraw⟩ := toBytes_of_mineBlock h hn
    refine .bind_reading hs₁ fun hash hhash => .bind_modify ?_
    exact .bind (cacheTransactions_endsBy _ (hs₁.tail (.cacheBlock hhash hraw))) fun _ _ hs₂ _ => .pure hs₂ trivial
  exact h.snd

/-! ## Runs -/

/-- What can be called on a service; a call of its node is one of `Call`. -/
inductive ServiceCall
  | connectPeer (address : Str) (now : Int) (inbound : Bool)
  | acceptInboundPeer (address : Str) (now : Int)
  | disconnectPeer (address : Str) (now : Int)
  | receive (address : Str) (message : PeerMessage) (now : Int)
  | expireBlockDownloads (now : Int)
  | retryExpiredBlockDownloads (now : Int)
  | syncProgress (address : Str)
  | submitLocalTransaction (transaction : ConsensusTransaction)
  | mineLocalBlock (minerAddress : Str) (timestamp : UInt64) (fuel : Nat)
  | node (call : Call)

/-- The service after a call, whether it returns or raises. -/
def ServiceCall.apply (s : NodeService) : ServiceCall → NodeService
  | connectPeer address now inbound => ((NodeService.connectPeer address now inbound).call s).2
  | acceptInboundPeer address now => ((NodeService.acceptInboundPeer address now).call s).2
  | disconnectPeer address now => ((NodeService.disconnectPeer address now).call s).2
  | receive address message now => ((NodeService.receive address message now).call s).2
  | expireBlockDownloads now => ((NodeService.expireBlockDownloads now).call s).2
  | retryExpiredBlockDownloads now => ((NodeService.retryExpiredBlockDownloads now).call s).2
  | syncProgress address => ((NodeService.progressFor address).call s).2
  | submitLocalTransaction t => ((NodeService.submitLocalTransaction t).call s).2
  | mineLocalBlock minerAddress timestamp fuel => ((NodeService.mineLocalBlock minerAddress timestamp fuel).call s).2
  | node call =>
    match World.step (.up s.node) call with
    | .up n => { s with node := n }
    | .down _ => s

/-- The address a call is about. -/
def ServiceCall.address : ServiceCall → Str
  | connectPeer address _ _ | acceptInboundPeer address _ | disconnectPeer address _ | receive address _ _ => address
  | _ => []

theorem ServiceCall.turns (hok : DownloadsOk s) (hnode : NodeOk s.node) (call : ServiceCall) :
    Relation.ReflTransGen (Turn call.address) s (call.apply s) := by
  cases call with
  | connectPeer address now inbound => exact connectPeer_turns address now inbound s
  | acceptInboundPeer address now =>
    have h := acceptInboundPeer_admission address now s
    exact Admission.turn (r := ((NodeService.acceptInboundPeer address now).call s).1) h
  | disconnectPeer address now => exact disconnectPeer_turns address now s
  | receive address message now => exact receive_turns hok message now
  | expireBlockDownloads now => exact turn_of_work (expireBlockDownloads_works _ hok now)
  | retryExpiredBlockDownloads now => exact turn_of_work (retryExpiredBlockDownloads_works _ hok now)
  | syncProgress address => exact .single (.work (.load address))
  | submitLocalTransaction t => exact turn_of_work (submitLocalTransaction_works _ t)
  | mineLocalBlock minerAddress timestamp fuel => exact turn_of_work (mineLocalBlock_works _ hnode minerAddress timestamp fuel)
  | node call =>
    cases hw : World.step (.up s.node) call with
    | up n =>
      simp only [ServiceCall.apply, hw]
      exact .single (.work (.node hw))
    | down d =>
      simp only [ServiceCall.apply, hw]
      exact .refl

/-- A service as its constructor leaves it, on a node that calls have led to. -/
structure Started (s : NodeService) : Prop where
  node : ∃ calls, World.after calls = .up s.node
  sessions : s.sessions = ∅
  transactions : s.transactions = ∅
  blocks : s.blocks = ∅
  inFlightBlocks : s.inFlightBlocks = ∅
  peerSync : s.peerSync = ∅

/-- The states that calls lead to. -/
def serviceAfter (s : NodeService) (calls : List ServiceCall) : NodeService := calls.foldl ServiceCall.apply s

/-- The node of the service is one that calls have led to. -/
def NodeReached (s : NodeService) : Prop := ∃ calls, World.after calls = .up s.node

omit [PyText] in
theorem NodeReached.nodeOk (h : NodeReached s) : NodeOk s.node := by
  obtain ⟨calls, hcalls⟩ := h
  exact nodeOk_after hcalls

omit [PyText] in
theorem NodeReached.work {a : Str} {s' : NodeService} (h : NodeReached s) (hs : Work a s s') : NodeReached s' := by
  cases hs with
  | @node call n hn =>
    obtain ⟨calls, hcalls⟩ := h
    exact ⟨calls ++ [call], by rw [World.after, List.foldl_append]; exact (congrArg (World.step · call) hcalls).trans hn⟩
  | load address =>
    unfold withProgress
    split <;> exact h
  | cacheTransaction | cacheBlock | request | resolve | session => exact h

omit [PyText] in
theorem NodeReached.turn {a : Str} {s' : NodeService} (h : NodeReached s) (hs : Turn a s s') : NodeReached s' := by
  cases hs with
  | work hs => exact h.work hs
  | drop =>
    unfold NodeReached
    rw [cleared_node]
    exact h
  | mark | «open» | score => exact h

/-- What every state of a run has: an orderly node, and orderly downloads. -/
structure ServiceOk (s : NodeService) : Prop where
  node : NodeReached s
  downloads : DownloadsOk s

omit [PyText] in
theorem ServiceOk.turn {a : Str} {s' : NodeService} (h : ServiceOk s) (hs : Turn a s s') : ServiceOk s' :=
  ⟨h.node.turn hs, h.downloads.turn hs⟩

omit [PyText] in
theorem Started.serviceOk (h : Started s) : ServiceOk s := by
  refine ⟨h.node, fun hd => ?_, fun hd => ?_, fun address => ?_⟩
  · rw [h.inFlightBlocks] at hd
    cases hd
  · rw [h.inFlightBlocks] at hd
    cases hd
  · rw [NodeService.inFlightCount, h.inFlightBlocks]
    exact Nat.zero_le _

/-- What every turn keeps is kept by every call. -/
theorem ServiceOk.apply {P : NodeService → Prop} (h : ServiceOk s) (hs : P s)
    (hturn : ∀ {a s s'}, ServiceOk s → P s → Turn a s s' → P s') (call : ServiceCall) :
    ServiceOk (call.apply s) ∧ P (call.apply s) := by
  have hrun : ∀ s', Relation.ReflTransGen (Turn call.address) s s' → ServiceOk s' ∧ P s' := fun s' hrun => by
    induction hrun with
    | refl => exact ⟨h, hs⟩
    | tail _ hstep ih => exact ⟨ih.1.turn hstep, hturn ih.1 ih.2 hstep⟩
  exact hrun _ (call.turns h.downloads h.node.nodeOk)

/-- What holds of a service that has been started, and is kept by every turn, holds after every sequence of calls. -/
theorem serviceAfter_induct {P : NodeService → Prop} (hstart : Started s) (hs : P s)
    (hturn : ∀ {a s s'}, ServiceOk s → P s → Turn a s s' → P s') (calls : List ServiceCall) :
    ServiceOk (serviceAfter s calls) ∧ P (serviceAfter s calls) := by
  have hrun : ∀ (calls : List ServiceCall) {s : NodeService}, ServiceOk s ∧ P s →
      ServiceOk (serviceAfter s calls) ∧ P (serviceAfter s calls) := fun calls => by
    induction calls with
    | nil => exact id
    | cons call calls ih => exact fun h => ih (h.1.apply h.2 hturn call)
  exact hrun calls ⟨hstart.serviceOk, hs⟩

end

/-- A new service on a node that has only its genesis block. -/
def genesisService : NodeService where
  node := genesisNode
  network := ['m', 'a', 'i', 'n']
  nodeId := ['n', '1']

theorem started_genesisService : @Started aliceVerify genesisService :=
  let _ := aliceVerify
  ⟨⟨_, created_genesisNode⟩, rfl, rfl, rfl, rfl, rfl⟩

end BCC.Proof
