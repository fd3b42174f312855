import BlockchainCoin.Proof.Calls
import BlockchainCoin.Proof.Handshake

/-!
# Connection limits

The address book of a service is changed by its own methods and by the calls of the
service. `mark_connected` checks no limit, and neither do the changes of direction of
an open connection, in `add_peer` and `mark_connecting`: where these find room
(`Fits`), no direction ever has more open connections than its limit (`limits_kept`).
-/

namespace BCC.Proof

open BCC.Impl PyError NodeService

/-! ## The methods of the address book -/

section

variable {a : Str} {m : PeerAddressManager} {now : Int} {inbound : Bool}

/-- After `mark_connecting`, the connection is open, and `mark_connected` opens no other. -/
theorem markConnecting_fits (hw : Within m) (hfits : ConnectingFits a inbound m) :
    Method.Ends (PeerAddressManager.markConnecting a now inbound) m (fun _ m' => Within m' ∧ ConnectedFits a now m')
      fun _ => Within := by
  refine ((markConnecting_within hw hfits).and markConnecting_marks).mono (fun r m' h => ⟨h.1, fun r' hr' _ hactive => ?_⟩)
    fun _ _ h => h.1
  obtain ⟨-, -, hr, hstate, -⟩ := h
  rw [hr, Option.some.injEq] at hr'
  rw [← hr', PeerRecord.isActive, hstate] at hactive
  cases hactive

/-- A ban that `_clear_expired_ban` has left in place is left in place again. -/
theorem banned_of_touched {r : PeerRecord} (h : (r.clearExpiredBan now).isBanned = true) :
    ((touched now false (r.clearExpiredBan now)).clearExpiredBan now).isBanned = true := by
  have hkept : r.clearExpiredBan now = r := by
    unfold PeerRecord.clearExpiredBan at h ⊢
    split at h
    · cases h
    · rename_i hnot
      exact if_neg hnot
  rw [hkept] at h ⊢
  have hlasts : ¬ (r.state = .banned ∧ r.bannedUntil ≤ now) := fun hnot => by
    rw [PeerRecord.clearExpiredBan, if_pos hnot] at hkept
    rw [← hkept] at h
    cases h
  have htouched : (touched now false r).clearExpiredBan now = touched now false r := if_neg hlasts
  rw [htouched]
  exact h

/-- `_session_for` marks a known address connected, and adds an unknown one as an outbound connection. -/
def ReceiveFits (a : Str) (now : Int) (m : PeerAddressManager) : Prop :=
  ConnectedFits a now m ∧
    (PeerAddressManager.validateAddress a = .ok () → m.lookup a = none → RoomFor m false)

/-- `mark_connected`, with `add_peer` where that fails: the marks of `_session_for`. -/
theorem markConnected_or_add (hw : Within m) (hfits : ReceiveFits a now m) :
    Method.Ends (PeerAddressManager.markConnected a now) m (fun _ => Within) fun e m' =>
      (∃ text, e = peerManagerError text) ∧ Method.Ends (PeerAddressManager.addPeer a now false) m'
        (fun _ m'' => Within m'' ∧ ConnectedFits a now m'') fun _ => Within := by
  refine ((markConnected_within hw hfits.1).and (markConnected_ends (Q := fun _ _ => True) (fun hnone => ?_)
    (fun r hr hbanned => ?_) fun _ _ _ => trivial)).mono (fun _ _ h => h.1) fun _ _ h => h.2
  · refine ⟨⟨_, rfl⟩, addPeer_ends (fun _ _ => hw) (fun r hr => ?_) fun hvalid _ => ⟨hw.insert hnone rfl, ?_⟩⟩
    · rw [hnone] at hr
      cases hr
    · intro r hr _ _
      rw [lookup_insert hnone, if_pos rfl, Option.some.injEq] at hr
      subst hr
      have hlimit : (m.insert { address := a, lastSeen := now }).limit false = m.limit false := by
        unfold PeerAddressManager.insert
        split <;> rfl
      rw [RoomFor, hlimit, activeCount_insert hnone]
      exact hfits.2 hvalid hnone
  · have haddress : (r.clearExpiredBan now).address = a := (clearExpiredBan_address r now).trans (address_of_lookup hr)
    have hupdate : (m.update (r.clearExpiredBan now)).lookup (r.clearExpiredBan now).address = some (r.clearExpiredBan now) :=
      lookup_update_self (o := r) (haddress ▸ hr)
    rw [haddress] at hupdate
    have hcleared := hw.clearExpiredBan hr now
    refine ⟨⟨_, rfl⟩, addPeer_ends (fun _ _ => hcleared) (fun r' hr' => ?_) fun _ hnone => ?_⟩
    · rw [hupdate, Option.some.injEq] at hr'
      subst hr'
      refine ⟨hcleared.touched hupdate fun _ _ _ _ h => absurd h Bool.false_ne_true, fun r' hr' hb _ => ?_⟩
      have htouched : ((m.update (r.clearExpiredBan now)).update (touched now false (r.clearExpiredBan now))).lookup
          (touched now false (r.clearExpiredBan now)).address = some (touched now false (r.clearExpiredBan now)) :=
        lookup_update_self (o := r.clearExpiredBan now) (haddress.symm ▸ hupdate)
      have hsame : (touched now false (r.clearExpiredBan now)).address = a := haddress
      rw [hsame, hr', Option.some.injEq] at htouched
      rw [htouched, banned_of_touched hbanned] at hb
      cases hb
    · rw [hupdate] at hnone
      cases hnone

/-- What can be called on an address book. -/
inductive BookCall
  | addPeer (address : Str) (now : Int) (inbound : Bool)
  | markConnecting (address : Str) (now : Int) (inbound : Bool)
  | markConnected (address : Str) (now : Int)
  | markDisconnected (address : Str) (now : Int)
  | markFailure (address : Str) (now : Int)
  | reportMisbehavior (address : Str) (score now : Int)
  | banPeer (address : Str) (now : Int)
  | eligibleOutbound (now : Int)

/-- The book after a call, whether it returns or raises. -/
def BookCall.apply (m : PeerAddressManager) : BookCall → PeerAddressManager
  | addPeer address now inbound => ((PeerAddressManager.addPeer address now inbound).call m).2
  | markConnecting address now inbound => ((PeerAddressManager.markConnecting address now inbound).call m).2
  | markConnected address now => ((PeerAddressManager.markConnected address now).call m).2
  | markDisconnected address now => ((PeerAddressManager.markDisconnected address now).call m).2
  | markFailure address now => ((PeerAddressManager.markFailure address now).call m).2
  | reportMisbehavior address score now =>
    match m.reportMisbehavior address score now with
    | .ok (_, m') => m'
    | .error _ => m
  | banPeer address now =>
    match m.banPeer address now with
    | .ok (_, m') => m'
    | .error _ => m
  | eligibleOutbound now => ((PeerAddressManager.eligibleOutbound now).call m).2

/-- A call opens a connection, or changes the direction of one, only where there is room. -/
def BookCall.Fits (m : PeerAddressManager) : BookCall → Prop
  | addPeer address _ inbound => AddFits address inbound m
  | markConnecting address _ inbound => ConnectingFits address inbound m
  | markConnected address now => ConnectedFits address now m
  | _ => True

theorem BookCall.within (hw : Within m) (call : BookCall) (hfits : call.Fits m) : Within (call.apply m) := by
  cases call with
  | addPeer => exact (addPeer_within hw hfits).snd
  | markConnecting => exact (markConnecting_within hw hfits).snd
  | markConnected => exact (markConnected_within hw hfits).snd
  | markDisconnected => exact (markDisconnected_within hw).snd
  | markFailure => exact (markFailure_within hw).snd
  | reportMisbehavior address score now =>
    simp only [BookCall.apply]
    split
    · rename_i h
      exact reportMisbehavior_within hw h
    · exact hw
  | banPeer address now =>
    simp only [BookCall.apply]
    split
    · rename_i h
      exact banPeer_within hw h
    · exact hw
  | eligibleOutbound => exact (eligibleOutbound_within hw).snd

end

/-! ## The calls of the service -/

section

variable [Ed25519] {a : Str} {s : NodeService} {now : Int}

omit [Ed25519] in
theorem openSession_within (hw : Within s.peers) :
    Method.Ends (openSession a) s (fun _ s' => Within s'.peers) fun _ s' => Within s'.peers :=
  openSession_ends (fun _ _ => hw) fun _ _ => hw

omit [Ed25519] in
theorem sessionFor_within (hw : Within s.peers) (hfits : s.sessions.get? a = none → ReceiveFits a now s.peers) :
    Method.Ends (sessionFor a now) s (fun _ s' => Within s'.peers) fun _ s' => Within s'.peers := by
  refine .bind (.get ?_)
  split
  · exact .pure hw
  · rename_i hnone
    have hfits := hfits (Option.not_isSome_iff_eq_none.mp hnone)
    refine .bind (.tryCatch (onPeers_ends ((markConnected_or_add hw hfits).mono (fun _ _ h => openSession_within h)
      fun e m he => ?_)))
    obtain ⟨⟨text, rfl⟩, hadd⟩ := he
    refine .bind (onPeers_ends (hadd.mono (fun _ _ h => ?_) fun _ _ h => h))
    exact onPeers_ends ((markConnected_within h.1 h.2).mono (fun _ _ h => openSession_within h) fun _ _ h => h)

omit [Ed25519] in
/-- The marks of a new connection, and what comes after them, where that leaves the address book as it is. -/
theorem marks_within {α : Type} {inbound : Bool} {x : Method NodeService PyError α} (hw : Within s.peers)
    (hfits : ConnectingFits a inbound s.peers)
    (hx : ∀ m, Within m → Method.Ends x { s with peers := m } (fun _ s' => Within s'.peers) fun _ s' => Within s'.peers) :
    Within ((do let _ ← onPeers (PeerAddressManager.markConnecting a now inbound)
                let _ ← onPeers (PeerAddressManager.markConnected a now)
                x : Method NodeService PyError α).call s).2.peers := by
  refine Method.Ends.snd (P := fun s' : NodeService => Within s'.peers) (.bind (onPeers_ends ((markConnecting_fits hw hfits).mono
    (fun _ m h => ?_) fun _ _ h => h)))
  exact .bind (onPeers_ends ((markConnected_within h.1 h.2).mono (fun _ m h => hx m h) fun _ _ h => h))

omit [Ed25519] in
theorem peers_onSession {α : Type} (x : Method PeerSession PyError α) (s : NodeService) :
    ((onSession a x).call s).2.peers = s.peers := by
  rw [Method.call, onSession]
  split <;> rfl

theorem Work.peers {s' : NodeService} (h : Work a s s') : s'.peers = s.peers := by
  cases h with
  | load address =>
    unfold withProgress
    split <;> rfl
  | node | cacheTransaction | cacheBlock | request | resolve | session => rfl

theorem peers_of_works {s' : NodeService} (h : Relation.ReflTransGen (Work a) s s') : s'.peers = s.peers := by
  induction h with
  | refl => rfl
  | tail _ hstep ih => exact hstep.peers.trans ih

omit [Ed25519] in
theorem Penalized.within {score : Int} {s' : NodeService} {result : Except PyError Bool}
    (h : Penalized a score s (result, s')) (hw : Within s.peers) : Within s'.peers := by
  cases h with
  | raised => exact hw
  | @scored old hold =>
    refine hw.update_of_not_counted (o := old) ?_ fun _ hd => hd
    show s.peers.lookup old.address = _
    rw [address_of_lookup hold]
    exact hold
  | dropped hold ha hr _ =>
    rw [cleared_peers]
    exact hw.close (ha.symm ▸ hold) (by simp [PeerRecord.isActive, of_decide_eq_true (show decide _ = true from hr)])

theorem Served.within {s' : NodeService} {r : Except PyError ServiceResult} (h : Served a s (r, s'))
    (hw : Within s.peers) : Within s'.peers := by
  cases h with
  | done hs _ => exact (peers_of_works hs).symm ▸ hw
  | raised hs => exact (peers_of_works hs).symm ▸ hw
  | penalized hs hp => exact hp.within ((peers_of_works hs).symm ▸ hw)

variable [PyText]

theorem receive_within (hok : DownloadsOk s) (hw : Within s.peers) (message : PeerMessage)
    (hfits : s.sessions.get? a = none → ReceiveFits a now s.peers) :
    Within ((NodeService.receive a message now).call s).2.peers := by
  have hfound := sessionFor_found a now s
  have hwithin := (sessionFor_within hw hfits).snd (P := fun s' : NodeService => Within s'.peers)
  rw [receive_eq]
  rcases hx : (sessionFor a now).call s with ⟨e | ⟨⟩, s'⟩
  · rw [hx] at hwithin
    cases e <;> exact hwithin
  · rw [hx] at hfound hwithin
    obtain ⟨session, hsession⟩ := hfound.session
    have hserved := receiveFrom_served (hok.turns hfound.turn) hsession message now
    exact Served.within (r := ((receiveFrom a message now).call s').1) hserved hwithin

/-- A call opens a connection, or changes the direction of one, only where there is room. -/
def ServiceCall.Fits (s : NodeService) : ServiceCall → Prop
  | connectPeer address _ inbound => ConnectingFits address inbound s.peers
  | acceptInboundPeer address _ => ConnectingFits address true s.peers
  | receive address _ now => s.sessions.get? address = none → ReceiveFits address now s.peers
  | _ => True

theorem ServiceCall.within (hok : ServiceOk s) (hw : Within s.peers) (call : ServiceCall) (hfits : call.Fits s) :
    Within (call.apply s).peers := by
  have hworks : ∀ {s' : NodeService}, Relation.ReflTransGen (Work []) s s' → Within s'.peers := fun hs => (peers_of_works hs).symm ▸ hw
  cases call with
  | connectPeer address now inbound =>
    refine marks_within hw hfits fun m hm => .bind (openSession_ends (fun session _ => ?_) fun _ _ => hm)
    refine .of_snd (P := fun s' : NodeService => Within s'.peers) ?_
    rw [peers_onSession]
    exact hm
  | acceptInboundPeer address now => exact marks_within hw hfits fun m hm => openSession_within hm
  | disconnectPeer address now =>
    have h := disconnectPeer_disconnected address now s
    generalize hx : (NodeService.disconnectPeer address now).call s = r at h
    rw [ServiceCall.apply, hx]
    cases h with
    | raised => exact hw
    | dropped hold ha hr _ =>
      rw [cleared_peers]
      exact hw.close (ha.symm ▸ hold) hr
  | receive address message now => exact receive_within hok.downloads hw message hfits
  | expireBlockDownloads now => exact hworks (expireBlockDownloads_works _ hok.downloads now)
  | retryExpiredBlockDownloads now => exact hworks (retryExpiredBlockDownloads_works _ hok.downloads now)
  | syncProgress address => exact hworks (.single (.load address))
  | submitLocalTransaction t => exact hworks (submitLocalTransaction_works _ t)
  | mineLocalBlock minerAddress timestamp fuel => exact hworks (mineLocalBlock_works _ hok.node.nodeOk minerAddress timestamp fuel)
  | node call =>
    cases hs : World.step (.up s.node) call <;> simpa only [ServiceCall.apply, hs] using hw

/-! ## Runs -/

/-- What can be called on a service and on its address book. -/
inductive SharedCall
  | book (call : BookCall)
  | service (call : ServiceCall)

def SharedCall.apply (s : NodeService) : SharedCall → NodeService
  | book call => { s with peers := call.apply s.peers }
  | service call => call.apply s

def SharedCall.Fits (s : NodeService) : SharedCall → Prop
  | book call => call.Fits s.peers
  | service call => call.Fits s

/-- The state that calls lead to. -/
def sharedAfter (s : NodeService) (calls : List SharedCall) : NodeService := calls.foldl SharedCall.apply s

/-- Every call of a run finds the room it needs. -/
def AllFit : NodeService → List SharedCall → Prop
  | _, [] => True
  | s, call :: calls => call.Fits s ∧ AllFit (call.apply s) calls

theorem SharedCall.within (hok : ServiceOk s) (hw : Within s.peers) (call : SharedCall) (hfits : call.Fits s) :
    ServiceOk (call.apply s) ∧ Within (call.apply s).peers := by
  cases call with
  | book call => exact ⟨⟨hok.node, hok.downloads.congr ⟨rfl, rfl, rfl⟩⟩, call.within hw hfits⟩
  | service call => exact ⟨(hok.apply (P := fun _ => True) trivial (fun _ _ _ => trivial) call).1, call.within hok hw hfits⟩

/-- Over any calls of a service and of its address book that find the room they need, there are never more outbound
or inbound connections than their limits. -/
theorem limits_kept (hstart : Started s) (hw : Within s.peers) (calls : List SharedCall) (hfits : AllFit s calls)
    {before rest : List SharedCall} (hcalls : calls = before ++ rest) :
    ((sharedAfter s before).peers.outboundCount : Int) ≤ (sharedAfter s before).peers.maxOutbound ∧
      ((sharedAfter s before).peers.inboundCount : Int) ≤ (sharedAfter s before).peers.maxInbound := by
  have hrun : ∀ (before : List SharedCall) {s : NodeService}, ServiceOk s → Within s.peers → AllFit s (before ++ rest) →
      Within (sharedAfter s before).peers := fun before => by
    induction before with
    | nil => exact fun _ hw _ => hw
    | cons call before ih =>
      intro s hok hw hfits
      have hcall := call.within hok hw hfits.1
      exact ih hcall.1 hcall.2 hfits.2
  subst hcalls
  have hwithin := hrun before hstart.serviceOk hw hfits
  exact ⟨hwithin false, hwithin true⟩

end

/-- An address is heard of, and then connected. -/
def connectBob : List SharedCall := [.book (.addPeer ['b', 'o', 'b'] 0 false), .book (.markConnected ['b', 'o', 'b'] 0)]

theorem limits_kept_bob :
    let _ := aliceVerify
    let _ := decoding [] .null
    let s := sharedAfter genesisService connectBob
    (s.peers.outboundCount : Int) ≤ s.peers.maxOutbound ∧ (s.peers.inboundCount : Int) ≤ s.peers.maxInbound :=
  let _ := aliceVerify
  let _ := decoding [] .null
  limits_kept started_genesisService (fun d => by cases d <;> decide) connectBob
    ⟨(fun _ hr => nomatch (hr : none = some _)), (fun r hr _ _ => by
      have hr : some { address := ['b', 'o', 'b'], lastSeen := 0 } = some r := hr
      cases hr
      show (0 : Int) < 8
      decide), trivial⟩ (List.append_nil _).symm

/-- An address book for one outbound connection. -/
def smallBook : PeerAddressManager :=
  { PeerAddressManager.empty with maxOutbound := 1, maxOutbound_nonneg := Int.one_nonneg }

/-- Two addresses are heard of, and both are connected. -/
def connectBoth : List BookCall :=
  [.addPeer ['b', 'o', 'b'] 0 false, .addPeer ['e', 'v', 'e'] 0 false, .markConnected ['b', 'o', 'b'] 0,
    .markConnected ['e', 'v', 'e'] 0]

/-- `mark_connected` opens a second outbound connection where the limit is one. -/
theorem smallBook_exceeds :
    ¬ ((connectBoth.foldl BookCall.apply smallBook).outboundCount : Int) ≤
      (connectBoth.foldl BookCall.apply smallBook).maxOutbound := by
  decide

end BCC.Proof
