import BlockchainCoin.Proof.Calls
import BlockchainCoin.Proof.Handshake

/-!
# Banned peers

A banned address never has a session (`Unheard`): a ban drops the session, and none is
opened but for an address that is connected. As long as its ban lasts, what it sends is
answered with a REJECT and changes nothing but its own record.
-/

namespace BCC.Proof

open BCC.Impl PyError NodeService

/-! ## The ban in the address book -/

section

variable {m : PeerAddressManager} {r : PeerRecord} {a : Str} {now : Int}

/-- A record whose ban lasts. -/
structure BanLasts (m : PeerAddressManager) (a : Str) (now : Int) (r : PeerRecord) : Prop where
  lookup : m.lookup a = some r
  state : r.state = .banned
  until_gt : now < r.bannedUntil

theorem clearExpiredBan_of_lasts (hlasts : now < r.bannedUntil) :
    r.clearExpiredBan now = r := if_neg fun h => absurd h.2 (by omega)

theorem BanLasts.markConnected (h : BanLasts m a now r) : Method.Ends (PeerAddressManager.markConnected a now) m
    (fun _ _ => False) fun e m' => (∃ text, e = peerManagerError text) ∧ m' = m := by
  have hclear := clearExpiredBan_of_lasts h.until_gt
  have hlookup : ∀ r', m.lookup a = some r' → r' = r := fun r' hr' => by
    rw [h.lookup, Option.some.injEq] at hr'
    exact hr'.symm
  refine markConnected_ends (fun _ => ⟨⟨_, rfl⟩, rfl⟩) (fun r' hr' _ => ⟨⟨_, rfl⟩, ?_⟩) fun r' hr' hb => ?_
  · rw [hlookup r' hr', hclear]
    exact update_self h.lookup
  · rw [hlookup r' hr', hclear, PeerRecord.isBanned, h.state] at hb
    cases hb

theorem BanLasts.addPeer (h : BanLasts m a now r) (inbound : Bool) :
    Method.Ends (PeerAddressManager.addPeer a now inbound) m (fun r' m' => BanLasts m' a now r')
      fun e _ => ∃ text, e = peerManagerError text := by
  refine addPeer_ends (fun e he => validateAddress_raises e he) (fun r' hr' => ?_) fun _ hr' => ?_
  · rw [h.lookup, Option.some.injEq] at hr'
    subst hr'
    have haddress : (touched now inbound r).address = a := address_of_lookup (r := r) h.lookup
    refine ⟨?_, h.state, h.until_gt⟩
    rw [← haddress]
    exact lookup_update_self (o := r) (by rw [haddress]; exact h.lookup)
  · rw [h.lookup] at hr'
    cases hr'

theorem BanLasts.markConnecting (h : BanLasts m a now r) (inbound : Bool) :
    Method.Ends (PeerAddressManager.markConnecting a now inbound) m (fun _ _ => False) fun _ _ => True := by
  refine markConnecting_ends ((h.addPeer inbound).mono (fun r' m' h' => ⟨fun _ => trivial, fun hb _ => ?_⟩)
    fun _ _ _ => trivial)
  rw [clearExpiredBan_of_lasts h'.until_gt, PeerRecord.isBanned, h'.state] at hb
  cases hb

end

/-! ## The invariant -/

section

variable [Ed25519] {a : Str} {s s' : NodeService}

/-- No banned address has a session. -/
def Unheard (s : NodeService) : Prop :=
  ∀ address r, s.peers.lookup address = some r → r.state = .banned → s.sessions.get? address = none

theorem Unheard.turn (h : Unheard s) (hs : Turn a s s') : Unheard s' := by
  cases hs with
  | work hs =>
    cases hs with
    | node | cacheTransaction | cacheBlock | request | resolve => exact h
    | load address =>
      unfold withProgress
      split <;> exact h
    | @session old new hold =>
      intro address r hr hb
      have hnone : s.sessions.get? address = none := h address r hr hb
      have hne : address ≠ a := fun he => by rw [he, hold] at hnone; cases hnone
      exact (Dict.get?_set_of_ne _ _ hne).trans hnone
  | @mark m hm =>
    intro address r hr hb
    by_cases ha : address = a
    · subst ha
      obtain ⟨old, hold, hban⟩ := hm.banned r hr hb
      exact h address old hold hban
    · exact h address r ((hm.others address ha).symm.trans hr) hb
  | @«open» record session hrecord hstate =>
    intro address r hr hb
    have hne : address ≠ a := fun he => by
      rw [he] at hr
      have hr : s.peers.lookup a = some r := hr
      rw [hrecord, Option.some.injEq] at hr
      rw [← hr, hstate] at hb
      cases hb
    exact (Dict.get?_set_of_ne _ _ hne).trans (h address r hr hb)
  | @score old score hold =>
    intro address r hr hb
    have hupdate : s.peers.lookup ({ old with misbehaviorScore := score } : PeerRecord).address = some old := by
      show s.peers.lookup old.address = _
      rw [address_of_lookup hold]
      exact hold
    have hr : (s.peers.update { old with misbehaviorScore := score }).lookup address = some r := hr
    rw [lookup_update hupdate] at hr
    split at hr
    · rename_i ha
      cases hr
      exact h address old (by rw [ha]; exact hupdate) hb
    · exact h address r hr hb
  | @drop old r hold ha hr =>
    intro address r' hr' hb
    rw [cleared_peers, lookup_update (o := old) (by rw [ha]; exact hold), ha] at hr'
    rw [cleared_sessions, Dict.get?_erase]
    split
    · rfl
    · rename_i hne
      rw [if_neg hne] at hr'
      exact h address r' hr' hb

/-! ## What a banned address can do -/

omit [Ed25519] in
/-- The search for a session of a banned address fails, and changes only the address book. -/
theorem sessionFor_banned {r : PeerRecord} {now : Int} (h : BanLasts s.peers a now r) (hnone : s.sessions.get? a = none) :
    Method.Ends (sessionFor a now) s (fun _ _ => False)
      fun e s' => (∃ text, e = peerManagerError text) ∧ ∃ m, s' = { s with peers := m } := by
  refine .bind (.get ?_)
  rw [if_neg (by rw [Dict.contains, hnone]; exact Bool.false_ne_true)]
  refine .bind (.tryCatch (onPeers_ends (h.markConnected.mono (fun _ _ => False.elim) fun e m he => ?_)))
  obtain ⟨⟨text, rfl⟩, rfl⟩ := he
  refine .bind (onPeers_ends ((h.addPeer false).mono (fun r' m' h' => ?_) fun e m' he => ⟨he, m', rfl⟩))
  refine onPeers_ends (h'.markConnected.mono (fun _ _ => False.elim) fun e m'' he => ?_)
  obtain ⟨htext, rfl⟩ := he
  exact ⟨htext, m'', rfl⟩

omit [Ed25519] in
/-- The marks of a new connection fail for a banned address, and change only the address book. -/
theorem marks_banned {α : Type} {r : PeerRecord} {now : Int} (h : BanLasts s.peers a now r) (inbound : Bool)
    (x : PeerRecord → Method NodeService PyError α) :
    Method.Ends (do let record ← onPeers (PeerAddressManager.markConnecting a now inbound)
                    x record) s (fun _ _ => False) fun _ s' => ∃ m, s' = { s with peers := m } :=
  .bind (onPeers_ends ((h.markConnecting inbound).mono (fun _ _ => False.elim) fun _ m _ => ⟨m, rfl⟩))

variable [PyText]

/-- In every state that calls lead to, a banned address has no session as long as its ban lasts: what it sends is
answered with one REJECT and its connection is to be closed, no connection is made or accepted, and nothing but the
address book changes. -/
theorem banned_is_unheard (hstart : Started s) (calls : List ServiceCall) {now : Int} {r : PeerRecord}
    (hr : (serviceAfter s calls).peers.lookup a = some r) (hstate : r.state = .banned) (hlasts : now < r.bannedUntil) :
    (serviceAfter s calls).sessions.get? a = none ∧
      (∀ message, ∃ m, (NodeService.receive a message now).call (serviceAfter s calls) =
        (.ok { direct := [rejectMessage "peer banned"], disconnect := true }, { serviceAfter s calls with peers := m })) ∧
      (∀ inbound, ∃ e m, (NodeService.connectPeer a now inbound).call (serviceAfter s calls) =
        (.error e, { serviceAfter s calls with peers := m })) ∧
      ∃ e m, (NodeService.acceptInboundPeer a now).call (serviceAfter s calls) =
        (.error e, { serviceAfter s calls with peers := m }) := by
  obtain ⟨-, hunheard⟩ := serviceAfter_induct (P := Unheard) hstart
    (fun _ _ _ _ => by rw [hstart.sessions]; rfl) (fun _ h hturn => h.turn hturn) calls
  have hban : BanLasts (serviceAfter s calls).peers a now r := ⟨hr, hstate, hlasts⟩
  have hnone := hunheard a r hr hstate
  refine ⟨hnone, fun message => ?_, fun inbound => ?_, ?_⟩
  · obtain ⟨e, s', hcall, ⟨text, rfl⟩, m, rfl⟩ := (sessionFor_banned hban hnone).raises
    exact ⟨m, by rw [receive_eq, hcall]⟩
  · obtain ⟨e, s', hcall, m, rfl⟩ := Method.Ends.raises (marks_banned hban inbound fun _ => do
      let _ ← onPeers (PeerAddressManager.markConnected a now)
      openSession a
      onSession a PeerSession.startHandshake)
    exact ⟨e, m, hcall⟩
  · obtain ⟨e, s', hcall, m, rfl⟩ := Method.Ends.raises (marks_banned hban true fun _ => do
      let _ ← onPeers (PeerAddressManager.markConnected a now)
      openSession a)
    exact ⟨e, m, hcall⟩

end

/-! ## A banned peer -/

/-- An address book in which Bob is banned until 100. -/
def bannedBook : PeerAddressManager :=
  { PeerAddressManager.empty with
    peers := [{ address := ['b', 'o', 'b'], state := .banned, bannedUntil := 100 }]
    peers_nodup := by decide }

theorem banned_is_unheard_bob :
    let _ := aliceVerify
    let _ := decoding [] .null
    let s := serviceAfter { genesisService with peers := bannedBook } []
    s.sessions.get? ['b', 'o', 'b'] = none ∧
      (∀ message, ∃ m, (NodeService.receive ['b', 'o', 'b'] message 5).call s =
        (.ok { direct := [rejectMessage "peer banned"], disconnect := true }, { s with peers := m })) ∧
      (∀ inbound, ∃ e m, (NodeService.connectPeer ['b', 'o', 'b'] 5 inbound).call s = (.error e, { s with peers := m })) ∧
      ∃ e m, (NodeService.acceptInboundPeer ['b', 'o', 'b'] 5).call s = (.error e, { s with peers := m }) :=
  let _ := aliceVerify
  let _ := decoding [] .null
  banned_is_unheard (r := { address := ['b', 'o', 'b'], state := .banned, bannedUntil := 100 })
    ⟨⟨_, created_genesisNode⟩, rfl, rfl, rfl, rfl, rfl⟩ [] rfl rfl (by decide)

end BCC.Proof
