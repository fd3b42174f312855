import BlockchainCoin.Impl.Service
import BlockchainCoin.Proof.Import
import BlockchainCoin.Proof.Decode
import BlockchainCoin.Proof.Peers

/-!
# What the service does

Every method of `NodeService` is a sequence of the steps of `Work`, each of which
changes its parts together: a download is assigned and counted as requested, or
removed and counted, and a session that goes takes the downloads of its address
with it. `Turn` adds what begins and ends a connection: the marks in the address book,
the new session, the penalties, and the session that is dropped. The theorems on the methods (`handleHeaders_effects`
and so on) are the only ones that look at their code; the invariants of a run are
proved from the steps.
-/

namespace BCC.Proof

open BCC.Impl PyError NodeService

/-! ## Counters and downloads -/

/-- The service once the counters of an address are loaded. -/
def withProgress (address : Str) (s : NodeService) : NodeService :=
  if s.peerSync.contains address then s else { s with peerSync := s.peerSync.set address (s.loadedProgress address) }

theorem call_progressFor (address : Str) (s : NodeService) :
    (progressFor address).call s = (.ok (s.loadedProgress address), withProgress address s) := rfl

/-- The service after `_record_progress`. -/
def recorded (address : Str) (change : PeerSyncProgress) (s : NodeService) : NodeService :=
  { s with
    peerSync := s.peerSync.set address ((s.loadedProgress address).add change)
    peerSyncStore := s.peerSyncStore.map (·.set address ((s.loadedProgress address).add change)) }

theorem call_recordProgress (address : Str) (change : PeerSyncProgress) (s : NodeService) :
    (recordProgress address change).call s = (.ok (), recorded address change s) := by
  have hset : (withProgress address s).peerSync.set address ((s.loadedProgress address).add change) =
      s.peerSync.set address ((s.loadedProgress address).add change) := by
    unfold withProgress
    split
    · rfl
    · exact Dict.set_set _ _ _ _
  have hstore : (withProgress address s).peerSyncStore = s.peerSyncStore := by
    unfold withProgress
    split <;> rfl
  simp only [recordProgress, Method.call_bind, call_progressFor, Method.call_modify, hset, hstore]
  unfold withProgress
  split <;> rfl

/-- The downloads without those of an address. -/
def otherDownloads (address : Str) (downloads : Dict Str BlockDownload) : Dict Str BlockDownload :=
  (downloads.entries.filter fun e => e.2.peer = address).foldl (fun d e => d.erase e.1) downloads

theorem withoutDownloads_eq (address : Str) (s : NodeService) :
    withoutDownloads address s = { s with inFlightBlocks := otherDownloads address s.inFlightBlocks } := by
  have key : ∀ (es : List (Str × BlockDownload)) (s : NodeService),
      es.foldl (fun s e => { s with inFlightBlocks := s.inFlightBlocks.erase e.1 }) s =
        { s with inFlightBlocks := es.foldl (fun d e => d.erase e.1) s.inFlightBlocks } := by
    intro es
    induction es with
    | nil => exact fun _ => rfl
    | cons e es ih => exact fun s => ih _
  exact key _ s

theorem get?_otherDownloads {address hash : Str} {downloads : Dict Str BlockDownload} {d : BlockDownload} :
    (otherDownloads address downloads).get? hash = some d ↔ downloads.get? hash = some d ∧ d.peer ≠ address := by
  rw [Dict.get?_eq_some, otherDownloads, Dict.entries_erase_filter, List.mem_filter, Dict.get?_eq_some]
  simp

theorem count_otherDownloads (address b : Str) (downloads : Dict Str BlockDownload) :
    (otherDownloads address downloads).count (fun d => d.peer = b) =
      if b = address then 0 else downloads.count fun d => d.peer = b := by
  rw [Dict.count, Dict.values, otherDownloads, Dict.entries_erase_filter, List.countP_map, List.countP_filter]
  split
  · rename_i h
    subst h
    exact List.countP_eq_zero.mpr fun e _ => by simp
  · rename_i h
    rw [Dict.count, Dict.values, List.countP_map]
    refine List.countP_congr fun e _ => ?_
    simp only [Function.comp_apply, Bool.and_eq_true, decide_eq_true_iff, Bool.not_eq_true', decide_eq_false_iff_not]
    exact ⟨And.left, fun he => ⟨he, fun ha => h (he.symm.trans ha)⟩⟩

/-- The service after `_clear_peer_downloads`. -/
def cleared (address : Str) (s : NodeService) : NodeService :=
  if s.inFlightCount address = 0 then { s with inFlightBlocks := otherDownloads address s.inFlightBlocks }
  else recorded address { failedBlocks := s.inFlightCount address }
    { s with inFlightBlocks := otherDownloads address s.inFlightBlocks }

theorem call_clearPeerDownloads (address : Str) (s : NodeService) :
    (clearPeerDownloads address).call s = (.ok (), cleared address s) := by
  simp only [clearPeerDownloads, Method.call_bind, Method.call_get, Method.call_modify, withoutDownloads_eq]
  unfold cleared
  split
  · rfl
  · rw [call_recordProgress]

section

variable (address : Str) (s : NodeService)

theorem cleared_inFlight : (cleared address s).inFlightBlocks = otherDownloads address s.inFlightBlocks := by
  unfold cleared
  split <;> rfl

theorem cleared_sessions : (cleared address s).sessions = s.sessions := by
  unfold cleared
  split <;> rfl

theorem cleared_limit : (cleared address s).maxBlockDownloadsPerPeer = s.maxBlockDownloadsPerPeer := by
  unfold cleared
  split <;> rfl

theorem cleared_peers : (cleared address s).peers = s.peers := by
  unfold cleared
  split <;> rfl

theorem cleared_blocks : (cleared address s).blocks = s.blocks := by
  unfold cleared
  split <;> rfl

theorem cleared_node : (cleared address s).node = s.node := by
  unfold cleared
  split <;> rfl

end

/-! ## Steps -/

/-- What the service does in one step while it handles what the address `a` has sent. -/
inductive Work [Ed25519] (a : Str) : NodeService → NodeService → Prop
  | node {s : NodeService} {call : Call} {n : ConsensusNode} (h : World.step (.up s.node) call = .up n) :
    Work a s { s with node := n }
  | cacheTransaction {s : NodeService} {t : ConsensusTransaction} {txid : Str} (h : t.txid = .ok txid) :
    Work a s { s with transactions := s.transactions.set txid t }
  | cacheBlock {s : NodeService} {b : ConsensusBlock} {hash : Str} {raw : Bytes} (h : b.hash = .ok hash)
    (hraw : b.toBytes = .ok raw) : Work a s { s with blocks := s.blocks.set hash b }
  | load {s : NodeService} (address : Str) : Work a s (withProgress address s)
  /-- A download is assigned to a peer that has a session and room for it. -/
  | request {s : NodeService} {hash peer : Str} {now : Int} (hnew : s.inFlightBlocks.get? hash = none)
    (hpeer : s.sessions.contains peer = true) (hroom : s.inFlightCount peer < s.maxBlockDownloadsPerPeer) :
    Work a s (recorded peer { requestedBlocks := 1 }
      { s with inFlightBlocks := s.inFlightBlocks.set hash ⟨hash, peer, now⟩ })
  /-- A download has arrived, or has taken too long. -/
  | resolve {s : NodeService} {hash : Str} {d : BlockDownload} {change : PeerSyncProgress}
    (h : s.inFlightBlocks.get? hash = some d)
    (hchange : change = { completedBlocks := 1 } ∨ change = { timedOutBlocks := 1 }) :
    Work a s (recorded d.peer change { s with inFlightBlocks := s.inFlightBlocks.erase hash })
  | session {s : NodeService} {old new : PeerSession} (h : s.sessions.get? a = some old) :
    Work a s { s with sessions := s.sessions.set a new }

/-- What the service does in one step of a call about the address `a`: it works, or changes the state of the
connection. -/
inductive Turn [Ed25519] (a : Str) : NodeService → NodeService → Prop
  | work {s s' : NodeService} (h : Work a s s') : Turn a s s'
  | mark {s : NodeService} {m : PeerAddressManager} (h : Marks a s.peers m) : Turn a s { s with peers := m }
  | «open» {s : NodeService} {r : PeerRecord} {session : PeerSession} (hr : s.peers.lookup a = some r)
    (hstate : r.state = .connected) : Turn a s { s with sessions := s.sessions.set a session }
  | score {s : NodeService} {old : PeerRecord} {score : Int} (h : s.peers.lookup a = some old) :
    Turn a s { s with peers := s.peers.update { old with misbehaviorScore := score } }
  /-- The connection ends: by a ban, or because the peer is disconnected. -/
  | drop {s : NodeService} {old r : PeerRecord} (h : s.peers.lookup a = some old) (ha : r.address = a)
    (hr : r.isActive = false) :
    Turn a s (cleared a { s with peers := s.peers.update r, sessions := s.sessions.erase a })

/-! ## The downloads in flight -/

/-- Every download in flight is kept under its own hash and assigned to a peer with a session, and no peer has
more of them than it may. -/
structure DownloadsOk (s : NodeService) : Prop where
  keyed : ∀ {hash d}, s.inFlightBlocks.get? hash = some d → d.blockHash = hash
  session : ∀ {hash d}, s.inFlightBlocks.get? hash = some d → s.sessions.contains d.peer = true
  room : ∀ address, s.inFlightCount address ≤ s.maxBlockDownloadsPerPeer

/-- The sessions, the downloads and their limit are as they were. -/
structure SameDownloads (s s' : NodeService) : Prop where
  inFlight : s'.inFlightBlocks = s.inFlightBlocks
  sessions : s'.sessions = s.sessions
  limit : s'.maxBlockDownloadsPerPeer = s.maxBlockDownloadsPerPeer

theorem SameDownloads.refl (s : NodeService) : SameDownloads s s := ⟨rfl, rfl, rfl⟩

theorem SameDownloads.trans {s s' s'' : NodeService} (h : SameDownloads s s') (h' : SameDownloads s' s'') :
    SameDownloads s s'' :=
  ⟨h'.inFlight.trans h.inFlight, h'.sessions.trans h.sessions, h'.limit.trans h.limit⟩

theorem sameDownloads_withProgress (address : Str) (s : NodeService) : SameDownloads s (withProgress address s) := by
  unfold withProgress
  split <;> exact ⟨rfl, rfl, rfl⟩

theorem DownloadsOk.congr {s s' : NodeService} (h : DownloadsOk s) (hs : SameDownloads s s') : DownloadsOk s' := by
  refine ⟨fun hd => h.keyed (hs.inFlight ▸ hd), fun hd => ?_, fun address => ?_⟩
  · rw [hs.sessions]
    exact h.session (hs.inFlight ▸ hd)
  · rw [NodeService.inFlightCount, hs.inFlight, hs.limit]
    exact h.room address

/-- Downloads may go, and with them the sessions of their peers. -/
theorem DownloadsOk.fewer {s s' : NodeService} (h : DownloadsOk s)
    (hget : ∀ {hash d}, s'.inFlightBlocks.get? hash = some d →
      s.inFlightBlocks.get? hash = some d ∧ s'.sessions.contains d.peer = true)
    (hcount : ∀ address, s'.inFlightCount address ≤ s.inFlightCount address)
    (hlimit : s'.maxBlockDownloadsPerPeer = s.maxBlockDownloadsPerPeer) : DownloadsOk s' :=
  ⟨fun hd => h.keyed (hget hd).1, fun hd => (hget hd).2, fun address => by
    rw [hlimit]
    exact (hcount address).trans (h.room address)⟩

/-- Sessions may be added. -/
theorem DownloadsOk.sessions {s : NodeService} (h : DownloadsOk s) {sessions : Dict Str PeerSession}
    (hs : ∀ b, s.sessions.contains b = true → sessions.contains b = true) : DownloadsOk { s with sessions := sessions } :=
  ⟨h.keyed, fun hd => hs _ (h.session hd), h.room⟩

theorem contains_set {α : Type} (d : Dict Str α) (k : Str) (v : α) (b : Str) (h : d.contains b = true) :
    (d.set k v).contains b = true := by
  rw [Dict.contains, Dict.get?_set]
  split
  · rfl
  · exact h

theorem DownloadsOk.work [Ed25519] {a : Str} {s s' : NodeService} (h : DownloadsOk s) (hs : Work a s s') :
    DownloadsOk s' := by
  cases hs with
  | node | cacheTransaction | cacheBlock => exact h.congr ⟨rfl, rfl, rfl⟩
  | load address => exact h.congr (sameDownloads_withProgress address s)
  | @request hash peer now hnew hpeer hroom =>
    refine ⟨fun {key d} hd => ?_, fun {key d} hd => ?_, fun address => ?_⟩
    · rw [show (recorded peer { requestedBlocks := 1 } _).inFlightBlocks = s.inFlightBlocks.set hash ⟨hash, peer, now⟩
        from rfl, Dict.get?_set] at hd
      split at hd
      · rename_i hkey
        cases hd
        exact hkey.symm
      · exact h.keyed hd
    · rw [show (recorded peer { requestedBlocks := 1 } _).inFlightBlocks = s.inFlightBlocks.set hash ⟨hash, peer, now⟩
        from rfl, Dict.get?_set] at hd
      split at hd
      · cases hd
        exact hpeer
      · exact h.session hd
    · show (s.inFlightBlocks.set hash ⟨hash, peer, now⟩).count _ ≤ s.maxBlockDownloadsPerPeer
      rw [Dict.count_set _ hnew]
      have := h.room address
      by_cases hp : peer = address
      · subst hp
        rw [decide_eq_true rfl, if_pos rfl]
        exact hroom
      · rw [decide_eq_false hp, if_neg Bool.false_ne_true]
        exact this
  | @resolve hash d change hd =>
    refine h.fewer (fun {key d'} hd' => ?_) (fun address => ?_) rfl
    · rw [show (recorded d.peer change _).inFlightBlocks = s.inFlightBlocks.erase hash from rfl, Dict.get?_erase] at hd'
      split at hd'
      · cases hd'
      · exact ⟨hd', h.session hd'⟩
    · show (s.inFlightBlocks.erase hash).count _ ≤ s.inFlightBlocks.count _
      have hcount := Dict.count_erase (fun d => decide (d.peer = address)) hd
      omega
  | session hold => exact h.sessions (contains_set _ _ _)

theorem DownloadsOk.turn [Ed25519] {a : Str} {s s' : NodeService} (h : DownloadsOk s) (hs : Turn a s s') :
    DownloadsOk s' := by
  cases hs with
  | work hs => exact h.work hs
  | mark | score => exact h.congr ⟨rfl, rfl, rfl⟩
  | «open» => exact h.sessions (contains_set _ _ _)
  | @drop old r hold ha hr =>
    refine h.fewer (fun {key d} hd => ?_) (fun address => ?_) (cleared_limit _ _)
    · rw [cleared_inFlight] at hd
      obtain ⟨hd, hne⟩ := get?_otherDownloads.mp hd
      refine ⟨hd, ?_⟩
      rw [cleared_sessions, Dict.contains, Dict.get?_erase_of_ne _ hne]
      exact h.session hd
    · rw [NodeService.inFlightCount, cleared_inFlight, count_otherDownloads]
      split
      · exact Nat.zero_le _
      · exact le_rfl

/-! ## Scheduling -/

section

variable [Ed25519] {a : Str} {s₀ s : NodeService}

theorem recordProgress_endsBy {address : Str} {change : PeerSyncProgress}
    (hs : Relation.ReflTransGen (Work a) s₀ (recorded address change s)) :
    Method.EndsBy (Work a) s₀ (recordProgress address change) s fun _ s' => s' = recorded address change s := by
  rw [Method.EndsBy, Method.Ends, call_recordProgress]
  exact ⟨hs, rfl⟩

theorem rankOf_endsBy (source address : Str) (hs : Relation.ReflTransGen (Work a) s₀ s) :
    Method.EndsBy (Work a) s₀ (rankOf source address) s fun rank s' => rank.address = address ∧ SameDownloads s s' := by
  refine .bind_get ?_
  have hload : Relation.ReflTransGen (Work a) s₀ (withProgress address s) := hs.tail (.load address)
  refine .bind (P := fun _ s' => SameDownloads s s') ⟨hload, sameDownloads_withProgress address s⟩ fun _ s₁ hs₁ hsame => ?_
  exact .bind_reading hs₁ fun _ _ => .pure hs₁ ⟨rfl, hsame⟩

theorem leastRank_endsBy (source : Str) : ∀ (addresses : List Str) (best : Option DownloadRank) {s : NodeService},
    Relation.ReflTransGen (Work a) s₀ s →
    Method.EndsBy (Work a) s₀ (leastRank source best addresses) s fun rank s' =>
      (∀ r, rank = some r → best = some r ∨ r.address ∈ addresses) ∧ SameDownloads s s'
  | [], best, s, hs => .pure hs ⟨fun _ => .inl, .refl s⟩
  | address :: addresses, best, s, hs => by
    refine .bind (rankOf_endsBy source address hs) fun rank s₁ hs₁ hrank => ?_
    refine (leastRank_endsBy source addresses _ hs₁).mono fun least s₂ h => ⟨fun r hr => ?_, hrank.2.trans h.2⟩
    rcases h.1 r hr with hbest | hmem
    · revert hbest
      split
      · rintro ⟨rfl⟩
        exact .inr (hrank.1 ▸ List.mem_cons_self)
      · split
        · rintro ⟨rfl⟩
          exact .inr (hrank.1 ▸ List.mem_cons_self)
        · exact .inl
    · exact .inr (List.mem_cons_of_mem _ hmem)

omit [Ed25519] in
/-- A source that has a session is a candidate. -/
theorem downloadCandidates_ne_nil {source : Str} (hsource : s.sessions.contains source = true) (hash : Str)
    (avoid : Option Str) : s.downloadCandidates source hash avoid ≠ [] := by
  have hcandidate : source ∈ (s.sessions.entries.filter fun e =>
      e.1 = source || (kindHeader, hash) ∈ e.2.knownInventory).map Prod.fst := by
    obtain ⟨e, he, hfst⟩ := List.mem_map.mp (Dict.contains_iff.mp hsource)
    exact List.mem_map.mpr ⟨e, List.mem_filter.mpr ⟨he, by simp [hfst]⟩, hfst⟩
  unfold downloadCandidates
  dsimp only
  split
  · exact List.ne_nil_of_mem hcandidate
  · assumption

omit [Ed25519] in
theorem mem_downloadCandidates {source hash address : Str} {avoid : Option Str}
    (h : address ∈ s.downloadCandidates source hash avoid) : s.sessions.contains address = true := by
  have hcandidates : ∀ p : Str × PeerSession → Bool, address ∈ (s.sessions.entries.filter p).map Prod.fst →
      s.sessions.contains address = true := fun p hmem => by
    obtain ⟨e, he, rfl⟩ := List.mem_map.mp hmem
    exact Dict.contains_iff.mpr (List.mem_map_of_mem (List.mem_filter.mp he).1)
  unfold downloadCandidates at h
  dsimp only at h
  split at h
  · exact hcandidates _ h
  · exact hcandidates _ (List.mem_filter.mp h).1

/-- The peer that is selected has a session and room for a download, and so does not depend on the case in which
there are no candidates. -/
theorem selectBlockDownloadPeer_endsBy {source : Str} (hsource : s.sessions.contains source = true) (hash : Str)
    (avoid : Option Str) (hs : Relation.ReflTransGen (Work a) s₀ s) :
    Method.EndsBy (Work a) s₀ (selectBlockDownloadPeer source hash avoid) s fun selected s' =>
      SameDownloads s s' ∧ ∀ peer, selected = some peer →
        s.sessions.contains peer = true ∧ s.inFlightCount peer < s.maxBlockDownloadsPerPeer := by
  refine .bind_get ?_
  rw [if_neg (downloadCandidates_ne_nil hsource hash avoid)]
  refine .bind (leastRank_endsBy source _ none hs) fun best s₁ hs₁ hbest => .pure hs₁ ⟨hbest.2, fun peer hpeer => ?_⟩
  cases best with
  | none => cases hpeer
  | some r =>
    cases hpeer
    rcases hbest.1 r rfl with h | hmem
    · cases h
    · obtain ⟨hmem, hroom⟩ := List.mem_filter.mp hmem
      exact ⟨mem_downloadCandidates hmem, of_decide_eq_true hroom⟩

theorem requestBlock_endsBy {source : Str} (hsource : s.sessions.contains source = true) (hash : Str)
    (avoid : Option Str) (now : Int) (requests : Dict Str (List InventoryVector))
    (hs : Relation.ReflTransGen (Work a) s₀ s) :
    Method.EndsBy (Work a) s₀ (requestBlock source hash avoid now requests) s fun _ s' => s'.sessions = s.sessions := by
  refine .bind_get ?_
  split
  · exact .pure hs rfl
  · rename_i hwanted
    refine .bind (selectBlockDownloadPeer_endsBy hsource hash avoid hs) fun selected s₁ hs₁ h => ?_
    obtain ⟨hsame, hpeer⟩ := h
    split
    · exact .pure hs₁ hsame.sessions
    · rename_i peer
      obtain ⟨hsession, hroom⟩ := hpeer peer rfl
      have hnew : s₁.inFlightBlocks.get? hash = none := by
        have hwanted : s.shouldRequestBlock hash = true := Bool.of_not_eq_false hwanted
        simp only [shouldRequestBlock, Bool.and_eq_true, Bool.not_eq_true', Dict.contains, Option.isSome_eq_false_iff,
          Option.isNone_iff_eq_none] at hwanted
        rw [hsame.inFlight]
        exact hwanted.1.2
      rw [← hsame.sessions] at hsession
      have hroom : s₁.inFlightCount peer < s₁.maxBlockDownloadsPerPeer := by
        rw [NodeService.inFlightCount, hsame.inFlight, hsame.limit]
        exact hroom
      refine .bind_modify (.bind (recordProgress_endsBy (hs₁.tail (.request hnew hsession hroom))) fun _ s₂ hs₂ h₂ => ?_)
      subst h₂
      exact .pure hs₂ hsame.sessions

theorem requestHeaders_endsBy {address : Str} (now : Int) : ∀ (headers : List BlockHeader)
    (requests : Dict Str (List InventoryVector)) {s : NodeService}, s.sessions.contains address = true →
    Relation.ReflTransGen (Work a) s₀ s →
    Method.EndsBy (Work a) s₀ (requestHeaders address now requests headers) s fun _ _ => True
  | [], _, _, _, hs => .pure hs trivial
  | header :: headers, requests, s, hsession, hs => by
    refine .bind_reading hs fun hash _ => ?_
    refine .bind (requestBlock_endsBy hsession hash none now requests hs) fun requests s₁ hs₁ hsame => ?_
    exact requestHeaders_endsBy now headers requests (by rw [hsame]; exact hsession) hs₁

theorem retryDownloads_endsBy (now : Int) : ∀ (downloads : List BlockDownload)
    (requests : Dict Str (List InventoryVector)) {s : NodeService},
    (∀ d ∈ downloads, s.sessions.contains d.peer = true) → Relation.ReflTransGen (Work a) s₀ s →
    Method.EndsBy (Work a) s₀ (retryDownloads now requests downloads) s fun _ _ => True
  | [], _, _, _, hs => .pure hs trivial
  | d :: downloads, requests, s, hsession, hs => by
    refine .bind (requestBlock_endsBy (hsession d List.mem_cons_self) d.blockHash (some d.peer) now requests hs)
      fun requests s₁ hs₁ hsame => ?_
    exact retryDownloads_endsBy now downloads requests
      (fun d' hd' => by rw [hsame]; exact hsession d' (List.mem_cons_of_mem _ hd')) hs₁

/-- The downloads of a loop of `expire_block_downloads` are in flight, under different hashes. -/
theorem dropExpired_endsBy : ∀ (downloads : List BlockDownload) {s : NodeService},
    (∀ d ∈ downloads, s.inFlightBlocks.get? d.blockHash = some d) → (downloads.map (·.blockHash)).Nodup →
    Relation.ReflTransGen (Work a) s₀ s →
    Method.EndsBy (Work a) s₀ (dropExpired downloads) s fun _ s' => s'.sessions = s.sessions
  | [], _, _, _, hs => .pure hs rfl
  | d :: downloads, s, hmem, hn, hs => by
    rw [List.map_cons, List.nodup_cons] at hn
    refine .bind_modify (.bind (recordProgress_endsBy (hs.tail (.resolve (hmem d List.mem_cons_self) (.inr rfl))))
      fun _ s₁ hs₁ h₁ => ?_)
    subst h₁
    refine (dropExpired_endsBy downloads (fun d' hd' => ?_) hn.2 hs₁).mono fun _ _ h => h
    have hne : d'.blockHash ≠ d.blockHash := fun he => hn.1 (he ▸ List.mem_map_of_mem hd')
    show (s.inFlightBlocks.erase d.blockHash).get? d'.blockHash = some d'
    rw [Dict.get?_erase_of_ne _ hne]
    exact hmem d' (List.mem_cons_of_mem _ hd')

theorem expireBlockDownloads_endsBy (hok : DownloadsOk s) (now : Int) (hs : Relation.ReflTransGen (Work a) s₀ s) :
    Method.EndsBy (Work a) s₀ (expireBlockDownloads now) s fun expired s' =>
      s'.sessions = s.sessions ∧ ∀ d ∈ expired, s.sessions.contains d.peer = true := by
  refine .bind_get ?_
  have hvalues : ∀ d ∈ s.inFlightBlocks.values, s.inFlightBlocks.get? d.blockHash = some d ∧
      s.sessions.contains d.peer = true := fun d hd => by
    obtain ⟨hash, hhash⟩ := Dict.mem_values.mp hd
    rw [hok.keyed hhash]
    exact ⟨hhash, hok.session hhash⟩
  have hnodup : (s.inFlightBlocks.values.map (·.blockHash)).Nodup := by
    have hkeys : s.inFlightBlocks.values.map (·.blockHash) = s.inFlightBlocks.keys := by
      rw [Dict.values, List.map_map]
      refine List.map_congr_left fun e he => ?_
      exact hok.keyed (Dict.get?_eq_some.mpr he)
    rw [hkeys]
    exact s.inFlightBlocks.nodup
  refine .bind (dropExpired_endsBy _ (fun d hd => (hvalues d (List.mem_filter.mp hd).1).1)
    (hnodup.sublist (List.filter_sublist.map _)) hs) fun _ s₁ hs₁ hsame => .pure hs₁ ⟨hsame, fun d hd => ?_⟩
  exact (hvalues d (List.mem_filter.mp hd).1).2

/-! ## Handlers -/

theorem onNode_endsBy {α : Type} {x : Method ConsensusNode PyError α} (call : Call)
    (hcall : ∀ n, World.step (.up n) call = .up (x.call n).2) (hs : Relation.ReflTransGen (Work a) s₀ s) :
    Method.EndsBy (Work a) s₀ (onNode x) s fun r s' => ∃ n, x.call s.node = (.ok r, n) ∧ s' = { s with node := n } := by
  have hstep : Relation.ReflTransGen (Work a) s₀ { s with node := (x.call s.node).2 } := hs.tail (.node (hcall s.node))
  rw [Method.EndsBy, Method.Ends, onNode, Method.call_onPart]
  rcases hx : x.call s.node with ⟨_ | r, n⟩
  · rw [hx] at hstep
    exact hstep
  · rw [hx] at hstep
    exact ⟨hstep, n, rfl, rfl⟩

theorem handleTransaction_endsBy (t : ConsensusTransaction) (hs : Relation.ReflTransGen (Work a) s₀ s) :
    Method.EndsBy (Work a) s₀ (handleTransaction t) s fun _ _ => True := by
  refine .bind_reading hs fun txid htxid => .bind_get ?_
  split
  · exact .pure hs trivial
  · refine .bind (onNode_endsBy (.submitTransaction t) (fun _ => rfl) hs) fun _ s₁ hs₁ _ => ?_
    exact .bind_modify (.pure (hs₁.tail (.cacheTransaction htxid)) trivial)

theorem cacheTransactions_endsBy : ∀ (ts : List ConsensusTransaction) {s : NodeService},
    Relation.ReflTransGen (Work a) s₀ s → Method.EndsBy (Work a) s₀ (cacheTransactions ts) s fun _ _ => True
  | [], _, hs => .pure hs trivial
  | _ :: ts, _, hs =>
    .bind_reading hs fun _ htxid => .bind_modify (cacheTransactions_endsBy ts (hs.tail (.cacheTransaction htxid)))

/-- What `_handle_block` does once the block is cached. -/
def recordReceived (b : ConsensusBlock) (hash : Str) : Method NodeService PyError (List PeerMessage) := do
  let s ← get
  modify fun s => { s with inFlightBlocks := s.inFlightBlocks.erase hash }
  match s.inFlightBlocks.get? hash with
  | some download => recordProgress download.peer { completedBlocks := 1 }
  | none => pure ()
  cacheTransactions b.transactions
  return [inventoryMessage .inv [⟨kindBlock, hash⟩]]

theorem recordReceived_endsBy (b : ConsensusBlock) (hash : Str) (hs : Relation.ReflTransGen (Work a) s₀ s) :
    Method.EndsBy (Work a) s₀ (recordReceived b hash) s fun relay _ =>
      relay = [inventoryMessage .inv [⟨kindBlock, hash⟩]] := by
  refine .bind_get (.bind_modify ?_)
  split
  · rename_i d hd
    refine .bind (recordProgress_endsBy (hs.tail (.resolve hd (.inl rfl)))) fun _ s₁ hs₁ h₁ => ?_
    subst h₁
    exact .bind (cacheTransactions_endsBy _ hs₁) fun _ s₂ hs₂ _ => .pure hs₂ rfl
  · rename_i hnone
    rw [Dict.erase_of_not_mem hnone]
    exact .bind (cacheTransactions_endsBy _ hs) fun _ s₁ hs₁ _ => .pure hs₁ rfl

theorem handleBlock_endsBy {b : ConsensusBlock} {raw : Bytes} (hraw : b.toBytes = .ok raw)
    (hs : Relation.ReflTransGen (Work a) s₀ s) : Method.EndsBy (Work a) s₀ (handleBlock b) s fun _ _ => True := by
  refine .bind_reading hs fun hash hhash => .bind_get ?_
  split
  · exact .pure hs trivial
  · refine .bind (onNode_endsBy (.importBlock b) (fun _ => rfl) hs) fun _ s₁ hs₁ _ => .bind_modify ?_
    exact (recordReceived_endsBy b hash (hs₁.tail (.cacheBlock hhash hraw))).mono fun _ _ _ => trivial

/-! ## Messages -/

variable [PyText]

theorem handleHeaders_endsBy {address : Str} (payload : Json) (now : Int) (hok : DownloadsOk s)
    (hsession : s.sessions.contains address = true) (hs : Relation.ReflTransGen (Work a) s₀ s) :
    Method.EndsBy (Work a) s₀ (NodeService.handleHeaders address payload now) s fun _ _ => True := by
  refine .bind (expireBlockDownloads_endsBy hok now hs) fun _ s₁ hs₁ h₁ => .bind_reading hs₁ fun headers _ => ?_
  refine .bind_reading hs₁ fun _ _ => ?_
  refine .bind (requestHeaders_endsBy now headers ∅ (by rw [h₁.1]; exact hsession) hs₁) fun _ s₂ hs₂ _ => ?_
  exact .bind_get (.pure hs₂ trivial)

omit [Ed25519] [PyText] in
/-- A block of a message has an encoding, the one it was decoded from. -/
theorem toBytes_of_blockFromPayload {payload : Json} {b : ConsensusBlock} (h : blockFromPayload payload = .ok b) :
    ∃ raw, b.toBytes = .ok raw := by
  obtain ⟨value, -, h⟩ := bind_eq_ok.mp h
  cases value with
  | str value =>
    obtain ⟨raw, -, hraw⟩ := bind_eq_ok.mp (catchAs_eq_ok.mp h)
    exact ⟨raw, (takes_block.of_run' hraw).1⟩
  | _ => cases h

omit [Ed25519] [PyText] in
theorem disconnect_routeRequests (address : Str) : ∀ (targeted : List (Str × List PeerMessage)) {result : ServiceResult},
    result.disconnect = false → (routeRequests address result targeted).disconnect = false
  | [], _, h => h
  | (peer, messages) :: targeted, result, h => by
    unfold routeRequests
    split
    · exact disconnect_routeRequests address targeted h
    · exact disconnect_routeRequests address targeted h

theorem dispatch_endsBy {address : Str} (message : PeerMessage) (direct : List PeerMessage) (now : Int) (hok : DownloadsOk s)
    (hsession : s.sessions.contains address = true) (hs : Relation.ReflTransGen (Work a) s₀ s) :
    Method.EndsBy (Work a) s₀ (dispatch address message direct now) s fun result _ => result.disconnect = false := by
  unfold dispatch
  split
  · exact .bind_reading hs fun t _ => .bind (handleTransaction_endsBy t hs) fun _ _ hs' _ => .pure hs' rfl
  · refine .bind_reading hs fun b hb => ?_
    obtain ⟨raw, hraw⟩ := toBytes_of_blockFromPayload hb
    exact .bind (handleBlock_endsBy hraw hs) fun _ _ hs' _ => .pure hs' rfl
  · exact .bind_reading hs fun _ _ => .pure hs rfl
  · exact .bind_reading hs fun _ _ => .pure hs rfl
  · refine .bind (handleHeaders_endsBy message.payload now hok hsession hs) fun targeted s' hs' _ => .pure hs' ?_
    exact disconnect_routeRequests address targeted rfl
  · exact .pure hs rfl

end

end BCC.Proof
