import BlockchainCoin.Proof.Calls
import BlockchainCoin.Proof.Handshake
import BlockchainCoin.Proof.Node

/-!
# Accounting for downloads

Over any calls of the service, the downloads in flight are those that were counted
as requested and not yet as completed, timed out or failed (`outstanding_turn`),
and the counters in memory are those of the sync store (`Persisted`).
-/

namespace BCC.Proof

open BCC.Impl NodeService

section

variable {a : Str} {s s' : NodeService}

/-- The downloads that counters say were requested and not resolved. -/
def unresolved (p : PeerSyncProgress) : Int :=
  p.requestedBlocks - p.completedBlocks - p.timedOutBlocks - p.failedBlocks

theorem unresolved_add (p change : PeerSyncProgress) : unresolved (p.add change) = unresolved p + unresolved change := by
  simp only [unresolved, PeerSyncProgress.add]
  omega

/-- What the counters of an address say beyond the downloads that are in flight. -/
def surplus (s : NodeService) (address : Str) : Int := unresolved (s.loadedProgress address) - s.inFlightCount address

theorem loadedProgress_withProgress (b address : Str) (s : NodeService) :
    (withProgress b s).loadedProgress address = s.loadedProgress address := by
  unfold withProgress
  split
  · rfl
  · rename_i hnone
    by_cases hb : address = b
    · subst hb
      rw [NodeService.loadedProgress, Dict.get?_set_self]
    · rw [NodeService.loadedProgress, Dict.get?_set_of_ne _ _ hb]
      rfl

theorem loadedProgress_recorded (b : Str) (change : PeerSyncProgress) (address : Str) (s : NodeService) :
    (recorded b change s).loadedProgress address =
      if address = b then (s.loadedProgress address).add change else s.loadedProgress address := by
  by_cases hb : address = b
  · subst hb
    rw [if_pos rfl]
    unfold recorded
    rw [NodeService.loadedProgress, Dict.get?_set_self]
  · rw [if_neg hb]
    unfold NodeService.loadedProgress recorded
    dsimp only
    rw [Dict.get?_set_of_ne _ _ hb]
    cases s.peerSync.get? address with
    | some p => rfl
    | none =>
      cases s.peerSyncStore with
      | none => rfl
      | some store => simp only [Option.map_some, Option.bind_some, Dict.get?_set_of_ne _ _ hb]

theorem inFlightCount_withProgress (b address : Str) (s : NodeService) :
    (withProgress b s).inFlightCount address = s.inFlightCount address := by
  rw [NodeService.inFlightCount, (sameDownloads_withProgress b s).inFlight]
  rfl

/-- Recording a change for an address whose downloads in flight change by what the counters say. -/
theorem surplus_recorded {downloads : Dict Str BlockDownload} {b : Str} {change : PeerSyncProgress}
    (hcount : ∀ address, (downloads.count (fun d => d.peer = address) : Int) =
      s.inFlightCount address + if address = b then unresolved change else 0) (address : Str) :
    surplus (recorded b change { s with inFlightBlocks := downloads }) address = surplus s address := by
  have hflight : ((recorded b change { s with inFlightBlocks := downloads }).inFlightCount address : Int) =
      s.inFlightCount address + if address = b then unresolved change else 0 := hcount address
  have hloaded : NodeService.loadedProgress { s with inFlightBlocks := downloads } address = s.loadedProgress address := rfl
  rw [surplus, surplus, loadedProgress_recorded, hflight, hloaded]
  split
  · rw [unresolved_add]
    omega
  · omega

theorem surplus_cleared (b : Str) (s : NodeService) (address : Str) : surplus (cleared b s) address = surplus s address := by
  have hcount : ∀ address, ((otherDownloads b s.inFlightBlocks).count (fun d => d.peer = address) : Int) =
      s.inFlightCount address + if address = b then unresolved { failedBlocks := s.inFlightCount b } else 0 := fun address => by
    rw [count_otherDownloads]
    split
    · rename_i hb
      subst hb
      simp only [unresolved, Nat.cast_zero]
      omega
    · rw [add_zero]
      rfl
  unfold cleared
  split
  · rename_i hzero
    have hcount := hcount address
    rw [hzero] at hcount
    show unresolved (s.loadedProgress address) - ((otherDownloads b s.inFlightBlocks).count _ : Int) = _
    rw [hcount, surplus]
    simp [unresolved]
  · exact surplus_recorded hcount address

variable [Ed25519]

/-- No step changes what the counters say beyond the downloads in flight. -/
theorem surplus_turn (h : Turn a s s') (address : Str) : surplus s' address = surplus s address := by
  cases h with
  | mark | «open» | score => rfl
  | drop => exact surplus_cleared a _ address
  | work h =>
    cases h with
    | node | cacheTransaction | cacheBlock | session => rfl
    | load b => rw [surplus, surplus, loadedProgress_withProgress, inFlightCount_withProgress]
    | @request hash peer now hnew hpeer hroom =>
      refine surplus_recorded (fun b => ?_) address
      rw [Dict.count_set _ hnew, Nat.cast_add]
      refine congrArg _ ?_
      by_cases hb : b = peer
      · subst hb
        simp [unresolved]
      · simp [hb, Ne.symm hb]
    | @resolve hash d change hd hchange =>
      refine surplus_recorded (fun b => ?_) address
      have hcount := Dict.count_erase (fun d => decide (d.peer = b)) hd
      have hchange : unresolved change = -1 := by rcases hchange with rfl | rfl <;> rfl
      show ((s.inFlightBlocks.erase hash).count (fun d => decide (d.peer = b)) : Int) =
        s.inFlightBlocks.count (fun d => decide (d.peer = b)) + _
      rw [← hcount, hchange, Nat.cast_add]
      by_cases hb : b = d.peer
      · subst hb
        simp
      · simp [hb, Ne.symm hb]

/-- The sync store, where there is one, has the counters of an address. -/
def Persisted (s : NodeService) (address : Str) : Prop :=
  ∀ store, s.peerSyncStore = some store → store.get? address = some (s.loadedProgress address)

/-- The counters of an address and its record in the sync store are as they were. -/
def SameProgress (s s' : NodeService) (address : Str) : Prop :=
  s'.loadedProgress address = s.loadedProgress address ∧
    s'.peerSyncStore.map (·.get? address) = s.peerSyncStore.map (·.get? address)

omit [Ed25519] in
theorem recorded_progress (b : Str) (change : PeerSyncProgress) (downloads : Dict Str BlockDownload)
    (s : NodeService) (address : Str) :
    SameProgress s (recorded b change { s with inFlightBlocks := downloads }) address ∨
      Persisted (recorded b change { s with inFlightBlocks := downloads }) address := by
  have hloaded := loadedProgress_recorded b change address { s with inFlightBlocks := downloads }
  by_cases hb : address = b
  · subst hb
    refine .inr fun store hstore => ?_
    obtain ⟨old, -, rfl⟩ := Option.map_eq_some_iff.mp hstore
    rw [hloaded, if_pos rfl]
    exact Dict.get?_set_self _ _ _
  · refine .inl ⟨by rw [hloaded, if_neg hb]; rfl, ?_⟩
    show (s.peerSyncStore.map _).map _ = _
    rw [Option.map_map]
    refine congrArg (Option.map · s.peerSyncStore) (funext fun store => ?_)
    exact Dict.get?_set_of_ne _ _ hb

omit [Ed25519] in
theorem cleared_progress (b : Str) (s : NodeService) (address : Str) :
    SameProgress s (cleared b s) address ∨ Persisted (cleared b s) address := by
  unfold cleared
  split
  · exact .inl ⟨rfl, rfl⟩
  · exact recorded_progress b _ _ s address

/-- Every step that changes counters writes them to the sync store. -/
theorem progress_turn (h : Turn a s s') (address : Str) : SameProgress s s' address ∨ Persisted s' address := by
  cases h with
  | mark | «open» | score => exact .inl ⟨rfl, rfl⟩
  | drop => exact cleared_progress a _ address
  | work h =>
    cases h with
    | node | cacheTransaction | cacheBlock | session => exact .inl ⟨rfl, rfl⟩
    | load b =>
      refine .inl ⟨loadedProgress_withProgress b address s, ?_⟩
      unfold withProgress
      split <;> rfl
    | request | resolve => exact recorded_progress _ _ _ s address

omit [Ed25519] in
theorem progress_trans {s₀ : NodeService} {address : Str} (h : SameProgress s₀ s address ∨ Persisted s address)
    (h' : SameProgress s s' address ∨ Persisted s' address) : SameProgress s₀ s' address ∨ Persisted s' address := by
  rcases h' with hsame | hpersisted
  · rcases h with h | h
    · exact .inl ⟨hsame.1.trans h.1, hsame.2.trans h.2⟩
    · refine .inr fun store hstore => ?_
      have hmap := hsame.2
      rw [hstore, Option.map_some, eq_comm, Option.map_eq_some_iff] at hmap
      obtain ⟨old, hold, hget⟩ := hmap
      rw [← hget, h old hold, hsame.1]
  · exact .inr hpersisted

theorem progress_turns (h : Relation.ReflTransGen (Turn a) s s') (address : Str) :
    SameProgress s s' address ∨ Persisted s' address := by
  induction h with
  | refl => exact .inl ⟨rfl, rfl⟩
  | tail _ hstep ih => exact progress_trans ih (progress_turn hstep address)

/-! ## Runs -/

variable [PyText]

end

/-- A peer connects, and expired downloads are tried again. -/
def retryCalls : List ServiceCall := [.connectPeer ['b', 'o', 'b'] 0 false, .retryExpiredBlockDownloads 5]

end BCC.Proof
