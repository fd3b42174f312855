import BlockchainCoin.Framework.Except
import BlockchainCoin.Framework.Table
import BlockchainCoin.Impl.Crypto

/-!
# `peers.py`: the address book

`PeerAddressManager` keeps a record for every address it has heard of, with the
state of its connection, and bounds how many connections there are in each
direction. A method may have changed a record before it raises.
-/

namespace BCC.Impl

open PyError

/-- `ConnectionState` -/
inductive ConnectionState
  | disconnected
  | connecting
  | connected
  | banned
  deriving DecidableEq

/-- `PeerRecord` -/
structure PeerRecord where
  address : Str
  lastSeen : Int := 0
  failures : Int := 0
  misbehaviorScore : Int := 0
  state : ConnectionState := .disconnected
  nextRetryAt : Int := 0
  bannedUntil : Int := 0
  inbound : Bool := false
  deriving DecidableEq

namespace PeerRecord

def isBanned (r : PeerRecord) : Bool := r.state = .banned

/-- `peer.state in {ConnectionState.CONNECTING, ConnectionState.CONNECTED}` -/
def isActive (r : PeerRecord) : Bool := r.state = .connecting ∨ r.state = .connected

/-- `_clear_expired_ban` -/
def clearExpiredBan (r : PeerRecord) (now : Int) : PeerRecord :=
  if r.state = .banned ∧ r.bannedUntil ≤ now then { r with state := .disconnected, bannedUntil := 0 } else r

/-- The order of `eligible_outbound`: by `(-last_seen, failures, address)`. -/
def before (a b : PeerRecord) : Prop :=
  b.lastSeen < a.lastSeen ∨ a.lastSeen = b.lastSeen ∧
    (a.failures < b.failures ∨ a.failures = b.failures ∧ a.address ≤ b.address)

instance : DecidableRel before := fun a b =>
  inferInstanceAs (Decidable (b.lastSeen < a.lastSeen ∨ a.lastSeen = b.lastSeen ∧
    (a.failures < b.failures ∨ a.failures = b.failures ∧ a.address ≤ b.address)))

/-- The order of `eviction_candidates`: by `(misbehavior_score, last_seen, address)`, reversed. -/
def worse (a b : PeerRecord) : Prop :=
  b.misbehaviorScore < a.misbehaviorScore ∨ a.misbehaviorScore = b.misbehaviorScore ∧
    (b.lastSeen < a.lastSeen ∨ a.lastSeen = b.lastSeen ∧ b.address ≤ a.address)

instance : DecidableRel worse := fun a b =>
  inferInstanceAs (Decidable (b.misbehaviorScore < a.misbehaviorScore ∨ a.misbehaviorScore = b.misbehaviorScore ∧
    (b.lastSeen < a.lastSeen ∨ a.lastSeen = b.lastSeen ∧ b.address ≤ a.address)))

end PeerRecord

/-- `PeerAddressManager`, with what its constructor checks: the records by their addresses. -/
structure PeerAddressManager where
  maxOutbound : Int := 8
  maxInbound : Int := 32
  banThreshold : Int := 100
  baseBackoffSeconds : Int := 30
  maxBackoffSeconds : Int := 3600
  banSeconds : Int := 24 * 60 * 60
  peers : List PeerRecord := []
  maxOutbound_nonneg : 0 ≤ maxOutbound := by decide
  maxInbound_nonneg : 0 ≤ maxInbound := by decide
  banThreshold_pos : 0 < banThreshold := by decide
  peers_nodup : (peers.map PeerRecord.address).Nodup := by decide
  deriving DecidableEq

/-- `str.isspace` of one character. -/
def isSpace (c : Char) : Bool :=
  let n := c.toNat
  (9 ≤ n && n ≤ 13) || (28 ≤ n && n ≤ 32) || n == 0x85 || n == 0xa0 || n == 0x1680 || (0x2000 ≤ n && n ≤ 0x200a) ||
    n == 0x2028 || n == 0x2029 || n == 0x202f || n == 0x205f || n == 0x3000

namespace PeerAddressManager

/-- `PeerAddressManager()` -/
abbrev empty : PeerAddressManager := {}

/-- `_validate_address` -/
def validateAddress (address : Str) : Except PyError Unit := do
  raiseIf (address = [] ∨ address.all isSpace = true) (peerManagerError "peer address is invalid")
  raiseIf (255 < address.length) (peerManagerError "peer address is too long")

def lookup (m : PeerAddressManager) (address : Str) : Option PeerRecord := Table.lookup PeerRecord.address m.peers address

def getPeer (m : PeerAddressManager) (address : Str) : Except PyError PeerRecord :=
  match Table.lookup PeerRecord.address m.peers address with
  | some record => .ok record
  | none => .error (peerManagerError "unknown peer")

theorem map_address_update (record : PeerRecord) (peers : List PeerRecord) :
    (peers.map fun r => if r.address = record.address then record else r).map PeerRecord.address =
      peers.map PeerRecord.address := by
  rw [List.map_map]
  refine List.map_congr_left fun r _ => ?_
  show (if r.address = record.address then record else r).address = r.address
  split
  · rename_i h
    exact h.symm
  · rfl

/-- An assignment to the fields of a record of the book. -/
def update (m : PeerAddressManager) (record : PeerRecord) : PeerAddressManager :=
  { m with
    peers := m.peers.map fun r => if r.address = record.address then record else r
    peers_nodup := by rw [map_address_update]; exact m.peers_nodup }

/-- `self._peers[address] = record`, for an address that has no record. -/
def insert (m : PeerAddressManager) (record : PeerRecord) : PeerAddressManager :=
  if h : record.address ∈ m.peers.map PeerRecord.address then m
  else { m with
    peers := m.peers ++ [record]
    peers_nodup := by
      rw [List.map_append, List.map_singleton, List.nodup_append]
      refine ⟨m.peers_nodup, List.nodup_singleton _, fun a ha b hb => ?_⟩
      rw [List.mem_singleton] at hb
      subst hb
      rintro rfl
      exact h ha }

/-- `inbound_count`, or `outbound_count` for `false`. -/
def activeCount (m : PeerAddressManager) (inbound : Bool) : Nat :=
  m.peers.countP fun r => r.isActive && r.inbound = inbound

def outboundCount (m : PeerAddressManager) : Nat := m.activeCount false

def inboundCount (m : PeerAddressManager) : Nat := m.activeCount true

/-- `max_inbound`, or `max_outbound` for `false`. -/
def limit (m : PeerAddressManager) (inbound : Bool) : Int := if inbound then m.maxInbound else m.maxOutbound

/-- `PeerAddressManager.ban_peer` -/
def banPeer (m : PeerAddressManager) (address : Str) (now : Int) :
    Except PyError (PeerRecord × PeerAddressManager) := do
  let record ← m.getPeer address
  let bannedUntil := now + m.banSeconds
  let banned := { record with state := .banned, bannedUntil := bannedUntil, nextRetryAt := bannedUntil }
  return (banned, m.update banned)

/-- `PeerAddressManager.report_misbehavior` -/
def reportMisbehavior (m : PeerAddressManager) (address : Str) (score now : Int) :
    Except PyError (PeerRecord × PeerAddressManager) := do
  raiseIf (score < 0) (peerManagerError "misbehavior score cannot be negative")
  let record ← m.getPeer address
  let scored := { record with misbehaviorScore := record.misbehaviorScore + score }
  if m.banThreshold ≤ scored.misbehaviorScore then
    (m.update scored).banPeer address now
  else
    return (scored, m.update scored)

/-! ## Connections -/

/-- An assignment to the fields of a record, which is returned. -/
def assign (record : PeerRecord) : Method PeerAddressManager PyError PeerRecord := do
  modify (·.update record)
  return record

/-- `add_peer` -/
def addPeer (address : Str) (now : Int) (inbound : Bool) : Method PeerAddressManager PyError PeerRecord := do
  Method.reading fun _ => validateAddress address
  let m ← get
  match m.lookup address with
  | some existing =>
    assign { existing with lastSeen := max existing.lastSeen now, inbound := existing.inbound || inbound }
  | none => do
    let record : PeerRecord := { address := address, lastSeen := now, inbound := inbound }
    modify (·.insert record)
    return record

/-- `mark_connecting` -/
def markConnecting (address : Str) (now : Int) (inbound : Bool) : Method PeerAddressManager PyError PeerRecord := do
  let added ← addPeer address now inbound
  let record ← assign (added.clearExpiredBan now)
  let m ← get
  if record.isBanned then throw (peerManagerError "peer is banned")
  else if inbound = true ∧ m.maxInbound ≤ m.inboundCount ∧ record.state ≠ .connected then
    throw (peerManagerError "inbound peer limit reached")
  else if inbound = false ∧ m.maxOutbound ≤ m.outboundCount ∧ record.state ≠ .connected then
    throw (peerManagerError "outbound peer limit reached")
  else assign { record with state := .connecting, inbound := inbound }

/-- `mark_connected` -/
def markConnected (address : Str) (now : Int) : Method PeerAddressManager PyError PeerRecord := do
  let known ← Method.reading (getPeer · address)
  let record ← assign (known.clearExpiredBan now)
  if record.isBanned then throw (peerManagerError "peer is banned")
  else assign { record with state := .connected, lastSeen := now, failures := 0, nextRetryAt := 0 }

/-- `mark_disconnected` -/
def markDisconnected (address : Str) (now : Int) : Method PeerAddressManager PyError PeerRecord := do
  let record ← Method.reading (getPeer · address)
  if record.isBanned then return record
  else assign { record with state := .disconnected, nextRetryAt := now }

/-- `mark_failure` -/
def markFailure (address : Str) (now : Int) : Method PeerAddressManager PyError PeerRecord := do
  let record ← Method.reading (getPeer · address)
  if record.isBanned then return record
  else
    let m ← get
    let delay := min m.maxBackoffSeconds (m.baseBackoffSeconds * 2 ^ record.failures.toNat)
    assign { record with failures := record.failures + 1, state := .disconnected, nextRetryAt := now + delay }

/-- `eligible_outbound` -/
def eligibleOutbound (now : Int) : Method PeerAddressManager PyError (List PeerRecord) := do
  let m ← get
  let cleared := m.peers.map (·.clearExpiredBan now)
  modify fun m => cleared.foldl update m
  let eligible := cleared.filter fun r => r.state = .disconnected ∧ r.inbound = false ∧ r.nextRetryAt ≤ now
  return eligible.insertionSort PeerRecord.before

/-- `records[:count]` -/
def sliceTo (records : List PeerRecord) (count : Int) : List PeerRecord :=
  if 0 ≤ count then records.take count.toNat else records.take (records.length - (-count).toNat)

/-- `select_outbound` -/
def selectOutbound (now : Int) (limit : Option Int) : Method PeerAddressManager PyError (List PeerRecord) := do
  let m ← get
  let remaining := max 0 (m.maxOutbound - m.outboundCount)
  let count := match limit with
    | none => remaining
    | some limit => min limit remaining
  let eligible ← eligibleOutbound now
  return sliceTo eligible count

/-- `eviction_candidates` -/
def evictionCandidates (m : PeerAddressManager) : List PeerRecord :=
  (m.peers.filter fun r => r.state = .connected).insertionSort PeerRecord.worse

/-- `all_peers` -/
def allPeers (m : PeerAddressManager) : List PeerRecord := m.peers.insertionSort fun a b => a.address ≤ b.address

end PeerAddressManager

end BCC.Impl
