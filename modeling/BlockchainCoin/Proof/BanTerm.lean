import BlockchainCoin.Proof.Banned
import BlockchainCoin.Proof.Limits

/-!
# The term of a ban

A ban at a time `t` ends no earlier than `t + ban_seconds`: until then every method of the
address book, whatever address it is about and whether it returns or raises, leaves the
record banned (`InTerm`). Another penalty only moves the end further, since times do not
decrease.
-/

namespace BCC.Proof

open BCC.Impl PyError

section

variable {m : PeerAddressManager} {r o : PeerRecord} {a b : Str} {seconds term now : Int}

/-- The address is banned until `term` at least, in a book with this `ban_seconds`. -/
structure InTerm (a : Str) (seconds term : Int) (m : PeerAddressManager) : Prop where
  banSeconds : m.banSeconds = seconds
  record : ∃ r, m.lookup a = some r ∧ r.state = .banned ∧ term ≤ r.bannedUntil

/-! ## Assignments -/

theorem InTerm.of_lookup (h : InTerm a seconds term m) (hr : m.lookup b = some r) (ha : b = a) :
    r.state = .banned ∧ term ≤ r.bannedUntil := by
  obtain ⟨r', hr', hstate, hterm⟩ := h.record
  rw [ha, hr', Option.some.injEq] at hr
  exact hr ▸ ⟨hstate, hterm⟩

theorem InTerm.update (h : InTerm a seconds term m) (hold : m.lookup r.address = some o)
    (hr : r.address = a → r.state = .banned ∧ term ≤ r.bannedUntil) : InTerm a seconds term (m.update r) := by
  refine ⟨h.banSeconds, ?_⟩
  rw [lookup_update hold]
  by_cases ha : a = r.address
  · rw [if_pos ha]
    exact ⟨r, rfl, hr ha.symm⟩
  · rw [if_neg ha]
    exact h.record

theorem InTerm.insert (h : InTerm a seconds term m) (hnew : m.lookup r.address = none) :
    InTerm a seconds term (m.insert r) := by
  obtain ⟨r', hr', hb⟩ := h.record
  have hne : a ≠ r.address := fun he => by
    rw [he, hnew] at hr'
    cases hr'
  refine ⟨?_, r', ?_, hb⟩
  · rw [← h.banSeconds]
    unfold PeerAddressManager.insert
    split <;> rfl
  · rw [lookup_insert hnew, if_neg hne]
    exact hr'

/-- An update of a record that is known by its address. -/
theorem InTerm.assign (h : InTerm a seconds term m) (hold : m.lookup b = some o) (haddress : r.address = b)
    (hr : b = a → r.state = .banned ∧ term ≤ r.bannedUntil) : InTerm a seconds term (m.update r) :=
  h.update (o := o) (haddress ▸ hold) fun ha => hr (haddress.symm.trans ha)

/-- `_clear_expired_ban` clears no ban before its term. -/
theorem InTerm.clear (h : InTerm a seconds term m) (hr : m.lookup b = some r) (hnow : now < term) :
    b = a → r.clearExpiredBan now = r := fun ha =>
  clearExpiredBan_of_lasts (Int.lt_of_lt_of_le hnow (h.of_lookup hr ha).2)

theorem InTerm.cleared (h : InTerm a seconds term m) (hr : m.lookup b = some r) (hnow : now < term) :
    b = a → (r.clearExpiredBan now).state = .banned ∧ term ≤ (r.clearExpiredBan now).bannedUntil := fun ha => by
  rw [h.clear hr hnow ha]
  exact h.of_lookup hr ha

/-- What is not banned once expired bans are cleared is another address. -/
theorem InTerm.ne_of_not_banned (h : InTerm a seconds term m) (hr : m.lookup b = some r) (hnow : now < term)
    (hb : (r.clearExpiredBan now).isBanned = false) : b ≠ a := fun ha => by
  rw [PeerRecord.isBanned, (h.cleared hr hnow ha).1] at hb
  cases hb

/-! ## Methods -/

theorem inTerm_addPeer (inbound : Bool) (h : InTerm a seconds term m) :
    Method.Ends (PeerAddressManager.addPeer b now inbound) m
      (fun r m' => InTerm a seconds term m' ∧ m'.lookup b = some r) fun _ m' => InTerm a seconds term m' := by
  refine ((addPeer_ends (Q := fun _ m' => InTerm a seconds term m') (R := fun _ m' => InTerm a seconds term m')
    (fun _ _ => h) (fun r hr => ?_) fun _ hnew => h.insert hnew).and addPeer_marks).mono
    (fun _ _ hends => ⟨hends.1, hends.2.2.1⟩) fun _ _ hends => hends.1
  have haddress : (touched now inbound r).address = b := address_of_lookup (r := r) hr
  exact h.assign hr haddress fun ha => h.of_lookup (r := r) hr ha

theorem inTerm_markConnecting (inbound : Bool) (hnow : now < term) :
    Method.Preserves (InTerm a seconds term) (PeerAddressManager.markConnecting b now inbound) := fun m h => by
  refine markConnecting_ends ((inTerm_addPeer inbound h).mono (fun r m₁ h₁ => ?_) fun _ _ h => h)
  obtain ⟨hterm, hr⟩ := h₁
  have haddress : (r.clearExpiredBan now).address = b := (clearExpiredBan_address r now).trans (address_of_lookup hr)
  exact ⟨fun _ => hterm.assign hr haddress (hterm.cleared hr hnow), fun hb _ =>
    hterm.assign hr haddress fun ha => absurd ha (hterm.ne_of_not_banned hr hnow hb)⟩

theorem inTerm_markConnected (hnow : now < term) :
    Method.Preserves (InTerm a seconds term) (PeerAddressManager.markConnected b now) := fun m h => by
  have haddress : ∀ r, m.lookup b = some r → (r.clearExpiredBan now).address = b := fun r hr =>
    (clearExpiredBan_address r now).trans (address_of_lookup hr)
  exact markConnected_ends (fun _ => h) (fun r hr _ => h.assign hr (haddress r hr) (h.cleared hr hnow))
    fun r hr hb => h.assign hr (haddress r hr) fun ha => absurd ha (h.ne_of_not_banned hr hnow hb)

/-- The methods that leave a banned record as it is. -/
theorem InTerm.assign_unless_banned (h : InTerm a seconds term m) (hr : m.lookup b = some o) (hb : ¬ o.isBanned = true)
    (haddress : r.address = o.address) : InTerm a seconds term (m.update r) :=
  h.assign hr (haddress.trans (address_of_lookup hr)) fun ha => absurd (decide_eq_true (h.of_lookup hr ha).1) hb

theorem inTerm_markDisconnected : Method.Preserves (InTerm a seconds term) (PeerAddressManager.markDisconnected b now) :=
  fun m h => by
    refine .bind (.reading (fun r hr => ?_) fun _ _ => h)
    rw [getPeer_eq_ok] at hr
    split
    · exact .pure h
    · rename_i hb
      exact assign_ends (h.assign_unless_banned hr hb rfl)

theorem inTerm_markFailure : Method.Preserves (InTerm a seconds term) (PeerAddressManager.markFailure b now) :=
  fun m h => by
    refine .bind (.reading (fun r hr => ?_) fun _ _ => h)
    rw [getPeer_eq_ok] at hr
    split
    · exact .pure h
    · rename_i hb
      exact .bind (.get (assign_ends (h.assign_unless_banned hr hb rfl)))

/-- A new ban ends no earlier than the term, when it is not earlier than the ban. -/
theorem InTerm.ban (h : InTerm a seconds term m) (hr : m.lookup b = some o) (hnow : term ≤ now + seconds)
    (haddress : r.address = o.address) : InTerm a seconds term (m.update (banned m now r)) :=
  h.assign hr (haddress.trans (address_of_lookup hr)) fun _ => ⟨rfl, by
    show term ≤ now + m.banSeconds
    rw [h.banSeconds]
    exact hnow⟩

theorem inTerm_banPeer (h : InTerm a seconds term m) (hnow : term ≤ now + seconds) {m' : PeerAddressManager}
    (hban : m.banPeer b now = .ok (r, m')) : InTerm a seconds term m' := by
  obtain ⟨o, hold, -, rfl⟩ := banPeer_eq_ok.mp hban
  exact h.ban hold hnow rfl

theorem inTerm_reportMisbehavior {score : Int} (h : InTerm a seconds term m) (hnow : term ≤ now + seconds)
    {m' : PeerAddressManager} (hreport : m.reportMisbehavior b score now = .ok (r, m')) : InTerm a seconds term m' := by
  obtain ⟨-, o, hold, rfl, rfl⟩ := reportMisbehavior_eq_ok.mp hreport
  split
  · exact h.ban hold hnow rfl
  · exact h.assign hold (address_of_lookup (r := o) hold) fun ha => h.of_lookup (r := o) hold ha

theorem inTerm_foldl_update : ∀ {rs : List PeerRecord} {m : PeerAddressManager}, (rs.map PeerRecord.address).Nodup →
    (∀ r ∈ rs, (∃ o, m.lookup r.address = some o) ∧ (r.address = a → r.state = .banned ∧ term ≤ r.bannedUntil)) →
    InTerm a seconds term m → InTerm a seconds term (rs.foldl PeerAddressManager.update m)
  | [], _, _, _, h => h
  | r :: rs, m, hn, hrs, h => by
    rw [List.map_cons, List.nodup_cons] at hn
    obtain ⟨⟨o, hold⟩, hr⟩ := hrs r List.mem_cons_self
    refine inTerm_foldl_update (m := m.update r) hn.2 (fun x hx => ?_) (h.update hold hr)
    obtain ⟨⟨y, hy⟩, hx'⟩ := hrs x (List.mem_cons_of_mem _ hx)
    have hne : x.address ≠ r.address := fun he => hn.1 (he ▸ List.mem_map_of_mem hx)
    exact ⟨⟨y, by rw [lookup_update hold, if_neg hne]; exact hy⟩, hx'⟩

/-- `eligible_outbound` clears bans, but none before its term, and leaves out who is banned. -/
theorem inTerm_eligibleOutbound (hnow : now < term) (h : InTerm a seconds term m) :
    Method.Ends (PeerAddressManager.eligibleOutbound now) m
      (fun rs m' => InTerm a seconds term m' ∧ ∀ r ∈ rs, r.address ≠ a) fun _ _ => False := by
  have hcleared : ∀ r ∈ m.peers.map (·.clearExpiredBan now), (∃ o, m.lookup r.address = some o) ∧
      (r.address = a → r.state = .banned ∧ term ≤ r.bannedUntil) := fun r hr => by
    obtain ⟨o, hold, rfl⟩ := List.mem_map.mp hr
    have hlookup : m.lookup o.address = some o := lookup_eq_some.mpr ⟨hold, rfl⟩
    rw [clearExpiredBan_address]
    exact ⟨⟨o, hlookup⟩, h.cleared hlookup hnow⟩
  have haddress : (m.peers.map (·.clearExpiredBan now)).map PeerRecord.address = m.peers.map PeerRecord.address := by
    rw [List.map_map]
    exact List.map_congr_left fun r _ => clearExpiredBan_address r now
  refine .bind (.get (.bind (.modify (.pure ⟨?_, fun r hr ha => ?_⟩))))
  · exact inTerm_foldl_update (haddress ▸ m.peers_nodup) hcleared h
  · obtain ⟨hmem, heligible⟩ := List.mem_filter.mp ((List.mem_insertionSort _).mp hr)
    have hstate := (of_decide_eq_true heligible).1
    rw [((hcleared r hmem).2 ha).1] at hstate
    cases hstate

theorem sliceTo_subset (records : List PeerRecord) (count : Int) :
    PeerAddressManager.sliceTo records count ⊆ records := by
  unfold PeerAddressManager.sliceTo
  split <;> exact List.take_subset _ _

theorem inTerm_selectOutbound (limit : Option Int) (hnow : now < term) (h : InTerm a seconds term m) :
    Method.Ends (PeerAddressManager.selectOutbound now limit) m
      (fun rs m' => InTerm a seconds term m' ∧ ∀ r ∈ rs, r.address ≠ a) fun _ _ => False :=
  .bind (.get (.bind ((inTerm_eligibleOutbound hnow h).mono
    (fun _ _ hends => .pure ⟨hends.1, fun r hr => hends.2 r (sliceTo_subset _ _ hr)⟩) fun _ _ => False.elim)))

/-- Nobody connects to a banned address before the term of its ban. -/
theorem markConnecting_inTerm (inbound : Bool) (hnow : now < term) (h : InTerm a seconds term m) :
    Method.Ends (PeerAddressManager.markConnecting a now inbound) m (fun _ _ => False)
      fun e _ => ∃ text, e = peerManagerError text := by
  refine ((markConnecting_ends ((inTerm_addPeer inbound h).mono (fun r m₁ h₁ => ?_) fun _ _ _ => trivial)).and
    markConnecting_marks).mono (fun _ _ hends => hends.1) fun _ _ hends => hends.2.1
  exact ⟨fun _ => trivial, fun hb _ => h₁.1.ne_of_not_banned h₁.2 hnow hb rfl⟩

theorem markConnected_inTerm (hnow : now < term) (h : InTerm a seconds term m) :
    Method.Ends (PeerAddressManager.markConnected a now) m (fun _ _ => False) fun e _ => ∃ text, e = peerManagerError text :=
  markConnected_ends (fun _ => ⟨_, rfl⟩) (fun _ _ _ => ⟨_, rfl⟩) fun _ hr hb => h.ne_of_not_banned hr hnow hb rfl

end

/-! ## Runs -/

/-- The operations of an address book: those that `BookCall` has, and those that only select and read. -/
inductive BookOperation
  | call (call : BookCall)
  | selectOutbound (now : Int) (limit : Option Int)
  | getPeer (address : Str)
  | evictionCandidates
  | outboundCount
  | inboundCount
  | allPeers

/-- The time that a call is given. -/
def BookCall.time : BookCall → Int
  | addPeer _ now _ | markConnecting _ now _ | markConnected _ now | markDisconnected _ now | markFailure _ now
  | reportMisbehavior _ _ now | banPeer _ now | eligibleOutbound now => now

/-- The time of an operation that is given one. -/
def BookOperation.time : BookOperation → Option Int
  | call c => some c.time
  | selectOutbound now _ => some now
  | _ => none

/-- The book after an operation, whether it returns or raises. -/
def BookOperation.apply (m : PeerAddressManager) : BookOperation → PeerAddressManager
  | call c => c.apply m
  | selectOutbound now limit => ((PeerAddressManager.selectOutbound now limit).call m).2
  | _ => m

/-- The call bans the address at a time: directly, or by a penalty with which its score reaches the threshold. -/
def BookCall.Bans (m : PeerAddressManager) (a : Str) (t : Int) : BookCall → Prop
  | banPeer address now => address = a ∧ now = t ∧ ∃ r m', m.banPeer address now = .ok (r, m')
  | reportMisbehavior address score now => address = a ∧ now = t ∧
      ∃ r m', m.reportMisbehavior address score now = .ok (r, m') ∧ m.banThreshold ≤ r.misbehaviorScore
  | _ => False

section

variable {m : PeerAddressManager} {a : Str} {t seconds term : Int}

/-- Before the term, and not before the ban, any operation leaves the address banned. -/
theorem InTerm.apply (h : InTerm a seconds term m) (op : BookOperation)
    (hterm : ∀ now, op.time = some now → now < term ∧ term ≤ now + seconds) : InTerm a seconds term (op.apply m) := by
  cases op with
  | call c =>
    obtain ⟨hnow, hban⟩ := hterm _ rfl
    cases c with
    | addPeer => exact ((inTerm_addPeer _ h).mono (fun _ _ h => h.1) fun _ _ h => h).snd
    | markConnecting => exact (inTerm_markConnecting _ hnow m h).snd
    | markConnected => exact (inTerm_markConnected hnow m h).snd
    | markDisconnected => exact (inTerm_markDisconnected m h).snd
    | markFailure => exact (inTerm_markFailure m h).snd
    | reportMisbehavior =>
      simp only [BookOperation.apply, BookCall.apply]
      split
      · rename_i hreport
        exact inTerm_reportMisbehavior h hban hreport
      · exact h
    | banPeer =>
      simp only [BookOperation.apply, BookCall.apply]
      split
      · rename_i hbanned
        exact inTerm_banPeer h hban hbanned
      · exact h
    | eligibleOutbound => exact ((inTerm_eligibleOutbound hnow h).mono (fun _ _ h => h.1) fun _ _ => False.elim).snd
  | selectOutbound now limit =>
    exact ((inTerm_selectOutbound limit (hterm _ rfl).1 h).mono (fun _ _ h => h.1) fun _ _ => False.elim).snd
  | getPeer | evictionCandidates | outboundCount | inboundCount | allPeers => exact h

theorem InTerm.foldl (ops : List BookOperation) (h : InTerm a seconds term m)
    (hterm : ∀ now ∈ ops.filterMap BookOperation.time, now < term ∧ term ≤ now + seconds) :
    InTerm a seconds term (ops.foldl BookOperation.apply m) := by
  induction ops generalizing m with
  | nil => exact h
  | cons op ops ih =>
    have hmem : ∀ op' ∈ op :: ops, ∀ now, op'.time = some now → now < term ∧ term ≤ now + seconds := fun op' hop now htime =>
      hterm now (List.mem_filterMap.mpr ⟨op', hop, htime⟩)
    refine ih (h.apply op (hmem op List.mem_cons_self)) fun now hnow => ?_
    obtain ⟨op', hop, htime⟩ := List.mem_filterMap.mp hnow
    exact hmem op' (List.mem_cons_of_mem _ hop) now htime

theorem inTerm_ban {o : PeerRecord} (hold : m.lookup a = some o) :
    InTerm a m.banSeconds (t + m.banSeconds) (m.update (banned m t o)) := by
  obtain rfl := address_of_lookup hold
  exact ⟨rfl, banned m t o, lookup_update_self (o := o) hold, rfl, Int.le_refl _⟩

/-- The ban starts its term. -/
theorem inTerm_of_bans {ban : BookCall} (h : ban.Bans m a t) :
    InTerm a m.banSeconds (t + m.banSeconds) (ban.apply m) := by
  cases ban with
  | banPeer address now =>
    obtain ⟨rfl, rfl, r, m', hban⟩ := h
    simp only [BookCall.apply, hban]
    obtain ⟨o, hold, -, rfl⟩ := banPeer_eq_ok.mp hban
    exact inTerm_ban hold
  | reportMisbehavior address score now =>
    obtain ⟨rfl, rfl, r, m', hreport, hreached⟩ := h
    simp only [BookCall.apply, hreport]
    obtain ⟨-, o, hold, rfl, rfl⟩ := reportMisbehavior_eq_ok.mp hreport
    have hthreshold : m.banThreshold ≤ o.misbehaviorScore + score := by
      split at hreached <;> exact hreached
    rw [if_pos hthreshold]
    refine ⟨rfl, banned m now { o with misbehaviorScore := o.misbehaviorScore + score }, ?_, rfl, Int.le_refl _⟩
    rw [lookup_update (o := o)]
    · exact if_pos (address_of_lookup hold).symm
    · exact (address_of_lookup hold).symm ▸ hold
  | _ => exact h.elim

/-- A ban holds for its full term: after it, and any operations that are not earlier and before `t + ban_seconds`, the
address is banned, and before `t + ban_seconds` nobody connects to it or selects it. -/
theorem bans_hold {ban : BookCall} (hban : ban.Bans m a t) (ops : List BookOperation)
    (htimes : ∀ now ∈ ops.filterMap BookOperation.time, t ≤ now ∧ now < t + m.banSeconds) :
    (∃ r, (ops.foldl BookOperation.apply (ban.apply m)).lookup a = some r ∧ r.state = .banned) ∧
      ∀ now < t + m.banSeconds,
        (∀ inbound, ∃ text m', (PeerAddressManager.markConnecting a now inbound).call
          (ops.foldl BookOperation.apply (ban.apply m)) = (.error (peerManagerError text), m')) ∧
        (∃ text m', (PeerAddressManager.markConnected a now).call
          (ops.foldl BookOperation.apply (ban.apply m)) = (.error (peerManagerError text), m')) ∧
        (∃ rs m', (PeerAddressManager.eligibleOutbound now).call
          (ops.foldl BookOperation.apply (ban.apply m)) = (.ok rs, m') ∧ ∀ r ∈ rs, r.address ≠ a) ∧
        ∀ limit, ∃ rs m', (PeerAddressManager.selectOutbound now limit).call
          (ops.foldl BookOperation.apply (ban.apply m)) = (.ok rs, m') ∧ ∀ r ∈ rs, r.address ≠ a := by
  have hterm := (inTerm_of_bans hban).foldl ops fun now hnow => ⟨(htimes now hnow).2, by
    have hle := (htimes now hnow).1
    omega⟩
  generalize ops.foldl BookOperation.apply (ban.apply m) = book at hterm ⊢
  obtain ⟨r, hr, hstate, -⟩ := hterm.record
  refine ⟨⟨r, hr, hstate⟩, fun now hnow => ⟨fun inbound => ?_, ?_, ?_, fun limit => ?_⟩⟩
  · obtain ⟨_, m', hcall, text, rfl⟩ := (markConnecting_inTerm inbound hnow hterm).raises
    exact ⟨text, m', hcall⟩
  · obtain ⟨_, m', hcall, text, rfl⟩ := (markConnected_inTerm hnow hterm).raises
    exact ⟨text, m', hcall⟩
  · obtain ⟨rs, m', hcall, -, hrs⟩ := (inTerm_eligibleOutbound hnow hterm).returns
    exact ⟨rs, m', hcall, hrs⟩
  · obtain ⟨rs, m', hcall, -, hrs⟩ := (inTerm_selectOutbound limit hnow hterm).returns
    exact ⟨rs, m', hcall, hrs⟩

/-- An address book in which Bob is known. -/
def knownBook : PeerAddressManager :=
  { PeerAddressManager.empty with
    peers := [{ address := ['b', 'o', 'b'] }]
    peers_nodup := by decide }

theorem bans_hold_bob :
    let ban : BookCall := .reportMisbehavior ['b', 'o', 'b'] 100 10
    let ops : List BookOperation := [.call (.markDisconnected ['b', 'o', 'b'] 20), .selectOutbound 30 none]
    let book := ops.foldl BookOperation.apply (ban.apply knownBook)
    (∃ r, book.lookup ['b', 'o', 'b'] = some r ∧ r.state = .banned) ∧
      ∀ now < 10 + knownBook.banSeconds,
        (∀ inbound, ∃ text m', (PeerAddressManager.markConnecting ['b', 'o', 'b'] now inbound).call book =
          (.error (peerManagerError text), m')) ∧
        (∃ text m', (PeerAddressManager.markConnected ['b', 'o', 'b'] now).call book =
          (.error (peerManagerError text), m')) ∧
        (∃ rs m', (PeerAddressManager.eligibleOutbound now).call book = (.ok rs, m') ∧
          ∀ r ∈ rs, r.address ≠ ['b', 'o', 'b']) ∧
        ∀ limit, ∃ rs m', (PeerAddressManager.selectOutbound now limit).call book = (.ok rs, m') ∧
          ∀ r ∈ rs, r.address ≠ ['b', 'o', 'b'] :=
  have hban : BookCall.Bans knownBook ['b', 'o', 'b'] 10 (.reportMisbehavior ['b', 'o', 'b'] 100 10) :=
    ⟨rfl, rfl, _, _, rfl, by decide⟩
  bans_hold hban [.call (.markDisconnected ['b', 'o', 'b'] 20), .selectOutbound 30 none] (by decide)

end

end BCC.Proof
