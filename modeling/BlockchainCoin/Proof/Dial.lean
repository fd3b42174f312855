import BlockchainCoin.Proof.BanTerm

/-!
# Peers that are dialled

`select_outbound` picks peers to connect to. Whatever was done with the address book before,
`mark_connecting` then takes every one of them, in their order, and there are
never more outbound connections than allowed (`selected_dial`).
-/

namespace BCC.Proof

open BCC.Impl PyError

variable {m : PeerAddressManager} {r o : PeerRecord} {a : Str} {now : Int}

/-! ## Addresses -/

/-- Every address of the book passes `_validate_address`. -/
def Addressed (m : PeerAddressManager) : Prop := ∀ a r, m.lookup a = some r → PeerAddressManager.validateAddress a = .ok ()

theorem Addressed.update (h : Addressed m) (ho : m.lookup r.address = some o) : Addressed (m.update r) := fun a r' hr' => by
  rw [lookup_update ho] at hr'
  split at hr'
  · rename_i ha
    exact ha ▸ h r.address o ho
  · exact h a r' hr'

theorem Addressed.insert (h : Addressed m) (hr : m.lookup r.address = none)
    (hvalid : PeerAddressManager.validateAddress r.address = .ok ()) : Addressed (m.insert r) := fun a r' hr' => by
  rw [lookup_insert hr] at hr'
  split at hr'
  · rename_i ha
    exact ha ▸ hvalid
  · exact h a r' hr'

theorem addressed_addPeer (inbound : Bool) (h : Addressed m) :
    Method.Ends (PeerAddressManager.addPeer a now inbound) m (fun r m' => Addressed m' ∧ m'.lookup r.address = some r)
      fun _ => Addressed :=
  addPeer_ends (fun _ _ => h)
    (fun r hr => by
      have ho : m.lookup (touched now inbound r).address = some r := (address_of_lookup hr).symm ▸ hr
      exact ⟨h.update ho, lookup_update_self ho⟩)
    fun hvalid hr => ⟨h.insert hr hvalid, by rw [lookup_insert hr, if_pos rfl]⟩

theorem Addressed.clear (h : Addressed m) (hr : m.lookup r.address = some o) (r' : PeerRecord) (ha : r'.address = r.address) :
    Addressed (m.update r') := h.update (o := o) (ha ▸ hr)

theorem addressed_markConnecting (inbound : Bool) :
    Method.Preserves Addressed (PeerAddressManager.markConnecting a now inbound) := fun _ h =>
  markConnecting_ends ((addressed_addPeer inbound h).mono (fun r _ h₁ =>
    ⟨fun _ => h₁.1.clear h₁.2 _ (clearExpiredBan_address r now), fun _ _ => h₁.1.clear h₁.2 _ (clearExpiredBan_address r now)⟩)
    fun _ _ h => h)

/-- An assignment to a record that was looked up. -/
theorem Addressed.assign (h : Addressed m) (hr : m.lookup a = some o) (r : PeerRecord) (ha : r.address = o.address) :
    Addressed (m.update r) := h.update (o := o) (by rw [ha, address_of_lookup hr]; exact hr)

theorem addressed_markConnected : Method.Preserves Addressed (PeerAddressManager.markConnected a now) := fun _ h =>
  markConnected_ends (fun _ => h) (fun r hr _ => h.assign hr _ (clearExpiredBan_address r now))
    fun r hr _ => h.assign hr _ (clearExpiredBan_address r now)

theorem addressed_markDisconnected : Method.Preserves Addressed (PeerAddressManager.markDisconnected a now) := fun _ h => by
  refine .bind (.reading (fun r hr => ?_) fun _ _ => h)
  split
  · exact .pure h
  · exact assign_ends (h.assign (getPeer_eq_ok.mp hr) _ rfl)

theorem addressed_markFailure : Method.Preserves Addressed (PeerAddressManager.markFailure a now) := fun _ h => by
  refine .bind (.reading (fun r hr => ?_) fun _ _ => h)
  split
  · exact .pure h
  · exact .bind (.get (assign_ends (h.assign (getPeer_eq_ok.mp hr) _ rfl)))

/-! ## Expired bans -/

/-- Records of a book that were changed, assigned one after the other. -/
theorem lookup_foldl_update : ∀ {rs : List PeerRecord} {m : PeerAddressManager}, (rs.map PeerRecord.address).Nodup →
    (∀ r ∈ rs, (m.lookup r.address).isSome = true) → ∀ a, (rs.foldl PeerAddressManager.update m).lookup a =
      (Table.lookup PeerRecord.address rs a).or (m.lookup a)
  | [], _, _, _, _ => rfl
  | r :: rs, m, hn, h, a => by
    rw [List.map_cons, List.nodup_cons] at hn
    rw [List.forall_mem_cons] at h
    obtain ⟨o, ho⟩ := Option.isSome_iff_exists.mp h.1
    have hrest : ∀ x ∈ rs, ((m.update r).lookup x.address).isSome = true := fun x hx => by
      rw [lookup_update ho]
      split
      · rfl
      · exact h.2 x hx
    rw [List.foldl_cons, lookup_foldl_update hn.2 hrest, lookup_update ho]
    by_cases ha : a = r.address
    · subst ha
      rw [Table.lookup_eq_none.mpr hn.1, if_pos rfl, Table.lookup, List.find?_cons_of_pos (by simp)]
      rfl
    · rw [if_neg ha, Table.lookup, Table.lookup, List.find?_cons_of_neg (by simpa using Ne.symm ha)]

/-- The book after `_clear_expired_ban` on every record. -/
def clearedBook (now : Int) (m : PeerAddressManager) : PeerAddressManager :=
  (m.peers.map (·.clearExpiredBan now)).foldl PeerAddressManager.update m

theorem address_cleared (now : Int) (rs : List PeerRecord) :
    (rs.map (·.clearExpiredBan now)).map PeerRecord.address = rs.map PeerRecord.address := by
  rw [List.map_map]
  exact List.map_congr_left fun r _ => clearExpiredBan_address r now

theorem lookup_clearedBook (now : Int) (m : PeerAddressManager) (a : Str) :
    (clearedBook now m).lookup a = (m.lookup a).map (·.clearExpiredBan now) := by
  have hfound : ∀ a, Table.lookup PeerRecord.address (m.peers.map (·.clearExpiredBan now)) a =
      (m.lookup a).map (·.clearExpiredBan now) := fun a => by
    rw [Table.lookup, List.find?_map]
    congr 1
    rw [PeerAddressManager.lookup, Table.lookup]
    congr 1
    funext r
    show decide ((r.clearExpiredBan now).address = a) = _
    rw [clearExpiredBan_address]
  rw [clearedBook, lookup_foldl_update (by rw [address_cleared]; exact m.peers_nodup), hfound]
  · cases m.lookup a <;> rfl
  · intro r hr
    obtain ⟨o, ho, rfl⟩ := List.mem_map.mp hr
    rw [clearExpiredBan_address, lookup_eq_some.mpr ⟨ho, rfl⟩]
    rfl

theorem activeCount_foldl_update (d : Bool) : ∀ {rs : List PeerRecord} {m : PeerAddressManager},
    (rs.map PeerRecord.address).Nodup → (∀ r ∈ rs, ∃ o, m.lookup r.address = some o ∧ counted d r = counted d o) →
    (rs.foldl PeerAddressManager.update m).activeCount d = m.activeCount d
  | [], _, _, _ => rfl
  | r :: rs, m, hn, h => by
    rw [List.map_cons, List.nodup_cons] at hn
    obtain ⟨o, ho, hsame⟩ := h r List.mem_cons_self
    have hcount := activeCount_update ho d
    rw [List.foldl_cons, activeCount_foldl_update d hn.2 fun x hx => ?_]
    · rw [hsame] at hcount
      omega
    · obtain ⟨y, hy, hxy⟩ := h x (List.mem_cons_of_mem _ hx)
      have hne : x.address ≠ r.address := fun he => hn.1 (he ▸ List.mem_map_of_mem hx)
      exact ⟨y, by rw [lookup_update ho, if_neg hne]; exact hy, hxy⟩

theorem activeCount_clearedBook (now : Int) (m : PeerAddressManager) (d : Bool) :
    (clearedBook now m).activeCount d = m.activeCount d := by
  refine activeCount_foldl_update d (by rw [address_cleared]; exact m.peers_nodup) fun r hr => ?_
  obtain ⟨o, ho, rfl⟩ := List.mem_map.mp hr
  exact ⟨o, by rw [clearExpiredBan_address]; exact lookup_eq_some.mpr ⟨ho, rfl⟩, counted_clearExpiredBan d o now⟩

theorem limit_foldl_update (d : Bool) : ∀ (rs : List PeerRecord) (m : PeerAddressManager),
    (rs.foldl PeerAddressManager.update m).limit d = m.limit d
  | [], _ => rfl
  | r :: rs, m => limit_foldl_update d rs (m.update r)

/-! ## Dialling -/

/-- A peer that may be dialled. -/
structure Dialable (m : PeerAddressManager) (r : PeerRecord) : Prop where
  there : m.lookup r.address = some r
  disconnected : r.state = .disconnected
  outbound : r.inbound = false

/-- Its record once `mark_connecting` has taken it. -/
def dialled (now : Int) (r : PeerRecord) : PeerRecord := { r with lastSeen := max r.lastSeen now, state := .connecting }

theorem markConnecting_dialable (now : Int) (h : Dialable m r)
    (hvalid : PeerAddressManager.validateAddress r.address = .ok ()) (hroom : RoomFor m false) :
    (PeerAddressManager.markConnecting r.address now false).call m = (.ok (dialled now r), m.update (dialled now r)) := by
  have hassign : ∀ (x : PeerRecord) (m : PeerAddressManager), (PeerAddressManager.assign x).call m = (.ok x, m.update x) :=
    fun _ _ => rfl
  have hadd : (PeerAddressManager.addPeer r.address now false).call m =
      (.ok (touched now false r), m.update (touched now false r)) := by
    simp only [PeerAddressManager.addPeer, Method.call_bind, Method.call_reading, hvalid, Method.call_get, h.there]
    rfl
  have hstate : (touched now false r).state = .disconnected := h.disconnected
  have hclear : (touched now false r).clearExpiredBan now = touched now false r := by
    rw [PeerRecord.clearExpiredBan, if_neg fun hb => by rw [hstate] at hb; cases hb.1]
  have hcount : (m.update (touched now false r)).outboundCount = m.outboundCount := by
    have hupdate := activeCount_update (r := touched now false r) (o := r) h.there false
    have hinactive : ∀ x : PeerRecord, x.state = .disconnected → counted false x = false := fun x hx => by
      simp [counted, PeerRecord.isActive, hx]
    rw [hinactive r h.disconnected, hinactive _ hstate] at hupdate
    exact hupdate
  have hnotBanned : ¬ (touched now false r).isBanned = true := by
    rw [PeerRecord.isBanned, hstate]
    decide
  have hdialled : { touched now false r with state := .connecting, inbound := false } = dialled now r := by
    have hin := h.outbound
    cases r
    cases hin
    rfl
  simp only [PeerAddressManager.markConnecting, Method.call_bind, hadd, hclear, hassign, Method.call_get]
  rw [update_update m rfl, if_neg hnotBanned, if_neg (fun hc => Bool.false_ne_true hc.1),
    if_neg (fun hc => absurd hc.2.1 (not_le.mpr (by rw [hcount]; exact hroom))), hassign, hdialled]
  rw [update_update m]
  rfl

/-- `mark_connecting` on one record after the other. -/
def dial (now : Int) : List PeerRecord → Method PeerAddressManager PyError (List PeerRecord)
  | [] => return []
  | record :: records => do
    let connecting ← PeerAddressManager.markConnecting record.address now false
    let rest ← dial now records
    return connecting :: rest

/-- What became of a book when the records were dialled. -/
structure Dialled (now : Int) (m : PeerAddressManager) (rs : List PeerRecord) (m' : PeerAddressManager) : Prop where
  outbound : m'.outboundCount = m.outboundCount + rs.length
  inbound : m'.inboundCount = m.inboundCount
  maxOutbound : m'.maxOutbound = m.maxOutbound
  dialled : ∀ r ∈ rs, m'.lookup r.address = some (dialled now r)
  others : ∀ a ∉ rs.map PeerRecord.address, m'.lookup a = m.lookup a

/-- Where there is room for them, peers that may be dialled are all taken. -/
theorem dial_call (now : Int) : ∀ {rs : List PeerRecord} {m : PeerAddressManager}, (rs.map PeerRecord.address).Nodup →
    (∀ r ∈ rs, Dialable m r ∧ PeerAddressManager.validateAddress r.address = .ok ()) →
    (rs.length : Int) ≤ max 0 (m.maxOutbound - m.outboundCount) →
    ∃ m', (dial now rs).call m = (.ok (rs.map (dialled now)), m') ∧ Dialled now m rs m'
  | [], m, _, _, _ => ⟨m, rfl, rfl, rfl, rfl, fun _ hr => absurd hr List.not_mem_nil, fun _ _ => rfl⟩
  | r :: rs, m, hn, h, hroom => by
    rw [List.map_cons, List.nodup_cons] at hn
    rw [List.length_cons] at hroom
    obtain ⟨hr, hrs⟩ := List.forall_mem_cons.mp h
    have hthere : m.lookup (dialled now r).address = some r := hr.1.there
    have hcall := markConnecting_dialable now hr.1 hr.2 (by show (m.outboundCount : Int) < m.maxOutbound; omega)
    have hne : ∀ x ∈ rs, x.address ≠ (dialled now r).address := fun x hx he =>
      hn.1 (he ▸ List.mem_map_of_mem hx)
    have hactive := activeCount_update hthere
    have hinactive : ∀ d, counted d r = false := fun d => by simp [counted, PeerRecord.isActive, hr.1.disconnected]
    have hout : (m.update (dialled now r)).outboundCount = m.outboundCount + 1 := by
      have hcount := hactive false
      rw [hinactive, show counted false (dialled now r) = true by simp [counted, PeerRecord.isActive, dialled, hr.1.outbound]]
        at hcount
      exact hcount
    have hin : (m.update (dialled now r)).inboundCount = m.inboundCount := by
      have hcount := hactive true
      rw [hinactive, show counted true (dialled now r) = false by simp [counted, dialled, hr.1.outbound]] at hcount
      exact hcount
    obtain ⟨m', hrest, hdone⟩ := dial_call now (m := m.update (dialled now r)) hn.2
      (fun x hx => ⟨⟨by rw [lookup_update hthere, if_neg (hne x hx)]; exact (hrs x hx).1.there, (hrs x hx).1.disconnected,
        (hrs x hx).1.outbound⟩, (hrs x hx).2⟩) (by rw [hout]; show _ ≤ max 0 (m.maxOutbound - _); omega)
    refine ⟨m', ?_, ⟨?_, hdone.inbound.trans hin, hdone.maxOutbound, fun x hx => ?_, fun a ha => ?_⟩⟩
    · simp only [dial, Method.call_bind, hcall, hrest]
      rfl
    · rw [hdone.outbound, hout, List.length_cons]
      omega
    · rcases List.mem_cons.mp hx with rfl | hx
      · rw [hdone.others _ hn.1]
        exact lookup_update_self hthere
      · exact hdone.dialled x hx
    · rw [List.map_cons, List.mem_cons, not_or] at ha
      rw [hdone.others a ha.2, lookup_update hthere]
      exact if_neg ha.1

/-! ## The selection -/

instance : Std.Total PeerRecord.before where
  total a b := by
    simp only [PeerRecord.before]
    rcases lt_trichotomy a.lastSeen b.lastSeen with h | h | h
    · exact .inr (.inl h)
    · rcases lt_trichotomy a.failures b.failures with h' | h' | h'
      · exact .inl (.inr ⟨h, .inl h'⟩)
      · rcases le_total a.address b.address with ha | ha
        · exact .inl (.inr ⟨h, .inr ⟨h', ha⟩⟩)
        · exact .inr (.inr ⟨h.symm, .inr ⟨h'.symm, ha⟩⟩)
      · exact .inr (.inr ⟨h.symm, .inl h'⟩)
    · exact .inl (.inl h)

instance : IsTrans PeerRecord PeerRecord.before where
  trans a b c hab hbc := by
    simp only [PeerRecord.before] at *
    rcases hab with h | ⟨h, h' | ⟨h', hh⟩⟩ <;> rcases hbc with k | ⟨k, k' | ⟨k', kk⟩⟩
    all_goals first
      | exact .inl (by omega)
      | exact .inr ⟨by omega, .inl (by omega)⟩
      | exact .inr ⟨by omega, .inr ⟨by omega, hh.trans kk⟩⟩

/-- What `eligible_outbound` returns. -/
def eligibleOf (now : Int) (m : PeerAddressManager) : List PeerRecord :=
  ((m.peers.map (·.clearExpiredBan now)).filter fun r => r.state = .disconnected ∧ r.inbound = false ∧ r.nextRetryAt ≤ now)
    |>.insertionSort PeerRecord.before

theorem mem_eligibleOf : r ∈ eligibleOf now m ↔ (∃ o ∈ m.peers, o.clearExpiredBan now = r) ∧ r.state = .disconnected ∧
    r.inbound = false ∧ r.nextRetryAt ≤ now := by
  rw [eligibleOf, List.mem_insertionSort, List.mem_filter, List.mem_map, decide_eq_true_iff]

theorem nodup_eligibleOf (now : Int) (m : PeerAddressManager) : ((eligibleOf now m).map PeerRecord.address).Nodup := by
  rw [eligibleOf, ((List.perm_insertionSort _ _).map PeerRecord.address).nodup_iff]
  refine List.Nodup.sublist (List.filter_sublist.map _) ?_
  rw [address_cleared]
  exact m.peers_nodup

/-- An eligible peer may be dialled once the expired bans are cleared. -/
theorem dialable_of_mem (h : r ∈ eligibleOf now m) : Dialable (clearedBook now m) r := by
  obtain ⟨⟨o, ho, rfl⟩, hstate, hin, -⟩ := mem_eligibleOf.mp h
  refine ⟨?_, hstate, hin⟩
  rw [lookup_clearedBook, clearExpiredBan_address, lookup_eq_some.mpr ⟨ho, rfl⟩]
  rfl

/-- How many peers `select_outbound` takes, at most. -/
def roomOf (m : PeerAddressManager) (limit : Option Int) : Int :=
  match limit with
  | none => max 0 (m.maxOutbound - m.outboundCount)
  | some limit => min limit (max 0 (m.maxOutbound - m.outboundCount))

theorem selectOutbound_call (now : Int) (limit : Option Int) (m : PeerAddressManager) :
    (PeerAddressManager.selectOutbound now limit).call m =
      (.ok (PeerAddressManager.sliceTo (eligibleOf now m) (roomOf m limit)), clearedBook now m) := by
  cases limit <;> rfl

/-! ## Runs -/

theorem Addressed.clearedBook (h : Addressed m) (now : Int) : Addressed (clearedBook now m) := fun a r hr => by
  rw [lookup_clearedBook] at hr
  obtain ⟨o, ho, -⟩ := Option.map_eq_some_iff.mp hr
  exact h a o ho

theorem Addressed.apply (h : Addressed m) (op : BookOperation) : Addressed (op.apply m) := by
  cases op with
  | call c =>
    cases c with
    | addPeer => exact ((addressed_addPeer _ h).mono (fun _ _ h => h.1) fun _ _ h => h).snd
    | markConnecting => exact (addressed_markConnecting _ _ h).snd
    | markConnected => exact (addressed_markConnected _ h).snd
    | markDisconnected => exact (addressed_markDisconnected _ h).snd
    | markFailure => exact (addressed_markFailure _ h).snd
    | reportMisbehavior =>
      simp only [BookOperation.apply, BookCall.apply]
      split
      · rename_i hreport
        obtain ⟨-, o, ho, rfl, rfl⟩ := reportMisbehavior_eq_ok.mp hreport
        split <;> exact h.assign ho _ rfl
      · exact h
    | banPeer =>
      simp only [BookOperation.apply, BookCall.apply]
      split
      · rename_i hban
        obtain ⟨o, ho, -, rfl⟩ := banPeer_eq_ok.mp hban
        exact h.assign ho _ rfl
      · exact h
    | eligibleOutbound now => exact h.clearedBook now
  | selectOutbound now limit =>
    show Addressed ((PeerAddressManager.selectOutbound now limit).call m).2
    rw [selectOutbound_call]
    exact h.clearedBook now
  | getPeer | evictionCandidates | outboundCount | inboundCount | allPeers => exact h

theorem Addressed.foldl : ∀ (ops : List BookOperation) {m : PeerAddressManager}, Addressed m →
    Addressed (ops.foldl BookOperation.apply m)
  | [], _, h => h
  | op :: ops, _, h => Addressed.foldl ops (h.apply op)

/-- Whatever was done with an address book, all the peers that `select_outbound` picks can be dialled: the outbound
connections stay within their limit, and every other record stays what it is, but for bans that have expired. A peer that
is left out comes after those that were picked, and the limit is reached. -/
theorem selected_dial {m₀ : PeerAddressManager} (hstart : m₀.peers = []) (ops : List BookOperation) (now : Int)
    (limit : Option Int) (hlimit : ∀ count, limit = some count → 0 ≤ count) :
    let m := ops.foldl BookOperation.apply m₀
    ∃ selected m' m'', (PeerAddressManager.selectOutbound now limit).call m = (.ok selected, m') ∧
      (dial now selected).call m' = (.ok (selected.map (dialled now)), m'') ∧
      m''.outboundCount = m.outboundCount + selected.length ∧ m''.inboundCount = m.inboundCount ∧
      (m''.outboundCount : Int) ≤ max (m.outboundCount : Int) m.maxOutbound ∧
      (∀ r ∈ selected, m''.lookup r.address = some (dialled now r)) ∧
      (∀ a ∉ selected.map PeerRecord.address, m''.lookup a = (m.lookup a).map (·.clearExpiredBan now)) ∧
      ∀ a r, m''.lookup a = some r → r.state = .disconnected → r.inbound = false → r.nextRetryAt ≤ now →
        (∀ s ∈ selected, s.before r) ∧ (m.maxOutbound ≤ m''.outboundCount ∨ limit = some (selected.length : Int)) := by
  intro m
  have haddressed : Addressed m := Addressed.foldl ops fun a r hr => by
    obtain ⟨hmem, -⟩ := lookup_eq_some.mp hr
    rw [hstart] at hmem
    cases hmem
  have hroom : 0 ≤ roomOf m limit := by
    cases limit with
    | none => exact le_max_left _ _
    | some count => exact le_min (hlimit count rfl) (le_max_left _ _)
  have hslice : PeerAddressManager.sliceTo (eligibleOf now m) (roomOf m limit) =
      (eligibleOf now m).take (roomOf m limit).toNat := if_pos hroom
  have hselect := selectOutbound_call now limit m
  rw [hslice] at hselect
  have hsub : (eligibleOf now m).take (roomOf m limit).toNat ⊆ eligibleOf now m := List.take_subset _ _
  have hnodup : (((eligibleOf now m).take (roomOf m limit).toNat).map PeerRecord.address).Nodup :=
    (nodup_eligibleOf now m).sublist ((List.take_sublist _ _).map _)
  have hlen : (((eligibleOf now m).take (roomOf m limit).toNat).length : Int) ≤ roomOf m limit := by
    have := List.length_take_le (roomOf m limit).toNat (eligibleOf now m)
    omega
  have hcleared : (clearedBook now m).outboundCount = m.outboundCount := activeCount_clearedBook now m false
  have hmax : (clearedBook now m).maxOutbound = m.maxOutbound := limit_foldl_update false _ m
  have hbound : roomOf m limit ≤ max 0 (m.maxOutbound - m.outboundCount) := by
    cases limit with
    | none => exact le_rfl
    | some count => exact min_le_right _ _
  -- Who is not picked comes after those who are, and the room is used up.
  have hleft : ∀ r ∈ eligibleOf now m, r ∉ (eligibleOf now m).take (roomOf m limit).toNat →
      (∀ s ∈ (eligibleOf now m).take (roomOf m limit).toNat, s.before r) ∧
        (((eligibleOf now m).take (roomOf m limit).toNat).length : Int) = roomOf m limit := fun r hr hno => by
    have hsplit := List.take_append_drop (roomOf m limit).toNat (eligibleOf now m)
    have hdrop : r ∈ (eligibleOf now m).drop (roomOf m limit).toNat :=
      (List.mem_append.mp (hsplit.symm ▸ hr)).resolve_left hno
    have hsorted : (eligibleOf now m).Pairwise PeerRecord.before := List.pairwise_insertionSort _ _
    rw [← hsplit, List.pairwise_append] at hsorted
    refine ⟨fun s hs => hsorted.2.2 s hs r hdrop, ?_⟩
    have hlt := List.length_pos_iff.mpr (List.ne_nil_of_mem hdrop)
    rw [List.length_drop] at hlt
    rw [List.length_take]
    omega
  generalize (eligibleOf now m).take (roomOf m limit).toNat = selected at hselect hsub hnodup hlen hleft
  obtain ⟨m'', hdial, hdone⟩ := dial_call now (m := clearedBook now m) hnodup
    (fun r hr => ⟨dialable_of_mem (hsub hr), haddressed.clearedBook now _ r (dialable_of_mem (hsub hr)).there⟩)
    (by rw [hcleared, hmax]; omega)
  have hout : m''.outboundCount = m.outboundCount + selected.length := hdone.outbound.trans (by rw [hcleared])
  have hothers : ∀ a ∉ selected.map PeerRecord.address, m''.lookup a = (m.lookup a).map (·.clearExpiredBan now) :=
    fun a ha => (hdone.others a ha).trans (lookup_clearedBook now m a)
  refine ⟨selected, clearedBook now m, m'', hselect, hdial, hout,
    hdone.inbound.trans (activeCount_clearedBook now m true), by omega, hdone.dialled, hothers, fun a r hr hstate hin hretry => ?_⟩
  have hno : a ∉ selected.map PeerRecord.address := fun ha => by
    obtain ⟨s, hs, rfl⟩ := List.mem_map.mp ha
    rw [hdone.dialled s hs, Option.some.injEq] at hr
    rw [← hr] at hstate
    cases hstate
  rw [hothers a hno] at hr
  obtain ⟨o, ho, rfl⟩ := Option.map_eq_some_iff.mp hr
  obtain ⟨hmem, rfl⟩ := lookup_eq_some.mp ho
  obtain ⟨hbefore, hfull⟩ := hleft (o.clearExpiredBan now) (mem_eligibleOf.mpr ⟨⟨o, hmem, rfl⟩, hstate, hin, hretry⟩)
    fun hs => hno (clearExpiredBan_address o now ▸ List.mem_map_of_mem hs)
  refine ⟨hbefore, ?_⟩
  cases limit with
  | none =>
    rw [roomOf] at hfull
    exact .inl (by omega)
  | some count =>
    rw [roomOf] at hfull
    by_cases hcount : count = selected.length
    · exact .inr (by rw [hcount])
    · exact .inl (by omega)

/-- Bob, who is known, is dialled. -/
theorem selected_dial_bob :
    let m := [BookOperation.call (.addPeer ['b', 'o', 'b'] 0 false)].foldl BookOperation.apply PeerAddressManager.empty
    ∃ selected m' m'', (PeerAddressManager.selectOutbound 10 (some 3)).call m = (.ok selected, m') ∧
      (dial 10 selected).call m' = (.ok (selected.map (dialled 10)), m'') ∧
      m''.outboundCount = m.outboundCount + selected.length := by
  intro m
  obtain ⟨selected, m', m'', hselect, hdial, hout, -⟩ := @selected_dial PeerAddressManager.empty rfl
    [.call (.addPeer ['b', 'o', 'b'] 0 false)] 10 (some 3) fun count h => by
      obtain rfl := Option.some.inj h
      decide
  exact ⟨selected, m', m'', hselect, hdial, hout⟩

end BCC.Proof
