import BlockchainCoin.Framework.Steps
import BlockchainCoin.Impl.Peers

/-!
# The address book

What a method of the address book does to the records (`lookup_update`,
`lookup_insert`) and to the number of open connections in each direction
(`activeCount_update`). A book that is `Within` its limits stays so when no record
becomes an open connection of a direction that is full (`Within.update`).
-/

namespace BCC.Proof

open BCC.Impl PyError

variable {m : PeerAddressManager} {r o : PeerRecord} {a : Str}

/-! ## Records -/

theorem lookup_eq_some : m.lookup a = some r ↔ r ∈ m.peers ∧ r.address = a := Table.lookup_eq_some m.peers_nodup

theorem address_of_lookup (h : m.lookup a = some r) : r.address = a := (lookup_eq_some.mp h).2

theorem getPeer_eq_ok : m.getPeer a = .ok r ↔ m.lookup a = some r := by
  unfold PeerAddressManager.getPeer PeerAddressManager.lookup
  cases Table.lookup PeerRecord.address m.peers a <;> simp

theorem getPeer_of_none (h : m.lookup a = none) : m.getPeer a = .error (peerManagerError "unknown peer") := by
  unfold PeerAddressManager.lookup at h
  rw [PeerAddressManager.getPeer, h]

theorem mem_update (h : m.lookup r.address = some o) {r' : PeerRecord} :
    r' ∈ (m.update r).peers ↔ if r'.address = r.address then r' = r else r' ∈ m.peers := by
  obtain ⟨hold, haddress⟩ := lookup_eq_some.mp h
  rw [PeerAddressManager.update, List.mem_map]
  constructor
  · rintro ⟨x, hx, rfl⟩
    by_cases hxr : x.address = r.address
    · rw [if_pos hxr, if_pos rfl]
    · rw [if_neg hxr, if_neg hxr]
      exact hx
  · intro hr
    by_cases hxr : r'.address = r.address
    · rw [if_pos hxr] at hr
      exact ⟨o, hold, by rw [if_pos haddress, hr]⟩
    · rw [if_neg hxr] at hr
      exact ⟨r', hr, if_neg hxr⟩

theorem lookup_update (h : m.lookup r.address = some o) (b : Str) :
    (m.update r).lookup b = if b = r.address then some r else m.lookup b := by
  refine Option.ext fun x => ?_
  rw [lookup_eq_some, mem_update h]
  by_cases hb : b = r.address
  · subst hb
    rw [if_pos rfl, Option.some.injEq]
    constructor
    · rintro ⟨hx, hxr⟩
      rw [if_pos hxr] at hx
      exact hx.symm
    · rintro rfl
      exact ⟨by rw [if_pos rfl], rfl⟩
  · rw [if_neg hb, lookup_eq_some]
    constructor
    · rintro ⟨hx, rfl⟩
      rw [if_neg hb] at hx
      exact ⟨hx, rfl⟩
    · rintro ⟨hx, rfl⟩
      exact ⟨by rw [if_neg hb]; exact hx, rfl⟩

theorem lookup_insert (h : m.lookup r.address = none) (b : Str) :
    (m.insert r).lookup b = if b = r.address then some r else m.lookup b := by
  have hnew : r.address ∉ m.peers.map PeerRecord.address := Table.lookup_eq_none.mp h
  refine Option.ext fun x => ?_
  rw [lookup_eq_some, PeerAddressManager.insert, dif_neg hnew, List.mem_append, List.mem_singleton]
  by_cases hb : b = r.address
  · subst hb
    rw [if_pos rfl, Option.some.injEq]
    constructor
    · rintro ⟨hx | rfl, hxr⟩
      · exact absurd (hxr ▸ List.mem_map_of_mem hx) hnew
      · rfl
    · rintro rfl
      exact ⟨.inr rfl, rfl⟩
  · rw [if_neg hb, lookup_eq_some]
    constructor
    · rintro ⟨hx | rfl, rfl⟩
      · exact ⟨hx, rfl⟩
      · exact absurd rfl hb
    · rintro ⟨hx, rfl⟩
      exact ⟨.inl hx, rfl⟩

theorem lookup_update_self (h : m.lookup r.address = some o) : (m.update r).lookup r.address = some r := by
  rw [lookup_update h, if_pos rfl]

theorem update_self (h : m.lookup a = some r) : m.update r = m := by
  obtain ⟨hr, rfl⟩ := lookup_eq_some.mp h
  have hpeers : (m.peers.map fun x => if x.address = r.address then r else x) = m.peers := by
    refine (List.map_congr_left fun x hx => ?_).trans (List.map_id' _)
    split
    · rename_i hxr
      exact (List.inj_on_of_nodup_map m.peers_nodup hx hr hxr).symm
    · rfl
  unfold PeerAddressManager.update
  simp only [hpeers]

theorem update_update (m : PeerAddressManager) {r r' : PeerRecord} (h : r.address = r'.address) :
    (m.update r).update r' = m.update r' := by
  have hpeers : (m.peers.map fun x => if x.address = r.address then r else x).map
      (fun x => if x.address = r'.address then r' else x) = m.peers.map fun x => if x.address = r'.address then r' else x := by
    rw [List.map_map]
    refine List.map_congr_left fun x _ => ?_
    show (if (if x.address = r.address then r else x).address = r'.address then r' else
      if x.address = r.address then r else x) = _
    by_cases hx : x.address = r'.address
    · rw [if_pos (hx.trans h.symm), if_pos h, if_pos hx]
    · rw [if_neg fun hxr : x.address = r.address => hx (hxr.trans h)]
  unfold PeerAddressManager.update
  simp only [hpeers]

/-! ## Counting connections -/

/-- An open connection of a direction. -/
def counted (inbound : Bool) (r : PeerRecord) : Bool := r.isActive && r.inbound = inbound

theorem activeCount_update (h : m.lookup r.address = some o) (d : Bool) :
    (m.update r).activeCount d + (counted d o).toNat = m.activeCount d + (counted d r).toNat := by
  obtain ⟨hold, haddress⟩ := lookup_eq_some.mp h
  have key : ∀ {rs : List PeerRecord}, (rs.map PeerRecord.address).Nodup → o ∈ rs →
      (rs.map fun x => if x.address = r.address then r else x).countP (counted d) + (counted d o).toNat =
        rs.countP (counted d) + (counted d r).toNat := by
    intro rs hn hmem
    induction rs with
    | nil => cases hmem
    | cons x rs ih =>
      rw [List.map_cons, List.nodup_cons] at hn
      rw [List.map_cons, List.countP_cons, List.countP_cons]
      rcases List.mem_cons.mp hmem with rfl | hmem
      · have hrest : (rs.map fun x => if x.address = r.address then r else x) = rs := by
          refine (List.map_congr_left fun y hy => if_neg fun hyr => hn.1 ?_).trans (List.map_id' _)
          rw [haddress, ← hyr]
          exact List.mem_map_of_mem hy
        rw [hrest, if_pos haddress]
        cases counted d o <;> cases counted d r <;> rfl
      · have hne : x.address ≠ r.address := fun hxr => hn.1 (by rw [hxr, ← haddress]; exact List.mem_map_of_mem hmem)
        rw [if_neg hne]
        have hrs := ih hn.2 hmem
        omega
  exact key m.peers_nodup hold

theorem activeCount_insert (h : m.lookup r.address = none) (d : Bool) :
    (m.insert r).activeCount d = m.activeCount d + (counted d r).toNat := by
  have hnew : r.address ∉ m.peers.map PeerRecord.address := Table.lookup_eq_none.mp h
  rw [PeerAddressManager.activeCount, PeerAddressManager.insert, dif_neg hnew, List.countP_append, List.countP_singleton]
  show _ + (if counted d r = true then 1 else 0) = _
  cases counted d r <;> rfl

/-- No direction has more open connections than its limit. -/
def Within (m : PeerAddressManager) : Prop := ∀ d, (m.activeCount d : Int) ≤ m.limit d

/-- There is room for another open connection of a direction. -/
def RoomFor (m : PeerAddressManager) (inbound : Bool) : Prop := (m.activeCount inbound : Int) < m.limit inbound

/-- A record may become an open connection of a direction where there is room for one. -/
theorem Within.update (hw : Within m) (h : m.lookup r.address = some o)
    (hroom : ∀ d, counted d r = true → counted d o = true ∨ RoomFor m d) :
    Within (m.update r) := by
  intro d
  have hcount := activeCount_update h d
  have hbefore := hw d
  show ((m.update r).activeCount d : Int) ≤ m.limit d
  cases hr : counted d r with
  | false =>
    rw [hr] at hcount
    have : (m.update r).activeCount d ≤ m.activeCount d := by
      rw [Bool.toNat_false] at hcount
      omega
    omega
  | true =>
    rw [hr, Bool.toNat_true] at hcount
    rcases hroom d hr with hold | hlt
    · rw [hold, Bool.toNat_true] at hcount
      omega
    · have hlt : (m.activeCount d : Int) < m.limit d := hlt
      omega

theorem Within.insert (hw : Within m) (h : m.lookup r.address = none) (hr : r.isActive = false) : Within (m.insert r) := by
  intro d
  have hlimit : (m.insert r).limit d = m.limit d := by
    unfold PeerAddressManager.insert
    split <;> rfl
  rw [hlimit, activeCount_insert h, counted, hr]
  exact hw d

/-! ## Methods

What holds of the book after a method, from what holds of the books it can lead to. -/

section

variable {now : Int} {inbound : Bool} {Q : PeerRecord → PeerAddressManager → Prop}
  {R : PyError → PeerAddressManager → Prop}

/-- A known record after `add_peer`. -/
def touched (now : Int) (inbound : Bool) (r : PeerRecord) : PeerRecord :=
  { r with lastSeen := max r.lastSeen now, inbound := r.inbound || inbound }

theorem assign_ends (h : Q r (m.update r)) : Method.Ends (PeerAddressManager.assign r) m Q R := h

theorem addPeer_ends (hinvalid : ∀ e, PeerAddressManager.validateAddress a = .error e → R e m)
    (hknown : ∀ r, m.lookup a = some r → Q (touched now inbound r) (m.update (touched now inbound r)))
    (hnew : PeerAddressManager.validateAddress a = .ok () → m.lookup a = none →
      Q { address := a, lastSeen := now, inbound := inbound } (m.insert { address := a, lastSeen := now, inbound := inbound })) :
    Method.Ends (PeerAddressManager.addPeer a now inbound) m Q R := by
  refine .bind (.reading (fun _ hvalid => ?_) fun e he => hinvalid e he)
  refine .bind (.get ?_)
  split
  · rename_i r hr
    exact assign_ends (hknown r hr)
  · rename_i hr
    exact .bind (.modify (hnew hvalid hr))

theorem clearExpiredBan_address (r : PeerRecord) (now : Int) : (r.clearExpiredBan now).address = r.address := by
  unfold PeerRecord.clearExpiredBan
  split <;> rfl

theorem markConnected_ends (hunknown : m.lookup a = none → R (peerManagerError "unknown peer") m)
    (hbanned : ∀ r, m.lookup a = some r → (r.clearExpiredBan now).isBanned = true →
      R (peerManagerError "peer is banned") (m.update (r.clearExpiredBan now)))
    (hdone : ∀ r, m.lookup a = some r → (r.clearExpiredBan now).isBanned = false →
      Q { r.clearExpiredBan now with state := .connected, lastSeen := now, failures := 0, nextRetryAt := 0 }
        (m.update { r.clearExpiredBan now with state := .connected, lastSeen := now, failures := 0, nextRetryAt := 0 })) :
    Method.Ends (PeerAddressManager.markConnected a now) m Q R := by
  refine .bind (.reading (fun r hr => ?_) fun e he => ?_)
  · rw [getPeer_eq_ok] at hr
    refine .bind (assign_ends ?_)
    cases hb : (r.clearExpiredBan now).isBanned with
    | true =>
      rw [if_pos rfl]
      exact .throw (hbanned r hr hb)
    | false =>
      rw [if_neg Bool.false_ne_true]
      refine assign_ends ?_
      rw [update_update]
      · exact hdone r hr hb
      · rfl
  · cases hr : m.lookup a with
    | none =>
      rw [getPeer_of_none hr] at he
      cases he
      exact hunknown hr
    | some r =>
      rw [getPeer_eq_ok.mpr hr] at he
      cases he

/-- The check of `mark_connecting` passes when there is room, or the record is connected. -/
def ConnectingPasses (m : PeerAddressManager) (inbound : Bool) (r : PeerRecord) : Prop :=
  RoomFor m inbound ∨ r.state = .connected

theorem markConnecting_ends
    (hadd : Method.Ends (PeerAddressManager.addPeer a now inbound) m (fun r m₁ =>
      (∀ text, R (peerManagerError text) (m₁.update (r.clearExpiredBan now))) ∧
      ((r.clearExpiredBan now).isBanned = false →
        ConnectingPasses (m₁.update (r.clearExpiredBan now)) inbound (r.clearExpiredBan now) →
        Q { r.clearExpiredBan now with state := .connecting, inbound := inbound }
          (m₁.update { r.clearExpiredBan now with state := .connecting, inbound := inbound }))) R) :
    Method.Ends (PeerAddressManager.markConnecting a now inbound) m Q R := by
  refine .bind (hadd.mono (fun r m₁ h => ?_) fun _ _ h => h)
  obtain ⟨hraise, hdone⟩ := h
  refine .bind (assign_ends ?_)
  refine .bind (.get ?_)
  split
  · exact .throw (hraise _)
  · rename_i hbanned
    split
    · exact .throw (hraise _)
    · rename_i hin
      split
      · exact .throw (hraise _)
      · rename_i hout
        refine assign_ends ?_
        rw [update_update]
        · refine hdone (Bool.eq_false_iff.mpr hbanned) ?_
          by_cases hstate : (r.clearExpiredBan now).state = .connected
          · exact .inr hstate
          · refine .inl (Int.not_le.mp fun hle => ?_)
            cases inbound with
            | true => exact hin ⟨rfl, hle, hstate⟩
            | false => exact hout ⟨rfl, hle, hstate⟩
        · rfl

end

/-! ### What keeps the limits

A record becomes an open connection of another direction in three ways that `mark_connecting` does not check: where
`mark_connected` opens a record, where `add_peer` makes a record inbound, and where a connected record is marked
outbound. -/

/-- `add_peer` makes no open connection inbound where there is no room for it. -/
def AddFits (a : Str) (inbound : Bool) (m : PeerAddressManager) : Prop :=
  ∀ r, m.lookup a = some r → r.isActive = true → r.inbound = false → inbound = true → RoomFor m true

/-- `mark_connecting` turns no open connection round where there is no room for it. -/
def ConnectingFits (a : Str) (inbound : Bool) (m : PeerAddressManager) : Prop :=
  ∀ r, m.lookup a = some r → r.isActive = true → r.inbound ≠ inbound → inbound = true ∨ r.state = .connected →
    RoomFor m inbound

/-- `mark_connected` opens no connection where there is no room for it. -/
def ConnectedFits (a : Str) (now : Int) (m : PeerAddressManager) : Prop :=
  ∀ r, m.lookup a = some r → (r.clearExpiredBan now).isBanned = false → r.isActive = false → RoomFor m r.inbound

section

variable {now : Int} {inbound : Bool}

theorem clearExpiredBan_inbound (r : PeerRecord) (now : Int) : (r.clearExpiredBan now).inbound = r.inbound := by
  unfold PeerRecord.clearExpiredBan
  split <;> rfl

theorem clearExpiredBan_isActive (r : PeerRecord) (now : Int) : (r.clearExpiredBan now).isActive = r.isActive := by
  unfold PeerRecord.clearExpiredBan
  split
  · rename_i h
    simp [PeerRecord.isActive, h.1]
  · rfl

theorem counted_clearExpiredBan (d : Bool) (r : PeerRecord) (now : Int) :
    counted d (r.clearExpiredBan now) = counted d r := by
  rw [counted, counted, clearExpiredBan_isActive, clearExpiredBan_inbound]

theorem Within.clearExpiredBan (hw : Within m) (h : m.lookup a = some r) (now : Int) :
    Within (m.update (r.clearExpiredBan now)) := by
  have hr : m.lookup (r.clearExpiredBan now).address = some r := by
    rw [clearExpiredBan_address, address_of_lookup h]
    exact h
  exact hw.update hr fun d hd => .inl (counted_clearExpiredBan d r now ▸ hd)

theorem Within.touched (hw : Within m) (h : m.lookup a = some r) (hfits : AddFits a inbound m) :
    Within (m.update (touched now inbound r)) := by
  have hr : m.lookup (Proof.touched now inbound r).address = some r := by
    show m.lookup r.address = some r
    rw [address_of_lookup h]
    exact h
  refine hw.update hr fun d hd => ?_
  rw [counted, Bool.and_eq_true, decide_eq_true_iff] at hd
  have hactive : r.isActive = true := hd.1
  have hd : (r.inbound || inbound) = d := hd.2
  rw [counted, hactive, Bool.true_and, decide_eq_true_iff]
  cases hin : r.inbound with
  | true => exact .inl (by rw [← hd, hin, Bool.true_or])
  | false =>
    rw [hin, Bool.false_or] at hd
    cases hinbound : inbound with
    | true => exact .inr (by rw [← hd, hinbound]; exact hfits r h hactive hin hinbound)
    | false => exact .inl (by rw [← hd, hinbound])

theorem addPeer_within (hw : Within m) (hfits : AddFits a inbound m) :
    Method.Ends (PeerAddressManager.addPeer a now inbound) m (fun _ => Within) fun _ => Within :=
  addPeer_ends (fun _ _ => hw) (fun _ hr => hw.touched hr hfits) fun _ hr => hw.insert hr rfl

theorem markConnected_within (hw : Within m) (hfits : ConnectedFits a now m) :
    Method.Ends (PeerAddressManager.markConnected a now) m (fun _ => Within) fun _ => Within := by
  refine markConnected_ends (fun _ => hw) (fun r hr _ => hw.clearExpiredBan hr now) fun r hr hbanned => ?_
  have haddress : (r.clearExpiredBan now).address = a := (clearExpiredBan_address r now).trans (address_of_lookup hr)
  refine hw.update (o := r) (by show m.lookup (r.clearExpiredBan now).address = _; rw [haddress]; exact hr) fun d hd => ?_
  have hd : (r.clearExpiredBan now).inbound = d := by
    rw [counted, Bool.and_eq_true, decide_eq_true_iff] at hd
    exact hd.2
  rw [clearExpiredBan_inbound] at hd
  cases hactive : r.isActive with
  | true => exact .inl (by rw [counted, hactive, hd]; simp)
  | false => exact .inr (hd ▸ hfits r hr hbanned hactive)

theorem ConnectingFits.add (h : ConnectingFits a inbound m) : AddFits a inbound m :=
  fun r hr hactive hin hinbound => hinbound ▸ h r hr hactive (by rw [hin, hinbound]; exact Bool.false_ne_true) (.inl hinbound)

theorem clearExpiredBan_connected {r : PeerRecord} (h : (r.clearExpiredBan now).state = .connected) :
    r.state = .connected := by
  unfold PeerRecord.clearExpiredBan at h
  split at h
  · cases h
  · exact h

theorem markConnecting_within (hw : Within m) (hfits : ConnectingFits a inbound m) :
    Method.Ends (PeerAddressManager.markConnecting a now inbound) m (fun _ => Within) fun _ => Within := by
  refine markConnecting_ends (addPeer_ends (fun _ _ => hw) (fun r hr => ?_) fun _ hr => ?_)
  · -- The book after `add_peer`, and after `_clear_expired_ban`.
    have hupdate : m.lookup (touched now inbound r).address = some r := by
      show m.lookup r.address = _
      rw [address_of_lookup hr]
      exact hr
    have hadded : Within (m.update (touched now inbound r)) := hw.touched hr hfits.add
    have hcleared : Within ((m.update (touched now inbound r)).update ((touched now inbound r).clearExpiredBan now)) :=
      hadded.clearExpiredBan (lookup_update_self hupdate) now
    refine ⟨fun _ => hcleared, fun _ hpasses => ?_⟩
    have hknown : ((m.update (touched now inbound r)).update ((touched now inbound r).clearExpiredBan now)).lookup
        ((touched now inbound r).clearExpiredBan now).address = some ((touched now inbound r).clearExpiredBan now) :=
      lookup_update_self (o := touched now inbound r)
        (by rw [clearExpiredBan_address]; exact lookup_update_self hupdate)
    have htwice : ((m.update (touched now inbound r)).update ((touched now inbound r).clearExpiredBan now)).update
        { (touched now inbound r).clearExpiredBan now with state := .connecting, inbound := inbound } = _ :=
      update_update (m.update (touched now inbound r)) rfl
    rw [← htwice]
    refine hcleared.update hknown fun d hd => ?_
    have hd : inbound = d := by
      rw [counted, Bool.and_eq_true, decide_eq_true_iff] at hd
      exact hd.2
    subst hd
    rcases hpasses with hroom | hstate
    · exact .inr hroom
    · have hconnected : (touched now inbound r).state = .connected := clearExpiredBan_connected hstate
      have hactive : r.isActive = true := decide_eq_true (.inr hconnected)
      have hcount : ∀ d, counted d ((touched now inbound r).clearExpiredBan now) = decide ((r.inbound || inbound) = d) :=
        fun d => by
          rw [counted_clearExpiredBan, counted, show (touched now inbound r).isActive = r.isActive from rfl, hactive,
            Bool.true_and]
          rfl
      by_cases hsame : (r.inbound || inbound) = inbound
      · exact .inl (by rw [hcount, decide_eq_true_iff]; exact hsame)
      -- The record was inbound and is marked outbound: the counts are still those before the call.
      · obtain ⟨hin, rfl⟩ : r.inbound = true ∧ inbound = false := by revert hsame; cases r.inbound <;> cases inbound <;> simp
        have hroom : RoomFor m false :=
          hfits r hr hactive (by rw [hin]; exact Bool.noConfusion) (.inr hconnected)
        rw [update_update m (by rw [clearExpiredBan_address])]
        have hclear : m.lookup ((touched now false r).clearExpiredBan now).address = some r := by
          rw [clearExpiredBan_address]
          exact hupdate
        have hequal := activeCount_update hclear false
        have hold : counted false r = false := by rw [counted, hin]; simp
        rw [hold, hcount, hin] at hequal
        refine .inr ?_
        have hroom : (m.activeCount false : Int) < m.limit false := hroom
        show ((m.update ((touched now false r).clearExpiredBan now)).activeCount false : Int) < m.limit false
        rw [show (m.update ((touched now false r).clearExpiredBan now)).activeCount false = m.activeCount false from hequal]
        exact hroom
  · have hclear : ({ address := a, lastSeen := now, inbound := inbound } : PeerRecord).clearExpiredBan now =
        { address := a, lastSeen := now, inbound := inbound } := if_neg fun h => by cases h.1
    have hinsert : Within (m.insert { address := a, lastSeen := now, inbound := inbound }) := hw.insert hr rfl
    have hknown : (m.insert { address := a, lastSeen := now, inbound := inbound }).lookup a =
        some { address := a, lastSeen := now, inbound := inbound } := by rw [lookup_insert hr]; exact if_pos rfl
    rw [hclear, update_self hknown]
    refine ⟨fun _ => hinsert, fun _ hpasses => hinsert.update hknown fun d hd => ?_⟩
    have hd : inbound = d := by
      rw [counted, Bool.and_eq_true, decide_eq_true_iff] at hd
      exact hd.2
    rcases hpasses with hroom | hstate
    · exact .inr (hd ▸ hroom)
    · cases hstate

/-! ### What never breaks the limits -/

/-- A record may be assigned to in any way that opens no connection. -/
theorem Within.update_of_not_counted (hw : Within m) (h : m.lookup r.address = some o)
    (hr : ∀ d, counted d r = true → counted d o = true) : Within (m.update r) :=
  hw.update h fun d hd => .inl (hr d hd)

theorem Within.close (hw : Within m) (h : m.lookup r.address = some o) (hr : r.isActive = false) : Within (m.update r) :=
  hw.update_of_not_counted h fun d hd => by rw [counted, hr] at hd; cases hd

theorem markDisconnected_within (hw : Within m) :
    Method.Ends (PeerAddressManager.markDisconnected a now) m (fun _ => Within) fun _ => Within := by
  refine .bind (.reading (fun r hr => ?_) fun _ _ => hw)
  rw [getPeer_eq_ok] at hr
  split
  · exact .pure hw
  · exact assign_ends (hw.close (by show m.lookup r.address = _; rw [address_of_lookup hr]; exact hr) rfl)

theorem markFailure_within (hw : Within m) :
    Method.Ends (PeerAddressManager.markFailure a now) m (fun _ => Within) fun _ => Within := by
  refine .bind (.reading (fun r hr => ?_) fun _ _ => hw)
  rw [getPeer_eq_ok] at hr
  split
  · exact .pure hw
  · refine .bind (.get (assign_ends (hw.close (o := r) ?_ rfl)))
    show m.lookup r.address = _
    rw [address_of_lookup hr]
    exact hr

/-- What `ban_peer` makes of a record. -/
def banned (m : PeerAddressManager) (now : Int) (r : PeerRecord) : PeerRecord :=
  { r with state := .banned, bannedUntil := now + m.banSeconds, nextRetryAt := now + m.banSeconds }

theorem banPeer_eq_ok {m' : PeerAddressManager} : m.banPeer a now = .ok (r, m') ↔
    ∃ o, m.lookup a = some o ∧ r = banned m now o ∧ m' = m.update (banned m now o) := by
  simp only [PeerAddressManager.banPeer, bind_eq_ok, getPeer_eq_ok, pure_eq_ok, Prod.mk.injEq]
  refine exists_congr fun o => and_congr_right fun _ => ?_
  rw [eq_comm, @eq_comm _ _ m']
  exact Iff.rfl

/-- A penalty raises the score of the record, and bans it from the threshold on. -/
theorem reportMisbehavior_eq_ok {score : Int} {m' : PeerAddressManager} : m.reportMisbehavior a score now = .ok (r, m') ↔
    0 ≤ score ∧ ∃ o, m.lookup a = some o ∧
      r = (if m.banThreshold ≤ o.misbehaviorScore + score then
        banned m now { o with misbehaviorScore := o.misbehaviorScore + score }
        else { o with misbehaviorScore := o.misbehaviorScore + score }) ∧ m' = m.update r := by
  unfold PeerAddressManager.reportMisbehavior
  rw [bind_eq_ok, exists_unit, raiseIf_eq_ok, Int.not_lt, bind_eq_ok]
  refine and_congr_right fun _ => exists_congr fun o => ?_
  rw [getPeer_eq_ok]
  refine and_congr_right fun hold => ?_
  show (if m.banThreshold ≤ o.misbehaviorScore + score then
    (m.update { o with misbehaviorScore := o.misbehaviorScore + score }).banPeer a now
    else pure ({ o with misbehaviorScore := o.misbehaviorScore + score },
      m.update { o with misbehaviorScore := o.misbehaviorScore + score })) = _ ↔ _
  by_cases hban : m.banThreshold ≤ o.misbehaviorScore + score
  · rw [if_pos hban, if_pos hban, banPeer_eq_ok]
    have haddress : m.lookup ({ o with misbehaviorScore := o.misbehaviorScore + score } : PeerRecord).address = some o := by
      show m.lookup o.address = _
      rw [address_of_lookup hold]
      exact hold
    have hscored := lookup_update_self haddress
    have hscored : (m.update { o with misbehaviorScore := o.misbehaviorScore + score }).lookup a =
        some { o with misbehaviorScore := o.misbehaviorScore + score } := address_of_lookup hold ▸ hscored
    constructor
    · rintro ⟨o', hold', rfl, rfl⟩
      rw [hscored, Option.some.injEq] at hold'
      subst hold'
      exact ⟨rfl, update_update m rfl⟩
    · rintro ⟨rfl, rfl⟩
      refine ⟨_, hscored, rfl, (update_update m ?_).symm⟩
      rfl
  · rw [if_neg hban, if_neg hban, pure_eq_ok, Prod.mk.injEq]
    constructor
    · rintro ⟨rfl, rfl⟩
      exact ⟨rfl, rfl⟩
    · rintro ⟨rfl, rfl⟩
      exact ⟨rfl, rfl⟩

theorem foldl_update_within : ∀ {rs : List PeerRecord} {m : PeerAddressManager}, (rs.map PeerRecord.address).Nodup →
    (∀ r ∈ rs, ∃ o, m.lookup r.address = some o ∧ ∀ d, counted d r = counted d o) → Within m →
    Within (rs.foldl PeerAddressManager.update m)
  | [], _, _, _, hw => hw
  | r :: rs, m, hn, h, hw => by
    rw [List.map_cons, List.nodup_cons] at hn
    obtain ⟨o, hold, hcounted⟩ := h r List.mem_cons_self
    refine foldl_update_within (m := m.update r) hn.2 (fun x hx => ?_) (hw.update_of_not_counted hold fun d hd => hcounted d ▸ hd)
    obtain ⟨y, hy, hxy⟩ := h x (List.mem_cons_of_mem _ hx)
    have hne : x.address ≠ r.address := fun he => hn.1 (he ▸ List.mem_map_of_mem hx)
    exact ⟨y, by rw [lookup_update hold, if_neg hne]; exact hy, hxy⟩

theorem banPeer_within (hw : Within m) {m' : PeerAddressManager} (h : m.banPeer a now = .ok (r, m')) : Within m' := by
  obtain ⟨o, hold, -, rfl⟩ := banPeer_eq_ok.mp h
  refine hw.close (o := o) ?_ rfl
  show m.lookup o.address = _
  rw [address_of_lookup hold]
  exact hold

theorem reportMisbehavior_within (hw : Within m) {score : Int} {m' : PeerAddressManager}
    (h : m.reportMisbehavior a score now = .ok (r, m')) : Within m' := by
  obtain ⟨-, o, hold, rfl, rfl⟩ := reportMisbehavior_eq_ok.mp h
  have hlookup : m.lookup o.address = some o := by
    rw [address_of_lookup hold]
    exact hold
  split
  · exact hw.close (o := o) hlookup rfl
  · exact hw.update_of_not_counted (o := o) hlookup fun _ hd => hd

theorem eligibleOutbound_within (hw : Within m) :
    Method.Ends (PeerAddressManager.eligibleOutbound now) m (fun _ => Within) fun _ => Within := by
  refine .bind (.get (.bind (.modify (.pure (foldl_update_within ?_ (fun r hr => ?_) hw)))))
  · have haddress : (m.peers.map (·.clearExpiredBan now)).map PeerRecord.address = m.peers.map PeerRecord.address := by
      rw [List.map_map]
      exact List.map_congr_left fun r _ => clearExpiredBan_address r now
    rw [haddress]
    exact m.peers_nodup
  · obtain ⟨o, hold, rfl⟩ := List.mem_map.mp hr
    exact ⟨o, by rw [clearExpiredBan_address]; exact lookup_eq_some.mpr ⟨hold, rfl⟩,
      fun d => counted_clearExpiredBan d o now⟩

end

/-! ## What a mark changes -/

/-- What the methods that mark an address, which bans nobody, do to the book. -/
structure Marks (a : Str) (m m' : PeerAddressManager) : Prop where
  others : ∀ b, b ≠ a → m'.lookup b = m.lookup b
  known : (m.lookup a).isSome = true → (m'.lookup a).isSome = true
  banned : ∀ r', m'.lookup a = some r' → r'.state = .banned → ∃ r, m.lookup a = some r ∧ r.state = .banned

theorem Marks.refl (a : Str) (m : PeerAddressManager) : Marks a m m :=
  ⟨fun _ _ => rfl, id, fun r' hr' hb => ⟨r', hr', hb⟩⟩

theorem Marks.trans {m' m'' : PeerAddressManager} (h : Marks a m m') (h' : Marks a m' m'') : Marks a m m'' :=
  ⟨fun b hb => (h'.others b hb).trans (h.others b hb), fun hk => h'.known (h.known hk), fun r hr hb => by
    obtain ⟨r', hr', hb'⟩ := h'.banned r hr hb
    exact h.banned r' hr' hb'⟩

theorem Marks.update (h : m.lookup a = some o) (ha : r.address = a) (hr : r.state = .banned → o.state = .banned) :
    Marks a m (m.update r) := by
  subst ha
  refine ⟨fun b hb => by rw [lookup_update h, if_neg hb], fun _ => by rw [lookup_update_self h]; rfl, fun r' hr' hb => ?_⟩
  rw [lookup_update_self h, Option.some.injEq] at hr'
  exact ⟨o, h, hr (hr' ▸ hb)⟩

theorem Marks.insert (h : m.lookup a = none) (ha : r.address = a) (hr : r.state ≠ .banned) : Marks a m (m.insert r) := by
  subst ha
  refine ⟨fun b hb => by rw [lookup_insert h, if_neg hb], fun _ => by rw [lookup_insert h, if_pos rfl]; rfl, fun r' hr' hb => ?_⟩
  rw [lookup_insert h, if_pos rfl, Option.some.injEq] at hr'
  exact absurd (hr' ▸ hb) hr

section

variable {now : Int} {inbound : Bool}

theorem clearExpiredBan_banned {r : PeerRecord} (h : (r.clearExpiredBan now).state = .banned) : r.state = .banned := by
  unfold PeerRecord.clearExpiredBan at h
  split at h
  · cases h
  · exact h

theorem validateAddress_raises {a : Str} :
    Raises (fun e => ∃ text, e = peerManagerError text) (PeerAddressManager.validateAddress a) :=
  .bind (.raiseIf ⟨_, rfl⟩) fun _ => .raiseIf ⟨_, rfl⟩

theorem addPeer_marks : Method.Ends (PeerAddressManager.addPeer a now inbound) m
    (fun r m' => Marks a m m' ∧ m'.lookup a = some r ∧ (r.isActive = true → ∃ o, m.lookup a = some o ∧ o.isActive = true))
    fun e m' => (∃ text, e = peerManagerError text) ∧ m' = m := by
  refine addPeer_ends (fun e he => ⟨validateAddress_raises e he, rfl⟩) (fun r hr => ?_) fun _ hr => ?_
  · have haddress : (touched now inbound r).address = a := address_of_lookup (r := r) hr
    refine ⟨.update hr haddress id, ?_, fun h => ⟨r, hr, h⟩⟩
    rw [← haddress]
    exact lookup_update_self (o := r) (by rw [haddress]; exact hr)
  · exact ⟨.insert hr rfl nofun, by rw [lookup_insert hr]; exact if_pos rfl, nofun⟩

/-- `mark_connected` returns with a connected record, and otherwise opens no connection. -/
theorem markConnected_marks : Method.Ends (PeerAddressManager.markConnected a now) m
    (fun r m' => Marks a m m' ∧ m'.lookup a = some r ∧ r.state = .connected)
    fun e m' => (∃ text, e = peerManagerError text) ∧ Marks a m m' ∧
      ∀ r, m'.lookup a = some r → r.isBanned = true := by
  refine markConnected_ends (fun hr => ⟨⟨_, rfl⟩, Marks.refl a m, fun r hr' => ?_⟩) (fun r hr hb => ?_) fun r hr _ => ?_
  · rw [hr] at hr'
    cases hr'
  · have haddress : (r.clearExpiredBan now).address = a := (clearExpiredBan_address r now).trans (address_of_lookup hr)
    refine ⟨⟨_, rfl⟩, .update hr haddress fun h => clearExpiredBan_banned h, fun r' hr' => ?_⟩
    have hlookup := lookup_update_self (o := r) (r := r.clearExpiredBan now) (by rw [haddress]; exact hr)
    rw [haddress, hr', Option.some.injEq] at hlookup
    subst hlookup
    exact hb
  · have haddress : (r.clearExpiredBan now).address = a := (clearExpiredBan_address r now).trans (address_of_lookup hr)
    refine ⟨.update hr haddress nofun, ?_, rfl⟩
    have hlookup := lookup_update_self (m := m) (o := r)
      (r := { r.clearExpiredBan now with state := .connected, lastSeen := now, failures := 0, nextRetryAt := 0 })
      (by show m.lookup (r.clearExpiredBan now).address = _; rw [haddress]; exact hr)
    exact haddress ▸ hlookup

/-- `mark_connecting` returns with a connecting record of the direction, and otherwise opens no connection. -/
theorem markConnecting_marks : Method.Ends (PeerAddressManager.markConnecting a now inbound) m
    (fun r m' => Marks a m m' ∧ m'.lookup a = some r ∧ r.state = .connecting ∧ r.inbound = inbound)
    fun e m' => (∃ text, e = peerManagerError text) ∧ Marks a m m' ∧
      ∀ r, m'.lookup a = some r → r.isActive = true → ∃ o, m.lookup a = some o ∧ o.isActive = true := by
  refine markConnecting_ends (addPeer_marks.mono (fun r₁ m₁ h => ?_) fun e m' h => ?_)
  · obtain ⟨hm, hr₁, hactive⟩ := h
    have haddress : (r₁.clearExpiredBan now).address = a := (clearExpiredBan_address r₁ now).trans (address_of_lookup hr₁)
    have hlookup : m₁.lookup (r₁.clearExpiredBan now).address = some r₁ := haddress ▸ hr₁
    refine ⟨fun _ => ⟨⟨_, rfl⟩, hm.trans (.update hr₁ haddress clearExpiredBan_banned), fun r hr h => hactive ?_⟩,
      fun _ _ => ⟨hm.trans (.update hr₁ haddress nofun), ?_, rfl, rfl⟩⟩
    · have hr' := lookup_update_self hlookup
      rw [haddress, hr, Option.some.injEq] at hr'
      rw [hr', clearExpiredBan_isActive] at h
      exact h
    · have hr' := lookup_update_self (r := { r₁.clearExpiredBan now with state := .connecting, inbound := inbound }) hlookup
      exact haddress ▸ hr'
  · obtain ⟨htext, rfl⟩ := h
    exact ⟨htext, .refl a m', fun r hr h => ⟨r, hr, h⟩⟩

/-- `mark_disconnected` returns with a record that is no open connection, and otherwise changes nothing. -/
theorem markDisconnected_marks : Method.Ends (PeerAddressManager.markDisconnected a now) m
    (fun r m' => ∃ o, m.lookup a = some o ∧ r.address = a ∧ r.isActive = false ∧
      (r.state = .banned → o.state = .banned) ∧ m' = m.update r)
    fun _ m' => m' = m := by
  refine .bind (.reading (fun r hr => ?_) fun _ _ => rfl)
  rw [getPeer_eq_ok] at hr
  split
  · rename_i hbanned
    have hstate : r.state = .banned := of_decide_eq_true hbanned
    exact .pure ⟨r, hr, address_of_lookup hr, by simp [PeerRecord.isActive, hstate], id, (update_self hr).symm⟩
  · exact assign_ends ⟨r, hr, address_of_lookup (r := r) hr, rfl, nofun, rfl⟩

end

end BCC.Proof
