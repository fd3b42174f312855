import BlockchainCoin.Proof.Inventory
import BlockchainCoin.Proof.Parse

/-!
# Rejected messages

A session answers REJECT to a message whose payload is not valid and to one whose
handler raises an exception of the protocol. Most handlers raise before they assign
to the session. A version with the session's own id is remembered before it is
refused, and a session that fills up in the middle of an INV, a GETDATA or a HEADERS
message has taken in the items before. `Spares` is how a handler ends, and
`reject_intact_iff` puts the handlers together.
-/

namespace BCC.Proof

open BCC.Impl PyError PeerSession

/-- The handler ends without a REJECT of its own, and leaves the session as it is when it raises an exception of the
protocol exactly where `c` holds, which it does where it raises none. -/
def Spares (c : Prop) (s : PeerSession) (x : Method PeerSession PyError (List PeerMessage)) : Prop :=
  Method.Ends x s (fun answers _ => c ∧ ∀ m ∈ answers, m.messageType ≠ .reject)
    fun e s' => (isProtocolError e = true → s' = s) ↔ c

theorem spares_of_same {c : Prop} {s : PeerSession} {e : PyError} (hc : c) :
    (isProtocolError e = true → s = s) ↔ c := iff_of_true (fun _ => rfl) hc

/-! ## Sets with a limit -/

/-- Each of these finds room in the set when they come in one after the other. -/
def HasRoom {β : Type} [DecidableEq β] (max : Int) (known : Finset β) (ks : List β) : Prop :=
  ks ≠ [] → ((known ∪ ks.dropLast.toFinset).card : Int) < max

theorem hasRoom_cons {β : Type} [DecidableEq β] {max : Int} {known : Finset β} {k : β} {ks : List β} :
    HasRoom max known (k :: ks) ↔ (known.card : Int) < max ∧ HasRoom max (insert k known) ks := by
  rw [HasRoom, HasRoom, forall_prop_of_true (List.cons_ne_nil k ks)]
  cases ks with
  | nil =>
    rw [List.dropLast_singleton, List.toFinset_nil, Finset.union_empty]
    exact (and_iff_left fun h => absurd rfl h).symm
  | cons k' ks =>
    rw [forall_prop_of_true (List.cons_ne_nil k' ks), List.dropLast_cons_cons, List.toFinset_cons, Finset.union_insert,
      Finset.insert_union]
    have hle : known.card ≤ (insert k (known ∪ (k' :: ks).dropLast.toFinset)).card :=
      Finset.card_le_card (Finset.subset_union_left.trans (Finset.subset_insert _ _))
    omega

/-- Where the set is not full to begin with, nothing is left out of the condition. -/
theorem hasRoom_iff {β : Type} [DecidableEq β] {max : Int} {known : Finset β} {ks : List β}
    (h : (known.card : Int) < max) : HasRoom max known ks ↔ ((known ∪ ks.dropLast.toFinset).card : Int) < max := by
  constructor
  · intro hroom
    cases ks with
    | nil => rw [List.dropLast_nil, List.toFinset_nil, Finset.union_empty]; exact h
    | cons k ks => exact hroom (List.cons_ne_nil k ks)
  · exact fun hlt _ => hlt

/-! ## The items of a message -/

section

variable [PyText] {s : PeerSession} {m : PeerMessage}

/-- The items that are read before one raises. -/
def readItems : List Json → List InventoryVector
  | [] => []
  | rawItem :: rawItems =>
    match InventoryVector.fromDict rawItem with
    | .ok item => item :: readItems rawItems
    | .error _ => []

/-- The items of an INV or GETDATA that are read before one raises. -/
def readable (payload : Json) : List InventoryVector :=
  match payload.item "items" >>= Json.iter with
  | .ok rawItems => readItems rawItems
  | .error _ => []

/-- The hashes of the headers of a HEADERS message. -/
def headerHashes (payload : Json) : List Str :=
  match headersFromPayload payload >>= List.mapM BlockHeader.hash with
  | .ok hashes => hashes
  | .error _ => []

def itemKey (item : InventoryVector) : Str × Str := (item.kind, item.hash)

/-- A valid message that does not make the session raise after it has assigned to it. -/
def LeavesIntact (s : PeerSession) (m : PeerMessage) : Prop :=
  m.validatePayload = .ok () →
    match m.messageType with
    | .version => ∀ network nodeId, m.payload.item "network" = .ok network → m.payload.item "node_id" = .ok nodeId →
      network.text = s.network → nodeId.text = s.nodeId → s.remoteNodeId = some s.nodeId
    | .inv => (s.knownInventory.card : Int) < s.maxInventoryItems →
      ((s.knownInventory ∪ keys (readable m.payload)).card : Int) ≤ s.maxInventoryItems
    | .getdata => (s.requestedInventory.card : Int) < s.maxInventoryItems →
      ((s.requestedInventory ∪ keys (readable m.payload).dropLast).card : Int) < s.maxInventoryItems
    | .headers => (s.knownInventory.card : Int) < s.maxInventoryItems →
      ((s.knownInventory ∪ ((headerHashes m.payload).dropLast.map (kindHeader, ·)).toFinset).card : Int) <
        s.maxInventoryItems
    | _ => True

/-- An item of a valid INV or GETDATA is read, or raises an exception that is not of the protocol. -/
theorem fromDict_raises {rawItem data : Json} {v : InventoryVector} (hdata : rawItem.toDict = .ok data)
    (hv : InventoryVector.fromDict data = .ok v) :
    Raises (isProtocolError · = false) (InventoryVector.fromDict rawItem) := by
  cases rawItem with
  | obj fields =>
    cases hdata
    rw [hv]
    exact .ok v
  | _ => exact .error rfl

theorem items_raise {payload : Json} (hm : PeerMessage.validateInventory payload = .ok ()) {rawItems : List Json}
    (hraw : payload.item "items" >>= Json.iter = .ok rawItems) :
    ∀ rawItem ∈ rawItems, Raises (isProtocolError · = false) (InventoryVector.fromDict rawItem) := by
  cases payload with
  | obj fields =>
    cases hfield : fields.lookup "items".toList with
    | none =>
      rw [Json.item, hfield] at hraw
      cases hraw
    | some value =>
      rw [Json.item, hfield, ok_bind] at hraw
      rw [PeerMessage.validateInventory, Json.get, hfield, Option.getD_some, ok_bind] at hm
      cases value with
      | arr items =>
        cases hraw
        simp only [bind_eq_ok, exists_unit, forM_eq_ok] at hm
        intro rawItem hmem
        obtain ⟨data, hdata, v, hv, -⟩ := hm.2 rawItem hmem
        exact fromDict_raises hdata hv
      | _ => cases hm
  | _ => cases hm

/-! ## The loops -/

/-- How a loop that fills a set raises: where the exception is of the protocol, something does not fit, and the set is
full; where it was full before, the session is as it was. -/
def FilledUp (known : PeerSession → Finset (Str × Str)) (fits : Prop) (s : PeerSession) (e : PyError) (s' : PeerSession) : Prop :=
  if isProtocolError e then
    ¬ fits ∧ s.maxInventoryItems ≤ (known s').card ∧ (s.maxInventoryItems ≤ (known s).card → s' = s)
  else ((known s).card : Int) ≤ s.maxInventoryItems → fits

/-- A loop that fills a set. It returns when what it goes through fits into a set that was within the limit. -/
def Fills {α : Type} (known : PeerSession → Finset (Str × Str)) (fits : Prop) (x : Method PeerSession PyError α)
    (s : PeerSession) : Prop :=
  Method.Ends x s (fun _ _ => ((known s).card : Int) ≤ s.maxInventoryItems → fits) (FilledUp known fits s)

omit [PyText] in
theorem filledUp_of_not {known : PeerSession → Finset (Str × Str)} {fits : Prop} {s s' : PeerSession} {e : PyError}
    (he : isProtocolError e = false) (h : fits) : FilledUp known fits s e s' := by
  rw [FilledUp, he]
  exact fun _ => h

omit [PyText] in
/-- One more in a set that has room for it. -/
theorem Fills.next {α : Type} {known : PeerSession → Finset (Str × Str)} {fits fits' : Prop} {x : Method PeerSession PyError α}
    {s s₁ : PeerSession} (h : Fills known fits x s₁) (hroom : ¬ s.maxInventoryItems ≤ (known s).card)
    (hmax : s₁.maxInventoryItems = s.maxInventoryItems) (hcard : (known s₁).card ≤ (known s).card + 1)
    (hfits : fits ↔ fits') :
    Method.Ends x s₁ (fun _ _ => ((known s).card : Int) ≤ s.maxInventoryItems → fits') (FilledUp known fits' s) := by
  have hle : ((known s₁).card : Int) ≤ s₁.maxInventoryItems := by omega
  refine Method.Ends.mono h (fun _ _ h _ => hfits.mp (h hle)) fun e s' h => ?_
  rw [FilledUp] at h ⊢
  by_cases he : isProtocolError e = true
  · rw [if_pos he] at h ⊢
    exact ⟨mt hfits.mpr h.1, hmax ▸ h.2.1, fun h => absurd h hroom⟩
  · rw [if_neg he] at h ⊢
    exact fun _ => hfits.mp (h hle)

omit [PyText] in
/-- A loop that raises an exception of the protocol leaves the session as it was exactly where everything fits, or the set
was full before. -/
theorem FilledUp.same_iff {known : PeerSession → Finset (Str × Str)} {fits : Prop} {s s' : PeerSession} {e : PyError}
    (h : FilledUp known fits s e s') :
    (isProtocolError e = true → s' = s) ↔ (((known s).card : Int) < s.maxInventoryItems → fits) := by
  rw [FilledUp] at h
  split at h
  · rename_i he
    obtain ⟨hno, hfull, hsame⟩ := h
    constructor
    · intro heq hlt
      rw [heq he] at hfull
      exact absurd hfull (not_le.mpr hlt)
    · exact fun h _ => hsame (not_lt.mp fun hlt => hno (h hlt))
  · rename_i he
    exact iff_of_true (fun hp => absurd hp he) fun hlt => h hlt.le

theorem wantItems_fills : ∀ {rawItems : List Json}, (∀ rawItem ∈ rawItems,
    Raises (isProtocolError · = false) (InventoryVector.fromDict rawItem)) → ∀ (wanted : List InventoryVector) (s : PeerSession),
    Fills knownInventory (((s.knownInventory ∪ keys (readItems rawItems)).card : Int) ≤ s.maxInventoryItems)
      (wantItems wanted rawItems) s
  | [], _, wanted, s => by
    rw [readItems, keys_nil, Finset.union_empty]
    exact .pure id
  | rawItem :: rawItems, hraw, wanted, s => by
    have hrest : ∀ rawItem ∈ rawItems, Raises (isProtocolError · = false) (InventoryVector.fromDict rawItem) :=
      fun rawItem hmem => hraw rawItem (List.mem_cons_of_mem _ hmem)
    rw [readItems]
    refine .bind (.reading (fun item hitem => ?_) fun e he => ?_)
    · rw [hitem]
      simp only [keys_cons, Finset.union_insert]
      refine .bind (.of_call (Method.call_get s) ?_)
      split
      · rename_i hknown
        rw [Finset.insert_eq_of_mem (Finset.mem_union_left _ hknown)]
        exact wantItems_fills hrest wanted s
      · rename_i hknown
        have hcard := Finset.card_insert_of_notMem hknown
        split
        · rename_i hfull
          -- The item is one more than the session knows.
          have hle : (insert (item.kind, item.hash) s.knownInventory).card ≤
              (insert (item.kind, item.hash) (s.knownInventory ∪ keys (readItems rawItems))).card :=
            Finset.card_le_card (Finset.insert_subset_insert _ Finset.subset_union_left)
          exact .throw ⟨by omega, hfull, fun _ => rfl⟩
        · rename_i hroom
          have hnext := wantItems_fills hrest (wanted ++ [item])
            { s with knownInventory := insert (item.kind, item.hash) s.knownInventory }
          exact .bind (.modify (hnext.next hroom rfl hcard.le (by rw [Finset.insert_union])))
    · rw [he, keys_nil, Finset.union_empty, FilledUp, hraw rawItem List.mem_cons_self e he]
      exact id

theorem rememberRequests_fills : ∀ {rawItems : List Json}, (∀ rawItem ∈ rawItems,
    Raises (isProtocolError · = false) (InventoryVector.fromDict rawItem)) → ∀ s : PeerSession,
    Fills requestedInventory (HasRoom s.maxInventoryItems s.requestedInventory ((readItems rawItems).map itemKey))
      (rememberRequests rawItems) s
  | [], _, s => .pure fun _ h => absurd rfl h
  | rawItem :: rawItems, hraw, s => by
    have hrest : ∀ rawItem ∈ rawItems, Raises (isProtocolError · = false) (InventoryVector.fromDict rawItem) :=
      fun rawItem hmem => hraw rawItem (List.mem_cons_of_mem _ hmem)
    rw [readItems]
    refine .bind (.reading (fun item hitem => ?_) fun e he => ?_)
    · rw [hitem, List.map_cons, hasRoom_cons]
      refine .bind (.of_call (Method.call_get s) ?_)
      split
      · rename_i hfull
        exact .throw ⟨fun h => absurd hfull (not_le.mpr h.1), hfull, fun _ => rfl⟩
      · rename_i hroom
        exact .bind (.modify ((rememberRequests_fills hrest _).next hroom rfl (Finset.card_insert_le _ _)
          (and_iff_right (not_le.mp hroom)).symm))
    · rw [he]
      exact filledUp_of_not (hraw rawItem List.mem_cons_self e he) fun h => absurd rfl h

omit [PyText] in
theorem rememberHeaders_fills : ∀ {headers : List BlockHeader} {hashes : List Str},
    headers.mapM BlockHeader.hash = .ok hashes → ∀ s : PeerSession,
    Fills knownInventory (HasRoom s.maxInventoryItems s.knownInventory (hashes.map (kindHeader, ·))) (rememberHeaders headers) s
  | [], _, h, s => by
    cases h
    exact .pure fun _ h => absurd rfl h
  | header :: headers, _, h, s => by
    rw [List.mapM_cons] at h
    obtain ⟨hash, hhash, h⟩ := bind_eq_ok.mp h
    obtain ⟨hashes, hhashes, h⟩ := bind_eq_ok.mp h
    rw [pure_eq_ok] at h
    subst h
    rw [List.map_cons, hasRoom_cons]
    refine .bind (.of_call (Method.call_get s) ?_)
    split
    · rename_i hfull
      exact .throw ⟨fun h => absurd hfull (not_le.mpr h.1), hfull, fun _ => rfl⟩
    · rename_i hroom
      refine .bind (.of_call ((Method.call_reading _ _).trans (by rw [hhash])) ?_)
      exact .bind (.modify ((rememberHeaders_fills hhashes _).next hroom rfl (Finset.card_insert_le _ _)
        (and_iff_right (not_le.mp hroom)).symm))

omit [PyText] in
theorem validateHeaders_hashes : ∀ {headers : List BlockHeader} {prior : Option (Str × Int)},
    validateHeaders prior headers = .ok () → ∃ hashes, headers.mapM BlockHeader.hash = .ok hashes
  | [], _, _ => ⟨[], rfl⟩
  | header :: headers, prior, h => by
    rw [validateHeaders_cons] at h
    obtain ⟨p, hp, h⟩ := bind_eq_ok.mp h
    obtain ⟨hash, hhash, -⟩ := bind_eq_ok.mp hp
    obtain ⟨hashes, hhashes⟩ := validateHeaders_hashes h
    exact ⟨hash :: hashes, by rw [List.mapM_cons, hhash, ok_bind, hhashes]; rfl⟩

theorem headerHashes_eq {payload : Json} {headers : List BlockHeader} (h : headersFromPayload payload = .ok headers) :
    headers.mapM BlockHeader.hash = .ok (headerHashes payload) := by
  have hvalid : ∃ hashes, headers.mapM BlockHeader.hash = .ok hashes := by
    obtain ⟨value, -, hvalue⟩ := bind_eq_ok.mp h
    cases value with
    | arr items =>
      obtain ⟨_, -, hvalue⟩ := bind_eq_ok.mp hvalue
      obtain ⟨parsed, -, hvalue⟩ := bind_eq_ok.mp hvalue
      obtain ⟨_, hchain, hvalue⟩ := bind_eq_ok.mp hvalue
      rw [pure_eq_ok] at hvalue
      subst hvalue
      exact validateHeaders_hashes hchain
    | _ => cases hvalue
  obtain ⟨hashes, hhashes⟩ := hvalid
  rw [headerHashes, h, ok_bind, hhashes]

/-! ## The handlers -/

/-- The height of a valid version is an integer. -/
theorem height_of_valid {payload : Json} (hm : PeerMessage.validateVersion payload = .ok ()) :
    ∃ height, payload.item "height" >>= Json.toInt = .ok height := by
  cases payload with
  | obj fields =>
    simp only [PeerMessage.validateVersion, Json.get, ok_bind, bind_eq_ok, exists_unit, raiseIf_eq_ok] at hm
    obtain ⟨-, hheight, -⟩ := hm
    cases hfield : fields.lookup "height".toList with
    | none => exact absurd (by rw [hfield]; rfl) hheight
    | some value =>
      rw [hfield, Option.getD_some] at hheight
      rw [Json.item, hfield, ok_bind]
      cases value with
      | int value => exact ⟨value, rfl⟩
      | bool value => exact ⟨if value then 1 else 0, rfl⟩
      | _ => exact absurd rfl hheight
  | _ => cases hm

theorem handleVersion_spares (s : PeerSession) (hm : PeerMessage.validateVersion m.payload = .ok ()) :
    Spares (∀ network nodeId, m.payload.item "network" = .ok network → m.payload.item "node_id" = .ok nodeId →
      network.text = s.network → nodeId.text = s.nodeId → s.remoteNodeId = some s.nodeId) s (handleVersion m) := by
  obtain ⟨height, hheight⟩ := height_of_valid hm
  refine .bind (.reading (fun network hnetwork => .bind (.of_call (Method.call_get s) ?_)) fun e he => ?_)
  · split
    · rename_i hne
      refine .throw (spares_of_same fun network' _ h _ heq => ?_)
      rw [hnetwork] at h
      cases h
      exact absurd heq hne
    · rename_i hnet
      refine .bind (.reading (fun nodeId hid => .bind (.modify ?_)) fun e he => ?_)
      · split
        · -- The id is remembered before it is compared.
          rename_i hself
          refine .throw ⟨fun h network' nodeId' _ _ _ _ => ?_, fun h _ => ?_⟩
          · rw [← h rfl]
            exact congrArg some hself
          · rw [hself, ← h network nodeId hnetwork hid (not_not.mp hnet) hself]
        · rename_i hother
          refine .bind (.of_call ((Method.call_reading _ _).trans (by rw [hheight])) (.bind (.modify ?_)))
          have hc : ∀ network nodeId, m.payload.item "network" = .ok network → m.payload.item "node_id" = .ok nodeId →
              network.text = s.network → nodeId.text = s.nodeId → s.remoteNodeId = some s.nodeId := by
            intro network' nodeId' _ h _ heq
            rw [hid] at h
            cases h
            exact absurd heq hother
          obtain ⟨_, _, _, _, _, versionSent, _, verackSent⟩ := s
          cases versionSent <;> cases verackSent <;> exact .of_call rfl ⟨hc, by simp [List.singleton, versionMessage]⟩
      · refine spares_of_same fun network' nodeId' _ h => ?_
        rw [he] at h
        cases h
  · refine spares_of_same fun network' nodeId' h => ?_
    rw [he] at h
    cases h

omit [PyText] in
theorem handleVerack_spares (s : PeerSession) : Spares True s handleVerack := by
  refine .bind (.of_call (Method.call_get s) ?_)
  split
  · exact .throw (spares_of_same trivial)
  · exact .bind (.modify (.pure ⟨trivial, List.forall_mem_nil _⟩))

omit [PyText] in
theorem handlePing_spares (s : PeerSession) (m : PeerMessage) : Spares True s (handlePing m) :=
  .bind (.reading (fun _ _ => .pure ⟨trivial, List.forall_mem_singleton.mpr fun h => nomatch h⟩) fun _ _ =>
    spares_of_same trivial)

theorem handlePong_spares (s : PeerSession) (m : PeerMessage) : Spares True s (handlePong m) := by
  refine .bind (.reading (fun _ _ => .bind (.of_call (Method.call_get s) ?_)) fun _ _ => spares_of_same trivial)
  split
  · exact .throw (spares_of_same trivial)
  · exact .bind (.modify (.pure ⟨trivial, List.forall_mem_nil _⟩))

omit [PyText] in
/-- A handler that assigns once, after it has read the message. -/
theorem readThenAssign_spares {α : Type} {f : PeerSession → Except PyError α} {g : α → PeerSession → PeerSession}
    (s : PeerSession) :
    Spares True s (Method.reading f >>= fun a => do
      modify (g a)
      return []) :=
  .bind (.reading (fun _ _ => .bind (.modify (.pure ⟨trivial, List.forall_mem_nil _⟩))) fun _ _ => spares_of_same trivial)

theorem handleInv_spares (s : PeerSession) (hm : PeerMessage.validateInventory m.payload = .ok ()) :
    Spares ((s.knownInventory.card : Int) < s.maxInventoryItems →
      ((s.knownInventory ∪ keys (readable m.payload)).card : Int) ≤ s.maxInventoryItems) s (handleInv m) := by
  rw [readable]
  refine .bind (.reading (fun rawItems hraw => ?_) fun e he => ?_)
  · rw [hraw]
    refine .bind (Method.Ends.mono (wantItems_fills (items_raise hm hraw) [] s) (fun wanted s' h => ?_) fun _ _ => FilledUp.same_iff)
    have hfits : (s.knownInventory.card : Int) < s.maxInventoryItems →
        ((s.knownInventory ∪ keys (readItems rawItems)).card : Int) ≤ s.maxInventoryItems := fun hlt => h hlt.le
    split
    · exact .pure ⟨hfits, List.forall_mem_nil _⟩
    · exact .of_call rfl ⟨hfits, List.forall_mem_singleton.mpr fun h => nomatch h⟩
  · rw [he, keys_nil, Finset.union_empty]
    exact spares_of_same fun hlt => hlt.le

theorem handleGetdata_spares (s : PeerSession) (hm : PeerMessage.validateInventory m.payload = .ok ()) :
    Spares ((s.requestedInventory.card : Int) < s.maxInventoryItems →
      HasRoom s.maxInventoryItems s.requestedInventory ((readable m.payload).map itemKey)) s (handleGetdata m) := by
  rw [readable]
  refine .bind (.reading (fun rawItems hraw => ?_) fun e he => ?_)
  · rw [hraw]
    exact .bind (Method.Ends.mono (rememberRequests_fills (items_raise hm hraw) s)
      (fun _ _ h => .pure ⟨fun hlt => h hlt.le, List.forall_mem_nil _⟩) fun _ _ => FilledUp.same_iff)
  · rw [he]
    exact spares_of_same fun _ h => absurd rfl h

theorem handleHeaders_spares (s : PeerSession) (hm : PeerMessage.validateHeadersPayload m.payload = .ok ()) :
    Spares ((s.knownInventory.card : Int) < s.maxInventoryItems →
      HasRoom s.maxInventoryItems s.knownInventory ((headerHashes m.payload).map (kindHeader, ·))) s (handleHeaders m) := by
  obtain ⟨headers, hheaders, -⟩ := bind_eq_ok.mp hm
  refine .bind (.of_call ((Method.call_reading _ _).trans (by rw [hheaders])) ?_)
  exact .bind (Method.Ends.mono (rememberHeaders_fills (headerHashes_eq hheaders) s)
    (fun _ _ h => .pure ⟨fun hlt => h hlt.le, List.forall_mem_nil _⟩) fun _ _ => FilledUp.same_iff)

/-! ## One message -/

theorem handle_spares (s : PeerSession) (hm : m.validatePayload = .ok ()) : Spares (LeavesIntact s m) s (handle m) := by
  have hroom {known : Finset (Str × Str)} {ks : List (Str × Str)} : ((known.card : Int) < s.maxInventoryItems →
      HasRoom s.maxInventoryItems known ks) ↔ ((known.card : Int) < s.maxInventoryItems →
        ((known ∪ ks.dropLast.toFinset).card : Int) < s.maxInventoryItems) := forall_congr' fun hlt => hasRoom_iff hlt
  obtain ⟨messageType, payload, version⟩ := m
  rw [LeavesIntact, forall_prop_of_true hm, handle]
  cases messageType with
  | version => exact handleVersion_spares s hm
  | verack => exact handleVerack_spares s
  | ping => exact handlePing_spares s _
  | pong => exact handlePong_spares s _
  | inv => exact handleInv_spares s hm
  | getdata =>
    have h := handleGetdata_spares s hm
    rw [hroom, ← List.map_dropLast] at h
    exact h
  | getheaders => exact readThenAssign_spares s
  | headers =>
    have h := handleHeaders_spares s hm
    rw [hroom, ← List.map_dropLast] at h
    exact h
  | tx => exact readThenAssign_spares s
  | block => exact readThenAssign_spares s
  | reject => exact .bind (.modify (.pure ⟨trivial, List.forall_mem_nil _⟩))

omit [PyText] in
/-- The sessions after a REJECT are one where the sessions before were. -/
theorem penalized_inj {s s' : PeerSession} : ({ s' with misbehaviorScore := s'.misbehaviorScore + 1 } : PeerSession) =
    { s with misbehaviorScore := s.misbehaviorScore + 1 } ↔ s' = s := by
  cases s
  cases s'
  simp only [PeerSession.mk.injEq, add_left_inj]

omit [PyText] in
/-- What `receive` does with an exception. -/
theorem caught_call (s : PeerSession) (e : PyError) :
    ((if isProtocolError e then do
        modify fun s => { s with misbehaviorScore := s.misbehaviorScore + 1 }
        return [rejectMessage "invalid message"]
      else throw e : Method PeerSession PyError (List PeerMessage)).call s) =
      if isProtocolError e then (.ok [rejectMessage "invalid message"], { s with misbehaviorScore := s.misbehaviorScore + 1 })
      else (.error e, s) := by
  split <;> rfl

/-- A session that answers REJECT is the session before, with a score that is one higher, exactly where the message does not
make it raise after it has assigned to it. -/
theorem reject_intact_iff (s : PeerSession) (m : PeerMessage) :
    (∀ s', (PeerSession.receive m).call s = (.ok [rejectMessage "invalid message"], s') →
      s' = { s with misbehaviorScore := s.misbehaviorScore + 1 }) ↔ LeavesIntact s m := by
  rw [PeerSession.receive, Method.call_tryCatch, Method.call_bind, Method.call_reading]
  cases hm : m.validatePayload with
  | error e =>
    refine iff_of_true (fun s' h => ?_) fun h => absurd (hm.symm.trans h) (by simp)
    replace h := (caught_call s e).symm.trans h
    split at h
    · exact (Prod.mk.inj h).2.symm
    · cases h
  | ok =>
    have h := handle_spares s hm
    rw [Spares, Method.Ends] at h
    rcases hcall : (handle m).call s with ⟨e | answers, s₁⟩
    · have h : (isProtocolError e = true → s₁ = s) ↔ LeavesIntact s m := by
        rw [hcall] at h
        exact h
      rw [← h]
      simp only [hcall, caught_call]
      by_cases he : isProtocolError e = true
      · rw [if_pos he, forall_prop_of_true he, ← penalized_inj]
        exact ⟨fun h => h _ rfl, fun h s' hs' => (Prod.mk.inj hs').2 ▸ h⟩
      · rw [if_neg he]
        exact iff_of_true (fun s' h => by cases h) fun hp => absurd hp he
    · rw [hcall] at h
      simp only [hcall]
      refine iff_of_true (fun s' hs' => ?_) h.1
      cases hs'
      exact absurd rfl (h.2 _ List.mem_cons_self)

end

/-- A version with the session's own id is refused, and its id is remembered as that of the other side. -/
theorem ownVersion_spoils :
    let _ := decoding [] .null
    ∃ s', (PeerSession.receive (ownVersion aliceSession)).call aliceSession = (.ok [rejectMessage "invalid message"], s') ∧
      s' ≠ { aliceSession with misbehaviorScore := aliceSession.misbehaviorScore + 1 } := by
  intro _
  exact ⟨_, rfl, fun h => nomatch congrArg PeerSession.remoteNodeId h⟩

end BCC.Proof
