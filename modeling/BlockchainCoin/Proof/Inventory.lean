import BlockchainCoin.Proof.Handshake

/-!
# The inventory of a session

A session counts what it knows before it takes in an item of an INV, a GETDATA or a
HEADERS message. The items of an INV that go on into a GETDATA of its own, the
locator of a GETHEADERS and the contents of a TX or BLOCK it takes in without
counting. One message keeps a session within its limit exactly when these fit
(`receive_bounded_iff`), and so does a run of messages (`inventory_bounded_iff`).
-/

namespace BCC.Proof

open BCC.Impl PyError PeerSession

/-- The limit of the session is this one, and both sets are within it. -/
structure Bounded (max : Int) (s : PeerSession) : Prop where
  limit : s.maxInventoryItems = max
  known : (s.knownInventory.card : Int) ≤ max
  requested : (s.requestedInventory.card : Int) ≤ max

/-- The sets and the limit are the same. -/
structure SameInventory (s s' : PeerSession) : Prop where
  known : s'.knownInventory = s.knownInventory
  requested : s'.requestedInventory = s.requestedInventory
  max : s'.maxInventoryItems = s.maxInventoryItems

theorem SameInventory.bounded_iff {max : Int} {s s' : PeerSession} (h : SameInventory s s') :
    Bounded max s' ↔ Bounded max s := by
  constructor
  · rintro ⟨hl, hk, hr⟩
    rw [h.max] at hl
    rw [h.known] at hk
    rw [h.requested] at hr
    exact ⟨hl, hk, hr⟩
  · rintro ⟨hl, hk, hr⟩
    refine ⟨h.max.trans hl, ?_, ?_⟩
    · rw [h.known]; exact hk
    · rw [h.requested]; exact hr

/-! ## Sets of keys -/

/-- The keys that items are remembered under. -/
def keys (items : List InventoryVector) : Finset (Str × Str) := (items.map fun item => (item.kind, item.hash)).toFinset

@[simp] theorem keys_nil : keys [] = ∅ := rfl

@[simp] theorem keys_cons (item : InventoryVector) (items : List InventoryVector) :
    keys (item :: items) = insert (item.kind, item.hash) (keys items) := by
  rw [keys, List.map_cons, List.toFinset_cons, keys]

theorem keys_append (items items' : List InventoryVector) : keys (items ++ items') = keys items ∪ keys items' := by
  rw [keys, List.map_append, List.toFinset_append, keys, keys]

theorem foldl_insert {α β : Type} [DecidableEq β] (f : α → β) (l : List α) (s : Finset β) :
    l.foldl (fun s a => insert (f a) s) s = s ∪ (l.map f).toFinset := by
  induction l generalizing s with
  | nil => simp
  | cons a l ih => rw [List.foldl_cons, ih, List.map_cons, List.toFinset_cons, Finset.insert_union, Finset.union_insert]

/-- A set that is not full has room for one more. -/
theorem card_insert_le_of_lt {β : Type} [DecidableEq β] {s : Finset β} {max : Int} (h : ¬ max ≤ s.card) (b : β) :
    ((insert b s).card : Int) ≤ max := by
  have hle := Finset.card_insert_le b s
  omega

section

variable [PyText] {max : Int} {s : PeerSession} {m : PeerMessage}

/-! ## Handlers that count -/

theorem rememberRequests_bounded : ∀ rawItems : List Json, Method.Preserves (Bounded max) (rememberRequests rawItems)
  | [] => fun _ h => .pure h
  | rawItem :: rawItems => by
    refine .bind (.reading _) fun item s h => .bind (.of_call (Method.call_get s) ?_)
    split
    · exact .throw h
    · rename_i hroom
      rw [h.limit] at hroom
      exact .bind (.modify (rememberRequests_bounded rawItems _ ⟨h.limit, h.known, card_insert_le_of_lt hroom _⟩))

omit [PyText] in
theorem rememberHeaders_bounded : ∀ headers : List BlockHeader, Method.Preserves (Bounded max) (rememberHeaders headers)
  | [] => fun _ h => .pure h
  | header :: headers => by
    refine fun s h => .bind (.of_call (Method.call_get s) ?_)
    split
    · exact .throw h
    · rename_i hroom
      rw [h.limit] at hroom
      refine .bind (.reading (fun hash _ => ?_) fun _ _ => h)
      exact .bind (.modify (rememberHeaders_bounded headers _ ⟨h.limit, card_insert_le_of_lt hroom _, h.requested⟩))

theorem handleGetdata_bounded (m : PeerMessage) : Method.Preserves (Bounded max) (PeerSession.handleGetdata m) :=
  .bind (.reading _) fun rawItems => .bind (rememberRequests_bounded rawItems) fun _ _ h => .pure h

theorem handleHeaders_bounded (m : PeerMessage) : Method.Preserves (Bounded max) (PeerSession.handleHeaders m) :=
  .bind (.reading _) fun headers => .bind (rememberHeaders_bounded headers) fun _ _ h => .pure h

/-- The loop of `_handle_inv` takes in all items and wants the new ones, or ends because one of them cannot be read or
they do not fit. -/
theorem wantItems_call : ∀ (rawItems : List Json) (wanted : List InventoryVector) (s : PeerSession),
    (s.knownInventory.card : Int) ≤ s.maxInventoryItems →
    (∃ wanted' items, (wantItems wanted rawItems).call s =
        (.ok wanted', { s with knownInventory := s.knownInventory ∪ keys items }) ∧
      rawItems.mapM InventoryVector.fromDict = .ok items ∧
      ((s.knownInventory ∪ keys items).card : Int) ≤ s.maxInventoryItems ∧
      keys wanted' = keys wanted ∪ (keys items \ s.knownInventory)) ∨
    ∃ e known, (wantItems wanted rawItems).call s = (.error e, { s with knownInventory := known }) ∧
      (known.card : Int) ≤ s.maxInventoryItems ∧ ∀ items, rawItems.mapM InventoryVector.fromDict = .ok items →
        ¬ ((s.knownInventory ∪ keys items).card : Int) ≤ s.maxInventoryItems
  | [], wanted, s, h => .inl ⟨wanted, [], by simp [wantItems], rfl, by simpa using h, by simp⟩
  | rawItem :: rawItems, wanted, s, h => by
    rw [wantItems, Method.call_bind, Method.call_reading, List.mapM_cons]
    cases hitem : InventoryVector.fromDict rawItem with
    | error e => exact .inr ⟨e, s.knownInventory, rfl, h, fun items hitems => nomatch hitems⟩
    | ok item =>
      simp only [ok_bind, Method.call_bind, Method.call_get]
      by_cases hknown : (item.kind, item.hash) ∈ s.knownInventory
      · have hinsert : ∀ items, s.knownInventory ∪ keys (item :: items) = s.knownInventory ∪ keys items := fun items => by
          rw [keys_cons, Finset.union_insert, Finset.insert_eq_of_mem (Finset.mem_union_left _ hknown)]
        rw [if_pos hknown]
        obtain ⟨wanted', items, hcall, hitems, hroom, hwanted⟩ | ⟨e, known, hcall, hroom, hno⟩ := wantItems_call rawItems wanted s h
        · refine .inl ⟨wanted', item :: items, ?_, by rw [hitems]; rfl, by rw [hinsert]; exact hroom, ?_⟩
          · rw [hcall, hinsert]
          · rw [hwanted, keys_cons, Finset.insert_sdiff_of_mem _ hknown]
        · refine .inr ⟨e, known, hcall, hroom, fun items hitems => ?_⟩
          obtain ⟨items', hitems', rfl⟩ := map_eq_ok.mp hitems
          rw [hinsert]
          exact hno items' hitems'
      rw [if_neg hknown]
      by_cases hroom : s.maxInventoryItems ≤ s.knownInventory.card
      · rw [if_pos hroom]
        refine .inr ⟨_, s.knownInventory, rfl, h, fun items hitems hle => ?_⟩
        obtain ⟨items', -, rfl⟩ := map_eq_ok.mp hitems
        -- The item is one more than the session knows.
        have hcard := Finset.card_insert_of_notMem hknown
        have hsub : insert (item.kind, item.hash) s.knownInventory ⊆ s.knownInventory ∪ keys (item :: items') := by
          rw [keys_cons, Finset.union_insert]
          exact Finset.insert_subset_insert _ Finset.subset_union_left
        have hmore := Finset.card_le_card hsub
        omega
      · rw [if_neg hroom]
        have hinsert : ∀ items, insert (item.kind, item.hash) s.knownInventory ∪ keys items =
            s.knownInventory ∪ keys (item :: items) := fun items => by
          rw [keys_cons, Finset.insert_union, Finset.union_insert]
        obtain ⟨wanted', items, hcall, hitems, hroom', hwanted⟩ | ⟨e, known, hcall, hroom', hno⟩ :=
          wantItems_call rawItems (wanted ++ [item]) { s with knownInventory := insert (item.kind, item.hash) s.knownInventory }
            (card_insert_le_of_lt hroom _)
        · refine .inl ⟨wanted', item :: items, ?_, by rw [hitems]; rfl, by rw [← hinsert]; exact hroom', ?_⟩
          · simp only [Method.call_bind, Method.call_modify]
            rw [hcall, hinsert]
          · rw [hwanted, keys_append, keys_cons, keys_cons, keys_nil]
            ext key
            simp only [Finset.mem_union, Finset.mem_insert, Finset.mem_sdiff, Finset.notMem_empty, or_false]
            by_cases hkey : key = (item.kind, item.hash)
            · simp [hkey, hknown]
            · simp [hkey]
        · refine .inr ⟨e, known, by simp only [Method.call_bind, Method.call_modify]; exact hcall, hroom', fun items hitems => ?_⟩
          obtain ⟨items', hitems', rfl⟩ := map_eq_ok.mp hitems
          rw [← hinsert]
          exact hno items' hitems'

/-! ## Handlers that do not count -/

/-- The items of an INV. -/
def vectors (payload : Json) : Except PyError (List InventoryVector) :=
  payload.item "items" >>= Json.iter >>= List.mapM InventoryVector.fromDict

omit [PyText] in
/-- The hashes of a GETHEADERS. -/
def locator (payload : Json) : Except PyError (List Str) :=
  payload.item "locator" >>= Json.iter >>= List.mapM hashText

/-- What the session takes in without counting fits, where the payload of the message is valid. -/
def FitsInventory (s : PeerSession) (m : PeerMessage) : Prop :=
  m.validatePayload = .ok () →
    match m.messageType with
    | .inv => ∀ items, vectors m.payload = .ok items →
      ((s.knownInventory ∪ keys items).card : Int) ≤ s.maxInventoryItems →
      ((s.requestedInventory ∪ (keys items \ s.knownInventory)).card : Int) ≤ s.maxInventoryItems
    | .getheaders => ∀ hashes, locator m.payload = .ok hashes →
      ((s.requestedInventory ∪ (hashes.map (kindHeader, ·)).toFinset).card : Int) ≤ s.maxInventoryItems
    | .tx => ∀ txid, transactionFromPayload m.payload >>= ConsensusTransaction.txid = .ok txid →
      ((insert (kindTx, txid) s.knownInventory).card : Int) ≤ s.maxInventoryItems
    | .block => ∀ hash, blockFromPayload m.payload >>= ConsensusBlock.hash = .ok hash →
      ((insert (kindBlock, hash) s.knownInventory).card : Int) ≤ s.maxInventoryItems
    | _ => True

omit [PyText] in
/-- What `_handle_inv` does with the items it wants. -/
theorem requestWanted_call (wanted : List InventoryVector) (s : PeerSession) :
    ((if wanted = [] then pure [] else List.singleton <$> request wanted :
        Method PeerSession PyError (List PeerMessage)).call s).2 =
      { s with requestedInventory := s.requestedInventory ∪ keys wanted } := by
  by_cases hnil : wanted = []
  · rw [if_pos hnil, hnil, keys_nil, Finset.union_empty]
    rfl
  · rw [if_neg hnil, keys, ← foldl_insert]
    rfl

theorem handleInv_bounded_iff (h : Bounded s.maxInventoryItems s) :
    Bounded s.maxInventoryItems ((PeerSession.handleInv m).call s).2 ↔ ∀ items, vectors m.payload = .ok items →
      ((s.knownInventory ∪ keys items).card : Int) ≤ s.maxInventoryItems →
      ((s.requestedInventory ∪ (keys items \ s.knownInventory)).card : Int) ≤ s.maxInventoryItems := by
  rw [PeerSession.handleInv, Method.call_bind, Method.call_reading, vectors]
  cases hraw : m.payload.item "items" >>= Json.iter with
  | error e => exact iff_of_true h fun items hitems => nomatch hitems
  | ok rawItems =>
    show Bounded s.maxInventoryItems ((wantItems [] rawItems >>= _).call s).2 ↔ _
    rw [ok_bind, Method.call_bind]
    obtain ⟨wanted, items, hcall, hitems, hroom, hwanted⟩ | ⟨e, known, hcall, hroom, hno⟩ := wantItems_call rawItems [] s h.known
    · rw [keys_nil, Finset.empty_union] at hwanted
      rw [hcall, hitems]
      show Bounded s.maxInventoryItems (Method.call _ _).2 ↔ _
      rw [requestWanted_call, hwanted]
      constructor
      · rintro hb _ ⟨⟩ -
        exact hb.requested
      · intro hfits
        exact ⟨rfl, hroom, hfits items rfl hroom⟩
    · rw [hcall]
      refine iff_of_true ⟨rfl, hroom, h.requested⟩ fun items hitems hle => ?_
      exact absurd hle (hno items hitems)

omit [PyText] in
theorem handleGetheaders_bounded_iff (h : Bounded s.maxInventoryItems s) :
    Bounded s.maxInventoryItems ((PeerSession.handleGetheaders m).call s).2 ↔ ∀ hashes, locator m.payload = .ok hashes →
      ((s.requestedInventory ∪ (hashes.map (kindHeader, ·)).toFinset).card : Int) ≤ s.maxInventoryItems := by
  rw [PeerSession.handleGetheaders, Method.call_bind, Method.call_reading, locator]
  cases hlocator : m.payload.item "locator" >>= Json.iter >>= List.mapM hashText with
  | error e => exact iff_of_true h fun hashes hhashes => nomatch hhashes
  | ok hashes =>
    have hrequested := foldl_insert (kindHeader, ·) hashes s.requestedInventory
    constructor
    · rintro hb _ ⟨⟩
      rw [← hrequested]
      exact hb.requested
    · intro hfits
      have hroom := hfits hashes rfl
      rw [← hrequested] at hroom
      exact ⟨rfl, h.known, hroom⟩

omit [PyText] in
/-- A handler that remembers a key of the payload, without counting. -/
theorem remember_bounded_iff {f : PeerSession → Except PyError Str} (kind : Str) (h : Bounded s.maxInventoryItems s) :
    Bounded s.maxInventoryItems ((Method.reading f >>= fun hash => do
        modify fun s => { s with knownInventory := insert (kind, hash) s.knownInventory }
        return [] : Method PeerSession PyError (List PeerMessage)).call s).2 ↔
      ∀ hash, f s = .ok hash → ((insert (kind, hash) s.knownInventory).card : Int) ≤ s.maxInventoryItems := by
  rw [Method.call_bind, Method.call_reading]
  cases hf : f s with
  | error e => exact iff_of_true h fun hash hhash => nomatch hhash
  | ok hash =>
    constructor
    · rintro hb _ ⟨⟩
      exact hb.known
    · intro hfits
      exact ⟨rfl, hfits hash rfl, h.requested⟩

/-! ## Handlers that remember nothing -/

omit [PyText] in
theorem startHandshake_same (s₀ : PeerSession) : Method.Preserves (SameInventory s₀) startHandshake :=
  .bind (.modify fun _ h => ⟨h.known, h.requested, h.max⟩) fun _ s h => .bind (.of_call (Method.call_get s) (.pure h))

omit [PyText] in
theorem sendVerack_same (s₀ : PeerSession) : Method.Preserves (SameInventory s₀) sendVerack := by
  refine fun s h => .bind (.of_call (Method.call_get s) ?_)
  split
  · exact .throw h
  · exact .bind (.modify (.pure ⟨h.known, h.requested, h.max⟩))

omit [PyText] in
/-- An answer that a flag may hold back, and what follows it. -/
theorem answer_same {s₀ : PeerSession} (flag : Bool) {x : Method PeerSession PyError PeerMessage}
    {k : List PeerMessage → Method PeerSession PyError (List PeerMessage)}
    (hx : Method.Preserves (SameInventory s₀) x) (hk : ∀ answers, Method.Preserves (SameInventory s₀) (k answers)) :
    Method.Preserves (SameInventory s₀) (if flag = false then List.singleton <$> x >>= k else pure [] >>= k) := by
  split
  · exact .bind (.bind hx fun _ _ h => .pure h) hk
  · exact hk []

theorem handleVersion_same (s₀ : PeerSession) (m : PeerMessage) :
    Method.Preserves (SameInventory s₀) (handleVersion m) := by
  refine .bind (.reading _) fun network s h => .bind (.of_call (Method.call_get s) ?_)
  split
  · exact .throw h
  · refine .bind (.reading (fun nodeId _ => .bind (.modify ?_)) fun _ _ => h)
    have hid : SameInventory s₀ { s with remoteNodeId := some nodeId.text } := ⟨h.known, h.requested, h.max⟩
    split
    · exact .throw hid
    · refine .bind (.reading (fun height _ => .bind (.modify ?_)) fun _ _ => hid)
      have hreceived : SameInventory s₀
          { s with remoteNodeId := some nodeId.text, remoteHeight := height, versionReceived := true } :=
        ⟨h.known, h.requested, h.max⟩
      exact answer_same _ (startHandshake_same s₀)
        (fun _ => answer_same _ (sendVerack_same s₀) fun _ _ h => .pure h) _ hreceived

omit [PyText] in
theorem handleVerack_same (s₀ : PeerSession) : Method.Preserves (SameInventory s₀) handleVerack := by
  refine fun s h => .bind (.of_call (Method.call_get s) ?_)
  split
  · exact .throw h
  · exact .bind (.modify (.pure ⟨h.known, h.requested, h.max⟩))

omit [PyText] in
theorem handlePing_same (s₀ : PeerSession) (m : PeerMessage) : Method.Preserves (SameInventory s₀) (handlePing m) :=
  .bind (.reading _) fun _ _ h => .pure h

theorem handlePong_same (s₀ : PeerSession) (m : PeerMessage) : Method.Preserves (SameInventory s₀) (handlePong m) := by
  refine .bind (.reading _) fun nonce s h => .bind (.of_call (Method.call_get s) ?_)
  split
  · exact .throw h
  · exact .bind (.modify (.pure ⟨h.known, h.requested, h.max⟩))

omit [PyText] in
theorem handleReject_same (s₀ : PeerSession) : Method.Preserves (SameInventory s₀) handleReject :=
  .bind (.modify fun _ h => ⟨h.known, h.requested, h.max⟩) fun _ _ h => .pure h

/-! ## One message -/

omit [PyText] in
theorem SameInventory.refl (s : PeerSession) : SameInventory s s := ⟨rfl, rfl, rfl⟩

omit [PyText] in
/-- A handler that leaves the sets and the limit as they are. -/
theorem bounded_of_same {x : Method PeerSession PyError (List PeerMessage)} (hx : Method.Preserves (SameInventory s) x)
    (h : Bounded s.maxInventoryItems s) : Bounded s.maxInventoryItems (x.call s).2 ↔ True :=
  iff_true_intro ((hx s (.refl s)).snd.bounded_iff.mpr h)

theorem handle_bounded_iff (h : Bounded s.maxInventoryItems s) (hm : m.validatePayload = .ok ()) :
    Bounded s.maxInventoryItems ((PeerSession.handle m).call s).2 ↔ FitsInventory s m := by
  rw [FitsInventory, forall_prop_of_true hm, PeerSession.handle]
  cases m.messageType with
  | version => exact bounded_of_same (handleVersion_same s m) h
  | verack => exact bounded_of_same (handleVerack_same s) h
  | ping => exact bounded_of_same (handlePing_same s m) h
  | pong => exact bounded_of_same (handlePong_same s m) h
  | inv => exact handleInv_bounded_iff h
  | getdata => exact iff_true_intro (handleGetdata_bounded m s h).snd
  | getheaders => exact handleGetheaders_bounded_iff h
  | headers => exact iff_true_intro (handleHeaders_bounded m s h).snd
  | tx => exact remember_bounded_iff kindTx h
  | block => exact remember_bounded_iff kindBlock h
  | reject => exact bounded_of_same (handleReject_same s) h

omit [PyText] in
/-- What `receive` does with an exception does not touch the sets. -/
theorem caught_same (s : PeerSession) (e : PyError) :
    Method.Ends (if isProtocolError e then do
        modify fun s => { s with misbehaviorScore := s.misbehaviorScore + 1 }
        return [rejectMessage "invalid message"]
      else throw e : Method PeerSession PyError (List PeerMessage)) s (fun _ => SameInventory s) fun _ => SameInventory s := by
  split
  · exact .bind (.modify (.pure ⟨rfl, rfl, rfl⟩))
  · exact .throw (.refl s)

/-- A message with a valid payload does to the sets what its handler does. -/
theorem receive_same_handle (s : PeerSession) (hm : m.validatePayload = .ok ()) :
    SameInventory ((PeerSession.handle m).call s).2 ((PeerSession.receive m).call s).2 := by
  refine Method.Ends.snd (.tryCatch (.bind (.of_call (by rw [Method.call_reading, hm]) ?_)))
  rw [Method.Ends]
  rcases hcall : (PeerSession.handle m).call s with ⟨e | _, s'⟩
  · exact caught_same s' e
  · exact .refl s'

/-- A message without one does nothing to them. -/
theorem receive_same (s : PeerSession) (hm : m.validatePayload ≠ .ok ()) :
    SameInventory s ((PeerSession.receive m).call s).2 :=
  Method.Ends.snd (.tryCatch (.bind (.reading (fun _ hok => absurd hok hm) fun e _ => caught_same s e)))

/-- A message keeps a session within its limit exactly when what it brings in uncounted fits. -/
theorem receive_bounded_iff (h : Bounded s.maxInventoryItems s) : Bounded s.maxInventoryItems ((PeerSession.receive m).call s).2 ↔ FitsInventory s m := by
  by_cases hm : m.validatePayload = .ok ()
  · rw [(receive_same_handle s hm).bounded_iff, handle_bounded_iff h hm]
  · rw [(receive_same s hm).bounded_iff]
    exact iff_of_true h fun hok => absurd hok hm

/-! ## Runs -/

/-- The session after these messages. -/
def afterMessages (s : PeerSession) (ms : List PeerMessage) : PeerSession :=
  ms.foldl (fun s m => ((PeerSession.receive m).call s).2) s

theorem afterMessages_concat (s : PeerSession) (ms : List PeerMessage) (m : PeerMessage) :
    afterMessages s (ms ++ [m]) = ((PeerSession.receive m).call (afterMessages s ms)).2 := by
  rw [afterMessages, List.foldl_append]
  rfl

/-- A run that starts within the limit stays within it exactly when each of its messages fits where it arrives. -/
theorem bounded_afterMessages_iff (h : Bounded s.maxInventoryItems s) (ms : List PeerMessage) :
    (∀ pre m post, ms = pre ++ m :: post → Bounded s.maxInventoryItems (afterMessages s (pre ++ [m]))) ↔
      ∀ pre m post, ms = pre ++ m :: post → FitsInventory (afterMessages s pre) m := by
  have hstep : ∀ {pre} m, Bounded s.maxInventoryItems (afterMessages s pre) →
      (Bounded s.maxInventoryItems (afterMessages s (pre ++ [m])) ↔ FitsInventory (afterMessages s pre) m) := fun m hb => by
    rw [afterMessages_concat, ← hb.limit]
    rw [← hb.limit] at hb
    exact receive_bounded_iff hb
  constructor
  · intro hall pre m post hms
    have hpre : Bounded s.maxInventoryItems (afterMessages s pre) := by
      rcases List.eq_nil_or_concat pre with rfl | ⟨pre', m', rfl⟩
      · exact h
      · rw [List.concat_eq_append] at hms ⊢
        exact hall pre' m' (m :: post) (by rw [hms, List.append_assoc]; rfl)
    exact (hstep m hpre).mp (hall pre m post hms)
  · intro hfits
    have hpre : ∀ pre post, ms = pre ++ post → Bounded s.maxInventoryItems (afterMessages s pre) := fun pre => by
      induction pre using List.reverseRecOn with
      | nil => exact fun _ _ => h
      | append_singleton pre m ih =>
        intro post hms
        rw [List.append_assoc] at hms
        exact (hstep m (ih _ hms)).mpr (hfits pre m post hms)
    exact fun pre m post hms => hpre (pre ++ [m]) post (by rw [hms, List.append_assoc]; rfl)

/-- The inventory of a session that starts without any is within its limit after every message of a run exactly when
the limit is not negative and each message fits where it arrives. -/
theorem inventory_bounded_iff (hknown : s.knownInventory = ∅) (hrequested : s.requestedInventory = ∅)
    (ms : List PeerMessage) :
    (∀ pre m post, ms = pre ++ m :: post → Bounded s.maxInventoryItems (afterMessages s (pre ++ [m]))) ↔
      (ms = [] ∨ 0 ≤ s.maxInventoryItems) ∧ ∀ pre m post, ms = pre ++ m :: post → FitsInventory (afterMessages s pre) m := by
  by_cases hlimit : 0 ≤ s.maxInventoryItems
  · have h : Bounded s.maxInventoryItems s := by
      refine ⟨rfl, ?_, ?_⟩
      · rw [hknown]; exact hlimit
      · rw [hrequested]; exact hlimit
    rw [bounded_afterMessages_iff h, and_iff_right (.inr hlimit)]
  · cases ms with
    | nil =>
      have hno : ∀ pre m post, [] ≠ pre ++ m :: (post : List PeerMessage) := fun pre m post =>
        (List.append_ne_nil_of_right_ne_nil pre (List.cons_ne_nil m post)).symm
      exact iff_of_true (fun pre m post h => absurd h (hno pre m post))
        ⟨.inl rfl, fun pre m post h => absurd h (hno pre m post)⟩
    | cons m ms =>
      refine iff_of_false (fun hall => ?_) fun ⟨hor, _⟩ => hor.elim (fun h => nomatch h) hlimit
      have hknown := (hall [] m ms rfl).known
      omega

end

/-- A request for one header, with one hash in its locator. -/
def locatorMessage : PeerMessage :=
  ⟨.getheaders, .obj [("locator".toList, .arr [.str (List.replicate 64 '0')]), ("limit".toList, .int 1)], protocolVersion⟩

theorem eq_of_singleton {α : Type} {a m : α} {pre post : List α} (h : [a] = pre ++ m :: post) : pre = [] ∧ m = a := by
  cases pre with
  | nil => exact ⟨rfl, (List.cons.inj h).1.symm⟩
  | cons _ pre => exact absurd (List.cons.inj h).2.symm (List.append_ne_nil_of_right_ne_nil pre (List.cons_ne_nil m post))

/-- The hash fits into a session of the default limit. -/
theorem inventory_bounded_aliceSession :
    let _ := decoding [] .null
    ∀ pre m post, [locatorMessage] = pre ++ m :: post →
      Bounded aliceSession.maxInventoryItems (afterMessages aliceSession (pre ++ [m])) := by
  intro _
  refine (inventory_bounded_iff rfl rfl [locatorMessage]).mpr ⟨.inr (by decide), fun pre m post h => ?_⟩
  obtain ⟨rfl, rfl⟩ := eq_of_singleton h
  rintro - hashes ⟨⟩
  decide

/-- A session without room for an inventory. -/
def fullSession : PeerSession := { aliceSession with maxInventoryItems := 0 }

theorem fullSession_unbounded :
    let _ := decoding [] .null
    fullSession.knownInventory = ∅ ∧ fullSession.requestedInventory = ∅ ∧
      ¬ ∀ pre m post, [locatorMessage] = pre ++ m :: post →
        Bounded fullSession.maxInventoryItems (afterMessages fullSession (pre ++ [m])) := by
  intro _
  refine ⟨rfl, rfl, fun h => ?_⟩
  have hrequested := (h [] locatorMessage [] rfl).requested
  revert hrequested
  decide

end BCC.Proof
