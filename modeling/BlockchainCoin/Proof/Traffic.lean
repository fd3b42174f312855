import BlockchainCoin.Proof.Connections
import BlockchainCoin.Proof.Headers
import BlockchainCoin.Proof.KeepAlive
import BlockchainCoin.Proof.Schedule

/-!
# The traffic between two services

How many messages two services can exchange. Every message has a weight, which is
more than the weight of all that the service it reaches answers to it
(`receive_answers`); a version and a verack that a session has not sent yet are held in
reserve. So whatever enters a connection, in any order and whatever else the two
services do in between, causes no more deliveries than it weighs (`traffic_bounded`).
-/

namespace BCC.Proof

open BCC.Impl PyError PeerSession

section

variable [PyText]

/-! ## Weights -/

/-- How many elements a loop over a field of the payload goes through. -/
def carried (payload : Json) (key : String) : Nat :=
  match payload.item key >>= Json.iter with
  | .ok items => items.length
  | .error _ => 0

/-- A bound on the weight of what is answered to a message. -/
def answerWeight (m : PeerMessage) : Nat :=
  match m.messageType with
  | .ping => 2
  | .inv => 2 * carried m.payload "items" + 2
  | .getdata => 2 * carried m.payload "items" + 1
  | .getheaders => 8002
  | .headers => 4 * carried m.payload "headers" + 1
  | .reject => if m.validatePayload.isOk then 0 else 1
  | _ => 1

/-- How many deliveries a message can cause, its own among them. -/
def weight (m : PeerMessage) : Nat := answerWeight m + 1

/-- The weight of messages together. -/
def weigh (ms : List PeerMessage) : Nat := (ms.map weight).sum

/-- The weight of what a session will send at most once. -/
def reserve (s : PeerSession) : Nat := (if s.versionSent then 0 else 2) + if s.verackSent then 0 else 2

omit [PyText] in
theorem reserve_le (s : PeerSession) : reserve s ≤ 4 := by
  unfold reserve
  split <;> split <;> decide

theorem weigh_append (ms ms' : List PeerMessage) : weigh (ms ++ ms') = weigh ms + weigh ms' := by
  rw [weigh, List.map_append, List.sum_append, weigh, weigh]

theorem weigh_singleton (m : PeerMessage) : weigh [m] = weight m := by
  rw [weigh, List.map_singleton, List.sum_singleton]

theorem weight_rejectMessage {reason : String} (h : reason.toList ≠ []) : weight (rejectMessage reason) = 1 := by
  have hvalid : (rejectMessage reason).validatePayload = .ok () := by
    show PeerMessage.validateReject (.obj [("reason".toList, .str reason.toList)]) = .ok ()
    simp [PeerMessage.validateReject, Json.get, Json.isNonEmptyText, raiseIf_of_not, h]
  rw [weight, answerWeight]
  show (if (rejectMessage reason).validatePayload.isOk then 0 else 1) + 1 = 1
  rw [hvalid]
  rfl

omit [PyText] in
theorem carried_inventoryMessage (messageType : MessageType) (items : List InventoryVector) :
    carried (inventoryMessage messageType items).payload "items" = items.length := by
  simp [carried, inventoryMessage, Json.item, Json.iter]

theorem weight_getdata (items : List InventoryVector) :
    weight (inventoryMessage .getdata items) = 2 * items.length + 2 := by
  rw [weight, answerWeight]
  show 2 * carried (inventoryMessage .getdata items).payload "items" + 1 + 1 = _
  rw [carried_inventoryMessage]

/-! ## Sessions -/

/-- The messages that the service answers once the session has taken them. -/
def isServed : MessageType → Bool
  | .getdata | .getheaders | .headers | .tx | .block => true
  | _ => false

/-- The handler answers no more than the message may cause, out of its reserve for the rest, and leaves the answer to
the service where that has one. When it raises, a REJECT may follow. -/
def Pays (m : PeerMessage) (s : PeerSession) (x : Method PeerSession PyError (List PeerMessage)) : Prop :=
  Method.Ends x s (fun direct s' => weigh direct + reserve s' ≤ answerWeight m + reserve s ∧ reserve s' ≤ reserve s ∧
      (isServed m.messageType = true → direct = [])) fun _ s' => reserve s' ≤ reserve s ∧ 1 ≤ answerWeight m

variable {m : PeerMessage} {s : PeerSession}

/-- A handler that sends no version and no verack. -/
theorem pays_of_reserve {x : Method PeerSession PyError (List PeerMessage)} (hm : 1 ≤ answerWeight m)
    (h : Method.Ends x s (fun direct s' => reserve s' = reserve s ∧ weigh direct ≤ answerWeight m ∧
      (isServed m.messageType = true → direct = [])) fun _ s' => reserve s' = reserve s) : Pays m s x :=
  h.mono (fun _ _ h => ⟨by omega, h.1.le, h.2.2⟩) fun _ _ h => ⟨h.le, hm⟩

theorem handleVersion_pays (hm : m.messageType = .version) : Pays m s (handleVersion m) := by
  have hweight : answerWeight m = 1 := by rw [answerWeight, hm]
  have hfail : ∀ {s'}, reserve s' = reserve s → reserve s' ≤ reserve s ∧ 1 ≤ answerWeight m :=
    fun h => ⟨h.le, hweight.ge⟩
  refine .bind (.reading (fun network _ => .bind (.of_call (Method.call_get s) ?_)) fun _ _ => hfail rfl)
  split
  · exact .throw (hfail rfl)
  · refine .bind (.reading (fun nodeId _ => .bind (.modify ?_)) fun _ _ => hfail rfl)
    split
    · exact .throw (hfail rfl)
    · refine .bind (.reading (fun height _ => .bind (.modify ?_)) fun _ _ => hfail rfl)
      rw [hweight, hm]
      obtain ⟨_, _, _, _, _, versionSent, _, verackSent⟩ := s
      -- What it sends leaves the reserve.
      cases versionSent <;> cases verackSent <;>
        exact .of_call rfl ⟨by simp [weigh, weight, answerWeight, reserve, versionMessage, List.singleton],
          by simp [reserve], nofun⟩

omit [PyText] in
theorem rememberRequests_reserve [PyText] (r : Nat) :
    ∀ rawItems : List Json, Method.Preserves (reserve · = r) (rememberRequests rawItems)
  | [] => fun _ h => .pure h
  | _ :: rawItems => by
    refine .bind (.reading _) fun item s h => .bind (.of_call (Method.call_get s) ?_)
    split
    · exact .throw h
    · exact .bind (.modify (rememberRequests_reserve r rawItems _ h))

omit [PyText] in
theorem rememberHeaders_reserve (r : Nat) : ∀ headers : List BlockHeader, Method.Preserves (reserve · = r) (rememberHeaders headers)
  | [] => fun _ h => .pure h
  | _ :: headers => by
    refine fun s h => .bind (.of_call (Method.call_get s) ?_)
    split
    · exact .throw h
    · refine .bind (.reading (fun hash _ => ?_) fun _ _ => h)
      exact .bind (.modify (rememberHeaders_reserve r headers _ h))

/-- An INV makes the session want no more items than it carries. -/
theorem wantItems_reserve : ∀ (rawItems : List Json) (wanted : List InventoryVector) (s : PeerSession),
    Method.Ends (wantItems wanted rawItems) s
      (fun wanted' s' => reserve s' = reserve s ∧ wanted'.length ≤ wanted.length + rawItems.length)
      fun _ s' => reserve s' = reserve s
  | [], _, _ => .pure ⟨rfl, Nat.le_refl _⟩
  | _ :: rawItems, wanted, s => by
    refine .bind (.reading (fun item _ => .bind (.of_call (Method.call_get s) ?_)) fun _ _ => rfl)
    split
    · exact (wantItems_reserve rawItems wanted s).mono
        (fun _ _ h => ⟨h.1, by rw [List.length_cons]; omega⟩) fun _ _ h => h
    · split
      · exact .throw rfl
      · refine .bind (.modify ((wantItems_reserve rawItems (wanted ++ [item]) _).mono (fun _ _ h => ⟨h.1, ?_⟩) fun _ _ h => h))
        have hlen := h.2
        rw [List.length_append, List.length_singleton] at hlen
        rw [List.length_cons]
        omega

theorem handleInv_pays (hm : m.messageType = .inv) : Pays m s (handleInv m) := by
  have hweight : answerWeight m = 2 * carried m.payload "items" + 2 := by rw [answerWeight, hm]
  refine pays_of_reserve (by omega) (.bind (.reading (fun rawItems hraw => ?_) fun _ _ => rfl))
  have hcarried : carried m.payload "items" = rawItems.length := by rw [carried, hraw]
  refine .bind ((wantItems_reserve rawItems [] s).mono (fun wanted s' h => ?_) fun _ _ h => h)
  have hlen : wanted.length ≤ rawItems.length := by simpa using h.2
  split
  · exact .pure ⟨h.1, Nat.zero_le _, fun _ => rfl⟩
  · refine .of_call rfl ⟨h.1, ?_, fun hserved => ?_⟩
    · show weigh [inventoryMessage .getdata wanted] ≤ answerWeight m
      rw [weigh_singleton, weight_getdata]
      omega
    · rw [hm] at hserved
      cases hserved

/-- What a valid message makes the session answer. -/
theorem handle_pays (hm : m.validatePayload = .ok ()) (s : PeerSession) : Pays m s (handle m) := by
  obtain ⟨messageType, payload, version⟩ := m
  rw [handle]
  cases messageType with
  | version => exact handleVersion_pays rfl
  | verack =>
    refine .bind (.of_call (Method.call_get s) ?_)
    split
    · exact .throw ⟨le_rfl, le_rfl⟩
    · exact .bind (.modify (.pure ⟨by simp [weigh, answerWeight, reserve], le_rfl, fun _ => rfl⟩))
  | ping =>
    refine pays_of_reserve (Nat.le_succ 1) (.bind (.reading (fun _ _ => .pure ⟨rfl, ?_, fun h => absurd h Bool.false_ne_true⟩)
      fun _ _ => rfl))
    exact le_of_eq (weigh_singleton _)
  | pong =>
    refine pays_of_reserve le_rfl (.bind (.reading (fun _ _ => .bind (.of_call (Method.call_get s) ?_)) fun _ _ => rfl))
    split
    · exact .throw rfl
    · exact .bind (.modify (.pure ⟨rfl, Nat.zero_le _, fun _ => rfl⟩))
  | inv => exact handleInv_pays rfl
  | getdata =>
    refine pays_of_reserve (Nat.le_add_left _ _) (.bind (.reading (fun rawItems _ => ?_) fun _ _ => rfl))
    exact .bind ((rememberRequests_reserve _ rawItems s rfl).mono (fun _ _ h => .pure ⟨h, Nat.zero_le _, fun _ => rfl⟩)
      fun _ _ h => h)
  | getheaders =>
    exact pays_of_reserve (by decide : 1 ≤ 8002) (.bind (.reading (fun _ _ => .bind (.modify
      (.pure ⟨rfl, Nat.zero_le _, fun _ => rfl⟩))) fun _ _ => rfl))
  | headers =>
    refine pays_of_reserve (Nat.le_add_left _ _) (.bind (.reading (fun headers _ => ?_) fun _ _ => rfl))
    exact .bind ((rememberHeaders_reserve _ headers s rfl).mono (fun _ _ h => .pure ⟨h, Nat.zero_le _, fun _ => rfl⟩)
      fun _ _ h => h)
  | tx =>
    exact pays_of_reserve le_rfl (.bind (.reading (fun _ _ => .bind (.modify
      (.pure ⟨rfl, Nat.zero_le _, fun _ => rfl⟩))) fun _ _ => rfl))
  | block =>
    exact pays_of_reserve le_rfl (.bind (.reading (fun _ _ => .bind (.modify
      (.pure ⟨rfl, Nat.zero_le _, fun _ => rfl⟩))) fun _ _ => rfl))
  | reject =>
    -- It does not raise, and answers nothing.
    exact .bind (.modify (.pure ⟨by simp [weigh, reserve], le_rfl, fun _ => rfl⟩))

/-- A session answers REJECT, or what its handler answers to a valid message. -/
def Answered (m : PeerMessage) (s : PeerSession) (direct : List PeerMessage) (s' : PeerSession) : Prop :=
  reserve s' ≤ reserve s ∧ weigh direct + reserve s' ≤ answerWeight m + reserve s ∧
    (direct = [rejectMessage "invalid message"] ∨
      m.validatePayload = .ok () ∧ (isServed m.messageType = true → direct = []))

theorem receive_answered (m : PeerMessage) (s : PeerSession) :
    Method.Ends (PeerSession.receive m) s (Answered m s) fun _ _ => True := by
  have hreject : weigh [rejectMessage "invalid message"] = 1 :=
    (weigh_singleton _).trans (weight_rejectMessage (by simp))
  -- What `except` does where the session has kept its reserve.
  have hhandler : ∀ (e : PyError) (s' : PeerSession), reserve s' ≤ reserve s → 1 ≤ answerWeight m →
      Method.Ends (if isProtocolError e then do
        modify fun s => { s with misbehaviorScore := s.misbehaviorScore + 1 }
        return [rejectMessage "invalid message"]
      else throw e : Method PeerSession PyError (List PeerMessage)) s' (Answered m s) fun _ _ => True := fun e s' hs hm => by
    split
    · refine .bind (.modify (.pure ⟨hs, ?_, .inl rfl⟩))
      have hs : reserve { s' with misbehaviorScore := s'.misbehaviorScore + 1 } ≤ reserve s := hs
      omega
    · exact .throw trivial
  refine .tryCatch (.bind (.reading (fun u hm => ?_) fun e he => ?_))
  · exact (handle_pays hm s).mono (fun _ _ h => ⟨h.2.1, h.1, .inr ⟨hm, h.2.2⟩⟩) fun e s' h => hhandler e s' h.1 h.2
  · refine hhandler e s le_rfl ?_
    rw [answerWeight]
    split <;> first | omega | skip
    rw [he]
    exact le_rfl

end

/-! ## The service -/

section

variable [Ed25519] [PyText] {a : Str} {s : NodeService} {m : PeerMessage}

omit [Ed25519] in
theorem weigh_serveItems : ∀ {rawItems : List Json} {responses responses' : List PeerMessage},
    s.serveItems responses rawItems = .ok responses' → weigh responses' ≤ weigh responses + 2 * rawItems.length
  | [], _, _, h => by
    rw [NodeService.serveItems, Except.ok.injEq] at h
    rw [h]
    exact Nat.le_add_right _ _
  | rawItem :: rawItems, responses, responses', h => by
    rw [NodeService.serveItems] at h
    obtain ⟨item, -, h⟩ := bind_eq_ok.mp h
    have hnext : ∀ {message : PeerMessage}, weight message = 2 →
        s.serveItems (responses ++ [message]) rawItems = .ok responses' →
        weigh responses' ≤ weigh responses + 2 * (rawItem :: rawItems).length := fun {message} hw h => by
      have hle := weigh_serveItems h
      rw [weigh_append, weigh_singleton, hw] at hle
      rw [List.length_cons]
      omega
    split at h
    · obtain ⟨message, hmessage, h⟩ := bind_eq_ok.mp h
      obtain ⟨payload, -, hmessage⟩ := bind_eq_ok.mp hmessage
      rw [pure_eq_ok] at hmessage
      exact hnext (by rw [← hmessage]; rfl) h
    · obtain ⟨message, hmessage, h⟩ := bind_eq_ok.mp h
      obtain ⟨payload, -, hmessage⟩ := bind_eq_ok.mp hmessage
      rw [pure_eq_ok] at hmessage
      exact hnext (by rw [← hmessage]; rfl) h
    · cases h

omit [Ed25519] [PyText] in
theorem length_collectHeaders {stopHash : Json} {limit : Int} : ∀ {chain : List StoredConsensusBlock}
    {headers headers' : List BlockHeader}, NodeService.collectHeaders stopHash limit headers chain = .ok headers' →
    headers'.length ≤ max (headers.length + 1) limit.toNat
  | [], headers, headers', h => by
    rw [NodeService.collectHeaders, Except.ok.injEq] at h
    rw [← h]
    omega
  | stored :: chain, headers, headers', h => by
    rw [NodeService.collectHeaders] at h
    obtain ⟨hash, -, h⟩ := bind_eq_ok.mp h
    have hlen : (headers ++ [BlockHeader.fromBlock stored.block]).length = headers.length + 1 := by simp
    split at h
    · rw [pure_eq_ok] at h
      rw [← h, hlen]
      exact le_max_left _ _
    · rename_i hgo
      rw [not_or, hlen] at hgo
      have hrest := length_collectHeaders h
      rw [hlen] at hrest
      omega

omit [Ed25519] [PyText] in
theorem weight_headersMessage [PyText] {headers : List BlockHeader} {response : PeerMessage}
    (h : headersMessage headers = .ok response) : weight response = 4 * headers.length + 2 := by
  obtain ⟨items, hitems, h⟩ := bind_eq_ok.mp h
  rw [pure_eq_ok] at h
  rw [← h, weight, answerWeight, (mapM_eq_ok.mp hitems).length_eq]
  simp [carried, Json.item, Json.iter]

omit [Ed25519] in
/-- A valid GETHEADERS is answered with no more than 2000 headers. -/
theorem weight_handleGetheaders {payload : Json} (hvalid : PeerMessage.validateGetheaders payload = .ok ())
    {response : PeerMessage} (h : s.handleGetheaders payload = .ok response) : weight response ≤ 8002 := by
  obtain ⟨locator, stop, limit, hasks, hlimit⟩ := asks_of_valid hvalid
  obtain ⟨chain, -, h⟩ := bind_eq_ok.mp h
  rw [hasks.locator, hasks.stop, hasks.limit] at h
  simp only [ok_bind] at h
  obtain ⟨_, -, h⟩ := bind_eq_ok.mp h
  obtain ⟨hashes, -, h⟩ := bind_eq_ok.mp h
  obtain ⟨headers, hheaders, h⟩ := bind_eq_ok.mp h
  have hlen := length_collectHeaders hheaders
  rw [weight_headersMessage h]
  simp only [List.length_nil, Int.toNat_natCast] at hlen
  omega

omit [Ed25519] [PyText] in
/-- GETDATA messages of batches that are not empty weigh at most four times their items. -/
theorem weigh_batches [PyText] {α : Type} (f : α → InventoryVector) : ∀ {batches : List (List α)}, (∀ batch ∈ batches, 1 ≤ batch.length) →
    weigh (batches.map fun batch => inventoryMessage .getdata (batch.map f)) ≤ 4 * batches.flatten.length
  | [], _ => Nat.zero_le _
  | batch :: batches, h => by
    rw [List.forall_mem_cons] at h
    have hrest := weigh_batches f h.2
    have hcons : ∀ (m : PeerMessage) (ms : List PeerMessage), weigh (m :: ms) = weight m + weigh ms := fun _ _ => rfl
    rw [List.map_cons, hcons, weight_getdata, List.length_map, List.flatten_cons, List.length_append]
    omega

omit [Ed25519] in
theorem carried_headers {payload : Json} {headers : List BlockHeader} (h : headersFromPayload payload = .ok headers) :
    carried payload "headers" = headers.length := by
  cases payload with
  | obj fields =>
    obtain ⟨value, hvalue, h⟩ := bind_eq_ok.mp h
    rw [get_obj, Except.ok.injEq, field] at hvalue
    cases value with
    | arr items =>
      obtain ⟨_, -, h⟩ := bind_eq_ok.mp h
      obtain ⟨parsed, hparsed, h⟩ := bind_eq_ok.mp h
      obtain ⟨_, -, h⟩ := bind_eq_ok.mp h
      rw [pure_eq_ok] at h
      subst h
      have hitem : Json.item (.obj fields) "headers" = .ok (.arr items) := item_eq_ok.mpr (by
        cases hl : fields.lookup "headers".toList with
        | none => rw [hl] at hvalue; cases hvalue
        | some value => rw [hl] at hvalue; exact congrArg some hvalue)
      rw [carried, hitem, ← (mapM_eq_ok.mp hparsed).length_eq]
      rfl
    | _ => cases h
  | _ => cases h

omit [Ed25519] in
theorem weigh_handleHeaders (hok : DownloadsOk s) (payload : Json) (now : Int) :
    Method.Ends (NodeService.handleHeaders a payload now) s
      (fun targeted _ => weigh (NodeService.routeRequests a {} targeted).direct ≤ 4 * carried payload "headers") fun _ _ => True := by
  refine (handleHeaders_schedules hok.keyed payload).mono (fun targeted s' h => ?_) fun _ _ h => h
  obtain ⟨headers, hashes, s₁, requests, hheaders, hhashes, -, -, hscheduled, rfl⟩ := h
  obtain ⟨new, hasked, hsub, -, -⟩ := hscheduled.asked a
  have hvectors : vectorsOf requests a = new.map (.mk kindBlock) := hasked
  have hdirect := messagesTo_getdataMessages a a s' requests
  rw [messagesTo, if_pos rfl, hvectors, List.length_map, ← map_slices, List.map_map] at hdirect
  have hnonempty : ∀ batch ∈ slices s'.maxBlockDownloadBatch new.length new, 1 ≤ batch.length :=
    fun batch hbatch => (length_of_mem_slices s'.batch_pos _ hbatch).1
  have hbatches := weigh_batches (.mk kindBlock) hnonempty
  rw [flatten_slices s'.batch_pos _ le_rfl] at hbatches
  have hlen : new.length ≤ carried payload "headers" := by
    rw [carried_headers hheaders, (mapM_eq_ok.mp hhashes).length_eq]
    exact hsub.length_le
  rw [hdirect]
  exact hbatches.trans (by omega)

/-- What the service answers to a valid message that its session leaves to it. -/
theorem dispatch_answers (hvalid : m.validatePayload = .ok ()) (hok : DownloadsOk s) {direct : List PeerMessage}
    (hdirect : isServed m.messageType = true → direct = []) (now : Int) :
    Method.Ends (NodeService.dispatch a m direct now) s (fun result _ => result.direct = direct ∨
      isServed m.messageType = true ∧ weigh result.direct ≤ answerWeight m) fun _ _ => isServed m.messageType = true := by
  obtain ⟨messageType, payload, version⟩ := m
  have hnothing : ∀ {α : Type} {x : Method NodeService PyError α} {k : α → Method NodeService PyError ServiceResult}
      {s : NodeService}, (∀ r s', Method.Ends (k r) s' (fun result _ => result.direct = direct) fun _ _ => False) →
      isServed messageType = true →
      Method.Ends (x >>= k) s (fun result _ => result.direct = direct ∨ isServed messageType = true ∧
        weigh result.direct ≤ answerWeight ⟨messageType, payload, version⟩) fun _ _ => isServed messageType = true :=
    fun hk hserved => .bind ((Method.Ends.of_snd (P := fun _ => True) trivial).mono
      (fun r s' _ => (hk r s').mono (fun _ _ h => .inl h) fun _ _ h => h.elim) fun _ _ _ => hserved)
  rw [NodeService.dispatch]
  cases messageType with
  | tx =>
    refine .bind (.reading (fun t _ => hnothing (fun relay s' => .pure rfl) rfl) fun _ _ => rfl)
  | block =>
    refine .bind (.reading (fun b _ => hnothing (fun relay s' => .pure rfl) rfl) fun _ _ => rfl)
  | getdata =>
    rw [hdirect rfl]
    refine .bind (.reading (fun responses h => .pure (.inr ⟨rfl, ?_⟩)) fun _ _ => rfl)
    obtain ⟨rawItems, hraw, h⟩ := bind_eq_ok.mp h
    show weigh ([] ++ responses) ≤ 2 * carried payload "items" + 1
    have hcarried : carried payload "items" = rawItems.length := by rw [carried, hraw]
    have hle := weigh_serveItems h
    rw [hcarried, List.nil_append]
    exact hle.trans (by simp [weigh])
  | getheaders =>
    rw [hdirect rfl]
    refine .bind (.reading (fun response h => .pure (.inr ⟨rfl, ?_⟩)) fun _ _ => rfl)
    show weigh ([] ++ [response]) ≤ 8002
    rw [List.nil_append, weigh_singleton]
    exact weight_handleGetheaders hvalid h
  | headers =>
    rw [hdirect rfl]
    refine .bind ((weigh_handleHeaders hok payload now).mono (fun targeted s' h => .pure (.inr ⟨rfl, ?_⟩)) fun _ _ _ => rfl)
    exact h.trans (Nat.le_succ _)
  | _ => exact .pure (.inl rfl)

/-- Handling a message leaves the session of its sender as `PeerSession.receive` has left it. -/
theorem dispatch_session (hok : DownloadsOk s) (hsession : s.sessions.contains a = true) (direct : List PeerMessage) (now : Int) :
    Method.Ends (NodeService.dispatch a m direct now) s (fun _ s' => s'.sessions.get? a = s.sessions.get? a)
      fun _ s' => s'.sessions.get? a = s.sessions.get? a := by
  -- The steps are those of a call about any address.
  have hne : a ≠ 'x' :: a := fun h => absurd (congrArg List.length h) (by simp)
  have hsame : ∀ {s'}, Relation.ReflTransGen (Work ('x' :: a)) s s' → s'.sessions.get? a = s.sessions.get? a :=
    fun hs => (others_of_turns (turn_of_work hs)).session a hne
  exact .of_snd (hsame (dispatch_endsBy m direct now hok hsession .refl).snd)

/-- The reserve of the session of an address; a session that is not there yet has sent nothing. -/
def reserveOf (s : NodeService) (a : Str) : Nat :=
  match s.sessions.get? a with
  | some session => reserve session
  | none => 4

omit [Ed25519] [PyText] in
theorem reserveOf_congr {s' : NodeService} (h : s'.sessions.get? a = s.sessions.get? a) : reserveOf s' a = reserveOf s a := by
  rw [reserveOf, reserveOf, h]

omit [Ed25519] [PyText] in
theorem reserveOf_le (s : NodeService) (a : Str) : reserveOf s a ≤ 4 := by
  unfold reserveOf
  split
  · exact reserve_le _
  · exact le_rfl

/-- A result that leaves the connection open weighs less than `budget`, with the reserve that is left. -/
def Affords (a : Str) (budget : Nat) (result : ServiceResult) (s' : NodeService) : Prop :=
  result.disconnect = false → weigh result.direct + reserveOf s' a ≤ budget

omit [Ed25519] [PyText] in
theorem onSession_ends {α : Type} {session : PeerSession} (hsession : s.sessions.get? a = some session)
    {x : Method PeerSession PyError α} {Q : α → NodeService → Prop} {R : PyError → NodeService → Prop}
    (h : Method.Ends x session (fun r session' => Q r { s with sessions := s.sessions.set a session' })
      fun e session' => R e { s with sessions := s.sessions.set a session' }) :
    Method.Ends (NodeService.onSession a x) s Q R := by
  rw [Method.Ends] at h
  rw [Method.Ends, call_onSession hsession]
  rcases hx : x.call session with ⟨_ | _, _⟩
  · rw [hx] at h
    exact h
  · rw [hx] at h
    exact h

omit [Ed25519] in
/-- A penalty that leaves the connection open leaves the sessions as they are. -/
theorem penalizePeer_affords {budget : Nat} {direct : List PeerMessage} {score now : Int}
    (h : weigh direct + reserveOf s a ≤ budget) :
    Method.Ends (do let disconnect ← NodeService.penalizePeer a score now
                    return { direct := direct, disconnect := disconnect } : Method NodeService PyError ServiceResult) s
      (Affords a budget) fun _ _ => True := by
  have hcases := penalizePeer_cases a score now s
  rw [Method.Ends, Method.call_bind]
  rcases hp : (NodeService.penalizePeer a score now).call s with ⟨e | disconnect, s'⟩
  · trivial
  · rw [hp] at hcases
    intro hopen
    cases hcases with
    | scored => exact h
    | dropped => cases hopen

theorem receiveFrom_affords (hok : DownloadsOk s) {session : PeerSession} (hsession : s.sessions.get? a = some session)
    (m : PeerMessage) (now : Int) :
    Method.Ends (receiveFrom a m now) s (Affords a (answerWeight m + reserve session)) fun _ _ => True := by
  refine .bind (onSession_ends hsession ((receive_answered m session).mono (fun direct session' h => ?_) fun _ _ _ => trivial))
  obtain ⟨hreserve, hpaid, hcases⟩ := h
  have hthere : ({ s with sessions := s.sessions.set a session' } : NodeService).sessions.get? a = some session' :=
    Dict.get?_set_self _ _ _
  have hafter : reserveOf { s with sessions := s.sessions.set a session' } a = reserve session' := by
    rw [reserveOf, hthere]
  have hok' : DownloadsOk { s with sessions := s.sessions.set a session' } := hok.sessions (contains_set _ _ _)
  generalize ({ s with sessions := s.sessions.set a session' } : NodeService) = s₁ at hthere hafter hok'
  split
  · exact penalizePeer_affords (hafter ▸ hpaid)
  · rename_i hnot
    -- The answer starts with a REJECT only where it is one.
    rcases hcases with rfl | ⟨hvalid, hserved⟩
    · exact absurd rfl (hnot _ _ _)
    · refine .tryCatch (((dispatch_answers hvalid hok' hserved now).and
        (dispatch_session hok' (Dict.contains_of_get? hthere) direct now)).mono (fun result s' h hopen => ?_)
        fun e s' h => ?_)
      · rw [reserveOf_congr h.2, hafter]
        rcases h.1 with hdirect | ⟨-, hle⟩
        · rw [hdirect]
          exact hpaid
        · omega
      · -- The session has answered nothing, and the service rejects.
        have hnil : direct = [] := hserved h.1
        subst hnil
        have hone : 1 ≤ answerWeight m := by
          rw [answerWeight]
          have hserved := h.1
          split <;> first | omega | skip
          rename_i htype
          rw [htype] at hserved
          cases hserved
        have hrejected : ∀ {reason : String}, reason.toList ≠ [] →
            weigh ([] ++ [rejectMessage reason]) + reserveOf s' a ≤ answerWeight m + reserve session := fun hreason => by
          rw [List.nil_append, weigh_singleton, weight_rejectMessage hreason, reserveOf_congr h.2, hafter]
          omega
        split
        · exact .pure fun _ => hrejected (by simp)
        · exact penalizePeer_affords (hrejected (by simp))
        · exact penalizePeer_affords (hrejected (by simp))
        · exact penalizePeer_affords (hrejected (by simp))
        · exact .throw trivial

/-- A service that leaves the connection open answers less than what it gets weighs. -/
theorem receive_affords (hok : DownloadsOk s) (m : PeerMessage) (now : Int) :
    Method.Ends (NodeService.receive a m now) s (Affords a (answerWeight m + reserveOf s a)) fun _ _ => True := by
  have hfound := sessionFor_found a now s
  rw [Method.Ends, receive_eq]
  rcases hx : (NodeService.sessionFor a now).call s with ⟨e | ⟨⟩, s₁⟩
  · cases e <;> first
      | exact trivial
      | exact fun hopen : true = false => by cases hopen
  · rw [hx] at hfound
    have hok₁ := hok.turns hfound.turn
    dsimp only
    cases hfound with
    | there hsession =>
      have h := receiveFrom_affords hok hsession m now
      rwa [reserveOf, hsession]
    | @opened _ _ session hnone _ _ _ hnew =>
      have h := receiveFrom_affords hok₁ (Dict.get?_set_self _ _ _) m now
      have hreserve : reserve session = 4 := by
        obtain ⟨_, -, hnew⟩ := bind_eq_ok.mp hnew
        rw [pure_eq_ok] at hnew
        rw [← hnew]
        rfl
      rw [hreserve] at h
      rwa [reserveOf, hnone]

end

/-! ## Two services -/

section

variable [Ed25519] [PyText]

/-- Two services that are connected, and the messages on their way. -/
structure Line where
  near : NodeService
  far : NodeService
  toNear : Multiset PeerMessage
  toFar : Multiset PeerMessage

omit [Ed25519] [PyText] in
def Line.swap (l : Line) : Line := ⟨l.far, l.near, l.toFar, l.toNear⟩

/-- What happens at the near side, where the far one has the address `a`: a message arrives and is answered, or
something else is called and may put messages on the line. The deliveries are the cost of a step, and what is put on
the line from outside is what it takes in. -/
inductive Occurs (a : Str) : Line → Nat → Nat → Line → Prop
  | deliver {l : Line} {m : PeerMessage} {rest : Multiset PeerMessage} {now : Int} {result : ServiceResult} {s : NodeService}
    (hm : l.toNear = m ::ₘ rest) (h : (NodeService.receive a m now).call l.near = (.ok result, s))
    (hopen : result.disconnect = false) : Occurs a l 1 0 ⟨s, l.far, rest, result.direct + l.toFar⟩
  | call {l : Line} (call : ServiceCall) (hcall : call.address ≠ a) (ms : List PeerMessage) :
    Occurs a l 0 (weigh ms) { l with near := call.apply l.near, toFar := ms + l.toFar }

/-- Something happens at one of the two sides, where each knows the other by an address. -/
def OnLine (a b : Str) (l : Line) (cost intake : Nat) (l' : Line) : Prop :=
  Occurs a l cost intake l' ∨ Occurs b l.swap cost intake l'.swap

/-- The weight of messages in flight. -/
def loadOf (ms : Multiset PeerMessage) : Nat := (ms.map weight).sum

omit [Ed25519] in
theorem loadOf_add_coe (ms : List PeerMessage) (ms' : Multiset PeerMessage) : loadOf (ms + ms') = weigh ms + loadOf ms' := by
  rw [loadOf, Multiset.map_add, Multiset.sum_add, Multiset.map_coe, Multiset.sum_coe, weigh, loadOf]

omit [Ed25519] in
theorem loadOf_cons (m : PeerMessage) (ms : Multiset PeerMessage) : loadOf (m ::ₘ ms) = weight m + loadOf ms := by
  rw [loadOf, Multiset.map_cons, Multiset.sum_cons, loadOf]

/-- The deliveries that may still come. -/
def outstanding (a b : Str) (l : Line) : Nat :=
  loadOf l.toNear + loadOf l.toFar + (reserveOf l.near a + reserveOf l.far b)

omit [Ed25519] in
theorem outstanding_swap (a b : Str) (l : Line) : outstanding b a l.swap = outstanding a b l := by
  show loadOf l.toFar + loadOf l.toNear + (reserveOf l.far b + reserveOf l.near a) = outstanding a b l
  rw [outstanding]
  omega

theorem Occurs.paid {a : Str} {l l' : Line} {cost intake : Nat} (h : Occurs a l cost intake l') (hok : ServiceOk l.near)
    (b : Str) : ServiceOk l'.near ∧ l'.far = l.far ∧ cost + outstanding a b l' ≤ outstanding a b l + intake := by
  cases h with
  | @deliver m rest now result s hm h hopen =>
    have hturns := receive_turns (a := a) hok.downloads m now
    rw [h] at hturns
    have hle := (receive_affords hok.downloads m now).of_return h hopen
    refine ⟨hok.turns hturns, rfl, ?_⟩
    rw [outstanding, outstanding, hm, loadOf_cons, weight]
    dsimp only
    rw [loadOf_add_coe]
    omega
  | call call hcall ms =>
    have hturns := call.turns hok.downloads hok.node.nodeOk
    refine ⟨hok.turns hturns, rfl, ?_⟩
    have hsame := reserveOf_congr ((others_of_turns hturns).session a hcall.symm)
    rw [outstanding, outstanding]
    dsimp only
    rw [hsame, loadOf_add_coe]
    omega

/-- A step of the line pays for its delivery. -/
theorem OnLine.paid {a b : Str} {l l' : Line} {cost intake : Nat} (hok : ServiceOk l.near ∧ ServiceOk l.far)
    (h : OnLine a b l cost intake l') :
    (ServiceOk l'.near ∧ ServiceOk l'.far) ∧ cost + outstanding a b l' ≤ outstanding a b l + intake := by
  rcases h with h | h
  · obtain ⟨hnear, hfar, hle⟩ := h.paid hok.1 b
    exact ⟨⟨hnear, hfar ▸ hok.2⟩, hle⟩
  · obtain ⟨hfar, hnear, hle⟩ := h.paid hok.2 a
    rw [outstanding_swap, outstanding_swap] at hle
    have hnear : l'.near = l.near := hnear
    exact ⟨⟨hnear ▸ hok.1, hfar⟩, hle⟩

/-- Whatever is on its way between two services, and whatever else is called at both, what is delivered on their line and
what is left on it in the end does not exceed, but for the handshake, the weight of what was put on it. -/
theorem traffic_bounded {a b : Str} {s t : NodeService} (hs : Started s) (ht : Started t) (calls calls' : List ServiceCall)
    (toNear toFar : Multiset PeerMessage) {l : Line} {deliveries intake : Nat}
    (hrun : Metered (OnLine a b) ⟨serviceAfter s calls, serviceAfter t calls', toNear, toFar⟩ deliveries intake l) :
    deliveries + (loadOf l.toNear + loadOf l.toFar) ≤ loadOf toNear + loadOf toFar + intake + 8 := by
  have hreached : ∀ {s : NodeService}, Started s → ∀ calls, ServiceOk (serviceAfter s calls) := fun hs calls =>
    (serviceAfter_induct (P := fun _ => True) hs trivial (fun _ _ _ => trivial) calls).1
  have hpaid := (hrun.paid (φ := outstanding a b) (fun hok h => h.paid hok) ⟨hreached hs calls, hreached ht calls'⟩).2
  have hnear := reserveOf_le (serviceAfter s calls) a
  have hfar := reserveOf_le (serviceAfter t calls') b
  rw [outstanding, outstanding] at hpaid
  dsimp only at hpaid
  omega

end

/-- A ping from Bob is delivered, and what is answered to it is on the line. -/
theorem traffic_bounded_ping :
    let _ := aliceVerify
    let _ := decoding [] .null
    ∃ result s', (NodeService.receive ['b', 'o', 'b'] (pingMessage 7) 0).call genesisService = (.ok result, s') ∧
      result.disconnect = false ∧
      1 + (loadOf 0 + loadOf (result.direct + 0)) ≤ loadOf {pingMessage 7} + loadOf 0 + 0 + 8 := by
  intro _ _
  have hopen : ((NodeService.receive ['b', 'o', 'b'] (pingMessage 7) 0).call genesisService).1.map (·.disconnect) = .ok false := by
    decide +kernel
  have hstart : Started genesisService := started_genesisService
  rcases hcall : (NodeService.receive ['b', 'o', 'b'] (pingMessage 7) 0).call genesisService with ⟨e | result, s'⟩
  · rw [hcall] at hopen
    cases hopen
  · rw [hcall, Except.map, Except.ok.injEq] at hopen
    refine ⟨result, s', rfl, hopen, ?_⟩
    have hdeliver : Occurs ['b', 'o', 'b'] ⟨genesisService, genesisService, {pingMessage 7}, 0⟩ 1 0
        ⟨s', genesisService, 0, result.direct + 0⟩ := .deliver (Multiset.cons_zero _).symm hcall hopen
    exact traffic_bounded (a := ['b', 'o', 'b']) (b := ['a', 'l', 'i', 'c', 'e']) hstart hstart [] [] {pingMessage 7} 0
      (.cons (.inl hdeliver) (.nil _))

end BCC.Proof
