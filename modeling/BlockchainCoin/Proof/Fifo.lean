import BlockchainCoin.Proof.Connections
import BlockchainCoin.Proof.Stream

/-!
# Connections in order

What a server does to its service are calls (`callsOf`), so a run of the server is a run
of the service. Among them, those for an open connection are the messages of the stream that
has come in on it, in order, up to those that are still waiting in its handler
(`InOrder`): the handlers of other connections, and the way the stream was cut into chunks,
make no difference (`messages_in_order`).
-/

namespace BCC.Proof

open BCC.Impl PyError

section

variable [PyText] [Ed25519] {s : NodeTCPServer} {a : Str}

/-! ## The calls of a server -/

omit [Ed25519] in
/-- The call of the service in a turn. -/
def callOf (s : NodeTCPServer) : ServerEvent → List ServiceCall
  | .connect address => if s.handlers.contains address then [] else [.acceptInboundPeer address 0]
  | .next address =>
    match s.handlers.get? address with
    | some ⟨_, message :: _⟩ => [.receive address message 0]
    | _ => []
  | _ => []

def callsOf : NodeTCPServer → List ServerEvent → List ServiceCall
  | _, [] => []
  | s, event :: events => callOf s event ++ callsOf (s.step event).1 events

theorem step_service (s : NodeTCPServer) (event : ServerEvent) :
    (s.step event).1.service = serviceAfter s.service (callOf s event) := by
  cases event with
  | connect address =>
    show (s.connect address).1.service = _
    rw [NodeTCPServer.connect, callOf]
    split
    · rfl
    · show _ = ((NodeService.acceptInboundPeer address 0).call s.service).2
      rcases (NodeService.acceptInboundPeer address 0).call s.service with ⟨_ | ⟨⟩, _⟩ <;> rfl
  | recv address chunk =>
    show (s.recv address chunk).1.service = s.service
    rw [NodeTCPServer.recv]
    split
    · split <;> rfl
    · rfl
  | next address =>
    show (s.next address).1.service = _
    rcases hget : s.handlers.get? address with _ | ⟨buffer, _ | ⟨message, messages⟩⟩
    · simp only [NodeTCPServer.next, callOf, hget]
      rfl
    · simp only [NodeTCPServer.next, callOf, hget]
      rfl
    · simp only [NodeTCPServer.next, callOf, hget]
      show _ = ((NodeService.receive address message 0).call s.service).2
      rcases (NodeService.receive address message 0).call s.service with ⟨_ | result, _⟩
      · rfl
      · dsimp only
        split <;> rfl
  | eof address =>
    show (s.eof address).1.service = s.service
    rw [NodeTCPServer.eof]
    split <;> rfl
  | fail address =>
    show (s.fail address).1.service = s.service
    rw [NodeTCPServer.fail]
    split <;> rfl

/-- A run of the server is a run of its service. -/
theorem serverAfter_service : ∀ (events : List ServerEvent) (s : NodeTCPServer),
    (serverAfter s events).service = serviceAfter s.service (callsOf s events)
  | [], _ => rfl
  | event :: events, s => by
    rw [callsOf, serviceAfter, List.foldl_append]
    exact (serverAfter_service events (s.step event).1).trans
      (congrArg (serviceAfter · (callsOf (s.step event).1 events)) (step_service s event))

/-! ## What has come in -/

omit [Ed25519] in
/-- The messages of a connection, from its beginning on, once a call is made. -/
def lastMessages (a : Str) (ms : List PeerMessage) : ServiceCall → List PeerMessage
  | .acceptInboundPeer address _ => if address = a then [] else ms
  | .receive address message _ => if address = a then ms ++ [message] else ms
  | _ => ms

omit [Ed25519] in
/-- The messages that were handed to the service for an address, since it was last accepted. -/
def messagesOf (a : Str) (calls : List ServiceCall) : List PeerMessage := calls.foldl (lastMessages a) []

omit [PyText] [Ed25519] in
/-- The bytes that a handler has read, once a turn is over. -/
def bytesIn (a : Str) (s : NodeTCPServer) (data : Bytes) : ServerEvent → Bytes
  | .connect address => if address = a ∧ s.handlers.contains a = false then [] else data
  | .recv address chunk =>
    if address = a then
      match s.handlers.get? a with
      | some ⟨_, []⟩ => data ++ chunk
      | _ => data
    else data
  | _ => data

/-- The bytes that were read from a connection, since it was last opened. -/
def bytesOf (a : Str) : NodeTCPServer → Bytes → List ServerEvent → Bytes
  | _, data, [] => data
  | s, data, event :: events => bytesOf a (s.step event).1 (bytesIn a s data event) events

omit [Ed25519] in
/-- What was handed over is the beginning of what has come in, and what is left of it is with the handler, if it has not
returned. -/
structure InOrder (s : NodeTCPServer) (a : Str) (data : Bytes) (ms : List PeerMessage) : Prop where
  handed : ∃ p more rest, p <+: data ∧ Chunks.Drains (look s.authKey) p (ms ++ more) rest
  waiting : ∀ handler, s.handlers.get? a = some handler → handler.buffer.authKey = s.authKey ∧
    Chunks.Drains (look s.authKey) data (ms ++ handler.messages) handler.buffer.data

variable {data : Bytes} {ms : List PeerMessage}

omit [Ed25519] in
/-- A turn that leaves the handler of the connection as it is, or ends it. -/
theorem InOrder.kept {s' : NodeTCPServer} (h : InOrder s a data ms) (hkey : s'.authKey = s.authKey)
    (hget : ∀ handler, s'.handlers.get? a = some handler → s.handlers.get? a = some handler) : InOrder s' a data ms := by
  refine ⟨hkey ▸ h.handed, fun handler hhandler => ?_⟩
  rw [hkey]
  exact h.waiting handler (hget handler hhandler)

omit [PyText] [Ed25519] in
theorem get?_finish {address : Str} {handler : Handler} (h : (s.finish address).handlers.get? a = some handler) :
    s.handlers.get? a = some handler := by
  rw [NodeTCPServer.finish, Dict.get?_erase] at h
  split at h
  · cases h
  · exact h

omit [Ed25519] in
theorem InOrder.connect (h : InOrder s a data ms) (address : Str) :
    InOrder (s.connect address).1 a (bytesIn a s data (.connect address))
      ((callOf s (.connect address)).foldl (lastMessages a) ms) := by
  rw [NodeTCPServer.connect, callOf, bytesIn]
  by_cases hthere : s.handlers.contains address = true
  · rw [if_pos hthere, if_pos hthere, if_neg fun hc => by rw [hc.1.symm, hthere] at hc; cases hc.2]
    exact h
  · rw [if_neg hthere, if_neg hthere, List.foldl_cons, List.foldl_nil, lastMessages]
    by_cases ha : address = a
    · subst ha
      have hnone : s.handlers.get? address = none := Option.not_isSome_iff_eq_none.mp hthere
      rw [if_pos rfl, if_pos ⟨rfl, Bool.of_not_eq_true hthere⟩]
      have hempty : Chunks.Drains (look s.authKey) [] ([] ++ []) [] := .short (stable_look s.authKey).nil
      rcases (NodeService.acceptInboundPeer address 0).call s.service with ⟨_ | ⟨⟩, service⟩
      · refine ⟨⟨[], [], [], List.prefix_rfl, hempty⟩, fun handler hhandler => ?_⟩
        rw [show s.handlers.get? address = some handler from hhandler] at hnone
        cases hnone
      · refine ⟨⟨[], [], [], List.prefix_rfl, hempty⟩, fun handler hhandler => ?_⟩
        obtain rfl := Option.some.inj ((Dict.get?_set_self _ _ _).symm.trans hhandler)
        exact ⟨rfl, hempty⟩
    · rw [if_neg ha, if_neg fun hc => ha hc.1]
      rcases (NodeService.acceptInboundPeer address 0).call s.service with ⟨_ | ⟨⟩, service⟩
      · exact h.kept rfl fun _ hhandler => hhandler
      · exact h.kept rfl fun _ hhandler => (Dict.get?_set_of_ne _ _ (Ne.symm ha)).symm.trans hhandler

omit [Ed25519] in
theorem InOrder.recv (h : InOrder s a data ms) (address : Str) (chunk : Bytes) :
    InOrder (s.recv address chunk).1 a (bytesIn a s data (.recv address chunk)) ms := by
  rcases hget : s.handlers.get? address with _ | ⟨⟨key, rest⟩, _ | ⟨message, messages⟩⟩
  · have hdata : bytesIn a s data (.recv address chunk) = data := by
      rw [bytesIn]
      split
      · rename_i ha
        rw [← ha, hget]
      · rfl
    simp only [NodeTCPServer.recv, hget, hdata]
    exact h
  · by_cases ha : address = a
    · subst ha
      obtain ⟨hkey, hdrains⟩ := h.waiting _ hget
      obtain rfl : key = s.authKey := hkey
      rw [List.append_nil] at hdrains
      rw [bytesIn, if_pos rfl, hget]
      rcases Chunks.drains_or_breaks (stable_look s.authKey) (rest ++ chunk) with ⟨new, rest', hnew⟩ | ⟨e, hbreaks⟩
      · have hall := hdrains.append (stable_look s.authKey) hnew
        simp only [NodeTCPServer.recv, hget, call_feed hnew]
        refine ⟨⟨_, new, rest', List.prefix_rfl, hall⟩, fun handler hhandler => ?_⟩
        obtain rfl := Option.some.inj ((Dict.get?_set_self _ _ _).symm.trans hhandler)
        exact ⟨rfl, hall⟩
      · -- What was handed over before stays the beginning.
        obtain ⟨b, hfeed⟩ := call_feed_breaks hbreaks
        obtain ⟨p, more, rest', hp, hhanded⟩ := h.handed
        have hclosed : InOrder (s.finish address) address (data ++ chunk) ms := by
          refine ⟨⟨p, more, rest', hp.trans (List.prefix_append _ _), hhanded⟩, fun handler hhandler => ?_⟩
          rw [NodeTCPServer.finish, Dict.get?_erase_self] at hhandler
          cases hhandler
        simp only [NodeTCPServer.recv, hget, hfeed]
        cases e <;> exact hclosed
    · rw [bytesIn, if_neg ha]
      simp only [NodeTCPServer.recv, hget]
      split
      · exact h.kept rfl fun _ hhandler => (Dict.get?_set_of_ne _ _ (Ne.symm ha)).symm.trans hhandler
      · exact h.kept rfl fun _ => get?_finish
      · exact h.kept rfl fun _ => get?_finish
  · have hdata : bytesIn a s data (.recv address chunk) = data := by
      rw [bytesIn]
      split
      · rename_i ha
        rw [← ha, hget]
      · rfl
    simp only [NodeTCPServer.recv, hget, hdata]
    exact h

theorem InOrder.next (h : InOrder s a data ms) (address : Str) :
    InOrder (s.next address).1 a data ((callOf s (.next address)).foldl (lastMessages a) ms) := by
  rcases hget : s.handlers.get? address with _ | ⟨buffer, _ | ⟨message, messages⟩⟩
  · simp only [NodeTCPServer.next, callOf, hget]
    exact h
  · simp only [NodeTCPServer.next, callOf, hget]
    exact h
  · simp only [NodeTCPServer.next, callOf, hget, List.foldl_cons, List.foldl_nil, lastMessages]
    by_cases ha : address = a
    · subst ha
      obtain ⟨hkey, hdrains⟩ := h.waiting _ hget
      have hall : Chunks.Drains (look s.authKey) data ((ms ++ [message]) ++ messages) buffer.data := by
        rw [List.append_assoc]
        exact hdrains
      rw [if_pos rfl]
      have hhanded : ∃ p more rest, p <+: data ∧ Chunks.Drains (look s.authKey) p ((ms ++ [message]) ++ more) rest :=
        ⟨data, messages, _, List.prefix_rfl, hall⟩
      have hclosed : ∀ service, InOrder ({ s with service := service }.finish address) address data (ms ++ [message]) :=
        fun service => ⟨hhanded, fun handler hhandler => by
          rw [NodeTCPServer.finish, Dict.get?_erase_self] at hhandler
          cases hhandler⟩
      rcases (NodeService.receive address message 0).call s.service with ⟨_ | result, service⟩
      · exact hclosed service
      · dsimp only
        split
        · exact hclosed service
        · refine ⟨hhanded, fun handler hhandler => ?_⟩
          obtain rfl := Option.some.inj ((Dict.get?_set_self _ _ _).symm.trans hhandler)
          exact ⟨hkey, hall⟩
    · rw [if_neg ha]
      rcases (NodeService.receive address message 0).call s.service with ⟨_ | result, service⟩
      · exact h.kept rfl fun _ => get?_finish (s := { s with service := service })
      · dsimp only
        split
        · exact h.kept rfl fun _ => get?_finish (s := { s with service := service })
        · exact h.kept rfl fun _ hhandler => (Dict.get?_set_of_ne _ _ (Ne.symm ha)).symm.trans hhandler

/-- Every turn keeps the order. -/
theorem InOrder.step (h : InOrder s a data ms) (event : ServerEvent) :
    InOrder (s.step event).1 a (bytesIn a s data event) ((callOf s event).foldl (lastMessages a) ms) := by
  cases event with
  | connect address => exact h.connect address
  | recv address chunk => exact h.recv address chunk
  | next address => exact h.next address
  | eof address =>
    show InOrder (s.eof address).1 a data ms
    rw [NodeTCPServer.eof]
    split
    · exact h.kept rfl fun _ => get?_finish
    · exact h
  | fail address =>
    show InOrder (s.fail address).1 a data ms
    rw [NodeTCPServer.fail]
    split
    · exact h.kept rfl fun _ => get?_finish
    · exact h

theorem step_authKey (s : NodeTCPServer) (event : ServerEvent) : (s.step event).1.authKey = s.authKey := by
  cases event with
  | connect address =>
    show (s.connect address).1.authKey = _
    rw [NodeTCPServer.connect]
    split
    · rfl
    · split <;> rfl
  | recv address chunk =>
    show (s.recv address chunk).1.authKey = _
    rw [NodeTCPServer.recv]
    split
    · split <;> rfl
    · rfl
  | next address =>
    show (s.next address).1.authKey = _
    rw [NodeTCPServer.next]
    split
    · split
      · split <;> rfl
      · rfl
    · rfl
  | eof address =>
    show (s.eof address).1.authKey = _
    rw [NodeTCPServer.eof]
    split <;> rfl
  | fail address =>
    show (s.fail address).1.authKey = _
    rw [NodeTCPServer.fail]
    split <;> rfl

theorem InOrder.run : ∀ (events : List ServerEvent) {s : NodeTCPServer} {data : Bytes} {ms : List PeerMessage},
    InOrder s a data ms →
    InOrder (serverAfter s events) a (bytesOf a s data events) ((callsOf s events).foldl (lastMessages a) ms)
  | [], _, _, _, h => h
  | event :: events, _, _, _, h => by
    rw [callsOf, List.foldl_append]
    exact (h.step event).run events

theorem serverAfter_authKey : ∀ (events : List ServerEvent) (s : NodeTCPServer), (serverAfter s events).authKey = s.authKey
  | [], _ => rfl
  | event :: events, s => (serverAfter_authKey events (s.step event).1).trans (step_authKey s event)

/-! ## Frames -/

omit [Ed25519] in
/-- What was taken of the beginning of frames are the first of them. -/
theorem drains_take {key : Bytes} {messages ms : List PeerMessage} {frames : List Bytes} {rest tail : Bytes}
    (hframes : List.Forall₂ (fun m f => PeerMessage.fromFrame f key = .ok m) messages frames)
    (h : Chunks.Drains (look key) data ms rest) (hdata : data ++ tail = frames.flatten) :
    ms = messages.take ms.length ∧ data = (frames.take ms.length).flatten ++ rest := by
  induction h generalizing messages frames with
  | short => exact ⟨rfl, rfl⟩
  | @item data rest' rest m ms hitem hrest ih =>
    have hnext := (stable_look key).item_append tail hitem
    rw [hdata] at hnext
    cases hframes with
    | nil =>
      rw [List.flatten_nil, (stable_look key).nil] at hnext
      cases hnext
    | @cons m' f messages frames hm hframes =>
      obtain ⟨size, hf⟩ := isFrame_of_fromFrame hm
      rw [List.flatten_cons, look_frame _ hf, hm] at hnext
      obtain ⟨rfl, hflat⟩ := Chunks.Sight.item.inj hnext
      obtain ⟨htake, hrest⟩ := ih hframes hflat.symm
      refine ⟨congrArg (m' :: ·) htake, ?_⟩
      rw [List.flatten_cons, hflat, ← List.append_assoc] at hdata
      rw [List.append_cancel_right hdata, List.length_cons, List.take_succ_cons, List.flatten_cons, List.append_assoc, ← hrest]

omit [Ed25519] in
/-- What waits for more bytes is shorter than the frame it begins. -/
theorem length_lt_of_short {key f rest tail : Bytes} {m : PeerMessage} (hm : PeerMessage.fromFrame f key = .ok m)
    (hshort : look key rest = .short) {after : Bytes} (hrest : rest ++ tail = f ++ after) : rest.length < f.length := by
  by_contra hle
  obtain ⟨size, hf⟩ := isFrame_of_fromFrame hm
  obtain ⟨begun, rfl⟩ := List.prefix_of_prefix_length_le ⟨after, hrest.symm⟩ (List.prefix_append rest tail) (not_lt.mp hle)
  rw [look_frame begun hf, hm] at hshort
  cases hshort

/-- While a client sends frames, the service of the server is called with the messages of these frames, from the first one
on and in their order, whatever other connections do and however the stream is cut into chunks. Those that have arrived and
were not handed over wait in the handler, which keeps less than the next frame. -/
theorem messages_in_order (s : NodeTCPServer) (hs : s.handlers = ∅) (events : List ServerEvent) (a : Str)
    {messages : List PeerMessage} {frames : List Bytes}
    (hframes : List.Forall₂ (fun m f => PeerMessage.fromFrame f s.authKey = .ok m) messages frames)
    (hsent : bytesOf a s [] events <+: frames.flatten) :
    (serverAfter s events).service = serviceAfter s.service (callsOf s events) ∧
      messagesOf a (callsOf s events) <+: messages ∧
      ∀ handler, (serverAfter s events).handlers.get? a = some handler → ∃ count,
        messagesOf a (callsOf s events) ++ handler.messages = messages.take count ∧
          bytesOf a s [] events = (frames.take count).flatten ++ handler.buffer.data ∧
          ∀ f, frames[count]? = some f → handler.buffer.data.length < f.length := by
  have hstart : InOrder s a [] [] := by
    refine ⟨⟨[], [], [], List.prefix_rfl, .short (stable_look s.authKey).nil⟩, fun handler hhandler => ?_⟩
    rw [hs, Dict.get?_empty] at hhandler
    cases hhandler
  have h : InOrder (serverAfter s events) a (bytesOf a s [] events) (messagesOf a (callsOf s events)) := hstart.run events
  have hkey := serverAfter_authKey events s
  refine ⟨serverAfter_service events s, ?_, fun handler hhandler => ?_⟩
  · obtain ⟨p, more, rest, hp, hdrains⟩ := h.handed
    rw [hkey] at hdrains
    obtain ⟨tail, htail⟩ := hp.trans hsent
    obtain ⟨htake, -⟩ := drains_take hframes hdrains htail
    exact ((List.prefix_append _ more).trans (htake ▸ List.take_prefix _ _))
  · obtain ⟨tail, htail⟩ := hsent
    obtain ⟨-, hdrains⟩ := h.waiting handler hhandler
    rw [hkey] at hdrains
    obtain ⟨htake, hbytes⟩ := drains_take hframes hdrains htail
    refine ⟨_, htake, hbytes, fun f hf => ?_⟩
    generalize (messagesOf a (callsOf s events) ++ handler.messages).length = count at hbytes hf
    obtain ⟨hcount, hf⟩ := List.getElem?_eq_some_iff.mp hf
    have hmessages : count < messages.length := hframes.length_eq ▸ hcount
    have hm := (List.forall₂_iff_get.mp hframes).2 count hmessages hcount
    rw [List.get_eq_getElem, List.get_eq_getElem, hf] at hm
    have hsplit : frames.flatten = (frames.take count).flatten ++ (f ++ (frames.drop (count + 1)).flatten) := by
      rw [← List.flatten_cons, ← hf, ← List.drop_eq_getElem_cons hcount, ← List.flatten_append, List.take_append_drop]
    rw [hbytes, List.append_assoc, hsplit] at htail
    exact length_lt_of_short hm hdrains.rest (List.append_cancel_left htail)

end

/-- The first piece of a frame waits in the handler. -/
theorem messages_in_order_genesisServer :
    let _ := aliceVerify
    let _ := decoding verackDocument verackMessage.toDict
    let frame := frameHead verackMessage ++ hmacSha256 [1] (frameHead verackMessage)
    let events : List ServerEvent := [.connect ['b', 'o', 'b'], .recv ['b', 'o', 'b'] (frame.take 5)]
    ∀ handler, (serverAfter genesisServer events).handlers.get? ['b', 'o', 'b'] = some handler → ∃ count,
      messagesOf ['b', 'o', 'b'] (callsOf genesisServer events) ++ handler.messages = [verackMessage].take count ∧
        bytesOf ['b', 'o', 'b'] genesisServer [] events = ([frame].take count).flatten ++ handler.buffer.data ∧
        ∀ f, [frame][count]? = some f → handler.buffer.data.length < f.length := by
  intro _ _ frame events
  have hpayload : verackMessage.encodePayload = verackDocument := by decide
  have hframe : verackMessage.toFrame [1] = .ok frame := toFrame_eq_ok.mpr ⟨by rw [hpayload]; decide, by decide, rfl⟩
  have hback : PeerMessage.fromFrame frame [1] = .ok verackMessage := fromFrame_of_toFrame hframe (if_pos hpayload) rfl
  refine (messages_in_order genesisServer rfl events ['b', 'o', 'b'] (.cons hback .nil) ?_).2.2
  have hbytes : bytesOf ['b', 'o', 'b'] genesisServer [] events = frame.take 5 := by decide +kernel
  rw [hbytes, List.flatten_singleton]
  exact List.take_prefix _ _

end BCC.Proof
