import BlockchainCoin.Impl.Service

/-!
# `transport.py`: buffers and connections

`ConnectionBuffer` cuts a stream of bytes into frames. The server has one handler
for each connection, which reads a chunk, hands the messages in it to the service
one after the other, and reads on; the handlers take turns in any order
(`ServerEvent`), and each call of the service is one turn. What is sent to sockets
is not part of this state: where sending raises, the handler fails.
-/

namespace BCC.Impl

open PyError

/-! ## Buffers -/

/-- `ConnectionBuffer` -/
structure ConnectionBuffer where
  authKey : Bytes
  data : Bytes := []
  deriving DecidableEq

namespace ConnectionBuffer

/-- `_has_complete_frame` -/
def hasCompleteFrame (b : ConnectionBuffer) : Except PyError Bool :=
  if b.data.length < headerSize then .ok false
  else do
    raiseIf (b.data.take 4 ≠ networkMagic) (networkError "network magic is invalid")
    let size := ofBeBytes ((b.data.take headerSize).drop 4)
    raiseIf (maxMessageSize < size) (networkError "message exceeds maximum size")
    return headerSize + size + authTagSize ≤ b.data.length

variable [PyText]

/-- The loop of `feed`, for at most `fuel` frames. -/
def readFrames : Nat → List PeerMessage → Method ConnectionBuffer PyError (List PeerMessage)
  | 0, _ => throw endless
  | fuel + 1, messages => do
    let complete ← Method.reading hasCompleteFrame
    if complete = false then return messages
    else
      let message ← Method.assigning fun b => do
        let (message, rest) ← readFrame b.data b.authKey
        return (message, { b with data := rest })
      readFrames fuel (messages ++ [message])

/-- `ConnectionBuffer.feed`. Every frame takes some bytes, so there are no more of them than bytes. -/
def feed (chunk : Bytes) : Method ConnectionBuffer PyError (List PeerMessage) := do
  let b ← get
  if chunk = [] ∧ b.data = [] then return []
  else
    modify fun b => { b with data := b.data ++ chunk }
    readFrames (b.data.length + chunk.length + 1) []

end ConnectionBuffer

/-! ## Connections -/

/-- A handler in its loop: its buffer, and the messages of the last chunk that it has not handed over yet. -/
structure Handler where
  buffer : ConnectionBuffer
  messages : List PeerMessage

/-- `NodeTCPServerAdapter`, with the handlers that have not returned. -/
structure NodeTCPServer where
  service : NodeService
  authKey : Bytes
  handlers : Dict Str Handler
  authKey_ne : authKey ≠ []

/-- What happens next at a server. -/
inductive ServerEvent
  /-- A client connects from an address. -/
  | connect (address : Str)
  /-- Bytes arrive. -/
  | recv (address : Str) (chunk : Bytes)
  /-- The next message of the last chunk is handed over. -/
  | next (address : Str)
  /-- The client has closed the connection. -/
  | eof (address : Str)
  /-- A socket or the encoding of a response raises. -/
  | fail (address : Str)

/-- How a handler returned. -/
inductive Ending
  | refused
  | eof
  | malformed
  | disconnected
  | raised
  deriving DecidableEq

namespace NodeTCPServer

variable [PyText] [Ed25519]

omit [PyText] [Ed25519] in
/-- `unregister_connection`, at the end of `handle`. -/
def finish (s : NodeTCPServer) (address : Str) : NodeTCPServer := { s with handlers := s.handlers.erase address }

omit [PyText] [Ed25519] in
/-- The beginning of `NodeTCPHandler.handle`. A second connection cannot have the address of one that is open. -/
def connect (s : NodeTCPServer) (address : Str) : NodeTCPServer × Option Ending :=
  if s.handlers.contains address then (s, none)
  else
    match (NodeService.acceptInboundPeer address 0).call s.service with
    | (.ok (), service) =>
      ({ s with service := service, handlers := s.handlers.set address ⟨⟨s.authKey, []⟩, []⟩ }, none)
    | (.error _, service) => ({ s with service := service }, some .refused)

omit [Ed25519] in
/-- `recv` and `feed`, for a handler that has handed over the messages of the chunk before. -/
def recv (s : NodeTCPServer) (address : Str) (chunk : Bytes) : NodeTCPServer × Option Ending :=
  match s.handlers.get? address with
  | some ⟨buffer, []⟩ =>
    match (ConnectionBuffer.feed chunk).call buffer with
    | (.ok messages, buffer) => ({ s with handlers := s.handlers.set address ⟨buffer, messages⟩ }, none)
    | (.error (networkError _), _) => (s.finish address, some .malformed)
    | (.error _, _) => (s.finish address, some .raised)
  | _ => (s, none)

/-- The body of the loop over the messages. -/
def next (s : NodeTCPServer) (address : Str) : NodeTCPServer × Option Ending :=
  match s.handlers.get? address with
  | some ⟨buffer, message :: messages⟩ =>
    match (NodeService.receive address message 0).call s.service with
    | (.ok result, service) =>
      if result.disconnect then ({ s with service := service }.finish address, some .disconnected)
      else ({ s with service := service, handlers := s.handlers.set address ⟨buffer, messages⟩ }, none)
    | (.error _, service) => ({ s with service := service }.finish address, some .raised)
  | _ => (s, none)

omit [PyText] [Ed25519] in
/-- The end of a connection that has a handler waiting for the next chunk. -/
def eof (s : NodeTCPServer) (address : Str) : NodeTCPServer × Option Ending :=
  match s.handlers.get? address with
  | some ⟨_, []⟩ => (s.finish address, some .eof)
  | _ => (s, none)

omit [PyText] [Ed25519] in
def fail (s : NodeTCPServer) (address : Str) : NodeTCPServer × Option Ending :=
  if s.handlers.contains address then (s.finish address, some .raised) else (s, none)

/-- One turn, and how a handler returned in it. -/
def step (s : NodeTCPServer) : ServerEvent → NodeTCPServer × Option Ending
  | .connect address => s.connect address
  | .recv address chunk => s.recv address chunk
  | .next address => s.next address
  | .eof address => s.eof address
  | .fail address => s.fail address

end NodeTCPServer

end BCC.Impl
