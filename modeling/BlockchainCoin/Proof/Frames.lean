import BlockchainCoin.Proof.Genesis
import BlockchainCoin.Proof.Serving
import BlockchainCoin.Proof.Stream

/-!
# Blocks and frames

A block travels as the hexadecimal text of its encoding, in a JSON object around
which there are 57 more bytes (`length_encodePayload_block`). `to_frame` refuses it
where that makes more than `MAX_MESSAGE_SIZE`, and no limit on blocks refers to this
one: a stored block can be too large to be sent (`manyAllocations_not_relayed`).
Every other stored block is decoded from its frame as it is stored
(`storedBlock_relayed`).
-/

namespace BCC.Proof

open BCC.Impl PyError

/-! ## The text of a block message -/

/-- The characters that are written as they are. -/
theorem jsonChar_of_plain {c : Char} (h : c ∉ ['"', '\\', '\n', '\r', '\t', '\x0c', '\x08']) (hc : ' ' ≤ c ∧ c ≤ '~') :
    jsonChar c = [c] := by
  simp only [List.mem_cons, List.not_mem_nil, or_false, not_or] at h
  obtain ⟨h₁, h₂, h₃, h₄, h₅, h₆, h₇⟩ := h
  rw [jsonChar, if_neg h₁, if_neg h₂, if_neg h₃, if_neg h₄, if_neg h₅, if_neg h₆, if_neg h₇, if_pos hc]

theorem flatMap_jsonChar_hexEncode (raw : Bytes) : (hexEncode raw).flatMap jsonChar = hexEncode raw := by
  have hdigit : ∀ c ∈ hexDigits, c ∉ ['"', '\\', '\n', '\r', '\t', '\x0c', '\x08'] ∧ ' ' ≤ c ∧ c ≤ '~' := by
    simp [hexDigits]
  have hplain : ∀ s : Str, (∀ c ∈ s, c ∈ hexDigits) → s.flatMap jsonChar = s := fun s => by
    induction s with
    | nil => exact fun _ => rfl
    | cons c s ih =>
      intro h
      obtain ⟨hc, hs⟩ := List.forall_mem_cons.mp h
      rw [List.flatMap_cons, jsonChar_of_plain (hdigit c hc).1 (hdigit c hc).2, ih hs, List.singleton_append]
  exact hplain _ fun c hc => mem_hexEncode hc

/-- The message that carries a block with this encoding. -/
def blockCarrier (raw : Bytes) : PeerMessage :=
  ⟨.block, .obj [("block_bytes".toList, .str (hexEncode raw))], protocolVersion⟩

theorem blockMessage_eq_ok {b : ConsensusBlock} {raw : Bytes} (h : b.toBytes = .ok raw) :
    blockMessage b = .ok (blockCarrier raw) := by
  rw [blockMessage, h]
  rfl

section

variable [PyText]

omit [PyText] in
/-- Three fields of which the last goes first. -/
theorem insertionSort_fields {k₁ k₂ k₃ : Str} (h₂₃ : ¬ k₂ ≤ k₃) (h₁₃ : ¬ k₁ ≤ k₃) (h₁₂ : k₁ ≤ k₂) (a b c : Str) :
    List.insertionSort (fun a b : Str × Str => a.1 ≤ b.1) [(k₁, a), (k₂, b), (k₃, c)] =
      [(k₃, c), (k₁, a), (k₂, b)] := by
  simp only [List.insertionSort_cons, List.insertionSort_nil, List.orderedInsert_nil, List.orderedInsert_cons, h₂₃, h₁₃,
    h₁₂, if_true, if_false]

/-- The fields of a message are written with the payload first. -/
theorem canonicalJson_toDict (m : PeerMessage) : canonicalJson m.toDict =
    jsonObject [jsonField "payload" (canonicalJson m.payload), jsonField "type" (jsonText m.messageType.value),
      jsonField "version" (jsonInt m.version)] := by
  have hsort : ¬ "version".toList ≤ "payload".toList ∧ ¬ "type".toList ≤ "payload".toList ∧
      "type".toList ≤ "version".toList := by decide
  obtain ⟨hversion, htype, htypeVersion⟩ := hsort
  rw [PeerMessage.toDict]
  simp only [canonicalJson, canonicalFields]
  rw [insertionSort_fields hversion htype htypeVersion]
  rfl

/-- The text of the message, around the digits of the block. -/
theorem canonicalJson_around (raw : Bytes) : canonicalJson (blockCarrier raw).toDict =
    "\x7b\"payload\":\x7b\"block_bytes\":\"".toList ++ hexEncode raw ++
      "\"\x7d,\"type\":\"block\",\"version\":1\x7d".toList := by
  have hpayload : canonicalJson (blockCarrier raw).payload =
      jsonObject [jsonField "block_bytes" (jsonText (hexEncode raw))] := by
    simp only [blockCarrier, canonicalJson, canonicalFields, List.insertionSort_cons, List.insertionSort_nil,
      List.orderedInsert_nil]
    rfl
  have hvalue : (blockCarrier raw).messageType.value = kindBlock := rfl
  have hversion : jsonInt (blockCarrier raw).version = ['1'] := rfl
  rw [canonicalJson_toDict, hpayload, hvalue, hversion]
  simp [jsonObject, jsonField, jsonText, flatMap_jsonChar_hexEncode, jsonChar, kindBlock, List.intercalate]

theorem length_encodePayload_block (raw : Bytes) : (blockCarrier raw).encodePayload.length = 2 * raw.length + 57 := by
  have hhead : (utf8Encode "\x7b\"payload\":\x7b\"block_bytes\":\"".toList).length = 27 := by decide
  have htail : (utf8Encode "\"\x7d,\"type\":\"block\",\"version\":1\x7d".toList).length = 30 := by decide
  rw [PeerMessage.encodePayload, canonicalJson_around, utf8Encode_append, utf8Encode_append, List.length_append,
    List.length_append, length_utf8Encode_of_ascii fun c hc => ascii_of_mem_hexDigits c (mem_hexEncode hc), length_hexEncode, hhead,
    htail]
  omega

/-! ## Round trips -/

omit [PyText] in
theorem ofValue_value (t : MessageType) : MessageType.ofValue t.value = .ok t := by
  cases t <;> decide

/-- A message of this protocol is decoded from its own object, where its payload is valid. -/
theorem message_fromDict_toDict {m : PeerMessage} (hversion : m.version = protocolVersion) (hm : m.validatePayload = .ok ()) :
    PeerMessage.fromDict m.toDict = .ok m := by
  have hfields : PeerMessage.readFields m.toDict = .ok m := by
    show (do
      let messageType ← MessageType.ofValue m.messageType.value
      return (⟨messageType, m.payload, m.version⟩ : PeerMessage)) = _
    rw [ofValue_value]
    rfl
  rw [PeerMessage.fromDict, hfields, catchAs_ok, ok_bind, raiseIf_of_not (not_not.mpr hversion), ok_bind, hm]
  rfl

omit [PyText] in
theorem blockFromPayload_blockCarrier {b : ConsensusBlock} {raw : Bytes} (h : ConsensusBlock.fromBytes raw = .ok b) :
    blockFromPayload (blockCarrier raw).payload = .ok b := by
  show catchAs (bytesFromhex (hexEncode raw) >>= ConsensusBlock.fromBytes) isPayloadError _ = _
  rw [bytesFromhex, hexDecode_hexEncode]
  show catchAs (ConsensusBlock.fromBytes raw) isPayloadError _ = _
  rw [h, catchAs_ok]

theorem toFrame_of_long {m : PeerMessage} {key : Bytes} (h : maxMessageSize < m.encodePayload.length) :
    m.toFrame key = .error (networkError "message exceeds maximum size") := by
  rw [PeerMessage.toFrame, raiseIf_of h]
  rfl

variable [Ed25519]

omit [PyText] in
/-- A stored block is what its own encoding is decoded to. -/
theorem toBytes_of_getBlock {n : ConsensusNode} (h : NodeOk n) {hash : Str} {stored : StoredConsensusBlock}
    (hget : n.disk.store.getBlock hash = .ok stored) :
    ∃ raw, stored.block.toBytes = .ok raw ∧ ConsensusBlock.fromBytes raw = .ok stored.block := by
  cases hl : Table.lookup BlockRow.hash n.disk.store.blocks hash with
  | none =>
    rw [ForkStore.getBlock, hl] at hget
    cases hget
  | some row =>
    obtain ⟨hrow, rfl⟩ := (Table.lookup_eq_some h.store.nodup).mp hl
    obtain ⟨b, hb, hget'⟩ := h.store.getBlock hrow
    rw [hget, Except.ok.injEq] at hget'
    subst hget'
    obtain ⟨raw, -, hraw⟩ := bind_eq_ok.mp hb.data
    exact ⟨raw, (takes_block.of_run' hraw).1, hraw⟩

/-- The message of a stored block is put into a frame exactly when the block is small enough for one, and is then
decoded to that block. -/
theorem storedBlock_relayed (calls : List Call) (n : ConsensusNode) (hn : World.after calls = .up n) {hash : Str}
    {stored : StoredConsensusBlock} (hget : n.disk.store.getBlock hash = .ok stored) {key : Bytes} (hkey : key ≠ []) :
    ∃ raw m, stored.block.toBytes = .ok raw ∧ blockMessage stored.block = .ok m ∧
      (maxMessageSize < 2 * raw.length + 57 →
        m.toFrame key = .error (networkError "message exceeds maximum size")) ∧
      (2 * raw.length + 57 ≤ maxMessageSize → ∃ frame, m.toFrame key = .ok frame ∧
        (PyText.loads m.encodePayload = .ok m.toDict → ∃ m', PeerMessage.fromFrame frame key = .ok m' ∧
          m'.messageType = .block ∧ blockFromPayload m'.payload = .ok stored.block)) := by
  obtain ⟨raw, hraw, hback⟩ := toBytes_of_getBlock (nodeOk_after hn) hget
  have hblock := blockFromPayload_blockCarrier hback
  have hsize := length_encodePayload_block raw
  refine ⟨raw, blockCarrier raw, hraw, blockMessage_eq_ok hraw, fun hlong => ?_, fun hshort => ?_⟩
  · exact toFrame_of_long (hsize ▸ hlong)
  · rw [← hsize] at hshort
    have hframe := toFrame_eq_ok.mpr ⟨hshort, hkey, rfl⟩
    refine ⟨_, hframe, fun hloads => ⟨blockCarrier raw, ?_, rfl, hblock⟩⟩
    have hvalid : (blockCarrier raw).validatePayload = .ok () := by
      show PeerMessage.validateBlock _ = _
      rw [PeerMessage.validateBlock, hblock]
      rfl
    exact fromFrame_of_toFrame hframe hloads (message_fromDict_toDict rfl hvalid)

end

def genesisBytes : Bytes :=
  match genesisBlock.toBytes with
  | .ok raw => raw
  | .error _ => []

/-- The JSON text of the genesis block's message. -/
def genesisDocument : Bytes :=
  let _ := decoding [] .null
  (blockCarrier genesisBytes).encodePayload

/-- The genesis block is decoded from its frame. -/
theorem genesisBlock_relayed :
    let _ := aliceVerify
    let _ := decoding genesisDocument (blockCarrier genesisBytes).toDict
    ∃ message frame m, blockMessage genesisBlock = .ok message ∧ message.toFrame [7] = .ok frame ∧
      PeerMessage.fromFrame frame [7] = .ok m ∧ m.messageType = .block ∧ blockFromPayload m.payload = .ok genesisBlock := by
  let _ := aliceVerify
  let _ := decoding genesisDocument (blockCarrier genesisBytes).toDict
  obtain ⟨raw, message, hraw, hmessage, -, hframe⟩ :=
    storedBlock_relayed _ genesisNode created_genesisNode chainToTip_genesisNode.1 (List.cons_ne_nil 7 [])
  obtain ⟨raw', hraw', hlen⟩ := map_eq_ok.mp (by decide +kernel : List.length <$> genesisBlock.toBytes = .ok 253)
  rw [hraw', Except.ok.injEq] at hraw
  subst hraw
  have hbytes : genesisBytes = raw' := by
    unfold genesisBytes
    rw [hraw']
  obtain rfl : blockCarrier raw' = message := Except.ok.inj ((blockMessage_eq_ok hraw').symm.trans hmessage)
  have hdocument : (blockCarrier raw').encodePayload = genesisDocument := by
    unfold genesisDocument
    rw [hbytes]
    exact (congrArg utf8Encode (canonicalJson_around raw')).trans (congrArg utf8Encode (canonicalJson_around raw')).symm
  obtain ⟨frame, hframe, hback⟩ := hframe (by rw [hlen]; decide)
  obtain ⟨m, hm, htype, hblock⟩ := hback (by rw [← hbytes]; exact if_pos (hbytes ▸ hdocument))
  exact ⟨_, frame, m, hmessage, hframe, hm, htype, hblock⟩

/-! ## Blocks without a frame -/

/-- Allocations of 1 to different addresses. -/
def manyAllocations (count : Nat) : List (Str × Int) :=
  (List.range count).map fun i => (addressPrefix ++ hexEncode (beBytes 20 i), 1)

theorem allocates_manyAllocations {count : Nat} {maxMoney : Int} (hpos : 0 < count) (hle : count ≤ maxMoney)
    (hcount : count ≤ 2 ^ 24) : Allocates (manyAllocations count) maxMoney := by
  have hsum : ((manyAllocations count).map Prod.snd).sum = count := by
    rw [manyAllocations, List.map_map]
    show ((List.range count).map fun _ => (1 : Int)).sum = _
    rw [List.map_const', List.sum_replicate, List.length_range, nsmul_one]
  refine ⟨?_, fun e he => ?_, ?_, ?_, ?_⟩
  · intro hnil
    rw [manyAllocations, List.map_eq_nil_iff, List.range_eq_nil] at hnil
    omega
  · obtain ⟨i, -, rfl⟩ := List.mem_map.mp he
    refine ⟨?_, Int.one_pos⟩
    rw [isValidAddress, List.drop_left, Bool.and_eq_true, List.isPrefixOf_iff_prefix]
    refine ⟨List.prefix_append _ _, ?_⟩
    simp only [Bool.and_eq_true, beq_iff_eq, List.all_eq_true, List.contains_iff_mem, length_hexEncode, length_beBytes]
    exact ⟨trivial, fun c hc => mem_hexEncode hc⟩
  · rw [hsum]
    exact hle
  · rw [hsum, MAX_MONEY]
    omega
  · rw [manyAllocations, List.length_map, List.length_range]
    exact hcount

/-- A genesis block of 20000 allocations is stored and has no frame. -/
theorem manyAllocations_not_relayed :
    let _ := aliceVerify
    let _ := decoding [] .null
    ((manyAllocations 20000).map Prod.fst).Nodup ∧ ∃ n hash stored m,
      World.after [.create (manyAllocations 20000) ⟨0, 50, 100000⟩ 0 1] = .up n ∧
        n.disk.store.getBlock hash = .ok stored ∧ blockMessage stored.block = .ok m ∧
        m.toFrame [7] = .error (networkError "message exceeds maximum size") := by
  intro _ _
  refine ⟨?_, ?_⟩
  · rw [manyAllocations, List.map_map]
    refine (List.nodup_range).map_on fun i hi j hj h => ?_
    have hbytes := hexEncode_inj (List.append_cancel_left h)
    rw [List.mem_range] at hi hj
    exact beBytes_inj (by omega) (by omega) hbytes
  · have hallocates : Allocates (manyAllocations 20000) 100000 :=
      allocates_manyAllocations (by decide) (by decide) (by decide)
    obtain ⟨n, hash, stored, raw, hafter, hget, hraw, hlen⟩ :=
      hallocates.create_of_allocations (show (0 : Int) ≤ 50 by decide) 0
    refine ⟨n, hash, stored, blockCarrier raw, hafter, hget, blockMessage_eq_ok hraw, toFrame_of_long ?_⟩
    rw [length_encodePayload_block]
    rw [manyAllocations, List.length_map, List.length_range] at hlen
    rw [maxMessageSize]
    omega

end BCC.Proof
