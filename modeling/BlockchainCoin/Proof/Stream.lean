import BlockchainCoin.Framework.Chunks
import BlockchainCoin.Impl.Transport
import BlockchainCoin.Proof.Handshake

/-!
# Cutting a stream into frames

A frame begins with its own length, so whether it is complete can be seen from any
prefix of the stream (`hasCompleteFrame_of_begins`), and a buffer that begins with a
frame is read as that frame's message and the bytes behind it (`readFrame_append`).
What a buffer sees at its beginning is therefore stable under what arrives
(`stable_look`), and the loop of `feed` takes as many whole frames as the chunks so
far hold (`call_feed`), however the stream was cut.
-/

namespace BCC.Proof

open BCC.Impl PyError

section

variable [PyText] {key : Bytes}

/-! ## Frames -/

omit [PyText] in
theorem length_hmacSha256 (key message : Bytes) : (hmacSha256 key message).length = authTagSize :=
  Sha256.length_digest _

/-- The bytes of a frame before its tag. -/
def frameHead (m : PeerMessage) : Bytes := networkMagic ++ beBytes 4 m.encodePayload.length ++ m.encodePayload

theorem toFrame_eq_ok {m : PeerMessage} {f : Bytes} : m.toFrame key = .ok f ↔
    m.encodePayload.length ≤ maxMessageSize ∧ key ≠ [] ∧ frameHead m ++ hmacSha256 key (frameHead m) = f := by
  simp only [PeerMessage.toFrame, frameTag, bind_eq_ok, exists_unit, raiseIf_eq_ok, pure_eq_ok, Nat.not_lt]
  constructor
  · rintro ⟨hsize, _, ⟨hkey, rfl⟩, rfl⟩
    exact ⟨hsize, hkey, rfl⟩
  · rintro ⟨hsize, hkey, rfl⟩
    exact ⟨hsize, _, ⟨hkey, rfl⟩, rfl⟩

/-- A sequence of bytes that begins with its own length. -/
structure IsFrame (f : Bytes) (size : Nat) : Prop where
  length : f.length = headerSize + size + authTagSize
  magic : f.take 4 = networkMagic
  prefixed : ofBeBytes ((f.take headerSize).drop 4) = size
  bounded : size ≤ maxMessageSize

theorem length_frameHead (m : PeerMessage) : (frameHead m).length = headerSize + m.encodePayload.length := by
  simp only [frameHead, List.length_append, length_beBytes]
  rfl

theorem take_frameHead (m : PeerMessage) (rest : Bytes) :
    (frameHead m ++ rest).take headerSize = networkMagic ++ beBytes 4 m.encodePayload.length := by
  have hlength : (networkMagic ++ beBytes 4 m.encodePayload.length).length = headerSize := by
    rw [List.length_append, length_beBytes]
    rfl
  rw [frameHead, List.append_assoc, List.take_left' hlength]

theorem isFrame_of_toFrame {m : PeerMessage} {f : Bytes} (h : m.toFrame key = .ok f) :
    IsFrame f m.encodePayload.length := by
  obtain ⟨hsize, -, rfl⟩ := toFrame_eq_ok.mp h
  have hmagic : networkMagic.length = 4 := rfl
  refine ⟨?_, ?_, ?_, hsize⟩
  · rw [List.length_append, length_frameHead, length_hmacSha256]
  · rw [frameHead, List.append_assoc, List.append_assoc, List.take_left' hmagic]
  · rw [take_frameHead, List.drop_left' hmagic]
    exact ofBeBytes_beBytes (Nat.lt_of_le_of_lt hsize (by decide))

omit [PyText] in
theorem IsFrame.headerSize_le {f : Bytes} {size : Nat} (h : IsFrame f size) : headerSize ≤ f.length := by
  rw [h.length]
  omega

omit [PyText] in
theorem IsFrame.length_pos {f : Bytes} {size : Nat} (h : IsFrame f size) : 0 < f.length :=
  Nat.lt_of_lt_of_le (by decide) h.headerSize_le

omit [PyText] in
/-- What is read of a frame's beginning, where it is followed by other bytes. -/
theorem IsFrame.header {f data tail rest : Bytes} {size : Nat} (hf : IsFrame f size) (h : data ++ tail = f ++ rest)
    (hlong : headerSize ≤ data.length) :
    data.take 4 = networkMagic ∧ ofBeBytes ((data.take headerSize).drop 4) = size := by
  have htake {k : Nat} (hk : k ≤ headerSize) : data.take k = f.take k := by
    rw [← List.take_append_of_le_length (hk.trans hlong), h, List.take_append_of_le_length (hk.trans hf.headerSize_le)]
  rw [htake (by decide), htake le_rfl]
  exact ⟨hf.magic, hf.prefixed⟩

omit [PyText] in
/-- Bytes that a stream of frames begins with are complete when they are as long as the first frame. -/
theorem hasCompleteFrame_of_begins {f data tail rest : Bytes} {size : Nat} (hf : IsFrame f size)
    (h : data ++ tail = f ++ rest) :
    (ConnectionBuffer.mk key data).hasCompleteFrame = .ok (decide (f.length ≤ data.length)) := by
  unfold ConnectionBuffer.hasCompleteFrame
  split
  · rename_i hshort
    have hlong : ¬ f.length ≤ data.length := by
      have := hf.headerSize_le
      have : data.length < headerSize := hshort
      omega
    rw [decide_eq_false hlong]
  · rename_i hlong
    obtain ⟨hmagic, hsize⟩ := hf.header h (Nat.le_of_not_lt hlong)
    rw [hmagic, hsize, raiseIf_of_not (not_not.mpr rfl), hf.length]
    simp only [ok_bind, raiseIf_of_not (Nat.not_lt.mpr hf.bounded)]
    rfl

/-- A buffer that begins with a frame is read as its message, and the bytes behind it are kept. -/
theorem readFrame_append {f : Bytes} (rest : Bytes) {size : Nat} (hf : IsFrame f size) :
    readFrame (f ++ rest) key = PeerMessage.fromFrame f key >>= fun m => .ok (m, rest) := by
  have hle : headerSize ≤ (f ++ rest).length := by
    rw [List.length_append]
    exact Nat.le_add_right_of_le hf.headerSize_le
  obtain ⟨hmagic, hsize⟩ := hf.header (List.append_nil (f ++ rest)) hle
  have hend : headerSize + size + authTagSize = f.length := hf.length.symm
  have hlength : f.length ≤ (f ++ rest).length := by
    rw [List.length_append]
    exact Nat.le_add_right _ _
  unfold readFrame
  rw [hmagic, hsize, raiseIf_of_not (Nat.not_lt.mpr hle), raiseIf_of_not (not_not.mpr rfl)]
  simp only [ok_bind, raiseIf_of_not (Nat.not_lt.mpr hf.bounded), hend, raiseIf_of_not (Nat.not_lt.mpr hlength),
    List.take_left, List.drop_left]
  rfl

/-- A frame is read back as its message, where the JSON of the message is. -/
theorem fromFrame_of_toFrame {m : PeerMessage} {f : Bytes} (h : m.toFrame key = .ok f)
    (hloads : PyText.loads m.encodePayload = .ok m.toDict) (hdict : PeerMessage.fromDict m.toDict = .ok m) :
    PeerMessage.fromFrame f key = .ok m := by
  have hf := isFrame_of_toFrame h
  obtain ⟨hmagic, hsize⟩ := hf.header (rfl : f ++ [] = f ++ []) hf.headerSize_le
  have hend : headerSize + m.encodePayload.length + authTagSize = f.length := hf.length.symm
  obtain ⟨-, hkey, rfl⟩ := toFrame_eq_ok.mp h
  have hhead : (frameHead m ++ hmacSha256 key (frameHead m)).take (headerSize + m.encodePayload.length) = frameHead m :=
    List.take_left' (length_frameHead m)
  have htag : (frameHead m ++ hmacSha256 key (frameHead m)).drop (headerSize + m.encodePayload.length) =
      hmacSha256 key (frameHead m) := List.drop_left' (length_frameHead m)
  have hpayload : (frameHead m).drop headerSize = m.encodePayload := by
    have := List.take_append_drop headerSize (frameHead m)
    have htake := take_frameHead m []
    rw [List.append_nil] at htake
    rw [htake, frameHead] at this
    exact List.append_cancel_left this
  have hverify : frameVerify key (frameHead m) (hmacSha256 key (frameHead m)) = .ok () := by
    rw [frameVerify, raiseIf_of_not hkey, raiseIf_of_not (not_not.mpr (length_hmacSha256 key (frameHead m))),
      raiseIf_of_not (not_not.mpr rfl)]
    rfl
  unfold PeerMessage.fromFrame
  rw [hmagic, hsize, raiseIf_of_not (Nat.not_lt.mpr hf.headerSize_le), raiseIf_of_not (not_not.mpr rfl)]
  simp only [ok_bind, raiseIf_of_not (Nat.not_lt.mpr hf.bounded), hend, raiseIf_of_not (not_not.mpr rfl),
    List.take_length, hhead, htag, hverify, hpayload, hloads, catchAs_ok]
  exact hdict

/-! ## What a buffer sees -/

/-- What `feed` does next with these bytes: it waits, reads a frame or raises. -/
def look (key data : Bytes) : Chunks.Sight UInt8 PeerMessage PyError :=
  match (ConnectionBuffer.mk key data).hasCompleteFrame with
  | .error e => .wrong e
  | .ok false => .short
  | .ok true =>
    match readFrame data key with
    | .error e => .wrong e
    | .ok (m, rest) => .item m rest

theorem look_frame {f : Bytes} (rest : Bytes) {size : Nat} (hf : IsFrame f size) :
    look key (f ++ rest) = match PeerMessage.fromFrame f key with
      | .error e => .wrong e
      | .ok m => .item m rest := by
  have hcomplete : (ConnectionBuffer.mk key (f ++ rest)).hasCompleteFrame =
      .ok (decide (f.length ≤ (f ++ rest).length)) :=
    hasCompleteFrame_of_begins hf (List.append_nil (f ++ rest))
  rw [List.length_append, decide_eq_true (Nat.le_add_right _ _)] at hcomplete
  rw [look, hcomplete, readFrame_append rest hf]
  cases PeerMessage.fromFrame f key <;> rfl

omit [PyText] in
/-- A buffer of which a frame is complete begins with it. -/
theorem exists_frame {data : Bytes} (h : (ConnectionBuffer.mk key data).hasCompleteFrame = .ok true) :
    ∃ f rest size, data = f ++ rest ∧ IsFrame f size := by
  rw [ConnectionBuffer.hasCompleteFrame] at h
  split at h
  · cases h
  · rename_i hlong
    simp only [bind_eq_ok, exists_unit, raiseIf_eq_ok, not_not, pure_eq_ok, decide_eq_true_eq, not_lt] at h
    obtain ⟨hmagic, hsize, hend⟩ := h
    have hle : headerSize ≤ data.length := not_lt.mp hlong
    refine ⟨data.take _, data.drop _, _, (List.take_append_drop _ data).symm, ⟨List.length_take_of_le hend, ?_, ?_, hsize⟩⟩
    · rw [List.take_take, Nat.min_eq_left (by have : headerSize = 8 := rfl; omega), hmagic]
    · rw [List.take_take, Nat.min_eq_left (by omega)]

omit [PyText] in
theorem hasCompleteFrame_error_append {data : Bytes} (more : Bytes) {e : PyError}
    (h : (ConnectionBuffer.mk key data).hasCompleteFrame = .error e) :
    (ConnectionBuffer.mk key (data ++ more)).hasCompleteFrame = .error e := by
  rw [ConnectionBuffer.hasCompleteFrame] at h ⊢
  split at h
  · cases h
  · rename_i hlong
    have hle : headerSize ≤ data.length := not_lt.mp hlong
    have htake {k : Nat} (hk : k ≤ headerSize) : (data ++ more).take k = data.take k :=
      List.take_append_of_le_length (hk.trans hle)
    rw [if_neg (by rw [List.length_append]; omega), htake (by decide), htake le_rfl]
    rcases bind_eq_error.mp h with h | ⟨u, hu, h⟩
    · exact bind_eq_error.mpr (.inl h)
    · rcases bind_eq_error.mp h with h | ⟨_, _, h⟩
      · exact bind_eq_error.mpr (.inr ⟨u, hu, bind_eq_error.mpr (.inl h)⟩)
      · cases h

theorem look_eq_item {data rest : Bytes} {m : PeerMessage} (h : look key data = .item m rest) :
    ∃ f size, data = f ++ rest ∧ IsFrame f size ∧ PeerMessage.fromFrame f key = .ok m := by
  unfold look at h
  split at h
  · cases h
  · cases h
  · rename_i hcomplete
    obtain ⟨f, rest', size, rfl, hf⟩ := exists_frame hcomplete
    rw [readFrame_append rest' hf] at h
    cases hm : PeerMessage.fromFrame f key with
    | error e => rw [hm] at h; cases h
    | ok m' =>
      rw [hm] at h
      cases h
      exact ⟨f, size, rfl, hf, hm⟩

theorem look_eq_wrong {data : Bytes} {e : PyError} (h : look key data = .wrong e) :
    (ConnectionBuffer.mk key data).hasCompleteFrame = .error e ∨
      ∃ f rest size, data = f ++ rest ∧ IsFrame f size ∧ PeerMessage.fromFrame f key = .error e := by
  unfold look at h
  split at h
  · rename_i hcomplete
    cases h
    exact .inl hcomplete
  · cases h
  · rename_i hcomplete
    obtain ⟨f, rest, size, rfl, hf⟩ := exists_frame hcomplete
    rw [readFrame_append rest hf] at h
    cases hm : PeerMessage.fromFrame f key with
    | error e' =>
      rw [hm] at h
      cases h
      exact .inr ⟨f, rest, size, rfl, hf, hm⟩
    | ok m => rw [hm] at h; cases h

theorem stable_look (key : Bytes) : Chunks.Stable (look key) where
  nil := rfl
  item_append := fun {data rest m} more h => by
    obtain ⟨f, size, rfl, hf, hm⟩ := look_eq_item h
    rw [List.append_assoc, look_frame _ hf, hm]
  wrong_append := fun {data e} more h => by
    rcases look_eq_wrong h with h | ⟨f, rest, size, rfl, hf, hm⟩
    · rw [look, hasCompleteFrame_error_append more h]
    · rw [List.append_assoc, look_frame _ hf, hm]
  shrinks := fun {data rest m} h => by
    obtain ⟨f, size, rfl, hf, -⟩ := look_eq_item h
    have hpos := hf.length_pos
    rw [List.length_append]
    omega

/-! ## Chunks -/

/-- One pass of the loop. -/
theorem call_readFrames_succ (fuel : Nat) (messages : List PeerMessage) (data : Bytes) :
    (ConnectionBuffer.readFrames (fuel + 1) messages).call ⟨key, data⟩ =
      match look key data with
      | .short => (.ok messages, ⟨key, data⟩)
      | .item m rest => (ConnectionBuffer.readFrames fuel (messages ++ [m])).call ⟨key, rest⟩
      | .wrong e => (.error e, ⟨key, data⟩) := by
  rw [ConnectionBuffer.readFrames, Method.call_bind, Method.call_reading, look]
  cases hcomplete : (ConnectionBuffer.mk key data).hasCompleteFrame with
  | error e => rfl
  | ok complete =>
    cases complete with
    | false => rfl
    | true =>
      show ((Method.assigning _ >>= _ : Method ConnectionBuffer PyError (List PeerMessage)).call _) = _
      cases hread : readFrame data key with
      | error e => rw [Method.call_bind_of_error (Method.call_assigning_of_error (by rw [hread]; rfl))]
      | ok r =>
        have hassign : (readFrame data key >>= fun r => pure (r.1, ConnectionBuffer.mk key r.2) :
            Except PyError (PeerMessage × ConnectionBuffer)) = .ok (r.1, ⟨key, r.2⟩) := by rw [hread]; rfl
        rw [Method.call_bind_assigning hassign]

/-- The loop takes the frames that are there in full, and leaves what follows them. -/
theorem call_readFrames {data rest : Bytes} {ms : List PeerMessage} (h : Chunks.Drains (look key) data ms rest) :
    ∀ {fuel : Nat} (messages : List PeerMessage), data.length < fuel →
    (ConnectionBuffer.readFrames fuel messages).call ⟨key, data⟩ = (.ok (messages ++ ms), ⟨key, rest⟩) := by
  induction h with
  | short hs =>
    intro fuel messages hfuel
    obtain ⟨fuel, rfl⟩ := Nat.exists_eq_add_one_of_ne_zero (Nat.ne_of_gt (Nat.lt_of_le_of_lt (Nat.zero_le _) hfuel))
    rw [call_readFrames_succ, hs, List.append_nil]
  | item hi _ ih =>
    intro fuel messages hfuel
    obtain ⟨fuel, rfl⟩ := Nat.exists_eq_add_one_of_ne_zero (Nat.ne_of_gt (Nat.lt_of_le_of_lt (Nat.zero_le _) hfuel))
    have hlt := (stable_look key).shrinks hi
    rw [call_readFrames_succ, hi]
    simp only [ih (messages ++ [_]) (show _ < fuel by omega), List.append_assoc, List.singleton_append]

theorem call_readFrames_breaks {data : Bytes} {e : PyError} (h : Chunks.Breaks (look key) e data) :
    ∀ {fuel : Nat} (messages : List PeerMessage), data.length < fuel →
    ∃ b, (ConnectionBuffer.readFrames fuel messages).call ⟨key, data⟩ = (.error e, b) := by
  induction h with
  | wrong hw =>
    intro fuel messages hfuel
    obtain ⟨fuel, rfl⟩ := Nat.exists_eq_add_one_of_ne_zero (Nat.ne_of_gt (Nat.lt_of_le_of_lt (Nat.zero_le _) hfuel))
    rw [call_readFrames_succ, hw]
    exact ⟨_, rfl⟩
  | item hi _ ih =>
    intro fuel messages hfuel
    obtain ⟨fuel, rfl⟩ := Nat.exists_eq_add_one_of_ne_zero (Nat.ne_of_gt (Nat.lt_of_le_of_lt (Nat.zero_le _) hfuel))
    have hlt := (stable_look key).shrinks hi
    rw [call_readFrames_succ, hi]
    exact ih (messages ++ [_]) (by omega)

/-- Feeding a chunk, where nothing wrong has arrived. -/
theorem call_feed {data chunk rest : Bytes} {ms : List PeerMessage} (h : Chunks.Drains (look key) (data ++ chunk) ms rest) :
    (ConnectionBuffer.feed chunk).call ⟨key, data⟩ = (.ok ms, ⟨key, rest⟩) := by
  unfold ConnectionBuffer.feed
  rw [Method.call_bind, Method.call_get]
  by_cases hempty : chunk = [] ∧ data = []
  · obtain ⟨rfl, rfl⟩ := hempty
    obtain ⟨rfl, rfl⟩ := h.unique (.short (stable_look key).nil)
    rfl
  · simp only [if_neg hempty]
    exact call_readFrames h [] (Nat.lt_succ_of_le List.length_append.le)

theorem call_feed_breaks {data chunk : Bytes} {e : PyError} (h : Chunks.Breaks (look key) e (data ++ chunk)) :
    ∃ b, (ConnectionBuffer.feed chunk).call ⟨key, data⟩ = (.error e, b) := by
  unfold ConnectionBuffer.feed
  rw [Method.call_bind, Method.call_get]
  by_cases hempty : chunk = [] ∧ data = []
  · obtain ⟨rfl, rfl⟩ := hempty
    exact absurd h (Chunks.Drains.short (stable_look key).nil).not_breaks
  · simp only [if_neg hempty]
    exact call_readFrames_breaks h [] (Nat.lt_succ_of_le List.length_append.le)

/-- Feeding chunks one after the other, with the messages in the order they come out. -/
def feedAll : List Bytes → Method ConnectionBuffer PyError (List PeerMessage)
  | [] => pure []
  | chunk :: chunks => do
    let messages ← ConnectionBuffer.feed chunk
    let rest ← feedAll chunks
    return messages ++ rest

theorem call_feedAll : ∀ {chunks : List Bytes} {data rest : Bytes} {ms : List PeerMessage}, look key data = .short →
    Chunks.Drains (look key) (data ++ chunks.flatten) ms rest → (feedAll chunks).call ⟨key, data⟩ = (.ok ms, ⟨key, rest⟩)
  | [], data, rest, ms, hs, h => by
    rw [List.flatten_nil, List.append_nil] at h
    obtain ⟨rfl, rfl⟩ := h.unique (.short hs)
    rfl
  | chunk :: chunks, data, rest, ms, _, h => by
    rw [List.flatten_cons, ← List.append_assoc] at h
    obtain ⟨ms₁, rest₁, h₁⟩ | ⟨e, hb⟩ := Chunks.drains_or_breaks (stable_look key) (data ++ chunk)
    · obtain ⟨ms₂, rfl, h₂⟩ := h₁.split (stable_look key) h
      simp only [feedAll, Method.call_bind, call_feed h₁, call_feedAll h₁.rest h₂, Method.call_pure]
    · exact absurd (hb.append (stable_look key) chunks.flatten) h.not_breaks

/-- What decodes is a frame. -/
theorem isFrame_of_fromFrame {m : PeerMessage} {f : Bytes} (h : PeerMessage.fromFrame f key = .ok m) :
    ∃ size, IsFrame f size := by
  simp only [PeerMessage.fromFrame, bind_eq_ok, exists_unit, raiseIf_eq_ok, not_not, Nat.not_lt] at h
  obtain ⟨-, hmagic, hsize, hlength, -⟩ := h
  exact ⟨_, hlength, hmagic, rfl, hsize⟩

/-- Frames are read as the messages they decode to. -/
theorem drains_frames {messages : List PeerMessage} {frames : List Bytes}
    (h : List.Forall₂ (fun m f => PeerMessage.fromFrame f key = .ok m) messages frames) {r : Bytes}
    (hr : look key r = .short) : Chunks.Drains (look key) (frames.flatten ++ r) messages r := by
  induction h with
  | nil => exact .short hr
  | cons hm _ ih =>
    obtain ⟨size, hf⟩ := isFrame_of_fromFrame hm
    rw [List.flatten_cons, List.append_assoc]
    refine .item ?_ ih
    rw [look_frame _ hf, hm]

/-- Whatever way the frames of messages and the beginning of one more frame are cut into chunks, a buffer gives
exactly these messages, in order, and keeps that beginning. -/
theorem feedAll_stream (messages : List PeerMessage) (frames : List Bytes)
    (hframes : List.Forall₂ (fun m f => m.toFrame key = .ok f ∧ PeerMessage.fromFrame f key = .ok m) messages frames)
    {next : PeerMessage} {frame r : Bytes} (hnext : next.toFrame key = .ok frame) (hr : r <+: frame) (hne : r ≠ frame)
    (chunks : List Bytes) (hchunks : chunks.flatten = frames.flatten ++ r) :
    (feedAll chunks).call ⟨key, []⟩ = (.ok messages, ⟨key, r⟩) := by
  obtain ⟨s, rfl⟩ := hr
  have hf := isFrame_of_toFrame hnext
  have hshort : ¬ (r ++ s).length ≤ r.length := by
    intro hle
    rw [List.length_append] at hle
    exact hne (by rw [List.length_eq_zero_iff.mp (show s.length = 0 by omega), List.append_nil])
  have hlook : look key r = .short := by
    rw [look, hasCompleteFrame_of_begins hf (List.append_nil (r ++ s)).symm, decide_eq_false hshort]
  refine call_feedAll (stable_look key).nil ?_
  rw [List.nil_append, hchunks]
  exact drains_frames (hframes.imp fun _ _ h => h.2) hlook

end

/-- The JSON text of a verack. -/
def verackDocument : Bytes :=
  let _ := decoding [] .null
  verackMessage.encodePayload

/-- A frame, in three chunks of which one is empty, and the first bytes of another one. -/
theorem feedAll_verack :
    let _ := decoding verackDocument verackMessage.toDict
    ∃ frame, verackMessage.toFrame [7] = .ok frame ∧
      (feedAll [frame.take 5, [], frame.drop 5 ++ networkMagic]).call ⟨[7], []⟩ =
        (.ok [verackMessage], ⟨[7], networkMagic⟩) := by
  let _ := decoding verackDocument verackMessage.toDict
  have hpayload : verackMessage.encodePayload = verackDocument := by decide
  have hframe : verackMessage.toFrame [7] = .ok (frameHead verackMessage ++ hmacSha256 [7] (frameHead verackMessage)) :=
    toFrame_eq_ok.mpr ⟨by rw [hpayload]; decide, by decide, rfl⟩
  have hback : PeerMessage.fromFrame (frameHead verackMessage ++ hmacSha256 [7] (frameHead verackMessage)) [7] =
      .ok verackMessage := fromFrame_of_toFrame hframe (if_pos hpayload) rfl
  refine ⟨_, hframe, feedAll_stream [verackMessage] _ (.cons ⟨hframe, hback⟩ .nil) hframe ?_ ?_ _ ?_⟩
  · simp only [frameHead, List.append_assoc]
    exact List.prefix_append _ _
  · intro h
    have hpos := (isFrame_of_toFrame hframe).length
    rw [← h] at hpos
    have : networkMagic.length = 4 := rfl
    have : headerSize = 8 := rfl
    omega
  · simp only [List.flatten_cons, List.flatten_nil, List.nil_append, List.append_nil]
    rw [← List.append_assoc, List.take_append_drop]

end BCC.Proof
