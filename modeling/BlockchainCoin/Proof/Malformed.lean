import BlockchainCoin.Proof.Stream

/-!
# Malformed frames

A call of `feed` that reads frames and then comes to one that is malformed raises, and
the messages it has read are not returned. `messages_kept_iff` says for which cuts of a
stream nothing before the malformed frame is lost that way.
-/

namespace BCC.Proof

open BCC.Impl PyError

section

variable [PyText] {key : Bytes}

/-- What a handler gets of these chunks: the messages of the calls of `feed` before the first that raises, and what that
one raises. -/
def feedUntil : List Bytes → ConnectionBuffer → List PeerMessage × Option PyError
  | [], _ => ([], none)
  | chunk :: chunks, b =>
    match (ConnectionBuffer.feed chunk).call b with
    | (.ok messages, b') => (messages ++ (feedUntil chunks b').1, (feedUntil chunks b').2)
    | (.error e, _) => ([], some e)

theorem feeds_feedUntil : ∀ (chunks : List Bytes) (data : Bytes),
    Chunks.Feeds (look key) data chunks (feedUntil chunks ⟨key, data⟩).1 (feedUntil chunks ⟨key, data⟩).2
  | [], data => .done
  | chunk :: chunks, data => by
    rcases Chunks.drains_or_breaks (stable_look key) (data ++ chunk) with ⟨ms, rest, h⟩ | ⟨e, h⟩
    · rw [feedUntil, call_feed h]
      exact .more h (feeds_feedUntil chunks rest)
    · obtain ⟨b, hcall⟩ := call_feed_breaks h
      rw [feedUntil, hcall]
      exact .broken h

/-- What makes a new buffer raise. -/
theorem breaks_of_feed {bad : Bytes} {e : PyError} {b : ConnectionBuffer}
    (h : (ConnectionBuffer.feed bad).call ⟨key, []⟩ = (.error e, b)) : Chunks.Breaks (look key) e bad := by
  rcases Chunks.drains_or_breaks (stable_look key) ([] ++ bad) with ⟨ms, rest, hd⟩ | ⟨e', hb⟩
  · rw [call_feed hd] at h
    cases h
  · obtain ⟨b', hcall⟩ := call_feed_breaks hb
    rw [hcall] at h
    cases h
    exact hb

/-- Frames that decode, and after them bytes that make a buffer raise a `NetworkError`: however they are cut into chunks a
call raises it, and the calls before return the messages of all of the frames, and nothing but what the bytes after them
begin with, exactly where no chunk that begins before the end of the frames reaches so far behind it that it raises. -/
theorem messages_kept_iff (messages : List PeerMessage) (frames : List Bytes)
    (hframes : List.Forall₂ (fun m f => PeerMessage.fromFrame f key = .ok m) messages frames) {bad : Bytes} {text : String}
    {b : ConnectionBuffer} (hbad : (ConnectionBuffer.feed bad).call ⟨key, []⟩ = (.error (networkError text), b))
    (chunks : List Bytes) (hchunks : chunks.flatten = frames.flatten ++ bad) :
    (feedUntil chunks ⟨key, []⟩).2 = some (networkError text) ∧
      ((∃ p more rest, p <+: bad ∧ Chunks.Drains (look key) p more rest ∧
          (feedUntil chunks ⟨key, []⟩).1 = messages ++ more) ↔
        ∀ pre chunk post e, chunks = pre ++ chunk :: post → pre.flatten.length < frames.flatten.length →
          ¬ Chunks.Breaks (look key) e ((pre.flatten ++ chunk).drop frames.flatten.length)) := by
  have hitems := drains_frames hframes (stable_look key).nil
  rw [List.append_nil] at hitems
  exact (feeds_feedUntil chunks []).all_iff (stable_look key) hitems (breaks_of_feed hbad) hchunks

end

/-- The frame of a verack, under a key of one byte. -/
def verackFrame : Bytes :=
  let _ := decoding verackDocument verackMessage.toDict
  frameHead verackMessage ++ hmacSha256 [7] (frameHead verackMessage)

def badHeader : Bytes := [0, 0, 0, 0, 0, 0, 0, 0]

theorem fromFrame_verackFrame :
    let _ := decoding verackDocument verackMessage.toDict
    PeerMessage.fromFrame verackFrame [7] = .ok verackMessage := by
  let _ := decoding verackDocument verackMessage.toDict
  have hpayload : verackMessage.encodePayload = verackDocument := by decide
  have hframe : verackMessage.toFrame [7] = .ok verackFrame :=
    toFrame_eq_ok.mpr ⟨by rw [hpayload]; decide, by decide, rfl⟩
  exact fromFrame_of_toFrame hframe (if_pos hpayload) rfl

theorem feed_badHeader :
    let _ := decoding verackDocument verackMessage.toDict
    (ConnectionBuffer.feed badHeader).call ⟨[7], []⟩ = (.error (networkError "network magic is invalid"), ⟨[7], badHeader⟩) :=
  rfl

/-- Where the bytes behind the frame arrive in a chunk of their own, the message is kept. -/
theorem messages_kept_verack :
    let _ := decoding verackDocument verackMessage.toDict
    (feedUntil [verackFrame, badHeader] ⟨[7], []⟩).2 = some (networkError "network magic is invalid") ∧
      ∃ p more rest, p <+: badHeader ∧ Chunks.Drains (look [7]) p more rest ∧
        (feedUntil [verackFrame, badHeader] ⟨[7], []⟩).1 = [verackMessage] ++ more := by
  let _ := decoding verackDocument verackMessage.toDict
  have hflat : [verackFrame].flatten = verackFrame := List.flatten_singleton
  have h := messages_kept_iff [verackMessage] [verackFrame] (.cons fromFrame_verackFrame .nil) feed_badHeader
    [verackFrame, badHeader] (by rw [List.flatten_cons, List.flatten_singleton, hflat])
  refine ⟨h.1, h.2.mpr fun pre chunk post e hsplit hlt hb => ?_⟩
  rw [hflat] at hlt hb
  rcases List.cons_eq_append_iff.mp hsplit with ⟨rfl, hchunk⟩ | ⟨pre', rfl, -⟩
  · cases hchunk
    rw [List.flatten_nil, List.nil_append, List.drop_length] at hb
    exact (Chunks.Drains.short (stable_look [7]).nil).not_breaks hb
  · rw [List.flatten_cons, List.length_append] at hlt
    omega

/-- Where they arrive with it, the message is lost. -/
theorem verack_lost :
    let _ := decoding verackDocument verackMessage.toDict
    PeerMessage.fromFrame verackFrame [7] = .ok verackMessage ∧
      (ConnectionBuffer.feed badHeader).call ⟨[7], []⟩ =
        (.error (networkError "network magic is invalid"), ⟨[7], badHeader⟩) ∧
      feedUntil [verackFrame ++ badHeader] ⟨[7], []⟩ = ([], some (networkError "network magic is invalid")) := by
  let _ := decoding verackDocument verackMessage.toDict
  refine ⟨fromFrame_verackFrame, feed_badHeader, ?_⟩
  obtain ⟨size, hf⟩ := isFrame_of_fromFrame fromFrame_verackFrame
  have hbreaks : Chunks.Breaks (look [7]) (networkError "network magic is invalid") ([] ++ (verackFrame ++ badHeader)) :=
    .item (by rw [List.nil_append, look_frame badHeader hf, fromFrame_verackFrame]) (.wrong rfl)
  obtain ⟨b, hcall⟩ := call_feed_breaks hbreaks
  rw [feedUntil, hcall]

end BCC.Proof
