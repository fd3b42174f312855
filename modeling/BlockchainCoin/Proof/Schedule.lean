import BlockchainCoin.Proof.Calls
import BlockchainCoin.Proof.Handshake

/-!
# The blocks that a HEADERS message requests

`_handle_headers` drops the downloads that have expired and goes through the
headers once. Every header adds at most one download, to one peer, and one vector
to the requests of that peer (`Scheduled`); going through two batches one after the
other adds up (`Scheduled.trans`). `receive` sends the vectors of a peer to it in
slices and adds nothing to them (`messagesTo_routeRequests`).
-/

namespace BCC.Proof

open BCC.Impl PyError NodeService

/-! ## Slices -/

section

variable {α : Type} {size : Nat}

theorem flatten_slices (hsize : 0 < size) :
    ∀ (fuel : Nat) {items : List α}, items.length ≤ fuel → (slices size fuel items).flatten = items
  | 0, items, h => by
    rw [List.length_eq_zero_iff.mp (Nat.le_zero.mp h)]
    rfl
  | fuel + 1, [], _ => rfl
  | fuel + 1, item :: items, h => by
    have hlen : ((item :: items).drop size).length ≤ fuel := by
      rw [List.length_drop]
      omega
    show (item :: items).take size ++ (slices size fuel ((item :: items).drop size)).flatten = item :: items
    rw [flatten_slices hsize fuel hlen, List.take_append_drop]

theorem length_of_mem_slices (hsize : 0 < size) : ∀ (fuel : Nat) {items batch : List α},
    batch ∈ slices size fuel items → 1 ≤ batch.length ∧ batch.length ≤ size
  | 0, _, _, h => by cases h
  | _ + 1, [], _, h => by cases h
  | fuel + 1, item :: items, batch, h => by
    rcases List.mem_cons.mp (show batch ∈ (item :: items).take size :: slices size fuel _ from h) with rfl | h
    · rw [List.length_take, List.length_cons]
      omega
    · exact length_of_mem_slices hsize fuel h

theorem map_slices {β : Type} (f : α → β) : ∀ (fuel : Nat) (items : List α),
    (slices size fuel items).map (List.map f) = slices size fuel (items.map f)
  | 0, _ => rfl
  | _ + 1, [] => rfl
  | fuel + 1, item :: items => by
    show ((item :: items).take size).map f :: (slices size fuel _).map (List.map f) =
      ((item :: items).map f).take size :: slices size fuel _
    rw [List.map_take, map_slices f fuel, List.map_drop]

end

/-! ## One peer for one block -/

section

variable {s s' s'' : NodeService} {source : Str} {now : Int}

/-- Only the counters of the downloads have changed. -/
def Loaded (s s' : NodeService) : Prop := ∃ sync, s' = { s with peerSync := sync }

theorem Loaded.refl (s : NodeService) : Loaded s s := ⟨s.peerSync, rfl⟩

theorem Loaded.trans (h : Loaded s s') (h' : Loaded s' s'') : Loaded s s'' := by
  obtain ⟨_, rfl⟩ := h
  obtain ⟨sync, rfl⟩ := h'
  exact ⟨sync, rfl⟩

theorem rankOf_loads (source address : Str) (s : NodeService) :
    Method.Ends (rankOf source address) s (fun _ s' => Loaded s s') fun _ _ => True := by
  have hload : Loaded s (withProgress address s) := by
    unfold withProgress
    split
    · exact .refl s
    · exact ⟨_, rfl⟩
  refine .bind (.get (.bind (.of_call (call_progressFor address s) ?_)))
  exact .bind (.reading (fun _ _ => .pure hload) fun _ _ => trivial)

/-- There is a least rank if there is any. -/
theorem leastRank_loads (source : Str) : ∀ (addresses : List Str) (best : Option DownloadRank) (s : NodeService),
    Method.Ends (leastRank source best addresses) s
      (fun rank s' => Loaded s s' ∧ (rank = none → best = none ∧ addresses = [])) fun _ _ => True
  | [], best, s => .pure ⟨.refl s, fun h => ⟨h, rfl⟩⟩
  | address :: addresses, best, s => by
    refine .bind ((rankOf_loads source address s).mono (fun rank s₁ h₁ => ?_) fun _ _ h => h)
    refine (leastRank_loads source addresses _ s₁).mono (fun rank' s₂ h₂ => ⟨h₁.trans h₂.1, fun hnone => ?_⟩) fun _ _ h => h
    cases (h₂.2 hnone).1

/-- A session that may be asked for a block: that of the source, or one that has announced its header. -/
def MayServe (source hash address : Str) (session : PeerSession) : Prop :=
  address = source ∨ (kindHeader, hash) ∈ session.knownInventory

theorem mem_downloadCandidates_iff {hash address : Str} : address ∈ s.downloadCandidates source hash none ↔
    ∃ session, s.sessions.get? address = some session ∧ MayServe source hash address session := by
  have hall : ∀ candidates : List Str, candidates.filter (fun address => some address ≠ none) = candidates := fun candidates =>
    List.filter_eq_self.mpr fun address _ => by simp
  unfold downloadCandidates
  simp only [hall, ite_self, List.mem_map, List.mem_filter, Prod.exists, exists_and_right, exists_eq_right, Dict.get?_eq_some,
    MayServe, Bool.or_eq_true, decide_eq_true_eq]

/-- No peer is selected only where every session that may be asked has as many downloads as it may. -/
theorem selectBlockDownloadPeer_loads (source hash : Str) (s : NodeService) :
    Method.Ends (selectBlockDownloadPeer source hash none) s
      (fun selected s' => Loaded s s' ∧ (selected = none → ∀ address session, s.sessions.get? address = some session →
        MayServe source hash address session → s.maxBlockDownloadsPerPeer ≤ s.inFlightCount address)) fun _ _ => True := by
  refine .bind (.get ?_)
  dsimp only
  split
  · exact .pure ⟨.refl s, fun h => by cases h⟩
  · refine .bind ((leastRank_loads source _ none s).mono (fun best s₁ h => .pure ⟨h.1, fun hnone address session hs hmay => ?_⟩)
      fun _ _ h => h)
    have hfull := (h.2 (Option.map_eq_none_iff.mp hnone)).2
    have hmem := mem_downloadCandidates_iff.mpr ⟨session, hs, hmay⟩
    have hnot := List.filter_eq_nil_iff.mp hfull address hmem
    rw [decide_eq_true_eq] at hnot
    exact Nat.not_lt.mp hnot

/-! ## The loop over the headers -/

/-- The vectors that a peer is asked for. -/
def vectorsOf (requests : Dict Str (List InventoryVector)) (peer : Str) : List InventoryVector := (requests.get? peer).getD []

/-- What the loop does with the headers of these hashes: it adds downloads of blocks that are not there, asks every
peer for what is assigned to it in the order of the headers, and leaves a block out only where nobody has room. -/
structure Scheduled (source : Str) (now : Int) (hashes : List Str) (s s' : NodeService)
    (requests requests' : Dict Str (List InventoryVector)) : Prop where
  frame : ∃ sync store downloads, s' = { s with peerSync := sync, peerSyncStore := store, inFlightBlocks := downloads }
  kept : ∀ {hash d}, s.inFlightBlocks.get? hash = some d → s'.inFlightBlocks.get? hash = some d
  counts : ∀ address, s.inFlightCount address ≤ s'.inFlightCount address
  wanted : ∀ {hash d}, s'.inFlightBlocks.get? hash = some d → s.inFlightBlocks.get? hash = some d ∨
    s.blocks.contains hash = false ∧ s.node.disk.store.hasBlock hash = false ∧ d = ⟨hash, d.peer, now⟩
  asked : ∀ peer, ∃ new : List Str, vectorsOf requests' peer = vectorsOf requests peer ++ new.map (.mk kindBlock) ∧
    new.Sublist hashes ∧ new.Nodup ∧ ∀ hash, hash ∈ new ↔
      s.inFlightBlocks.get? hash = none ∧ ∃ d, s'.inFlightBlocks.get? hash = some d ∧ d.peer = peer
  leftOut : ∀ hash ∈ hashes, s'.inFlightBlocks.get? hash = none → s.blocks.contains hash = false →
    s.node.disk.store.hasBlock hash = false → ∀ address session, s.sessions.get? address = some session →
      MayServe source hash address session → s.maxBlockDownloadsPerPeer ≤ s'.inFlightCount address

section

variable {hashes hashes' : List Str} {requests requests' requests'' : Dict Str (List InventoryVector)}

/-- Nothing is asked for. -/
theorem Scheduled.of_loaded (h : Loaded s s') (hleft : ∀ hash ∈ hashes, s.inFlightBlocks.get? hash = none →
    s.blocks.contains hash = false → s.node.disk.store.hasBlock hash = false → ∀ address session,
      s.sessions.get? address = some session → MayServe source hash address session →
        s.maxBlockDownloadsPerPeer ≤ s.inFlightCount address) :
    Scheduled source now hashes s s' requests requests := by
  obtain ⟨sync, rfl⟩ := h
  refine ⟨⟨sync, _, _, rfl⟩, id, fun _ => le_rfl, .inl, fun peer => ⟨[], ?_, List.nil_sublist _, List.nodup_nil, ?_⟩, hleft⟩
  · exact (List.append_nil _).symm
  · intro hash
    refine ⟨fun h => absurd h List.not_mem_nil, fun ⟨hnone, d, hd, _⟩ => ?_⟩
    rw [hnone] at hd
    cases hd

theorem Scheduled.trans (h : Scheduled source now hashes s s' requests requests')
    (h' : Scheduled source now hashes' s' s'' requests' requests'') :
    Scheduled source now (hashes ++ hashes') s s'' requests requests'' := by
  obtain ⟨sync, store, downloads, rfl⟩ := h.frame
  obtain ⟨sync', store', downloads', rfl⟩ := h'.frame
  refine ⟨⟨sync', store', downloads', rfl⟩, fun hd => h'.kept (h.kept hd), fun address => (h.counts address).trans (h'.counts address),
    fun hd => (h'.wanted hd).elim h.wanted .inr, fun peer => ?_, fun hash hmem hnone => ?_⟩
  · obtain ⟨new, hasked, hsub, hn, hiff⟩ := h.asked peer
    obtain ⟨new', hasked', hsub', hn', hiff'⟩ := h'.asked peer
    refine ⟨new ++ new', ?_, hsub.append hsub', List.nodup_append.mpr ⟨hn, hn', ?_⟩, fun hash => ?_⟩
    · rw [hasked', hasked, List.map_append, List.append_assoc]
    · rintro hash hmem _ hmem' rfl
      obtain ⟨-, d, hd, -⟩ := (hiff hash).mp hmem
      rw [((hiff' hash).mp hmem').1] at hd
      cases hd
    · rw [List.mem_append, hiff, hiff']
      constructor
      · rintro (⟨hnone, d, hd, hp⟩ | ⟨hnone, hd⟩)
        · exact ⟨hnone, d, h'.kept hd, hp⟩
        · refine ⟨?_, hd⟩
          by_contra hthere
          obtain ⟨d', hd'⟩ := Option.ne_none_iff_exists'.mp hthere
          rw [h.kept hd'] at hnone
          cases hnone
      · rintro ⟨hnone, d, hd, hp⟩
        cases hget : downloads.get? hash with
        | none => exact .inr ⟨rfl, d, hd, hp⟩
        | some d' =>
          have hsame := h'.kept hget
          rw [hd, Option.some.injEq] at hsame
          exact .inl ⟨hnone, d', rfl, hsame ▸ hp⟩
  · rcases List.mem_append.mp hmem with hmem | hmem
    · intro hblocks hstore address session hs hmay
      refine (h.leftOut hash hmem ?_ hblocks hstore address session hs hmay).trans (h'.counts address)
      by_contra hthere
      obtain ⟨d, hd⟩ := Option.ne_none_iff_exists'.mp hthere
      rw [h'.kept hd] at hnone
      cases hnone
    · exact h'.leftOut hash hmem hnone

/-- A download of a block that is not there is assigned to a peer. -/
theorem Scheduled.assigned {hash peer : Str} (hblocks : s.blocks.contains hash = false)
    (hstore : s.node.disk.store.hasBlock hash = false) (hnone : s.inFlightBlocks.get? hash = none) (h : Loaded s s') :
    Scheduled source now [hash] s
      (recorded peer { requestedBlocks := 1 } { s' with inFlightBlocks := s'.inFlightBlocks.set hash ⟨hash, peer, now⟩ })
      requests (requests.set peer (vectorsOf requests peer ++ [⟨kindBlock, hash⟩])) := by
  obtain ⟨sync, rfl⟩ := h
  have hget : ∀ key, (s.inFlightBlocks.set hash ⟨hash, peer, now⟩).get? key =
      if key = hash then some ⟨hash, peer, now⟩ else s.inFlightBlocks.get? key := Dict.get?_set _ _ _
  refine ⟨⟨_, _, _, rfl⟩, fun {key d} hd => ?_, fun address => ?_, fun {key d} hd => ?_, fun p => ?_, fun key hkey hfree => ?_⟩
  · refine (hget key).trans ((if_neg ?_).trans hd)
    rintro rfl
    rw [hnone] at hd
    cases hd
  · refine Nat.le_trans (Nat.le_add_right _ _) (Dict.count_set (p := fun d => decide (d.peer = address)) hnone ⟨hash, peer, now⟩).ge
  · replace hd := (hget key).symm.trans hd
    split at hd
    · rename_i hkey
      cases hd
      exact .inr ⟨hkey ▸ hblocks, hkey ▸ hstore, hkey ▸ rfl⟩
    · exact .inl hd
  · by_cases hp : p = peer
    · subst hp
      refine ⟨[hash], ?_, List.Sublist.refl _, List.nodup_singleton _, fun key => ?_⟩
      · rw [vectorsOf, Dict.get?_set_self]
        rfl
      · rw [List.mem_singleton]
        constructor
        · rintro rfl
          exact ⟨hnone, _, (hget key).trans (if_pos rfl), rfl⟩
        · rintro ⟨hfree, d, hd, -⟩
          replace hd := (hget key).symm.trans hd
          split at hd
          · assumption
          · rw [hfree] at hd
            cases hd
    · refine ⟨[], ?_, List.nil_sublist _, List.nodup_nil, fun key => ⟨fun h => absurd h List.not_mem_nil, ?_⟩⟩
      · rw [vectorsOf, Dict.get?_set_of_ne _ _ hp]
        exact (List.append_nil _).symm
      · rintro ⟨hfree, d, hd, hpeer⟩
        replace hd := (hget key).symm.trans hd
        split at hd
        · cases hd
          exact absurd hpeer.symm hp
        · rw [hfree] at hd
          cases hd
  · rw [List.mem_singleton.mp hkey] at hfree
    have hthere := (hget hash).symm.trans hfree
    rw [if_pos rfl] at hthere
    cases hthere

theorem requestBlock_schedules (source hash : Str) (now : Int) (requests : Dict Str (List InventoryVector)) (s : NodeService) :
    Method.Ends (requestBlock source hash none now requests) s
      (fun requests' s' => Scheduled source now [hash] s s' requests requests') fun _ _ => True := by
  have hwanted : s.shouldRequestBlock hash = true ↔ s.blocks.contains hash = false ∧
      s.inFlightBlocks.get? hash = none ∧ s.node.disk.store.hasBlock hash = false := by
    simp only [shouldRequestBlock, Bool.and_eq_true, Bool.not_eq_true', Dict.contains, Option.isSome_eq_false_iff,
      Option.isNone_iff_eq_none, and_assoc]
  refine .bind (.get ?_)
  split
  · rename_i hno
    refine .pure (.of_loaded (.refl s) fun key hkey hfree hblocks hstore => ?_)
    rw [List.mem_singleton.mp hkey] at hfree hblocks hstore
    rw [hwanted.mpr ⟨hblocks, hfree, hstore⟩] at hno
    cases hno
  · rename_i hyes
    obtain ⟨hblocks, hnone, hstore⟩ := hwanted.mp (Bool.of_not_eq_false hyes)
    refine .bind ((selectBlockDownloadPeer_loads source hash s).mono (fun selected s₁ h => ?_) fun _ _ h => h)
    split
    · refine .pure (.of_loaded h.1 fun key hkey _ _ _ => ?_)
      rw [List.mem_singleton.mp hkey]
      exact h.2 rfl
    · rename_i peer
      exact .bind (.modify (.bind (.of_call (call_recordProgress _ _ _) (.pure (.assigned hblocks hstore hnone h.1)))))

theorem requestHeaders_schedules (source : Str) (now : Int) : ∀ (headers : List BlockHeader)
    (requests : Dict Str (List InventoryVector)) (s : NodeService),
    Method.Ends (requestHeaders source now requests headers) s (fun requests' s' => ∃ hashes,
      (headers.mapM fun header => header.hash) = .ok hashes ∧ Scheduled source now hashes s s' requests requests')
      fun _ _ => True
  | [], requests, s => .pure ⟨[], rfl, .of_loaded (.refl s) fun _ h => absurd h List.not_mem_nil⟩
  | header :: headers, requests, s => by
    refine .bind (.reading (fun hash hhash => ?_) fun _ _ => trivial)
    refine .bind ((requestBlock_schedules source hash now requests s).mono (fun requests₁ s₁ h₁ => ?_) fun _ _ h => h)
    refine (requestHeaders_schedules source now headers requests₁ s₁).mono (fun requests₂ s₂ h₂ => ?_) fun _ _ h => h
    obtain ⟨hashes, hhashes, h₂⟩ := h₂
    refine ⟨hash :: hashes, ?_, h₁.trans h₂⟩
    rw [List.mapM_cons, hhash, ok_bind, hhashes]
    rfl

end

/-! ## Expiry -/

/-- A download that is in flight and has not expired. -/
def StillInFlight (s : NodeService) (now : Int) (hash : Str) : Prop :=
  ∃ d, s.inFlightBlocks.get? hash = some d ∧ now - d.requestedAt < s.blockDownloadTimeout

theorem dropExpired_drops : ∀ (downloads : List BlockDownload) (s : NodeService),
    Method.Ends (dropExpired downloads) s (fun _ s' =>
      (∃ sync store downloads, s' = { s with peerSync := sync, peerSyncStore := store, inFlightBlocks := downloads }) ∧
      ∀ hash, s'.inFlightBlocks.get? hash =
        if hash ∈ downloads.map (·.blockHash) then none else s.inFlightBlocks.get? hash) fun _ _ => True
  | [], s => .pure ⟨⟨_, _, _, rfl⟩, fun _ => rfl⟩
  | d :: downloads, s => by
    refine .bind (.modify (.bind (.of_call (call_recordProgress _ _ _) ?_)))
    refine (dropExpired_drops downloads _).mono (fun _ s' h => ⟨?_, fun hash => ?_⟩) fun _ _ h => h
    · obtain ⟨sync, store, rest, rfl⟩ := h.1
      exact ⟨sync, store, rest, rfl⟩
    · rw [h.2 hash, List.map_cons]
      show (if hash ∈ downloads.map (·.blockHash) then none else (s.inFlightBlocks.erase d.blockHash).get? hash) = _
      rw [Dict.get?_erase]
      by_cases hrest : hash ∈ downloads.map (·.blockHash)
      · rw [if_pos hrest, if_pos (List.mem_cons_of_mem _ hrest)]
      · by_cases hd : hash = d.blockHash
        · rw [if_neg hrest, if_pos hd, if_pos (hd ▸ List.mem_cons_self)]
        · rw [if_neg hrest, if_neg hd, if_neg fun h => (List.mem_cons.mp h).elim hd hrest]

/-- What is left are the downloads that have not expired. -/
theorem expireBlockDownloads_leaves {s : NodeService}
    (hkeyed : ∀ {hash d}, s.inFlightBlocks.get? hash = some d → d.blockHash = hash) (now : Int) :
    Method.Ends (expireBlockDownloads now) s (fun _ s' =>
      (∃ sync store downloads, s' = { s with peerSync := sync, peerSyncStore := store, inFlightBlocks := downloads }) ∧
      ∀ hash d, s'.inFlightBlocks.get? hash = some d ↔
        s.inFlightBlocks.get? hash = some d ∧ now - d.requestedAt < s.blockDownloadTimeout) fun _ _ => True := by
  refine .bind (.get (.bind ((dropExpired_drops _ s).mono (fun _ s' h => .pure ⟨h.1, fun hash d => ?_⟩) fun _ _ h => h)))
  rw [h.2 hash]
  have hexpired : ∀ {d}, s.inFlightBlocks.get? hash = some d → (hash ∈ (s.inFlightBlocks.values.filter fun d =>
      s.blockDownloadTimeout ≤ now - d.requestedAt).map (·.blockHash) ↔ s.blockDownloadTimeout ≤ now - d.requestedAt) := by
    intro d hd
    rw [List.mem_map]
    constructor
    · rintro ⟨d', hd', he⟩
      obtain ⟨hvalue, hold⟩ := List.mem_filter.mp hd'
      obtain ⟨key, hkey⟩ := Dict.mem_values.mp hvalue
      rw [← hkeyed hkey, he, hd, Option.some.injEq] at hkey
      rw [hkey]
      exact of_decide_eq_true hold
    · intro hold
      exact ⟨d, List.mem_filter.mpr ⟨Dict.mem_values.mpr ⟨hash, hd⟩, decide_eq_true hold⟩, hkeyed hd⟩
  split
  · rename_i hmem
    refine iff_of_false (fun h => by cases h) fun h => ?_
    have := (hexpired h.1).mp hmem
    omega
  · rename_i hmem
    refine ⟨fun hd => ⟨hd, ?_⟩, And.left⟩
    have := mt (hexpired hd).mpr hmem
    omega

/-! ## Routing -/

/-- The messages of a result to a peer, where `a` is the address it answers. -/
def messagesTo (a : Str) (result : ServiceResult) (peer : Str) : List PeerMessage :=
  if peer = a then result.direct else (result.directTo.get? peer).getD []

theorem messagesTo_routeRequests (a peer : Str) : ∀ (targeted : List (Str × List PeerMessage)) (result : ServiceResult),
    messagesTo a (routeRequests a result targeted) peer =
      messagesTo a result peer ++ (targeted.filter fun e => e.1 = peer).flatMap Prod.snd
  | [], result => (List.append_nil _).symm
  | (address, messages) :: targeted, result => by
    have hstep : messagesTo a (routeRequests a result ((address, messages) :: targeted)) peer =
        (messagesTo a result peer ++ if address = peer then messages else []) ++
          (targeted.filter fun e => e.1 = peer).flatMap Prod.snd := by
      rw [routeRequests]
      split
      · rename_i ha
        rw [messagesTo_routeRequests, messagesTo, messagesTo, ha]
        by_cases hp : peer = a
        · rw [if_pos hp, if_pos hp, if_pos hp.symm]
        · rw [if_neg hp, if_neg hp, if_neg (Ne.symm hp), List.append_nil]
      · rename_i ha
        rw [messagesTo_routeRequests, messagesTo, messagesTo]
        by_cases hp : peer = a
        · rw [if_pos hp, if_pos hp, if_neg (hp ▸ ha), List.append_nil]
        · rw [if_neg hp, if_neg hp]
          by_cases he : address = peer
          · subst he
            rw [Dict.get?_set_self, if_pos rfl]
            rfl
          · rw [Dict.get?_set_of_ne _ _ (Ne.symm he), if_neg he, List.append_nil]
    rw [hstep, List.append_assoc]
    by_cases he : address = peer
    · rw [List.filter_cons_of_pos (by simpa using he), List.flatMap_cons, if_pos he]
    · rw [List.filter_cons_of_neg (by simpa using he), if_neg he, List.nil_append]

/-- Every peer gets the vectors that it is asked for, in slices. -/
theorem messagesTo_getdataMessages (a peer : Str) (s : NodeService) (requests : Dict Str (List InventoryVector)) :
    messagesTo a (routeRequests a {} (s.getdataMessages requests)) peer =
      (slices s.maxBlockDownloadBatch (vectorsOf requests peer).length (vectorsOf requests peer)).map
        (inventoryMessage .getdata) := by
  have hnone : messagesTo a {} peer = [] := by
    unfold messagesTo
    split <;> rfl
  have hfilter : (s.getdataMessages requests).filter (fun e => e.1 = peer) = (requests.entries.filter fun e => e.1 = peer).map
      fun e => (e.1, (slices s.maxBlockDownloadBatch e.2.length e.2).map (inventoryMessage .getdata)) := by
    rw [getdataMessages, List.filter_map]
    rfl
  rw [messagesTo_routeRequests, hnone, List.nil_append, hfilter]
  cases hget : requests.get? peer with
  | none =>
    have hnil : requests.entries.filter (fun e => e.1 = peer) = [] := List.filter_eq_nil_iff.mpr fun e he => by
      rw [decide_eq_true_eq]
      rintro rfl
      exact Dict.get?_eq_none.mp hget (List.mem_map_of_mem he)
    rw [hnil, vectorsOf, hget]
    rfl
  | some items =>
    rw [Dict.filter_key hget, vectorsOf, hget]
    exact List.append_nil _

end

/-! ## Receiving headers -/

section

variable [Ed25519] [PyText] {a : Str} {s s' : NodeService} {message : PeerMessage} {now : Int} {result : ServiceResult}

omit [Ed25519] in
/-- A session answers headers with nothing, or it rejects them. -/
theorem receive_headers_answer (htype : message.messageType = .headers) (session : PeerSession) :
    Method.Ends (PeerSession.receive message) session (fun direct _ => direct = [] ∨ ∃ text, direct = [rejectMessage text])
      fun _ _ => True := by
  have hhandler : ∀ (e : PyError) (session : PeerSession), Method.Ends (if PeerSession.isProtocolError e then do
        modify fun s => { s with misbehaviorScore := s.misbehaviorScore + 1 }
        return [rejectMessage "invalid message"]
      else throw e : Method PeerSession PyError (List PeerMessage)) session
      (fun direct _ => direct = [] ∨ ∃ text, direct = [rejectMessage text]) fun _ _ => True := fun e session => by
    split
    · exact .bind (.modify (.pure (.inr ⟨_, rfl⟩)))
    · exact .throw trivial
  refine .tryCatch (.bind (.reading (fun _ _ => ?_) fun e _ => hhandler e session))
  rw [PeerSession.handle, htype]
  refine .bind (.reading (fun headers _ => ?_) fun e _ => hhandler e session)
  exact .bind ((Method.Ends.of_snd (P := fun _ => True) trivial).mono (fun _ _ _ => .pure (.inl rfl))
    fun e session _ => hhandler e session)

omit [Ed25519] [PyText] in
/-- What is returned with a penalty has the messages that were there before. -/
theorem penalizePeer_direct {direct : List PeerMessage} {score : Int} (hreject : ∃ m ∈ direct, m.messageType = .reject)
    (hcall : (do let disconnect ← penalizePeer a score now
                 return { direct := direct, disconnect := disconnect } : Method NodeService PyError ServiceResult).call s =
      (.ok result, s')) : ¬ ∀ m ∈ result.direct, m.messageType ≠ .reject := by
  obtain ⟨disconnect, s₁, -, hresult⟩ := Method.call_bind_eq_ok.mp hcall
  rw [Method.call_pure, Prod.mk.injEq, Except.ok.injEq] at hresult
  obtain ⟨m, hm, htype⟩ := hreject
  rw [← hresult.1]
  exact fun hok => hok m hm htype

/-- A HEADERS message that is not rejected gets to `_handle_headers`; only the address book and the sessions have
changed by then. -/
theorem receive_headers (htype : message.messageType = .headers)
    (hcall : (receive a message now).call s = (.ok result, s')) (hok : ∀ m ∈ result.direct, m.messageType ≠ .reject) :
    ∃ peers sessions targeted,
      (NodeService.handleHeaders a message.payload now).call { s with peers := peers, sessions := sessions } =
        (.ok targeted, s') ∧ result = routeRequests a {} targeted := by
  have hrejected : ∀ text, ∃ m ∈ [rejectMessage text], m.messageType = .reject := fun text => ⟨_, List.mem_singleton_self _, rfl⟩
  have hfound := sessionFor_found a now s
  rw [receive_eq] at hcall
  rcases hx : (sessionFor a now).call s with ⟨e | ⟨⟩, s₁⟩
  · rw [hx] at hcall
    split at hcall
    · rename_i heq
      cases heq
    · cases hcall
      exact absurd rfl (hok _ (List.mem_singleton_self _))
    · cases hcall
  · rw [hx] at hcall hfound
    dsimp only at hcall
    obtain ⟨session, hsession⟩ := hfound.session
    obtain ⟨peers, sessions, rfl⟩ : ∃ peers sessions, s₁ = { s with peers := peers, sessions := sessions } := by
      cases hfound with
      | there => exact ⟨_, _, rfl⟩
      | opened => exact ⟨_, _, rfl⟩
    have hanswer := receive_headers_answer htype session
    rw [Method.Ends] at hanswer
    rw [receiveFrom, Method.call_bind, call_onSession hsession] at hcall
    rcases hr : (PeerSession.receive message).call session with ⟨e | direct, session'⟩
    · rw [hr] at hcall
      cases hcall
    · rw [hr] at hcall hanswer
      dsimp only at hcall hanswer
      rcases hanswer with rfl | ⟨text, rfl⟩
      · dsimp only at hcall
        rw [answered, Method.call_tryCatch, dispatch, htype] at hcall
        dsimp only at hcall
        rw [Method.call_bind] at hcall
        refine ⟨peers, sessions.set a session', ?_⟩
        rcases hh : (NodeService.handleHeaders a message.payload now).call
          { s with peers := peers, sessions := sessions.set a session' } with ⟨e | targeted, s₂⟩
        · rw [hh] at hcall
          dsimp only at hcall
          split at hcall
          · cases hcall
            exact absurd rfl (hok _ (List.mem_singleton_self _))
          · exact absurd hok (penalizePeer_direct (hrejected _) hcall)
          · exact absurd hok (penalizePeer_direct (hrejected _) hcall)
          · exact absurd hok (penalizePeer_direct (hrejected _) hcall)
          · cases hcall
        · rw [hh] at hcall
          cases hcall
          exact ⟨targeted, rfl, rfl⟩
      · exact absurd hok (penalizePeer_direct (hrejected _) hcall)

omit [Ed25519] in
/-- `_handle_headers` drops what has expired and goes through the headers. -/
theorem handleHeaders_schedules (hkeyed : ∀ {hash d}, s.inFlightBlocks.get? hash = some d → d.blockHash = hash) (payload : Json) :
    Method.Ends (NodeService.handleHeaders a payload now) s (fun targeted s' => ∃ headers hashes s₁ requests,
      headersFromPayload payload = .ok headers ∧ (headers.mapM fun header => header.hash) = .ok hashes ∧
      (∃ sync store downloads, s₁ = { s with peerSync := sync, peerSyncStore := store, inFlightBlocks := downloads }) ∧
      (∀ hash d, s₁.inFlightBlocks.get? hash = some d ↔
        s.inFlightBlocks.get? hash = some d ∧ now - d.requestedAt < s.blockDownloadTimeout) ∧
      Scheduled a now hashes s₁ s' ∅ requests ∧ targeted = s'.getdataMessages requests) fun _ _ => True := by
  refine .bind ((expireBlockDownloads_leaves hkeyed now).mono (fun _ s₁ h₁ => ?_) fun _ _ h => h)
  refine .bind (.reading (fun headers hheaders => .bind (.reading (fun _ _ => ?_) fun _ _ => trivial)) fun _ _ => trivial)
  refine .bind ((requestHeaders_schedules a now headers ∅ s₁).mono (fun requests s₂ h₂ => .bind (.get (.pure ?_))) fun _ _ h => h)
  obtain ⟨hashes, hhashes, hscheduled⟩ := h₂
  exact ⟨headers, hashes, s₁, requests, hheaders, hhashes, h₁.1, h₁.2, hscheduled, rfl⟩

/-- `hash` is not in flight any more and is assigned to the peer now. -/
def Added (s s' : NodeService) (now : Int) (hash peer : Str) : Prop :=
  ¬ StillInFlight s now hash ∧ s'.inFlightBlocks.get? hash = some ⟨hash, peer, now⟩

/-- The messages of a result are the requests for the downloads that are added, which are the right ones. -/
structure ExactRequests (s s' : NodeService) (a : Str) (now : Int) (hashes : List Str) (result : ServiceResult) : Prop where
  still : ∀ {hash}, StillInFlight s now hash → s'.inFlightBlocks.get? hash = s.inFlightBlocks.get? hash
  requests : ∀ peer, ∃ batches : List (List Str),
    messagesTo a result peer = batches.map (fun batch => inventoryMessage .getdata (batch.map (.mk kindBlock))) ∧
    (∀ batch ∈ batches, 1 ≤ batch.length ∧ batch.length ≤ s.maxBlockDownloadBatch) ∧
    batches.flatten.Sublist hashes ∧ batches.flatten.Nodup ∧ ∀ hash, hash ∈ batches.flatten ↔ Added s s' now hash peer
  wanted : ∀ {hash peer}, Added s s' now hash peer →
    s.blocks.contains hash = false ∧ s.node.disk.store.hasBlock hash = false
  leftOut : ∀ hash ∈ hashes, s.blocks.contains hash = false → s.node.disk.store.hasBlock hash = false →
    ¬ StillInFlight s now hash → (∀ peer, ¬ Added s s' now hash peer) → ∀ address session,
      s'.sessions.get? address = some session → MayServe a hash address session →
        s'.inFlightCount address = s.maxBlockDownloadsPerPeer

omit [Ed25519] [PyText] in
/-- The loop over the headers, from the state `s₁` that expiry leaves of `s`. -/
theorem Scheduled.exactRequests {s₁ : NodeService} {hashes : List Str} {requests : Dict Str (List InventoryVector)}
    (h : Scheduled a now hashes s₁ s' ∅ requests) (hblocks : s₁.blocks = s.blocks) (hnode : s₁.node = s.node)
    (hbatch : s₁.maxBlockDownloadBatch = s.maxBlockDownloadBatch)
    (hlimit : s₁.maxBlockDownloadsPerPeer = s.maxBlockDownloadsPerPeer)
    (hleft : ∀ hash d, s₁.inFlightBlocks.get? hash = some d ↔
      s.inFlightBlocks.get? hash = some d ∧ now - d.requestedAt < s.blockDownloadTimeout)
    (hroom : ∀ address, s'.inFlightCount address ≤ s'.maxBlockDownloadsPerPeer) :
    ExactRequests s s' a now hashes (routeRequests a {} (s'.getdataMessages requests)) := by
  obtain ⟨hbatch', hlimit', hsessions⟩ : s'.maxBlockDownloadBatch = s.maxBlockDownloadBatch ∧
      s'.maxBlockDownloadsPerPeer = s.maxBlockDownloadsPerPeer ∧ s'.sessions = s₁.sessions := by
    obtain ⟨sync, store, downloads, he⟩ := h.frame
    rw [he]
    exact ⟨hbatch, hlimit, rfl⟩
  have hnone : ∀ {hash}, s₁.inFlightBlocks.get? hash = none ↔ ¬ StillInFlight s now hash := fun {hash} => by
    rw [Option.eq_none_iff_forall_ne_some]
    exact ⟨fun hno ⟨d, hd⟩ => hno d ((hleft hash d).mpr hd), fun hno d hd => hno ⟨d, (hleft hash d).mp hd⟩⟩
  -- What is in flight at the end, and was not after expiry, has been added.
  have hadded : ∀ {hash d}, s₁.inFlightBlocks.get? hash = none → s'.inFlightBlocks.get? hash = some d →
      Added s s' now hash d.peer ∧ s.blocks.contains hash = false ∧ s.node.disk.store.hasBlock hash = false := by
    intro hash d hfree hd
    rcases h.wanted hd with hold | ⟨hcached, hstored, hsame⟩
    · rw [hfree] at hold
      cases hold
    · exact ⟨⟨hnone.mp hfree, hd.trans (congrArg some hsame)⟩, hblocks ▸ hcached, hnode ▸ hstored⟩
  refine ⟨fun {hash} hstill => ?_, fun peer => ?_, fun {hash peer} hnew => ?_, fun hash hmem hcached hstored hfree hno => ?_⟩
  · obtain ⟨d, hd, hlt⟩ := hstill
    exact (h.kept ((hleft hash d).mpr ⟨hd, hlt⟩)).trans hd.symm
  · obtain ⟨new, hasked, hsub, hn, hiff⟩ := h.asked peer
    have hvectors : vectorsOf requests peer = new.map (.mk kindBlock) := hasked
    refine ⟨slices s.maxBlockDownloadBatch new.length new, ?_, fun batch => length_of_mem_slices s.batch_pos _, ?_⟩
    · rw [messagesTo_getdataMessages, hvectors, List.length_map, ← map_slices, List.map_map, hbatch']
      rfl
    · rw [flatten_slices s.batch_pos _ le_rfl]
      refine ⟨hsub, hn, fun hash => (hiff hash).trans ⟨fun ⟨hfree, d, hd, hpeer⟩ => ?_, fun hnew => ?_⟩⟩
      · exact hpeer ▸ (hadded hfree hd).1
      · exact ⟨hnone.mpr hnew.1, _, hnew.2, rfl⟩
  · exact (hadded (hnone.mpr hnew.1) hnew.2).2
  · intro address session hs hmay
    have hend : s'.inFlightBlocks.get? hash = none := by
      by_contra hthere
      obtain ⟨d, hd⟩ := Option.ne_none_iff_exists'.mp hthere
      exact hno d.peer (hadded (hnone.mpr hfree) hd).1
    have hfull := h.leftOut hash hmem hend (hblocks ▸ hcached) (hnode ▸ hstored) address session (hsessions ▸ hs) hmay
    exact Nat.le_antisymm (hlimit' ▸ hroom address) (hlimit ▸ hfull)

/-- The requests of a HEADERS message that is handled without a REJECT are exactly the downloads it adds. -/
theorem headers_scheduled (hstart : Started s) (calls : List ServiceCall) (htype : message.messageType = .headers)
    (hcall : (receive a message now).call (serviceAfter s calls) = (.ok result, s'))
    (hok : ∀ m ∈ result.direct, m.messageType ≠ .reject) :
    ∃ headers hashes, headersFromPayload message.payload = .ok headers ∧ (headers.mapM fun header => header.hash) = .ok hashes ∧
      ExactRequests (serviceAfter s calls) s' a now hashes result := by
  have hservice := (serviceAfter_induct (P := fun _ => True) hstart trivial (fun _ _ _ => trivial) calls).1
  have hturns := receive_turns (a := a) hservice.downloads message now
  rw [hcall] at hturns
  have hroom := (hservice.downloads.turns hturns).room
  obtain ⟨peers, sessions, targeted, hheaders, rfl⟩ := receive_headers htype hcall hok
  obtain ⟨headers, hashes, s₁, requests, hread, hhashes, ⟨sync, store, downloads, hs₁⟩, hleft, hscheduled, rfl⟩ :=
    (handleHeaders_schedules (s := { serviceAfter s calls with peers := peers, sessions := sessions })
      hservice.downloads.keyed message.payload).of_return hheaders
  refine ⟨headers, hashes, hread, hhashes, ?_⟩
  exact hscheduled.exactRequests (by rw [hs₁]) (by rw [hs₁]) (by rw [hs₁]) (by rw [hs₁]) hleft hroom

end

/-! ## The header of the payment block -/

/-- The header of the payment block, on its own. -/
def paymentHeaders : PeerMessage :=
  match headersMessage [.fromBlock paymentBlock] with
  | .ok message => message
  | .error _ => rejectMessage "no message"

theorem headers_scheduled_paymentHeaders :
    let _ := aliceVerify
    let _ := decoding [] .null
    let calls : List ServiceCall := [.connectPeer ['b', 'o', 'b'] 0 false]
    ∃ result s', (receive ['b', 'o', 'b'] paymentHeaders 0).call (serviceAfter genesisService calls) = (.ok result, s') ∧
      result.direct.map (·.messageType) = [.getdata] ∧ ∃ headers hashes,
        headersFromPayload paymentHeaders.payload = .ok headers ∧ (headers.mapM fun header => header.hash) = .ok hashes ∧
        ExactRequests (serviceAfter genesisService calls) s' ['b', 'o', 'b'] 0 hashes result := by
  intro _ _ calls
  have hstart : Started genesisService := started_genesisService
  have hanswer : ((receive ['b', 'o', 'b'] paymentHeaders 0).call (serviceAfter genesisService calls)).1.map
      (fun result => result.direct.map (·.messageType)) = .ok [.getdata] := by
    decide +kernel
  rcases hcall : (receive ['b', 'o', 'b'] paymentHeaders 0).call (serviceAfter genesisService calls) with ⟨e | result, s'⟩
  · rw [hcall] at hanswer
    cases hanswer
  · rw [hcall, Except.map, Except.ok.injEq] at hanswer
    refine ⟨result, s', rfl, hanswer, headers_scheduled hstart calls rfl hcall fun m hm hreject => ?_⟩
    have hmem := List.mem_map_of_mem (f := PeerMessage.messageType) hm
    rw [hanswer, hreject] at hmem
    cases List.mem_singleton.mp hmem

end BCC.Proof
