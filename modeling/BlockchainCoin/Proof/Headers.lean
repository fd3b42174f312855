import BlockchainCoin.Proof.Commitment
import BlockchainCoin.Proof.Parse
import BlockchainCoin.Proof.Reorg
import BlockchainCoin.Proof.Serving

/-!
# Serving headers

The headers of the active chain follow the rules of the receiver as they stand: the
stored blocks passed the same checks and more (`HeaderChain`). What `_handle_getheaders`
answers is the run of headers the request asks for, but for a limit of 0, which
counts as 1 (`handleGetheaders_run`). A receiver accepts every answer
(`served_headers_accepted`).
-/

namespace BCC.Proof

open BCC.Impl PyError BlockProcessor NodeService

/-! ## Hash texts -/

theorem isHashText_of_isHash {s : Str} (h : IsHash s) : ¬ isHashText s = false := by
  rw [Bool.not_eq_false, isHashText, Bool.and_eq_true, beq_iff_eq, List.all_eq_true]
  exact ⟨h.1, fun c hc => List.contains_iff_mem.mpr (h.2 c hc)⟩

theorem isHash_zeroHash : IsHash zeroHash := ⟨List.length_replicate, fun c hc => by
  rw [List.eq_of_mem_replicate hc]
  decide⟩

theorem isHash_hash {b : ConsensusBlock} {hash : Str} (h : b.hash = .ok hash) : IsHash hash := by
  obtain ⟨header, -, h⟩ := bind_eq_ok.mp h
  rw [pure_eq_ok] at h
  exact h ▸ isHash_hexEncode (Sha256.length_digest _)

/-- The root of transactions is a digest. -/
theorem isHash_root {ts : List ConsensusTransaction} {root : Str} (hne : ts ≠ [])
    (h : calculateTransactionRoot ts = .ok root) : IsHash root := by
  obtain ⟨-, rfl⟩ := calculateTransactionRoot_eq_ok hne h
  refine isHash_hexEncode ?_
  set leaves := ts.map fun t => Sha256.digest (okBytes t.toBytes) with hleaves
  by_cases hl : 1 < leaves.length
  · obtain ⟨p, -, htop⟩ := Merkle.top_of_one_lt_length merkleCombine hl
    rw [htop]
    exact Sha256.length_digest _
  · rw [Merkle.top_of_length_le_one (by omega)]
    obtain ⟨t, ts, rfl⟩ := List.exists_cons_of_ne_nil hne
    exact Sha256.length_digest _

/-! ## Chains of headers -/

/-- What the header of a stored block at height `k` after the hash `p` is. -/
structure HeaderOk (k : Int) (p : Str) (b : ConsensusBlock) (hash : Str) : Prop where
  hash_eq : b.hash = .ok hash
  height : b.height = k
  previousHash : b.previousHash = p
  work : (List.replicate b.difficulty.toNat '0').isPrefixOf hash = true
  valid : ValidFields (.fromBlock b)

/-- Blocks whose headers follow each other, from height `k` and after the hash `p`, with their hashes. -/
inductive HeaderChain : Int → Str → List ConsensusBlock → List Str → Prop
  | nil (k : Int) (p : Str) : HeaderChain k p [] []
  | cons {k : Int} {p hash : Str} {b : ConsensusBlock} {bs : List ConsensusBlock} {hashes : List Str} :
    HeaderOk k p b hash → HeaderChain (k + 1) hash bs hashes → HeaderChain k p (b :: bs) (hash :: hashes)

namespace HeaderChain

variable {k : Int} {p : Str} {bs : List ConsensusBlock} {hashes : List Str}

theorem mapM_hash (h : HeaderChain k p bs hashes) : (bs.mapM fun b => b.hash) = .ok hashes := by
  induction h with
  | nil => rfl
  | cons hb _ ih =>
    rw [List.mapM_cons, hb.hash_eq, ok_bind, ih]
    rfl

theorem length (h : HeaderChain k p bs hashes) : hashes.length = bs.length := by
  induction h with
  | nil => rfl
  | cons _ _ ih => rw [List.length_cons, List.length_cons, ih]

theorem exists_hash (h : HeaderChain k p bs hashes) : ∀ b ∈ bs, ∃ hash, b.hash = .ok hash := by
  induction h with
  | nil => exact fun _ h => absurd h List.not_mem_nil
  | cons hb _ ih => exact List.forall_mem_cons.mpr ⟨⟨_, hb.hash_eq⟩, ih⟩

theorem previousHash {b : ConsensusBlock} (h : HeaderChain k p (b :: bs) hashes) : b.previousHash = p := by
  cases h with
  | cons hb _ => exact hb.previousHash

theorem take (h : HeaderChain k p bs hashes) (count : Nat) : HeaderChain k p (bs.take count) (hashes.take count) := by
  induction h generalizing count with
  | nil => simpa using HeaderChain.nil _ _
  | cons hb _ ih =>
    cases count with
    | zero => exact .nil _ _
    | succ count => exact .cons hb (ih count)

/-- The rest of such blocks is linked to the block before it. -/
theorem drop (h : HeaderChain k p bs hashes) {count : Nat} {hash : Str} (hcount : hashes[count]? = some hash) :
    HeaderChain (k + (count + 1 : Nat)) hash (bs.drop (count + 1)) (hashes.drop (count + 1)) := by
  induction h generalizing count with
  | nil => cases hcount
  | cons hb hrest ih =>
    cases count with
    | zero =>
      rw [List.getElem?_cons_zero, Option.some.injEq] at hcount
      exact hcount ▸ hrest
    | succ count =>
      rw [List.getElem?_cons_succ] at hcount
      have h := ih hcount
      rw [Int.add_assoc, Int.add_comm 1, ← Nat.cast_succ] at h
      exact h

end HeaderChain

section Replay

variable [Ed25519]

theorem linked_of_replays {s s' : ConsensusState} {k : Int} {p : Str} {bs : List ConsensusBlock} {fees : List Int}
    (hr : Replays s k p bs fees s') (hk : 0 ≤ k) (hp : IsHash p) : ∃ hashes, HeaderChain k p bs hashes := by
  induction hr with
  | nil s k p => exact ⟨[], .nil k p⟩
  | @cons s s₁ s' k p hash b bs f fees happly hhash _ ih =>
    obtain ⟨hashes, hrest⟩ := ih (by omega) (isHash_hash hhash)
    obtain ⟨c, rest, -, hcheck, -⟩ := validateCandidate_eq_ok.mp (applyBlock_eq_ok.mp happly)
    obtain ⟨hheight, hprevious, hchecked⟩ := checkBlock_eq_ok.mp hcheck
    obtain ⟨hash', hhash', hwork⟩ := hchecked.work
    rw [hhash, Except.ok.injEq] at hhash'
    have hne : b.transactions ≠ [] := by rw [hchecked.transactions]; exact List.cons_ne_nil _ _
    have hvalid : ValidFields (.fromBlock b) :=
      ⟨not_lt.mpr (by rw [← hheight] at hk; exact hk), not_lt.mpr hchecked.difficulty, not_not.mpr hchecked.version,
        isHashText_of_isHash (by rw [← hprevious] at hp; exact hp), isHashText_of_isHash (isHash_root hne hchecked.root)⟩
    exact ⟨_, .cons ⟨hhash, hheight, hprevious, hhash' ▸ hwork, hvalid⟩ hrest⟩

/-- The active chain of a node in any run, as the store reads it: its headers follow each other from height 0, and no
two of its blocks have the same hash. -/
structure ActiveHeaders (n : ConsensusNode) (chain : List StoredConsensusBlock) (a : ActiveChain) (hashes : List Str) :
    Prop where
  stored : n.disk.store.activeChain = .ok chain
  active : n.forkChoice.activeChain n.disk.store = .ok a
  blocks : a.blocks = chain.map (·.block)
  linked : HeaderChain 0 zeroHash a.blocks hashes
  nodup : hashes.Nodup

omit [Ed25519] in
/-- The rows of a branch are distinct. -/
theorem Branch.rows {rows : List BlockRow} {r : BlockRow} {chain : List StoredConsensusBlock} (h : Branch rows r chain) :
    ∃ rs : List BlockRow, List.Forall₂ (fun stored r => RowOf stored.block r) chain rs ∧ rs ⊆ rows ∧ rs.Nodup ∧
      ∀ q ∈ rs, q.height ≤ r.height := by
  induction h with
  | @root r b hr hb h₀ hw =>
    exact ⟨[r], .cons hb .nil, (by simpa using hr), List.nodup_singleton _, by simp⟩
  | @child r p b chain hr hb _ hp hh hw ih =>
    obtain ⟨rs, hrows, hsub, hn, hle⟩ := ih
    have hheight := hb.height
    refine ⟨rs ++ [r], List.rel_append hrows (.cons hb .nil), List.append_subset.mpr ⟨hsub, (by simpa using hr)⟩,
      ?_, ?_⟩
    · refine List.nodup_append.mpr ⟨hn, List.nodup_singleton _, fun q hq q' hq' he => ?_⟩
      have hlow := hle q hq
      rw [he, List.mem_singleton.mp hq'] at hlow
      omega
    · intro q hq
      rcases List.mem_append.mp hq with hq | hq
      · have hlow := hle q hq
        omega
      · rw [List.mem_singleton.mp hq]

omit [Ed25519] in
/-- No two blocks of a branch have the same hash. -/
theorem Branch.nodup_hashes {rows : List BlockRow} {r : BlockRow} {chain : List StoredConsensusBlock} {hashes : List Str}
    (hn : (rows.map (·.hash)).Nodup) (h : Branch rows r chain)
    (hhashes : ((chain.map (·.block)).mapM fun b => b.hash) = .ok hashes) : hashes.Nodup := by
  obtain ⟨rs, hrows, hsub, hrs, -⟩ := h.rows
  have hmap : ((chain.map (·.block)).mapM fun b => b.hash) = .ok (rs.map (·.hash)) := by
    rw [mapM_eq_ok, List.forall₂_map_right_iff, List.forall₂_map_left_iff]
    exact hrows.imp fun _ _ h => h.hash
  rw [hhashes, Except.ok.injEq] at hmap
  rw [hmap]
  exact hrs.map_on fun q hq q' hq' he => List.inj_on_of_nodup_map hn (hsub hq) (hsub hq') he

theorem NodeOk.activeHeaders {n : ConsensusNode} (h : NodeOk n) : ∃ chain a hashes, ActiveHeaders n chain a hashes := by
  by_cases hne : n.disk.store.blocks = []
  · obtain ⟨a, ha, -⟩ := h.active
    have hstored : n.disk.store.activeChain = .ok [] := by
      rw [ForkStore.activeChain, StoreOk.bestTip_of_nil hne]
      rfl
    rcases h.store.activeChain_eq_ok ha with ⟨-, hnil, -⟩ | ⟨r, chain, hfirst, -⟩
    · exact ⟨[], a, [], hstored, ha, hnil, hnil ▸ .nil _ _, List.nodup_nil⟩
    · rw [Table.first_eq_none.mpr hne] at hfirst
      cases hfirst
  · cases hfirst : Table.first BlockRow.better n.disk.store.blocks with
    | none => exact absurd (Table.first_eq_none.mp hfirst) hne
    | some r =>
      obtain ⟨chain, s, hb, hbuilt, ha⟩ := h.store.activeChain hfirst
      obtain ⟨s₀, fees, -, hr⟩ := rebuildStateFromBlocks_eq_ok.mp (built_iff.mpr ⟨_, hbuilt⟩)
      obtain ⟨hashes, hlinked⟩ := linked_of_replays hr (Int.le_refl 0) isHash_zeroHash
      obtain ⟨b, hrow, hbest⟩ := h.store.bestTip hfirst
      refine ⟨chain, _, hashes, ?_, ha, rfl, hlinked, hb.nodup_hashes h.store.nodup hlinked.mapM_hash⟩
      rw [ForkStore.activeChain, hbest, ok_bind]
      simp only [hrow.hash, ok_bind]
      exact hb.chainToTip h.store.nodup

end Replay

/-! ## Batches of headers -/

section Batch

variable [PyText]

/-- A valid header is read back from its dictionary. -/
theorem parseHeader_toDict {h : BlockHeader} {hash : Str} (hv : ValidFields h) (hhash : h.hash = .ok hash) :
    ∃ j, h.toDict = .ok j ∧ parseHeader j = .ok h := by
  refine ⟨_, by rw [BlockHeader.toDict, hhash]; rfl, ?_⟩
  have hread : ∀ fields, BlockHeader.readFields (.obj fields) = .ok h → field fields "hash" = .str hash →
      parseHeader (.obj fields) = .ok h := fun fields hread hgiven => by
    show BlockHeader.fromDict (.obj fields) = .ok h
    simp only [BlockHeader.fromDict, hread, catchAs_ok, ok_bind, get_obj, hgiven, raiseIf_of_not hv.height,
      raiseIf_of_not hv.difficulty, raiseIf_of_not hv.version, raiseIf_of_not hv.previousHash,
      raiseIf_of_not hv.transactionRoot, hhash, Json.isText, decide_true, Bool.true_eq_false]
    rfl
  exact hread _ rfl rfl

omit [PyText] in
/-- HeaderChain headers pass the checks on a batch, after a header that is the one before them or none. -/
theorem validateHeaders_linked {k : Int} {p : Str} {bs : List ConsensusBlock} {hashes : List Str} (h : HeaderChain k p bs hashes) :
    ∀ prior, (∀ q ∈ prior, q = (p, k - 1)) → validateHeaders prior (bs.map .fromBlock) = .ok () := by
  induction h with
  | nil => exact fun prior _ => rfl
  | @cons k p hash b bs hashes hb hrest ih =>
    intro prior hprior
    have hnext : validateHeaders (some (hash, b.height)) (bs.map .fromBlock) = .ok () := ih _ fun q hq => by
      rw [← Option.mem_some_iff.mp hq, hb.height, Int.add_sub_cancel]
    have hhash : (BlockHeader.fromBlock b).hash = .ok hash := hb.hash_eq
    have hwork : (List.replicate (BlockHeader.fromBlock b).difficulty.toNat '0').isPrefixOf hash = true := hb.work
    rw [List.map_cons, validateHeaders_cons]
    refine bind_eq_ok.mpr ⟨(hash, b.height), ?_, hnext⟩
    rw [checkHeader, hhash, ok_bind, raiseIf_of_not (not_not.mpr hwork), ok_bind]
    cases prior with
    | none => rfl
    | some q =>
      rw [hprior q rfl]
      have hprevious : ¬ (BlockHeader.fromBlock b).previousHash ≠ p := not_not.mpr hb.previousHash
      have hheight : ¬ (BlockHeader.fromBlock b).height ≠ k - 1 + 1 := not_not.mpr (by
        show b.height = k - 1 + 1
        rw [hb.height]
        omega)
      simp only [raiseIf_of_not hprevious, raiseIf_of_not hheight, ok_bind]
      rfl

omit [PyText] in
theorem headersMessage_inj {hs hs' : List BlockHeader} {response : PeerMessage} (h : headersMessage hs = .ok response)
    (h' : headersMessage hs' = .ok response) : hs = hs' := by
  obtain ⟨js, hjs, he⟩ := bind_eq_ok.mp h
  obtain ⟨js', hjs', he'⟩ := bind_eq_ok.mp h'
  rw [pure_eq_ok] at he he'
  rw [← he', PeerMessage.mk.injEq] at he
  simp only [Json.obj.injEq, List.cons.injEq, Prod.mk.injEq, Json.arr.injEq, true_and, and_true] at he
  exact headers_eq_of_mapM hjs (he ▸ hjs')

/-- A message with the headers of linked blocks can be made, is accepted, and the headers are read back from it. -/
theorem headersMessage_linked {k : Int} {p : Str} {bs : List ConsensusBlock} {hashes : List Str} (h : HeaderChain k p bs hashes)
    (hlen : bs.length ≤ 2000) : ∃ response, headersMessage (bs.map .fromBlock) = .ok response ∧
      response.messageType = .headers ∧ headersFromPayload response.payload = .ok (bs.map .fromBlock) ∧
      response.validatePayload = .ok () := by
  have hdicts : ∃ js, (bs.map BlockHeader.fromBlock).mapM BlockHeader.toDict = .ok js ∧
      js.mapM parseHeader = .ok (bs.map BlockHeader.fromBlock) := by
    clear hlen
    induction h with
    | nil => exact ⟨[], rfl, rfl⟩
    | @cons k p hash b bs hashes hb hrest ih =>
      obtain ⟨js, hjs, hparse⟩ := ih
      obtain ⟨j, hj, hread⟩ := parseHeader_toDict hb.valid (show (BlockHeader.fromBlock b).hash = .ok hash from hb.hash_eq)
      refine ⟨j :: js, ?_, ?_⟩
      · rw [List.map_cons, List.mapM_cons, hj, ok_bind, hjs]
        rfl
      · rw [List.map_cons, List.mapM_cons, hread, ok_bind, hparse]
        rfl
  obtain ⟨js, hjs, hparse⟩ := hdicts
  have hcount : js.length = bs.length := by
    have hall := (mapM_eq_ok.mp hjs).length_eq
    rw [List.length_map] at hall
    exact hall.symm
  have hdecode : headersFromPayload (.obj [("headers".toList, .arr js)]) = .ok (bs.map .fromBlock) := by
    rw [headersFromPayload, get_obj, ok_bind]
    show (raiseIf (2000 < js.length) _ >>= fun _ => js.mapM parseHeader >>= validateHeaderChain) = _
    rw [raiseIf_of_not (by omega), ok_bind, hparse, ok_bind, validateHeaderChain,
      validateHeaders_linked h none fun q hq => by cases hq]
    rfl
  exact ⟨_, bind_eq_ok.mpr ⟨js, hjs, rfl⟩, rfl, hdecode, bind_eq_ok.mpr ⟨_, hdecode, rfl⟩⟩

end Batch

/-! ## Requests -/

section Requests

variable [PyText]

/-- What a payload asks for. -/
structure Asks (payload : Json) (locator : List Str) (stop : Option Str) (limit : Nat) : Prop where
  locator : payload.item "locator" = .ok (.arr (locator.map .str))
  stop : payload.get "stop_hash" = .ok (stop.elim .null .str)
  limit : (payload.item "limit" >>= Json.toInt) = .ok (limit : Int)

/-- A payload that the validator accepts asks for no more than 2000 headers. -/
theorem asks_of_valid {payload : Json} (h : PeerMessage.validateGetheaders payload = .ok ()) :
    ∃ locator stop limit, Asks payload locator stop limit ∧ limit ≤ 2000 := by
  obtain ⟨fields, rfl⟩ : ∃ fields, payload = .obj fields := by
    cases payload with
    | obj fields => exact ⟨fields, rfl⟩
    | _ => cases h
  obtain ⟨⟨items, hlocator, hitems⟩, ⟨hlow, hhigh⟩, hstop⟩ := shape_of_validateGetheaders h
  -- A field that is not there is no list and no integer.
  have hthere : ∀ {key : String}, field fields key ≠ .null → Json.item (.obj fields) key = .ok (field fields key) :=
    fun {key} hne => by
      rw [item_eq_ok, field]
      cases hl : fields.lookup key.toList with
      | none => rw [field, hl] at hne; exact absurd rfl hne
      | some v => rfl
  have hrange : items ∈ Set.range (List.map Json.str) := by
    rw [Set.range_list_map]
    intro item hitem
    have htext := hitems item hitem
    cases item with
    | str s => exact ⟨s, rfl⟩
    | _ => cases htext
  obtain ⟨locator, rfl⟩ := hrange
  have hlimit : ∃ limit : Int, (field fields "limit").asInt = some limit ∧ 0 ≤ limit ∧ limit ≤ 2000 := by
    simp only [Json.isIntFrom, Option.any_eq_true, decide_eq_true_eq] at hlow
    obtain ⟨limit, hint, hle⟩ := hlow
    refine ⟨limit, hint, hle, ?_⟩
    rw [Json.isIntFrom, hint] at hhigh
    simp only [Option.any_some, decide_eq_false_iff_not] at hhigh
    omega
  obtain ⟨limit, hint, hlow, hhigh⟩ := hlimit
  have htoInt : Json.toInt (field fields "limit") = .ok limit := by
    cases hl : field fields "limit" with
    | int value =>
      rw [hl, Json.asInt, Option.some.injEq] at hint
      rw [Json.toInt, hint]
    | bool value =>
      rw [hl, Json.asInt, Option.some.injEq] at hint
      rw [Json.toInt, hint]
    | _ => rw [hl] at hint; cases hint
  obtain ⟨stop, hstop⟩ : ∃ stop : Option Str, field fields "stop_hash" = stop.elim .null .str := by
    cases hs : field fields "stop_hash" with
    | null => exact ⟨none, rfl⟩
    | str s => exact ⟨some s, rfl⟩
    | _ => rw [hs] at hstop; rcases hstop with hstop | hstop <;> cases hstop
  refine ⟨locator, stop, limit.toNat, ⟨?_, by rw [get_obj, hstop], ?_⟩, by omega⟩
  · rw [hthere (by rw [hlocator]; exact Json.noConfusion), hlocator]
  · rw [hthere (fun hnull => by rw [hnull] at hint; cases hint), ok_bind, htoInt, Int.toNat_of_nonneg hlow]

/-- `start` is the place after the first hash of the locator that lies on the chain, the first place where none does. -/
def StartsAfter (hashes locator : List Str) (start : Nat) : Prop :=
  (∃ before hash after i, locator = before ++ hash :: after ∧ (∀ h ∈ before, h ∉ hashes) ∧ hashes[i]? = some hash ∧
    start = i + 1) ∨ (∀ h ∈ locator, h ∉ hashes) ∧ start = 0

omit [PyText] in
/-- The dictionary of heights has the place of every hash of a chain without repetitions. -/
theorem get?_heightsByHash {hashes : List Str} (hn : hashes.Nodup) (hash : Str) (i : Nat) :
    (heightsByHash hashes).get? hash = some i ↔ hashes[i]? = some hash := by
  -- The entries are set one after the other; a hash is set once.
  have key : ∀ (es : List (Str × Nat)) (d : Dict Str Nat), (es.map Prod.fst).Nodup →
      ((es.foldl (fun heights e => heights.set e.1 e.2) d).get? hash = some i ↔
        (hash, i) ∈ es ∨ hash ∉ es.map Prod.fst ∧ d.get? hash = some i) := by
    intro es
    induction es with
    | nil => simp
    | cons e es ih =>
      intro d hes
      rw [List.map_cons, List.nodup_cons] at hes
      rw [List.foldl_cons, ih _ hes.2, Dict.get?_set, List.map_cons, List.mem_cons, List.mem_cons]
      by_cases he : hash = e.1
      · have hno : ∀ j, (hash, j) ∉ es := fun j hj => hes.1 (List.mem_map.mpr ⟨_, hj, he⟩)
        have hnot : hash ∉ es.map Prod.fst := he ▸ hes.1
        simp only [he, if_true, Prod.ext_iff, true_and, true_or, not_true_eq_false, false_and, or_false, Option.some.injEq]
        rw [← he]
        exact ⟨fun h => h.elim (fun h => absurd h (hno i)) fun h => .inl h.2.symm, fun h => h.elim
          (fun h => .inr ⟨hnot, h.symm⟩) fun h => absurd h (hno i)⟩
      · simp only [he, if_false, Prod.ext_iff, false_and, false_or]
  have hfst : hashes.zipIdx.map Prod.fst = hashes := List.zipIdx_map_fst 0 hashes
  rw [heightsByHash, key _ _ (by rw [hfst]; exact hn), Dict.get?_empty, List.mem_zipIdx_iff_getElem?]
  simp

omit [PyText] in
theorem startsAfter_cons {hashes locator : List Str} {hash : Str} {start : Nat} : StartsAfter hashes (hash :: locator) start ↔
    (∃ i, hashes[i]? = some hash ∧ start = i + 1) ∨ hash ∉ hashes ∧ StartsAfter hashes locator start := by
  constructor
  · rintro (⟨before, h, after, i, hlocator, hbefore, hi, hstart⟩ | ⟨hall, hstart⟩)
    · cases before with
      | nil =>
        rw [List.nil_append, List.cons.injEq] at hlocator
        exact .inl ⟨i, hlocator.1 ▸ hi, hstart⟩
      | cons b before =>
        rw [List.cons_append, List.cons.injEq] at hlocator
        rw [List.forall_mem_cons, ← hlocator.1] at hbefore
        exact .inr ⟨hbefore.1, .inl ⟨before, h, after, i, hlocator.2, hbefore.2, hi, hstart⟩⟩
    · rw [List.forall_mem_cons] at hall
      exact .inr ⟨hall.1, .inr ⟨hall.2, hstart⟩⟩
  · rintro (⟨i, hi, hstart⟩ | ⟨hno, ⟨before, h, after, i, hlocator, hbefore, hi, hstart⟩ | ⟨hall, hstart⟩⟩)
    · exact .inl ⟨[], hash, locator, i, rfl, fun _ h => absurd h List.not_mem_nil, hi, hstart⟩
    · exact .inl ⟨hash :: before, h, after, i, by rw [hlocator]; rfl, List.forall_mem_cons.mpr ⟨hno, hbefore⟩, hi, hstart⟩
    · exact .inr ⟨List.forall_mem_cons.mpr ⟨hno, hall⟩, hstart⟩

omit [PyText] in
theorem startsAfter_iff {hashes : List Str} (hn : hashes.Nodup) (locator : List Str) {start : Nat} :
    StartsAfter hashes locator start ↔ start = startOf (heightsByHash hashes) (locator.map .str) := by
  induction locator with
  | nil => simp [StartsAfter, startOf]
  | cons hash locator ih =>
    rw [startsAfter_cons, ih, List.map_cons, startOf]
    simp only [← get?_heightsByHash hn]
    cases hi : (heightsByHash hashes).get? hash with
    | some i =>
      have hmem : hash ∈ hashes := List.mem_of_getElem? ((get?_heightsByHash hn hash i).mp hi)
      simp [hmem]
    | none =>
      have hno : hash ∉ hashes := fun hmem => by
        obtain ⟨i, hi'⟩ := List.getElem?_of_mem hmem
        rw [(get?_heightsByHash hn hash i).mpr hi'] at hi
        cases hi
      simp [hno]

/-- The block is the one to stop at. -/
def Stops (stop : Option Str) (b : ConsensusBlock) : Prop := ∃ hash, b.hash = .ok hash ∧ stop = some hash

/-- What a request gets of the blocks after its start: it ends at the block to stop at, if that is reached, and otherwise
with the chain or at the limit. -/
structure HeaderRun (rest : List ConsensusBlock) (stop : Option Str) (limit : Nat) (run : List ConsensusBlock) : Prop where
  initial : run <+: rest
  length_le : run.length ≤ limit
  goesOn : ∀ b ∈ run.dropLast, ¬ Stops stop b
  ends : run = rest ∨ run.length = limit ∨ ∃ b, run.getLast? = some b ∧ Stops stop b

omit [PyText] in
/-- The loop of `_handle_getheaders` looks at the limit when it has a header: a limit that is reached counts as one more. -/
theorem collectHeaders_run (stop : Option Str) (limit : Nat) : ∀ {chain : List StoredConsensusBlock} (headers : List BlockHeader),
    (∀ stored ∈ chain, ∃ hash, stored.block.hash = .ok hash) →
    ∃ run, collectHeaders (stop.elim .null .str) limit headers chain = .ok (headers ++ run.map .fromBlock) ∧
      HeaderRun (chain.map (·.block)) stop (max 1 (limit - headers.length)) run
  | [], headers, _ => ⟨[], by rw [List.map_nil, List.append_nil]; rfl, List.prefix_rfl, by simp, by simp, .inl rfl⟩
  | stored :: chain, headers, hhash => by
    rw [List.forall_mem_cons] at hhash
    obtain ⟨⟨hash, hhash⟩, hrest⟩ := hhash
    have hstop : Json.isText hash (stop.elim .null .str) = true ↔ Stops stop stored.block := by
      simp only [Stops, hhash, Except.ok.injEq, exists_eq_left']
      cases stop with
      | none => simp [Json.isText]
      | some s => simp [Json.isText]
    have hlen : (headers ++ [BlockHeader.fromBlock stored.block]).length = headers.length + 1 := by simp
    rw [collectHeaders, hhash, ok_bind]
    by_cases hend : Stops stop stored.block ∨ limit ≤ headers.length + 1
    · refine ⟨[stored.block], ?_, ⟨chain.map (·.block), rfl⟩, by simp, by simp, ?_⟩
      · rw [if_pos (by rw [hstop, hlen]; exact hend.imp_right fun h => by omega)]
        rfl
      · rcases hend with hend | hend
        · exact .inr (.inr ⟨_, rfl, hend⟩)
        · exact .inr (.inl (by rw [List.length_singleton]; omega))
    · rw [not_or] at hend
      obtain ⟨run, hrun, hr⟩ := collectHeaders_run stop limit (headers ++ [BlockHeader.fromBlock stored.block]) hrest
      have hle := hr.length_le
      rw [hlen] at hr hle
      refine ⟨stored.block :: run, ?_, (List.prefix_cons_inj _).mpr hr.initial, ?_, fun b hb => ?_, ?_⟩
      · rw [if_neg (by rw [hstop, hlen]; exact fun h => h.elim hend.1 fun h => hend.2 (by omega)), hrun, List.append_assoc]
        rfl
      · rw [List.length_cons]
        omega
      · cases run with
        | nil => cases hb
        | cons b' run =>
          rw [List.dropLast_cons_cons, List.mem_cons] at hb
          rcases hb with rfl | hb
          · exact hend.1
          · exact hr.goesOn b hb
      · rcases hr.ends with he | he | ⟨b, hb, hs⟩
        · exact .inl (by rw [he]; rfl)
        · exact .inr (.inl (by rw [List.length_cons, he]; omega))
        · exact .inr (.inr ⟨b, by rw [List.getLast?_cons, hb]; rfl, hs⟩)

variable [Ed25519]

/-- What a request for headers gets of the active chain of a node. -/
structure SliceOf (n : ConsensusNode) (locator : List Str) (stop : Option Str) (limit start : Nat)
    (run : List ConsensusBlock) : Prop where
  place : ∃ hashes, n.activeChainHashes = .ok hashes ∧ StartsAfter hashes locator start
  blocks : ∃ a, n.forkChoice.activeChain n.disk.store = .ok a ∧ HeaderRun (a.blocks.drop start) stop limit run

omit [PyText] in
theorem ActiveHeaders.activeChainHashes {n : ConsensusNode} {chain : List StoredConsensusBlock} {a : ActiveChain}
    {hashes : List Str} (h : ActiveHeaders n chain a hashes) : n.activeChainHashes = .ok hashes := by
  rw [ConsensusNode.activeChainHashes, h.active, ok_bind]
  exact h.linked.mapM_hash

omit [PyText] in
/-- The blocks from a start on are linked, to the block before them if there is one. -/
theorem ActiveHeaders.drop {n : ConsensusNode} {chain : List StoredConsensusBlock} {a : ActiveChain} {hashes locator : List Str}
    {start : Nat} (h : ActiveHeaders n chain a hashes) (hstart : StartsAfter hashes locator start) :
    ∃ k p, HeaderChain k p (a.blocks.drop start) (hashes.drop start) ∧ ∀ i, start = i + 1 → hashes[i]? = some p := by
  rcases hstart with ⟨-, hash, -, i, -, -, hi, rfl⟩ | ⟨-, rfl⟩
  · refine ⟨_, hash, h.linked.drop hi, fun j hj => ?_⟩
    rw [← Nat.succ.inj hj]
    exact hi
  · exact ⟨0, zeroHash, h.linked, fun i hi => nomatch hi⟩

/-- The answer to a request: the run of headers it asks for, where a limit of 0 counts as 1. -/
theorem handleGetheaders_run {s : NodeService} {chain : List StoredConsensusBlock} {a : ActiveChain} {hashes : List Str}
    (h : ActiveHeaders s.node chain a hashes) {payload : Json} {locator : List Str} {stop : Option Str} {limit : Nat}
    (hask : Asks payload locator stop limit) (hlimit : limit ≤ 2000) :
    ∃ start run response, StartsAfter hashes locator start ∧ HeaderRun (a.blocks.drop start) stop (max 1 limit) run ∧
      headersMessage (run.map .fromBlock) = .ok response ∧ s.handleGetheaders payload = .ok response ∧
      response.messageType = .headers ∧ headersFromPayload response.payload = .ok (run.map .fromBlock) ∧
      response.validatePayload = .ok () := by
  obtain ⟨start, hstart⟩ : ∃ start, start = startOf (heightsByHash hashes) (locator.map .str) := ⟨_, rfl⟩
  have hplace := (startsAfter_iff h.nodup locator).mpr hstart
  obtain ⟨k, p, hlinked, -⟩ := h.drop hplace
  have hhashes : (chain.mapM fun stored => stored.block.hash) = .ok hashes := by
    have hm := h.linked.mapM_hash
    rwa [h.blocks, List.mapM_map] at hm
  have hstored : ∀ stored ∈ chain.drop start, ∃ hash, stored.block.hash = .ok hash := fun stored hs =>
    h.linked.exists_hash _ (by rw [h.blocks]; exact List.mem_map_of_mem (List.mem_of_mem_drop hs))
  obtain ⟨run, hcollect, hrun⟩ := collectHeaders_run stop limit [] hstored
  rw [List.nil_append] at hcollect
  rw [List.map_drop, ← h.blocks, List.length_nil, Nat.sub_zero] at hrun
  have htake : HeaderChain k p run ((hashes.drop start).take run.length) := by
    have htake := hlinked.take run.length
    rwa [← List.prefix_iff_eq_take.mp hrun.initial] at htake
  have hlen := hrun.length_le
  obtain ⟨response, hresponse, htype, hdecode, hvalid⟩ := headersMessage_linked htake (by omega)
  refine ⟨start, run, response, hplace, hrun, hresponse, ?_, htype, hdecode, hvalid⟩
  rw [NodeService.handleGetheaders, h.stored, ok_bind, hask.locator, ok_bind]
  simp only [Json.iter, ok_bind, hask.stop, hask.limit, hhashes, ← hstart, hcollect]
  exact hresponse

/-- The answer is the run of headers that the request asks for. -/
def RightSlice (s : NodeService) (payload : Json) (locator : List Str) (stop : Option Str) (limit : Nat) : Prop :=
  ∃ start run response, SliceOf s.node locator stop limit start run ∧ headersMessage (run.map .fromBlock) = .ok response ∧
    s.handleGetheaders payload = .ok response

omit [PyText] [Ed25519] in
theorem HeaderRun.eq_nil {rest run : List ConsensusBlock} {stop : Option Str} {limit : Nat} (h : HeaderRun rest stop limit run)
    (hlimit : 0 < limit) (hrun : run = []) : rest = [] := by
  subst hrun
  rcases h.ends with he | he | ⟨b, hb, -⟩
  · exact he.symm
  · rw [List.length_nil] at he
    omega
  · cases hb

/-- A request that the validator accepts is answered with the run of headers it asks for if and only if its limit is
not 0, or nothing comes after its start. -/
theorem getheaders_slice_iff (calls : List Call) (n : ConsensusNode) (hn : World.after calls = .up n) (s : NodeService)
    (hs : s.node = n) (payload : Json) (hvalid : PeerMessage.validateGetheaders payload = .ok ()) :
    ∃ locator stop limit, Asks payload locator stop limit ∧ limit ≤ 2000 ∧ (RightSlice s payload locator stop limit ↔
      limit ≠ 0 ∨ ∀ hashes start, n.activeChainHashes = .ok hashes → StartsAfter hashes locator start →
        hashes.length ≤ start) := by
  subst hs
  obtain ⟨locator, stop, limit, hask, hlimit⟩ := asks_of_valid hvalid
  obtain ⟨chain, a, hashes, hactive⟩ := (nodeOk_after hn).activeHeaders
  obtain ⟨start, run, response, hstart, hrun, hresponse, hanswer, -⟩ := handleGetheaders_run hactive hask hlimit
  have hplace := hactive.activeChainHashes
  have hlength := hactive.linked.length
  refine ⟨locator, stop, limit, hask, hlimit, ?_, fun hcond => ?_⟩
  · rintro ⟨start', run', response', hslice, hresponse', hanswer'⟩
    by_cases hzero : limit = 0
    · refine .inr fun hashes' start₁ hhashes' hstart₁ => ?_
      rw [hplace, Except.ok.injEq] at hhashes'
      subst hhashes'
      rw [(startsAfter_iff hactive.nodup locator).mp hstart₁, ← (startsAfter_iff hactive.nodup locator).mp hstart]
      -- No header is right, and so none was given.
      obtain ⟨a', -, hrun'⟩ := hslice.blocks
      have hle := hrun'.length_le
      rw [hanswer, Except.ok.injEq] at hanswer'
      subst hanswer'
      have hsame := headersMessage_inj hresponse hresponse'
      rw [hzero, Nat.le_zero, List.length_eq_zero_iff] at hle
      rw [hle, List.map_nil, List.map_eq_nil_iff] at hsame
      rw [hlength]
      exact List.drop_eq_nil_iff.mp (hrun.eq_nil (by omega) hsame)
    · exact .inl hzero
  · refine ⟨start, run, response, ⟨⟨hashes, hplace, hstart⟩, a, hactive.active, ?_⟩, hresponse, hanswer⟩
    rcases hcond with hne | hend
    · rwa [Nat.max_eq_right (by omega)] at hrun
    · have hnil : a.blocks.drop start = [] := List.drop_eq_nil_iff.mpr (hlength ▸ hend hashes start hplace hstart)
      rw [hnil] at hrun ⊢
      have hrun := List.prefix_nil.mp hrun.initial
      rw [hrun]
      exact ⟨List.prefix_rfl, Nat.zero_le _, fun _ h => absurd h List.not_mem_nil, .inl rfl⟩

/-! ## The receiver -/

/-- The check of `_handle_headers` that a batch follows a known block. -/
def anchored (s : NodeService) : List BlockHeader → Except PyError Unit
  | [] => .ok ()
  | header :: _ => do
    let tipHash ← s.node.tipHash
    raiseIf (header.previousHash ≠ tipHash ∧ s.node.disk.store.hasBlock header.previousHash = false)
      (nodeServiceError "headers do not connect to a known block")

omit [PyText] [Ed25519] in
theorem dropExpired_call : ∀ (downloads : List BlockDownload) (s : NodeService),
    ∃ s', (dropExpired downloads).call s = (.ok (), s') ∧ s'.node = s.node
  | [], s => ⟨s, rfl, rfl⟩
  | d :: downloads, s => by
    obtain ⟨s', hcall, hnode⟩ := dropExpired_call downloads
      (recorded d.peer { timedOutBlocks := 1 } { s with inFlightBlocks := s.inFlightBlocks.erase d.blockHash })
    refine ⟨s', ?_, hnode⟩
    rw [dropExpired, Method.call_bind, Method.call_modify]
    simp only [Method.call_bind, call_recordProgress]
    exact hcall

omit [Ed25519] in
/-- A batch that can be read and is anchored gets as far as the requests. -/
theorem handleHeaders_call {s : NodeService} {payload : Json} {headers : List BlockHeader}
    (hread : headersFromPayload payload = .ok headers) (hanchored : anchored s headers = .ok ()) (address : Str) (now : Int) :
    (handleHeaders address payload now).call s = (do
      let _ ← expireBlockDownloads now
      let requests ← requestHeaders address now ∅ headers
      let s ← get
      return s.getdataMessages requests : Method NodeService PyError _).call s := by
  obtain ⟨s', hcall, hnode⟩ := dropExpired_call
    (s.inFlightBlocks.values.filter fun d => s.blockDownloadTimeout ≤ now - d.requestedAt) s
  have hexpire : ∃ expired, (expireBlockDownloads now).call s = (.ok expired, s') :=
    ⟨_, by rw [expireBlockDownloads, Method.call_bind, Method.call_get]; simp only [Method.call_bind, hcall]; rfl⟩
  obtain ⟨expired, hexpire⟩ := hexpire
  have hsame : anchored s' headers = .ok () := by
    cases headers with
    | nil => rfl
    | cons header headers => rw [anchored, hnode]; exact hanchored
  have hcheck : ∀ f : Unit → Method NodeService PyError (List (Str × List PeerMessage)),
      (Method.reading (anchored · headers) >>= f).call s' = (f ()).call s' := fun f => by
    rw [Method.call_bind, Method.call_reading, hsame]
  rw [Method.call_bind, hexpire]
  show (expireBlockDownloads now >>= fun _ => (Method.reading fun _ => headersFromPayload payload) >>= fun headers =>
    Method.reading (anchored · headers) >>= fun _ => _).call s = _
  rw [Method.call_bind, hexpire]
  dsimp only
  rw [Method.call_bind, Method.call_reading, hread]
  exact hcheck _

omit [PyText] in
theorem anchored_of_hasBlock {s : NodeService} (h : NodeOk s.node) {headers : List BlockHeader}
    (hthere : ∀ header ∈ headers.head?, s.node.disk.store.hasBlock header.previousHash = true) :
    anchored s headers = .ok () := by
  cases headers with
  | nil => rfl
  | cons header headers =>
    obtain ⟨tip, htip⟩ : ∃ tip, s.node.tipHash = .ok tip := by
      rw [ConsensusNode.tipHash]
      cases hfirst : Table.first BlockRow.better s.node.disk.store.blocks with
      | none =>
        rw [StoreOk.bestTip_of_nil (Table.first_eq_none.mp hfirst)]
        exact ⟨_, rfl⟩
      | some r =>
        obtain ⟨b, hrow, hbest⟩ := h.store.bestTip hfirst
        exact ⟨r.hash, by rw [hbest]; exact hrow.hash⟩
    rw [anchored, htip, ok_bind]
    exact raiseIf_of_not fun hno => by rw [hthere header rfl] at hno; cases hno.2

/-- A request that the validator accepts is answered with a HEADERS message that its receiver accepts: the headers read
back from it are those of a run of blocks of the active chain and have their hashes. Where the receiver has the block of
the locator that the run comes after, `_handle_headers` finds the batch anchored there and goes on to its requests. -/
theorem served_headers_accepted (calls : List Call) (n : ConsensusNode) (hn : World.after calls = .up n) (s : NodeService)
    (hs : s.node = n) (payload : Json) (hvalid : PeerMessage.validateGetheaders payload = .ok ()) :
    ∃ locator stop limit a hashes run response, Asks payload locator stop limit ∧
      n.forkChoice.activeChain n.disk.store = .ok a ∧ n.activeChainHashes = .ok hashes ∧ run <:+: a.blocks ∧
      s.handleGetheaders payload = .ok response ∧ response.messageType = .headers ∧ response.validatePayload = .ok () ∧
      headersFromPayload response.payload = .ok (run.map .fromBlock) ∧
      (∀ b ∈ run, ∃ hash, b.hash = .ok hash ∧ (BlockHeader.fromBlock b).hash = .ok hash) ∧
      ∀ before hash after, locator = before ++ hash :: after → (∀ h ∈ before, h ∉ hashes) → hash ∈ hashes →
        ∀ (received : List Call) (receiver : NodeService), World.after received = .up receiver.node →
          receiver.node.disk.store.hasBlock hash = true → ∀ (address : Str) (now : Int),
            (handleHeaders address response.payload now).call receiver = (do
              let _ ← expireBlockDownloads now
              let requests ← requestHeaders address now ∅ (run.map .fromBlock)
              let s ← get
              return s.getdataMessages requests : Method NodeService PyError _).call receiver := by
  subst hs
  obtain ⟨locator, stop, limit, hask, hlimit⟩ := asks_of_valid hvalid
  obtain ⟨chain, a, hashes, hactive⟩ := (nodeOk_after hn).activeHeaders
  obtain ⟨start, run, response, hstart, hrun, -, hanswer, htype, hdecode, haccepted⟩ :=
    handleGetheaders_run hactive hask hlimit
  have hwithin : run <:+: a.blocks := hrun.initial.isInfix.trans (List.drop_suffix start a.blocks).isInfix
  refine ⟨locator, stop, limit, a, hashes, run, response, hask, hactive.active, hactive.activeChainHashes, hwithin, hanswer,
    htype, haccepted, hdecode, fun b hb => ?_, ?_⟩
  · obtain ⟨hash, hhash⟩ := hactive.linked.exists_hash b (hwithin.subset hb)
    exact ⟨hash, hhash, hhash⟩
  · intro before hash after hlocator hbefore hmem received receiver hr hthere address now
    refine handleHeaders_call hdecode ?_ address now
    refine anchored_of_hasBlock (nodeOk_after hr) fun header hheader => ?_
    obtain ⟨i, hi⟩ := List.getElem?_of_mem hmem
    have hplace : StartsAfter hashes locator (i + 1) := .inl ⟨before, hash, after, i, hlocator, hbefore, hi, rfl⟩
    have hsame := (startsAfter_iff hactive.nodup locator).mp hplace
    rw [← (startsAfter_iff hactive.nodup locator).mp hstart] at hsame
    subst hsame
    -- The first header comes after the block of the locator.
    obtain ⟨k, p, hlinked, hp⟩ := hactive.drop hstart
    have hprevious := hp i rfl
    rw [hi, Option.some.injEq] at hprevious
    obtain ⟨rest, hrest⟩ := hrun.initial
    cases run with
    | nil => cases hheader
    | cons b run =>
      rw [List.map_cons, List.head?_cons, Option.mem_some_iff] at hheader
      rw [← hrest, List.cons_append] at hlinked
      rw [← hheader, show (BlockHeader.fromBlock b).previousHash = p from hlinked.previousHash, ← hprevious]
      exact hthere

end Requests

/-! ## The genesis header -/

theorem getheaders_slice_genesisNode :
    let _ := aliceVerify
    let _ := decoding [] .null
    ∃ locator stop limit, Asks headersRequest locator stop limit ∧ limit ≤ 2000 ∧
      (RightSlice genesisService headersRequest locator stop limit ↔ limit ≠ 0 ∨ ∀ hashes start,
        genesisNode.activeChainHashes = .ok hashes → StartsAfter hashes locator start → hashes.length ≤ start) := by
  intro _ _
  exact getheaders_slice_iff _ genesisNode created_genesisNode genesisService rfl headersRequest rfl

theorem served_headers_genesisNode :
    let _ := aliceVerify
    let _ := decoding [] .null
    ∃ response, genesisService.handleGetheaders headersRequest = .ok response ∧ response.messageType = .headers ∧
      response.validatePayload = .ok () := by
  intro _ _
  obtain ⟨-, -, -, -, -, -, response, -, -, -, -, hanswer, htype, haccepted, -⟩ :=
    served_headers_accepted _ genesisNode created_genesisNode genesisService rfl headersRequest rfl
  exact ⟨response, hanswer, htype, haccepted⟩

/-- A request for no headers. -/
def noHeadersRequest : Json := .obj [("locator".toList, .arr []), ("limit".toList, .int 0)]

/-- It is answered with the genesis header. -/
theorem noHeadersRequest_answered :
    let _ := aliceVerify
    let _ := decoding [] .null
    World.after [.create [(aliceAddress, 10)] ⟨0, 50, 1000⟩ 0 1] = .up genesisService.node ∧
      PeerMessage.validateGetheaders noHeadersRequest = .ok () ∧ Asks noHeadersRequest [] none 0 ∧
      ¬ RightSlice genesisService noHeadersRequest [] none 0 := by
  intro _ _
  have hask : Asks noHeadersRequest [] none 0 := ⟨rfl, rfl, rfl⟩
  refine ⟨created_genesisNode, rfl, hask, ?_⟩
  rintro ⟨start, run, response, hslice, hresponse, hanswer⟩
  obtain ⟨chain, a, hashes, hactive⟩ := (nodeOk_after created_genesisNode).activeHeaders
  obtain ⟨start', run', response', hstart, hrun, hresponse', hanswer', -⟩ :=
    handleGetheaders_run (show ActiveHeaders genesisService.node chain a hashes from hactive) hask (by decide)
  obtain ⟨_, -, hnone⟩ := hslice.blocks
  rw [hanswer, Except.ok.injEq] at hanswer'
  subst hanswer'
  have hsame := headersMessage_inj hresponse' hresponse
  rw [List.length_eq_zero_iff.mp (Nat.le_zero.mp hnone.length_le), List.map_nil, List.map_eq_nil_iff] at hsame
  have hrest := hrun.eq_nil Nat.one_pos hsame
  rw [(startsAfter_iff hactive.nodup []).mp hstart, List.map_nil, startOf, List.drop_zero] at hrest
  have hblocks : (genesisNode.forkChoice.activeChain genesisNode.disk.store).map (·.blocks) = .ok [genesisBlock] := by
    decide +kernel
  have hactive' : genesisNode.forkChoice.activeChain genesisNode.disk.store = .ok a := hactive.active
  rw [hactive', Except.map, Except.ok.injEq, hrest] at hblocks
  cases hblocks

end BCC.Proof
