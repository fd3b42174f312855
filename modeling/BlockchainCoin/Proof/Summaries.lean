import BlockchainCoin.Impl.Summaries
import BlockchainCoin.Proof.Headers
import BlockchainCoin.Proof.History
import BlockchainCoin.Proof.Mined
import BlockchainCoin.Proof.Reload
import BlockchainCoin.Proof.Root

/-!
# What a node tells its operator

The summaries of blocks by height are those by hash of the blocks that are active, and
heights that follow each other belong to blocks that do (`blockSummary_agrees`). A
transaction is told to be confirmed in the first of these blocks that lists it, else to
be in the mempool where `mempool_summary` lists it (`transactionSummary_agrees`).
-/

namespace BCC.Proof

open BCC.Impl PyError

variable [Ed25519]

/-! ## Blocks of the active chain -/

omit [Ed25519] in
theorem HeaderChain.getElem {k : Int} {p : Str} {bs : List ConsensusBlock} {hashes : List Str} (h : HeaderChain k p bs hashes)
    (i : Nat) {b : ConsensusBlock} (hb : bs[i]? = some b) :
    ∃ hash, hashes[i]? = some hash ∧ b.hash = .ok hash ∧ b.height = k + i := by
  induction h generalizing i with
  | nil => cases hb
  | @cons k p hash b' bs hashes hok _ ih =>
    cases i with
    | zero =>
      rw [List.getElem?_cons_zero, Option.some.injEq] at hb
      subst hb
      exact ⟨hash, rfl, hok.hash_eq, by rw [hok.height]; simp⟩
    | succ i =>
      rw [List.getElem?_cons_succ] at hb
      obtain ⟨hash', hhash', hb', hheight⟩ := ih i hb
      exact ⟨hash', by rwa [List.getElem?_cons_succ], hb', by omega⟩

omit [Ed25519] in
theorem HeaderChain.exists_block {k : Int} {p : Str} {bs : List ConsensusBlock} {hashes : List Str}
    (h : HeaderChain k p bs hashes) : ∀ hash ∈ hashes, ∃ b ∈ bs, b.hash = .ok hash := by
  induction h with
  | nil => exact fun _ h => absurd h List.not_mem_nil
  | @cons k p hash b bs hashes hb _ ih =>
    refine List.forall_mem_cons.mpr ⟨⟨b, List.mem_cons_self, hb.hash_eq⟩, fun hash' hmem => ?_⟩
    obtain ⟨b', hb', hhash⟩ := ih hash' hmem
    exact ⟨b', List.mem_cons_of_mem _ hb', hhash⟩

omit [Ed25519] in
/-- The work of each block of a branch is that of the one before it and its own. -/
theorem Branch.works {rows : List BlockRow} {r : BlockRow} {chain : List StoredConsensusBlock} (h : Branch rows r chain) :
    chain.IsChain fun parent stored => stored.cumulativeWork = parent.cumulativeWork + workFor stored.block := by
  induction h with
  | root => exact .singleton _
  | child _ _ hp _ _ hw ih =>
    obtain ⟨bp, -, hlast, -⟩ := hp.last
    refine List.isChain_append.mpr ⟨ih, .singleton _, fun x hx y hy => ?_⟩
    rw [hlast, Option.mem_some] at hx
    rw [List.head?_cons, Option.mem_some] at hy
    rw [← hx, ← hy]
    exact hw

section

variable {f : ForkChoice} {store : ForkStore} {a : ActiveChain}

/-- The blocks of the active chain as the store reads them. -/
theorem StoreOk.active_stored (h : StoreOk f store) (ha : f.activeChain store = .ok a) :
    ∃ chain : List StoredConsensusBlock, a.blocks = chain.map (·.block) ∧
      (∀ stored ∈ chain, ∀ hash, stored.block.hash = .ok hash → store.getBlock hash = .ok stored) ∧
      (chain.IsChain fun parent stored => parent.block.hash = .ok stored.block.previousHash) ∧
      chain.IsChain fun parent stored => stored.cumulativeWork = parent.cumulativeWork + workFor stored.block := by
  rcases h.activeChain_eq_ok ha with ⟨-, hnil, -⟩ | ⟨r, chain, -, hb, -, he⟩
  · exact ⟨[], hnil, fun _ hmem => absurd hmem List.not_mem_nil, .nil, .nil⟩
  · refine ⟨chain, by rw [he], fun stored hstored hash hhash => ?_, hb.isChain, hb.works⟩
    obtain ⟨q, -, hrow, hget⟩ := hb.stored h.nodup stored hstored
    rw [hrow.hash, Except.ok.injEq] at hhash
    exact hhash ▸ hget

/-- A block that is read from the store has its hash and the txids of its transactions. -/
theorem StoreOk.txids (h : StoreOk f store) {hash : Str} {stored : StoredConsensusBlock}
    (hget : store.getBlock hash = .ok stored) :
    stored.block.hash = .ok hash ∧ ∀ t ∈ stored.block.transactions, t.txid = .ok (txidOf t) := by
  obtain ⟨r, hr, rfl, hrow, -⟩ := h.of_getBlock hget
  obtain ⟨chain, s, hb, hbuilt⟩ := h.branch r hr
  obtain ⟨b, hrow', hlast, -⟩ := hb.last
  have hsame : b = stored.block := by
    have hdata := hrow'.data
    rw [hrow.data, Except.ok.injEq] at hdata
    exact hdata.symm
  refine ⟨hrow.hash, fun t ht => hbuilt.txids t (List.mem_flatMap.mpr ⟨b, ?_, hsame ▸ ht⟩)⟩
  exact List.mem_map.mpr ⟨_, List.mem_of_getLast? hlast, rfl⟩

end

/-! ## Summaries of blocks -/

omit [Ed25519] in
theorem mapM_txid {ts : List ConsensusTransaction} (h : ∀ t ∈ ts, t.txid = .ok (txidOf t)) :
    (ts.mapM fun t => t.txid) = .ok (ts.map txidOf) :=
  mapM_eq_ok.mpr (List.forall₂_map_right_iff.mpr (List.forall₂_same.mpr h))

/-- The summary of a block that is read from the store, which has the hash `hash`. -/
def summaryOf (activeHashes : List Str) (hash : Str) (stored : StoredConsensusBlock) : BlockSummary :=
  ⟨hash, stored.block.height, stored.block.previousHash, stored.block.difficulty, stored.block.timestamp, stored.block.nonce,
    stored.block.transactionRoot, stored.block.transactions.map txidOf, stored.block.transactions.length,
    stored.cumulativeWork, hash ∈ activeHashes⟩

section

variable {n : ConsensusNode} {chain : List StoredConsensusBlock} {a : ActiveChain} {hashes : List Str}

theorem describeBlock_told (h : NodeOk n) {hash : Str} {stored : StoredConsensusBlock}
    (hget : n.disk.store.getBlock hash = .ok stored) :
    ConsensusNode.describeBlock hashes stored.block stored = .ok (summaryOf hashes hash stored) := by
  obtain ⟨hhash, htxids⟩ := h.store.txids hget
  rw [ConsensusNode.describeBlock, hhash, ok_bind, mapM_txid htxids]
  rfl

theorem blockSummary_hash (h : NodeOk n) (ha : ActiveHeaders n chain a hashes) (hash : Str) :
    n.blockSummary (some hash) none = match n.disk.store.getBlock hash with
      | .ok stored => .ok (summaryOf hashes hash stored)
      | .error _ => .error (consensusNodeError ("unknown block: " ++ String.ofList hash)) := by
  simp only [ConsensusNode.blockSummary, ha.active, ok_bind, ha.linked.mapM_hash, Option.isNone_some, Option.isNone_none,
    Option.getD_some]
  rw [raiseIf_of_not (by simp), ok_bind]
  have hraises := h.store.getBlock_raises hash
  cases hget : n.disk.store.getBlock hash with
  | ok stored => exact describeBlock_told h hget
  | error e =>
    rw [catchAs, if_pos (hraises e hget)]
    rfl

theorem blockSummary_height (h : NodeOk n) (ha : ActiveHeaders n chain a hashes) (height : Int) {s : BlockSummary} :
    n.blockSummary none (some height) = .ok s ↔ ∃ i : Nat, height = i ∧ ∃ hash stored, hashes[i]? = some hash ∧
      a.blocks[i]? = some stored.block ∧ n.disk.store.getBlock hash = .ok stored ∧ s = summaryOf hashes hash stored := by
  obtain ⟨stored, hblocks, hread, -⟩ := h.store.active_stored ha.active
  simp only [ConsensusNode.blockSummary, ha.active, ok_bind, ha.linked.mapM_hash, Option.isNone_some, Option.isNone_none]
  rw [raiseIf_of_not (by simp), ok_bind]
  by_cases hneg : height < 0
  · rw [raiseIf_of hneg]
    refine ⟨fun hs => (by cases hs), ?_⟩
    rintro ⟨i, rfl, -⟩
    omega
  obtain ⟨i, rfl⟩ := Int.eq_ofNat_of_zero_le (not_lt.mp hneg)
  rw [raiseIf_of_not hneg, ok_bind, Int.toNat_natCast]
  cases hb : a.blocks[i]? with
  | none =>
    refine ⟨fun hs => (by cases hs), ?_⟩
    rintro ⟨j, hj, _, stored', -, hblock, -⟩
    obtain rfl := Int.ofNat_inj.mp hj
    rw [hb] at hblock
    cases hblock
  | some block =>
    obtain ⟨hash, hhashes, hhash, -⟩ := ha.linked.getElem i hb
    obtain ⟨s', hs', rfl⟩ := Option.map_eq_some_iff.mp ((List.getElem?_map ..).symm.trans (hblocks ▸ hb))
    have hget := hread s' (List.mem_of_getElem? hs') hash hhash
    simp only [hhash, ok_bind, hget, describeBlock_told h hget, Except.ok.injEq]
    constructor
    · rintro rfl
      exact ⟨i, rfl, hash, s', hhashes, hb, hget, rfl⟩
    · rintro ⟨j, hj, hash', stored', hhashes', -, hget', rfl⟩
      obtain rfl := Int.ofNat_inj.mp hj
      rw [hhashes, Option.some.injEq] at hhashes'
      subst hhashes'
      rw [hget, Except.ok.injEq] at hget'
      rw [hget']

/-- What `block_summary` says of the stored blocks, of which those of `a` are active. -/
structure BlocksTold (n : ConsensusNode) (a : ActiveChain) : Prop where
  stored : ∀ hash stored, n.disk.store.getBlock hash = .ok stored → ∃ s, n.blockSummary (some hash) none = .ok s ∧
    s.hash = hash ∧ s.height = stored.block.height ∧ s.cumulativeWork = stored.cumulativeWork ∧
    (stored.block.transactions.mapM fun t => t.txid) = .ok s.transactions ∧ (s.active = true ↔ stored.block ∈ a.blocks)
  unknown : ∀ hash, n.disk.store.hasBlock hash = false →
    n.blockSummary (some hash) none = .error (consensusNodeError ("unknown block: " ++ String.ofList hash))
  byHeight : ∀ height s, n.blockSummary none (some height) = .ok s ↔
    n.blockSummary (some s.hash) none = .ok s ∧ s.active = true ∧ s.height = height
  heights : ∀ height, (∃ s, n.blockSummary none (some height) = .ok s) ↔ 0 ≤ height ∧ height < a.blocks.length
  linked : ∀ height s s', n.blockSummary none (some height) = .ok s → n.blockSummary none (some (height + 1)) = .ok s' →
    s'.previousHash = s.hash ∧ s'.cumulativeWork = s.cumulativeWork + 2 ^ s'.difficulty.toNat

/-- A block is active when its hash is one of the active chain. -/
theorem mem_hashes_iff (h : NodeOk n) (ha : ActiveHeaders n chain a hashes) {hash : Str} {stored : StoredConsensusBlock}
    (hget : n.disk.store.getBlock hash = .ok stored) : hash ∈ hashes ↔ stored.block ∈ a.blocks := by
  obtain ⟨told, hblocks, hread, -⟩ := h.store.active_stored ha.active
  constructor
  · intro hmem
    obtain ⟨b, hb, hhash⟩ := ha.linked.exists_block hash hmem
    rw [hblocks] at hb
    obtain ⟨s, hs, rfl⟩ := List.mem_map.mp hb
    rw [hread s hs hash hhash, Except.ok.injEq] at hget
    rw [hblocks, ← hget]
    exact List.mem_map_of_mem hs
  · intro hmem
    obtain ⟨i, hi⟩ := List.mem_iff_getElem?.mp hmem
    obtain ⟨hash', hhash', hb, -⟩ := ha.linked.getElem i hi
    rw [(h.store.txids hget).1, Except.ok.injEq] at hb
    exact hb ▸ List.mem_of_getElem? hhash'

theorem blocksTold (h : NodeOk n) (ha : ActiveHeaders n chain a hashes) : BlocksTold n a := by
  obtain ⟨active, hblocks, hread, hlinks, hworks⟩ := h.store.active_stored ha.active
  refine ⟨fun hash stored hget => ?_, fun hash hno => ?_, fun height s => ?_, fun height => ?_, fun height s s' hs hs' => ?_⟩
  · refine ⟨summaryOf hashes hash stored, by rw [blockSummary_hash h ha, hget], rfl, rfl, rfl, mapM_txid (h.store.txids hget).2, ?_⟩
    exact decide_eq_true_iff.trans (mem_hashes_iff h ha hget)
  · have hnone : Table.lookup BlockRow.hash n.disk.store.blocks hash = none := by simpa [ForkStore.hasBlock] using hno
    rw [blockSummary_hash h ha, ForkStore.getBlock, hnone]
  · rw [blockSummary_height h ha]
    constructor
    · rintro ⟨i, rfl, hash, stored, hhashes, hb, hget, rfl⟩
      obtain ⟨_, -, -, hheight⟩ := ha.linked.getElem i hb
      refine ⟨?_, decide_eq_true (List.mem_of_getElem? hhashes), by rw [summaryOf, hheight, Int.zero_add]⟩
      show n.blockSummary (some hash) none = _
      rw [blockSummary_hash h ha, hget]
    · rintro ⟨hs, hactive, rfl⟩
      rw [blockSummary_hash h ha] at hs
      split at hs
      · rename_i stored hget
        rw [Except.ok.injEq] at hs
        have hmem : s.hash ∈ hashes := by
          rw [← hs] at hactive
          exact of_decide_eq_true hactive
        obtain ⟨i, hi⟩ := List.mem_iff_getElem?.mp ((mem_hashes_iff h ha hget).mp hmem)
        obtain ⟨hash', hhashes, hhash, hheight⟩ := ha.linked.getElem i hi
        rw [(h.store.txids hget).1, Except.ok.injEq] at hhash
        refine ⟨i, ?_, s.hash, stored, hhash ▸ hhashes, hi, hget, hs.symm⟩
        rw [← hs, summaryOf, hheight, Int.zero_add]
      · cases hs
  · simp only [blockSummary_height h ha]
    constructor
    · rintro ⟨_, i, rfl, _, stored, -, hb, -⟩
      obtain ⟨hi, -⟩ := List.getElem?_eq_some_iff.mp hb
      omega
    · rintro ⟨hnn, hlt⟩
      obtain ⟨i, rfl⟩ := Int.eq_ofNat_of_zero_le hnn
      have hi : i < a.blocks.length := by omega
      have hb := List.getElem?_eq_getElem hi
      obtain ⟨hash, hhashes, hhash, -⟩ := ha.linked.getElem i hb
      have hmem : a.blocks[i] ∈ active.map (·.block) := hblocks ▸ List.getElem_mem hi
      obtain ⟨stored, hstored, he⟩ := List.mem_map.mp hmem
      rw [← he] at hb hhash
      exact ⟨_, i, rfl, hash, stored, hhashes, hb, hread stored hstored hash hhash, rfl⟩
  · obtain ⟨i, rfl, hash, stored, hhashes, hb, hget, rfl⟩ := (blockSummary_height h ha _).mp hs
    obtain ⟨j, hj, hash', stored', hhashes', hb', hget', rfl⟩ := (blockSummary_height h ha _).mp hs'
    obtain rfl : j = i + 1 := by omega
    have hactive : ∀ {i hash stored}, a.blocks[i]? = some stored.block → n.disk.store.getBlock hash = .ok stored →
        active[i]? = some stored := fun {i hash stored} hb hget => by
      rw [hblocks, List.getElem?_map] at hb
      obtain ⟨s, hs, he⟩ := Option.map_eq_some_iff.mp hb
      have hget' := hread s (List.mem_of_getElem? hs) hash (he ▸ (h.store.txids hget).1)
      rw [hget, Except.ok.injEq] at hget'
      rw [hs, hget']
    obtain ⟨hi, he⟩ := List.getElem?_eq_some_iff.mp (hactive hb hget)
    obtain ⟨hi', he'⟩ := List.getElem?_eq_some_iff.mp (hactive hb' hget')
    have hlink := hlinks.getElem i hi'
    have hwork := hworks.getElem i hi'
    rw [he, he'] at hlink hwork
    rw [(h.store.txids hget).1, Except.ok.injEq] at hlink
    exact ⟨hlink.symm, hwork⟩

end

/-- Whatever the calls were, summaries by height and by hash tell of the same blocks, which follow each other. -/
theorem blockSummary_agrees (calls : List Call) (n : ConsensusNode) (hn : World.after calls = .up n) :
    ∃ a, n.forkChoice.activeChain n.disk.store = .ok a ∧ BlocksTold n a := by
  obtain ⟨chain, a, hashes, ha⟩ := (nodeOk_after hn).activeHeaders
  exact ⟨a, ha.active, blocksTold (nodeOk_after hn) ha⟩

/-! ## Rows of the mempool -/

/-- The row of a transaction of `size` bytes, with what trying it gave. -/
def pendingRow (t : ConsensusTransaction) (size : Int) (entry : Option (Int × Int)) : PendingSummary :=
  ⟨txidOf t, t.inputs.length, t.outputs.length, outputTotal t.outputs, entry.map Prod.fst, entry.map Prod.snd, size,
    entry.isSome⟩

/-- An entry that applies has a fee, and a rate too. -/
theorem tryEntry_of_ok {s s' : ConsensusState} {t : ConsensusTransaction} {size fee : Int} (hc : t.isCoinbase = false)
    (hsize : 0 < size) (happ : s.applyTransaction t = .ok (fee, s')) :
    ConsensusNode.tryEntry s t size = (some (fee, fee * 1000 / size), s') := by
  obtain ⟨txid, hsp⟩ := (applyTransaction_eq_ok hc).mp happ
  have hfee := hsp.fee_nonneg
  have hrate : MempoolPolicy.feeRate fee size = .ok (fee * 1000 / size) := by
    rw [MempoolPolicy.feeRate, raiseIf_of_not (by omega), ok_bind, raiseIf_of_not (by omega)]
    rfl
  simp only [ConsensusNode.tryEntry, happ, hrate]

theorem summarizeEntries_eq_ok {ts : List ConsensusTransaction} (ht : ∀ t ∈ ts, t.txid = .ok (txidOf t))
    (hc : ∀ t ∈ ts, t.isCoinbase = false) (s : ConsensusState) :
    ∃ rows, ConsensusNode.summarizeEntries s ts = .ok rows ∧ rows.map (·.txid) = ts.map txidOf ∧
      (∀ row ∈ rows, row.valid = row.fee.isSome) ∧
      ∀ fees : List Int, rows.map (·.fee) = fees.map some ↔ ∃ s', applyEach s ts = .ok (fees, s') := by
  induction ts generalizing s with
  | nil =>
    refine ⟨[], rfl, rfl, fun _ h => absurd h List.not_mem_nil, fun fees => ?_⟩
    rw [List.map_nil, eq_comm, List.map_eq_nil_iff]
    constructor
    · rintro rfl
      exact ⟨s, rfl⟩
    · rintro ⟨s', h⟩
      rw [applyEach, Except.ok.injEq, Prod.mk.injEq] at h
      exact h.1.symm
  | cons t ts ih =>
    rw [List.forall_mem_cons] at ht hc
    obtain ⟨bs, hbs, -⟩ := bind_eq_ok.mp ht.1
    have hlen := List.length_pos_iff.mpr (toBytes_ne_nil hbs)
    have hsize : MempoolPolicy.serializedSize t = .ok bs.length := by rw [MempoolPolicy.serializedSize, hbs]; rfl
    obtain ⟨rows, hrows, htxids, hvalid, hfees⟩ := ih ht.2 hc.2 (ConsensusNode.tryEntry s t bs.length).2
    refine ⟨pendingRow t bs.length (ConsensusNode.tryEntry s t bs.length).1 :: rows, ?_, ?_, ?_, fun fees => ?_⟩
    · rw [ConsensusNode.summarizeEntries, hsize, ok_bind]
      simp only [ht.1, hrows, ok_bind]
      rfl
    · rw [List.map_cons, List.map_cons, htxids]
      rfl
    · exact List.forall_mem_cons.mpr ⟨(Option.isSome_map ..).symm, hvalid⟩
    · rw [List.map_cons]
      cases happ : s.applyTransaction t with
      | error e =>
        have htry : ConsensusNode.tryEntry s t bs.length = (none, s) := by simp only [ConsensusNode.tryEntry, happ]
        rw [htry]
        constructor
        · intro he
          cases fees <;> cases he
        · rintro ⟨s', h⟩
          obtain ⟨fee, rest, s₁, happ', -⟩ := applyEach_cons.mp h
          rw [happ] at happ'
          cases happ'
      | ok applied =>
        obtain ⟨fee, s₁⟩ := applied
        rw [tryEntry_of_ok hc.1 (by omega) happ] at hfees ⊢
        constructor
        · intro he
          obtain ⟨fee', rest, rfl, hfee, hrest⟩ := List.map_eq_cons_iff.mp he.symm
          obtain ⟨s', hs'⟩ := (hfees rest).mp hrest.symm
          obtain rfl := Option.some.inj hfee
          exact ⟨s', applyEach_cons.mpr ⟨_, _, s₁, happ, hs', rfl⟩⟩
        · rintro ⟨s', h⟩
          obtain ⟨fee', rest, s₂, happ', hrest, rfl⟩ := applyEach_cons.mp h
          rw [happ, Except.ok.injEq, Prod.mk.injEq] at happ'
          obtain ⟨rfl, rfl⟩ := happ'
          rw [List.map_cons, (hfees rest).mpr ⟨s', hrest⟩]
          rfl

/-- What `mempool_summary` returns on a node. -/
structure PendingTold (n : ConsensusNode) (rows : List PendingSummary) : Prop where
  rows_eq : n.mempoolSummary = .ok rows
  txids : rows.map (·.txid) = n.mempool.map txidOf
  valid_iff : (∀ row ∈ rows, row.valid = true) ↔ Applies n.state n.mempool
  pays : (∀ row ∈ rows, row.valid = true) → ∀ minerAddress timestamp b, n.buildCandidateBlock minerAddress timestamp = .ok b →
    b.transactions.tail.Perm n.mempool ∧ ∃ height, b.transactions.head? =
      some (minerCoinbase minerAddress (n.state.blockSubsidy + (rows.map fun row => row.fee.getD 0).sum) height)

theorem pendingTold {n : ConsensusNode} (h : NodeOk n) (hsync : Synced n) : ∃ rows, PendingTold n rows := by
  have hc : ∀ t ∈ n.mempool, t.isCoinbase = false := fun t ht => (hsync.pending t ht).notCoinbase
  obtain ⟨rows, hrows, htxids, hvalid, hfees⟩ := summarizeEntries_eq_ok h.mempool.txid hc n.state
  -- Rows that are all valid have the fees of a replay.
  have hall : (∀ row ∈ rows, row.valid = true) ↔ ∃ fees : List Int, rows.map (·.fee) = fees.map some := by
    constructor
    · intro hv
      refine ⟨rows.map fun row => row.fee.getD 0, ?_⟩
      rw [List.map_map]
      refine List.map_congr_left fun row hrow => ?_
      obtain ⟨fee, hfee⟩ := Option.isSome_iff_exists.mp ((hvalid row hrow).symm.trans (hv row hrow))
      simp [hfee]
    · rintro ⟨fees, he⟩ row hrow
      have hmem : row.fee ∈ fees.map some := he ▸ List.mem_map_of_mem hrow
      obtain ⟨fee, -, hfee⟩ := List.mem_map.mp hmem
      rw [hvalid row hrow, ← hfee]
      rfl
  refine ⟨rows, hrows, htxids, hall.trans (exists_congr hfees), fun hv minerAddress timestamp b hb => ?_⟩
  obtain ⟨fees, he⟩ := hall.mp hv
  obtain ⟨s', happ⟩ := (hfees fees).mp he
  obtain ⟨selected, fees', s, height, hperm, happ', -, -, -, -, -, -, -, htxs, -⟩ := buildCandidateBlock_eq_ok hb
  obtain ⟨hsum, -⟩ := applyEach_confluent hc h.mempool happ happ' hperm
  obtain ⟨-, -, hparams⟩ := applyEach_total (fun t ht => hc t (hperm.mem_iff.mp ht)) happ'
  have hfee : (rows.map fun row => row.fee.getD 0) = fees := by
    have hmap := congrArg (List.map fun fee : Option Int => fee.getD 0) he
    rw [List.map_map, List.map_map] at hmap
    exact hmap.trans (List.map_id' fees)
  rw [htxs, List.tail_cons, List.head?_cons, hfee, hsum, show s.blockSubsidy = n.state.blockSubsidy by rw [hparams]]
  exact ⟨hperm, _, rfl⟩

/-- The rows of the mempool show the fees that a block of all that is pending pays its miner, when all are valid; under the
default policy they are, in every run whose calls return. -/
theorem mempoolSummary_pays (calls : List Call) (n : ConsensusNode) (hn : World.after calls = .up n) :
    ∃ rows, PendingTold n rows ∧ ((World.down Disk.empty).AllReturn calls → (∀ p, .setPolicy p ∈ calls → p = {}) →
      ∀ row ∈ rows, row.valid = true) := by
  obtain ⟨rows, hrows⟩ := pendingTold (nodeOk_after hn) (synced_after hn)
  exact ⟨rows, hrows, fun hret hdefault => hrows.valid_iff.mpr (relayed_after hret hdefault hn).relays.applies⟩

/-! ## Summaries of transactions -/

omit [Ed25519] in
theorem findTransaction_eq {txid : Str} {ts : List ConsensusTransaction} (h : ∀ t ∈ ts, t.txid = .ok (txidOf t)) :
    ConsensusNode.findTransaction txid ts = .ok (ts.find? fun t => txidOf t = txid) := by
  induction ts with
  | nil => rfl
  | cons t ts ih =>
    rw [List.forall_mem_cons] at h
    rw [ConsensusNode.findTransaction, h.1, ok_bind, ih h.2]
    by_cases he : txidOf t = txid
    · rw [if_pos he, List.find?_cons_of_pos (by simpa using he)]
      rfl
    · rw [if_neg he, List.find?_cons_of_neg (by simpa using he)]

omit [Ed25519] in
/-- The first block that lists a txid. -/
theorem findConfirmed_eq (txid : Str) {bs : List ConsensusBlock} (h : ∀ b ∈ bs, ∀ t ∈ b.transactions, t.txid = .ok (txidOf t)) :
    (ConsensusNode.findConfirmed txid bs = .ok none ∧ ∀ b ∈ bs, txid ∉ b.transactions.map txidOf) ∨
    ∃ (i : Nat) (b : ConsensusBlock) (t : ConsensusTransaction), ConsensusNode.findConfirmed txid bs = .ok (some (b, t)) ∧
      bs[i]? = some b ∧ t ∈ b.transactions ∧ txidOf t = txid ∧
      ∀ (j : Nat) b', j < i → bs[j]? = some b' → txid ∉ b'.transactions.map txidOf := by
  induction bs with
  | nil => exact .inl ⟨rfl, fun _ h => absurd h List.not_mem_nil⟩
  | cons b bs ih =>
    rw [List.forall_mem_cons] at h
    rw [ConsensusNode.findConfirmed, findTransaction_eq h.1, ok_bind]
    cases hf : b.transactions.find? fun t => txidOf t = txid with
    | some t =>
      have htxid : txidOf t = txid := by simpa using List.find?_some hf
      exact .inr ⟨0, b, t, rfl, rfl, List.mem_of_find?_eq_some hf, htxid, fun j _ hj => absurd hj (Nat.not_lt_zero j)⟩
    | none =>
      have hno : txid ∉ b.transactions.map txidOf := by simpa using hf
      rcases ih h.2 with ⟨hnone, hall⟩ | ⟨i, b', t, hsome, hi, ht, htxid, hfirst⟩
      · exact .inl ⟨hnone, List.forall_mem_cons.mpr ⟨hno, hall⟩⟩
      · refine .inr ⟨i + 1, b', t, hsome, hi, ht, htxid, fun j b'' hj hb'' => ?_⟩
        cases j with
        | zero =>
          rw [List.getElem?_cons_zero, Option.some.injEq] at hb''
          exact hb'' ▸ hno
        | succ j => exact hfirst j b'' (by omega) hb''

/-- A block of the active chain lists the txid, as `block_summary` tells. -/
def Lists (n : ConsensusNode) (txid : Str) (height : Int) : Prop :=
  ∃ b, n.blockSummary none (some height) = .ok b ∧ txid ∈ b.transactions

/-- What `transaction_summary` may give for a txid, next to the other summaries. -/
inductive TransactionTold (n : ConsensusNode) (rows : List PendingSummary) (txid : Str) :
    Except PyError TransactionSummary → Prop
  | confirmed {s : TransactionSummary} {b : BlockSummary} : s.txid = txid → s.status = .confirmed →
    n.blockSummary none (some b.height) = .ok b → txid ∈ b.transactions → s.blockHash = some b.hash →
    s.height = some b.height → (∀ height, Lists n txid height → b.height ≤ height) → TransactionTold n rows txid (.ok s)
  | mempool {s : TransactionSummary} : s.txid = txid → s.status = .mempool → (∀ height, ¬ Lists n txid height) →
    txid ∈ rows.map (·.txid) → s.coinbase = false → s.blockHash = none → s.height = none →
    TransactionTold n rows txid (.ok s)
  | unknown : (∀ height, ¬ Lists n txid height) → txid ∉ rows.map (·.txid) →
    TransactionTold n rows txid (.error (consensusNodeError ("unknown transaction: " ++ String.ofList txid)))

section

variable {n : ConsensusNode} {chain : List StoredConsensusBlock} {a : ActiveChain} {hashes : List Str}

theorem lists_iff (h : NodeOk n) (ha : ActiveHeaders n chain a hashes) {txid : Str} {height : Int} :
    Lists n txid height ↔ ∃ (i : Nat) (b : ConsensusBlock), height = i ∧ a.blocks[i]? = some b ∧
      txid ∈ b.transactions.map txidOf := by
  simp only [Lists, blockSummary_height h ha]
  constructor
  · rintro ⟨_, ⟨i, rfl, hash, stored, -, hb, -, rfl⟩, hmem⟩
    exact ⟨i, _, rfl, hb, hmem⟩
  · rintro ⟨i, b, rfl, hb, hmem⟩
    obtain ⟨hash, hhashes, hhash, -⟩ := ha.linked.getElem i hb
    obtain ⟨active, hblocks, hread, -⟩ := h.store.active_stored ha.active
    obtain ⟨stored, hstored, rfl⟩ := List.mem_map.mp (hblocks ▸ List.mem_of_getElem? hb)
    exact ⟨_, ⟨i, rfl, hash, stored, hhashes, hb, hread stored hstored hash hhash, rfl⟩, hmem⟩

theorem transactionTold (h : NodeOk n) (hsync : Synced n) (ha : ActiveHeaders n chain a hashes) {rows : List PendingSummary}
    (hrows : PendingTold n rows) (txid : Str) : TransactionTold n rows txid (n.transactionSummary txid) := by
  obtain ⟨active, hblocks, hread, -⟩ := h.store.active_stored ha.active
  have htxids : ∀ b ∈ a.blocks, ∀ t ∈ b.transactions, t.txid = .ok (txidOf t) := fun b hb => by
    obtain ⟨hash, hhash⟩ := ha.linked.exists_hash b hb
    obtain ⟨stored, hstored, rfl⟩ := List.mem_map.mp (hblocks ▸ hb)
    exact (h.store.txids (hread stored hstored hash hhash)).2
  rw [ConsensusNode.transactionSummary, ha.active, ok_bind]
  rcases findConfirmed_eq txid htxids with ⟨hnone, hall⟩ | ⟨i, b, t, hsome, hi, ht, rfl, hfirst⟩
  · have hno : ∀ height, ¬ Lists n txid height := fun height hlists => by
      obtain ⟨i, b, -, hb, hmem⟩ := (lists_iff h ha).mp hlists
      exact hall b (List.mem_of_getElem? hb) hmem
    rw [hnone, ok_bind]
    simp only [findTransaction_eq h.mempool.txid, ok_bind]
    cases hf : n.mempool.find? fun t => txidOf t = txid with
    | none =>
      refine .unknown hno ?_
      rw [hrows.txids]
      simpa using hf
    | some t =>
      have hmem := List.mem_of_find?_eq_some hf
      have htxid : txidOf t = txid := by simpa using List.find?_some hf
      simp only [ConsensusNode.describeTransaction, h.mempool.txid t hmem, ok_bind]
      refine .mempool htxid rfl hno ?_ (hsync.pending t hmem).notCoinbase rfl rfl
      rw [hrows.txids, ← htxid]
      exact List.mem_map_of_mem hmem
  · have hb := List.mem_of_getElem? hi
    obtain ⟨hash, hhashes, hhash, hheight⟩ := ha.linked.getElem i hi
    obtain ⟨stored, hstored, rfl⟩ := List.mem_map.mp (hblocks ▸ hb)
    have hget := hread stored hstored hash hhash
    rw [hsome, ok_bind]
    simp only [hhash, ok_bind, ConsensusNode.describeTransaction, htxids _ hb t ht]
    rw [Int.zero_add] at hheight
    refine .confirmed (b := summaryOf hashes hash stored) rfl rfl ?_ (List.mem_map_of_mem ht) rfl rfl fun height hlists => ?_
    · exact (blockSummary_height h ha _).mpr ⟨i, hheight, hash, stored, hhashes, hi, hget, rfl⟩
    · obtain ⟨j, b', rfl, hb', hmem⟩ := (lists_iff h ha).mp hlists
      show stored.block.height ≤ (j : Int)
      by_contra hlt
      exact hfirst j b' (by omega) hb' hmem

end

/-- Whatever the calls were, the summary of a transaction agrees with those of the blocks and of the mempool. -/
theorem transactionSummary_agrees (calls : List Call) (n : ConsensusNode) (hn : World.after calls = .up n) :
    ∃ rows, n.mempoolSummary = .ok rows ∧ ∀ txid, TransactionTold n rows txid (n.transactionSummary txid) := by
  have h := nodeOk_after hn
  have hsync := synced_after hn
  obtain ⟨chain, a, hashes, ha⟩ := h.activeHeaders
  obtain ⟨rows, hrows⟩ := pendingTold h hsync
  exact ⟨rows, hrows.rows_eq, transactionTold h hsync ha hrows⟩

/-! ## A node with a payment pending -/

omit [Ed25519]

theorem blockSummary_agrees_payingNode : let _ := aliceVerify
    ∃ a, payingNode.forkChoice.activeChain payingNode.disk.store = .ok a ∧ BlocksTold payingNode a := by
  intro _
  exact blockSummary_agrees _ payingNode submitted_payingNode

theorem mempoolSummary_pays_payingNode : let _ := aliceVerify
    ∃ rows, PendingTold payingNode rows ∧ ∀ row ∈ rows, row.valid = true := by
  intro _
  obtain ⟨rows, hrows, hvalid⟩ := mempoolSummary_pays _ payingNode submitted_payingNode
  have hcreated : World.after [.create [(aliceAddress, 10)] ⟨0, 50, 1000⟩ 0 1] = .up genesisNode := created_genesisNode
  refine ⟨rows, hrows, hvalid (allReturn_snoc created_returns ?_) fun p hp => ?_⟩
  · show (World.after _).returns _ = true
    rw [hcreated]
    decide +kernel
  · simp at hp

theorem transactionSummary_agrees_payingNode : let _ := aliceVerify
    ∃ rows, payingNode.mempoolSummary = .ok rows ∧
      ∀ txid, TransactionTold payingNode rows txid (payingNode.transactionSummary txid) := by
  intro _
  exact transactionSummary_agrees _ payingNode submitted_payingNode

end BCC.Proof
