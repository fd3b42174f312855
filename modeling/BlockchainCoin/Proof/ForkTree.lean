import BlockchainCoin.Proof.Work

/-!
# The fork store is a forest

However blocks are offered to `put_block`, in whatever order and with whatever it refuses,
the store holds trees of blocks under genesis blocks (`Planted`). So the parent walk of
`chain_to_tip` ends, in a genesis block, and the best tip is a leaf: a block on top of it
would have more work.
-/

namespace BCC.Proof

open BCC.Impl PyError

/-! ## Offers -/

/-- The store after a call of `put_block`, which may refuse the block. -/
def offer (store : ForkStore) (b : ConsensusBlock) : ForkStore :=
  match store.putBlock b with
  | .ok (_, store') => store'
  | .error _ => store

/-- A store whose rows are at the end of branches that begin with a genesis block, of blocks of difficulties that are not
negative. -/
structure Planted (store : ForkStore) : Prop where
  rooted : Rooted store
  genesis : ∀ r ∈ store.blocks, ∀ b, RowOf b r → b.height = 0 → b.previousHash = zeroHash
  difficulty : ∀ r ∈ store.blocks, ∀ b, RowOf b r → 0 ≤ b.difficulty

section

variable {store store' : ForkStore} {b : ConsensusBlock} {hash : Str} {row : BlockRow}

theorem eq_storedBlock_of_newRow {b' : ConsensusBlock} (hrow : store.newRow b hash = .ok row) (hb' : RowOf b' row) :
    b' = storedBlock b := by
  simp only [ForkStore.newRow, encodeConsensusBlock, bind_eq_ok, pure_eq_ok] at hrow
  obtain ⟨_, -, _, ⟨bytes, hbytes, rfl⟩, rfl⟩ := hrow
  have hdata := hb'.data
  rw [decodeConsensusBlock, bytesFromhex, hexDecode_hexEncode] at hdata
  have hstored := fromBytes_toBytes_block hbytes
  have hdata : ConsensusBlock.fromBytes bytes = .ok b' := hdata
  rw [hdata, Except.ok.injEq] at hstored
  exact hstored

theorem Planted.put {stored : StoredConsensusBlock} (h : Planted store) (hd : 0 ≤ b.difficulty)
    (hput : store.putBlock b = .ok (stored, store')) : Planted store' := by
  have hrooted := h.rooted.put hput
  obtain ⟨hash, hhash, ⟨-, rfl, -⟩ | ⟨-, row, hrow, -, rfl, -⟩⟩ := putBlock_eq_ok.mp hput
  · exact h
  refine ⟨hrooted, fun r hr b' hb' h₀ => ?_, fun r hr b' hb' => ?_⟩
  · rcases List.mem_append.mp hr with hr | hr
    · exact h.genesis r hr b' hb' h₀
    · obtain rfl := List.mem_singleton.mp hr
      obtain rfl := eq_storedBlock_of_newRow hrow hb'
      simp only [ForkStore.newRow, bind_eq_ok] at hrow
      obtain ⟨work, hwork, -⟩ := hrow
      rcases newWork_eq_ok hwork with ⟨-, hprev, -⟩ | ⟨hne, -⟩
      · show storedHash b.previousHash = zeroHash
        rw [hprev, isHash_zeroHash.stored]
      · exact absurd h₀ hne
  · rcases List.mem_append.mp hr with hr | hr
    · exact h.difficulty r hr b' hb'
    · obtain rfl := List.mem_singleton.mp hr
      obtain rfl := eq_storedBlock_of_newRow hrow hb'
      exact hd

theorem Planted.offer (h : Planted store) (hd : 0 ≤ b.difficulty) : Planted (offer store b) := by
  unfold Proof.offer
  split
  · rename_i hput
    exact h.put hd hput
  · exact h

theorem Planted.foldl {blocks : List ConsensusBlock} (h : Planted store) (hd : ∀ b ∈ blocks, 0 ≤ b.difficulty) :
    Planted (blocks.foldl Proof.offer store) := by
  induction blocks generalizing store with
  | nil => exact h
  | cons b blocks ih =>
    rw [List.forall_mem_cons] at hd
    exact ih (h.offer hd.1) hd.2

theorem planted_empty (parameters : Option ChainParameters) : Planted ⟨[], parameters⟩ :=
  ⟨⟨List.nodup_nil, nofun⟩, nofun, nofun⟩

end

/-! ## What the tree says of a block -/

section

variable {store : ForkStore} {r : BlockRow} {chain : List StoredConsensusBlock}

/-- The blocks of a branch have the heights from 0 on. -/
theorem Branch.heights (h : Branch store.blocks r chain) : ∀ i (hi : i < chain.length), chain[i].block.height = i := by
  induction h with
  | root _ _ h₀ _ =>
    intro i hi
    obtain rfl : i = 0 := by
      rw [List.length_singleton] at hi
      omega
    exact h₀
  | @child r p b chain _ _ hp _ hh _ ih =>
    intro i hi
    rw [List.length_append, List.length_singleton] at hi
    by_cases hlt : i < chain.length
    · rw [List.getElem_append_left hlt]
      exact ih i hlt
    · obtain rfl : i = chain.length := by omega
      have hlen := hp.length
      rw [List.getElem_concat_length]
      · show b.height = _
        omega
      · rfl

/-- Each block of a branch is the parent of the next. -/
theorem Branch.isChain (h : Branch store.blocks r chain) :
    chain.IsChain fun parent stored => parent.block.hash = .ok stored.block.previousHash := by
  induction h with
  | root => exact .singleton _
  | child _ _ hp hhash _ _ ih =>
    obtain ⟨bp, hbp, hlast, -⟩ := hp.last
    refine List.isChain_append.mpr ⟨ih, .singleton _, fun x hx y hy => ?_⟩
    rw [hlast, Option.mem_some] at hx
    rw [List.head?_cons, Option.mem_some] at hy
    rw [← hx, ← hy, ← hhash]
    exact hbp.hash

/-- The blocks of a branch are read back from the store. -/
theorem Branch.stored (hn : (store.blocks.map (·.hash)).Nodup) (h : Branch store.blocks r chain) :
    ∀ s ∈ chain, ∃ q ∈ store.blocks, RowOf s.block q ∧ store.getBlock q.hash = .ok s := by
  induction h with
  | @root r b hr hb _ _ =>
    intro s hs
    obtain rfl := List.mem_singleton.mp hs
    exact ⟨r, hr, hb, getBlock_of_mem hn hr hb⟩
  | @child r p b chain hr hb _ _ _ _ ih =>
    intro s hs
    rcases List.mem_append.mp hs with hs | hs
    · exact ih s hs
    · obtain rfl := List.mem_singleton.mp hs
      exact ⟨r, hr, hb, getBlock_of_mem hn hr hb⟩

/-- A block is a genesis block, or it is stored on top of its parent. -/
def OnParent (store : ForkStore) (b : ConsensusBlock) : Prop :=
  b.height = 0 ∧ b.previousHash = zeroHash ∨
    ∃ parent, store.getBlock b.previousHash = .ok parent ∧ b.height = parent.block.height + 1

theorem Planted.onParent (h : Planted store) {b : ConsensusBlock} (hb : RowOf b r) (hchain : Branch store.blocks r chain) :
    OnParent store b := by
  have hunique : ∀ {b'}, RowOf b' r → b' = b := fun hb' => Except.ok.inj (hb'.data.symm.trans hb.data)
  cases hchain with
  | root hr hb' h₀ _ =>
    obtain rfl := hunique hb'
    exact .inl ⟨h₀, h.genesis r hr _ hb' h₀⟩
  | child _ hb' hp hhash hh _ =>
    obtain rfl := hunique hb'
    obtain ⟨bp, hbp, -⟩ := hp.last
    refine .inr ⟨_, hhash ▸ getBlock_of_mem h.rooted.nodup hp.mem hbp, ?_⟩
    rw [hh, hbp.height]

/-- Every stored hash is that of a row and of the block it is read back as. -/
theorem Planted.getBlock (h : Planted store) {hash : Str} (hhas : store.hasBlock hash = true) :
    ∃ r ∈ store.blocks, r.hash = hash ∧ ∃ b chain, RowOf b r ∧ Branch store.blocks r chain ∧
      store.getBlock hash = .ok ⟨b, r.cumulativeWork⟩ ∧ chain.getLast? = some ⟨b, r.cumulativeWork⟩ := by
  obtain ⟨r, hr, rfl⟩ := List.mem_map.mp (Table.isSome_lookup.mp hhas)
  obtain ⟨chain, hchain⟩ := h.rooted.branch r hr
  obtain ⟨b, hb, hlast, -⟩ := hchain.last
  exact ⟨r, hr, rfl, b, chain, hb, hchain, getBlock_of_mem h.rooted.nodup hr hb, hlast⟩

theorem hasBlock_of_getBlock {hash : Str} {stored : StoredConsensusBlock} (h : store.getBlock hash = .ok stored) :
    store.hasBlock hash = true := by
  unfold ForkStore.getBlock at h
  rw [ForkStore.hasBlock]
  cases hlookup : Table.lookup BlockRow.hash store.blocks hash with
  | none =>
    rw [hlookup] at h
    cases h
  | some r => rfl

/-- On top of the first row in the order of `best_tip` there is no block. -/
theorem Planted.leaf (h : Planted store) {tip : BlockRow} (hfirst : Table.first BlockRow.better store.blocks = some tip)
    {b : ConsensusBlock} (hr : r ∈ store.blocks) (hb : RowOf b r) (hprev : b.previousHash = tip.hash) : b.height = 0 := by
  obtain ⟨chain, hchain⟩ := h.rooted.branch r hr
  have hunique : ∀ {b'}, RowOf b' r → b' = b := fun hb' => Except.ok.inj (hb'.data.symm.trans hb.data)
  cases hchain with
  | root _ hb' h₀ _ =>
    obtain rfl := hunique hb'
    exact h₀
  | @child _ p b' _ _ hb' hp hhash _ hw =>
    obtain rfl := hunique hb'
    obtain rfl : p = tip := List.inj_on_of_nodup_map h.rooted.nodup hp.mem (Table.first_mem hfirst) (hhash.trans hprev)
    have hle := work_le_of_first hfirst hr
    have hpos := workFor_pos b'
    omega

/-! ## The forest -/

/-- `stored` is what the store has under a hash, and `chain` are its ancestors, from a genesis block on. -/
structure StoredUnder (store : ForkStore) (hash : Str) (stored : StoredConsensusBlock)
    (chain : List StoredConsensusBlock) : Prop where
  getBlock : store.getBlock hash = .ok stored
  blockHash : stored.block.hash = .ok hash
  onParent : OnParent store stored.block
  chainToTip : store.chainToTip hash = .ok chain
  last : chain.getLast? = some stored
  heights : ∀ i (hi : i < chain.length), chain[i].block.height = i
  linked : chain.IsChain fun parent stored => parent.block.hash = .ok stored.block.previousHash
  difficulty : ∀ s ∈ chain, 0 ≤ s.block.difficulty
  work : stored.cumulativeWork = (chain.map fun s => (2 : Int) ^ s.block.difficulty.toNat).sum

/-- `best_tip` returns `tip`. What follows a block on its hash is stored on top of it, genesis blocks apart, which have
no parent. -/
structure IsBestTip (store : ForkStore) (tip : StoredConsensusBlock) (tipHash : Str) : Prop where
  bestTip : store.bestTip = .ok (some tip)
  getBlock : store.getBlock tipHash = .ok tip
  blockHash : tip.block.hash = .ok tipHash
  leaf : ∀ hash child, store.getBlock hash = .ok child → child.block.previousHash = tipHash → child.block.height = 0
  childrenOf : tipHash ≠ zeroHash → store.childrenOf tipHash = .ok []
  work : ∀ hash stored, store.getBlock hash = .ok stored → stored.cumulativeWork ≤ tip.cumulativeWork

theorem Planted.storedUnder (h : Planted store) {hash : Str} (hhas : store.hasBlock hash = true) :
    ∃ stored chain, StoredUnder store hash stored chain := by
  obtain ⟨r, hr, rfl, b, chain, hb, hchain, hget, hlast⟩ := h.getBlock hhas
  refine ⟨⟨b, r.cumulativeWork⟩, chain, hget, hb.hash, h.onParent hb hchain, hchain.chainToTip h.rooted.nodup, hlast,
    hchain.heights, hchain.isChain, fun s hs => ?_, hchain.cumulativeWork_eq⟩
  obtain ⟨q, hq, hs, -⟩ := hchain.stored h.rooted.nodup s hs
  exact h.difficulty q hq s.block hs

theorem Planted.isBestTip (h : Planted store) {tip : BlockRow} (hfirst : Table.first BlockRow.better store.blocks = some tip) :
    ∃ stored, IsBestTip store stored tip.hash := by
  have hmem := Table.first_mem hfirst
  obtain ⟨chain, hchain⟩ := h.rooted.branch tip hmem
  obtain ⟨b, hb, -⟩ := hchain.last
  have hget := getBlock_of_mem h.rooted.nodup hmem hb
  have hrow : ∀ {hash stored}, store.getBlock hash = .ok stored → ∃ r ∈ store.blocks, RowOf stored.block r ∧
      stored.cumulativeWork = r.cumulativeWork := fun hs => by
    obtain ⟨r, hr, rfl, b', _, hb', -, hget', -⟩ := h.getBlock (hasBlock_of_getBlock hs)
    rw [hs, Except.ok.injEq] at hget'
    exact ⟨r, hr, hget' ▸ hb', by rw [hget']⟩
  refine ⟨⟨b, tip.cumulativeWork⟩, ?_, hget, hb.hash, fun _ _ hs hprev => ?_, fun hne => ?_, fun _ _ hs => ?_⟩
  · rw [ForkStore.bestTip, hfirst]
    simp only [hget]
    rfl
  · obtain ⟨r, hr, hr', -⟩ := hrow hs
    exact h.leaf hfirst hr hr' hprev
  · have hnone : (store.blocks.filter fun row => row.previousHash = tip.hash) = [] := by
      rw [List.filter_eq_nil_iff]
      intro r hr hprev
      obtain ⟨_, hchain'⟩ := h.rooted.branch r hr
      obtain ⟨b', hb', -⟩ := hchain'.last
      have hprev : b'.previousHash = tip.hash := hb'.previousHash ▸ of_decide_eq_true hprev
      exact hne (hprev ▸ h.genesis r hr b' hb' (h.leaf hfirst hr hb' hprev))
    rw [ForkStore.childrenOf, hnone]
    rfl
  · obtain ⟨r, hr, -, hw⟩ := hrow hs
    rw [hw]
    exact work_le_of_first hfirst hr

end

/-- However blocks of difficulties that are not negative are offered to an empty store: every block it holds is a genesis
block or on top of its parent, `chain_to_tip` returns the blocks from a genesis block to it, whose work is its cumulative
work, and the best tip is a leaf with the most work. -/
theorem forkStore_forest (parameters : Option ChainParameters) (blocks : List ConsensusBlock)
    (hd : ∀ b ∈ blocks, 0 ≤ b.difficulty) :
    (∀ hash, (blocks.foldl offer ⟨[], parameters⟩).hasBlock hash = true →
      ∃ stored chain, StoredUnder (blocks.foldl offer ⟨[], parameters⟩) hash stored chain) ∧
    ((blocks.foldl offer ⟨[], parameters⟩).blocks = [] ∧ (blocks.foldl offer ⟨[], parameters⟩).bestTip = .ok none ∨
      ∃ tip tipHash, IsBestTip (blocks.foldl offer ⟨[], parameters⟩) tip tipHash) := by
  have h : Planted (blocks.foldl offer ⟨[], parameters⟩) := (planted_empty parameters).foldl hd
  generalize blocks.foldl offer ⟨[], parameters⟩ = store at h ⊢
  refine ⟨fun hash hhas => h.storedUnder hhas, ?_⟩
  cases hfirst : Table.first BlockRow.better store.blocks with
  | none =>
    have hnil := Table.first_eq_none.mp hfirst
    exact .inl ⟨hnil, StoreOk.bestTip_of_nil hnil⟩
  | some tip =>
    obtain ⟨stored, htip⟩ := h.isBestTip hfirst
    exact .inr ⟨stored, tip.hash, htip⟩

theorem forkStore_forest_forked :
    let store := forkedBlocks.foldl offer ⟨[], none⟩
    (∀ hash, store.hasBlock hash = true → ∃ stored chain, StoredUnder store hash stored chain) ∧
    (store.blocks = [] ∧ store.bestTip = .ok none ∨ ∃ tip tipHash, IsBestTip store tip tipHash) :=
  forkStore_forest none forkedBlocks (by decide)

end BCC.Proof
