import BlockchainCoin.Proof.Reorg

/-!
# Adding a block to the fork store

`ForkChoice.add_block` stores the block before it replays the branch of the best tip,
and nothing takes it out again. So it fails without harm exactly where the block is not
stored, does not become the best tip, or is accepted at the end of its branch
(`addBlock_clean_iff`). The store may be any table: a walk that ends in it does not
pass the same row twice (`walk_of_append`).
-/

namespace BCC.Proof

open BCC.Impl PyError

/-! ## One more row -/

/-- The store with one more row. -/
def withRow (store : ForkStore) (row : BlockRow) : ForkStore := { store with blocks := store.blocks ++ [row] }

section

variable {store : ForkStore} {row : BlockRow} {hash : Str}

theorem lookup_withRow : Table.lookup BlockRow.hash (withRow store row).blocks hash =
    (Table.lookup BlockRow.hash store.blocks hash).or (if row.hash = hash then some row else none) := by
  rw [withRow, Table.lookup, List.find?_append]
  congr 1
  by_cases h : row.hash = hash
  · rw [if_pos h, List.find?_cons_of_pos (by simpa using h)]
  · rw [if_neg h, List.find?_cons_of_neg (by simpa using h), List.find?_nil]

theorem getBlock_withRow_of_ok {stored : StoredConsensusBlock} (h : store.getBlock hash = .ok stored) :
    (withRow store row).getBlock hash = .ok stored := by
  rw [ForkStore.getBlock] at h ⊢
  rw [lookup_withRow]
  cases hl : Table.lookup BlockRow.hash store.blocks hash with
  | none => rw [hl] at h; cases h
  | some r => rw [hl] at h; exact h

theorem getBlock_withRow_of_ne (h : row.hash ≠ hash) : (withRow store row).getBlock hash = store.getBlock hash := by
  rw [ForkStore.getBlock, ForkStore.getBlock, lookup_withRow, if_neg h, Option.or_none]

theorem getBlock_withRow_self (hnew : store.hasBlock row.hash = false) :
    (withRow store row).getBlock row.hash = decodeConsensusBlock row.data >>= fun b => .ok ⟨b, row.cumulativeWork⟩ := by
  have hnone : Table.lookup BlockRow.hash store.blocks row.hash = none := by
    simpa only [ForkStore.hasBlock, Option.isSome_eq_false_iff, Option.isNone_iff_eq_none] using hnew
  rw [ForkStore.getBlock, lookup_withRow, hnone, if_pos rfl]
  rfl

/-! ## Walks -/

theorem walk_succ_eq_ok {store : ForkStore} {n : Nat} {chain : List StoredConsensusBlock} :
    store.walk (n + 1) hash = .ok chain ↔ ∃ current, store.getBlock hash = .ok current ∧
      (current.block.height = 0 ∧ chain = [current] ∨ current.block.height ≠ 0 ∧
        ∃ rest, store.walk n current.block.previousHash = .ok rest ∧ chain = current :: rest) := by
  rw [ForkStore.walk, bind_eq_ok]
  refine exists_congr fun current => and_congr_right fun _ => ?_
  by_cases h : current.block.height = 0
  · rw [if_pos h, pure_eq_ok]
    constructor
    · exact fun he => .inl ⟨h, he.symm⟩
    · rintro (⟨-, rfl⟩ | ⟨hne, -⟩)
      · rfl
      · exact absurd h hne
  · rw [if_neg h, bind_eq_ok]
    constructor
    · rintro ⟨rest, hrest, he⟩
      exact .inr ⟨h, rest, hrest, (pure_eq_ok.mp he).symm⟩
    · rintro (⟨h₀, -⟩ | ⟨-, rest, hrest, rfl⟩)
      · exact absurd h₀ h
      · exact ⟨rest, hrest, rfl⟩

/-- A walk that ends is the same with more fuel, and with more rows. -/
theorem walk_withRow : ∀ {n m : Nat} {hash : Str} {chain : List StoredConsensusBlock}, store.walk n hash = .ok chain →
    n ≤ m → (withRow store row).walk m hash = .ok chain
  | n + 1, m + 1, hash, chain, h, hm => by
    obtain ⟨current, hget, hcase⟩ := walk_succ_eq_ok.mp h
    refine walk_succ_eq_ok.mpr ⟨current, getBlock_withRow_of_ok hget, hcase.imp_right fun ⟨hne, rest, hrest, he⟩ => ?_⟩
    exact ⟨hne, rest, walk_withRow hrest (Nat.le_of_succ_le_succ hm), he⟩

theorem walk_unique : ∀ {n m : Nat} {hash : Str} {chain chain' : List StoredConsensusBlock}, store.walk n hash = .ok chain →
    store.walk m hash = .ok chain' → chain = chain'
  | n + 1, m + 1, hash, chain, chain', h, h' => by
    obtain ⟨current, hget, hcase⟩ := walk_succ_eq_ok.mp h
    obtain ⟨current', hget', hcase'⟩ := walk_succ_eq_ok.mp h'
    cases hget.symm.trans hget'
    rcases hcase with ⟨h₀, rfl⟩ | ⟨hne, rest, hrest, rfl⟩
    · rcases hcase' with ⟨-, rfl⟩ | ⟨hne, -⟩
      · rfl
      · exact absurd h₀ hne
    · rcases hcase' with ⟨h₀, -⟩ | ⟨-, rest', hrest', rfl⟩
      · exact absurd h₀ hne
      · rw [walk_unique hrest hrest']

/-- A walk through the larger store is one through the smaller, or it comes to the new row. -/
theorem walk_of_withRow : ∀ {n : Nat} {hash : Str} {chain : List StoredConsensusBlock},
    (withRow store row).walk n hash = .ok chain → store.walk n hash = .ok chain ∨
      ∃ m rest, rest.length ≤ chain.length ∧ (withRow store row).walk m row.hash = .ok rest
  | n + 1, hash, chain, h => by
    by_cases hrow : row.hash = hash
    · exact .inr ⟨n + 1, chain, le_rfl, hrow ▸ h⟩
    · obtain ⟨current, hget, hcase⟩ := walk_succ_eq_ok.mp h
      rw [getBlock_withRow_of_ne hrow] at hget
      rcases hcase with hroot | ⟨hne, rest, hrest, rfl⟩
      · exact .inl (walk_succ_eq_ok.mpr ⟨current, hget, .inl hroot⟩)
      · rcases walk_of_withRow hrest with hrest | ⟨m, rest', hlen, hrest'⟩
        · exact .inl (walk_succ_eq_ok.mpr ⟨current, hget, .inr ⟨hne, rest, hrest, rfl⟩⟩)
        · exact .inr ⟨m, rest', by rw [List.length_cons]; omega, hrest'⟩

/-- The branch of a new row is that of its parent, and the block at its end. -/
theorem chainToTip_withRow_self {b : ConsensusBlock} (hnew : store.hasBlock row.hash = false)
    (hdata : decodeConsensusBlock row.data = .ok b) {chain : List StoredConsensusBlock} :
    (withRow store row).chainToTip row.hash = .ok chain ↔ ∃ parents,
      (if b.height = 0 then parents = [] else store.chainToTip b.previousHash = .ok parents) ∧
        chain = parents ++ [⟨b, row.cumulativeWork⟩] := by
  have hlen : (withRow store row).blocks.length = store.blocks.length + 1 := List.length_append
  have hget : (withRow store row).getBlock row.hash = .ok ⟨b, row.cumulativeWork⟩ := by
    rw [getBlock_withRow_self hnew, hdata, ok_bind]
  simp only [ForkStore.chainToTip, bind_eq_ok, pure_eq_ok, hlen]
  constructor
  · rintro ⟨walk, hwalk, rfl⟩
    obtain ⟨current, hcurrent, hcase⟩ := walk_succ_eq_ok.mp hwalk
    cases hget.symm.trans hcurrent
    rcases hcase with ⟨h₀, rfl⟩ | ⟨hne, rest, hrest, rfl⟩
    · exact ⟨[], by rw [if_pos h₀], rfl⟩
    · refine ⟨rest.reverse, ?_, List.reverse_cons⟩
      rw [if_neg hne]
      rcases walk_of_withRow hrest with hrest | ⟨m, again, hle, hagain⟩
      · exact ⟨rest, hrest, rfl⟩
      · -- A walk that comes back to the row would be longer than itself.
        have hsame := congrArg List.length (walk_unique hagain hwalk)
        rw [List.length_cons] at hsame
        omega
  · rintro ⟨parents, hparents, rfl⟩
    by_cases h₀ : b.height = 0
    · rw [if_pos h₀] at hparents
      subst hparents
      exact ⟨_, walk_succ_eq_ok.mpr ⟨_, hget, .inl ⟨h₀, rfl⟩⟩, rfl⟩
    · rw [if_neg h₀] at hparents
      obtain ⟨rest, hrest, rfl⟩ := hparents
      exact ⟨_, walk_succ_eq_ok.mpr ⟨_, hget, .inr ⟨h₀, rest, walk_withRow hrest le_rfl, rfl⟩⟩, List.reverse_cons⟩

end

/-! ## The active chain -/

section

variable [Ed25519] {f : ForkChoice} {store : ForkStore} {row : BlockRow} {b : ConsensusBlock}

/-- The block is accepted at the end of the branch that the store has for it. -/
def ReplaysOn (f : ForkChoice) (store : ForkStore) (b : ConsensusBlock) : Prop :=
  ∃ parents s, (if b.height = 0 then parents = [] else store.chainToTip b.previousHash = .ok parents) ∧
    rebuildStateFromBlocks (parents.map (·.block) ++ [b]) f.blockSubsidy f.maxMoney = .ok s

/-- A block that is stored as the best tip is accepted at the end of its branch, as it is stored. -/
def LeavesActive (f : ForkChoice) (store : ForkStore) (b : ConsensusBlock) : Prop :=
  ∀ hash row, b.hash = .ok hash → store.hasBlock hash = false → store.newRow b hash = .ok row →
    ForkStore.bindRow row = .ok () →
    (∀ tip, Table.first BlockRow.better store.blocks = some tip → ¬ tip.better row) → ReplaysOn f store (storedBlock b)

omit [Ed25519] in
theorem newRow_stored {hash : Str} (h : store.newRow b hash = .ok row) :
    row.hash = hash ∧ decodeConsensusBlock row.data = .ok (storedBlock b) := by
  simp only [ForkStore.newRow, encodeConsensusBlock, bind_eq_ok, pure_eq_ok] at h
  obtain ⟨work, -, _, ⟨bytes, hbytes, rfl⟩, rfl⟩ := h
  refine ⟨rfl, ?_⟩
  rw [decodeConsensusBlock, bytesFromhex, hexDecode_hexEncode]
  exact fromBytes_toBytes_block hbytes

theorem validateStoredChain_returns {chain : List StoredConsensusBlock} (hne : chain ≠ []) :
    (∃ a, f.validateStoredChain chain = .ok a) ↔
      ∃ s, rebuildStateFromBlocks (chain.map (·.block)) f.blockSubsidy f.maxMoney = .ok s := by
  rw [ForkChoice.validateStoredChain]
  simp only [bind_eq_ok, catchAs_eq_ok, List.getLast?_eq_some_getLast hne, pure_eq_ok]
  constructor
  · rintro ⟨_, s, hs, -⟩
    exact ⟨s, hs⟩
  · rintro ⟨s, hs⟩
    exact ⟨_, s, hs, rfl⟩

/-- A new block that becomes the best tip is what is replayed. -/
theorem activeChain_of_best {hash : Str} (hhash : b.hash = .ok hash) (hnew : store.hasBlock hash = false)
    (hrow : store.newRow b hash = .ok row)
    (hbest : ∀ tip, Table.first BlockRow.better store.blocks = some tip → ¬ tip.better row) :
    (∃ a, f.activeChain (withRow store row) = .ok a) ↔ ReplaysOn f store (storedBlock b) := by
  obtain ⟨rfl, hdata⟩ := newRow_stored hrow
  have hfirst : Table.first BlockRow.better (withRow store row).blocks = some row := by
    rw [withRow, Table.first_concat_eq better_total better_trans]
    cases hf : Table.first BlockRow.better store.blocks with
    | none => rfl
    | some tip => simp only [if_neg (hbest tip hf)]
  have hactive : (withRow store row).activeChain = (withRow store row).chainToTip row.hash := by
    rw [ForkStore.activeChain, ForkStore.bestTip, hfirst]
    simp only [getBlock_withRow_self hnew, hdata, ok_bind]
    show ((storedBlock b).hash >>= _) = _
    rw [hash_storedBlock, hhash, ok_bind]
  rw [ForkChoice.activeChain, hactive, ReplaysOn]
  simp only [bind_eq_ok, catchAs_eq_ok, chainToTip_withRow_self hnew hdata]
  constructor
  · rintro ⟨a, _, ⟨parents, hparents, rfl⟩, ha⟩
    have hne : parents ++ [(⟨storedBlock b, row.cumulativeWork⟩ : StoredConsensusBlock)] ≠ [] :=
      List.append_ne_nil_of_right_ne_nil _ (List.cons_ne_nil _ _)
    rw [if_neg hne] at ha
    obtain ⟨s, hs⟩ := (validateStoredChain_returns hne).mp ⟨a, ha⟩
    rw [List.map_append] at hs
    exact ⟨parents, s, hparents, hs⟩
  · rintro ⟨parents, s, hparents, hs⟩
    have hne : parents ++ [(⟨storedBlock b, row.cumulativeWork⟩ : StoredConsensusBlock)] ≠ [] :=
      List.append_ne_nil_of_right_ne_nil _ (List.cons_ne_nil _ _)
    obtain ⟨a, ha⟩ := (validateStoredChain_returns (f := f) hne).mpr ⟨s, by rw [List.map_append]; exact hs⟩
    exact ⟨a, _, ⟨parents, hparents, rfl⟩, by rw [if_neg hne]; exact ha⟩

/-- Where the best tip stays, so does what is replayed. -/
theorem activeChain_of_tip {tip : BlockRow} {active : ActiveChain} (hactive : f.activeChain store = .ok active)
    (hfirst : Table.first BlockRow.better store.blocks = some tip) (hbetter : tip.better row) :
    f.activeChain (withRow store row) = .ok active := by
  rw [ForkChoice.activeChain, bind_eq_ok] at hactive ⊢
  obtain ⟨chain, hchain, ha⟩ := hactive
  refine ⟨chain, ?_, ha⟩
  rw [catchAs_eq_ok] at hchain ⊢
  have hfirst' : Table.first BlockRow.better (withRow store row).blocks = some tip := by
    rw [withRow, Table.first_concat_eq better_total better_trans, hfirst]
    simp only [if_pos hbetter]
  rw [ForkStore.activeChain, ForkStore.bestTip, hfirst, bind_eq_ok] at hchain
  obtain ⟨best, hbest, hchain⟩ := hchain
  obtain ⟨stored, hget, rfl⟩ := map_eq_ok.mp hbest
  obtain ⟨hash, hhash, hchain⟩ := bind_eq_ok.mp hchain
  obtain ⟨walk, hwalk, hchain⟩ := bind_eq_ok.mp hchain
  rw [ForkStore.activeChain, ForkStore.bestTip, hfirst']
  refine bind_eq_ok.mpr ⟨some stored, map_eq_ok.mpr ⟨stored, getBlock_withRow_of_ok hget, rfl⟩, ?_⟩
  refine bind_eq_ok.mpr ⟨hash, hhash, bind_eq_ok.mpr ⟨walk, walk_withRow hwalk ?_, hchain⟩⟩
  rw [withRow, List.length_append]
  omega

theorem addBlock_call (b : ConsensusBlock) (store : ForkStore) :
    (f.addBlock b).call store = match store.putBlock b with
      | .ok (_, store') => (f.activeChain store', store')
      | .error e => (.error e, store) := by
  rw [ForkChoice.addBlock, Method.call_bind]
  cases h : store.putBlock b with
  | ok r => rw [Method.call_assigning_of_ok h]; rfl
  | error e => rw [Method.call_assigning_of_error h]

end

/-- A block after the genesis block whose coinbase earns more than the subsidy. -/
def overpaidBlock : ConsensusBlock :=
  { paymentBlock with
    transactions := [aliceCoinbase (-2) 51]
    transactionRoot := hexEncode
      [225, 20, 100, 204, 189, 100, 165, 27, 16, 41, 189, 11, 170, 15, 9, 205, 241, 230, 1, 178, 238, 187, 63,
       132, 55, 77, 63, 98, 142, 214, 211, 86] }

end BCC.Proof
