import BlockchainCoin.Impl.Import
import BlockchainCoin.Proof.ForkStore
import BlockchainCoin.Proof.Mempool
import BlockchainCoin.Proof.Raises

/-!
# What holds of a node in every run

`NodeOk` is the invariant of a node and `DiskOk` that of its files: every branch
of the fork store replays, the active state is that of the best branch, and the
mempool and its store hold distinct transactions. Every call keeps them, whether
it returns or raises (`worldOk_after`).

`import_block` is taken apart once, in `importBlock_cases`; what it stores is
in `storeCandidate_eq_ok`.
-/

namespace BCC.Proof

open BCC.Impl BlockProcessor

variable [Ed25519]

/-! ## The invariant -/

/-- The same parameters, and the same UTXO set up to the order of its entries. -/
structure SameState (s s' : ConsensusState) : Prop where
  blockSubsidy : s.blockSubsidy = s'.blockSubsidy
  maxMoney : s.maxMoney = s'.maxMoney
  utxos : s.utxos.sortedEntries = s'.utxos.sortedEntries

omit [Ed25519] in
theorem SameState.refl (s : ConsensusState) : SameState s s := ⟨rfl, rfl, rfl⟩

/-- The active state of a node is that of the best branch of its store. -/
structure NodeOk (n : ConsensusNode) : Prop where
  store : StoreOk n.forkChoice n.disk.store
  parameters : n.disk.store.parameters = some ⟨n.difficulty, n.forkChoice.blockSubsidy, n.forkChoice.maxMoney⟩
  active : ∃ a, n.forkChoice.activeChain n.disk.store = .ok a ∧ SameState n.state a.state
  mempool : DistinctTxids n.mempool
  pool : PoolOk n.disk.mempoolStore

/-- The branches of the files replay with the parameters that are stored beside them. -/
structure DiskOk (d : Disk) : Prop where
  store : d.store.blocks = [] ∨
    ∃ p, d.store.parameters = some p ∧ StoreOk ⟨p.blockSubsidy, p.maxMoney⟩ d.store
  pool : PoolOk d.mempoolStore

theorem NodeOk.disk {n : ConsensusNode} (h : NodeOk n) : DiskOk n.disk :=
  ⟨.inr ⟨_, h.parameters, h.store⟩, h.pool⟩

/-- The invariant of a node or of its files. -/
def WorldOk : World → Prop
  | .down disk => DiskOk disk
  | .up node => NodeOk node

theorem storeOk_nil {f : ForkChoice} {store : ForkStore} (h : store.blocks = []) : StoreOk f store :=
  ⟨by rw [h]; exact List.nodup_nil, fun r hr => absurd (h ▸ hr) List.not_mem_nil⟩

theorem Built.init {subsidy maxMoney : Int} {bs : List ConsensusBlock} {q : Str} {s : ConsensusState}
    (h : Built subsidy maxMoney bs q s) : ∃ s₀, ConsensusState.init ∅ subsidy maxMoney = .ok s₀ := by
  induction h with
  | nil hinit => exact ⟨_, hinit⟩
  | snoc _ _ _ ih => exact ih

/-- The active chain of a store: empty, or the branch of its best row. -/
theorem StoreOk.activeChain_eq_ok {f : ForkChoice} {store : ForkStore} (h : StoreOk f store) {a : ActiveChain}
    (ha : f.activeChain store = .ok a) :
    (store.blocks = [] ∧ a.blocks = [] ∧ ConsensusState.init ∅ f.blockSubsidy f.maxMoney = .ok a.state) ∨
      ∃ r chain, Table.first BlockRow.better store.blocks = some r ∧ Branch store.blocks r chain ∧
        Built f.blockSubsidy f.maxMoney (chain.map (·.block)) r.hash a.state ∧
        a = ⟨chain.map (·.block), a.state, r.cumulativeWork⟩ := by
  cases hf : Table.first BlockRow.better store.blocks with
  | none =>
    have hnil := Table.first_eq_none.mp hf
    have hchain : store.activeChain = .ok [] := by
      rw [ForkStore.activeChain, StoreOk.bestTip_of_nil hnil]
      rfl
    rw [ForkChoice.activeChain, hchain, catchAs_ok, ok_bind, if_pos rfl, bind_eq_ok] at ha
    obtain ⟨s, hs, ha⟩ := ha
    rw [pure_eq_ok] at ha
    subst ha
    exact .inl ⟨hnil, rfl, hs⟩
  | some r =>
    obtain ⟨chain, s, hb, hs, hactive⟩ := h.activeChain hf
    rw [ha, Except.ok.injEq] at hactive
    subst hactive
    exact .inr ⟨r, chain, rfl, hb, hs, rfl⟩

/-- The active state has the parameters of the fork choice. -/
theorem StoreOk.activeChain_params {f : ForkChoice} {store : ForkStore} (h : StoreOk f store) {a : ActiveChain}
    (ha : f.activeChain store = .ok a) : a.state.blockSubsidy = f.blockSubsidy ∧ a.state.maxMoney = f.maxMoney := by
  rcases h.activeChain_eq_ok ha with ⟨-, -, hinit⟩ | ⟨r, chain, -, -, hb, -⟩
  · exact (init_eq_ok hinit).2
  · exact ⟨hb.facts.1, hb.facts.2.1⟩

namespace NodeOk

variable {n : ConsensusNode}

/-- The state has the parameters of the node. -/
theorem params (h : NodeOk n) :
    n.state.blockSubsidy = n.forkChoice.blockSubsidy ∧ n.state.maxMoney = n.forkChoice.maxMoney ∧
      ∃ s₀, ConsensusState.init ∅ n.forkChoice.blockSubsidy n.forkChoice.maxMoney = .ok s₀ := by
  obtain ⟨a, ha, hs⟩ := h.active
  rw [hs.blockSubsidy, hs.maxMoney]
  rcases h.store.activeChain_eq_ok ha with ⟨-, -, hinit⟩ | ⟨r, chain, -, -, hb, -⟩
  · obtain ⟨-, hsub, hmax⟩ := init_eq_ok hinit
    exact ⟨hsub, hmax, a.state, hinit⟩
  · exact ⟨hb.facts.1, hb.facts.2.1, hb.init⟩

end NodeOk

/-! ## Validation and storing -/

/-- `b` passes the checks of `import_block` before `put_block`: as the first block of an empty store, or
on the branch of its parent, whose height is not compared with its own. -/
inductive Candidate (f : ForkChoice) (store : ForkStore) (b : ConsensusBlock) :
    List StoredConsensusBlock → ConsensusState → Prop
  | genesis {s₀ s : ConsensusState} {fees : Int} : b.height = 0 → store.blocks = [] →
      ConsensusState.init ∅ f.blockSubsidy f.maxMoney = .ok s₀ →
      validateCandidate s₀ b 0 zeroHash = .ok (fees, s) → Candidate f store b [] s
  | child {p : BlockRow} {chain : List StoredConsensusBlock} {s₀ s : ConsensusState} {fees : Int} : b.height ≠ 0 →
      p.hash = b.previousHash → Branch store.blocks p chain →
      Built f.blockSubsidy f.maxMoney (chain.map (·.block)) p.hash s₀ →
      validateCandidate s₀ b b.height b.previousHash = .ok (fees, s) → Candidate f store b chain s

/-- `chain_to_tip` returns for the hashes of stored blocks only. -/
theorem StoreOk.chainToTip_eq_ok {f : ForkChoice} {store : ForkStore} (h : StoreOk f store) {tipHash : Str}
    {a : ActiveChain} (ha : f.chainToTip store tipHash = .ok a) :
    ∃ r chain, r.hash = tipHash ∧ Branch store.blocks r chain ∧
      Built f.blockSubsidy f.maxMoney (chain.map (·.block)) r.hash a.state ∧
      a = ⟨chain.map (·.block), a.state, r.cumulativeWork⟩ := by
  obtain ⟨stored, hstored, -⟩ := bind_eq_ok.mp ha
  rw [ForkStore.chainToTip, bind_eq_ok] at hstored
  obtain ⟨_, hwalk, -⟩ := hstored
  rw [ForkStore.walk, bind_eq_ok] at hwalk
  obtain ⟨current, hget, -⟩ := hwalk
  cases hl : Table.lookup BlockRow.hash store.blocks tipHash with
  | none => rw [ForkStore.getBlock, hl] at hget; cases hget
  | some r =>
    obtain ⟨hr, rfl⟩ := (Table.lookup_eq_some h.nodup).mp hl
    obtain ⟨chain, s, hb, hs⟩ := h.branch r hr
    have e := h.chainToTip hb hs
    rw [ha, Except.ok.injEq] at e
    subst e
    exact ⟨r, chain, rfl, hb, hs, rfl⟩

theorem bestTip_isSome {f : ForkChoice} {store : ForkStore} (h : StoreOk f store) :
    ∃ tip, store.bestTip = .ok tip ∧ (tip.isSome = true ↔ store.blocks ≠ []) := by
  cases hf : Table.first BlockRow.better store.blocks with
  | none =>
    have hnil := Table.first_eq_none.mp hf
    exact ⟨none, StoreOk.bestTip_of_nil hnil, by simp [hnil]⟩
  | some r =>
    obtain ⟨b, -, hbest⟩ := h.bestTip hf
    exact ⟨_, hbest, by simpa using fun e => by rw [e] at hf; cases hf⟩

theorem validateImportCandidate_eq_ok {n : ConsensusNode} (h : NodeOk n) {b : ConsensusBlock} :
    n.validateImportCandidate b = .ok () ↔ ∃ chain s, Candidate n.forkChoice n.disk.store b chain s := by
  obtain ⟨hsub, hmax, s₀, hinit⟩ := h.params
  obtain ⟨tip, htip, hsome⟩ := bestTip_isSome h.store
  rw [ConsensusNode.validateImportCandidate]
  by_cases h₀ : b.height = 0
  · rw [if_pos h₀, htip, ok_bind, hsub, hmax, hinit]
    simp only [bind_eq_ok, exists_unit, raiseIf_eq_ok, hsome, not_not, Except.ok.injEq, exists_eq_left',
      Prod.exists, Method.onLocal_eq_ok, applyBlock_eq_ok, pure_eq_ok, and_true]
    constructor
    · rintro ⟨hnil, f, s, hv⟩
      exact ⟨[], s, .genesis h₀ hnil hinit hv⟩
    · rintro ⟨chain, s, hc⟩
      cases hc with
      | genesis _ hnil hinit' hv =>
        rw [hinit, Except.ok.injEq] at hinit'
        subst hinit'
        exact ⟨hnil, _, _, hv⟩
      | child hne => exact absurd h₀ hne
  · rw [if_neg h₀]
    simp only [bind_eq_ok, catchAs_eq_ok, Prod.exists, Method.onLocal_eq_ok, applyBlock_eq_ok, pure_eq_ok,
      and_true]
    constructor
    · rintro ⟨a, ha, f, s, hv⟩
      obtain ⟨r, chain, hr, hb, hs, -⟩ := h.store.chainToTip_eq_ok ha
      exact ⟨chain, s, .child h₀ hr hb hs hv⟩
    · rintro ⟨chain, s, hc⟩
      cases hc with
      | genesis h₁ => exact absurd h₁ h₀
      | child _ hr hb hs hv => exact ⟨_, hr ▸ h.store.chainToTip hb hs, _, _, hv⟩

/-- A candidate whose row can be made extends the store: `put_block` compares the heights. -/
theorem Candidate.extends {f : ForkChoice} {store : ForkStore} {b : ConsensusBlock}
    {chain : List StoredConsensusBlock} {s : ConsensusState} {hash : Str} {row : BlockRow}
    (hok : StoreOk f store) (hc : Candidate f store b chain s) (hhash : b.hash = .ok hash)
    (hrow : store.newRow b hash = .ok row) : Extends f store b chain s := by
  cases hc with
  | genesis h₀ hnil hinit hv =>
    obtain ⟨c, rest, s₁, hcheck, -⟩ := validateCandidate_eq_ok.mp hv
    obtain ⟨-, hprev, -⟩ := checkBlock_eq_ok.mp hcheck
    exact ⟨.inl ⟨h₀, hnil, hprev, rfl⟩, hash, .snoc (.nil hinit) hv hhash⟩
  | @child p _ s₀ _ fees hne hp hb hs hv =>
    refine ⟨.inr ⟨p, hp, hb⟩, hash, .snoc (f := fees) hs ?_ hhash⟩
    obtain ⟨work, hwork, -⟩ := bind_eq_ok.mp hrow
    rcases newWork_eq_ok hwork with ⟨h₀, -⟩ | ⟨-, parent, hget, hheight, -⟩
    · exact absurd h₀ hne
    · obtain ⟨bp, hbp, -⟩ := hb.last
      rw [← hp, getBlock_of_mem hok.nodup hb.mem hbp, Except.ok.injEq] at hget
      subst hget
      have hlen := hb.length
      rw [hbp.height] at hlen
      rw [List.length_map, hlen, ← hheight, hp]
      exact hv

/-- The transactions of a candidate have txids. -/
theorem Candidate.txids {f : ForkChoice} {store : ForkStore} {b : ConsensusBlock}
    {chain : List StoredConsensusBlock} {s : ConsensusState} (hc : Candidate f store b chain s) :
    (b.transactions.mapM fun t => t.txid) = .ok (b.transactions.map txidOf) := by
  have key : ∀ {s₀ s : ConsensusState} {h : Int} {p : Str} {fees : Int},
      validateCandidate s₀ b h p = .ok (fees, s) → ∀ t ∈ b.transactions, t.txid = .ok (txidOf t) :=
    fun hv t ht => by
      obtain ⟨u, hg⟩ := (validateCandidate_run hv).guarded t (mem_appliedOrder.mpr ht)
      exact hg.txid_eq
  rw [mapM_eq_ok, List.forall₂_map_right_iff, List.forall₂_same]
  cases hc with
  | genesis _ _ _ hv => exact key hv
  | child _ _ _ _ hv => exact key hv

/-- The node with another fork store. -/
def withStore (n : ConsensusNode) (store : ForkStore) : ConsensusNode :=
  { n with disk := { n.disk with store := store } }

/-- What `put_block` does to the store with a candidate: nothing when the hash is there, else one row
that ends a branch. -/
inductive Stores (f : ForkChoice) (store : ForkStore) (b : ConsensusBlock) (hash : Str) :
    StoredConsensusBlock → ForkStore → Prop
  | known {stored : StoredConsensusBlock} : hash ∈ store.blocks.map (·.hash) → store.getBlock hash = .ok stored →
      Stores f store b hash stored store
  | new {chain : List StoredConsensusBlock} {s : ConsensusState} {row : BlockRow} :
      hash ∉ store.blocks.map (·.hash) → Extends f store b chain s → store.newRow b hash = .ok row →
      ForkStore.bindRow row = .ok () →
      Stores f store b hash ⟨b, row.cumulativeWork⟩ { store with blocks := store.blocks ++ [row] }

theorem storeCandidate_eq_ok {n n' : ConsensusNode} {b : ConsensusBlock} {stored : StoredConsensusBlock} {hash : Str}
    (h : NodeOk n) (hhash : b.hash = .ok hash) :
    (ConsensusNode.storeCandidate b).call n = (.ok stored, n') ↔
      ∃ store, (∃ chain s, Candidate n.forkChoice n.disk.store b chain s) ∧
        Stores n.forkChoice n.disk.store b hash stored store ∧ n' = withStore n store := by
  rw [ConsensusNode.storeCandidate, Method.call_assigning_eq_ok]
  simp only [bind_eq_ok, exists_unit, validateImportCandidate_eq_ok h, pure_eq_ok, Prod.exists, Prod.mk.injEq,
    putBlock_eq_ok, hhash, Except.ok.injEq, exists_eq_left']
  constructor
  · rintro ⟨⟨chain, s, hc⟩, _, store, hput, rfl, rfl⟩
    refine ⟨store, ⟨chain, s, hc⟩, ?_, rfl⟩
    rcases hput with ⟨hmem, rfl, hget⟩ | ⟨hmem, row, hrow, hbind, rfl, rfl⟩
    · exact .known hmem hget
    · exact .new hmem (hc.extends h.store hhash hrow) hrow hbind
  · rintro ⟨store, hc, hst, rfl⟩
    refine ⟨hc, stored, store, ?_, rfl, rfl⟩
    cases hst with
    | known hmem hget => exact .inl ⟨hmem, rfl, hget⟩
    | new hmem _ hrow hbind => exact .inr ⟨hmem, _, hrow, hbind, rfl, rfl⟩

/-- Reading a block of the store returns, or finds that there is none. -/
theorem StoreOk.getBlock_raises {f : ForkChoice} {store : ForkStore} (h : StoreOk f store) (hash : Str) :
    Raises (PyError.isStorageError ·) (store.getBlock hash) := by
  cases hl : Table.lookup BlockRow.hash store.blocks hash with
  | none =>
    rw [ForkStore.getBlock, hl]
    exact .error rfl
  | some r =>
    obtain ⟨hr, rfl⟩ := (Table.lookup_eq_some h.nodup).mp hl
    obtain ⟨b, -, hget⟩ := h.getBlock hr
    rw [hget]
    exact .ok _

theorem StoreOk.chainToTip_raises {f : ForkChoice} {store : ForkStore} (h : StoreOk f store) (tipHash : Str) :
    Raises (PyError.isStorageError ·) (f.chainToTip store tipHash) := by
  cases hl : Table.lookup BlockRow.hash store.blocks tipHash with
  | none =>
    have hget : store.getBlock tipHash =
        .error (.storageError ("unknown block: " ++ String.ofList tipHash)) := by rw [ForkStore.getBlock, hl]
    rw [ForkChoice.chainToTip, ForkStore.chainToTip, ForkStore.walk, hget]
    exact .error rfl
  | some r =>
    obtain ⟨hr, rfl⟩ := (Table.lookup_eq_some h.nodup).mp hl
    obtain ⟨chain, s, hb, hs⟩ := h.branch r hr
    rw [h.chainToTip hb hs]
    exact .ok _

theorem applyBlock_raises (s : ConsensusState) (b : ConsensusBlock) (h : Int) (p : Str) :
    Raises (ofValidation ·) ((applyBlock b h p).onLocal s) := by
  intro e he
  cases hv : validateCandidate s b h p with
  | error e' =>
    rw [Method.onLocal, applyBlock_of_error hv, Except.error.injEq] at he
    exact he ▸ validateCandidate_raises s b h p e' hv
  | ok r =>
    rw [Method.onLocal_eq_ok.mpr (applyBlock_eq_ok.mpr hv)] at he
    cases he

/-- Validating and storing a block always ends. -/
theorem storeCandidate_ends {n n' : ConsensusNode} (h : NodeOk n) (b : ConsensusBlock) :
    (ConsensusNode.storeCandidate b).call n ≠ (.error .endless, n') := by
  have hvalid : ∀ e, ofValidation e = true → e ≠ .endless := fun e he hend => by rw [hend] at he; cases he
  have hstorage : ∀ e, PyError.isStorageError e = true → e ≠ .endless := fun e he hend => by rw [hend] at he; cases he
  have hcandidate : Raises (· ≠ PyError.endless) (n.validateImportCandidate b) := by
    obtain ⟨hsub, hmax, s₀, hinit⟩ := h.params
    obtain ⟨tip, htip, -⟩ := bestTip_isSome h.store
    unfold ConsensusNode.validateImportCandidate
    split
    · rw [htip, hsub, hmax, hinit]
      exact .bind (.ok _) fun _ => .bind (.raiseIf (by simp)) fun _ => .bind (.ok _) fun _ =>
        .bind ((applyBlock_raises _ _ _ _).mono hvalid) fun _ => .pure _
    · refine .bind (fun e he => ?_) fun _ => .bind ((applyBlock_raises _ _ _ _).mono hvalid) fun _ => .pure _
      cases hc : n.forkChoice.chainToTip n.disk.store b.previousHash with
      | ok a => rw [hc] at he; cases he
      | error e' =>
        have he' := h.store.chainToTip_raises _ e' hc
        rw [hc, catchAs, if_pos he', Except.error.injEq] at he
        subst he
        simp
  have hput : Raises (· ≠ PyError.endless) (n.disk.store.putBlock b) := by
    have hint : ∀ value, Raises (· ≠ PyError.endless) (bindInt value) := fun _ => .raiseIf (by simp)
    have hget : ∀ hash, Raises (· ≠ PyError.endless) (n.disk.store.getBlock hash) := fun hash =>
      (h.store.getBlock_raises hash).mono hstorage
    refine .bind ((hash_raises b).mono hvalid) fun hash => ?_
    split
    · exact .bind (hget hash) fun _ => .pure _
    · refine .bind (.bind ?_ fun work => ?_) fun row => ?_
      · unfold ForkStore.newWork
        split
        · exact .bind (.raiseIf (by simp)) fun _ => .pure _
        · exact .bind (hget _) fun _ => .bind (.raiseIf (by simp)) fun _ => .pure _
      · exact .bind (.bind ((toBytes_block_raises b).mono hvalid) fun _ => .pure _) fun _ => .pure _
      · refine .bind (.bind (.bind (hint _) fun _ => .bind (hint _) fun _ => hint _) fun _ => ?_) fun _ => .pure _
        exact .bind (.raiseIf (by simp)) fun _ => .pure _
  intro hcall
  rw [ConsensusNode.storeCandidate, Method.call, Method.assigning] at hcall
  split at hcall
  · cases hcall
  · rename_i e he
    rw [Prod.mk.injEq, Except.error.injEq] at hcall
    refine (?_ : Raises (· ≠ PyError.endless) _) e he hcall.1
    exact .bind hcandidate fun _ => .bind hput fun _ => .pure _

namespace Stores

variable {f : ForkChoice} {store store' : ForkStore} {b : ConsensusBlock} {hash : Str} {stored : StoredConsensusBlock}

/-- The rows that were there stay. -/
theorem subset (h : Stores f store b hash stored store') : store.blocks ⊆ store'.blocks := by
  cases h with
  | known => exact List.Subset.refl _
  | new => exact List.subset_append_left _ _

theorem parameters (h : Stores f store b hash stored store') : store'.parameters = store.parameters := by
  cases h <;> rfl

theorem storeOk (h : Stores f store b hash stored store') (hok : StoreOk f store) (hhash : b.hash = .ok hash) :
    StoreOk f store' := by
  cases h with
  | known => exact hok
  | new hmem he hrow hbind =>
    exact hok.putBlock he (putBlock_eq_ok.mpr ⟨hash, hhash, .inr ⟨hmem, _, hrow, hbind, rfl, rfl⟩⟩)

/-- Afterwards the hash is in the store, and it is the hash of what is returned. -/
theorem mem (h : Stores f store b hash stored store') (hok : StoreOk f store) (hhash : b.hash = .ok hash) :
    hash ∈ store'.blocks.map (·.hash) ∧ stored.block.hash = .ok hash := by
  cases h with
  | known hmem hget =>
    obtain ⟨r, hr, rfl⟩ := List.mem_map.mp hmem
    obtain ⟨br, hbr, hget'⟩ := hok.getBlock hr
    rw [hget, Except.ok.injEq] at hget'
    subst hget'
    exact ⟨hmem, hbr.hash⟩
  | new hmem he hrow hbind =>
    refine ⟨?_, hhash⟩
    rw [List.map_append, List.map_singleton, (he.newRow hok hhash hrow).1]
    exact List.mem_append_right _ (List.mem_singleton_self _)

end Stores

/-! ## The mempool after a block -/

section Pool

variable {n : ConsensusNode}

/-- The node with another mempool, which is also in the store. -/
def withMempool (n : ConsensusNode) (ts : List ConsensusTransaction) : ConsensusNode :=
  { n with mempool := ts, disk := { n.disk with mempoolStore := ⟨ts.map rowOf⟩ } }

omit [Ed25519] in
theorem saveMempool_call (h : DistinctTxids n.mempool) :
    ConsensusNode.saveMempool.call n = (.ok (), withMempool n n.mempool) := by
  rw [ConsensusNode.saveMempool, Method.call_assigning_eq_ok, replaceAll_eq_ok.mpr ⟨h, rfl⟩]
  rfl

theorem dropIncluded_call {b : ConsensusBlock} {txids : List Str} (h : DistinctTxids n.mempool)
    (hb : (b.transactions.mapM fun t => t.txid) = .ok txids) :
    (ConsensusNode.dropIncluded b).call n = (.ok (), withMempool n
      (keepValid n.mempoolPolicy n.state [] (n.mempool.filter fun t => txidOf t ∉ txids))) := by
  have hf : DistinctTxids (n.mempool.filter fun t => txidOf t ∉ txids) := h.sublist List.filter_sublist
  simp only [ConsensusNode.dropIncluded, Method.call_bind, Method.call_reading, hb, withoutTxids_eq_ok h,
    Method.call_modify, ConsensusNode.pruneInvalidMempool]
  exact saveMempool_call (hf.keepValid _ _)

end Pool

/-! ## Importing -/

section Import

variable {n : ConsensusNode} {b : ConsensusBlock}

/-- The node with a hash in its cache of invalid blocks. -/
def marked (n : ConsensusNode) (hash : Str) (exc : PyError) : ConsensusNode :=
  { n with disk := { n.disk with invalidBlocks := n.disk.invalidBlocks.markInvalid hash exc.message } }

/-- The three ways `import_block` goes: nothing happens, the hash is cached, or the block is in the
store and its branch is activated. -/
inductive Imported (b : ConsensusBlock) (n : ConsensusNode) : Except PyError StoredConsensusBlock × ConsensusNode → Prop
  | refused {e : PyError} : (∀ hash, b.hash = .ok hash → n.disk.invalidBlocks.isInvalid hash = true) →
      Imported b n (.error e, n)
  | rejected {hash : Str} {e : PyError} : b.hash = .ok hash → n.disk.invalidBlocks.isInvalid hash = false →
      (ConsensusNode.storeCandidate b).call n = (.error e, n) → Imported b n (.error e, marked n hash e)
  | stored {hash : Str} {oldTip : Option StoredConsensusBlock} {stored : StoredConsensusBlock} {n₁ n₂ : ConsensusNode}
      {r : Except PyError Unit} : b.hash = .ok hash → n.disk.invalidBlocks.isInvalid hash = false →
      n.disk.store.bestTip = .ok oldTip → (ConsensusNode.storeCandidate b).call n = (.ok stored, n₁) →
      (ConsensusNode.activate oldTip b stored).call n₁ = (r, n₂) → Imported b n ((fun _ => stored) <$> r, n₂)

theorem storeCandidate_error {n' : ConsensusNode} {e : PyError}
    (h : (ConsensusNode.storeCandidate b).call n = (.error e, n')) : n' = n := by
  revert h
  rw [ConsensusNode.storeCandidate, Method.call, Method.assigning]
  split
  · intro h
    cases h
  · intro h
    rw [Prod.mk.injEq] at h
    exact h.2.symm

omit [Ed25519] in
theorem asError_error {α : Type} (e e' : PyError) : ∃ e'', asError (.error e : Except PyError α) e' = .error e'' := by
  rw [asError, catchAs]
  split <;> exact ⟨_, rfl⟩

theorem importBlock_cases (h : NodeOk n) (b : ConsensusBlock) :
    Imported b n ((ConsensusNode.importBlock b).call n) := by
  obtain ⟨oldTip, htip, -⟩ := bestTip_isSome h.store
  rw [ConsensusNode.importBlock]
  simp only [Method.call_bind, Method.call_reading, htip]
  cases hhash : b.hash with
  | error e =>
    obtain ⟨e', he⟩ := asError_error (α := Str) e (.consensusNodeError "block header is invalid")
    simp only [he]
    exact .refused fun hash hh => by rw [hhash] at hh; cases hh
  | ok hash =>
    simp only [asError, catchAs_ok, Method.call_get]
    by_cases hc : n.disk.invalidBlocks.isInvalid hash = true
    · rw [if_pos hc]
      exact .refused fun hash' hh => by rw [hhash, Except.ok.injEq] at hh; exact hh ▸ hc
    · rw [if_neg hc]
      rw [Bool.not_eq_true] at hc
      simp only [Method.call_bind, Method.call_tryCatch]
      rcases hst : (ConsensusNode.storeCandidate b).call n with ⟨e | stored, n₁⟩
      · obtain rfl := storeCandidate_error hst
        have he : e ≠ .endless := fun he => storeCandidate_ends h b (he ▸ hst)
        simp only [he, if_false, Method.call_bind]
        exact .rejected hhash hc hst
      · rcases hact : (ConsensusNode.activate oldTip b stored).call n₁ with ⟨e | u, n₂⟩
        · simp only [hact]
          exact .stored hhash hc htip hst hact
        · simp only [hact]
          exact .stored hhash hc htip hst hact

end Import

/-! ## Every call keeps the invariant -/

section Preserved

variable {n : ConsensusNode}

theorem StoreOk.exists_activeChain {f : ForkChoice} {store : ForkStore} (h : StoreOk f store)
    (hinit : ∃ s₀, ConsensusState.init ∅ f.blockSubsidy f.maxMoney = .ok s₀) : ∃ a, f.activeChain store = .ok a := by
  cases hf : Table.first BlockRow.better store.blocks with
  | none =>
    obtain ⟨s₀, hs₀⟩ := hinit
    exact ⟨_, StoreOk.activeChain_of_nil (Table.first_eq_none.mp hf) hs₀⟩
  | some r =>
    obtain ⟨chain, s, -, -, ha⟩ := h.activeChain hf
    exact ⟨_, ha⟩

theorem NodeOk.withMempool (h : NodeOk n) {ts : List ConsensusTransaction} (hd : DistinctTxids ts) :
    NodeOk (withMempool n ts) :=
  ⟨h.store, h.parameters, h.active, hd, ts, hd, rfl⟩

theorem writeIndex_nodeOk (write : UTXOIndex → Except PyError UTXOIndex) :
    Method.Preserves NodeOk (ConsensusNode.writeIndex write) :=
  .assigning fun h hw => by
    simp only [bind_eq_ok, pure_eq_ok, Prod.mk.injEq] at hw
    obtain ⟨index, -, -, rfl⟩ := hw
    exact ⟨h.store, h.parameters, h.active, h.mempool, h.pool⟩

theorem writeIndexes_nodeOk (active : ActiveChain) (stored : StoredConsensusBlock) :
    Method.Preserves NodeOk (ConsensusNode.writeIndexes active stored) := by
  refine .bind (.reading _) fun storedHash => .bind (.reading _) fun imported => ?_
  refine .bind (writeIndex_nodeOk _) fun _ => .bind (writeIndex_nodeOk _) fun _ => ?_
  exact .bind (.reading _) fun activeHash => .bind (writeIndex_nodeOk _) fun _ => writeIndex_nodeOk _

theorem dropIncluded_nodeOk (b : ConsensusBlock) : Method.Preserves NodeOk (ConsensusNode.dropIncluded b) := by
  intro n h
  cases hb : b.transactions.mapM fun t => t.txid with
  | error e =>
    refine .bind (.reading (fun a ha => ?_) fun _ _ => h)
    rw [hb] at ha
    cases ha
  | ok txids =>
    exact .of_call (dropIncluded_call h.mempool hb)
      (h.withMempool ((h.mempool.sublist List.filter_sublist).keepValid _ _))

/-- A node whose store has just gained a block is as it should be once the branch is activated. -/
theorem activate_nodeOk (h : NodeOk n) {b : ConsensusBlock} {hash : Str} (oldTip : Option StoredConsensusBlock)
    {stored : StoredConsensusBlock} {store : ForkStore} (hhash : b.hash = .ok hash)
    (hst : Stores n.forkChoice n.disk.store b hash stored store) :
    Method.Ends (ConsensusNode.activate oldTip b stored) (withStore n store) (fun _ => NodeOk) fun _ => NodeOk := by
  have hok := hst.storeOk h.store hhash
  obtain ⟨a, ha⟩ := hok.exists_activeChain h.params.2.2
  refine .bind (.of_call (congrArg (·, _) ha) (.bind (.modify ?_)))
  -- From here on the state is that of the active branch.
  have hn : NodeOk { withStore n store with state := a.state } :=
    ⟨hok, hst.parameters.trans h.parameters, ⟨a, ha, .refl _⟩, h.mempool, h.pool⟩
  refine (Method.Preserves.bind (.reading _) fun reorg => .bind (.modify fun m hm => ?_) fun _ =>
    .bind (writeIndexes_nodeOk a stored) fun _ => dropIncluded_nodeOk b) _ hn
  exact ⟨hm.store, hm.parameters, hm.active, hm.mempool, hm.pool⟩

/-- What activating a branch leaves as it is. -/
structure SameChain (n n' : ConsensusNode) : Prop where
  store : n'.disk.store = n.disk.store
  invalidBlocks : n'.disk.invalidBlocks = n.disk.invalidBlocks
  forkChoice : n'.forkChoice = n.forkChoice
  mempoolPolicy : n'.mempoolPolicy = n.mempoolPolicy

theorem activate_sameChain (oldTip : Option StoredConsensusBlock) (b : ConsensusBlock) (stored : StoredConsensusBlock) :
    Method.Preserves (SameChain n) (ConsensusNode.activate oldTip b stored) := by
  have hset : ∀ m n' : ConsensusNode, SameChain n m → n'.disk.store = m.disk.store →
      n'.disk.invalidBlocks = m.disk.invalidBlocks → n'.forkChoice = m.forkChoice →
      n'.mempoolPolicy = m.mempoolPolicy → SameChain n n' := fun m n' h h₁ h₂ h₃ h₄ =>
    ⟨h₁.trans h.store, h₂.trans h.invalidBlocks, h₃.trans h.forkChoice, h₄.trans h.mempoolPolicy⟩
  have hwrite : ∀ write, Method.Preserves (SameChain n) (ConsensusNode.writeIndex write) := fun write =>
    .assigning fun {m a m'} h hw => by
      simp only [bind_eq_ok, pure_eq_ok, Prod.mk.injEq] at hw
      obtain ⟨index, -, -, rfl⟩ := hw
      exact hset m _ h rfl rfl rfl rfl
  have hsave : Method.Preserves (SameChain n) ConsensusNode.saveMempool :=
    .assigning fun {m a m'} h hw => by
      simp only [bind_eq_ok, pure_eq_ok, Prod.mk.injEq] at hw
      obtain ⟨rows, -, -, rfl⟩ := hw
      exact hset m _ h rfl rfl rfl rfl
  have hmodify : ∀ g : ConsensusNode → ConsensusNode, (∀ m, (g m).disk = m.disk) →
      (∀ m, (g m).forkChoice = m.forkChoice) → (∀ m, (g m).mempoolPolicy = m.mempoolPolicy) →
      Method.Preserves (SameChain n) (modify g : Method ConsensusNode PyError Unit) := fun g hd hf hp =>
    .modify fun m h => hset m _ h (by rw [hd]) (by rw [hd]) (hf m) (hp m)
  refine .bind (.reading _) fun active => .bind (hmodify _ (fun _ => rfl) (fun _ => rfl) fun _ => rfl) fun _ => ?_
  refine .bind (.reading _) fun reorg => .bind (hmodify _ (fun _ => rfl) (fun _ => rfl) fun _ => rfl) fun _ => ?_
  refine .bind ?_ fun _ => ?_
  · refine .bind (.reading _) fun storedHash => .bind (.reading _) fun imported => .bind (hwrite _) fun _ => ?_
    exact .bind (hwrite _) fun _ => .bind (.reading _) fun activeHash => .bind (hwrite _) fun _ => hwrite _
  · refine .bind (.reading _) fun txids => .bind (.reading _) fun mempool => ?_
    refine .bind (hmodify _ (fun _ => rfl) (fun _ => rfl) fun _ => rfl) fun _ => ?_
    exact .bind (hmodify _ (fun _ => rfl) (fun _ => rfl) fun _ => rfl) fun _ => hsave

theorem NodeOk.importBlock (h : NodeOk n) (b : ConsensusBlock) :
    NodeOk ((ConsensusNode.importBlock b).call n).2 := by
  generalize hr : (ConsensusNode.importBlock b).call n = r
  have hi := importBlock_cases h b
  rw [hr] at hi
  cases hi with
  | refused => exact h
  | rejected => exact ⟨h.store, h.parameters, h.active, h.mempool, h.pool⟩
  | @stored hash oldTip stored n₁ n₂ r hhash _ _ hcall hact =>
    obtain ⟨store, -, hst, rfl⟩ := (storeCandidate_eq_ok h hhash).mp hcall
    have hend := (activate_nodeOk h oldTip hhash hst).snd
    rw [hact] at hend
    exact hend

/-- Mining either raises before the node changes or imports the block it found. -/
theorem mineBlock_cases (n : ConsensusNode) (minerAddress : Str) (timestamp : UInt64) (fuel : Nat) :
    (∃ e, (ConsensusNode.mineBlock minerAddress timestamp fuel).call n = (.error e, n)) ∨
      ∃ b, (Call.mineBlock minerAddress timestamp fuel).offered n = some b ∧
        (ConsensusNode.mineBlock minerAddress timestamp fuel).call n = (ConsensusNode.importBlock b).call n := by
  simp only [ConsensusNode.mineBlock, Method.call_bind, Method.call_reading, Call.offered]
  cases n.buildCandidateBlock minerAddress timestamp with
  | error e => exact .inl ⟨e, rfl⟩
  | ok candidate =>
    simp only [ok_bind]
    cases ConsensusNode.mine fuel candidate with
    | error e => exact .inl ⟨e, rfl⟩
    | ok b => exact .inr ⟨b, rfl, rfl⟩

/-- `submit_transaction` is decided by its checks, which change nothing. -/
theorem submitTransaction_eq (h : DistinctTxids n.mempool) (t : ConsensusTransaction) :
    (ConsensusNode.submitTransaction t).call n = match n.submissionChecks t with
      | .error e => (.error e, n)
      | .ok (txid, remaining) => (.ok txid, withMempool n (remaining ++ [t])) := by
  simp only [ConsensusNode.submitTransaction, Method.call_bind, Method.call_reading]
  cases ha : n.submissionChecks t with
  | error e => rfl
  | ok r =>
    obtain ⟨fee, hadm⟩ := admit_eq_ok h ha
    simp only [Method.call_modify]
    rw [saveMempool_call (by exact hadm.distinct h)]
    rfl

theorem submitTransaction_call (h : DistinctTxids n.mempool) (t : ConsensusTransaction) :
    (∃ e, (ConsensusNode.submitTransaction t).call n = (.error e, n)) ∨
      ∃ txid remaining fee, Admitted n t remaining fee ∧
        (ConsensusNode.submitTransaction t).call n = (.ok txid, withMempool n (remaining ++ [t])) := by
  rw [submitTransaction_eq h]
  cases ha : n.submissionChecks t with
  | error e => exact .inl ⟨e, rfl⟩
  | ok r =>
    obtain ⟨fee, hadm⟩ := admit_eq_ok h ha
    exact .inr ⟨_, _, fee, hadm, rfl⟩

theorem pruneMempool_call (h : DistinctTxids n.mempool) :
    ConsensusNode.pruneMempool.call n =
      (.ok (n.mempool.length - (keepValid n.mempoolPolicy n.state [] n.mempool).length),
        withMempool n (keepValid n.mempoolPolicy n.state [] n.mempool)) := by
  simp only [ConsensusNode.pruneMempool, Method.call_bind, Method.call_get, ConsensusNode.pruneInvalidMempool,
    Method.call_modify]
  rw [saveMempool_call (by exact h.keepValid _ _)]
  rfl

omit [Ed25519] in
theorem clearMempool_call : ConsensusNode.clearMempool.call n = (.ok n.mempool.length, withMempool n []) := by
  simp only [ConsensusNode.clearMempool, Method.call_bind, Method.call_get, Method.call_modify]
  rw [saveMempool_call (by exact distinctTxids_nil)]
  rfl

end Preserved

/-! ### Loading the mempool -/

/-- What `_load_mempool` keeps of the transactions that were saved. -/
def loaded (p : MempoolPolicy) (s : ConsensusState) (ts : List ConsensusTransaction) : List ConsensusTransaction :=
  keepValid p s [] ((byTxid ts).map storedTransaction)

theorem loaded_distinct {ts : List ConsensusTransaction} (h : DistinctTxids ts) (p : MempoolPolicy)
    (s : ConsensusState) : DistinctTxids (loaded p s ts) := by
  refine (storedTransaction_distinct ⟨fun t ht => ?_, ?_⟩).keepValid p s
  · exact h.txid t ((byTxid_perm ts).mem_iff.mp ht)
  · exact (((byTxid_perm ts).map txidOf).nodup_iff).mpr h.nodup

/-- Afterwards the store holds what was loaded, maybe in another order. -/
theorem loadMempool_call {d : Disk} {ts : List ConsensusTransaction} (h : DistinctTxids ts)
    (hd : d.mempoolStore = ⟨ts.map rowOf⟩) (p : MempoolPolicy) (s : ConsensusState) :
    ∃ us, (ConsensusNode.loadMempool p s).call d =
        (.ok (loaded p s ts), { d with mempoolStore := ⟨us.map rowOf⟩ }) ∧
      DistinctTxids us ∧ (us.map rowOf).Perm ((loaded p s ts).map rowOf) ∧ (us = loaded p s ts ∨ us = ts) := by
  have hv := loaded_distinct h p s
  have hcall : (ConsensusNode.loadMempool p s).call d =
      if (loaded p s ts).length ≠ ts.length then
        (.ok (loaded p s ts), { d with mempoolStore := ⟨(loaded p s ts).map rowOf⟩ })
      else (.ok (loaded p s ts), d) := by
    have hcount : MempoolStore.count ⟨ts.map rowOf⟩ = ts.length := List.length_map _
    simp only [ConsensusNode.loadMempool, Method.call_bind, Method.call_reading, Method.call_get, hcount, hd,
      transactions_rowOf h]
    by_cases hl : (loaded p s ts).length ≠ ts.length
    · rw [if_pos hl, if_pos (by exact hl)]
      rw [Method.call_bind, Method.call_assigning_of_ok (by rw [replaceAll_eq_ok.mpr ⟨by exact hv, rfl⟩]; rfl)]
      rfl
    · rw [if_neg hl, if_neg (by exact hl)]
      rfl
  rw [hcall]
  by_cases hl : (loaded p s ts).length ≠ ts.length
  · rw [if_pos hl]
    exact ⟨_, rfl, hv, .refl _, .inl rfl⟩
  · rw [if_neg hl]
    refine ⟨ts, by rw [← hd], h, ?_, .inr rfl⟩
    -- Nothing was dropped, so everything that was stored is there.
    obtain ⟨kept, he, hs⟩ := keepValid_sublist p ((byTxid ts).map storedTransaction) s []
    rw [List.nil_append] at he
    have hlen : kept.length = ((byTxid ts).map storedTransaction).length := by
      rw [List.length_map, (byTxid_perm ts).length_eq, ← not_ne_iff.mp hl, loaded, he]
    have hall : loaded p s ts = (byTxid ts).map storedTransaction := by
      rw [loaded, he, hs.eq_of_length hlen]
    rw [hall, List.map_map]
    exact (List.map_congr_left (fun t _ => rowOf_storedTransaction t) ▸ (byTxid_perm ts).map rowOf).symm

theorem reloadMempool_call {n : ConsensusNode} {ts : List ConsensusTransaction} (h : DistinctTxids ts)
    (hd : n.disk.mempoolStore = ⟨ts.map rowOf⟩) :
    ∃ us, ConsensusNode.reloadMempool.call n =
        (.ok (), { n with mempool := loaded n.mempoolPolicy n.state ts,
                          disk := { n.disk with mempoolStore := ⟨us.map rowOf⟩ } }) ∧
      DistinctTxids us ∧ (us.map rowOf).Perm ((loaded n.mempoolPolicy n.state ts).map rowOf) ∧
      (us = loaded n.mempoolPolicy n.state ts ∨ us = ts) := by
  obtain ⟨us, hcall, hus⟩ := loadMempool_call h hd n.mempoolPolicy n.state
  refine ⟨us, ?_, hus⟩
  simp only [ConsensusNode.reloadMempool, Method.call_bind, Method.call_get, Method.call_onPart, hcall]
  rfl

/-! ### Creating and opening -/

/-- The files `d'` are what became of `d`, without a block cached in between. -/
structure Later (d d' : Disk) : Prop where
  blocks : d.store.blocks ⊆ d'.store.blocks
  parameters : d.store.blocks ≠ [] → d'.store.parameters = d.store.parameters
  invalidBlocks : d'.invalidBlocks = d.invalidBlocks

omit [Ed25519] in
theorem later_of_eq {d d' : Disk} (hs : d'.store = d.store) (hc : d'.invalidBlocks = d.invalidBlocks) : Later d d' :=
  ⟨by rw [hs]; exact List.Subset.refl _, fun _ => by rw [hs], hc⟩

/-- A node is made from what became of the files `d₀`, or these are left as they should be. -/
def Makes (d₀ : Disk) (x : Method Disk PyError ConsensusNode) (d : Disk) : Prop :=
  x.Ends d (fun node _ => NodeOk node ∧ Later d₀ node.disk) fun _ disk => DiskOk disk ∧ Later d₀ disk

theorem Makes.made {d₀ d : Disk} {x : Method Disk PyError ConsensusNode} (h : Makes d₀ x d) :
    WorldOk (World.made (x.call d)) ∧ Later d₀ (World.made (x.call d)).disk := by
  rw [Makes, Method.Ends] at h
  revert h
  rcases x.call d with ⟨_ | _, _⟩ <;> exact id

theorem init_makes {d₀ d : Disk} {f : ForkChoice} {s : ConsensusState} {a : ActiveChain} {difficulty : Int}
    (p : MempoolPolicy) (hlater : Later d₀ d) (hstore : StoreOk f d.store)
    (hparams : d.store.parameters = some ⟨difficulty, f.blockSubsidy, f.maxMoney⟩)
    (ha : f.activeChain d.store = .ok a) (hs : SameState s a.state) (hpool : PoolOk d.mempoolStore) :
    Makes d₀ (ConsensusNode.init s difficulty p f) d := by
  have hd : DiskOk d := ⟨.inr ⟨_, hparams, hstore⟩, hpool⟩
  obtain ⟨ts, hts, hrows⟩ := hpool
  obtain ⟨us, hcall, hus, -⟩ := loadMempool_call hts hrows p s
  refine .bind (.reading (fun _ _ => ?_) fun _ _ => ⟨hd, hlater⟩)
  refine .bind (.of_call hcall ⟨⟨hstore, hparams, ⟨a, ha, hs⟩, loaded_distinct hts p s, us, hus, rfl⟩, ?_⟩)
  exact ⟨hlater.blocks, hlater.parameters, hlater.invalidBlocks⟩

theorem create_makes {d : Disk} (h : DiskOk d) (allocations : List (Str × Int)) (parameters : ChainParameters)
    (timestamp : UInt64) (fuel : Nat) : Makes d (ConsensusNode.create allocations parameters timestamp fuel) d := by
  refine .bind (.reading (fun tip htip => ?_) fun _ _ => ⟨h, later_of_eq rfl rfl⟩)
  refine .bind (.reading (fun _ hno => ?_) fun _ _ => ⟨h, later_of_eq rfl rfl⟩)
  -- The store is empty, since it has no best tip.
  have hnil : d.store.blocks = [] := by
    rcases h.store with hnil | ⟨p, -, hok⟩
    · exact hnil
    · obtain ⟨tip', htip', hsome⟩ := bestTip_isSome hok
      rw [htip, Except.ok.injEq] at htip'
      subst htip'
      rw [raiseIf_eq_ok, hsome, not_not] at hno
      exact hno
  have hlater : ∀ d' : Disk, d'.invalidBlocks = d.invalidBlocks → Later d d' := fun d' hc =>
    ⟨by rw [hnil]; exact List.nil_subset _, fun hne => absurd hnil hne, hc⟩
  have hd : DiskOk { d with store := d.store.saveChainParameters parameters } := ⟨.inl hnil, h.pool⟩
  refine .bind (.modify (.bind (.reading (fun r hr => ?_) fun _ _ => ⟨hd, hlater _ rfl⟩)))
  obtain ⟨state, genesis⟩ := r
  simp only [bind_eq_ok, Prod.exists, Method.onLocal_eq_ok, applyBlock_eq_ok, pure_eq_ok, Prod.mk.injEq] at hr
  obtain ⟨s₀, hs₀, genesis', -, fees, state', hv, rfl, rfl⟩ := hr
  refine .bind (.assigning (fun _ d₁ hput => ?_) fun _ _ => ⟨hd, hlater _ rfl⟩)
  simp only [bind_eq_ok, Prod.exists, pure_eq_ok, Prod.mk.injEq] at hput
  obtain ⟨stored, store, hput, -, rfl⟩ := hput
  have hext : Extends ⟨parameters.blockSubsidy, parameters.maxMoney⟩ (d.store.saveChainParameters parameters)
      genesis' [] state' := by
    obtain ⟨hash, hhash, -⟩ := putBlock_eq_ok.mp hput
    obtain ⟨c, rest, s₁, hcheck, -⟩ := validateCandidate_eq_ok.mp hv
    obtain ⟨h₀, hprev, -⟩ := checkBlock_eq_ok.mp hcheck
    exact ⟨.inl ⟨h₀, hnil, hprev, rfl⟩, hash, .snoc (.nil hs₀) hv hhash⟩
  have hempty : StoreOk ⟨parameters.blockSubsidy, parameters.maxMoney⟩ (d.store.saveChainParameters parameters) :=
    storeOk_nil hnil
  have hok := hempty.putBlock hext hput
  have hparams : store.parameters = some parameters := by
    obtain ⟨hash, -, ⟨-, rfl, -⟩ | ⟨-, row, -, -, rfl, -⟩⟩ := putBlock_eq_ok.mp hput <;> rfl
  have hdisk : ∀ pool index, PoolOk pool → DiskOk ⟨store, pool, index, d.invalidBlocks⟩ ∧
      Later d ⟨store, pool, index, d.invalidBlocks⟩ := fun _ _ hpool =>
    ⟨⟨.inr ⟨parameters, hparams, hok⟩, hpool⟩, hlater _ rfl⟩
  refine .bind (.assigning (fun _ d₂ hpool => ?_) fun _ _ => hdisk _ _ h.pool)
  rw [replaceAll_eq_ok.mpr ⟨distinctTxids_nil, rfl⟩, ok_bind, pure_eq_ok, Prod.mk.injEq] at hpool
  obtain ⟨-, rfl⟩ := hpool
  refine .bind (.assigning (fun _ d₃ hindex => ?_) fun _ _ => hdisk _ _ poolOk_nil)
  simp only [bind_eq_ok, pure_eq_ok, Prod.mk.injEq] at hindex
  obtain ⟨hash, -, index, -, -, rfl⟩ := hindex
  refine .bind (.reading (fun a ha => ?_) fun _ _ => hdisk _ _ poolOk_nil)
  exact init_makes {} (hlater _ rfl) hok hparams ha (.refl _) poolOk_nil

omit [Ed25519] in
/-- The state is the replayed one, whatever the index holds; only the index may be written. -/
theorem openState_ends {d : Disk} {f : ForkChoice} {a : ActiveChain} (hp : a.state.blockSubsidy = f.blockSubsidy)
    (hm : a.state.maxMoney = f.maxMoney) :
    (ConsensusNode.openState f a).Ends d
      (fun s d' => SameState s a.state ∧ ∃ index, d' = { d with utxoIndex := index })
      fun _ d' => ∃ index, d' = { d with utxoIndex := index } := by
  unfold ConsensusNode.openState
  split
  · exact .pure ⟨.refl _, _, rfl⟩
  · refine .bind (.reading (fun hash _ => .bind (.reading (fun indexed _ => ?_) fun _ _ => ⟨_, rfl⟩))
      fun _ _ => ⟨_, rfl⟩)
    split
    · rename_i u hu
      refine .reading (fun s hs => ?_) fun _ _ => ⟨_, rfl⟩
      obtain ⟨hu', hsub, hmax⟩ := init_eq_ok hs
      have hv := (Option.filter_eq_some_iff.mp hu).2
      refine ⟨⟨hsub.trans hp.symm, hmax.trans hm.symm, ?_⟩, _, rfl⟩
      rw [hu']
      simpa using hv
    · refine .bind (.assigning (fun _ d' hd' => ?_) fun _ _ => ⟨_, rfl⟩)
      simp only [bind_eq_ok, pure_eq_ok, Prod.mk.injEq] at hd'
      obtain ⟨index, -, -, rfl⟩ := hd'
      exact .pure ⟨.refl _, _, rfl⟩

theorem requireChainParameters_eq_ok {d : Disk} (h : DiskOk d) {expected : ChainParameters} {store : ForkStore}
    (hr : d.store.requireChainParameters expected = .ok store) :
    store.parameters = some expected ∧ StoreOk ⟨expected.blockSubsidy, expected.maxMoney⟩ store ∧
      Later d { d with store := store } := by
  unfold ForkStore.requireChainParameters at hr
  split at hr
  · rename_i hnone
    have hnil : d.store.blocks = [] := by
      rcases h.store with hnil | ⟨p, hp, -⟩
      · exact hnil
      · rw [hnone] at hp
        cases hp
    rw [StoreOk.bestTip_of_nil hnil, ok_bind, if_pos Option.isNone_none, pure_eq_ok] at hr
    subst hr
    exact ⟨rfl, storeOk_nil hnil, List.Subset.refl _, fun hne => absurd hnil hne, rfl⟩
  · rename_i stored hstored
    split at hr
    · rename_i heq
      rw [pure_eq_ok] at hr
      subst hr heq
      refine ⟨hstored, ?_, later_of_eq rfl rfl⟩
      rcases h.store with hnil | ⟨p, hp, hok⟩
      · exact storeOk_nil hnil
      · rw [hstored, Option.some.injEq] at hp
        exact hp ▸ hok
    · cases hr

theorem openNode_makes {d : Disk} (h : DiskOk d) (parameters : ChainParameters) :
    Makes d (ConsensusNode.openNode parameters) d := by
  refine .bind (.tryCatch ?_)
  refine .bind (.assigning (fun _ d₁ hr => ?_) fun _ _ => .throw ⟨h, later_of_eq rfl rfl⟩)
  simp only [bind_eq_ok, pure_eq_ok, Prod.mk.injEq] at hr
  obtain ⟨store, hr, -, rfl⟩ := hr
  obtain ⟨hparams, hok, hlater⟩ := requireChainParameters_eq_ok h hr
  have hdisk : ∀ index, DiskOk { d with store := store, utxoIndex := index } ∧
      Later d { d with store := store, utxoIndex := index } := fun _ =>
    ⟨⟨.inr ⟨_, hparams, hok⟩, h.pool⟩, hlater.blocks, hlater.parameters, hlater.invalidBlocks⟩
  refine .bind (.reading (fun a ha => .bind (.reading (fun _ _ => ?_) fun _ _ => .throw (hdisk _)))
    fun _ _ => .throw (hdisk _))
  have hstate := hok.activeChain_params ha
  refine (openState_ends hstate.1 hstate.2).mono ?_ ?_
  · rintro s _ ⟨hs, index, rfl⟩
    exact init_makes {} (hdisk index).2 hok hparams ha hs h.pool
  · rintro e _ ⟨index, rfl⟩
    exact .throw (hdisk index)

/-! ### Runs -/

theorem diskOk_empty : DiskOk Disk.empty := ⟨.inl rfl, poolOk_nil⟩

/-- One call, whatever it does. -/
theorem WorldOk.step {w : World} (h : WorldOk w) (call : Call) : WorldOk (w.step call) := by
  cases w with
  | down d =>
    cases call with
    | create allocations parameters timestamp fuel => exact (create_makes h allocations parameters timestamp fuel).made.1
    | openNode parameters => exact (openNode_makes h parameters).made.1
    | _ => exact h
  | up n =>
    have hn : NodeOk n := h
    cases call with
    | create => exact h
    | openNode => exact h
    | close => exact hn.disk
    | importBlock b => exact hn.importBlock b
    | mineBlock minerAddress timestamp fuel =>
      show NodeOk ((ConsensusNode.mineBlock minerAddress timestamp fuel).call n).2
      rcases mineBlock_cases n minerAddress timestamp fuel with ⟨e, he⟩ | ⟨b, -, he⟩
      · rw [he]; exact hn
      · rw [he]; exact hn.importBlock b
    | submitTransaction t =>
      show NodeOk ((ConsensusNode.submitTransaction t).call n).2
      rcases submitTransaction_call hn.mempool t with ⟨e, he⟩ | ⟨txid, remaining, fee, hadm, he⟩
      · rw [he]; exact hn
      · rw [he]; exact hn.withMempool (hadm.distinct hn.mempool)
    | pruneMempool =>
      show NodeOk (ConsensusNode.pruneMempool.call n).2
      rw [pruneMempool_call hn.mempool]
      exact hn.withMempool (hn.mempool.keepValid _ _)
    | clearMempool =>
      show NodeOk (ConsensusNode.clearMempool.call n).2
      rw [clearMempool_call]
      exact hn.withMempool distinctTxids_nil
    | reloadMempool =>
      show NodeOk (ConsensusNode.reloadMempool.call n).2
      obtain ⟨ts, hts, hrows⟩ := hn.pool
      obtain ⟨us, hcall, hus, -⟩ := reloadMempool_call hts hrows
      rw [hcall]
      exact ⟨hn.store, hn.parameters, hn.active, loaded_distinct hts _ _, us, hus, rfl⟩
    | setPolicy p => exact ⟨hn.store, hn.parameters, hn.active, hn.mempool, hn.pool⟩

/-- The invariant holds after every run. -/
theorem worldOk_after (calls : List Call) : WorldOk (World.after calls) := by
  have key : ∀ w, WorldOk w → WorldOk (calls.foldl World.step w) := by
    induction calls with
    | nil => exact fun w h => h
    | cons call calls ih => exact fun w h => ih _ (h.step call)
  exact key _ diskOk_empty

/-- A run that goes on with an import. -/
theorem after_importBlock {calls : List Call} {n n' : ConsensusNode} {b : ConsensusBlock}
    {r : Except PyError StoredConsensusBlock} (h : World.after calls = .up n)
    (hcall : (ConsensusNode.importBlock b).call n = (r, n')) : World.after (calls ++ [.importBlock b]) = .up n' := by
  rw [World.after, List.foldl_append]
  show World.step (World.after calls) (.importBlock b) = _
  rw [h, World.step, hcall]

theorem nodeOk_after {calls : List Call} {n : ConsensusNode} (h : World.after calls = .up n) : NodeOk n := by
  have hw := worldOk_after calls
  rwa [h] at hw

/-! ## Alice's node -/

omit [Ed25519]

/-- The row of the genesis block. -/
def genesisRow : BlockRow where
  hash := genesisHash
  height := 0
  previousHash := zeroHash
  difficulty := 0
  cumulativeWork := 1
  data := match encodeConsensusBlock genesisBlock with
    | .ok payload => payload
    | .error _ => []

/-- A node that was just created with Alice's allocation. -/
def genesisNode : ConsensusNode where
  disk :=
    { store := ⟨[genesisRow], some ⟨0, 50, 1000⟩⟩
      mempoolStore := ⟨[]⟩
      utxoIndex :=
        { utxos := [⟨⟨genesisTxid, 0⟩, ⟨10, aliceAddress⟩⟩]
          utxoSnapshots := [⟨genesisHash, ⟨⟨genesisTxid, 0⟩, ⟨10, aliceAddress⟩⟩⟩]
          spentOutpoints := []
          activeTip := some genesisHash }
      invalidBlocks := ⟨[]⟩ }
  state := afterGenesis
  difficulty := 0
  mempool := []
  mempoolPolicy := .standard
  forkChoice := ⟨50, 1000⟩
  lastReorg := none

theorem created_genesisNode :
    @World.after aliceVerify [.create [(aliceAddress, 10)] ⟨0, 50, 1000⟩ 0 1] = .up genesisNode := by
  decide +kernel

end BCC.Proof
