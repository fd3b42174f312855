import BlockchainCoin.Proof.Atomic

/-!
# Importing a stored block again

`import_block` looks a hash up in the cache of invalid blocks and validates the
block before `put_block` finds that it is stored. So a stored block goes through
again when the checks of a new one pass: not for the genesis block, which
`_validate_import_candidate` refuses next to any chain, and not once its hash is
cached (`reimport_iff`). And a hash is cached for any block that fails under it,
stored or not.
-/

namespace BCC.Proof

open BCC.Impl BlockProcessor

variable [Ed25519]

/-- Importing the block of `stored` again returns `stored` and leaves the chain and the cache as they are. -/
def Reimports (n : ConsensusNode) (stored : StoredConsensusBlock) : Prop :=
  ∃ n', (ConsensusNode.importBlock stored.block).call n = (.ok stored, n') ∧ n'.disk.store = n.disk.store ∧
    n'.tipHash = n.tipHash ∧ SameState n'.state n.state ∧ n'.disk.invalidBlocks = n.disk.invalidBlocks

/-! ## One stored block -/

section Stored

variable {n : ConsensusNode} {hash : Str} {stored : StoredConsensusBlock}

omit [Ed25519] in
/-- What `get_block` returns is read from a row. -/
theorem row_of_getBlock {store : ForkStore} (hn : (store.blocks.map (·.hash)).Nodup)
    (hget : store.getBlock hash = .ok stored) : ∃ r ∈ store.blocks, r.hash = hash := by
  rw [ForkStore.getBlock] at hget
  cases hl : Table.lookup BlockRow.hash store.blocks hash with
  | none => rw [hl] at hget; cases hget
  | some r =>
    obtain ⟨hr, he⟩ := (Table.lookup_eq_some hn).mp hl
    exact ⟨r, hr, he⟩

/-- A stored block that is not at height 0 passes the checks of an import again. -/
theorem candidate_of_stored (h : NodeOk n) (hget : n.disk.store.getBlock hash = .ok stored) (hne : stored.block.height ≠ 0) :
    ∃ chain s, Candidate n.forkChoice n.disk.store stored.block chain s := by
  obtain ⟨r, hr, rfl⟩ := row_of_getBlock h.store.nodup hget
  obtain ⟨chain, s, hb, hs⟩ := h.store.branch r hr
  obtain ⟨b, hrow, hget'⟩ := h.store.getBlock hr
  rw [hget, Except.ok.injEq] at hget'
  subst hget'
  cases hb with
  | @root _ b' _ hrow' h₀ =>
    have hheight := hrow'.height
    rw [hrow.height] at hheight
    exact absurd (hheight.trans h₀) hne
  | @child _ p b' chain _ hrow' hp hprev =>
    have hget' := getBlock_of_mem h.store.nodup hr hrow'
    rw [hget, Except.ok.injEq, StoredConsensusBlock.mk.injEq] at hget'
    obtain ⟨rfl, -⟩ := hget'
    rw [List.map_append] at hs
    exact ⟨chain, s, (candidate_of_replay h hprev hp ⟨_, hs⟩).2⟩

theorem stored_hash (h : NodeOk n) (hget : n.disk.store.getBlock hash = .ok stored) :
    hash ∈ n.disk.store.blocks.map (·.hash) ∧ stored.block.hash = .ok hash := by
  obtain ⟨r, hr, rfl⟩ := row_of_getBlock h.store.nodup hget
  obtain ⟨b, hrow, hget'⟩ := h.store.getBlock hr
  rw [hget, Except.ok.injEq] at hget'
  subst hget'
  exact ⟨List.mem_map_of_mem hr, hrow.hash⟩

theorem reimports_of_fit (h : NodeOk n) (hget : n.disk.store.getBlock hash = .ok stored) (hne : stored.block.height ≠ 0)
    (hcache : n.disk.invalidBlocks.isInvalid hash = false) (hfit : ChainsFit n.forkChoice n.disk.store hash) :
    Reimports n stored := by
  obtain ⟨hmem, hhash⟩ := stored_hash h hget
  have hc := candidate_of_stored h hget hne
  have hst : Stores n.forkChoice n.disk.store stored.block hash stored n.disk.store := .known hmem hget
  have hcand := (storeCandidate_eq_ok h hhash).mpr ⟨_, hc, hst, rfl⟩
  generalize hr : (ConsensusNode.importBlock stored.block).call n = r
  have hi := importBlock_cases h stored.block
  rw [hr] at hi
  cases hi with
  | refused hinvalid => rw [hinvalid hash hhash] at hcache; cases hcache
  | rejected _ _ hcall => rw [hcand] at hcall; cases hcall
  | @stored _ oldTip stored' n₁ n₂ r _ _ htip hcall hact =>
    rw [hcand, Prod.mk.injEq, Except.ok.injEq] at hcall
    obtain ⟨rfl, rfl⟩ := hcall
    obtain ⟨n', hn'⟩ := (activate_returns_iff h hhash htip hc hst).mpr hfit
    rw [hact, Prod.mk.injEq] at hn'
    obtain ⟨rfl, rfl⟩ := hn'
    obtain ⟨a, reorg, index, ha, -, -, rfl⟩ := activate_returns h hhash hc hst hact
    obtain ⟨a', ha', hs⟩ := h.active
    rw [ha, Except.ok.injEq] at ha'
    subst ha'
    exact ⟨_, hr, rfl, rfl, ⟨hs.blockSubsidy.symm, hs.maxMoney.symm, hs.utxos.symm⟩, rfl⟩

theorem fit_of_reimports (h : NodeOk n) (hget : n.disk.store.getBlock hash = .ok stored) (hre : Reimports n stored) :
    stored.block.height ≠ 0 ∧ n.disk.invalidBlocks.isInvalid hash = false ∧ ChainsFit n.forkChoice n.disk.store hash := by
  obtain ⟨n', hcall, hstore, -⟩ := hre
  obtain ⟨hmem, hhash⟩ := stored_hash h hget
  obtain ⟨hash', store, a, hact⟩ := importBlock_returns h hcall
  have he := hact.hash_eq
  rw [hhash, Except.ok.injEq] at he
  subst he
  have hsame : store = n.disk.store := by
    rw [← hstore, hact.node]
  subst hsame
  refine ⟨?_, hact.notCached, (indexWritten_iff h.store hmem hact.active _).mp ⟨_, hact.index⟩⟩
  obtain ⟨chain, s, hc⟩ := hact.candidate
  cases hc with
  | genesis _ hnil => rw [hnil] at hmem; cases hmem
  | child hne => exact hne

end Stored

/-! ## Making a node -/

/-- No hash of a stored block is cached. -/
def Unmarked (d : Disk) : Prop := ∀ r ∈ d.store.blocks, d.invalidBlocks.isInvalid r.hash = false

omit [Ed25519] in
/-- What holds of the files however the call ends. -/
theorem made_of_ends {x : Method Disk PyError ConsensusNode} {d : Disk} {P : Disk → Prop}
    (h : x.Ends d (fun n _ => P n.disk) fun _ => P) : P (World.made (x.call d)).disk := by
  rw [Method.Ends] at h
  revert h
  rcases x.call d with ⟨_ | _, _⟩ <;> exact id

theorem init_store {d : Disk} (h : PoolOk d.mempoolStore) (s : ConsensusState) (difficulty : Int) (p : MempoolPolicy)
    (f : ForkChoice) : (ConsensusNode.init s difficulty p f).Ends d (fun n _ => n.disk.store = d.store)
      fun _ d' => d'.store = d.store := by
  obtain ⟨ts, hts, hrows⟩ := h
  obtain ⟨us, hcall, -⟩ := loadMempool_call hts hrows p s
  exact .bind (.reading (fun _ _ => .bind (.of_call hcall rfl)) fun _ _ => rfl)

/-- The only row `create` adds is that of the genesis block. -/
theorem create_rows {d : Disk} (allocations : List (Str × Int)) (p : ChainParameters)
    (timestamp : UInt64) (fuel : Nat) {P : List BlockRow → Prop} (hP : P d.store.blocks)
    (hnew : ∀ genesis row, ConsensusNode.buildGenesisBlock allocations p.difficulty timestamp fuel = .ok genesis →
      genesis.hash = .ok row.hash → P (d.store.blocks ++ [row])) :
    (ConsensusNode.create allocations p timestamp fuel).Ends d (fun n _ => P n.disk.store.blocks)
      fun _ d' => P d'.store.blocks := by
  refine .bind (.reading (fun tip _ => .bind (.reading (fun _ _ => ?_) fun _ _ => hP)) fun _ _ => hP)
  refine .bind (.modify (.bind (.reading (fun r hr => ?_) fun _ _ => hP)))
  simp only [bind_eq_ok, Prod.exists, pure_eq_ok] at hr
  obtain ⟨s₀, -, genesis, hgenesis, _, s, -, rfl⟩ := hr
  refine .bind (.assigning (fun _ d₁ hput => ?_) fun _ _ => hP)
  simp only [bind_eq_ok, Prod.exists, pure_eq_ok, Prod.mk.injEq, true_and] at hput
  obtain ⟨stored, store, hput, rfl⟩ := hput
  have hstore : P store.blocks := by
    obtain ⟨hash, hhash, ⟨-, rfl, -⟩ | ⟨-, row, hrow, -, rfl, -⟩⟩ := putBlock_eq_ok.mp hput
    · exact hP
    · refine hnew genesis row hgenesis ?_
      simp only [ForkStore.newRow, bind_eq_ok, pure_eq_ok] at hrow
      obtain ⟨work, -, payload, -, rfl⟩ := hrow
      exact hhash
  refine .bind (.assigning (fun _ d₂ hpool => ?_) fun _ _ => hstore)
  rw [replaceAll_eq_ok.mpr ⟨distinctTxids_nil, rfl⟩, ok_bind, pure_eq_ok, Prod.mk.injEq] at hpool
  obtain ⟨-, rfl⟩ := hpool
  refine .bind (.assigning (fun _ d₃ hindex => ?_) fun _ _ => hstore)
  simp only [bind_eq_ok, pure_eq_ok, Prod.mk.injEq, true_and] at hindex
  obtain ⟨hash, -, index, -, rfl⟩ := hindex
  refine .bind (.reading (fun a _ => ?_) fun _ _ => hstore)
  exact (init_store poolOk_nil _ _ _ _).mono (fun n _ hn => by rw [hn]; exact hstore) fun _ d' hd => by rw [hd]; exact hstore

theorem openNode_rows {d : Disk} (h : DiskOk d) (p : ChainParameters) :
    (ConsensusNode.openNode p).Ends d (fun n _ => n.disk.store.blocks = d.store.blocks)
      fun _ d' => d'.store.blocks = d.store.blocks := by
  refine .bind (.tryCatch ?_)
  refine .bind (.assigning (fun _ d₁ hr => ?_) fun _ _ => .throw rfl)
  simp only [bind_eq_ok, pure_eq_ok, Prod.mk.injEq, true_and] at hr
  obtain ⟨store, hr, rfl⟩ := hr
  have hblocks := (requireChainParameters_blocks h hr).1
  obtain ⟨-, hok, -⟩ := requireChainParameters_eq_ok h hr
  refine .bind (.reading (fun a ha => .bind (.reading (fun _ _ => ?_) fun _ _ => .throw hblocks)) fun _ _ => .throw hblocks)
  have hstate := hok.activeChain_params ha
  refine (openState_ends hstate.1 hstate.2).mono ?_ ?_
  · rintro s _ ⟨-, index, rfl⟩
    exact (init_store (d := { d with store := store, utxoIndex := index }) h.pool _ _ _ _).mono
      (fun n _ hn => by rw [hn]; exact hblocks) fun _ d' hd => by rw [hd]; exact hblocks
  · rintro e _ ⟨index, rfl⟩
    exact .throw hblocks

/-! ## Runs -/

/-- A call that caches no stored block: a genesis block that is built has no cached hash, and a block that is
handed to `import_block` under a stored hash passes the checks of a new one. -/
def Spotless : World → Call → Prop
  | .down d, .create allocations p timestamp fuel => ∀ genesis hash,
      ConsensusNode.buildGenesisBlock allocations p.difficulty timestamp fuel = .ok genesis → genesis.hash = .ok hash →
        d.invalidBlocks.isInvalid hash = false
  | .up n, call => ∀ b hash, call.offered n = some b → b.hash = .ok hash → n.disk.store.hasBlock hash = true →
      n.validateImportCandidate b = .ok ()
  | _, _ => True

/-- Every call of a run is such a call. -/
def SpotlessRun : World → List Call → Prop
  | _, [] => True
  | world, call :: calls => Spotless world call ∧ SpotlessRun (world.step call) calls

theorem importBlock_unmarked {n : ConsensusNode} (h : NodeOk n) (hu : Unmarked n.disk) {b : ConsensusBlock}
    (hb : ∀ hash, b.hash = .ok hash → n.disk.store.hasBlock hash = true → n.validateImportCandidate b = .ok ()) :
    Unmarked ((ConsensusNode.importBlock b).call n).2.disk := by
  cases importBlock_effect h b with
  | refused _ hstore hcache =>
    rw [Unmarked, hstore, hcache]
    exact hu
  | @rejected hash _ hhash _ hno hstore hcache =>
    rw [Unmarked, hstore, hcache]
    intro r hr
    rw [← Bool.not_eq_true, isInvalid_markInvalid, not_or]
    refine ⟨fun he => ?_, by rw [hu r hr]; exact Bool.false_ne_true⟩
    -- Had the block passed, `put_block` would have returned the row.
    have hmem : hash ∈ n.disk.store.blocks.map (·.hash) := he ▸ List.mem_map_of_mem hr
    obtain ⟨chain, s, hc⟩ := (validateImportCandidate_eq_ok h).mp (hb hash hhash (Table.isSome_lookup.mpr hmem))
    obtain ⟨_, -, hget⟩ := h.store.getBlock hr
    exact hno chain s hc _ _ (.known hmem (he ▸ hget))
  | @stored hash _ _ _ hhash hfree hc hst hcache =>
    rw [Unmarked, hcache]
    intro r hr
    generalize ((ConsensusNode.importBlock b).call n).2.disk.store = store at hst hr
    cases hst with
    | known => exact hu r hr
    | new _ he hrow =>
      rcases List.mem_append.mp hr with hr | hr
      · exact hu r hr
      · rw [List.mem_singleton.mp hr, (he.newRow h.store hhash hrow).1]
        exact hfree

/-- A call that imports nothing leaves the blocks and the cache as they are. -/
theorem step_of_not_offered {n : ConsensusNode} (h : NodeOk n) {call : Call} (hno : call.offered n = none) :
    ((World.up n).step call).disk.store = n.disk.store ∧
      ((World.up n).step call).disk.invalidBlocks = n.disk.invalidBlocks := by
  cases call with
  | create => exact ⟨rfl, rfl⟩
  | openNode => exact ⟨rfl, rfl⟩
  | close => exact ⟨rfl, rfl⟩
  | importBlock b => cases hno
  | mineBlock minerAddress timestamp fuel =>
    rw [World.step]
    rcases mineBlock_cases n minerAddress timestamp fuel with ⟨e, he⟩ | ⟨b, hb, -⟩
    · rw [he]; exact ⟨rfl, rfl⟩
    · rw [hno] at hb; cases hb
  | submitTransaction t =>
    rw [World.step]
    rcases submitTransaction_call h.mempool t with ⟨e, he⟩ | ⟨txid, remaining, fee, -, he⟩
    · rw [he]; exact ⟨rfl, rfl⟩
    · rw [he]; exact ⟨rfl, rfl⟩
  | pruneMempool => rw [World.step, pruneMempool_call h.mempool]; exact ⟨rfl, rfl⟩
  | clearMempool => rw [World.step, clearMempool_call]; exact ⟨rfl, rfl⟩
  | reloadMempool =>
    obtain ⟨ts, hts, hrows⟩ := h.pool
    obtain ⟨us, hcall, -⟩ := reloadMempool_call hts hrows
    rw [World.step, hcall]
    exact ⟨rfl, rfl⟩
  | setPolicy => exact ⟨rfl, rfl⟩

/-- A call that offers a block imports it. -/
theorem step_of_offered {n : ConsensusNode} {call : Call} {b : ConsensusBlock} (hb : call.offered n = some b) :
    (World.up n).step call = .up ((ConsensusNode.importBlock b).call n).2 := by
  cases call with
  | importBlock b' =>
    obtain rfl := Option.some.inj hb
    rfl
  | mineBlock minerAddress timestamp fuel =>
    rw [Call.offered] at hb
    rw [World.step, ConsensusNode.mineBlock]
    simp only [Method.call_bind, Method.call_reading]
    cases hc : n.buildCandidateBlock minerAddress timestamp with
    | error e => rw [hc] at hb; cases hb
    | ok candidate =>
      rw [hc, ok_bind] at hb
      cases hm : ConsensusNode.mine fuel candidate with
      | error e => rw [hm] at hb; cases hb
      | ok b' =>
        rw [hm] at hb
        obtain rfl := Option.some.inj hb
        simp only [hm]
  | _ => cases hb

theorem Unmarked.step {w : World} (hok : WorldOk w) (hu : Unmarked w.disk) {call : Call} (hs : Spotless w call) :
    Unmarked (w.step call).disk := by
  cases w with
  | up n =>
    cases hb : call.offered n with
    | none =>
      obtain ⟨hstore, hcache⟩ := step_of_not_offered hok hb
      rw [Unmarked, hstore, hcache]
      exact hu
    | some b =>
      rw [step_of_offered hb]
      exact importBlock_unmarked hok hu fun hash hhash hmem => hs b hash hb hhash hmem
  | down d =>
    cases call with
    | create allocations p timestamp fuel =>
      have hcache := (create_makes hok allocations p timestamp fuel).made.2.invalidBlocks
      rw [World.step, Unmarked, hcache]
      refine made_of_ends (P := fun d' => ∀ r ∈ d'.store.blocks, d.invalidBlocks.isInvalid r.hash = false) ?_
      refine create_rows (P := fun rows => ∀ r ∈ rows, d.invalidBlocks.isInvalid r.hash = false) allocations p timestamp fuel hu
        fun genesis row hgenesis hhash r hr => ?_
      rcases List.mem_append.mp hr with hr | hr
      · exact hu r hr
      · exact List.mem_singleton.mp hr ▸ hs genesis row.hash hgenesis hhash
    | openNode p =>
      have hcache := (openNode_makes hok p).made.2.invalidBlocks
      rw [World.step, Unmarked, hcache]
      refine made_of_ends (P := fun d' => ∀ r ∈ d'.store.blocks, d.invalidBlocks.isInvalid r.hash = false) ?_
      exact (openNode_rows hok p).mono (fun _ _ hrows => by rw [hrows]; exact hu) fun _ _ hrows => by rw [hrows]; exact hu
    | _ => exact hu

theorem unmarked_after {calls : List Call} (h : SpotlessRun (.down Disk.empty) calls) : Unmarked (World.after calls).disk := by
  have key : ∀ w, WorldOk w → Unmarked w.disk → SpotlessRun w calls → Unmarked (calls.foldl World.step w).disk := by
    clear h
    induction calls with
    | nil => exact fun w _ hu _ => hu
    | cons call calls ih => exact fun w hok hu h => ih _ (hok.step call) (hu.step hok h.1) h.2
  exact key _ diskOk_empty (fun r hr => absurd hr List.not_mem_nil) h

/-- A stored block is imported again exactly when it is not at height 0, its hash is not cached, and the index has
room for its branch and the active one. No hash of a stored block is cached in a run whose calls are as said. -/
theorem reimport_iff (calls : List Call) (n : ConsensusNode) (hn : World.after calls = .up n) :
    (∀ hash stored, n.disk.store.getBlock hash = .ok stored → (Reimports n stored ↔
      stored.block.height ≠ 0 ∧ n.disk.invalidBlocks.isInvalid hash = false ∧ ChainsFit n.forkChoice n.disk.store hash)) ∧
    (SpotlessRun (.down Disk.empty) calls → ∀ hash stored, n.disk.store.getBlock hash = .ok stored →
      n.disk.invalidBlocks.isInvalid hash = false) := by
  have h := nodeOk_after hn
  refine ⟨fun hash stored hget => ⟨fit_of_reimports h hget, fun ⟨hne, hcache, hfit⟩ => reimports_of_fit h hget hne hcache hfit⟩,
    fun hrun hash stored hget => ?_⟩
  obtain ⟨r, hr, rfl⟩ := row_of_getBlock h.store.nodup hget
  have hu := unmarked_after hrun
  rw [hn] at hu
  exact hu r hr

/-- `stored` is in the store, `import_block` refuses its block, and then its hash is cached. -/
def refusesStored (world : World) (stored : StoredConsensusBlock) : Bool :=
  match world, stored.block.hash with
  | .up n, .ok hash =>
    let r := (ConsensusNode.importBlock stored.block).call n
    decide (n.disk.store.getBlock hash = .ok stored) && !r.1.isOk && r.2.disk.invalidBlocks.isInvalid hash
  | _, _ => false

theorem not_reimports_of_refusesStored {world : World} {stored : StoredConsensusBlock}
    (h : refusesStored world stored = true) : ∃ n hash, world = .up n ∧ n.disk.store.getBlock hash = .ok stored ∧
      ¬ Reimports n stored ∧
      ((ConsensusNode.importBlock stored.block).call n).2.disk.invalidBlocks.isInvalid hash = true := by
  unfold refusesStored at h
  split at h
  · rename_i n hash _
    simp only [Bool.and_eq_true, decide_eq_true_eq, Bool.not_eq_true'] at h
    obtain ⟨⟨hget, herror⟩, hcached⟩ := h
    refine ⟨n, hash, rfl, hget, ?_, hcached⟩
    rintro ⟨n', hcall, -⟩
    rw [hcall] at herror
    cases herror
  · cases h

omit [Ed25519]

theorem reimport_iff_genesisNode :
    let _ := aliceVerify
    let calls := [Call.create [(aliceAddress, 10)] ⟨0, 50, 1000⟩ 0 1]
    (∀ hash stored, genesisNode.disk.store.getBlock hash = .ok stored → (Reimports genesisNode stored ↔
      stored.block.height ≠ 0 ∧ genesisNode.disk.invalidBlocks.isInvalid hash = false ∧
        ChainsFit genesisNode.forkChoice genesisNode.disk.store hash)) ∧
    (SpotlessRun (.down Disk.empty) calls → ∀ hash stored, genesisNode.disk.store.getBlock hash = .ok stored →
      genesisNode.disk.invalidBlocks.isInvalid hash = false) := by
  intro _ calls
  exact reimport_iff calls genesisNode created_genesisNode

/-! ## Stored blocks that are refused -/

/-- The header of the payment block without its transactions. -/
def emptiedBlock : ConsensusBlock := { paymentBlock with transactions := [] }

/-- The genesis block is refused, and so is a block after another body was sent under its header. -/
theorem stored_refused :
    let _ := aliceVerify
    let created := Call.create [(aliceAddress, 10)] ⟨0, 50, 1000⟩ 0 1
    (∃ n hash, World.after [created] = .up n ∧ n.disk.store.getBlock hash = .ok ⟨genesisBlock, 1⟩ ∧
      ¬ Reimports n ⟨genesisBlock, 1⟩ ∧
      ((ConsensusNode.importBlock genesisBlock).call n).2.disk.invalidBlocks.isInvalid hash = true) ∧
    ∃ n hash, World.after [created, .importBlock paymentBlock, .importBlock emptiedBlock] = .up n ∧
      n.disk.store.getBlock hash = .ok ⟨paymentBlock, 2⟩ ∧ ¬ Reimports n ⟨paymentBlock, 2⟩ ∧
      ((ConsensusNode.importBlock paymentBlock).call n).2.disk.invalidBlocks.isInvalid hash = true := by
  intro _ created
  exact ⟨not_reimports_of_refusesStored (by decide +kernel), not_reimports_of_refusesStored (by decide +kernel)⟩

end BCC.Proof
