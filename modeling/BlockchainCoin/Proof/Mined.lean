import BlockchainCoin.Proof.Import
import BlockchainCoin.Proof.Mining
import BlockchainCoin.Proof.Reorg

/-!
# Blocks that are mined

A block on top of the best one has more work than all others, so importing it extends the
active chain by it (`importBlock_extends`). A mined block is one, and it contains the
whole mempool: afterwards nothing is pending, and the supply has grown by the subsidy
(`mineBlock_extends`).
-/

namespace BCC.Proof

open BCC.Impl BlockProcessor

variable [Ed25519] {n n' : ConsensusNode} {b : ConsensusBlock} {r : BlockRow} {hash : Str}

/-! ## Children of the tip -/

/-- A block whose header is stored has a row with more work than that of its parent. -/
theorem work_of_known (h : NodeOk n) (hhash : b.hash = .ok hash) (hne : b.height ≠ 0) (hprev : r.hash = b.previousHash)
    (hr : r ∈ n.disk.store.blocks) (hmem : hash ∈ n.disk.store.blocks.map (·.hash))
    (hcol : NoHeaderCollision n.disk.store b) : ∃ q ∈ n.disk.store.blocks, r.cumulativeWork < q.cumulativeWork := by
  obtain ⟨q, hq, rfl⟩ := List.mem_map.mp hmem
  obtain ⟨chain, s, hb, -⟩ := h.store.branch q hq
  obtain ⟨bq, hrow, hget⟩ := h.store.getBlock hq
  obtain ⟨header, hh, -⟩ := bind_eq_ok.mp hhash
  have he := storedBlock_of_headerBytes ((hcol q.hash _ hhash hget).trans hh) hh
  simp only [storedBlock, ConsensusBlock.mk.injEq] at he
  obtain ⟨hheight, hparent, -⟩ := he
  cases hb with
  | root _ hrow' h₀ =>
    have := hrow'.height
    have := hrow.height
    omega
  | @child _ p br _ _ hrow' hbp hp _ hw =>
    have hq' := getBlock_of_mem h.store.nodup hq hrow'
    rw [hget, Except.ok.injEq, StoredConsensusBlock.mk.injEq] at hq'
    obtain ⟨rfl, -⟩ := hq'
    have hcanon : ∀ {p : BlockRow}, p ∈ n.disk.store.blocks → storedHash p.hash = p.hash := fun hp => by
      obtain ⟨bp, hbp, -⟩ := h.store.getBlock hp
      exact storedHash_hash hbp.hash
    rw [← hp, ← hprev, hcanon hbp.mem, hcanon hr] at hparent
    obtain rfl := List.inj_on_of_nodup_map h.store.nodup hbp.mem hr hparent
    have hpos := workFor_pos bq
    exact ⟨q, hq, by omega⟩

/-- What importing a block on top of the active chain leads to. -/
structure Extended (n : ConsensusNode) (b : ConsensusBlock) (old : ActiveChain) (stored : StoredConsensusBlock)
    (n' : ConsensusNode) : Prop where
  stored : stored = ⟨b, old.cumulativeWork + workFor b⟩
  active : n'.forkChoice.activeChain n'.disk.store =
    .ok ⟨old.blocks ++ [storedBlock b], n'.state, old.cumulativeWork + workFor b⟩
  valid : ∃ fees, validateCandidate old.state b old.blocks.length b.previousHash = .ok (fees, n'.state)
  mempool : n'.mempool = mempoolAfter n n'.state b
  mempoolStore : n'.disk.mempoolStore.rows = n'.mempool.map rowOf
  lastReorg : n'.lastReorg = none

/-- The work and the height of a new block on top of the best row. -/
theorem work_of_child (h : NodeOk n) (hfirst : Table.first BlockRow.better n.disk.store.blocks = some r)
    (hprev : r.hash = b.previousHash) (hne : b.height ≠ 0) {row : BlockRow} (hrow : n.disk.store.newRow b hash = .ok row)
    {bo : ConsensusBlock} (hbo : RowOf bo r) :
    b.height = bo.height + 1 ∧ row.cumulativeWork = r.cumulativeWork + workFor b := by
  obtain ⟨work, hwork, hrow⟩ := bind_eq_ok.mp hrow
  obtain ⟨payload, -, hrow⟩ := bind_eq_ok.mp hrow
  rw [pure_eq_ok] at hrow
  rcases newWork_eq_ok hwork with ⟨h₀, -⟩ | ⟨-, parent, hget, hheight, hsum⟩
  · exact absurd h₀ hne
  · rw [← hprev, getBlock_of_mem h.store.nodup (Table.first_mem hfirst) hbo, Except.ok.injEq] at hget
    subst hget
    exact ⟨hheight, by rw [← hrow]; exact hsum⟩

/-- Importing a block on top of the best one extends the active chain by it. -/
theorem importBlock_extends (h : NodeOk n) (hfirst : Table.first BlockRow.better n.disk.store.blocks = some r)
    (hprev : r.hash = b.previousHash) (hne : b.height ≠ 0) (hcol : NoHeaderCollision n.disk.store b)
    {stored : StoredConsensusBlock} (hcall : (ConsensusNode.importBlock b).call n = (.ok stored, n')) :
    ∃ old, n.forkChoice.activeChain n.disk.store = .ok old ∧ Extended n b old stored n' := by
  have hi := importBlock_cases h b
  rw [hcall] at hi
  generalize hr : (Except.ok stored : Except PyError StoredConsensusBlock) = result at hi
  cases hi with
  | refused => cases hr
  | rejected => cases hr
  | @stored hash oldTip stored' n₁ n₂ r' hhash hcache htip hst hact =>
    cases r' with
    | error e => cases hr
    | ok u =>
      cases hr
      obtain ⟨store, hcand, hstores, rfl⟩ := (storeCandidate_eq_ok h hhash).mp hst
      obtain ⟨new, reorg, index, hnew, hreorg, -, rfl⟩ := activate_returns h hhash hcand hstores hact
      have hmem := Table.first_mem hfirst
      obtain ⟨chain, s, hb, hs, hold⟩ := h.store.activeChain hfirst
      cases hstores with
      | known hknown =>
        obtain ⟨q, hq, hlt⟩ := work_of_known h hhash hne hprev hmem hknown hcol
        have hle := work_le_of_first hfirst hq
        omega
      | @new chain' s' row hunknown hext hrow hbind =>
        obtain ⟨-, hbranch, hbuilt⟩ := hext.newRow h.store hhash hrow
        obtain ⟨q, hsnoc⟩ := hext.built
        obtain ⟨p, s₀, fees, hpre, hv, -, hheight, hparent⟩ := hsnoc.of_snoc_checked
        -- The parent is the best row, and its branch the active chain.
        obtain ⟨r', hr', hb'⟩ : ∃ r', r'.hash = b.previousHash ∧ Branch n.disk.store.blocks r' chain' :=
          hext.parent.resolve_left fun hroot => hne hroot.1
        obtain rfl := List.inj_on_of_nodup_map h.store.nodup hb'.mem hmem (hr'.trans hprev.symm)
        obtain rfl := hb'.unique h.store.nodup hb
        obtain rfl := hpre.unique hs
        obtain ⟨bo, hbo, hbest⟩ := h.store.bestTip hfirst
        obtain ⟨hchild, hwork⟩ := work_of_child h hfirst hprev hne hrow hbo
        have hfirst' : Table.first BlockRow.better (n.disk.store.blocks ++ [row]) = some row := by
          rw [Table.first_concat_eq better_total better_trans, hfirst]
          have hpos := workFor_pos b
          have hnot : ¬ r'.better row := by
            rw [BlockRow.better]
            omega
          simp only [if_neg hnot]
        have hok' := (Stores.new hunknown hext hrow hbind).storeOk h.store hhash
        obtain ⟨chain'', s'', hb'', hs'', hactive⟩ := hok'.activeChain hfirst'
        obtain rfl := hb''.unique hok'.nodup hbranch
        rw [List.map_append] at hs''
        obtain rfl := hs''.unique hbuilt
        rw [hactive, Except.ok.injEq] at hnew
        subst hnew
        rw [htip, Except.ok.injEq] at hbest
        subst hbest
        refine ⟨_, hold, by rw [hwork], ?_, ⟨fees, ?_⟩, rfl, rfl, ?_⟩
        · rw [hactive, List.map_append, hwork]
          rfl
        · rw [hparent]
          exact hv
        · have htip' : ActiveChain.tip ⟨(chain' ++ [(⟨storedBlock b, row.cumulativeWork⟩ : StoredConsensusBlock)]).map (·.block), s'',
              row.cumulativeWork⟩ = some (storedBlock b) := by
            rw [List.map_append]
            exact List.getLast?_concat
          have hlink : (storedBlock b).previousHash = r'.hash ∧ (storedBlock b).height = bo.height + 1 := by
            refine ⟨?_, hchild⟩
            show storedHash b.previousHash = r'.hash
            rw [← hprev, storedHash_hash hbo.hash]
          rw [htip'] at hreorg
          have hevent := detectReorg_eq_ok hbo.hash ((hash_storedBlock b).trans hhash) hreorg
          rwa [if_pos (.inr hlink)] at hevent

/-! ## Mining -/

/-- What `build_candidate_block` puts into a block. -/
theorem buildCandidateBlock_eq_ok {minerAddress : Str} {timestamp : UInt64}
    (hb : n.buildCandidateBlock minerAddress timestamp = .ok b) :
    ∃ selected fees s height, selected.Perm n.mempool ∧ applyEach n.state selected = .ok (fees, s) ∧
      n.height = .ok height ∧ 0 ≤ height + 1 ∧ n.tipHash = .ok b.previousHash ∧ b.height = height + 1 ∧
      b.difficulty = n.difficulty ∧ b.timestamp = timestamp ∧ b.nonce = 0 ∧
      b.transactions = minerCoinbase minerAddress (s.blockSubsidy + fees.sum) (height + 1) :: selected ∧
      calculateTransactionRoot b.transactions = .ok b.transactionRoot := by
  simp only [ConsensusNode.buildCandidateBlock, bind_eq_ok, exists_unit, Prod.exists, createCoinbase_eq_ok, create_eq_ok] at hb
  obtain ⟨-, selected, f, s, hselect, height, hheight, c, ⟨haddr, hf, hpos, -, rfl⟩, tip, htip, root, hroot, rfl⟩ := hb
  obtain ⟨hperm, fees, happ, rfl⟩ := prioritizedTransactions_eq_ok rfl hselect
  exact ⟨selected, fees, s, height, hperm, happ, hheight, hpos, htip, rfl, rfl, rfl, rfl, rfl, hroot⟩

/-- The block with another nonce has its work. -/
def Works (b : ConsensusBlock) (nonce : Int) : Prop :=
  ∃ hash, ConsensusBlock.hash { b with nonce := nonce } = .ok hash ∧
    (List.replicate b.difficulty.toNat '0').isPrefixOf hash = true

omit [Ed25519] in
/-- The loop of `_mine` stops at the first nonce that gives the block its work. -/
theorem mineLoop_eq_ok (hroot : calculateTransactionRoot b.transactions = .ok b.transactionRoot) :
    ∀ (fuel : Nat) (nonce : Int) {mined : ConsensusBlock},
    ConsensusNode.mineLoop b fuel nonce { b with nonce := nonce } = .ok mined →
    ∃ last, nonce ≤ last ∧ mined = { b with nonce := last } ∧ Works b last ∧ ∀ k, nonce ≤ k → k < last → ¬ Works b k
  | 0, _, _, h => by cases h
  | fuel + 1, nonce, mined, h => by
    obtain ⟨hash, hhash, h⟩ := bind_eq_ok.mp h
    split at h
    · rename_i hwork
      rw [pure_eq_ok] at h
      exact ⟨nonce, le_rfl, h.symm, ⟨hash, hhash, hwork⟩, fun k hk hlt => absurd hk (not_le.mpr hlt)⟩
    · rename_i hno
      obtain ⟨next, hnext, h⟩ := bind_eq_ok.mp h
      simp only [ConsensusBlock.create, if_true, hroot, ok_bind, pure_eq_ok] at hnext
      subst hnext
      obtain ⟨last, hle, hlast, hwork, hfirst⟩ := mineLoop_eq_ok hroot fuel (nonce + 1) h
      refine ⟨last, by omega, hlast, hwork, fun k hk hlt => ?_⟩
      rcases hk.eq_or_lt with rfl | hk
      · rintro ⟨hash', hhash', hwork'⟩
        rw [hhash, Except.ok.injEq] at hhash'
        exact hno (hhash' ▸ hwork')
      · exact hfirst k hk hlt

theorem mineBlock_returns {minerAddress : Str} {timestamp : UInt64} {fuel : Nat} {stored : StoredConsensusBlock}
    (h : (ConsensusNode.mineBlock minerAddress timestamp fuel).call n = (.ok stored, n')) :
    ∃ candidate, n.buildCandidateBlock minerAddress timestamp = .ok candidate ∧
      ∃ b, ConsensusNode.mine fuel candidate = .ok b ∧ (Call.mineBlock minerAddress timestamp fuel).offered n = some b ∧
        (ConsensusNode.importBlock b).call n = (.ok stored, n') := by
  simp only [ConsensusNode.mineBlock, Method.call_bind, Method.call_reading] at h
  cases hc : n.buildCandidateBlock minerAddress timestamp with
  | error e =>
    rw [hc] at h
    cases h
  | ok candidate =>
    cases hb : ConsensusNode.mine fuel candidate with
    | error e =>
      simp only [hc, hb] at h
      cases h
    | ok b =>
      simp only [hc, hb] at h
      refine ⟨candidate, rfl, b, hb, ?_, h⟩
      simp only [Call.offered, hc, ok_bind, hb]
      rfl

/-- What applies also does on the same state with its outputs in another order, for the same fees. -/
theorem applyEach_congr {ts : List ConsensusTransaction} {s s' s₁ : ConsensusState} {fees : List Int} (hsame : SameState s' s)
    (hmax : s.utxos.total ≤ s.maxMoney) (hc : ∀ t ∈ ts, t.isCoinbase = false) (h : applyEach s ts = .ok (fees, s₁)) :
    ∃ s₂, applyEach s' ts = .ok (fees, s₂) := by
  obtain ⟨hlen, hr, -⟩ := (applyEach_eq_ok hmax hc).mp h
  rw [← hsame.total, ← hsame.maxMoney] at hmax
  obtain ⟨u, hr', -⟩ := hr.congr (pricedRules_local _) hsame.lookup
  rw [← hsame.maxMoney] at hr'
  exact ⟨{ s' with utxos := u }, (applyEach_eq_ok hmax hc).mpr ⟨hlen, hr', rfl⟩⟩

/-- A transaction that is in the block is not kept. -/
theorem mempoolAfter_of_subset (n : ConsensusNode) (s : ConsensusState) (h : n.mempool ⊆ b.transactions) :
    mempoolAfter n s b = [] := by
  have hnone : (n.mempool.filter fun t => txidOf t ∉ b.transactions.map txidOf) = [] :=
    List.filter_eq_nil_iff.mpr fun t ht => by simpa using ⟨t, h ht, rfl⟩
  rw [mempoolAfter, hnone]
  rfl

/-- The block that `mine_block` imports: on top of the tip, with all that is pending. -/
structure Mined (n : ConsensusNode) (minerAddress : Str) (timestamp : UInt64) (old : ActiveChain) (b : ConsensusBlock) : Prop where
  height : b.height = old.blocks.length
  difficulty : b.difficulty = n.difficulty
  timestamp : b.timestamp = timestamp
  transactions : ∃ selected fees s, selected.Perm n.mempool ∧ applyEach n.state selected = .ok (fees, s) ∧
    b.transactions = minerCoinbase minerAddress (n.state.blockSubsidy + fees.sum) old.blocks.length :: selected
  nonce : 0 ≤ b.nonce ∧ Works b b.nonce ∧ ∀ k, 0 ≤ k → k < b.nonce → ¬ Works b k

/-- A block that pays the subsidy and the fees of what is pending lets the supply grow by the subsidy. -/
theorem total_of_pays (h : NodeOk n) {s s' s₁ : ConsensusState} (hsame : SameState n.state s)
    (hpending : ∀ t ∈ n.mempool, t.isCoinbase = false) {selected : List ConsensusTransaction} (hperm : selected.Perm n.mempool)
    {fees : List Int} (happ : applyEach n.state selected = .ok (fees, s₁)) {minerAddress previousHash : Str} {height height' f : Int}
    (htxs : b.transactions = minerCoinbase minerAddress (n.state.blockSubsidy + fees.sum) height :: selected)
    (hv : validateCandidate s b height' previousHash = .ok (f, s')) :
    s'.utxos.total = n.state.utxos.total + n.state.blockSubsidy := by
  obtain ⟨c, rest, s₂, hcheck, hrest, -⟩ := validateCandidate_eq_ok.mp hv
  obtain ⟨-, -, hchecked⟩ := checkBlock_eq_ok.mp hcheck
  obtain ⟨rfl, rfl⟩ := List.cons.inj (hchecked.transactions.symm.trans htxs)
  -- The fees do not depend on the order of the outputs.
  obtain ⟨s₃, happ'⟩ := applyEach_congr ⟨hsame.blockSubsidy.symm, hsame.maxMoney.symm, hsame.utxos.symm⟩ h.total.2
    (fun t ht => hpending t (hperm.mem_iff.mp ht)) happ
  have hfees := (applyTransactions_of_applyEach happ' 0).symm.trans hrest
  rw [Except.ok.injEq, Prod.mk.injEq] at hfees
  have htotal := (accepted_of_validateCandidate hv).total
  have hpaid : coinbaseTotal b = n.state.blockSubsidy + fees.sum :=
    hchecked.coinbaseTotal_eq.trans (by simp [minerCoinbase, outputTotal])
  rw [← hsame.total] at htotal
  omega

/-- Mining on a node that has a chain extends the active chain by a block with all that is pending, which the first nonce
gives its work. Nothing is pending afterwards, no reorganisation is reported, and the supply has grown by the subsidy. -/
theorem mineBlock_extends (calls : List Call) (n n' : ConsensusNode) (hn : World.after calls = .up n)
    (hne : n.disk.store.blocks ≠ []) (minerAddress : Str) (timestamp : UInt64) (fuel : Nat) (stored : StoredConsensusBlock)
    (hcall : (ConsensusNode.mineBlock minerAddress timestamp fuel).call n = (.ok stored, n'))
    (hcol : ∀ b, (Call.mineBlock minerAddress timestamp fuel).offered n = some b → NoHeaderCollision n.disk.store b) :
    ∃ old, n.forkChoice.activeChain n.disk.store = .ok old ∧ Mined n minerAddress timestamp old stored.block ∧
      stored.cumulativeWork = old.cumulativeWork + workFor stored.block ∧
      n'.forkChoice.activeChain n'.disk.store =
        .ok ⟨old.blocks ++ [storedBlock stored.block], n'.state, stored.cumulativeWork⟩ ∧
      n'.mempool = [] ∧ n'.disk.mempoolStore.rows = [] ∧ n'.lastReorg = none ∧
      n'.state.utxos.total = n.state.utxos.total + n.state.blockSubsidy := by
  have h := nodeOk_after hn
  have hpending : ∀ t ∈ n.mempool, t.isCoinbase = false := fun t ht => ((synced_after hn).pending t ht).notCoinbase
  obtain ⟨r, hfirst⟩ : ∃ r, Table.first BlockRow.better n.disk.store.blocks = some r :=
    Option.ne_none_iff_exists'.mp fun hnone => hne (Table.first_eq_none.mp hnone)
  obtain ⟨candidate, hcandidate, b, hb, hoffered, himport⟩ := mineBlock_returns hcall
  obtain ⟨selected, fees, s, height, hperm, happ, hheight, hnn, htip, hnext, hdifficulty, htime, hzero, htxs, hroot⟩ :=
    buildCandidateBlock_eq_ok hcandidate
  obtain ⟨nonce, hnonce, hmined, hwork, hleast⟩ := mineLoop_eq_ok hroot fuel candidate.nonce hb
  have htransactions : b.transactions = candidate.transactions := by rw [hmined]
  -- The tip of the node is the best row.
  obtain ⟨bo, hbo, hbest⟩ := h.store.bestTip hfirst
  obtain ⟨chain, s₀, hbranch, -, hold⟩ := h.store.activeChain hfirst
  simp only [ConsensusNode.height, ConsensusNode.tipHash, hbest, ok_bind, pure_eq_ok] at hheight htip
  have hlen := hbranch.length
  have hrow := hbo.height
  have hchild : height + 1 = ((chain.map (·.block)).length : Int) := by
    rw [List.length_map]
    omega
  have hbheight : b.height = ((chain.map (·.block)).length : Int) := by
    rw [hmined, ← hchild]
    exact hnext
  have hparent : r.hash = b.previousHash := by
    rw [hmined]
    exact Except.ok.inj (hbo.hash.symm.trans htip)
  have hpositive : b.height ≠ 0 := by
    rw [hbheight, List.length_map]
    have := hbranch.height_nonneg
    omega
  obtain ⟨-, -, hparams⟩ := applyEach_total (fun t ht => hpending t (hperm.mem_iff.mp ht)) happ
  rw [hchild, show s.blockSubsidy = n.state.blockSubsidy by rw [hparams], ← htransactions] at htxs
  obtain ⟨old, hold', hext⟩ := importBlock_extends h hfirst hparent hpositive (hcol b hoffered) himport
  rw [hold, Except.ok.injEq] at hold'
  subst hold'
  have hempty : n'.mempool = [] := by
    rw [hext.mempool]
    refine mempoolAfter_of_subset n n'.state fun t ht => ?_
    rw [htxs]
    exact List.mem_cons_of_mem _ (hperm.mem_iff.mpr ht)
  have hworks : ∀ k, Works b k ↔ Works candidate k := fun k => by
    rw [hmined]
    exact Iff.rfl
  have hnonces : 0 ≤ b.nonce ∧ Works b b.nonce ∧ ∀ k, 0 ≤ k → k < b.nonce → ¬ Works b k := by
    simp only [hworks, ← hzero]
    rw [hmined]
    exact ⟨hnonce, hwork, hleast⟩
  rw [hext.stored]
  refine ⟨_, hold, ⟨hbheight, hmined ▸ hdifficulty, hmined ▸ htime, ⟨selected, fees, s, hperm, happ, htxs⟩, hnonces⟩, rfl,
    hext.active, hempty, ?_, hext.lastReorg, ?_⟩
  · rw [hext.mempoolStore, hempty]
    rfl
  · obtain ⟨a, ha, hsame⟩ := h.active
    rw [hold, Except.ok.injEq] at ha
    subst ha
    obtain ⟨f, hv⟩ := hext.valid
    rw [total_of_pays h hsame hpending hperm happ htxs hv]

omit [Ed25519]

/-- Alice mines the first block after the genesis block. -/
theorem mineBlock_extends_genesisNode :
    let _ := aliceVerify
    ∃ (stored : StoredConsensusBlock) (n' : ConsensusNode),
      (ConsensusNode.mineBlock aliceAddress 0 1).call genesisNode = (.ok stored, n') ∧
        n'.mempool = [] ∧ n'.lastReorg = none ∧
        n'.state.utxos.total = genesisNode.state.utxos.total + genesisNode.state.blockSubsidy := by
  intro _
  have hreturns : ((ConsensusNode.mineBlock aliceAddress 0 1).call genesisNode).1.isOk = true := by decide +kernel
  obtain ⟨stored, n', hcall⟩ := Method.exists_call_of_isOk hreturns
  have hoffered : Call.offered genesisNode (Call.mineBlock aliceAddress 0 1) = some (aliceCandidate 50) := by decide +kernel
  have hnew : (aliceCandidate 50).hash.map genesisNode.disk.store.hasBlock = .ok false := by decide +kernel
  obtain ⟨-, -, -, -, -, hempty, -, hreorg, htotal⟩ := mineBlock_extends _ genesisNode n' created_genesisNode (by decide)
    aliceAddress 0 1 stored hcall fun b hb hash held hhash hget => by
      rw [hoffered, Option.some.injEq] at hb
      rw [hb, hhash, Except.map, Except.ok.injEq] at hnew
      exact absurd hget (getBlock_of_not_hasBlock hnew)
  exact ⟨stored, n', hcall, hempty, hreorg, htotal⟩

end BCC.Proof
