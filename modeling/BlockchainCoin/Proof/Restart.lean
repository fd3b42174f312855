import BlockchainCoin.Proof.Decode
import BlockchainCoin.Proof.Index

/-!
# Nodes that are opened again

`ConsensusNode.open` on the files of a node replays every branch it ever stored
and takes nothing from the index that does not agree with it. The index can only
make it raise by an integer that cannot be bound, and outputs of a stored chain
have small indexes (`Replayed.index_lt`), so with amounts in range it returns the
same chain whatever the index holds (`restart_keeps_chain`).
-/

namespace BCC.Proof

open BCC.Impl BCC.Ledger BlockProcessor

/-! ## Reading any index -/

/-- The tables of an index as a database can hold them: no two rows share a primary key. -/
structure Keyed (i : UTXOIndex) : Prop where
  utxos : (i.utxos.map UtxoRow.outpoint).Nodup
  utxoSnapshots : (i.utxoSnapshots.map fun r => (r.tipHash, r.row.outpoint)).Nodup

theorem Keyed.snapshotAt {i : UTXOIndex} (h : Keyed i) (tipHash : Str) :
    ((Proof.snapshotAt i tipHash).map UtxoRow.outpoint).Nodup := by
  have hn := h.utxoSnapshots.sublist
    (((List.filter_sublist (p := fun r : SnapshotRow => decide (r.tipHash = tipHash))).map
      fun r => (r.tipHash, r.row.outpoint)))
  have hmap : ((i.utxoSnapshots.filter fun r => r.tipHash = tipHash).map fun r => (r.tipHash, r.row.outpoint)) =
      ((Proof.snapshotAt i tipHash).map UtxoRow.outpoint).map (Prod.mk tipHash) := by
    rw [Proof.snapshotAt, List.map_map, List.map_map]
    refine List.map_congr_left fun r hr => ?_
    have ht := (List.mem_filter.mp hr).2
    rw [decide_eq_true_iff] at ht
    rw [ht]
    rfl
  rw [hmap] at hn
  exact hn.of_map _

/-- A snapshot is read without an error, whatever the rows are. -/
theorem Keyed.loadSnapshot {i : UTXOIndex} (h : Keyed i) (tipHash : Str) :
    ∃ indexed, i.loadSnapshot tipHash = .ok indexed := by
  have hread : ∀ {rows : List UtxoRow}, (rows.map UtxoRow.outpoint).Nodup →
      ∃ u, utxosOfRows (rows.insertionSort UtxoRow.before) = .ok u := fun {rows} hn => by
    have hp := (List.perm_insertionSort UtxoRow.before rows).map UtxoRow.outpoint
    obtain ⟨u, hu, -⟩ := utxosOfRows_eq_ok (hp.nodup_iff.mpr hn)
    exact ⟨u, hu⟩
  have htip : ∃ r, i.loadTipSnapshot tipHash = .ok r := by
    unfold UTXOIndex.loadTipSnapshot
    simp only
    split
    · exact ⟨none, rfl⟩
    · obtain ⟨u, hu⟩ := hread (h.snapshotAt tipHash)
      exact ⟨some u, by rw [← Proof.snapshotAt, hu]; rfl⟩
  obtain ⟨r, hr⟩ := htip
  rw [UTXOIndex.loadSnapshot, hr, ok_bind]
  cases r with
  | some u => exact ⟨some u, rfl⟩
  | none =>
    simp only
    split
    · obtain ⟨u, hu⟩ := hread h.utxos
      exact ⟨some u, by rw [hu]; rfl⟩
    · exact ⟨none, rfl⟩

/-! ## Integers that can be bound -/

theorem bindInt_eq_ok {value : Int} : bindInt value = .ok () ↔ IsInt64 value := by
  rw [bindInt, raiseIf_eq_ok, not_or, not_lt, not_le]
  rfl

theorem mem_utxoRows {u : UTXOSet} {row : UtxoRow} : row ∈ utxoRows u ↔ u.lookup row.outpoint = some row.output := by
  rw [(utxoRows_perm u).mem_iff, List.mem_map]
  constructor
  · rintro ⟨e, he, rfl⟩
    exact AList.mem_lookup_iff.mpr he
  · intro h
    exact ⟨⟨row.outpoint, row.output⟩, AList.mem_lookup_iff.mp h, rfl⟩

theorem bindable_iff {u : UTXOSet} :
    Bindable u ↔ ∀ o out, u.lookup o = some out → IsInt64 o.index ∧ IsInt64 out.amount := by
  simp only [Bindable, mem_utxoRows, bindUtxo, bind_eq_ok, exists_unit, bindInt_eq_ok]
  exact ⟨fun h o out ho => h ⟨o, out⟩ ho, fun h row hrow => h _ _ hrow⟩

theorem length_le_of_mapM {α : Type} {f : α → Except PyError Bytes} (hf : ∀ {a : α} {bs : Bytes}, f a = .ok bs → 0 < bs.length) :
    ∀ {l : List α} {bss : List Bytes}, l.mapM f = .ok bss → l.length ≤ bss.flatten.length
  | [], _, _ => Nat.zero_le _
  | a :: l, bss, h => by
    simp only [List.mapM_cons, bind_eq_ok, pure_eq_ok] at h
    obtain ⟨bs, hbs, rest, hrest, rfl⟩ := h
    have hpos := hf hbs
    have hlen := length_le_of_mapM hf hrest
    rw [List.flatten_cons, List.length_append, List.length_cons]
    omega

/-- Each input and each output takes at least one byte. -/
theorem lengths_le {t : ConsensusTransaction} {bs : Bytes} (h : t.toBytes = .ok bs) :
    t.inputs.length ≤ bs.length ∧ t.outputs.length ≤ bs.length := by
  simp only [ConsensusTransaction.toBytes, bind_eq_ok, pure_eq_ok] at h
  obtain ⟨_, -, _, -, inputs, hinputs, _, -, outputs, houtputs, rfl⟩ := h
  have hinput : ∀ {x : TxInput} {bs : Bytes}, x.toBytes true = .ok bs → 0 < bs.length := fun hx => by
    simp only [TxInput.toBytes, OutPoint.toBytes, if_true, bind_eq_ok, pure_eq_ok, encodeInt_eq_ok] at hx
    obtain ⟨_, ⟨_, -, _, ⟨-, rfl⟩, rfl⟩, _, -, rfl⟩ := hx
    simp only [List.length_append, length_beBytes]
    omega
  have houtput : ∀ {o : TxOutput} {bs : Bytes}, o.toBytes = .ok bs → 0 < bs.length := fun ho => by
    simp only [TxOutput.toBytes, bind_eq_ok, pure_eq_ok, encodeUint_eq_ok] at ho
    obtain ⟨_, ⟨-, rfl⟩, _, -, rfl⟩ := ho
    simp only [List.length_append, length_beBytes]
    omega
  have hin := length_le_of_mapM hinput hinputs
  have hout := length_le_of_mapM houtput houtputs
  simp only [List.length_append]
  omega

theorem Branch.wellFormed {rows : List BlockRow} {r : BlockRow} {chain : List StoredConsensusBlock}
    (h : Branch rows r chain) : ∀ stored ∈ chain, WellFormedBlock stored.block := by
  have hrow : ∀ {b : ConsensusBlock} {r : BlockRow}, RowOf b r → WellFormedBlock b := fun {b r} hb => by
    have hdata := hb.data
    rw [decodeConsensusBlock, bind_eq_ok] at hdata
    obtain ⟨raw, -, hraw⟩ := hdata
    exact (takes_block.of_run' hraw).2
  induction h with
  | root _ hb => exact List.forall_mem_singleton.mpr (hrow hb)
  | child _ hb _ _ _ _ ih =>
    intro stored hmem
    rcases List.mem_append.mp hmem with hmem | hmem
    · exact ih stored hmem
    · rw [List.mem_singleton.mp hmem]
      exact hrow hb

variable [Ed25519]

/-- An output of a stored chain has an index below the size of the transaction that made it. -/
theorem Replayed.index_lt {f : ForkChoice} {store : ForkStore} {r : BlockRow} {chain : List StoredConsensusBlock}
    {s : ConsensusState} (h : Replayed f store r chain s) {o : OutPoint} {out : TxOutput}
    (ho : s.utxos.lookup o = some out) : 0 ≤ o.index ∧ o.index < 2 ^ 32 := by
  obtain ⟨s₀, fs, hinit, hr⟩ := rebuildStateFromBlocks_eq_ok.mp (built_iff.mpr ⟨_, h.built⟩)
  rcases hr.run.gained ho with hs₀ | ⟨t, ht, _, -, hcreated⟩
  · rw [(init_eq_ok hinit).1] at hs₀
    cases hs₀
  · have ht := (flatMap_appliedOrder_perm _).mem_iff.mp ht
    obtain ⟨b, hb, htb⟩ := List.mem_flatMap.mp ht
    obtain ⟨stored, hstored, rfl⟩ := List.mem_map.mp hb
    obtain ⟨-, hsize⟩ := (h.branch.wellFormed stored hstored).transactions t htb
    obtain ⟨bs, hbs, -⟩ := bind_eq_ok.mp (h.built.txids t ht)
    obtain ⟨i, rfl, hi⟩ := mem_createdFrom.mp hcreated
    have hlt := (List.getElem?_eq_some_iff.mp hi).1
    have hle := (lengths_le hbs).2
    have hbound := hsize bs hbs
    simp only
    omega

theorem NodeOk.bindable {n : ConsensusNode} (h : NodeOk n)
    (hrange : ∀ o out, n.state.utxos.lookup o = some out → out.amount < 2 ^ 63) : Bindable n.state.utxos := by
  refine bindable_iff.mpr fun o out ho => ?_
  obtain ⟨a, ha, hs⟩ := h.active
  have hamount : IsInt64 out.amount := by
    have hpos := (h.valued o out ho).1
    exact ⟨by omega, hrange o out ho⟩
  rw [hs.lookup] at ho
  rcases h.store.activeChain_eq_ok ha with ⟨-, -, hinit⟩ | ⟨r, chain, -, hb, hbuilt, -⟩
  · rw [(init_eq_ok hinit).1] at ho
    cases ho
  · obtain ⟨hlo, hhi⟩ := Replayed.index_lt ⟨hb, hbuilt⟩ ho
    exact ⟨⟨by omega, by omega⟩, hamount⟩

/-! ## Opening -/

omit [Ed25519] in
/-- The parameters of a state are good for another UTXO set. -/
theorem exists_init (s : ConsensusState) (u : UTXOSet) :
    ∃ s', ConsensusState.init u s.blockSubsidy s.maxMoney = .ok s' := by
  rw [ConsensusState.init, dif_neg (not_lt.mpr s.blockSubsidy_nonneg), dif_neg (not_le.mpr s.maxMoney_pos)]
  exact ⟨_, rfl⟩

omit [Ed25519] in
theorem utxoRows_of_sortedEntries {u u' : UTXOSet} (h : u.sortedEntries = u'.sortedEntries) : utxoRows u = utxoRows u' := by
  rw [utxoRows, h]
  rfl

/-- Whatever an index holds, the state is found: it is the replayed one. -/
theorem exists_openState {f : ForkChoice} {store : ForkStore} (hok : StoreOk f store) {a : ActiveChain}
    (ha : f.activeChain store = .ok a) (hb : Bindable a.state.utxos) {d : Disk} (hi : Keyed d.utxoIndex) :
    ∃ s index, (ConsensusNode.openState f a).call d = (.ok s, { d with utxoIndex := index }) ∧ SameState s a.state := by
  have hparams := hok.activeChain_params ha
  cases htip : a.tip with
  | none => exact ⟨a.state, d.utxoIndex, openState_eq_ok.mpr (.inl ⟨htip, rfl, rfl⟩), .refl _⟩
  | some tip =>
    obtain ⟨hash, hhash⟩ : ∃ hash, tip.hash = .ok hash := by
      rcases hok.activeChain_eq_ok ha with ⟨-, hnil, -⟩ | ⟨r, chain, -, hbranch, -, he⟩
      · rw [ActiveChain.tip, hnil] at htip
        cases htip
      · obtain ⟨b, hrow, -, hlast⟩ := hbranch.last
        rw [ActiveChain.tip, he, hlast, Option.some.injEq] at htip
        exact ⟨r.hash, htip ▸ hrow.hash⟩
    obtain ⟨indexed, hload⟩ := hi.loadSnapshot hash
    by_cases hagree : ∃ u, indexed = some u ∧ u.sortedEntries = a.state.utxos.sortedEntries
    · obtain ⟨u, hu, hsame⟩ := hagree
      obtain ⟨s, hinit⟩ := exists_init a.state u
      obtain ⟨rfl, hsub, hmax⟩ := init_eq_ok hinit
      rw [hparams.1, hparams.2] at hinit
      exact ⟨s, d.utxoIndex, openState_eq_ok.mpr (.inr ⟨tip, hash, indexed, htip, hhash, hload,
        .inl ⟨_, hu, hsame, hinit, rfl⟩⟩), hsub, hmax, hsame⟩
    · obtain ⟨index, hsave⟩ : ∃ index, d.utxoIndex.saveSnapshot hash a.state.utxos = .ok index :=
        ⟨_, saveSnapshot_eq_ok.mpr ⟨hb, rfl⟩⟩
      exact ⟨a.state, _, openState_eq_ok.mpr (.inr ⟨tip, hash, indexed, htip, hhash, hload,
        .inr ⟨fun u hu he => hagree ⟨u, hu, he⟩, rfl, _, hsave, rfl⟩⟩), .refl _⟩

/-- The node that is opened on the files of another, with an index beside them from which the state is found. -/
theorem NodeOk.open_of_state {n : ConsensusNode} (h : NodeOk n) (hsync : Synced n) {p : ChainParameters}
    (hp : n.disk.store.parameters = some p) {i index : UTXOIndex} {a : ActiveChain} {s : ConsensusState}
    (ha : n.forkChoice.activeChain n.disk.store = .ok a) (hopen : (ConsensusNode.openState n.forkChoice a).call
      { n.disk with utxoIndex := i } = (.ok s, { n.disk with utxoIndex := index }))
    (hsame : SameState s a.state) {ts : List ConsensusTransaction} (hts : DistinctTxids ts)
    (hrows : n.disk.mempoolStore = ⟨ts.map rowOf⟩) :
    ∃ n' d', (ConsensusNode.openNode p).call { n.disk with utxoIndex := i } = (.ok n', d') ∧
      n'.disk.store = n.disk.store ∧ n'.forkChoice = n.forkChoice ∧ SameState n'.state n.state ∧
      n'.mempool = loaded {} n'.state ts := by
  have hparams := h.parameters
  rw [hp, Option.some.injEq] at hparams
  subst hparams
  have hreq : n.disk.store.requireChainParameters ⟨n.difficulty, n.forkChoice.blockSubsidy, n.forkChoice.maxMoney⟩ =
      .ok n.disk.store := by
    rw [ForkStore.requireChainParameters, hp]
    simp only [if_true]
    rfl
  obtain ⟨a', ha', hs⟩ := h.active
  rw [ha, Except.ok.injEq] at ha'
  subst ha'
  obtain ⟨us, d', hinit⟩ := init_call (d := { n.disk with utxoIndex := index }) hts hrows hsync.difficulty s {} n.forkChoice
  refine ⟨_, d', openNode_eq_ok.mpr ⟨n.disk.store, a, s, _, hreq, ha, h.store.validateAllKnownBranches, hopen, hinit⟩, rfl, rfl,
    ?_, rfl⟩
  exact ⟨hsame.blockSubsidy.trans hs.blockSubsidy.symm, hsame.maxMoney.trans hs.maxMoney.symm, hsame.utxos.trans hs.utxos.symm⟩

/-- The node that is opened on the files of another, with any index beside them. -/
theorem NodeOk.exists_open {n : ConsensusNode} (h : NodeOk n) (hsync : Synced n) (hb : Bindable n.state.utxos)
    {p : ChainParameters} (hp : n.disk.store.parameters = some p) {i : UTXOIndex} (hi : Keyed i)
    {ts : List ConsensusTransaction} (hts : DistinctTxids ts) (hrows : n.disk.mempoolStore = ⟨ts.map rowOf⟩) :
    ∃ n' d', (ConsensusNode.openNode p).call { n.disk with utxoIndex := i } = (.ok n', d') ∧
      n'.disk.store = n.disk.store ∧ n'.forkChoice = n.forkChoice ∧ SameState n'.state n.state ∧
      n'.mempool = loaded {} n'.state ts := by
  obtain ⟨a, ha, hs⟩ := h.active
  have hba : Bindable a.state.utxos := by
    rw [Bindable, ← utxoRows_of_sortedEntries hs.utxos]
    exact hb
  obtain ⟨s, index, hopen, hsame⟩ := exists_openState h.store ha hba (d := { n.disk with utxoIndex := i }) hi
  exact h.open_of_state hsync hp ha hopen hsame hts hrows

/-- Other parameters than the stored ones are refused. -/
theorem openNode_refuses {d : Disk} {p p' : ChainParameters} (hp : d.store.parameters = some p) (hne : p' ≠ p) :
    ((ConsensusNode.openNode p').call d).1 = .error (.consensusNodeError "stored consensus chain failed validation") := by
  have hreq : d.store.requireChainParameters p' =
      .error (.storageError "chain parameters do not match stored chain") := by
    rw [ForkStore.requireChainParameters, hp]
    simp only [if_neg (Ne.symm hne)]
    rfl
  rw [ConsensusNode.openNode, Method.call_bind, Method.call_tryCatch, Method.call_bind,
    Method.call_assigning_of_error (by rw [hreq]; rfl)]
  rfl

/-! ## Restarts -/

/-- The calls of a node that is running. -/
def isMethod : Call → Bool
  | .create .. | .openNode _ | .close => false
  | _ => true

/-- The methods of a node leave its chain parameters as they are. -/
theorem step_parameters {n : ConsensusNode} (h : NodeOk n) {call : Call} (hcall : isMethod call = true) :
    ∃ n', (World.up n).step call = .up n' ∧ n'.disk.store.parameters = n.disk.store.parameters := by
  have himport : ∀ b, ((ConsensusNode.importBlock b).call n).2.disk.store.parameters = n.disk.store.parameters := fun b => by
    cases importBlock_effect h b with
    | refused _ hs => rw [hs]
    | rejected _ _ _ hs => rw [hs]
    | stored _ _ _ hst => exact hst.parameters
  cases call with
  | create => cases hcall
  | openNode => cases hcall
  | close => cases hcall
  | importBlock b => exact ⟨_, rfl, himport b⟩
  | mineBlock minerAddress timestamp fuel =>
    refine ⟨_, rfl, ?_⟩
    rcases mineBlock_cases n minerAddress timestamp fuel with ⟨e, he⟩ | ⟨b, -, he⟩
    · rw [he]
    · rw [he]; exact himport b
  | submitTransaction t =>
    refine ⟨_, rfl, ?_⟩
    rcases submitTransaction_call h.mempool t with ⟨e, he⟩ | ⟨txid, remaining, fee, -, he⟩
    · rw [he]
    · rw [he]; rfl
  | pruneMempool => exact ⟨_, rfl, by rw [pruneMempool_call h.mempool]; rfl⟩
  | clearMempool => exact ⟨_, rfl, by rw [clearMempool_call]; rfl⟩
  | reloadMempool =>
    obtain ⟨ts, hts, hrows⟩ := h.pool
    obtain ⟨us, hcall, -⟩ := reloadMempool_call hts hrows
    exact ⟨_, rfl, by rw [hcall]⟩
  | setPolicy => exact ⟨_, rfl, rfl⟩

/-- A node keeps the parameters it was created with. -/
theorem parameters_after {allocations : List (Str × Int)} {p : ChainParameters} {timestamp : UInt64} {fuel : Nat}
    {calls : List Call} (hcalls : ∀ call ∈ calls, isMethod call = true) {n : ConsensusNode}
    (hn : World.after (.create allocations p timestamp fuel :: calls) = .up n) : n.disk.store.parameters = some p := by
  have key : ∀ w, WorldOk w → (∀ m, w = .up m → m.disk.store.parameters = some p) →
      calls.foldl World.step w = .up n → n.disk.store.parameters = some p := by
    clear hn
    induction calls with
    | nil => exact fun w _ h hw => h n hw
    | cons call calls ih =>
      rw [List.forall_mem_cons] at hcalls
      intro w hok h hw
      refine ih hcalls.2 (w.step call) (hok.step call) (fun m hm => ?_) hw
      cases w with
      | down d =>
        -- Without a node the methods do nothing.
        cases call with
        | create => cases hcalls.1
        | openNode => cases hcalls.1
        | _ => cases hm
      | up m' =>
        obtain ⟨n', hn', hsame⟩ := step_parameters hok hcalls.1
        rw [hn', World.up.injEq] at hm
        rw [← hm, hsame]
        exact h m' rfl
  refine key _ (WorldOk.step (w := .down Disk.empty) diskOk_empty _) (fun m hm => ?_) hn
  rw [World.step] at hm
  rcases hcall : (ConsensusNode.create allocations p timestamp fuel).call Disk.empty with ⟨e | m', d'⟩
  · rw [hcall] at hm
    cases hm
  · rw [hcall] at hm
    obtain rfl := World.up.inj hm
    obtain ⟨genesis, hash, s, hc⟩ := create_returns diskOk_empty hcall
    obtain ⟨stored, hput⟩ := hc.store
    obtain ⟨_, -, ⟨-, hst, -⟩ | ⟨-, row, -, -, hst, -⟩⟩ := putBlock_eq_ok.mp hput
    · rw [hst]; rfl
    · rw [hst]; rfl

/-- Opening the files of a node again, whatever rows the index beside them holds, gives a node with the same
chain and the same unspent outputs; with other parameters it raises. -/
theorem restart_keeps_chain (allocations : List (Str × Int)) (p : ChainParameters) (timestamp : UInt64) (fuel : Nat)
    (calls : List Call) (hcalls : ∀ call ∈ calls, isMethod call = true) (n : ConsensusNode)
    (hn : World.after (.create allocations p timestamp fuel :: calls) = .up n)
    (hrange : ∀ o out, n.state.utxos.lookup o = some out → out.amount < 2 ^ 63) (index : UTXOIndex) (hindex : Keyed index) :
    (∃ n' d', (ConsensusNode.openNode p).call { n.disk with utxoIndex := index } = (.ok n', d') ∧
      n'.tipHash = n.tipHash ∧ n'.height = n.height ∧ n'.activeChainHashes = n.activeChainHashes ∧
      n'.state.utxos.sortedEntries = n.state.utxos.sortedEntries) ∧
    ∀ p', p' ≠ p → ((ConsensusNode.openNode p').call { n.disk with utxoIndex := index }).1 =
      .error (.consensusNodeError "stored consensus chain failed validation") := by
  have h := nodeOk_after hn
  have hp := parameters_after hcalls hn
  refine ⟨?_, fun p' hne => openNode_refuses hp hne⟩
  obtain ⟨ts, hts, hrows⟩ := h.pool
  obtain ⟨n', d', hopen, hstore, hf, hs, -⟩ := h.exists_open (synced_after hn) (h.bindable hrange) hp hindex hts hrows
  refine ⟨n', d', hopen, ?_, ?_, ?_, hs.utxos⟩
  · rw [ConsensusNode.tipHash, ConsensusNode.tipHash, hstore]
  · rw [ConsensusNode.height, ConsensusNode.height, hstore]
  · rw [ConsensusNode.activeChainHashes, ConsensusNode.activeChainHashes, hstore, hf]

omit [Ed25519]

/-- An index whose snapshot of the genesis block has a wrong amount. -/
def wrongIndex : UTXOIndex where
  utxos := []
  utxoSnapshots := [⟨genesisHash, ⟨⟨genesisTxid, 0⟩, ⟨99, aliceAddress⟩⟩⟩]
  spentOutpoints := []
  activeTip := some genesisHash

theorem restart_genesisNode : ∃ n' d',
    (@ConsensusNode.openNode aliceVerify ⟨0, 50, 1000⟩).call { genesisNode.disk with utxoIndex := wrongIndex } = (.ok n', d') ∧
      n'.tipHash = genesisNode.tipHash ∧ n'.state.utxos.sortedEntries = genesisNode.state.utxos.sortedEntries := by
  let _ := aliceVerify
  have hrange : ∀ o out, genesisNode.state.utxos.lookup o = some out → out.amount < 2 ^ 63 := fun o out ho => by
    have hle := ((nodeOk_after created_genesisNode).valued o out ho).2
    exact hle.trans_lt (by decide)
  obtain ⟨n', d', hopen, htip, -, -, hu⟩ := (restart_keeps_chain [(aliceAddress, 10)] ⟨0, 50, 1000⟩ 0 1 []
    (fun _ h => absurd h List.not_mem_nil) genesisNode created_genesisNode hrange wrongIndex ⟨by decide, by decide⟩).1
  exact ⟨n', d', hopen, htip, hu⟩

end BCC.Proof
