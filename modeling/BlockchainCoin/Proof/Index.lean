import BlockchainCoin.Proof.Import
import BlockchainCoin.Proof.Lives
import BlockchainCoin.Proof.Reopen

/-!
# The UTXO index

Each write of the index is taken apart when it returns: `saveTipSnapshot_eq_ok`,
`saveTipSpends_eq_ok` and `saveSnapshot_eq_ok` have the rows of one tip replaced
and those of every other tip kept. `Indexed` says that the rows of each stored
tip are those of its replayed branch and that the active rows are those of the
best one; creating, opening and importing keep it as long as they return.
-/

namespace BCC.Proof

open BCC.Impl BCC.Ledger BlockProcessor

/-! ## Rows of a tip -/

/-- The rows of `utxo_snapshots` of a tip. -/
def snapshotAt (i : UTXOIndex) (tipHash : Str) : List UtxoRow :=
  (i.utxoSnapshots.filter fun r => r.tipHash = tipHash).map (·.row)

/-- The rows of `spent_outpoints` of a tip. -/
def spendsAt (i : UTXOIndex) (tipHash : Str) : List IndexedSpend :=
  (i.spentOutpoints.filter fun r => r.tipHash = tipHash).map (·.spend)

/-- The index with the rows of `u` as the snapshot of a tip. -/
def withSnapshot (i : UTXOIndex) (tipHash : Str) (u : UTXOSet) : UTXOIndex :=
  { i with utxoSnapshots :=
      (i.utxoSnapshots.filter fun r => r.tipHash ≠ tipHash) ++ (utxoRows u).map fun row => ⟨tipHash, row⟩ }

/-- The index with other spends of a tip. -/
def withSpends (i : UTXOIndex) (tipHash : Str) (spends : List IndexedSpend) : UTXOIndex :=
  { i with spentOutpoints :=
      (i.spentOutpoints.filter fun r => r.tipHash ≠ tipHash) ++ spends.map fun spend => ⟨tipHash, spend⟩ }

/-- The integers of every row can be bound. -/
def Bindable (u : UTXOSet) : Prop := ∀ row ∈ utxoRows u, bindUtxo row = .ok ()

theorem snapshotAt_withSnapshot (i : UTXOIndex) (tipHash h : Str) (u : UTXOSet) :
    snapshotAt (withSnapshot i tipHash u) h = if h = tipHash then utxoRows u else snapshotAt i h := by
  have hrows : ∀ r ∈ (utxoRows u).map (fun row => (⟨tipHash, row⟩ : SnapshotRow)), r.tipHash = tipHash := by
    intro r hr
    obtain ⟨row, -, rfl⟩ := List.mem_map.mp hr
    rfl
  rw [snapshotAt, withSnapshot, Table.filter_replacing hrows]
  split
  · rw [List.map_map]
    exact List.map_id' _
  · rfl

theorem spendsAt_withSpends (i : UTXOIndex) (tipHash h : Str) (spends : List IndexedSpend) :
    spendsAt (withSpends i tipHash spends) h = if h = tipHash then spends else spendsAt i h := by
  have hrows : ∀ r ∈ spends.map (fun spend => (⟨tipHash, spend⟩ : SpendRow)), r.tipHash = tipHash := by
    intro r hr
    obtain ⟨spend, -, rfl⟩ := List.mem_map.mp hr
    rfl
  rw [spendsAt, withSpends, Table.filter_replacing hrows]
  split
  · rw [List.map_map]
    exact List.map_id' _
  · rfl

theorem utxoRows_perm (u : UTXOSet) : (utxoRows u).Perm (u.entries.map fun e => ⟨e.1, e.2⟩) := by
  have h := (List.perm_insertionSort UTXOSet.entryLe (u.entries.map fun e => (e.1, e.2))).map
    fun e => (⟨e.1, e.2⟩ : UtxoRow)
  rw [List.map_map] at h
  exact h

theorem utxoRows_nodup (u : UTXOSet) : ((utxoRows u).map UtxoRow.outpoint).Nodup := by
  rw [((utxoRows_perm u).map UtxoRow.outpoint).nodup_iff, List.map_map]
  exact u.nodupKeys

/-! ## Writes -/

theorem writeTipSnapshot_eq_ok {i i' : UTXOIndex} {tipHash : Str} {u : UTXOSet} :
    i.writeTipSnapshot tipHash u = .ok i' ↔ Bindable u ∧ i' = withSnapshot i tipHash u := by
  have hrows : ∀ r ∈ (utxoRows u).map (fun row => (⟨tipHash, row⟩ : SnapshotRow)), r.tipHash = tipHash := by
    intro r hr
    obtain ⟨row, -, rfl⟩ := List.mem_map.mp hr
    rfl
  have hnodup : (((utxoRows u).map fun row => (⟨tipHash, row⟩ : SnapshotRow)).map fun r => r.row.outpoint).Nodup := by
    rw [List.map_map]
    exact utxoRows_nodup u
  simp only [UTXOIndex.writeTipSnapshot, bind_eq_ok, Table.insertAll_replacing hrows, hnodup, true_and, pure_eq_ok,
    List.forall_mem_map]
  constructor
  · rintro ⟨_, ⟨hb, rfl⟩, rfl⟩
    exact ⟨hb, rfl⟩
  · rintro ⟨hb, rfl⟩
    exact ⟨_, ⟨hb, rfl⟩, rfl⟩

theorem saveTipSnapshot_eq_ok {i i' : UTXOIndex} {tipHash : Str} {u : UTXOSet} :
    i.saveTipSnapshot tipHash u = .ok i' ↔ Bindable u ∧ i' = withSnapshot i tipHash u :=
  writeTipSnapshot_eq_ok

theorem saveSnapshot_eq_ok {i i' : UTXOIndex} {tipHash : Str} {u : UTXOSet} :
    i.saveSnapshot tipHash u = .ok i' ↔ Bindable u ∧
      i' = { withSnapshot i tipHash u with utxos := utxoRows u, activeTip := some tipHash } := by
  simp only [UTXOIndex.saveSnapshot, bind_eq_ok, writeTipSnapshot_eq_ok, Table.insertAll_eq_ok, utxoRows_nodup u, true_and,
    pure_eq_ok]
  constructor
  · rintro ⟨_, ⟨hb, rfl⟩, _, ⟨-, -, rfl⟩, rfl⟩
    exact ⟨hb, rfl⟩
  · rintro ⟨hb, rfl⟩
    exact ⟨_, ⟨hb, rfl⟩, _, ⟨hb, fun _ _ h => absurd h List.not_mem_nil, rfl⟩, rfl⟩

theorem saveTipSpends_eq_ok {i i' : UTXOIndex} {tipHash : Str} {blocks : List ConsensusBlock} :
    i.saveTipSpends tipHash blocks = .ok i' ↔ ∃ spends, branchSpends blocks = .ok spends ∧
      (∀ spend ∈ spends, bindSpend ⟨tipHash, spend⟩ = .ok ()) ∧ (spends.map IndexedSpend.outpoint).Nodup ∧
      i' = withSpends i tipHash spends := by
  simp only [UTXOIndex.saveTipSpends, bind_eq_ok]
  refine exists_congr fun spends => and_congr_right fun _ => ?_
  have hrows : ∀ r ∈ spends.map (fun spend => (⟨tipHash, spend⟩ : SpendRow)), r.tipHash = tipHash := by
    intro r hr
    obtain ⟨spend, -, rfl⟩ := List.mem_map.mp hr
    rfl
  have hmap : ((spends.map fun spend => (⟨tipHash, spend⟩ : SpendRow)).map fun r => r.spend.outpoint) =
      spends.map IndexedSpend.outpoint := by
    rw [List.map_map]
    rfl
  simp only [Table.insertAll_replacing hrows, hmap, pure_eq_ok, List.forall_mem_map]
  constructor
  · rintro ⟨_, ⟨hb, hn, rfl⟩, rfl⟩
    exact ⟨hb, hn, rfl⟩
  · rintro ⟨hb, hn, rfl⟩
    exact ⟨_, ⟨hb, hn, rfl⟩, rfl⟩

/-! ## Reads -/

instance : Std.Total UTXOSet.entryLe where
  total a b := by
    simp only [UTXOSet.entryLe]
    rcases lt_trichotomy a.1.txid b.1.txid with h | h | h
    · exact .inl (.inl h)
    · rcases Int.le_total a.1.index b.1.index with hi | hi
      · exact .inl (.inr ⟨h, hi⟩)
      · exact .inr (.inr ⟨h.symm, hi⟩)
    · exact .inr (.inl h)

instance : IsTrans (OutPoint × TxOutput) UTXOSet.entryLe where
  trans a b c hab hbc := by
    rcases hab with h | ⟨h, hi⟩ <;> rcases hbc with h' | ⟨h', hi'⟩
    · exact .inl (h.trans h')
    · exact .inl (h' ▸ h)
    · exact .inl (h ▸ h')
    · exact .inr ⟨h.trans h', hi.trans hi'⟩

theorem outpoint_eq_of_entryLe {a b : OutPoint × TxOutput} (hab : UTXOSet.entryLe a b) (hba : UTXOSet.entryLe b a) :
    a.1 = b.1 := by
  obtain ⟨⟨txid, index⟩, out⟩ := a
  obtain ⟨⟨txid', index'⟩, out'⟩ := b
  rcases hab with h | ⟨h, hi⟩ <;> rcases hba with h' | ⟨h', hi'⟩
  · exact absurd h' (not_lt_of_gt h)
  · exact absurd h (h' ▸ lt_irrefl _)
  · exact absurd h' (h ▸ lt_irrefl _)
  · simp only at h hi hi'
    rw [h, Int.le_antisymm hi hi']

theorem sortedEntries_eq {u u' : UTXOSet} (h : u.entries.Perm u'.entries) : u.sortedEntries = u'.sortedEntries := by
  have hp : u.sortedEntries.Perm u'.sortedEntries :=
    (List.perm_insertionSort _ _).trans ((h.map _).trans (List.perm_insertionSort _ _).symm)
  refine hp.eq_of_pairwise (fun a b ha hb hab hba => ?_) (List.pairwise_insertionSort _ _) (List.pairwise_insertionSort _ _)
  -- Entries with the same outpoint are the same entry.
  have hkeys : ((u'.sortedEntries).map Prod.fst).Nodup := by
    rw [UTXOSet.sortedEntries, ((List.perm_insertionSort UTXOSet.entryLe _).map Prod.fst).nodup_iff, List.map_map]
    exact u'.nodupKeys
  exact List.inj_on_of_nodup_map hkeys (hp.mem_iff.mp ha) hb (outpoint_eq_of_entryLe hab hba)

theorem foldlM_add {rows : List UtxoRow} {u : UTXOSet} (hn : (rows.map UtxoRow.outpoint).Nodup)
    (hf : ∀ row ∈ rows, row.outpoint ∉ u) :
    ∃ u', rows.foldlM (fun u row => UTXOSet.add u row.outpoint row.output) u = .ok u' ∧
      u'.entries.Perm (rows.map (fun row => ⟨row.outpoint, row.output⟩) ++ u.entries) := by
  induction rows generalizing u with
  | nil => exact ⟨u, rfl, .refl _⟩
  | cons row rows ih =>
    rw [List.map_cons, List.nodup_cons] at hn
    rw [List.forall_mem_cons] at hf
    have hf' : ∀ r ∈ rows, r.outpoint ∉ u.insert row.outpoint row.output := fun r hr hm => by
      rw [AList.mem_insert] at hm
      rcases hm with he | hm
      · exact hn.1 (he ▸ List.mem_map_of_mem hr)
      · exact hf.2 r hr hm
    obtain ⟨u', hu', hp⟩ := ih hn.2 hf'
    refine ⟨u', ?_, hp.trans ?_⟩
    · rw [List.foldlM_cons, add_eq_ok.mpr ⟨hf.1, rfl⟩]
      exact hu'
    · rw [AList.entries_insert_of_notMem hf.1]
      exact List.perm_middle

/-- Rows with distinct outpoints are read back as a set of exactly these entries. -/
theorem utxosOfRows_eq_ok {rows : List UtxoRow} (hn : (rows.map UtxoRow.outpoint).Nodup) :
    ∃ u, utxosOfRows rows = .ok u ∧ u.entries.Perm (rows.map fun row => ⟨row.outpoint, row.output⟩) := by
  obtain ⟨u, hu, hp⟩ := foldlM_add (u := ∅) hn fun _ _ => AList.notMem_empty _
  exact ⟨u, hu, by rwa [show (∅ : UTXOSet).entries = [] from rfl, List.append_nil] at hp⟩

theorem utxosOfRows_utxoRows {rows : List UtxoRow} {u : UTXOSet} (h : rows.Perm (utxoRows u)) :
    ∃ u', utxosOfRows rows = .ok u' ∧ u'.sortedEntries = u.sortedEntries := by
  obtain ⟨u', hu', hp⟩ := utxosOfRows_eq_ok (((h.map UtxoRow.outpoint).nodup_iff).mpr (utxoRows_nodup u))
  refine ⟨u', hu', sortedEntries_eq (hp.trans ?_)⟩
  have hback := (h.trans (utxoRows_perm u)).map fun row => (⟨row.outpoint, row.output⟩ : (_ : OutPoint) × TxOutput)
  rw [List.map_map] at hback
  exact hback.trans (.of_eq (List.map_id' _))

theorem utxoRows_eq_nil {u : UTXOSet} : utxoRows u = [] ↔ ∀ o, o ∉ u := by
  constructor
  · intro h o ho
    have hnil : u.entries = [] := by
      have hp := utxoRows_perm u
      rw [h] at hp
      exact List.map_eq_nil_iff.mp hp.nil_eq.symm
    obtain ⟨out, hout⟩ := Option.isSome_iff_exists.mp (AList.lookup_isSome.mpr ho)
    have hmem := AList.mem_lookup_iff.mp hout
    rw [hnil] at hmem
    exact List.not_mem_nil hmem
  · intro h
    by_contra hne
    obtain ⟨row, hrow⟩ := List.exists_mem_of_ne_nil _ hne
    obtain ⟨e, he, rfl⟩ := List.mem_map.mp ((utxoRows_perm u).mem_iff.mp hrow)
    exact h e.1 (List.mem_map_of_mem he)

theorem loadTipSnapshot_of_rows {i : UTXOIndex} {tipHash : Str} {u : UTXOSet} {o : OutPoint}
    (h : snapshotAt i tipHash = utxoRows u) (ho : o ∈ u) :
    ∃ u', i.loadTipSnapshot tipHash = .ok (some u') ∧ u'.sortedEntries = u.sortedEntries := by
  have hne : snapshotAt i tipHash ≠ [] := fun hnil => utxoRows_eq_nil.mp (h.symm.trans hnil) o ho
  obtain ⟨u', hu', hs⟩ := utxosOfRows_utxoRows
    ((List.perm_insertionSort UtxoRow.before (snapshotAt i tipHash)).trans (.of_eq h))
  refine ⟨u', ?_, hs⟩
  rw [UTXOIndex.loadTipSnapshot]
  show (if snapshotAt i tipHash = [] then _ else _) = _
  rw [if_neg hne]
  show some <$> utxosOfRows ((snapshotAt i tipHash).insertionSort UtxoRow.before) = _
  rw [hu']
  rfl

theorem utxosForAddressAtTip_of_rows {i : UTXOIndex} {tipHash : Str} {u : UTXOSet} (h : snapshotAt i tipHash = utxoRows u)
    (address : Str) :
    i.utxosForAddressAtTip tipHash address = (utxoRows u).filter fun row => row.output.address = address := by
  have hsorted : (utxoRows u).Pairwise UtxoRow.before := by
    have hs : u.sortedEntries.Pairwise UTXOSet.entryLe := List.pairwise_insertionSort _ _
    exact List.pairwise_map.mpr hs
  have hrows : (i.utxoSnapshots.filter fun r => r.tipHash = tipHash ∧ r.row.output.address = address).map (·.row) =
      (utxoRows u).filter fun row => row.output.address = address := by
    rw [← h, snapshotAt, List.filter_map, List.filter_filter]
    congr 1
    refine List.filter_congr fun r _ => ?_
    rw [Bool.decide_and, Bool.and_comm]
    rfl
  rw [UTXOIndex.utxosForAddressAtTip, hrows]
  exact (hsorted.filter _).insertionSort_eq

/-! ## The spends of a chain -/

/-- One record for each input of each transaction of `blocks` that is not a coinbase. -/
def chainSpends (blocks : List ConsensusBlock) : List IndexedSpend :=
  ((blocks.flatMap (·.transactions)).filter fun t => ¬ t.isCoinbase).flatMap fun t =>
    t.inputs.zipIdx.map fun x => ⟨x.1.previousOutput, txidOf t, x.2⟩

theorem inputSpends_eq (txid : Str) (xs : List TxInput) (inputIndex : Nat) :
    inputSpends txid inputIndex xs = (xs.zipIdx inputIndex).map fun x => ⟨x.1.previousOutput, txid, x.2⟩ := by
  induction xs generalizing inputIndex with
  | nil => rfl
  | cons x xs ih => rw [inputSpends, ih, List.zipIdx_cons, List.map_cons]

theorem mapM_transactionSpends {ts : List ConsensusTransaction} {spends : List (List IndexedSpend)}
    (h : ts.mapM transactionSpends = .ok spends) :
    spends.flatten = (ts.filter fun t => ¬ t.isCoinbase).flatMap fun t =>
      t.inputs.zipIdx.map fun x => ⟨x.1.previousOutput, txidOf t, x.2⟩ := by
  induction ts generalizing spends with
  | nil =>
    rw [List.mapM_nil, pure_eq_ok] at h
    subst h
    rfl
  | cons t ts ih =>
    simp only [List.mapM_cons, bind_eq_ok, pure_eq_ok] at h
    obtain ⟨l, hl, rest, hrest, rfl⟩ := h
    rw [List.flatten_cons, ih hrest]
    cases hc : t.isCoinbase with
    | true =>
      rw [transactionSpends, hc, if_pos rfl, pure_eq_ok] at hl
      subst hl
      rw [List.filter_cons_of_neg (by simp [hc]), List.nil_append]
    | false =>
      rw [transactionSpends, hc, if_neg Bool.false_ne_true, bind_eq_ok] at hl
      obtain ⟨txid, htxid, hl⟩ := hl
      rw [pure_eq_ok, inputSpends_eq] at hl
      subst hl
      rw [List.filter_cons_of_pos (by simp [hc]), List.flatMap_cons, txidOf_eq htxid]

theorem branchSpends_eq {blocks : List ConsensusBlock} {spends : List IndexedSpend}
    (h : branchSpends blocks = .ok spends) : spends = chainSpends blocks := by
  rw [branchSpends, bind_eq_ok] at h
  obtain ⟨l, hl, h⟩ := h
  rw [pure_eq_ok] at h
  subst h
  exact mapM_transactionSpends hl

/-- A chain without transactions that spend has no spends. -/
theorem branchSpends_of_coinbases {blocks : List ConsensusBlock}
    (h : ∀ t ∈ blocks.flatMap (·.transactions), t.isCoinbase = true) : branchSpends blocks = .ok [] := by
  have key : ∀ ts : List ConsensusTransaction, (∀ t ∈ ts, t.isCoinbase = true) →
      ts.mapM transactionSpends = .ok (ts.map fun _ => []) := by
    intro ts hts
    induction ts with
    | nil => rfl
    | cons t ts ih =>
      rw [List.forall_mem_cons] at hts
      rw [List.mapM_cons, transactionSpends, hts.1, if_pos rfl, ih hts.2]
      rfl
  rw [branchSpends, key _ h, ok_bind]
  show Except.ok _ = _
  congr 1
  rw [List.flatten_eq_nil_iff]
  intro l hl
  obtain ⟨_, -, rfl⟩ := List.mem_map.mp hl
  rfl

/-! ## Indexes of a store -/

variable [Ed25519]

/-- `r` ends the branch `chain`, which replays to `s`. -/
structure Replayed (f : ForkChoice) (store : ForkStore) (r : BlockRow) (chain : List StoredConsensusBlock)
    (s : ConsensusState) : Prop where
  branch : Branch store.blocks r chain
  built : Built f.blockSubsidy f.maxMoney (chain.map (·.block)) r.hash s

/-- The rows of a tip are those of its branch. -/
def TipIndexed (f : ForkChoice) (store : ForkStore) (i : UTXOIndex) (r : BlockRow) : Prop :=
  ∃ chain s, Replayed f store r chain s ∧ snapshotAt i r.hash = utxoRows s.utxos ∧
    branchSpends (chain.map (·.block)) = .ok (spendsAt i r.hash)

/-- The active rows are those of the branch of `r`. -/
def ActiveIndexed (f : ForkChoice) (store : ForkStore) (i : UTXOIndex) (r : BlockRow) : Prop :=
  i.activeTip = some r.hash ∧ ∃ chain s, Replayed f store r chain s ∧ i.utxos = utxoRows s.utxos

/-- The rows of the index are those of the branches of the store. -/
structure Indexed (f : ForkChoice) (store : ForkStore) (i : UTXOIndex) : Prop where
  tips : ∀ r ∈ store.blocks, TipIndexed f store i r
  active : ∀ r, Table.first BlockRow.better store.blocks = some r → ActiveIndexed f store i r

theorem indexed_nil {f : ForkChoice} {store : ForkStore} {i : UTXOIndex} (h : store.blocks = []) : Indexed f store i :=
  ⟨fun r hr => absurd (h ▸ hr) List.not_mem_nil, fun r hr => by rw [h] at hr; cases hr⟩

theorem TipIndexed.mono {f : ForkChoice} {store store' : ForkStore} {i i' : UTXOIndex} {r : BlockRow}
    (h : TipIndexed f store i r) (hsub : store.blocks ⊆ store'.blocks) (hsnap : snapshotAt i' r.hash = snapshotAt i r.hash)
    (hspends : spendsAt i' r.hash = spendsAt i r.hash) : TipIndexed f store' i' r := by
  obtain ⟨chain, s, hr, hs, hsp⟩ := h
  exact ⟨chain, s, ⟨hr.branch.mono hsub, hr.built⟩, hsnap.trans hs, hspends ▸ hsp⟩

/-- The tip of the active chain is the best row of the store. -/
theorem StoreOk.replayed_active {f : ForkChoice} {store : ForkStore} (h : StoreOk f store) {a : ActiveChain}
    (ha : f.activeChain store = .ok a) {tip : ConsensusBlock} {hash : Str} (htip : a.tip = some tip)
    (hhash : tip.hash = .ok hash) :
    ∃ r chain, Table.first BlockRow.better store.blocks = some r ∧ r.hash = hash ∧ Replayed f store r chain a.state ∧
      a.blocks = chain.map (·.block) := by
  rcases h.activeChain_eq_ok ha with ⟨-, hnil, -⟩ | ⟨r, chain, hfirst, hb, hs, he⟩
  · rw [ActiveChain.tip, hnil] at htip
    cases htip
  · have hblocks : a.blocks = chain.map (·.block) := by rw [he]
    obtain ⟨b, hrow, -, hlast⟩ := hb.last
    rw [ActiveChain.tip, hblocks, hlast, Option.some.injEq] at htip
    subst htip
    rw [hrow.hash, Except.ok.injEq] at hhash
    exact ⟨r, chain, hfirst, hhash, ⟨hb, hs⟩, hblocks⟩

/-- Writing the snapshot of the active tip keeps the index. -/
theorem Indexed.saveSnapshot {f : ForkChoice} {store : ForkStore} {i i' : UTXOIndex} {a : ActiveChain}
    {tip : ConsensusBlock} {hash : Str} (h : Indexed f store i) (hok : StoreOk f store)
    (ha : f.activeChain store = .ok a) (htip : a.tip = some tip) (hhash : tip.hash = .ok hash)
    (hsave : i.saveSnapshot hash a.state.utxos = .ok i') : Indexed f store i' := by
  obtain ⟨-, rfl⟩ := saveSnapshot_eq_ok.mp hsave
  obtain ⟨r, chain, hfirst, rfl, hr, -⟩ := hok.replayed_active ha htip hhash
  refine ⟨fun q hq => ?_, fun q hq => ?_⟩
  · obtain ⟨chain', s', hq', hsnap, hsp⟩ := h.tips q hq
    refine ⟨chain', s', hq', ?_, hsp⟩
    show snapshotAt (withSnapshot i r.hash a.state.utxos) q.hash = _
    rw [snapshotAt_withSnapshot]
    split
    · rename_i he
      obtain rfl := List.inj_on_of_nodup_map hok.nodup hq (Table.first_mem hfirst) he
      obtain rfl := hq'.branch.unique hok.nodup hr.branch
      rw [hq'.built.unique hr.built]
    · exact hsnap
  · rw [hfirst, Option.some.injEq] at hq
    subst hq
    exact ⟨rfl, chain, a.state, hr, rfl⟩

/-- The four writes of an import leave the index of the store after it. -/
theorem IndexWritten.indexed {f : ForkChoice} {store store' : ForkStore} {hash : Str} {a : ActiveChain} {i i' : UTXOIndex}
    (hw : IndexWritten f store' hash a i i') (h : Indexed f store i) (hok : StoreOk f store')
    (ha : f.activeChain store' = .ok a) (hsub : store.blocks ⊆ store'.blocks)
    (hnew : ∀ r ∈ store'.blocks, r ∈ store.blocks ∨ r.hash = hash) : Indexed f store' i' := by
  obtain ⟨imported, tip, activeHash, i₁, i₂, i₃, himp, h₁, h₂, htip, hact, h₃, h₄⟩ := hw
  obtain ⟨-, rfl⟩ := saveTipSnapshot_eq_ok.mp h₁
  obtain ⟨spends, hspends, -, -, rfl⟩ := saveTipSpends_eq_ok.mp h₂
  obtain ⟨-, rfl⟩ := saveSnapshot_eq_ok.mp h₃
  obtain ⟨spends', hspends', -, -, rfl⟩ := saveTipSpends_eq_ok.mp h₄
  obtain ⟨ra, chain, hfirst, rfl, hra, hblocks⟩ := hok.replayed_active ha htip hact
  obtain ⟨ri, chain', rfl, hbi, hsi, heq⟩ := hok.chainToTip_eq_ok himp
  have hiblocks : imported.blocks = chain'.map (·.block) := by rw [heq]
  rw [hblocks] at hspends'
  rw [hiblocks] at hspends
  generalize hi' : (withSpends { withSnapshot (withSpends (withSnapshot i ri.hash imported.state.utxos) ri.hash spends)
    ra.hash a.state.utxos with utxos := utxoRows a.state.utxos, activeTip := some ra.hash } ra.hash spends') = i'
  have hsnap : ∀ q, snapshotAt i' q = if q = ra.hash then utxoRows a.state.utxos
      else if q = ri.hash then utxoRows imported.state.utxos else snapshotAt i q := fun q => by
    rw [← hi', ← snapshotAt_withSnapshot]
    exact snapshotAt_withSnapshot (withSpends (withSnapshot i ri.hash imported.state.utxos) ri.hash spends) ra.hash q _
  have hspend : ∀ q, spendsAt i' q = if q = ra.hash then spends' else if q = ri.hash then spends else spendsAt i q :=
    fun q => by
      rw [← hi', spendsAt_withSpends]
      refine if_congr Iff.rfl rfl ?_
      exact spendsAt_withSpends (withSnapshot i ri.hash imported.state.utxos) ri.hash q _
  refine ⟨fun r hr => ?_, fun r hr => ?_⟩
  · by_cases hra' : r.hash = ra.hash
    · obtain rfl := List.inj_on_of_nodup_map hok.nodup hr (Table.first_mem hfirst) hra'
      exact ⟨chain, a.state, hra, by rw [hsnap, if_pos rfl], by rw [hspend, if_pos rfl]; exact hspends'⟩
    by_cases hri : r.hash = ri.hash
    · obtain rfl := List.inj_on_of_nodup_map hok.nodup hr hbi.mem hri
      refine ⟨chain', imported.state, ⟨hbi, hsi⟩, by rw [hsnap, if_neg hra', if_pos rfl], ?_⟩
      rw [hspend, if_neg hra', if_pos rfl]
      exact hspends
    · refine (h.tips r ((hnew r hr).resolve_right hri)).mono hsub ?_ ?_
      · rw [hsnap, if_neg hra', if_neg hri]
      · rw [hspend, if_neg hra', if_neg hri]
  · rw [hfirst, Option.some.injEq] at hr
    subst hr
    exact ⟨by rw [← hi']; rfl, chain, a.state, hra, by rw [← hi']; rfl⟩

/-! ### Creating and opening -/

/-- Nothing is spent in the first block of a chain. -/
theorem Built.coinbases {subsidy maxMoney : Int} {b : ConsensusBlock} {q : Str} {s : ConsensusState}
    (h : Built subsidy maxMoney [b] q s) : ∀ t ∈ b.transactions, t.isCoinbase = true := by
  obtain ⟨p, s₀, fee, hnil, hv, -⟩ := Built.of_snoc (show Built subsidy maxMoney ([] ++ [b]) q s from h)
  have hempty : s₀.utxos = ∅ := by
    obtain ⟨s₁, hinit⟩ := hnil.init
    rw [hnil.unique (.nil hinit)]
    exact (init_eq_ok hinit).1
  obtain ⟨c, rest, s₁, hcheck, hrest, -⟩ := validateCandidate_eq_ok.mp hv
  obtain ⟨-, -, hb⟩ := checkBlock_eq_ok.mp hcheck
  rw [hb.transactions]
  refine List.forall_mem_cons.mpr ⟨hb.coinbase, ?_⟩
  cases rest with
  | nil => exact fun t ht => absurd ht List.not_mem_nil
  | cons t ts =>
    -- The first transaction that spends would find its outputs in the empty set.
    exfalso
    rw [ConsensusState.applyTransactions, bind_eq_ok] at hrest
    obtain ⟨r, hr, -⟩ := hrest
    obtain ⟨txid, hsp⟩ := (applyTransaction_eq_ok (hb.others t List.mem_cons_self)).mp hr
    obtain ⟨x, hx⟩ := List.exists_mem_of_ne_nil _ hsp.inputs_ne
    obtain ⟨j, hj⟩ := List.mem_iff_getElem?.mp hx
    obtain ⟨out, hout, -⟩ := hsp.inputOk j x hj
    rw [hempty] at hout
    cases hout

theorem Created.indexed {d : Disk} {p : ChainParameters} {genesis : ConsensusBlock} {hash : Str} {s : ConsensusState}
    {n : ConsensusNode} (h : Created d p genesis hash s n) (hspent : d.utxoIndex.spentOutpoints = []) :
    Indexed n.forkChoice n.disk.store n.disk.utxoIndex := by
  obtain ⟨s₀, fees, hs₀, hv⟩ := h.accepted
  obtain ⟨stored, hput⟩ := h.store
  have hnil : (d.store.saveChainParameters p).blocks = [] := h.empty
  rw [h.forkChoice]
  obtain ⟨hash', hhash, ⟨hmem, -⟩ | ⟨-, row, hrow, -, hstore, -⟩⟩ := putBlock_eq_ok.mp hput
  · rw [hnil] at hmem
    exact absurd hmem List.not_mem_nil
  rw [h.hash_eq, Except.ok.injEq] at hhash
  subst hhash
  obtain ⟨c, rest, s₁, hcheck, -⟩ := validateCandidate_eq_ok.mp hv
  obtain ⟨h₀, hprev, -⟩ := checkBlock_eq_ok.mp hcheck
  have hext : Extends ⟨p.blockSubsidy, p.maxMoney⟩ (d.store.saveChainParameters p) genesis [] s :=
    ⟨.inl ⟨h₀, hnil, hprev, rfl⟩, hash, .snoc (.nil hs₀) hv h.hash_eq⟩
  obtain ⟨rfl, hbranch, hbuilt⟩ := hext.newRow (storeOk_nil hnil) h.hash_eq hrow
  have hblocks : n.disk.store.blocks = [row] := by rw [hstore, hnil]; rfl
  have hr : Replayed ⟨p.blockSubsidy, p.maxMoney⟩ n.disk.store row [⟨storedBlock genesis, row.cumulativeWork⟩] s := by
    rw [hnil] at hbranch
    exact ⟨by rw [hblocks]; exact hbranch, hbuilt⟩
  obtain ⟨-, hindex⟩ := saveSnapshot_eq_ok.mp h.index
  have hsnap : snapshotAt n.disk.utxoIndex row.hash = utxoRows s.utxos := by
    rw [hindex]
    exact (snapshotAt_withSnapshot d.utxoIndex row.hash row.hash s.utxos).trans (if_pos rfl)
  have hspends : spendsAt n.disk.utxoIndex row.hash = [] := by
    rw [hindex, spendsAt]
    show (d.utxoIndex.spentOutpoints.filter _).map _ = []
    rw [hspent]
    rfl
  refine ⟨fun r hmem => ?_, fun r hfirst => ?_⟩
  · rw [hblocks, List.mem_singleton] at hmem
    subst hmem
    refine ⟨_, s, hr, hsnap, ?_⟩
    rw [hspends]
    refine branchSpends_of_coinbases fun t ht => hbuilt.coinbases t ?_
    simpa using ht
  · rw [hblocks] at hfirst
    obtain rfl := Option.some.inj hfirst
    exact ⟨by rw [hindex], _, s, hr, by rw [hindex]⟩

/-- Opening compares the parameters of a store that has blocks. -/
theorem requireChainParameters_blocks {d : Disk} (h : DiskOk d) {expected : ChainParameters} {store : ForkStore}
    (hr : d.store.requireChainParameters expected = .ok store) :
    store.blocks = d.store.blocks ∧ (d.store.blocks = [] ∨ d.store.parameters = some expected) := by
  unfold ForkStore.requireChainParameters at hr
  split at hr
  · rename_i hnone
    rw [bind_eq_ok] at hr
    obtain ⟨tip, -, hr⟩ := hr
    split at hr
    · rw [pure_eq_ok] at hr
      subst hr
      refine ⟨rfl, .inl ?_⟩
      rcases h.store with hnil | ⟨p, hp, -⟩
      · exact hnil
      · rw [hnone] at hp
        cases hp
    · cases hr
  · rename_i stored hstored
    split at hr
    · rename_i heq
      rw [pure_eq_ok] at hr
      subst hr heq
      exact ⟨rfl, .inr hstored⟩
    · cases hr

/-! ### Runs -/

/-- The index of a node. A store without blocks has none of their spends. -/
structure NodeIndexed (n : ConsensusNode) : Prop where
  indexed : Indexed n.forkChoice n.disk.store n.disk.utxoIndex
  unspent : n.disk.store.blocks = [] → n.disk.utxoIndex.spentOutpoints = []

/-- The index among files, with the parameters that are stored beside the blocks. -/
structure DiskIndexed (d : Disk) : Prop where
  indexed : ∀ p, d.store.parameters = some p → Indexed ⟨p.blockSubsidy, p.maxMoney⟩ d.store d.utxoIndex
  unspent : d.store.blocks = [] → d.utxoIndex.spentOutpoints = []

def WorldIndexed : World → Prop
  | .down disk => DiskIndexed disk
  | .up node => NodeIndexed node

theorem NodeIndexed.close {n : ConsensusNode} (h : NodeIndexed n) (hn : NodeOk n) : DiskIndexed n.disk := by
  refine ⟨fun p hp => ?_, h.unspent⟩
  rw [hn.parameters, Option.some.injEq] at hp
  subst hp
  exact h.indexed

/-- A node whose store and index are the same as those of another. -/
theorem NodeIndexed.congr {n n' : ConsensusNode} (h : NodeIndexed n) (hf : n'.forkChoice = n.forkChoice)
    (hs : n'.disk.store = n.disk.store) (hi : n'.disk.utxoIndex = n.disk.utxoIndex) : NodeIndexed n' := by
  refine ⟨?_, ?_⟩
  · rw [hf, hs, hi]
    exact h.indexed
  · rw [hs, hi]
    exact h.unspent

theorem create_indexed {d d' : Disk} (hd : DiskOk d) (h : DiskIndexed d) {allocations : List (Str × Int)}
    {p : ChainParameters} {timestamp : UInt64} {fuel : Nat} {n : ConsensusNode}
    (hcall : (ConsensusNode.create allocations p timestamp fuel).call d = (.ok n, d')) : NodeIndexed n := by
  obtain ⟨genesis, hash, s, hc⟩ := create_returns hd hcall
  have hspent := h.unspent hc.empty
  refine ⟨hc.indexed hspent, fun _ => ?_⟩
  obtain ⟨-, hindex⟩ := saveSnapshot_eq_ok.mp hc.index
  rw [hindex]
  exact hspent

theorem openNode_indexed {d d' : Disk} (hd : DiskOk d) (h : DiskIndexed d) {p : ChainParameters} {n : ConsensusNode}
    (hcall : (ConsensusNode.openNode p).call d = (.ok n, d')) : NodeIndexed n := by
  obtain ⟨store, a, s, d₂, hreq, ha, -, hopen, hinit⟩ := openNode_eq_ok.mp hcall
  obtain ⟨-, hok, -⟩ := requireChainParameters_eq_ok hd hreq
  obtain ⟨hblocks, hparams⟩ := requireChainParameters_blocks hd hreq
  obtain ⟨ts, hts, hrows⟩ := hd.pool
  have hindexed : Indexed ⟨p.blockSubsidy, p.maxMoney⟩ store d.utxoIndex := by
    rcases hparams with hnil | hp
    · exact indexed_nil (hblocks.trans hnil)
    · obtain ⟨htips, hact⟩ := h.indexed p hp
      refine ⟨fun r hr => ?_, fun r hr => ?_⟩
      · exact (htips r (hblocks ▸ hr)).mono (by rw [hblocks]; exact List.Subset.refl _) rfl rfl
      · rw [hblocks] at hr
        obtain ⟨htip, chain, s', hr', hu⟩ := hact r hr
        exact ⟨htip, chain, s', ⟨by rw [hblocks]; exact hr'.branch, hr'.built⟩, hu⟩
  -- The files after the state was found: only the index may have been written.
  have hd₂ : d₂.store = store ∧ d₂.mempoolStore = d.mempoolStore ∧
      Indexed ⟨p.blockSubsidy, p.maxMoney⟩ store d₂.utxoIndex ∧
      d₂.utxoIndex.spentOutpoints = d.utxoIndex.spentOutpoints := by
    rcases openState_eq_ok.mp hopen with ⟨-, -, rfl⟩ | ⟨tip, hash, indexed, htip, hhash, -, hcase⟩
    · exact ⟨rfl, rfl, hindexed, rfl⟩
    · rcases hcase with ⟨_, -, -, -, rfl⟩ | ⟨-, -, index, hsave, rfl⟩
      · exact ⟨rfl, rfl, hindexed, rfl⟩
      · refine ⟨rfl, rfl, hindexed.saveSnapshot hok ha htip hhash hsave, ?_⟩
        obtain ⟨-, rfl⟩ := saveSnapshot_eq_ok.mp hsave
        rfl
  obtain ⟨hstore, hpool, hi, hspent⟩ := hd₂
  obtain ⟨us, rfl⟩ := init_returns hts (hpool.trans hrows) hinit
  refine ⟨?_, fun hnil => ?_⟩
  · show Indexed _ d₂.store d₂.utxoIndex
    rw [hstore]
    exact hi
  · show d₂.utxoIndex.spentOutpoints = []
    rw [hspent]
    refine h.unspent ?_
    rw [← hblocks, ← hstore]
    exact hnil

theorem importBlock_indexed {n n' : ConsensusNode} (hn : NodeOk n) (h : NodeIndexed n) {b : ConsensusBlock}
    {stored : StoredConsensusBlock} (hcall : (ConsensusNode.importBlock b).call n = (.ok stored, n')) :
    NodeIndexed n' := by
  obtain ⟨hash, store, a, hact⟩ := importBlock_returns hn hcall
  have hok := hact.stores.storeOk hn.store hact.hash_eq
  obtain ⟨hmem, -⟩ := hact.stores.mem hn.store hact.hash_eq
  have hnew : ∀ r ∈ store.blocks, r ∈ n.disk.store.blocks ∨ r.hash = hash := fun r hr => by
    cases hact.stores with
    | known => exact .inl hr
    | new hno he hrow =>
      rcases List.mem_append.mp hr with hr | hr
      · exact .inl hr
      · rw [List.mem_singleton] at hr
        exact .inr (hr ▸ (he.newRow hn.store hact.hash_eq hrow).1)
  have hi := hact.index.indexed h.indexed hok hact.active hact.stores.subset hnew
  have hstore : n'.disk.store = store := by rw [hact.node]
  refine ⟨?_, fun hnil => ?_⟩
  · rw [hstore, show n'.forkChoice = n.forkChoice by rw [hact.node]]
    exact hi
  · rw [hstore] at hnil
    rw [hnil] at hmem
    exact absurd hmem List.not_mem_nil

/-- One call that returns keeps the index. -/
theorem Returned.indexed {w w' : World} {call : Call} (h : Returned w call w') (hok : WorldOk w) (hw : WorldIndexed w) :
    WorldIndexed w' := by
  cases h with
  | create hcall => exact create_indexed hok hw hcall
  | openNode hcall => exact openNode_indexed hok hw hcall
  | close => exact NodeIndexed.close hw hok
  | importBlock hcall => exact importBlock_indexed hok hw hcall
  | _ => exact NodeIndexed.congr hw rfl rfl rfl

theorem worldIndexed_after {calls : List Call} (hret : (World.down Disk.empty).AllReturn calls) :
    WorldIndexed (World.after calls) :=
  after_of_allReturn ⟨fun _ _ => indexed_nil rfl, fun _ => rfl⟩ (fun _ hok _ _ hw hr => hr.indexed hok hw) hret

/-! ## The index refines replay -/

/-- The chain to the block of hash `hash`, and the state it replays to. -/
def ReplaysTo (n : ConsensusNode) (hash : Str) (chain : List StoredConsensusBlock) (s : ConsensusState) : Prop :=
  n.disk.store.chainToTip hash = .ok chain ∧
    rebuildStateFromBlocks (chain.map (·.block)) n.forkChoice.blockSubsidy n.forkChoice.maxMoney = .ok s

/-- What is read from the index about a tip is what its replayed branch says. -/
structure TipRefines (n : ConsensusNode) (hash : Str) (chain : List StoredConsensusBlock) (s : ConsensusState) : Prop where
  snapshot : ∃ u, n.disk.utxoIndex.loadTipSnapshot hash = .ok (some u) ∧ u.sortedEntries = s.utxos.sortedEntries
  txids : ∀ t ∈ chain.flatMap (·.block.transactions), t.txid = .ok (txidOf t)
  spends : (n.disk.utxoIndex.loadTipSpends hash).Perm (chainSpends (chain.map (·.block)))
  addresses : ∀ address, n.disk.utxoIndex.utxosForAddressAtTip hash address =
    (utxoRows s.utxos).filter fun row => row.output.address = address

/-- The per-tip tables agree with the replayed branch of every stored block, and the active table with that of
the best one. -/
structure IndexRefines (n : ConsensusNode) : Prop where
  tips : ∀ hash, n.disk.store.hasBlock hash = true → ∃ chain s, ReplaysTo n hash chain s ∧ TipRefines n hash chain s
  active : n.disk.store.blocks ≠ [] → ∃ tip hash chain s, n.disk.store.bestTip = .ok (some tip) ∧
    tip.block.hash = .ok hash ∧ n.disk.utxoIndex.activeTip = some hash ∧ ReplaysTo n hash chain s ∧
    n.disk.utxoIndex.utxos = utxoRows s.utxos

/-- The outputs of the last coinbase are there. -/
theorem Built.exists_mem {subsidy maxMoney : Int} {bs : List ConsensusBlock} {q : Str} {s : ConsensusState}
    (h : Built subsidy maxMoney bs q s) (hne : bs ≠ []) : ∃ o, o ∈ s.utxos := by
  cases h with
  | nil => exact absurd rfl hne
  | snoc _ hv _ =>
    obtain ⟨c, rest, s₁, -, -, hcb⟩ := validateCandidate_eq_ok.mp hv
    obtain ⟨txid, hm⟩ := mints_of_applyCoinbaseOf hcb
    obtain ⟨out, hout⟩ := List.exists_mem_of_ne_nil _ (validateOutputs_eq_ok.mp hm.outputs).1
    obtain ⟨i, hi⟩ := List.mem_iff_getElem?.mp hout
    refine ⟨⟨txid, (0 + i : Nat)⟩, AList.lookup_isSome.mp ?_⟩
    rw [hm.step.lookup_created (mem_createdFrom.mpr ⟨i, rfl, hi⟩)]
    rfl

theorem Built.txids {subsidy maxMoney : Int} {bs : List ConsensusBlock} {q : Str} {s : ConsensusState}
    (h : Built subsidy maxMoney bs q s) : ∀ t ∈ bs.flatMap (·.transactions), t.txid = .ok (txidOf t) := by
  obtain ⟨s₀, fs, -, hr⟩ := rebuildStateFromBlocks_eq_ok.mp (built_iff.mpr ⟨q, h⟩)
  intro t ht
  exact (Run.transactions hr.run t ((flatMap_appliedOrder_perm bs).mem_iff.mpr ht)).1

theorem Replayed.replaysTo {n : ConsensusNode} (hn : NodeOk n) {r : BlockRow} {chain : List StoredConsensusBlock}
    {s : ConsensusState} (h : Replayed n.forkChoice n.disk.store r chain s) : ReplaysTo n r.hash chain s :=
  ⟨h.branch.chainToTip hn.store.nodup, built_iff.mpr ⟨_, h.built⟩⟩

theorem TipIndexed.refines {n : ConsensusNode} (hn : NodeOk n) {r : BlockRow}
    (h : TipIndexed n.forkChoice n.disk.store n.disk.utxoIndex r) :
    ∃ chain s, ReplaysTo n r.hash chain s ∧ TipRefines n r.hash chain s := by
  obtain ⟨chain, s, hr, hsnap, hspends⟩ := h
  obtain ⟨o, ho⟩ := hr.built.exists_mem (List.map_eq_nil_iff.not.mpr hr.branch.ne_nil)
  have htxids := hr.built.txids
  rw [List.flatMap_map] at htxids
  refine ⟨chain, s, hr.replaysTo hn, loadTipSnapshot_of_rows hsnap ho, htxids, ?_, utxosForAddressAtTip_of_rows hsnap⟩
  rw [← branchSpends_eq hspends]
  exact List.perm_insertionSort _ _

/-- After every run whose calls return, the index refines replay. -/
theorem index_refines_replay (calls : List Call) (hret : (World.down Disk.empty).AllReturn calls) (n : ConsensusNode)
    (hn : World.after calls = .up n) : IndexRefines n := by
  have hok := nodeOk_after hn
  have hw := worldIndexed_after hret
  rw [hn] at hw
  obtain ⟨htips, hactive⟩ := hw.indexed
  refine ⟨fun hash hhas => ?_, fun hne => ?_⟩
  · obtain ⟨r, hr, rfl⟩ := List.mem_map.mp (Table.isSome_lookup.mp hhas)
    exact (htips r hr).refines hok
  · cases hfirst : Table.first BlockRow.better n.disk.store.blocks with
    | none => exact absurd (Table.first_eq_none.mp hfirst) hne
    | some r =>
      obtain ⟨b, hrow, hbest⟩ := hok.store.bestTip hfirst
      obtain ⟨htip, chain, s, hr, hutxos⟩ := hactive r hfirst
      exact ⟨_, r.hash, chain, s, hbest, hrow.hash, htip, hr.replaysTo hok, hutxos⟩

omit [Ed25519]

theorem created_returns : @World.AllReturn aliceVerify (.down Disk.empty)
    [.create [(aliceAddress, 10)] ⟨0, 50, 1000⟩ 0 1] := ⟨by decide +kernel, trivial⟩

theorem imported_index_refines : ∃ n, @World.after aliceVerify
      [.create [(aliceAddress, 10)] ⟨0, 50, 1000⟩ 0 1, .importBlock paymentBlock] = .up n ∧
    n.disk.store.hasBlock paymentHash = true ∧ @IndexRefines aliceVerify n := by
  have hfacts : ∀ r, (@ConsensusNode.importBlock aliceVerify paymentBlock).call genesisNode = r → r.1.isOk = true ∧
      r.2.disk.store.hasBlock paymentHash = true := by
    rintro _ rfl
    decide +kernel
  let _ := aliceVerify
  rcases hcall : (ConsensusNode.importBlock paymentBlock).call genesisNode with ⟨r, n⟩
  obtain ⟨hisOk, hhas⟩ := hfacts _ hcall
  have hafter := after_importBlock created_genesisNode hcall
  refine ⟨n, hafter, hhas, index_refines_replay _ (allReturn_snoc created_returns ?_) n hafter⟩
  show World.returns (World.after _) _ = true
  rw [created_genesisNode, World.returns, hcall]
  exact hisOk

end BCC.Proof
