import BlockchainCoin.Proof.Included
import BlockchainCoin.Proof.Restart
import BlockchainCoin.Proof.Unshared

/-!
# Mempools that are loaded again

The mempool store has no order: what is loaded comes by txid. A node under the
default policy relays every small transaction that applies (`relays_default`), so
what a restart keeps is decided by that order alone: everything, exactly when of two
entries of which one spends an output of the other the earlier has the smaller
txid (`restart_keeps_mempool_iff`).
-/

namespace BCC.Proof

open BCC.Impl BCC.Ledger BlockProcessor

/-! ## The default policy -/

/-- What the default policy asks of a transaction wherever it stands. -/
structure Small (t : ConsensusTransaction) : Prop where
  inputs : t.inputs.length ≤ 128
  outputs : t.outputs.length ≤ 128
  size : ∃ bs, t.toBytes = .ok bs ∧ bs.length ≤ 100000

theorem validate_default {t : ConsensusTransaction} {fee count : Int} :
    ({} : MempoolPolicy).validate t fee count = .ok () ↔ Small t ∧ 0 ≤ count ∧ count < 5000 ∧ 0 ≤ fee := by
  rw [validate_eq_ok]
  constructor
  · rintro ⟨bs, hbs, hmax, hin, hout, hsize, hcount, hfee, -⟩
    exact ⟨⟨by simpa using hin, by simpa using hout, bs, hbs, by simpa using hsize⟩, hcount, hmax, hfee⟩
  · rintro ⟨⟨hin, hout, bs, hbs, hsize⟩, hcount, hmax, hfee⟩
    refine ⟨bs, hbs, hmax, by simpa using hin, by simpa using hout, by simpa using hsize, hcount, hfee, ?_⟩
    simpa using hfee

theorem small_storedTransaction {t : ConsensusTransaction} : Small (storedTransaction t) ↔ Small t := by
  have hlen : (storedTransaction t).inputs.length = t.inputs.length := List.length_map _
  constructor
  · rintro ⟨hin, hout, hsize⟩
    exact ⟨hlen ▸ hin, hout, toBytes_storedTransaction t ▸ hsize⟩
  · rintro ⟨hin, hout, hsize⟩
    exact ⟨hlen.symm ▸ hin, hout, (toBytes_storedTransaction t).symm ▸ hsize⟩

/-- The store holds small transactions, and no more than there is room for. -/
def SmallPool (store : MempoolStore) : Prop :=
  ∀ ts, DistinctTxids ts → store = ⟨ts.map rowOf⟩ → (∀ t ∈ ts, Small t) ∧ ts.length ≤ 5000

theorem smallPool_nil : SmallPool ⟨[]⟩ := by
  intro ts _ hrows
  rw [MempoolStore.mk.injEq] at hrows
  rw [List.map_eq_nil_iff.mp hrows.symm]
  exact ⟨fun t ht => absurd ht List.not_mem_nil, by simp⟩

theorem Synced.smallPool {n : ConsensusNode} (h : Synced n) (hd : DistinctTxids n.mempool)
    (hsmall : ∀ t ∈ n.mempool, Small t) (hlen : n.mempool.length ≤ 5000) : SmallPool n.disk.mempoolStore := by
  intro ts hts hrows
  have hperm := h.rows
  rw [hrows] at hperm
  have hstored := storedTransaction_of_rowOf hts hd hperm
  refine ⟨fun t ht => ?_, ?_⟩
  · obtain ⟨u, hu, he⟩ := List.mem_map.mp (hstored.subset (List.mem_map_of_mem ht))
    rw [← small_storedTransaction, ← he, small_storedTransaction]
    exact hsmall u hu
  · have hl := hperm.length_eq
    rw [List.length_map, List.length_map] at hl
    omega

variable [Ed25519]

/-- Under the default policy small entries stand where they apply, as long as there is room. -/
theorem relays_default {s : ConsensusState} {ts : List ConsensusTransaction} (hmax : s.utxos.total ≤ s.maxMoney)
    (hc : ∀ t ∈ ts, t.isCoinbase = false) :
    Relays {} s ts ↔ Applies s ts ∧ (∀ t ∈ ts, Small t) ∧ ts.length ≤ 5000 := by
  constructor
  · rintro ⟨fees, s', h, hpass⟩
    have hlen := ((applyEach_eq_ok hmax hc).mp h).1
    have hall : ∀ (i : Nat), i < ts.length → ∃ t, ts[i]? = some t ∧ Small t ∧ i < 5000 := fun i hi => by
      have hv := hpass i (ts[i], fees[i]) (by rw [List.getElem?_zip_eq_some]; simp [hi, hlen])
      obtain ⟨hsmall, -, hcount, -⟩ := validate_default.mp hv
      exact ⟨ts[i], List.getElem?_eq_getElem hi, hsmall, by omega⟩
    refine ⟨⟨fees, s', h⟩, fun t ht => ?_, ?_⟩
    · obtain ⟨i, hi⟩ := List.getElem?_of_mem ht
      obtain ⟨t', ht', hsmall, -⟩ := hall i (List.getElem?_eq_some_iff.mp hi).1
      rw [hi, Option.some.injEq] at ht'
      exact ht' ▸ hsmall
    · by_contra hlong
      obtain ⟨_, -, -, hlt⟩ := hall 5000 (by omega)
      omega
  · rintro ⟨⟨fees, s', h⟩, hsmall, hroom⟩
    refine ⟨fees, s', h, fun i e he => ?_⟩
    obtain ⟨-, hr, -⟩ := (applyEach_eq_ok hmax hc).mp h
    have hmem := List.mem_of_getElem? he
    obtain ⟨u, hpriced⟩ := hr.guarded e hmem
    have hi := (List.getElem?_eq_some_iff.mp (List.getElem?_zip_eq_some.mp he).1).1
    exact validate_default.mpr ⟨hsmall e.1 (List.of_mem_zip hmem).1, by omega, by omega, hpriced.fee_nonneg⟩

/-- What is kept of small entries stands: none of them is refused. -/
theorem keepValid_default {s : ConsensusState} {ts : List ConsensusTransaction} (hmax : s.utxos.total ≤ s.maxMoney)
    (hc : ∀ t ∈ ts, t.isCoinbase = false) (hids : (ts.map (·.txid)).Nodup) (hsmall : ∀ t ∈ ts, Small t)
    (hlen : ts.length ≤ 5000) : Relays {} s (keepValid {} s [] ts) := by
  have hkept : ∀ e ∈ sift {} s 0 ts, e.kept = true := by
    refine sift_kept (I := fun _ => True) (fun _ _ _ _ _ _ _ => trivial) (fun i t ht c fee c' count _ happ hle => ?_)
      trivial (Nat.le_refl 0)
    have hmem := List.mem_of_getElem? ht
    have hi := (List.getElem?_eq_some_iff.mp ht).1
    obtain ⟨txid, hsp⟩ := (applyTransaction_eq_ok (hc t hmem)).mp happ
    exact validate_default.mpr ⟨hsmall t hmem, by omega, by omega, hsp.fee_nonneg⟩
  refine keepValid_relays hmax hc hids fun e e' hsub hno _ => ?_
  rw [hkept e (hsub.subset (by simp))] at hno
  cases hno

theorem loaded_default {s : ConsensusState} {ts : List ConsensusTransaction} (hmax : s.utxos.total ≤ s.maxMoney)
    (hts : DistinctTxids ts) (hpending : ∀ t ∈ ts, IsPending t) (hsmall : ∀ t ∈ ts, Small t) (hlen : ts.length ≤ 5000) :
    Relays {} s (loaded {} s ts) := by
  have hmem : ∀ t ∈ byTxid ts, t ∈ ts := fun t ht => (byTxid_perm ts).subset ht
  have hd : DistinctTxids ((byTxid ts).map storedTransaction) :=
    storedTransaction_distinct ⟨fun t ht => hts.txid t (hmem t ht), ((byTxid_perm ts).map txidOf).nodup_iff.mpr hts.nodup⟩
  refine keepValid_default hmax (List.forall_mem_map.mpr fun t ht => (hpending t (hmem t ht)).stored.notCoinbase) hd.txids_nodup
    (List.forall_mem_map.mpr fun t ht => small_storedTransaction.mpr (hsmall t (hmem t ht))) ?_
  rw [List.length_map, (byTxid_perm ts).length_eq]
  exact hlen

/-! ## Runs under the default policy -/

/-- The mempool of a node stands under the default policy. -/
structure Relayed (n : ConsensusNode) : Prop where
  policy : n.mempoolPolicy = {}
  relays : Relays {} n.state n.mempool

/-- Without a node, the store has what the next one can relay. -/
def WorldRelayed : World → Prop
  | .down disk => SmallPool disk.mempoolStore
  | .up node => Relayed node

theorem Relayed.small {n : ConsensusNode} (h : Relayed n) (hn : NodeOk n) (hsync : Synced n) :
    (∀ t ∈ n.mempool, Small t) ∧ n.mempool.length ≤ 5000 :=
  ((relays_default hn.total.2 fun t ht => (hsync.pending t ht).notCoinbase).mp h.relays).2

theorem Relayed.smallPool {n : ConsensusNode} (h : Relayed n) (hn : NodeOk n) (hsync : Synced n) :
    SmallPool n.disk.mempoolStore := by
  obtain ⟨hsmall, hlen⟩ := h.small hn hsync
  exact hsync.smallPool hn.mempool hsmall hlen

/-- A call that returns keeps the mempool, if it sets no other policy. -/
theorem Returned.relayed {w w' : World} {call : Call} (h : Returned w call w') (hok : WorldOk w) (hsync : WorldSynced w)
    (hok' : WorldOk w') (hdefault : ∀ p, call = .setPolicy p → p = {}) (hw : WorldRelayed w) : WorldRelayed w' := by
  cases h with
  | create hcall =>
    obtain ⟨genesis, hash, s, hc⟩ := create_returns hok hcall
    exact ⟨hc.mempoolPolicy, by rw [hc.mempool]; exact relays_nil _ _⟩
  | openNode hcall =>
    obtain ⟨store, a, s, d₂, -, -, -, hopen, hinit⟩ := openNode_eq_ok.mp hcall
    obtain ⟨ts, hts, hpending, hrows⟩ := hsync
    have hpool : d₂.mempoolStore = ⟨ts.map rowOf⟩ := by
      rw [openState_index hopen]
      exact hrows
    obtain ⟨us, rfl⟩ := init_returns hts hpool hinit
    obtain ⟨hsmall, hlen⟩ := hw ts hts hrows
    exact ⟨rfl, loaded_default (NodeOk.total hok').2 hts hpending hsmall hlen⟩
  | close => exact Relayed.smallPool hw hok hsync
  | @importBlock n n' _ b stored hcall =>
    obtain ⟨hash, store, a, hact⟩ := importBlock_returns hok hcall
    obtain ⟨hsmall, hlen⟩ := Relayed.small hw hok hsync
    have hmax := (NodeOk.total hok').2
    have hstate : n'.state = a.state := by rw [hact.node]
    rw [hstate] at hmax
    have hsub : (n.mempool.filter fun t => txidOf t ∉ b.transactions.map txidOf).Sublist n.mempool := List.filter_sublist
    rw [hact.node]
    refine ⟨hw.policy, ?_⟩
    show Relays {} a.state (mempoolAfter n a.state b)
    rw [mempoolAfter, hw.policy]
    exact keepValid_default hmax (fun t ht => (hsync.pending t (hsub.subset ht)).notCoinbase)
      ((NodeOk.mempool hok).sublist hsub).txids_nodup (fun t ht => hsmall t (hsub.subset ht)) (hsub.length_le.trans hlen)
  | @submitTransaction n t remaining fee hadm =>
    obtain ⟨hsmall, hlen⟩ := Relayed.small hw hok hsync
    have hpol := hadm.policy
    rw [hw.policy, validate_default] at hpol
    obtain ⟨ht, -, hroom, -⟩ := hpol
    refine ⟨hw.policy, (relays_default (NodeOk.total hok').2 fun u hu => ?_).mpr ⟨?_, fun u hu => ?_, ?_⟩⟩
    · exact ((hadm.isPending hok hsync.pending) u hu).notCoinbase
    · obtain ⟨c, c', hc, happ⟩ := hadm.applies
      exact applies_append.mpr ⟨c, hc, applies_singleton.mpr ⟨_, happ⟩⟩
    · rcases List.mem_append.mp hu with hu | hu
      · exact hsmall u (hadm.sublist.subset hu)
      · rw [List.mem_singleton.mp hu]
        exact ht
    · show (remaining ++ [t]).length ≤ 5000
      rw [List.length_append, List.length_singleton]
      omega
  | @pruneMempool n =>
    refine ⟨hw.policy, ?_⟩
    show Relays {} n.state (keepValid n.mempoolPolicy n.state [] n.mempool)
    rw [hw.policy, hw.relays.keepValid]
    exact hw.relays
  | clearMempool => exact ⟨hw.policy, relays_nil _ _⟩
  | @reloadMempool n ts us hts hpending hrows =>
    obtain ⟨hsmall, hlen⟩ := Relayed.smallPool hw hok hsync ts hts hrows
    refine ⟨hw.policy, ?_⟩
    show Relays {} n.state (loaded n.mempoolPolicy n.state ts)
    rw [hw.policy]
    exact loaded_default (NodeOk.total hok).2 hts hpending hsmall hlen
  | @setPolicy n p => exact ⟨hdefault p rfl, hw.relays⟩

theorem relayed_after {calls : List Call} (hret : (World.down Disk.empty).AllReturn calls)
    (hdefault : ∀ p, .setPolicy p ∈ calls → p = {}) {n : ConsensusNode} (hn : World.after calls = .up n) : Relayed n := by
  have hw : WorldRelayed (World.after calls) := after_of_allReturn smallPool_nil
    (fun hmem hok hsync hok' hw hr => hr.relayed hok hsync hok' (fun p hp => hdefault p (hp ▸ hmem)) hw) hret
  rw [hn] at hw
  exact hw

/-! ## Opening with the index of a run -/

/-- With the index that a run leaves, the state is found. -/
theorem NodeIndexed.openState {n : ConsensusNode} (h : NodeOk n) (hindexed : NodeIndexed n) {a : ActiveChain}
    (ha : n.forkChoice.activeChain n.disk.store = .ok a) :
    ∃ s, (ConsensusNode.openState n.forkChoice a).call n.disk = (.ok s, n.disk) ∧ SameState s a.state := by
  rcases h.store.activeChain_eq_ok ha with ⟨-, hnil, -⟩ | ⟨r, chain, hfirst, hb, hbuilt, he⟩
  · have htip : a.tip = none := by rw [ActiveChain.tip, hnil]; rfl
    exact ⟨a.state, openState_eq_ok.mpr (.inl ⟨htip, rfl, rfl⟩), .refl _⟩
  · obtain ⟨bp, hrow, -, hlast⟩ := hb.last
    obtain ⟨chain', s', hr, hsnap, -⟩ := hindexed.indexed.tips r hb.mem
    obtain rfl := hr.branch.unique h.store.nodup hb
    obtain rfl := hr.built.unique hbuilt
    obtain ⟨o, ho⟩ := hbuilt.exists_mem (List.map_eq_nil_iff.not.mpr hb.ne_nil)
    obtain ⟨u, hload, hsame⟩ := loadTipSnapshot_of_rows hsnap ho
    obtain ⟨s, hinit⟩ := exists_init a.state u
    obtain ⟨rfl, hsubsidy, hmax⟩ := init_eq_ok hinit
    obtain ⟨hsub, hmoney⟩ := h.store.activeChain_params ha
    rw [hsub, hmoney] at hinit
    have htip : a.tip = some bp := by rw [ActiveChain.tip, he, hlast]
    have hindex : n.disk.utxoIndex.loadSnapshot r.hash = .ok (some s.utxos) := by
      rw [UTXOIndex.loadSnapshot, hload, ok_bind]
      rfl
    exact ⟨s, openState_eq_ok.mpr (.inr ⟨bp, r.hash, some s.utxos, htip, hrow.hash, hindex, .inl ⟨_, rfl, hsame, hinit, rfl⟩⟩),
      hsubsidy, hmax, hsame⟩

/-! ## Stored forms -/

omit [Ed25519] in
theorem storedTransaction_storedTransaction (t : ConsensusTransaction) :
    storedTransaction (storedTransaction t) = storedTransaction t := by
  have hinput : ∀ x : TxInput, storedInput (storedInput x) = storedInput x := fun x => by
    rw [storedInput, storedInput, storedOutPoint, storedOutPoint, storedHash_storedHash, Option.map_map]
    rfl
  rw [storedTransaction, storedTransaction, List.map_map]
  congr 1
  exact List.map_congr_left fun x _ => hinput x

theorem applyEach_stored {ts : List ConsensusTransaction} {s s' : ConsensusState} {fees : List Int}
    (hu : Canonical s.utxos) (hc : ∀ t ∈ ts, t.isCoinbase = false) (h : applyEach s ts = .ok (fees, s')) :
    applyEach s (ts.map storedTransaction) = .ok (fees, s') := by
  induction ts generalizing s fees with
  | nil => exact h
  | cons t ts ih =>
    rw [List.forall_mem_cons] at hc
    obtain ⟨fee, rest, s₁, ht, hts, rfl⟩ := applyEach_cons.mp h
    obtain ⟨txid, hsp⟩ := (applyTransaction_eq_ok hc.1).mp ht
    have hcoinbase := (hsp.namesStored hu).isCoinbase.trans hc.1
    have ht' := (applyTransaction_eq_ok hcoinbase).mpr ⟨txid, hsp.stored hu⟩
    exact applyEach_cons.mpr ⟨fee, rest, s₁, ht', ih (hu.step hsp.txid_eq hsp.step) hc.2 hts, rfl⟩

/-- What applies also does on the same state with its outputs in another order. -/
theorem Applies.congr {ts : List ConsensusTransaction} {s s' : ConsensusState} (hsame : SameState s' s)
    (hmax : s.utxos.total ≤ s.maxMoney) (hc : ∀ t ∈ ts, t.isCoinbase = false) (h : Applies s ts) : Applies s' ts := by
  obtain ⟨fees, s₁, h⟩ := h
  obtain ⟨hlen, hr, -⟩ := (applyEach_eq_ok hmax hc).mp h
  rw [← hsame.total, ← hsame.maxMoney] at hmax
  obtain ⟨u, hr', -⟩ := hr.congr (pricedRules_local _) hsame.lookup
  rw [← hsame.maxMoney] at hr'
  exact ⟨fees, { s' with utxos := u }, (applyEach_eq_ok hmax hc).mpr ⟨hlen, hr', rfl⟩⟩

/-! ## The order of txids -/

omit [Ed25519] in
/-- Of two entries of which one spends an output of the other the first has the smaller txid. -/
def InTxidOrder (ts : List ConsensusTransaction) : Prop :=
  ts.Pairwise fun t t' => SpendsFrom t t' ∨ SpendsFrom t' t → txidOf t < txidOf t'

omit [Ed25519] in
theorem spendsFrom_stored {t t' : ConsensusTransaction} (h : NamesStored t) :
    SpendsFrom (storedTransaction t) (storedTransaction t') ↔ SpendsFrom t t' := by
  have hnames : ∀ x ∈ t.inputs, (storedInput x).previousOutput = x.previousOutput := h
  simp only [SpendsFrom, txid_storedTransaction]
  constructor
  · rintro ⟨y, hy, hspends⟩
    obtain ⟨x, hx, rfl⟩ := List.mem_map.mp hy
    rw [hnames x hx] at hspends
    exact ⟨x, hx, hspends⟩
  · rintro ⟨x, hx, hspends⟩
    refine ⟨storedInput x, List.mem_map_of_mem hx, ?_⟩
    rw [hnames x hx]
    exact hspends

omit [Ed25519] in
theorem inTxidOrder_stored {ts : List ConsensusTransaction} (hpending : ∀ t ∈ ts, IsPending t) :
    InTxidOrder (ts.map storedTransaction) ↔ InTxidOrder ts := by
  rw [InTxidOrder, List.pairwise_map]
  refine List.Pairwise.iff_of_mem fun {t t'} ht ht' => ?_
  rw [spendsFrom_stored (hpending t ht).names, spendsFrom_stored (hpending t' ht').names, txidOf_storedTransaction,
    txidOf_storedTransaction]

omit [Ed25519] in
theorem byTxid_sorted (ts : List ConsensusTransaction) : (byTxid ts).Pairwise fun t t' => txidOf t ≤ txidOf t' := by
  have : Std.Total fun a b : ConsensusTransaction => (rowOf a).before (rowOf b) := ⟨fun _ _ => le_total _ _⟩
  have : IsTrans ConsensusTransaction fun a b => (rowOf a).before (rowOf b) := ⟨fun _ _ _ => le_trans⟩
  exact List.pairwise_insertionSort _ ts

/-- Entries that apply in their order also do by txid exactly when that keeps entries linked by an output as they are. -/
theorem applies_sorted_iff {s : ConsensusState} (hmax : s.utxos.total ≤ s.maxMoney) {ts ts' : List ConsensusTransaction}
    (hc : ∀ t ∈ ts, t.isCoinbase = false) (hd : DistinctTxids ts) (hun : Unshared ts) (happ : Applies s ts) (hp : ts'.Perm ts)
    (hsorted : ts'.Pairwise fun t t' => txidOf t ≤ txidOf t') : Applies s ts' ↔ InTxidOrder ts := by
  have hle : ∀ {t t'}, [t, t'].Sublist ts' → txidOf t ≤ txidOf t' := fun hsub =>
    List.pairwise_iff_forall_sublist.mp hsorted hsub
  have hne : ∀ {t t'}, [t, t'].Sublist ts → t ∈ ts' ∧ t' ∈ ts' ∧ t ≠ t' ∧ txidOf t ≠ txidOf t' := fun {t t'} hsub => by
    have hn := hd.nodup.sublist (hsub.map txidOf)
    rw [List.map_cons, List.map_cons, List.nodup_cons, List.map_nil, List.mem_singleton] at hn
    exact ⟨hp.mem_iff.mpr (hsub.subset (by simp)), hp.mem_iff.mpr (hsub.subset (by simp)), fun he => hn.1 (he ▸ rfl), hn.1⟩
  constructor
  · intro happ'
    refine List.pairwise_iff_forall_sublist.mpr fun {t t'} hsub hlink => ?_
    obtain ⟨ht, ht', hne, hids⟩ := hne hsub
    have hkept := (sublist_pair_or ht ht' hne).resolve_right (not_swapped hmax hc hp hd.txids_nodup hun happ happ' hlink hsub)
    exact lt_of_le_of_ne (hle hkept) hids
  · intro hord
    obtain ⟨fees, s', h⟩ := happ
    obtain ⟨fees', s'', h', -⟩ := applyEach_rearrange hmax hc hd.txids_nodup h hp fun t t' hsub hlink => by
      obtain ⟨ht, ht', hne, -⟩ := hne hsub
      refine (sublist_pair_or ht ht' hne).resolve_right fun hswapped => ?_
      exact absurd (List.pairwise_iff_forall_sublist.mp hord hsub hlink) (not_lt.mpr (hle hswapped))
    exact ⟨fees', s'', h'⟩

/-! ## Restarts -/

/-- What is loaded of the entries of a node, on its state, is everything exactly when they are in the order of txids. -/
theorem Relayed.loaded_perm_iff {n : ConsensusNode} (hrelayed : Relayed n) (h : NodeOk n) (hsync : Synced n)
    (hun : Unshared n.mempool) {s : ConsensusState} (hstate : SameState s n.state) {ts : List ConsensusTransaction}
    (hts : DistinctTxids ts) (hrows : n.disk.mempoolStore = ⟨ts.map rowOf⟩) :
    (loaded {} s ts).Perm (n.mempool.map storedTransaction) ↔ InTxidOrder n.mempool := by
  have hmax : s.utxos.total ≤ s.maxMoney := by
    rw [hstate.total, hstate.maxMoney]
    exact h.total.2
  have hc : ∀ t ∈ n.mempool.map storedTransaction, t.isCoinbase = false :=
    List.forall_mem_map.mpr fun t ht => (hsync.pending t ht).stored.notCoinbase
  have hperm : ((byTxid ts).map storedTransaction).Perm (n.mempool.map storedTransaction) := by
    refine ((byTxid_perm ts).map _).trans (storedTransaction_of_rowOf hts h.mempool ?_)
    have hp := hsync.rows
    rwa [hrows] at hp
  have happ : Applies s (n.mempool.map storedTransaction) := by
    obtain ⟨fees, s', happ⟩ := hrelayed.relays.applies
    have hstored := applyEach_stored h.canonical (fun t ht => (hsync.pending t ht).notCoinbase) happ
    exact Applies.congr hstate h.total.2 hc ⟨fees, s', hstored⟩
  have hsorted : ((byTxid ts).map storedTransaction).Pairwise fun t t' => txidOf t ≤ txidOf t' := by
    rw [List.pairwise_map]
    simp only [txidOf_storedTransaction]
    exact byTxid_sorted ts
  have hiff := applies_sorted_iff hmax hc (storedTransaction_distinct h.mempool) ((unshared_stored hsync.pending).mpr hun) happ
    hperm hsorted
  rw [inTxidOrder_stored hsync.pending] at hiff
  rw [← hiff]
  constructor
  · intro hall
    exact applies_of_keepValid (hall.length_eq.trans hperm.length_eq.symm)
  · intro happ'
    -- Under the default policy, what applies is kept.
    obtain ⟨hsmall, hlen⟩ := hrelayed.small h hsync
    have hrelays : Relays {} s ((byTxid ts).map storedTransaction) := by
      refine (relays_default hmax fun t ht => hc t (hperm.subset ht)).mpr ⟨happ', fun t ht => ?_, ?_⟩
      · obtain ⟨u, hu, rfl⟩ := List.mem_map.mp (hperm.subset ht)
        exact small_storedTransaction.mpr (hsmall u hu)
      · rw [hperm.length_eq, List.length_map]
        exact hlen
    rw [loaded, hrelays.keepValid]
    exact hperm

/-- After calls that return, under the default policy, opening the files of a node again gives one that has the same
transactions pending, in their stored form, exactly when the mempool is in the order of txids; and the very same records
exactly when also every entry is its stored form. -/
theorem restart_keeps_mempool_iff (calls : List Call) (hret : (World.down Disk.empty).AllReturn calls)
    (hdefault : ∀ p, .setPolicy p ∈ calls → p = {}) (n : ConsensusNode) (hn : World.after calls = .up n) :
    ∃ n' d', (ConsensusNode.openNode ⟨n.difficulty, n.forkChoice.blockSubsidy, n.forkChoice.maxMoney⟩).call n.disk =
        (.ok n', d') ∧
      (n'.mempool.Perm (n.mempool.map storedTransaction) ↔ InTxidOrder n.mempool) ∧
      (n'.mempool.Perm n.mempool ↔ InTxidOrder n.mempool ∧ ∀ t ∈ n.mempool, storedTransaction t = t) := by
  have h := nodeOk_after hn
  have hsync := synced_after hn
  have hrelayed := relayed_after hret hdefault hn
  have hindexed : NodeIndexed n := by
    have hw := worldIndexed_after hret
    rw [hn] at hw
    exact hw
  obtain ⟨ts, hts, hpending, hrows⟩ := hsync.pool
  obtain ⟨a, ha, -⟩ := h.active
  obtain ⟨s, hopen, hsame⟩ := hindexed.openState h ha
  obtain ⟨n', d', hcall, -, -, hstate, hmempool⟩ := NodeOk.open_of_state (i := n.disk.utxoIndex) h hsync h.parameters ha hopen
    hsame hts hrows
  have hiff : n'.mempool.Perm (n.mempool.map storedTransaction) ↔ InTxidOrder n.mempool := by
    rw [hmempool]
    exact hrelayed.loaded_perm_iff h hsync (unshared_after hret hn) hstate hts hrows
  refine ⟨n', d', hcall, hiff, ?_⟩
  have hself : (∀ t ∈ n.mempool, storedTransaction t = t) → n.mempool.map storedTransaction = n.mempool := fun hst =>
    (List.map_congr_left hst).trans (List.map_id _)
  constructor
  · intro hp
    have hst : ∀ t ∈ n.mempool, storedTransaction t = t := fun t ht => by
      have hmem := hp.mem_iff.mpr ht
      rw [hmempool] at hmem
      obtain ⟨u, -, rfl⟩ := List.mem_map.mp (keepValid_subset hmem)
      exact storedTransaction_storedTransaction u
    exact ⟨hiff.mp (by rw [hself hst]; exact hp), hst⟩
  · rintro ⟨hord, hst⟩
    rw [← hself hst]
    exact hiff.mpr hord

/-! ## A payment and its child

The txid of the child is the smaller one, so it is loaded first, before the output it spends is there. -/

omit [Ed25519]

theorem restart_keeps_payment :
    let _ := aliceVerify
    ∃ n' d', (ConsensusNode.openNode ⟨0, 50, 1000⟩).call payingNode.disk = (.ok n', d') ∧
      (n'.mempool.Perm (payingNode.mempool.map storedTransaction) ↔ InTxidOrder payingNode.mempool) ∧
      (n'.mempool.Perm payingNode.mempool ↔ InTxidOrder payingNode.mempool ∧
        ∀ t ∈ payingNode.mempool, storedTransaction t = t) := by
  intro _
  have hret : (World.down Disk.empty).AllReturn [.create [(aliceAddress, 10)] ⟨0, 50, 1000⟩ 0 1, .submitTransaction payment] :=
    ⟨by decide +kernel, by decide +kernel, trivial⟩
  exact restart_keeps_mempool_iff _ hret (fun p hp => by simp at hp) payingNode submitted_payingNode

theorem child_not_reloaded :
    let _ := aliceSigned [payment, nextPayment]
    let calls := [Call.create [(aliceAddress, 10)] ⟨0, 50, 1000⟩ 0 1, .submitTransaction payment, .submitTransaction nextPayment]
    (World.down Disk.empty).AllReturn calls ∧ World.after calls = .up chainedNode ∧
      ∃ n' d', (ConsensusNode.openNode ⟨0, 50, 1000⟩).call chainedNode.disk = (.ok n', d') ∧
        chainedNode.mempool = [payment, nextPayment] ∧ n'.mempool = [payment] := by
  intro _ calls
  have hopen : ((ConsensusNode.openNode ⟨0, 50, 1000⟩).call chainedNode.disk).1.map (·.mempool) = .ok [payment] := by
    decide +kernel
  rcases hcall : (ConsensusNode.openNode ⟨0, 50, 1000⟩).call chainedNode.disk with ⟨e | n', d'⟩
  · rw [hcall] at hopen
    cases hopen
  · rw [hcall] at hopen
    exact ⟨⟨by decide +kernel, by decide +kernel, by decide +kernel, trivial⟩, by decide +kernel, n', d', rfl, rfl,
      Except.ok.inj hopen⟩

end BCC.Proof
