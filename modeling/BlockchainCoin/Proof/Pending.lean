import BlockchainCoin.Proof.Activate
import BlockchainCoin.Proof.Order

/-!
# Pending transactions

What holds of the mempool of a node in every run, whatever was called and whether
it returned: its entries are no coinbases and name outputs in stored form
(`IsPending`), and the mempool store holds exactly these entries (`Synced`). The
active state is worth no less than nothing and no more than the cap
(`NodeOk.total`).
-/

namespace BCC.Proof

open BCC.Impl BCC.Ledger BlockProcessor

/-! ## The active state -/

theorem perm_of_sortedEntries {u u' : UTXOSet} (h : u.sortedEntries = u'.sortedEntries) :
    u.entries.Perm u'.entries := by
  have hp : (u.entries.map fun e => (e.1, e.2)).Perm (u'.entries.map fun e => (e.1, e.2)) := by
    refine (List.perm_insertionSort UTXOSet.entryLe _).symm.trans ?_
    refine List.Perm.trans ?_ (List.perm_insertionSort UTXOSet.entryLe _)
    exact List.Perm.of_eq h
  have hback : ∀ l : List ((_ : OutPoint) × TxOutput),
      (l.map fun e => (e.1, e.2)).map (fun p => (⟨p.1, p.2⟩ : (_ : OutPoint) × TxOutput)) = l := fun l => by
    rw [List.map_map]
    exact List.map_id' l
  have hm := hp.map fun p => (⟨p.1, p.2⟩ : (_ : OutPoint) × TxOutput)
  rwa [hback, hback] at hm

theorem SameState.lookup {s s' : ConsensusState} (h : SameState s s') (o : OutPoint) :
    s.utxos.lookup o = s'.utxos.lookup o := AList.perm_lookup (perm_of_sortedEntries h.utxos)

theorem SameState.total {s s' : ConsensusState} (h : SameState s s') : s.utxos.total = s'.utxos.total :=
  ((perm_of_sortedEntries h.utxos).map fun e : (_ : OutPoint) × TxOutput => e.2.amount).sum_eq

/-- Every output is one that `_validate_outputs` lets pass. -/
def Valued (maxMoney : Int) (u : UTXOSet) : Prop :=
  ∀ o out, u.lookup o = some out → 0 < out.amount ∧ out.amount ≤ maxMoney

theorem valued_empty (maxMoney : Int) : Valued maxMoney ∅ := fun o out h => by
  rw [AList.lookup_empty] at h
  cases h

theorem Valued.step {maxMoney : Int} {u u' : UTXOSet} {t : ConsensusTransaction} {txid : Str} {s : ConsensusState}
    (hu : Valued s.maxMoney u) (hs : Step u (transfer t txid) u') (ho : s.validateOutputs t.outputs = .ok ())
    (hm : s.maxMoney = maxMoney) : Valued maxMoney u' := by
  subst hm
  intro o out hout
  rcases hs.lookup_eq_some hout with hc | ⟨-, h⟩
  · obtain ⟨i, -, hi⟩ := mem_createdFrom.mp hc
    have hv := (validateOutputs_eq_ok.mp ho).2 out (List.mem_of_getElem? hi)
    exact ⟨hv.1, hv.2.1⟩
  · exact hu o out h

theorem Valued.total_nonneg {maxMoney : Int} {u : UTXOSet} (h : Valued maxMoney u) : 0 ≤ u.total := by
  refine List.sum_nonneg ?_
  simp only [List.forall_mem_map]
  intro e he
  have hl : u.lookup e.1 = some e.2 := AList.mem_lookup_iff.mpr he
  have hpos := (h e.1 e.2 hl).1
  omega

variable [Ed25519]

theorem applyTransactions_valued {ts : List ConsensusTransaction} {fees f : Int} {s s' : ConsensusState}
    (hc : ∀ t ∈ ts, t.isCoinbase = false) (hu : Valued s.maxMoney s.utxos)
    (h : ConsensusState.applyTransactions fees s ts = .ok (f, s')) : Valued s'.maxMoney s'.utxos := by
  induction ts generalizing fees s with
  | nil =>
    rw [ConsensusState.applyTransactions, Except.ok.injEq, Prod.mk.injEq] at h
    exact h.2 ▸ hu
  | cons t ts ih =>
    rw [ConsensusState.applyTransactions] at h
    obtain ⟨⟨fee, s₁⟩, ht, hts⟩ := bind_eq_ok.mp h
    obtain ⟨txid, hsp⟩ := (applyTransaction_eq_ok (hc t List.mem_cons_self)).mp ht
    exact ih (fun t ht => hc t (List.mem_cons_of_mem _ ht)) (hu.step hsp.step hsp.outputs (by rw [hsp.params])) hts

theorem Built.valued {subsidy maxMoney : Int} {bs : List ConsensusBlock} {q : Str} {s : ConsensusState}
    (h : Built subsidy maxMoney bs q s) : Valued s.maxMoney s.utxos ∧ s.utxos.total ≤ s.maxMoney := by
  induction h with
  | @nil s hinit =>
    obtain ⟨hu, -, -⟩ := init_eq_ok hinit
    rw [hu]
    exact ⟨valued_empty _, s.maxMoney_pos.le⟩
  | @snoc bs b p q s s' f _ hv _ ih =>
    have hacc := accepted_of_validateCandidate hv
    have hmoney : s'.maxMoney = s.maxMoney := by rw [hacc.params]
    refine ⟨?_, by rw [hmoney]; exact hacc.le_max⟩
    obtain ⟨c, rest, s₁, hc, hts, hcb⟩ := validateCandidate_eq_ok.mp hv
    obtain ⟨txid, hm⟩ := mints_of_applyCoinbaseOf hcb
    have h₁ := applyTransactions_valued (checkBlock_eq_ok.mp hc).2.2.others ih.1 hts
    exact h₁.step hm.step hm.outputs (by rw [hm.params])

section State

variable {n : ConsensusNode} (h : NodeOk n)
include h

/-- The active state up to the order of its entries: built from the active chain. -/
theorem NodeOk.built : ∃ a, n.forkChoice.activeChain n.disk.store = .ok a ∧ SameState n.state a.state ∧
    ∃ q, Built n.forkChoice.blockSubsidy n.forkChoice.maxMoney a.blocks q a.state := by
  obtain ⟨a, ha, hs⟩ := h.active
  refine ⟨a, ha, hs, ?_⟩
  rcases h.store.activeChain_eq_ok ha with ⟨-, hnil, hinit⟩ | ⟨r, chain, -, -, hb, he⟩
  · rw [hnil]
    exact ⟨_, .nil hinit⟩
  · exact ⟨r.hash, by rw [he]; exact hb⟩

theorem NodeOk.canonical : Canonical n.state.utxos := by
  obtain ⟨a, -, hs, q, hb⟩ := h.built
  intro o ho
  refine hb.facts.2.2.1 o ?_
  rw [← AList.lookup_isSome, ← hs.lookup, AList.lookup_isSome]
  exact ho

theorem NodeOk.valued : Valued n.state.maxMoney n.state.utxos := by
  obtain ⟨a, -, hs, q, hb⟩ := h.built
  intro o out ho
  rw [hs.lookup] at ho
  rw [hs.maxMoney]
  exact hb.valued.1 o out ho

theorem NodeOk.total : 0 ≤ n.state.utxos.total ∧ n.state.utxos.total ≤ n.state.maxMoney := by
  refine ⟨h.valued.total_nonneg, ?_⟩
  obtain ⟨a, -, hs, q, hb⟩ := h.built
  rw [hs.total, hs.maxMoney]
  exact hb.valued.2

end State

/-! ## Entries of the mempool -/

omit [Ed25519] in
/-- What admission has seen of a pending transaction. -/
structure IsPending (t : ConsensusTransaction) : Prop where
  notCoinbase : t.isCoinbase = false
  names : NamesStored t

omit [Ed25519] in
theorem IsPending.stored {t : ConsensusTransaction} (h : IsPending t) : IsPending (storedTransaction t) := by
  refine ⟨h.names.isCoinbase.trans h.notCoinbase, fun x hx => ?_⟩
  obtain ⟨y, -, rfl⟩ := List.mem_map.mp hx
  simp only [storedInput, storedOutPoint]
  rw [storedHash_storedHash]

theorem candidateAfter_eq_ok {ts : List ConsensusTransaction} {s s' : ConsensusState} :
    candidateAfter s ts = .ok s' ↔ ∃ fees, applyEach s ts = .ok (fees, s') := by
  induction ts generalizing s with
  | nil => simp [candidateAfter, applyEach]
  | cons t ts ih =>
    simp only [candidateAfter, applyEach_cons, bind_eq_ok, Prod.exists, ih]
    constructor
    · rintro ⟨fee, s₁, ht, fees, hts⟩
      exact ⟨fee :: fees, fee, fees, s₁, ht, hts, rfl⟩
    · rintro ⟨_, fee, fees, s₁, ht, hts, -⟩
      exact ⟨fee, s₁, ht, fees, hts⟩

theorem applyEach_canonical {ts : List ConsensusTransaction} {s s' : ConsensusState} {fees : List Int}
    (hc : ∀ t ∈ ts, t.isCoinbase = false) (hu : Canonical s.utxos) (h : applyEach s ts = .ok (fees, s')) :
    Canonical s'.utxos := by
  induction ts generalizing s fees with
  | nil =>
    rw [applyEach, Except.ok.injEq, Prod.mk.injEq] at h
    exact h.2 ▸ hu
  | cons t ts ih =>
    obtain ⟨fee, rest, s₁, ht, hts, -⟩ := applyEach_cons.mp h
    obtain ⟨txid, hsp⟩ := (applyTransaction_eq_ok (hc t List.mem_cons_self)).mp ht
    exact ih (fun t ht => hc t (List.mem_cons_of_mem _ ht)) (hu.step hsp.txid_eq hsp.step) hts

theorem Admitted.isPending {n : ConsensusNode} {t : ConsensusTransaction} {remaining : List ConsensusTransaction}
    {fee : Int} (hn : NodeOk n) (hp : ∀ u ∈ n.mempool, IsPending u) (h : Admitted n t remaining fee) :
    ∀ u ∈ remaining ++ [t], IsPending u := by
  intro u hu
  rcases List.mem_append.mp hu with hu | hu
  · exact hp u (h.sublist.subset hu)
  · rw [List.mem_singleton.mp hu]
    obtain ⟨c, c', hc, ht⟩ := h.applies
    obtain ⟨fees, hc⟩ := candidateAfter_eq_ok.mp hc
    have hcan := applyEach_canonical (fun u hu => (hp u (h.sublist.subset hu)).notCoinbase) hn.canonical hc
    obtain ⟨txid, hsp⟩ := (applyTransaction_eq_ok h.notCoinbase).mp ht
    exact ⟨h.notCoinbase, hsp.namesStored hcan⟩

omit [Ed25519] in
/-- The store holds rows of pending transactions. -/
def PoolPending (store : MempoolStore) : Prop :=
  ∃ ts, DistinctTxids ts ∧ (∀ t ∈ ts, IsPending t) ∧ store = ⟨ts.map rowOf⟩

omit [Ed25519] in
/-- The mempool has pending transactions, and the store has the same; the difficulty is one that the
constructor lets pass. -/
structure Synced (n : ConsensusNode) : Prop where
  difficulty : 0 ≤ n.difficulty
  pending : ∀ t ∈ n.mempool, IsPending t
  pool : PoolPending n.disk.mempoolStore
  rows : n.disk.mempoolStore.rows.Perm (n.mempool.map rowOf)

omit [Ed25519] in
theorem poolPending_nil : PoolPending ⟨[]⟩ := ⟨[], distinctTxids_nil, fun _ h => absurd h List.not_mem_nil, rfl⟩

omit [Ed25519] in
theorem Synced.withMempool {n : ConsensusNode} (h : Synced n) {ts : List ConsensusTransaction} (hd : DistinctTxids ts)
    (hp : ∀ t ∈ ts, IsPending t) : Synced (withMempool n ts) := ⟨h.difficulty, hp, ⟨ts, hd, hp, rfl⟩, .refl _⟩

theorem keepValid_subset {p : MempoolPolicy} {s : ConsensusState} {ts : List ConsensusTransaction} :
    keepValid p s [] ts ⊆ ts := by
  obtain ⟨kept, he, hs⟩ := keepValid_sublist p ts s []
  rw [he]
  exact hs.subset

theorem loaded_isPending {p : MempoolPolicy} {s : ConsensusState} {ts : List ConsensusTransaction}
    (h : ∀ t ∈ ts, IsPending t) : ∀ t ∈ loaded p s ts, IsPending t := by
  intro t ht
  obtain ⟨u, hu, rfl⟩ := List.mem_map.mp (keepValid_subset ht)
  exact (h u ((byTxid_perm ts).mem_iff.mp hu)).stored

/-- Whatever `_load_mempool` finds, it leaves the store with the transactions it returns. -/
theorem loadMempool_synced {d : Disk} (h : PoolPending d.mempoolStore) (p : MempoolPolicy) (s : ConsensusState) :
    ∃ ts store, (ConsensusNode.loadMempool p s).call d = (.ok ts, { d with mempoolStore := store }) ∧
      (∀ t ∈ ts, IsPending t) ∧ PoolPending store ∧ store.rows.Perm (ts.map rowOf) := by
  obtain ⟨ts, hd, hp, hrows⟩ := h
  obtain ⟨us, hcall, hus, hperm, hor⟩ := loadMempool_call hd hrows p s
  refine ⟨_, _, hcall, loaded_isPending hp, ⟨us, hus, ?_, rfl⟩, hperm⟩
  rcases hor with rfl | rfl
  · exact loaded_isPending hp
  · exact hp

/-! ## Runs -/

/-- The mempool invariant of a node or of its files. -/
def WorldSynced : World → Prop
  | .down disk => PoolPending disk.mempoolStore
  | .up node => Synced node

/-- A node is made with its mempool synced, or the files are left with pending transactions. -/
def MakesSynced (x : Method Disk PyError ConsensusNode) (d : Disk) : Prop :=
  x.Ends d (fun node _ => Synced node) fun _ disk => PoolPending disk.mempoolStore

omit [Ed25519] in
theorem MakesSynced.made {d : Disk} {x : Method Disk PyError ConsensusNode} (h : MakesSynced x d) :
    WorldSynced (World.made (x.call d)) := by
  rw [MakesSynced, Method.Ends] at h
  revert h
  rcases x.call d with ⟨_ | _, _⟩ <;> exact id

theorem init_synced {d : Disk} (h : PoolPending d.mempoolStore) (s : ConsensusState) (difficulty : Int)
    (p : MempoolPolicy) (f : ForkChoice) : MakesSynced (ConsensusNode.init s difficulty p f) d := by
  obtain ⟨ts, store, hcall, hts, hstore, hperm⟩ := loadMempool_synced h p s
  refine .bind (.reading (fun _ hd => ?_) fun _ _ => h)
  exact .bind (.of_call hcall ⟨not_lt.mp (raiseIf_eq_ok.mp hd), hts, hstore, hperm⟩)

theorem create_synced {d : Disk} (h : PoolPending d.mempoolStore) (allocations : List (Str × Int))
    (parameters : ChainParameters) (timestamp : UInt64) (fuel : Nat) :
    MakesSynced (ConsensusNode.create allocations parameters timestamp fuel) d := by
  refine .bind (.reading (fun tip _ => .bind (.reading (fun _ _ => ?_) fun _ _ => h)) fun _ _ => h)
  refine .bind (.modify (.bind (.reading (fun r _ => ?_) fun _ _ => h)))
  refine .bind (.assigning (fun _ d₁ hput => ?_) fun _ _ => h)
  simp only [bind_eq_ok, pure_eq_ok, Prod.mk.injEq] at hput
  obtain ⟨_, -, -, rfl⟩ := hput
  refine .bind (.assigning (fun _ d₂ hpool => ?_) fun _ _ => h)
  rw [replaceAll_eq_ok.mpr ⟨distinctTxids_nil, rfl⟩, ok_bind, pure_eq_ok, Prod.mk.injEq] at hpool
  obtain ⟨-, rfl⟩ := hpool
  refine .bind (.assigning (fun _ d₃ hindex => ?_) fun _ _ => poolPending_nil)
  simp only [bind_eq_ok, pure_eq_ok, Prod.mk.injEq] at hindex
  obtain ⟨hash, -, index, -, -, rfl⟩ := hindex
  exact .bind (.reading (fun a _ => init_synced poolPending_nil _ _ _ _) fun _ _ => poolPending_nil)

theorem openNode_synced {d : Disk} (h : PoolPending d.mempoolStore) (parameters : ChainParameters) :
    MakesSynced (ConsensusNode.openNode parameters) d := by
  have hkeep : ∀ x : Method Disk PyError ConsensusState,
      Method.Preserves (fun d' => d'.mempoolStore = d.mempoolStore) x → x.Ends d
        (fun s d' => MakesSynced (ConsensusNode.init s parameters.difficulty {}
          ⟨parameters.blockSubsidy, parameters.maxMoney⟩) d')
        fun _ d' => d'.mempoolStore = d.mempoolStore := fun x hx =>
    (hx d rfl).mono (fun s d' hd => init_synced (by rw [hd]; exact h) _ _ _ _) fun _ _ hd => hd
  refine .bind (.tryCatch ((hkeep _ ?_).mono (fun _ _ hq => hq) fun e d' hd => ?_))
  · refine .bind (.assigning fun hd hr => ?_) fun _ => .bind (.reading _) fun a => .bind (.reading _) fun _ => ?_
    · simp only [bind_eq_ok, pure_eq_ok, Prod.mk.injEq] at hr
      obtain ⟨store, -, -, rfl⟩ := hr
      exact hd
    · unfold ConsensusNode.openState
      split
      · exact fun _ hd => .pure hd
      · refine .bind (.reading _) fun hash => .bind (.reading _) fun indexed => ?_
        split
        · exact .reading _
        · refine .bind (.assigning fun hd hr => ?_) fun _ => fun _ hd => .pure hd
          simp only [bind_eq_ok, pure_eq_ok, Prod.mk.injEq] at hr
          obtain ⟨index, -, -, rfl⟩ := hr
          exact hd
  · exact .throw (by rw [hd]; exact h)

theorem Synced.importBlock {n : ConsensusNode} (hn : NodeOk n) (h : Synced n) (b : ConsensusBlock) :
    Synced ((ConsensusNode.importBlock b).call n).2 := by
  rcases hcall : (ConsensusNode.importBlock b).call n with ⟨e | stored, n'⟩
  · have hs := importBlock_samePool hn hcall
    exact ⟨by rw [hs.difficulty]; exact h.difficulty, by rw [hs.mempool]; exact h.pending, by rw [hs.mempoolStore]; exact h.pool,
      by rw [hs.mempoolStore, hs.mempool]; exact h.rows⟩
  · obtain ⟨hash, store, a, hact⟩ := importBlock_returns hn hcall
    have hsub : mempoolAfter n a.state b ⊆ n.mempool := fun t ht => (List.mem_filter.mp (keepValid_subset ht)).1
    have hd : DistinctTxids (mempoolAfter n a.state b) := (hn.mempool.sublist List.filter_sublist).keepValid _ _
    have hp : ∀ t ∈ mempoolAfter n a.state b, IsPending t := fun t ht => h.pending t (hsub ht)
    rw [hact.node]
    exact ⟨h.difficulty, hp, ⟨_, hd, hp, rfl⟩, .refl _⟩

theorem WorldSynced.step {w : World} (hok : WorldOk w) (h : WorldSynced w) (call : Call) :
    WorldSynced (w.step call) := by
  cases w with
  | down d =>
    cases call with
    | create allocations parameters timestamp fuel => exact (create_synced h allocations parameters timestamp fuel).made
    | openNode parameters => exact (openNode_synced h parameters).made
    | _ => exact h
  | up n =>
    have hn : NodeOk n := hok
    have hs : Synced n := h
    cases call with
    | create => exact h
    | openNode => exact h
    | close => exact hs.pool
    | importBlock b => exact hs.importBlock hn b
    | mineBlock minerAddress timestamp fuel =>
      show Synced ((ConsensusNode.mineBlock minerAddress timestamp fuel).call n).2
      rcases mineBlock_cases n minerAddress timestamp fuel with ⟨e, he⟩ | ⟨b, -, he⟩
      · rw [he]; exact hs
      · rw [he]; exact hs.importBlock hn b
    | submitTransaction t =>
      show Synced ((ConsensusNode.submitTransaction t).call n).2
      rcases submitTransaction_call hn.mempool t with ⟨e, he⟩ | ⟨txid, remaining, fee, hadm, he⟩
      · rw [he]; exact hs
      · rw [he]
        exact hs.withMempool (hadm.distinct hn.mempool) (hadm.isPending hn hs.pending)
    | pruneMempool =>
      show Synced (ConsensusNode.pruneMempool.call n).2
      rw [pruneMempool_call hn.mempool]
      exact hs.withMempool (hn.mempool.keepValid _ _) fun t ht => hs.pending t (keepValid_subset ht)
    | clearMempool =>
      show Synced (ConsensusNode.clearMempool.call n).2
      rw [clearMempool_call]
      exact hs.withMempool distinctTxids_nil fun _ ht => absurd ht List.not_mem_nil
    | reloadMempool =>
      obtain ⟨ts, store, hcall, hts, hstore, hperm⟩ := loadMempool_synced hs.pool n.mempoolPolicy n.state
      show Synced (ConsensusNode.reloadMempool.call n).2
      simp only [ConsensusNode.reloadMempool, Method.call_bind, Method.call_get, Method.call_onPart, hcall]
      exact ⟨hs.difficulty, hts, hstore, hperm⟩
    | setPolicy p => exact ⟨hs.difficulty, hs.pending, hs.pool, hs.rows⟩

theorem worldSynced_after (calls : List Call) : WorldSynced (World.after calls) := by
  have key : ∀ w, WorldOk w → WorldSynced w → WorldSynced (calls.foldl World.step w) := by
    induction calls with
    | nil => exact fun w _ h => h
    | cons call calls ih => exact fun w hok h => ih _ (hok.step call) (h.step hok call)
  exact key _ diskOk_empty poolPending_nil

theorem synced_after {calls : List Call} {n : ConsensusNode} (h : World.after calls = .up n) : Synced n := by
  have hw := worldSynced_after calls
  rwa [h] at hw

end BCC.Proof
