import BlockchainCoin.Proof.Pending

/-!
# Nodes that are created and opened

`ConsensusNode.create` and `ConsensusNode.open` taken apart when they return:
`create_returns` has the first block stored and its snapshot written, and
`openNode_eq_ok` has the chain parameters compared, the branches replayed, the
indexed snapshot read and maybe written again, and the mempool loaded.
-/

namespace BCC.Proof

open BCC.Impl BCC.Ledger BlockProcessor

variable [Ed25519]

/-! ## The constructor -/

theorem init_call {d : Disk} {ts : List ConsensusTransaction} (h : DistinctTxids ts)
    (hd : d.mempoolStore = ⟨ts.map rowOf⟩) {difficulty : Int} (hdiff : 0 ≤ difficulty) (s : ConsensusState)
    (p : MempoolPolicy) (f : ForkChoice) :
    ∃ (us : List ConsensusTransaction) (d' : Disk), (ConsensusNode.init s difficulty p f).call d =
      (.ok ⟨{ d with mempoolStore := ⟨us.map rowOf⟩ }, s, difficulty, loaded p s ts, p, f, none⟩, d') := by
  obtain ⟨us, hcall, -⟩ := loadMempool_call h hd p s
  refine ⟨us, { d with mempoolStore := ⟨us.map rowOf⟩ }, ?_⟩
  rw [ConsensusNode.init, Method.call_bind, Method.call_reading, raiseIf_of_not (not_lt.mpr hdiff)]
  simp only
  rw [Method.call_bind, hcall]
  simp only
  rw [Method.call_bind, Method.call_get]
  rfl

theorem init_returns {d d' : Disk} {ts : List ConsensusTransaction} (h : DistinctTxids ts)
    (hd : d.mempoolStore = ⟨ts.map rowOf⟩) {difficulty : Int} {s : ConsensusState} {p : MempoolPolicy} {f : ForkChoice}
    {n : ConsensusNode} (hcall : (ConsensusNode.init s difficulty p f).call d = (.ok n, d')) :
    ∃ us : List ConsensusTransaction, n = ⟨{ d with mempoolStore := ⟨us.map rowOf⟩ }, s, difficulty, loaded p s ts, p, f, none⟩ := by
  have hdiff : 0 ≤ difficulty := by
    rw [ConsensusNode.init, Method.call_bind_eq_ok] at hcall
    obtain ⟨_, _, hr, -⟩ := hcall
    rw [Method.call_reading_eq_ok, raiseIf_eq_ok, not_lt] at hr
    exact hr.1
  obtain ⟨us, d'', hok⟩ := init_call h hd hdiff s p f
  rw [hcall, Prod.mk.injEq, Except.ok.injEq] at hok
  exact ⟨us, hok.1⟩

/-! ## Creating -/

/-- What `ConsensusNode.create` has done when it returns: the first block `genesis` replays to `s` from nothing,
and is stored with the snapshot of `s`. -/
structure Created (d : Disk) (p : ChainParameters) (genesis : ConsensusBlock) (hash : Str) (s : ConsensusState)
    (n : ConsensusNode) : Prop where
  empty : d.store.blocks = []
  hash_eq : genesis.hash = .ok hash
  accepted : ∃ s₀ fees, ConsensusState.init ∅ p.blockSubsidy p.maxMoney = .ok s₀ ∧
    validateCandidate s₀ genesis 0 zeroHash = .ok (fees, s)
  store : ∃ stored, (d.store.saveChainParameters p).putBlock genesis = .ok (stored, n.disk.store)
  index : d.utxoIndex.saveSnapshot hash s.utxos = .ok n.disk.utxoIndex
  mempool : n.mempool = []
  mempoolPolicy : n.mempoolPolicy = {}
  forkChoice : n.forkChoice = ⟨p.blockSubsidy, p.maxMoney⟩

theorem create_returns {d d' : Disk} (h : DiskOk d) {allocations : List (Str × Int)} {p : ChainParameters}
    {timestamp : UInt64} {fuel : Nat} {n : ConsensusNode}
    (hcall : (ConsensusNode.create allocations p timestamp fuel).call d = (.ok n, d')) :
    ∃ genesis hash s, Created d p genesis hash s n := by
  simp only [ConsensusNode.create, Method.call_bind_eq_ok, Method.call_reading_eq_ok, Method.call_assigning_eq_ok,
    Method.call_modify, bind_eq_ok, Prod.exists, Method.onLocal_eq_ok, applyBlock_eq_ok, pure_eq_ok, Prod.mk.injEq,
    true_and] at hcall
  obtain ⟨tip, _, ⟨htip, rfl⟩, _, d, ⟨hno, rfl⟩, _, _, rfl, _, _, _, ⟨⟨s₀, hs₀, genesis, -, fees, state, hv, rfl, rfl⟩, rfl⟩,
    _, _, ⟨stored, store, hput, rfl⟩, _, _, ⟨pool, hpool, rfl⟩, _, _, ⟨hash, hhash, index, hindex, rfl⟩, a, _, ⟨-, rfl⟩,
    hinit⟩ := hcall
  have hnil : d.store.blocks = [] := by
    rcases h.store with hnil | ⟨p', -, hok⟩
    · exact hnil
    · obtain ⟨tip', htip', hsome⟩ := bestTip_isSome hok
      rw [htip, Except.ok.injEq] at htip'
      subst htip'
      rw [raiseIf_eq_ok, hsome, not_not] at hno
      exact hno
  rw [replaceAll_eq_ok.mpr ⟨distinctTxids_nil, rfl⟩, Except.ok.injEq] at hpool
  subst hpool
  obtain ⟨us, rfl⟩ := init_returns distinctTxids_nil rfl hinit
  exact ⟨genesis, hash, state, hnil, hhash, ⟨s₀, fees, hs₀, hv⟩, ⟨stored, hput⟩, hindex, rfl, rfl, rfl⟩

/-! ## Opening -/

omit [Ed25519] in
/-- The ways `open` finds its state: there is no chain, the index agrees with it, or it is written again. -/
theorem openState_eq_ok {f : ForkChoice} {a : ActiveChain} {d d' : Disk} {s : ConsensusState} :
    (ConsensusNode.openState f a).call d = (.ok s, d') ↔
      (a.tip = none ∧ s = a.state ∧ d' = d) ∨
      ∃ tip hash indexed, a.tip = some tip ∧ tip.hash = .ok hash ∧ d.utxoIndex.loadSnapshot hash = .ok indexed ∧
        ((∃ u, indexed = some u ∧ u.sortedEntries = a.state.utxos.sortedEntries ∧
            ConsensusState.init u f.blockSubsidy f.maxMoney = .ok s ∧ d' = d) ∨
          ((∀ u, indexed = some u → u.sortedEntries ≠ a.state.utxos.sortedEntries) ∧ s = a.state ∧
            ∃ index, d.utxoIndex.saveSnapshot hash a.state.utxos = .ok index ∧
              d' = { d with utxoIndex := index })) := by
  unfold ConsensusNode.openState
  cases htip : a.tip with
  | none =>
    simp only [Method.call_pure, Prod.mk.injEq, Except.ok.injEq, true_and, reduceCtorEq, false_and, exists_false, or_false]
    exact and_congr eq_comm eq_comm
  | some tip =>
    simp only [Method.call_bind_eq_ok, Method.call_reading_eq_ok, reduceCtorEq, false_and, Option.some.injEq, false_or]
    constructor
    · rintro ⟨hash, _, ⟨hhash, rfl⟩, indexed, _, ⟨hload, rfl⟩, h⟩
      refine ⟨tip, hash, indexed, rfl, hhash, hload, ?_⟩
      split at h
      · rename_i u hu
        obtain ⟨hu, he⟩ := Option.filter_eq_some_iff.mp hu
        rw [Method.call_reading_eq_ok] at h
        exact .inl ⟨u, hu, by simpa using he, h.1, h.2⟩
      · rename_i hno
        simp only [Method.call_bind_eq_ok, Method.call_assigning_eq_ok, bind_eq_ok, pure_eq_ok, Prod.mk.injEq, Method.call_pure,
          Except.ok.injEq] at h
        obtain ⟨_, _, ⟨index, hsave, -, rfl⟩, rfl, rfl⟩ := h
        refine .inr ⟨fun u hu he => ?_, rfl, index, hsave, rfl⟩
        have hyes : indexed.filter (fun u => u.sortedEntries = a.state.utxos.sortedEntries) = some u :=
          Option.filter_eq_some_iff.mpr ⟨hu, decide_eq_true he⟩
        rw [hno] at hyes
        cases hyes
    · rintro ⟨_, hash, indexed, rfl, hhash, hload, h⟩
      refine ⟨hash, d, ⟨hhash, rfl⟩, indexed, d, ⟨hload, rfl⟩, ?_⟩
      rcases h with ⟨u, rfl, he, hinit, rfl⟩ | ⟨hno, rfl, index, hsave, rfl⟩
      · have hfilter : (some u).filter (fun u => u.sortedEntries = a.state.utxos.sortedEntries) = some u :=
          Option.filter_eq_some_iff.mpr ⟨rfl, decide_eq_true he⟩
        rw [hfilter]
        exact Method.call_reading_eq_ok.mpr ⟨hinit, rfl⟩
      · have hfilter : (indexed.filter fun u => u.sortedEntries = a.state.utxos.sortedEntries) = none := by
          rw [Option.filter_eq_none_iff]
          exact fun u hu he => hno u hu (of_decide_eq_true he)
        rw [hfilter]
        rw [Method.call_bind, Method.call_assigning_of_ok (by rw [hsave]; rfl)]
        rfl

omit [Ed25519] in
/-- Only the index may be written. -/
theorem openState_index {f : ForkChoice} {a : ActiveChain} {d d' : Disk} {s : ConsensusState}
    (h : (ConsensusNode.openState f a).call d = (.ok s, d')) : d' = { d with utxoIndex := d'.utxoIndex } := by
  rcases openState_eq_ok.mp h with ⟨-, -, rfl⟩ | ⟨tip, hash, indexed, -, -, -, ⟨_, -, -, -, rfl⟩ | ⟨-, -, index, -, rfl⟩⟩
  · rfl
  · rfl
  · rfl

theorem openNode_eq_ok {d d' : Disk} {p : ChainParameters} {n : ConsensusNode} :
    (ConsensusNode.openNode p).call d = (.ok n, d') ↔
      ∃ store a s d₂, d.store.requireChainParameters p = .ok store ∧
        ForkChoice.activeChain ⟨p.blockSubsidy, p.maxMoney⟩ store = .ok a ∧
        ForkChoice.validateAllKnownBranches ⟨p.blockSubsidy, p.maxMoney⟩ store = .ok () ∧
        (ConsensusNode.openState ⟨p.blockSubsidy, p.maxMoney⟩ a).call { d with store := store } = (.ok s, d₂) ∧
        (ConsensusNode.init s p.difficulty {} ⟨p.blockSubsidy, p.maxMoney⟩).call d₂ = (.ok n, d') := by
  have hcatch : ∀ {α : Type} {x : Method Disk PyError α} {h : PyError → PyError} {r : α} {d₂ : Disk},
      (tryCatch x fun e => throw (h e)).call d = (.ok r, d₂) ↔ x.call d = (.ok r, d₂) := by
    intro α x h r d₂
    rw [Method.call_tryCatch]
    rcases x.call d with ⟨_ | _, _⟩ <;> simp
  rw [ConsensusNode.openNode, Method.call_bind_eq_ok]
  simp only [hcatch, Method.call_bind_eq_ok, Method.call_assigning_eq_ok, Method.call_reading_eq_ok, bind_eq_ok, pure_eq_ok,
    Prod.mk.injEq]
  constructor
  · rintro ⟨s, d₂, ⟨_, _, ⟨store, hstore, -, rfl⟩, a, _, ⟨ha, rfl⟩, _, _, ⟨hv, rfl⟩, hs⟩, hi⟩
    exact ⟨store, a, s, d₂, hstore, ha, hv, hs, hi⟩
  · rintro ⟨store, a, s, d₂, hstore, ha, hv, hs, hi⟩
    exact ⟨s, d₂, ⟨(), _, ⟨store, hstore, trivial, rfl⟩, a, _, ⟨ha, rfl⟩, (), _, ⟨hv, rfl⟩, hs⟩, hi⟩

/-! ## Runs that return -/

/-- What a call that returns leaves behind. -/
inductive Returned : World → Call → World → Prop
  | create {d d' : Disk} {allocations : List (Str × Int)} {p : ChainParameters} {timestamp : UInt64} {fuel : Nat}
      {n : ConsensusNode} (hcall : (ConsensusNode.create allocations p timestamp fuel).call d = (.ok n, d')) :
      Returned (.down d) (.create allocations p timestamp fuel) (.up n)
  | openNode {d d' : Disk} {p : ChainParameters} {n : ConsensusNode}
      (hcall : (ConsensusNode.openNode p).call d = (.ok n, d')) : Returned (.down d) (.openNode p) (.up n)
  | close {n : ConsensusNode} : Returned (.up n) .close (.down n.disk)
  | importBlock {n n' : ConsensusNode} {call : Call} {b : ConsensusBlock} {stored : StoredConsensusBlock}
      (hcall : (ConsensusNode.importBlock b).call n = (.ok stored, n')) : Returned (.up n) call (.up n')
  | submitTransaction {n : ConsensusNode} {t : ConsensusTransaction} {remaining : List ConsensusTransaction} {fee : Int}
      (hadm : Admitted n t remaining fee) :
      Returned (.up n) (.submitTransaction t) (.up (withMempool n (remaining ++ [t])))
  | pruneMempool {n : ConsensusNode} :
      Returned (.up n) .pruneMempool (.up (withMempool n (keepValid n.mempoolPolicy n.state [] n.mempool)))
  | clearMempool {n : ConsensusNode} : Returned (.up n) .clearMempool (.up (withMempool n []))
  | reloadMempool {n : ConsensusNode} {ts us : List ConsensusTransaction} (hts : DistinctTxids ts)
      (hpending : ∀ t ∈ ts, IsPending t) (hrows : n.disk.mempoolStore = ⟨ts.map rowOf⟩) :
      Returned (.up n) .reloadMempool (.up { n with
        mempool := loaded n.mempoolPolicy n.state ts
        disk := { n.disk with mempoolStore := ⟨us.map rowOf⟩ } })
  | setPolicy {n : ConsensusNode} {p : MempoolPolicy} :
      Returned (.up n) (.setPolicy p) (.up { n with mempoolPolicy := p })

theorem returned_step {w : World} (hok : WorldOk w) (hsync : WorldSynced w) {call : Call} (hret : w.returns call = true) :
    Returned w call (w.step call) := by
  cases w with
  | down d =>
    cases call with
    | create allocations p timestamp fuel =>
      obtain ⟨n, d', hcall⟩ := Method.exists_call_of_isOk hret
      rw [World.step, hcall]
      exact .create hcall
    | openNode p =>
      obtain ⟨n, d', hcall⟩ := Method.exists_call_of_isOk hret
      rw [World.step, hcall]
      exact .openNode hcall
    | _ => cases hret
  | up n =>
    have hn : NodeOk n := hok
    cases call with
    | create => cases hret
    | openNode => cases hret
    | close => exact .close
    | importBlock b =>
      obtain ⟨stored, n', hcall⟩ := Method.exists_call_of_isOk hret
      rw [World.step, hcall]
      exact .importBlock hcall
    | mineBlock minerAddress timestamp fuel =>
      obtain ⟨stored, n', hcall⟩ := Method.exists_call_of_isOk hret
      rw [World.step, hcall]
      rcases mineBlock_cases n minerAddress timestamp fuel with ⟨e, he⟩ | ⟨b, -, he⟩
      · rw [he] at hcall
        cases hcall
      · exact .importBlock (he.symm.trans hcall)
    | submitTransaction t =>
      rcases submitTransaction_call hn.mempool t with ⟨e, he⟩ | ⟨txid, remaining, fee, hadm, he⟩
      · rw [World.returns, he] at hret
        cases hret
      · rw [World.step, he]
        exact .submitTransaction hadm
    | pruneMempool =>
      rw [World.step, pruneMempool_call hn.mempool]
      exact .pruneMempool
    | clearMempool =>
      rw [World.step, clearMempool_call]
      exact .clearMempool
    | reloadMempool =>
      obtain ⟨ts, hts, hpending, hrows⟩ := (show Synced n from hsync).pool
      obtain ⟨us, hcall, -⟩ := reloadMempool_call hts hrows
      rw [World.step, hcall]
      exact .reloadMempool hts hpending hrows
    | setPolicy p => exact .setPolicy

/-- What holds of empty files and is kept by every call that returns holds after every run that does. -/
theorem after_of_allReturn {P : World → Prop} {calls : List Call} (hempty : P (.down Disk.empty))
    (hstep : ∀ {w w' : World} {call : Call}, call ∈ calls → WorldOk w → WorldSynced w → WorldOk w' → P w →
      Returned w call w' → P w') (hret : (World.down Disk.empty).AllReturn calls) : P (World.after calls) := by
  have key : ∀ w, WorldOk w → WorldSynced w → P w → w.AllReturn calls → P (calls.foldl World.step w) := by
    clear hret
    induction calls with
    | nil => exact fun w _ _ h _ => h
    | cons call calls ih =>
      refine fun w hok hsync h hr => ih (fun hc => hstep (List.mem_cons_of_mem call hc)) _ (hok.step call)
        (hsync.step hok call) ?_ hr.2
      exact hstep List.mem_cons_self hok hsync (hok.step call) h (returned_step hok hsync hr.1)
  exact key _ diskOk_empty poolPending_nil hempty hret

theorem allReturn_snoc {calls : List Call} {call : Call} :
    ∀ {w : World}, w.AllReturn calls → (calls.foldl World.step w).returns call = true → w.AllReturn (calls ++ [call]) := by
  induction calls with
  | nil => exact fun _ h => ⟨h, trivial⟩
  | cons first calls ih => exact fun hr h => ⟨hr.1, ih hr.2 h⟩

end BCC.Proof
