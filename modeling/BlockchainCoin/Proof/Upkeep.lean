import BlockchainCoin.Proof.ForkTree
import BlockchainCoin.Proof.Reload

/-!
# The mempool under one policy

What the methods of a node do to entries that stand. Every output of the active set
and of a replay on it was made by a stored or a pending transaction (`MadeBy`); as
long as txids tell these apart, an entry pays the same fee wherever it applies
(`fee_eq_of_madeBy`). The policy asks no more of it the earlier it stands, so it
refuses none of the entries that are left when others go (`Relays.keepValid_sublist`).
Only loading them by txid moves an entry to a later place, where it may be refused
and is applied all the same (`mempool_upheld`).
-/

namespace BCC.Proof

open BCC.Impl BCC.Ledger

/-! ## Where outputs come from -/

/-- Every output of the set is one of a transaction of which `P` holds. -/
def MadeBy (P : ConsensusTransaction → Prop) (u : UTXOSet) : Prop :=
  ∀ o out, u.lookup o = some out → ∃ t, P t ∧ t.txid = .ok o.txid ∧ (o, out) ∈ createdFrom o.txid 0 t.outputs

/-- Of the transactions of which `P` holds, those that are encoded differently have different txids. -/
def TxidsDistinct (P : ConsensusTransaction → Prop) : Prop :=
  ∀ t u, P t → P u → t.txid = u.txid → t.toBytes = u.toBytes

theorem TxidsDistinct.mono {P Q : ConsensusTransaction → Prop} (h : TxidsDistinct Q) (hPQ : ∀ t, P t → Q t) :
    TxidsDistinct P := fun t u ht hu => h t u (hPQ t ht) (hPQ u hu)

theorem txidsDistinct_of_nodup {P : ConsensusTransaction → Prop} {ts : List ConsensusTransaction} (hsub : ∀ t, P t → t ∈ ts)
    (hn : (ts.map (·.txid)).Nodup) : TxidsDistinct P := fun t u ht hu he => by
  rw [List.inj_on_of_nodup_map hn (hsub t ht) (hsub u hu) he]

theorem outputs_of_toBytes {t u : ConsensusTransaction} {bs : Bytes} (ht : t.toBytes = .ok bs) (hu : u.toBytes = .ok bs) :
    t.outputs = u.outputs := by
  have he := fromBytes_toBytes_transaction ht
  rw [fromBytes_toBytes_transaction hu, Except.ok.injEq] at he
  exact (congrArg ConsensusTransaction.outputs he).symm

section Made

variable {P Q : ConsensusTransaction → Prop} {u u' : UTXOSet}

theorem MadeBy.mono (h : MadeBy P u) (hPQ : ∀ t, P t → Q t) : MadeBy Q u := fun o out ho => by
  obtain ⟨t, ht, hmade⟩ := h o out ho
  exact ⟨t, hPQ t ht, hmade⟩

theorem MadeBy.step (h : MadeBy P u) {t : ConsensusTransaction} {txid : Str} (ht : P t) (htx : t.txid = .ok txid)
    (hs : Step u (transfer t txid) u') : MadeBy P u' := fun o out ho => by
  rcases hs.lookup_eq_some ho with hnew | ⟨-, hold⟩
  · have hid : o.txid = txid := txid_of_mem_createdFrom (List.mem_map_of_mem (f := Prod.fst) hnew)
    exact ⟨t, ht, hid ▸ htx, hid ▸ hnew⟩
  · exact h o out hold

/-- An outpoint that is in two sets has the same output in both. -/
theorem MadeBy.agree (hd : TxidsDistinct P) (h : MadeBy P u) (h' : MadeBy P u') {o : OutPoint} {out out' : TxOutput}
    (ho : u.lookup o = some out) (ho' : u'.lookup o = some out') : out = out' := by
  obtain ⟨t, ht, htx, hmade⟩ := h o out ho
  obtain ⟨t', ht', htx', hmade'⟩ := h' o out' ho'
  obtain ⟨bs, hbs, -⟩ := txid_eq_ok.mp htx
  have he := hd t t' ht ht' (htx.trans htx'.symm)
  rw [hbs] at he
  obtain ⟨i, hi, hout⟩ := mem_createdFrom.mp hmade
  obtain ⟨i', hi', hout'⟩ := mem_createdFrom.mp hmade'
  have hidx := congrArg OutPoint.index (hi.symm.trans hi')
  simp only [Nat.zero_add, Nat.cast_inj] at hidx
  rw [outputs_of_toBytes hbs he.symm, hidx, hout', Option.some.injEq] at hout
  exact hout.symm

end Made

variable [Ed25519]

section Fees

variable {P : ConsensusTransaction → Prop} {t : ConsensusTransaction} {c c' d d' : ConsensusState} {fee fee' : Int}

theorem MadeBy.apply (h : MadeBy P c.utxos) (hc : t.isCoinbase = false) (ht : P t)
    (happ : c.applyTransaction t = .ok (fee, c')) : MadeBy P c'.utxos := by
  obtain ⟨txid, hsp⟩ := (applyTransaction_eq_ok hc).mp happ
  exact h.step ht hsp.txid_eq hsp.step

/-- A transaction pays the same fee wherever it applies. -/
theorem fee_eq_of_madeBy (hd : TxidsDistinct P) (h : MadeBy P c.utxos) (h' : MadeBy P d.utxos) (hc : t.isCoinbase = false)
    (happ : c.applyTransaction t = .ok (fee, c')) (happ' : d.applyTransaction t = .ok (fee', d')) : fee = fee' := by
  obtain ⟨_, hsp⟩ := (applyTransaction_eq_ok hc).mp happ
  obtain ⟨_, hsp'⟩ := (applyTransaction_eq_ok hc).mp happ'
  rw [hsp.fee_eq, hsp'.fee_eq, inputTotal_congr fun o ho => ?_]
  rw [spentBy_of_not_coinbase hc] at ho
  obtain ⟨x, hx, rfl⟩ := List.mem_map.mp ho
  obtain ⟨j, hj⟩ := List.getElem?_of_mem hx
  obtain ⟨out, hout, -⟩ := hsp.inputOk j x hj
  obtain ⟨out', hout', -⟩ := hsp'.inputOk j x hj
  rw [hout, hout', h.agree hd h' hout hout']

/-- Where a list applies, each of its entries does, to a state of the kind that applying keeps. -/
theorem applyEach_getElem? {I : ConsensusState → Prop} {ts : List ConsensusTransaction} {s s' : ConsensusState}
    {fees : List Int} (hstep : ∀ t ∈ ts, ∀ {c fee c'}, I c → c.applyTransaction t = .ok (fee, c') → I c') (hs : I s)
    (h : applyEach s ts = .ok (fees, s')) {i : Nat} (hi : ts[i]? = some t) :
    ∃ fee c c', fees[i]? = some fee ∧ I c ∧ c.applyTransaction t = .ok (fee, c') := by
  induction ts generalizing s fees i with
  | nil => cases hi
  | cons u ts ih =>
    obtain ⟨fee, rest, s₁, hu, hts, rfl⟩ := applyEach_cons.mp h
    cases i with
    | zero =>
      obtain rfl := Option.some.inj hi
      exact ⟨fee, s, s₁, rfl, hs, hu⟩
    | succ i =>
      exact ih (fun v hv => hstep v (List.mem_cons_of_mem u hv)) (hstep u List.mem_cons_self hs hu) hts hi

theorem length_applyEach {ts : List ConsensusTransaction} {s s' : ConsensusState} {fees : List Int}
    (h : applyEach s ts = .ok (fees, s')) : fees.length = ts.length := by
  induction ts generalizing s fees with
  | nil =>
    rw [applyEach, Except.ok.injEq, Prod.mk.injEq] at h
    rw [← h.1]
    rfl
  | cons t ts ih =>
    obtain ⟨fee, rest, s₁, -, hts, rfl⟩ := applyEach_cons.mp h
    rw [List.length_cons, List.length_cons, ih hts]

/-- There is room for entries that stand. -/
theorem Relays.length_le {p : MempoolPolicy} {s : ConsensusState} {ts : List ConsensusTransaction} (h : Relays p s ts) :
    (ts.length : Int) ≤ p.maxTransactions := by
  obtain ⟨fees, s', h, hpass⟩ := h
  have hlen := length_applyEach h
  rcases Nat.eq_zero_or_pos ts.length with hzero | hpos
  · have := p.maxTransactions_pos
    omega
  · have hi : (ts.zip fees)[ts.length - 1]? = some (ts[ts.length - 1], fees[ts.length - 1]) := by
      rw [List.getElem?_zip_eq_some]
      exact ⟨List.getElem?_eq_getElem _, List.getElem?_eq_getElem _⟩
    obtain ⟨_, -, hlt, -⟩ := validate_eq_ok.mp (hpass _ _ hi)
    omega

end Fees

/-! ## Entries that are left -/

omit [Ed25519] in
/-- What is left of a list has moved to the front. -/
theorem getElem?_of_sublist {α : Type} {l l' : List α} (h : l.Sublist l') {i : Nat} {a : α} (hi : l[i]? = some a) :
    ∃ j, i ≤ j ∧ l'[j]? = some a := by
  obtain ⟨f, hf⟩ := List.sublist_iff_exists_orderEmbedding_getElem?_eq.mp h
  exact ⟨f i, f.strictMono.le_apply, (hf i).symm.trans hi⟩

section Left

variable {P : ConsensusTransaction → Prop} {p : MempoolPolicy} {s s' : ConsensusState} {ms ts : List ConsensusTransaction}
  (hd : TxidsDistinct P) (hP : ∀ t ∈ ms, P t) (hc : ∀ t ∈ ms, t.isCoinbase = false) (hs : MadeBy P s.utxos)
  (h : Relays p s ms)
include hd hP hc hs h

/-- An entry that stands passes at an earlier place too, wherever it applies. -/
theorem Relays.validate {j : Nat} {t : ConsensusTransaction} (hj : ms[j]? = some t) {c c' : ConsensusState} {fee : Int}
    (hcm : MadeBy P c.utxos) (happ : c.applyTransaction t = .ok (fee, c')) {count : Nat} (hle : count ≤ j) :
    p.validate t fee count = .ok () := by
  obtain ⟨fees, s₁, hall, hpass⟩ := h
  have hmem := List.mem_of_getElem? hj
  obtain ⟨fee', d, d', hfee, hdm, happ'⟩ := applyEach_getElem? (I := fun c => MadeBy P c.utxos)
    (fun u hu _ _ _ hm ha => hm.apply (hc u hu) (hP u hu) ha) hs hall hj
  rw [fee_eq_of_madeBy hd hcm hdm (hc t hmem) happ happ']
  exact validate_mono (hpass j (t, fee') (List.getElem?_zip_eq_some.mpr ⟨hj, hfee⟩)) (by omega) (by omega)

/-- Of entries that are left none is refused, so those that still apply stand. -/
theorem Relays.keepValid_sublist (hsub : ts.Sublist ms) (hids : (ts.map (·.txid)).Nodup) (hs' : MadeBy P s'.utxos)
    (hmax : s'.utxos.total ≤ s'.maxMoney) : Relays p s' (Impl.keepValid p s' [] ts) := by
  have hkept : ∀ e ∈ sift p s' 0 ts, e.kept = true := by
    refine sift_kept (I := fun c => MadeBy P c.utxos) (fun t ht _ _ _ hm ha => ?_) (fun i t ht c fee c' count hm ha hle => ?_)
      hs' (Nat.le_refl 0)
    · exact hm.apply (hc t (hsub.subset ht)) (hP t (hsub.subset ht)) ha
    · obtain ⟨j, hij, hj⟩ := getElem?_of_sublist hsub ht
      exact h.validate hd hP hc hs hj hm ha (by omega)
  refine keepValid_relays hmax (fun t ht => hc t (hsub.subset ht)) hids fun e e' hpair hno _ => ?_
  rw [hkept e (hpair.subset (by simp))] at hno
  cases hno

/-- A transaction that applies after entries that are left, and passes there, stands after them. -/
theorem Relays.snoc (hsub : ts.Sublist ms) {t : ConsensusTransaction} {fee : Int} (happ : AppliesAfter s ts t fee)
    (hpass : p.validate t fee ts.length = .ok ()) : Relays p s (ts ++ [t]) := by
  obtain ⟨c, c', hts, ht⟩ := happ
  obtain ⟨fees, hts⟩ := candidateAfter_eq_ok.mp hts
  have hlast : applyEach c [t] = .ok ([fee], c') := applyEach_cons.mpr ⟨fee, [], c', ht, rfl, rfl⟩
  refine ⟨fees ++ [fee], c', applyEach_append.mpr ⟨c, fees, [fee], hts, hlast, rfl⟩, fun i e he => ?_⟩
  have hlen := length_applyEach hts
  rw [List.zip_append hlen.symm] at he
  rcases Nat.lt_or_ge i (ts.zip fees).length with hi | hi
  · rw [List.getElem?_append_left hi] at he
    obtain ⟨hu, hf⟩ := List.getElem?_zip_eq_some.mp he
    obtain ⟨fee', d, d', hfee, hdm, happ⟩ := applyEach_getElem? (I := fun c => MadeBy P c.utxos)
      (fun u hu _ _ _ hm ha => hm.apply (hc u (hsub.subset hu)) (hP u (hsub.subset hu)) ha) hs hts hu
    rw [hf, Option.some.injEq] at hfee
    rw [← hfee] at happ
    obtain ⟨j, hij, hj⟩ := getElem?_of_sublist hsub hu
    exact h.validate hd hP hc hs hj hdm happ hij
  · rw [List.getElem?_append_right hi, List.length_zip, hlen, Nat.min_self] at he
    rw [List.length_zip, hlen, Nat.min_self] at hi
    obtain ⟨hi', rfl⟩ := List.getElem?_eq_some_iff.mp he
    have hz : i = ts.length := by
      simp only [List.zip_cons_cons, List.zip_nil_right, List.length_singleton] at hi'
      omega
    simp only [hz, Nat.sub_self, List.zip_cons_cons, List.getElem_cons_zero]
    exact hpass

end Left

/-! ## Entries that are refused -/

/-- No transaction that the policy refuses after it has applied is linked to one that is kept after it. -/
def RefusedApart (p : MempoolPolicy) (s : ConsensusState) (ts : List ConsensusTransaction) : Prop :=
  ∀ e e' : Sifted, [e, e'].Sublist (sift p s 0 ts) → e.kept = false → e'.kept = true →
    ¬ (SpendsFrom e.transaction e'.transaction ∨ SpendsFrom e'.transaction e.transaction)

omit [Ed25519] in
theorem Unshared.eq_of_mem {ts : List ConsensusTransaction} (h : Unshared ts) {t u : ConsensusTransaction} (ht : t ∈ ts)
    (hu : u ∈ ts) {o : OutPoint} (hot : o ∈ inputOutpoints t) (hou : o ∈ inputOutpoints u) : t = u := by
  by_contra hne
  have : Std.Symm fun t u : ConsensusTransaction => (inputOutpoints t).Disjoint (inputOutpoints u) := ⟨fun _ _ h => h.symm⟩
  exact List.Pairwise.forall h ht hu hne hot hou

/-- What is kept stands exactly when no entry that was refused is linked to one that is kept after it. -/
theorem relays_keepValid_iff {p : MempoolPolicy} {s : ConsensusState} {ts : List ConsensusTransaction}
    (hmax : s.utxos.total ≤ s.maxMoney) (hc : ∀ t ∈ ts, t.isCoinbase = false) (hids : (ts.map (·.txid)).Nodup)
    (hun : Unshared ts) : Relays p s (keepValid p s [] ts) ↔ RefusedApart p s ts := by
  refine ⟨fun h e e' hpair hno hyes hlink => ?_, keepValid_relays hmax hc hids⟩
  rw [keepValid_eq_sift, List.nil_append, List.length_nil] at h
  have hsub : ((sift p s 0 ts).map (·.transaction)).Sublist ts := sift_sublist s 0
  obtain ⟨s₁, happ⟩ : ∃ s', applyEach s ((sift p s 0 ts).map (·.transaction)) = .ok ((sift p s 0 ts).map (·.fee), s') :=
    applyEach_sift s 0
  obtain ⟨fees, s₂, hkept⟩ := h.applies
  generalize sift p s 0 ts = es at hpair hsub happ hkept
  have hsubk : ((es.filter (·.kept)).map (·.transaction)).Sublist ts := (List.filter_sublist.map _).trans hsub
  have hent := entries_of_applyEach hmax (fun t ht => hc t (hsub.subset ht)) (hids.sublist (hsub.map _)) happ
  have hentk := entries_of_applyEach hmax (fun t ht => hc t (hsubk.subset ht)) (hids.sublist (hsubk.map _)) hkept
  have hzip := List.zip_map' (f := fun e : Sifted => e.transaction) (g := fun e : Sifted => e.fee) (l := es)
  have hall : [(e.transaction, e.fee), (e'.transaction, e'.fee)].Sublist
      ((es.map (·.transaction)).zip (es.map (·.fee))) := by
    rw [hzip]
    exact hpair.map fun e : Sifted => (e.transaction, e.fee)
  have hmem : ∀ {x}, x ∈ [(e.transaction, e.fee), (e'.transaction, e'.fee)] → x ∈ _ := fun hx => hall.subset hx
  -- The entry that was refused is not among those that are kept, the other is.
  have hout : e.transaction ∉ (es.filter (·.kept)).map (·.transaction) := fun hin => by
    obtain ⟨k, hk, he⟩ := List.mem_map.mp hin
    obtain ⟨hk, hkkept⟩ := List.mem_filter.mp hk
    have hn : (es.map (·.transaction)).Nodup := (List.Nodup.of_map _ hids).sublist hsub
    rw [List.inj_on_of_nodup_map hn hk (hpair.subset (by simp)) he, hno] at hkkept
    cases hkkept
  obtain ⟨x, hx, hxe⟩ : ∃ x ∈ ((es.filter (·.kept)).map (·.transaction)).zip fees, x.1 = e'.transaction := by
    have hin : e'.transaction ∈ (((es.filter (·.kept)).map (·.transaction)).zip fees).map Prod.fst := by
      rw [hentk.fst]
      exact List.mem_map_of_mem (List.mem_filter.mpr ⟨hpair.subset (by simp), hyes⟩)
    exact List.mem_map.mp hin
  have hce := hent.notCoinbase _ (hmem (List.mem_cons_self ..))
  have hce' := hent.notCoinbase _ (hmem (List.mem_cons_of_mem _ (List.mem_singleton_self _)))
  have hte := hent.txid _ (hmem (List.mem_cons_self ..))
  have hte' := hent.txid _ (hmem (List.mem_cons_of_mem _ (List.mem_singleton_self _)))
  have hspent : ∀ {o : OutPoint} {y : ConsensusTransaction × Int}, y ∈ ((es.filter (·.kept)).map (·.transaction)).zip fees →
      o ∈ spentBy y.1 → o ∉ spentBy e.transaction := fun {o y} hy hoy hoe => by
    rw [spentBy_of_not_coinbase (hentk.notCoinbase y hy)] at hoy
    rw [spentBy_of_not_coinbase hce] at hoe
    have hyk := (List.of_mem_zip (a := y.1) (b := y.2) hy).1
    exact hout (hun.eq_of_mem (hsubk.subset hyk) (hsub.subset (List.of_mem_zip (hmem (List.mem_cons_self ..))).1) hoy hoe ▸ hyk)
  rcases hlink with hs | hs
  · rw [spendsFrom_iff hce hte'] at hs
    obtain ⟨o, ho, hcreated⟩ := hs
    have hstart : o ∈ s.utxos := hent.run.mem_of_consumed_before hent.created hall ho hcreated
    -- Nothing that is kept spends the output, so it cannot be created again.
    have hnot := hentk.run.not_created_of_not_consumed hstart fun hin => by
      obtain ⟨y, hy, hoy⟩ := List.mem_flatMap.mp hin
      exact hspent hy hoy ho
    exact hnot (List.mem_flatMap.mpr ⟨x, hx, by rw [← hxe] at hcreated; exact hcreated⟩)
  · rw [spendsFrom_iff hce' hte] at hs
    obtain ⟨o, ho, hcreated⟩ := hs
    rcases hentk.run.mem_or_created hx (k := o) (by rw [← hxe] at ho; exact ho) with hstart | ⟨y, hy, hoy⟩
    · exact hent.run.not_created_before (hent.consumed (hun.sublist hsub)) hstart hall ho hcreated
    · -- Only the refused entry has this txid.
      have hid : txidOf y.1 = txidOf e.transaction :=
        (txid_of_mem_createdFrom hoy).symm.trans (txid_of_mem_createdFrom hcreated)
      have hyk := (List.of_mem_zip (a := y.1) (b := y.2) hy).1
      have het := (List.of_mem_zip (hmem (List.mem_cons_self ..))).1
      have hsame : y.1 = e.transaction := by
        refine List.inj_on_of_nodup_map (hids.sublist (hsub.map _)) ((List.filter_sublist.map _).subset hyk) het ?_
        rw [hentk.txid y hy, hte, hid]
      exact hout (hsame ▸ hyk)

/-! ## Nodes -/

omit [Ed25519] in
/-- The transaction is in a stored block. -/
def OnFile (store : ForkStore) (t : ConsensusTransaction) : Prop :=
  ∃ r ∈ store.blocks, ∃ b, decodeConsensusBlock r.data = .ok b ∧ t ∈ b.transactions

omit [Ed25519] in
/-- The transaction is in a stored block or among `ts`. -/
def Known (store : ForkStore) (ts : List ConsensusTransaction) (t : ConsensusTransaction) : Prop :=
  OnFile store t ∨ t ∈ ts

omit [Ed25519] in
theorem Known.mono {store store' : ForkStore} {ts us : List ConsensusTransaction} (hstore : store.blocks ⊆ store'.blocks)
    (hts : ts ⊆ us) : ∀ t, Known store ts t → Known store' us t := fun _ h =>
  h.imp (fun ⟨r, hr, hb⟩ => ⟨r, hstore hr, hb⟩) fun ht => hts ht

/-- Every active output was made by a transaction of a stored block. -/
theorem NodeOk.madeBy {n : ConsensusNode} (h : NodeOk n) : MadeBy (OnFile n.disk.store) n.state.utxos := by
  intro o out ho
  obtain ⟨a, ha, hs⟩ := h.active
  rw [hs.lookup] at ho
  rcases h.store.activeChain_eq_ok ha with ⟨-, -, hinit⟩ | ⟨r, chain, -, hb, hbuilt, -⟩
  · rw [(init_eq_ok hinit).1] at ho
    cases ho
  obtain ⟨s₀, fs, hinit, hr⟩ := rebuildStateFromBlocks_eq_ok.mp (built_iff.mpr ⟨_, hbuilt⟩)
  rcases hr.run.gained ho with hs₀ | ⟨t, ht, _, -, hcreated⟩
  · rw [(init_eq_ok hinit).1] at hs₀
    cases hs₀
  · have ht := (flatMap_appliedOrder_perm _).mem_iff.mp ht
    obtain ⟨b, hb', htb⟩ := List.mem_flatMap.mp ht
    obtain ⟨stored, hstored, rfl⟩ := List.mem_map.mp hb'
    obtain ⟨q, hq, hrow, -⟩ := hb.stored h.store.nodup stored hstored
    have hid : o.txid = txidOf t := txid_of_mem_createdFrom (List.mem_map_of_mem (f := Prod.fst) hcreated)
    exact ⟨t, ⟨q, hq, stored.block, hrow.data, htb⟩, hid ▸ hbuilt.txids t ht, hid ▸ hcreated⟩

/-- What holds of the mempool under a policy, whatever the calls were. -/
structure PoolInvariant (p : MempoolPolicy) (n : ConsensusNode) : Prop where
  policy : n.mempoolPolicy = p
  relays : Relays p n.state n.mempool
  prune : (ConsensusNode.pruneMempool.call n).1 = .ok 0
  txids : (n.mempool.map (·.txid)).Nodup
  inputs : Unshared n.mempool
  room : n.mempool.length ≤ p.maxTransactions
  store : ∃ ts, n.disk.mempoolStore.transactions = .ok ts ∧ ts.Perm (n.mempool.map storedTransaction)

/-- The calls that leave the policy as it is and return where they have to; distinct transactions that they meet have
distinct txids. -/
def Permitted (n : ConsensusNode) : Call → Prop
  | .submitTransaction t => TxidsDistinct (Known n.disk.store (t :: n.mempool))
  | .pruneMempool | .clearMempool | .reloadMempool => True
  | .importBlock b => (World.up n).returns (.importBlock b) = true ∧
      TxidsDistinct (Known ((ConsensusNode.importBlock b).call n).2.disk.store n.mempool)
  | .mineBlock minerAddress timestamp fuel => (World.up n).returns (.mineBlock minerAddress timestamp fuel) = true ∧
      TxidsDistinct (Known ((ConsensusNode.mineBlock minerAddress timestamp fuel).call n).2.disk.store n.mempool)
  | .create .. | .openNode _ | .close | .setPolicy _ => False

/-- A reload meets no transaction that is refused and linked to one it keeps. -/
def ReloadsApart (n : ConsensusNode) : Call → Prop
  | .reloadMempool => ∀ ts, n.disk.mempoolStore.transactions = .ok ts → RefusedApart n.mempoolPolicy n.state ts
  | _ => True

/-- Every call of a run is made of a node and meets a condition there. -/
def EachCall (Q : ConsensusNode → Call → Prop) : World → List Call → Prop
  | _, [] => True
  | .down _, _ :: _ => False
  | .up n, call :: calls => Q n call ∧ EachCall Q ((World.up n).step call) calls

/-- What a call keeps: the policy, and a mempool that stands under it and shares no input. -/
structure Standing (p : MempoolPolicy) (n : ConsensusNode) : Prop where
  policy : n.mempoolPolicy = p
  relays : Relays p n.state n.mempool
  inputs : Unshared n.mempool

section Standing

variable {p : MempoolPolicy} {n n' : ConsensusNode}

theorem Standing.imported (h : Standing p n) (hok : NodeOk n) (hok' : NodeOk n') (hsync : Synced n) {b : ConsensusBlock}
    {stored : StoredConsensusBlock} (hcall : (ConsensusNode.importBlock b).call n = (.ok stored, n'))
    (hd : TxidsDistinct (Known n'.disk.store n.mempool)) : Standing p n' := by
  obtain ⟨hash, store, a, hact⟩ := importBlock_returns hok hcall
  have hreturned : Returned (.up n) (.importBlock b) (.up n') := .importBlock hcall
  have hun : Unshared n'.mempool := hreturned.unshared hok hsync h.inputs
  have hpolicy : n'.mempoolPolicy = n.mempoolPolicy := by rw [hact.node]
  have hstore : n'.disk.store = store := by rw [hact.node]
  have hsub : (n.mempool.filter fun t => txidOf t ∉ b.transactions.map txidOf).Sublist n.mempool := List.filter_sublist
  have hblocks : n.disk.store.blocks ⊆ n'.disk.store.blocks := by
    rw [hstore]
    exact hact.stores.subset
  have hmempool : n'.mempool = keepValid p n'.state [] (n.mempool.filter fun t => txidOf t ∉ b.transactions.map txidOf) := by
    rw [hact.node, ← h.policy]
    rfl
  refine ⟨hpolicy.trans h.policy, ?_, hun⟩
  rw [hmempool]
  refine h.relays.keepValid_sublist hd (fun t ht => .inr ht) (fun t ht => (hsync.pending t ht).notCoinbase)
    (hok.madeBy.mono fun t ht => Known.mono hblocks (List.Subset.refl _) t (.inl ht)) hsub
    (hok.mempool.sublist hsub).txids_nodup (hok'.madeBy.mono fun t ht => .inl ht) hok'.total.2

theorem Standing.submitted (h : Standing p n) (hok : NodeOk n) (hsync : Synced n) {t : ConsensusTransaction}
    {remaining : List ConsensusTransaction} {fee : Int} (hadm : Admitted n t remaining fee)
    (hd : TxidsDistinct (Known n.disk.store (t :: n.mempool))) : Standing p (withMempool n (remaining ++ [t])) := by
  refine ⟨h.policy, ?_, Returned.unshared (.submitTransaction hadm) hok hsync h.inputs⟩
  have hpass := hadm.policy
  rw [h.policy] at hpass
  exact h.relays.snoc hd (fun u hu => .inr (List.mem_cons_of_mem t hu)) (fun u hu => (hsync.pending u hu).notCoinbase)
    (hok.madeBy.mono fun u hu => .inl hu) hadm.sublist hadm.applies hpass

/-- What is loaded stands exactly when what is refused is not linked to what is kept. -/
theorem loaded_relays_iff (hok : NodeOk n) (hsync : Synced n) (hun : Unshared n.mempool) {ts : List ConsensusTransaction}
    (hts : DistinctTxids ts) (hpending : ∀ t ∈ ts, IsPending t) (hrows : n.disk.mempoolStore = ⟨ts.map rowOf⟩) :
    Relays n.mempoolPolicy n.state (loaded n.mempoolPolicy n.state ts) ↔ ReloadsApart n .reloadMempool := by
  have hmem : ∀ t ∈ byTxid ts, t ∈ ts := fun t ht => (byTxid_perm ts).subset ht
  have hread : n.disk.mempoolStore.transactions = .ok ((byTxid ts).map storedTransaction) := by
    rw [hrows]
    exact transactions_rowOf hts
  have hdist : DistinctTxids ((byTxid ts).map storedTransaction) :=
    storedTransaction_distinct ⟨fun t ht => hts.txid t (hmem t ht), ((byTxid_perm ts).map txidOf).nodup_iff.mpr hts.nodup⟩
  have hstored : Unshared ((byTxid ts).map storedTransaction) :=
    (unshared_stored fun t ht => hpending t (hmem t ht)).mpr
      ((hsync.unshared hok hun hts hpending hrows).perm (byTxid_perm ts).symm)
  have hiff : Relays n.mempoolPolicy n.state (loaded n.mempoolPolicy n.state ts) ↔
      RefusedApart n.mempoolPolicy n.state ((byTxid ts).map storedTransaction) :=
    relays_keepValid_iff hok.total.2
      (List.forall_mem_map.mpr fun t ht => (hpending t (hmem t ht)).stored.notCoinbase) hdist.txids_nodup hstored
  rw [hiff]
  constructor
  · intro h us hus
    rw [hread, Except.ok.injEq] at hus
    exact hus ▸ h
  · exact fun h => h _ hread

theorem Standing.step (h : Standing p n) (hok : NodeOk n) (hsync : Synced n) {call : Call} (hper : Permitted n call)
    (hapart : ReloadsApart n call) : ∃ n', (World.up n).step call = .up n' ∧ Standing p n' := by
  have hnext : ∀ {n'}, (World.up n).step call = .up n' → NodeOk n' := fun he => by
    have hw := WorldOk.step (w := .up n) hok call
    rwa [he] at hw
  cases call with
  | create => exact hper.elim
  | openNode => exact hper.elim
  | close => exact hper.elim
  | setPolicy => exact hper.elim
  | importBlock b =>
    obtain ⟨stored, n', hcall⟩ := Method.exists_call_of_isOk hper.1
    have hstep : (World.up n).step (.importBlock b) = .up n' := by rw [World.step, hcall]
    have hd := hper.2
    rw [hcall] at hd
    exact ⟨n', hstep, h.imported hok (hnext hstep) hsync hcall hd⟩
  | mineBlock minerAddress timestamp fuel =>
    obtain ⟨stored, n', hcall⟩ := Method.exists_call_of_isOk hper.1
    have hstep : (World.up n).step (.mineBlock minerAddress timestamp fuel) = .up n' := by rw [World.step, hcall]
    have hd := hper.2
    rw [hcall] at hd
    rcases mineBlock_cases n minerAddress timestamp fuel with ⟨e, he⟩ | ⟨b, -, he⟩
    · rw [he] at hcall
      cases hcall
    · exact ⟨n', hstep, h.imported hok (hnext hstep) hsync (he.symm.trans hcall) hd⟩
  | submitTransaction t =>
    refine ⟨_, rfl, ?_⟩
    rcases submitTransaction_call hok.mempool t with ⟨e, he⟩ | ⟨txid, remaining, fee, hadm, he⟩
    · rw [he]
      exact h
    · rw [he]
      exact h.submitted hok hsync hadm hper
  | pruneMempool =>
    refine ⟨_, rfl, ?_⟩
    rw [pruneMempool_call hok.mempool, h.policy, h.relays.keepValid]
    exact ⟨h.policy, h.relays, h.inputs⟩
  | clearMempool =>
    refine ⟨_, rfl, ?_⟩
    rw [clearMempool_call]
    exact ⟨h.policy, relays_nil _ _, .nil⟩
  | reloadMempool =>
    obtain ⟨ts, hts, hpending, hrows⟩ := hsync.pool
    obtain ⟨us, hcall, -⟩ := reloadMempool_call hts hrows
    refine ⟨_, rfl, ?_⟩
    rw [hcall]
    refine ⟨h.policy, ?_, Returned.unshared (.reloadMempool hts hpending hrows) hok hsync h.inputs⟩
    rw [← h.policy]
    exact (loaded_relays_iff hok hsync h.inputs hts hpending hrows).mpr hapart

theorem Standing.poolInvariant (h : Standing p n) (hok : NodeOk n) (hsync : Synced n) : PoolInvariant p n := by
  refine ⟨h.policy, h.relays, ?_, hok.mempool.txids_nodup, h.inputs, h.relays.length_le, ?_⟩
  · rw [pruneMempool_call hok.mempool, h.policy, h.relays.keepValid, Nat.sub_self]
  · obtain ⟨ts, hts, -, hrows⟩ := hsync.pool
    have hperm := hsync.rows
    rw [hrows] at hperm ⊢
    exact ⟨_, transactions_rowOf hts, ((byTxid_perm ts).map _).trans (storedTransaction_of_rowOf hts hok.mempool hperm)⟩

/-- The condition is exact: a reload that does not meet it breaks the mempool. -/
theorem Standing.reload_iff (h : Standing p n) (hok : NodeOk n) (hsync : Synced n)
    (hstep : (World.up n).step .reloadMempool = .up n') : PoolInvariant p n' ↔ ReloadsApart n .reloadMempool := by
  constructor
  · intro hinv
    obtain ⟨ts, hts, hpending, hrows⟩ := hsync.pool
    obtain ⟨us, hcall, -⟩ := reloadMempool_call hts hrows
    rw [World.step, hcall, World.up.injEq] at hstep
    have hrelays := hinv.relays
    rw [← hstep, ← h.policy] at hrelays
    exact (loaded_relays_iff hok hsync h.inputs hts hpending hrows).mp hrelays
  · intro hapart
    have hper : Permitted n .reloadMempool := trivial
    obtain ⟨n'', hstep', h'⟩ := h.step hok hsync hper hapart
    have hok' := WorldOk.step (w := .up n) hok .reloadMempool
    have hsync' := WorldSynced.step (w := .up n) hok hsync .reloadMempool
    rw [hstep', World.up.injEq] at hstep
    rw [hstep'] at hok' hsync'
    exact hstep ▸ h'.poolInvariant hok' hsync'

end Standing

omit [Ed25519]

theorem transactions_of_singleton {store : ForkStore} {r : BlockRow} {b : ConsensusBlock} (hr : store.blocks = [r])
    (hb : decodeConsensusBlock r.data = .ok b) {ts : List ConsensusTransaction} {t : ConsensusTransaction}
    (h : Known store ts t) : t ∈ b.transactions ++ ts := by
  rcases h with ⟨q, hq, b', hb', ht⟩ | ht
  · rw [hr] at hq
    obtain rfl := List.mem_singleton.mp hq
    rw [hb, Except.ok.injEq] at hb'
    exact List.mem_append_left _ (hb' ▸ ht)
  · exact List.mem_append_right _ ht

/-- A policy whose rate grows by four with every entry. -/
def steppedPolicy : MempoolPolicy :=
  { MempoolPolicy.standard with dynamicFeeRateStep := 4, dynamicFeeRateStep_nonneg := by decide }

def pairTxid : Str :=
  hexEncode
    [230, 35, 231, 66, 228, 216, 140, 17, 1, 239, 90, 118, 95, 6, 62, 156, 58, 12, 108, 117, 185, 9, 183,
     244, 58, 165, 158, 107, 126, 244, 246, 132]

/-- A genesis block with two outputs for Alice. -/
def pairBlock : ConsensusBlock where
  height := 0
  previousHash := zeroHash
  transactions := [⟨[⟨⟨zeroHash, -1⟩, none, none⟩], [⟨10, aliceAddress⟩, ⟨10, aliceAddress⟩], 1⟩]
  difficulty := 0
  timestamp := 0
  transactionRoot := pairTxid

def pairHash : Str :=
  hexEncode
    [120, 31, 156, 33, 162, 24, 171, 72, 120, 66, 14, 146, 249, 8, 164, 10, 239, 140, 165, 39, 134, 122,
     88, 188, 158, 205, 41, 188, 192, 148, 237, 145]

def pairRow : BlockRow where
  hash := pairHash
  height := 0
  previousHash := zeroHash
  difficulty := 0
  cumulativeWork := 1
  data := match encodeConsensusBlock pairBlock with
    | .ok payload => payload
    | .error _ => []

/-- A node that was created with two allocations and has the policy. -/
def pairNode : ConsensusNode where
  disk :=
    { store := ⟨[pairRow], some ⟨0, 50, 1000⟩⟩
      mempoolStore := ⟨[]⟩
      utxoIndex :=
        { utxos := [⟨⟨pairTxid, 0⟩, ⟨10, aliceAddress⟩⟩, ⟨⟨pairTxid, 1⟩, ⟨10, aliceAddress⟩⟩]
          utxoSnapshots := [⟨pairHash, ⟨⟨pairTxid, 0⟩, ⟨10, aliceAddress⟩⟩⟩, ⟨pairHash, ⟨⟨pairTxid, 1⟩, ⟨10, aliceAddress⟩⟩⟩]
          spentOutpoints := []
          activeTip := some pairHash }
      invalidBlocks := ⟨[]⟩ }
  state := { afterGenesis with
    utxos := ((∅ : UTXOSet).insert ⟨pairTxid, 0⟩ ⟨10, aliceAddress⟩).insert ⟨pairTxid, 1⟩ ⟨10, aliceAddress⟩ }
  difficulty := 0
  mempool := []
  mempoolPolicy := steppedPolicy
  forkChoice := ⟨50, 1000⟩
  lastReorg := none

def lowSignature : Str :=
  ['J', 'R', 'e', 'X', 'F', 'W', 'y', 'm', '5', 'w', '6', 'L', 'q', 'u', 'o', 'c', 'v', 'm', 'j', '0',
   'e', 'E', 'q', 'K', 't', 'l', 'A', 'g', 'l', 'p', 'X', '5', '4', 'P', 'O', '6', 'Q', 'q', 'f', 'I',
   'q', '4', 'L', 'D', 'i', 'a', '1', 'L', 'p', 'b', 'Q', 'o', '2', 'u', 'P', '9', 'e', 'o', 'Q', 'z',
   'U', 'h', 'o', 'D', 'F', 'r', 's', 'w', '9', 'v', 'l', 'N', 'N', 'j', '1', '7', 'V', 'O', 'm', 'm',
   'm', 'N', '-', 'a', 'D', 'A']

/-- Alice spends the first output and leaves a fee of 1, enough for the first entry. -/
def lowPayment : ConsensusTransaction where
  inputs := [⟨⟨pairTxid, 0⟩, some lowSignature, some aliceKey⟩]
  outputs := [⟨9, aliceAddress⟩]

def lowTxid : Str :=
  hexEncode
    [1, 22, 6, 90, 125, 6, 161, 71, 204, 48, 190, 109, 160, 246, 195, 249, 74, 75, 54, 39, 101, 226, 167,
     175, 155, 170, 21, 56, 142, 97, 33, 129]

def childSignature : Str :=
  ['u', 'V', 'o', '3', 'P', '_', 'z', 'u', 'C', '3', 'G', 'A', 'r', 'g', 'u', 'W', 'D', 'M', 'l', 'E',
   'G', 'b', 'D', '0', 'q', 'D', 'M', 'N', 'd', 'N', 'J', '-', 't', 'W', 'w', 'J', 'I', 'Q', 'L', 'Q',
   'C', '0', 'o', '8', '-', 'B', 'y', '-', 'Z', 'j', '5', 'q', 'T', 'u', 'm', 'O', 'v', 'c', 'I', '-',
   'f', 'T', 'a', 'p', 'w', 'A', 'T', 't', 'h', 'E', 'l', 's', 'd', '4', 'o', 'B', 'J', 'w', 'a', 'J',
   't', 'a', '8', '_', 'C', 'A']

/-- Alice spends the output of that payment and leaves a fee of 2, enough for the second entry. -/
def childPayment : ConsensusTransaction where
  inputs := [⟨⟨lowTxid, 0⟩, some childSignature, some aliceKey⟩]
  outputs := [⟨7, aliceAddress⟩]

def highSignature : Str :=
  ['7', 'g', 'o', 'F', 'X', 'Z', 'r', 't', 'P', 'L', 'h', 'J', 'D', '1', 'K', 'U', 'I', 'H', '_', '_',
   't', 'q', 'n', 'F', 'e', 'G', 't', '5', 'L', 'c', 'e', 'b', '-', 'a', '4', 'r', 'E', '8', 'c', 'b',
   'b', 'G', '6', 'a', 'V', 'T', 'o', '0', 'Q', '_', 'B', '5', 'l', 'F', 'S', 'l', 'L', 'k', '6', '1',
   'q', 'j', 'T', 'P', 'L', 'h', 'b', 'h', 'm', 'w', '0', 'n', 'c', 'g', 'Z', 'T', 'f', 'Z', 't', '4',
   'A', 'S', 'F', 'G', 'A', 'w']

/-- Alice spends the second output and leaves a fee of 3, enough for the third entry. -/
def highPayment : ConsensusTransaction where
  inputs := [⟨⟨pairTxid, 1⟩, some highSignature, some aliceKey⟩]
  outputs := [⟨7, aliceAddress⟩]

end BCC.Proof
