import BlockchainCoin.Proof.Activate

/-!
# Reorganisations

`_detect_reorg` compares two tips and one link between them. Importing a block can only
make this block the tip (`first_concat`), and a block has more work than the blocks
before it (`Branch.of_prefix`), so that is enough to tell whether the active chain was
extended (`detectReorg_iff`).
-/

namespace BCC.Proof

open BCC.Impl

/-! ## The best row -/

theorem better_total (a b : BlockRow) : a.better b ∨ b.better a := by
  simp only [BlockRow.better]
  rcases lt_trichotomy a.cumulativeWork b.cumulativeWork with h | h | h
  · exact .inr (.inl h)
  · rcases lt_trichotomy a.height b.height with h' | h' | h'
    · exact .inr (.inr ⟨h.symm, .inl h'⟩)
    · rcases le_total a.hash b.hash with hh | hh
      · exact .inl (.inr ⟨h, .inr ⟨h', hh⟩⟩)
      · exact .inr (.inr ⟨h.symm, .inr ⟨h'.symm, hh⟩⟩)
    · exact .inl (.inr ⟨h, .inl h'⟩)
  · exact .inl (.inl h)

theorem better_trans {a b c : BlockRow} (hab : a.better b) (hbc : b.better c) : a.better c := by
  simp only [BlockRow.better] at *
  rcases hab with h | ⟨h, h' | ⟨h', hh⟩⟩ <;> rcases hbc with k | ⟨k, k' | ⟨k', kk⟩⟩
  all_goals first
    | exact .inl (by omega)
    | exact .inr ⟨by omega, .inl (by omega)⟩
    | exact .inr ⟨by omega, .inr ⟨by omega, hh.trans kk⟩⟩

theorem hash_eq_of_better {a b : BlockRow} (hab : a.better b) (hba : b.better a) : a.hash = b.hash := by
  simp only [BlockRow.better] at *
  rcases hab with h | ⟨h, h' | ⟨h', hh⟩⟩ <;> rcases hba with k | ⟨k, k' | ⟨k', kk⟩⟩
  all_goals first
    | exact le_antisymm hh kk
    | omega

theorem work_le_of_first {rows : List BlockRow} {r q : BlockRow} (h : Table.first BlockRow.better rows = some r)
    (hq : q ∈ rows) : q.cumulativeWork ≤ r.cumulativeWork := by
  rcases Table.first_le better_total better_trans h q hq with hw | ⟨hw, -⟩
  · exact hw.le
  · exact hw.ge

/-- A new row is the best one, or the best one stays. -/
theorem first_concat {rows : List BlockRow} {row r r' : BlockRow} (hn : (rows.map (·.hash)).Nodup)
    (h : Table.first BlockRow.better rows = some r) (h' : Table.first BlockRow.better (rows ++ [row]) = some r') :
    r' = r ∨ r' = row := by
  rcases List.mem_append.mp (Table.first_mem h') with hmem | hmem
  · refine .inl (List.inj_on_of_nodup_map hn hmem (Table.first_mem h) (hash_eq_of_better ?_ ?_))
    · exact Table.first_le better_total better_trans h' r (List.mem_append_left _ (Table.first_mem h))
    · exact Table.first_le better_total better_trans h r' hmem
  · exact .inr (List.mem_singleton.mp hmem)

/-! ## Prefixes of a branch -/

theorem workFor_pos (b : ConsensusBlock) : 0 < workFor b := by
  unfold workFor
  positivity

namespace Branch

variable {rows : List BlockRow} {r q : BlockRow} {chain pre : List StoredConsensusBlock}

/-- The beginning of a branch is the branch of a row with less work. -/
theorem of_prefix (h : Branch rows r chain) (hne : pre ≠ []) (hpre : pre <+: chain) :
    ∃ q, Branch rows q pre ∧ (q.cumulativeWork < r.cumulativeWork ∨ pre = chain) := by
  induction h with
  | root hr hb h₀ hw =>
    rw [← List.nil_append [_], List.prefix_concat_iff, List.prefix_nil] at hpre
    obtain rfl := hpre.resolve_right hne
    exact ⟨_, .root hr hb h₀ hw, .inr rfl⟩
  | @child r p b chain hr hb hbp hp hh hw ih =>
    rcases List.prefix_concat_iff.mp hpre with rfl | hpre
    · exact ⟨r, .child hr hb hbp hp hh hw, .inr rfl⟩
    · have hpos := workFor_pos b
      obtain ⟨q, hq, hlt | rfl⟩ := ih hpre
      · exact ⟨q, hq, .inl (by omega)⟩
      · exact ⟨p, hbp, .inl (by omega)⟩

/-- Rows whose branches end in the same block are the same row. -/
theorem eq_of_last {b : ConsensusBlock} (hn : (rows.map (·.hash)).Nodup) (h : Branch rows r chain) (hq : Branch rows q pre)
    (hr : (chain.map (·.block)).getLast? = some b) (hq' : (pre.map (·.block)).getLast? = some b) : q = r := by
  obtain ⟨br, hbr, -, hlast⟩ := h.last
  obtain ⟨bq, hbq, -, hlast'⟩ := hq.last
  rw [hr, Option.some.injEq] at hlast
  rw [hq', Option.some.injEq] at hlast'
  subst hlast hlast'
  have hhash := hbq.hash
  rw [hbr.hash, Except.ok.injEq] at hhash
  exact List.inj_on_of_nodup_map hn hq.mem h.mem hhash.symm

end Branch

/-! ## The detector -/

/-- The event names the tips of two chains. -/
def Names (event : ReorgEvent) (old new : ActiveChain) : Prop :=
  ∃ oldTip newTip, old.tip = some oldTip ∧ new.tip = some newTip ∧ oldTip.hash = .ok event.oldTip ∧
    newTip.hash = .ok event.newTip ∧ event.oldHeight = oldTip.height ∧ event.newHeight = newTip.height

theorem detectReorg_eq_ok {old new : ConsensusBlock} {oldHash newHash : Str} (hold : old.hash = .ok oldHash)
    (hnew : new.hash = .ok newHash) {reorg : Option ReorgEvent}
    (h : ConsensusNode.detectReorg (some old) (some new) = .ok reorg) :
    reorg = if oldHash = newHash ∨ new.previousHash = oldHash ∧ new.height = old.height + 1 then none
      else some ⟨oldHash, newHash, old.height, new.height⟩ := by
  simp only [ConsensusNode.detectReorg, hold, hnew, ok_bind] at h
  split at h
  · rename_i he
    rw [if_pos (.inl he)]
    exact (pure_eq_ok.mp h).symm
  · rename_i he
    split at h
    · rename_i hchild
      rw [if_pos (.inr hchild)]
      exact (pure_eq_ok.mp h).symm
    · rename_i hchild
      rw [if_neg (not_or.mpr ⟨he, hchild⟩)]
      exact (pure_eq_ok.mp h).symm

/-- When no row but the new tip has more work than the old tip, the old branch is a prefix of the new one exactly when
the tip stayed or is a child of the old one. -/
theorem prefix_iff {store : ForkStore} (hn : (store.blocks.map (·.hash)).Nodup) {r r' : BlockRow}
    {chain chain' : List StoredConsensusBlock} (hb : Branch store.blocks r chain) (hb' : Branch store.blocks r' chain')
    (hbest : ∀ q ∈ store.blocks, q = r' ∨ q.cumulativeWork ≤ r.cumulativeWork) {b b' : ConsensusBlock}
    (hlast : (chain.map (·.block)).getLast? = some b) (hlast' : (chain'.map (·.block)).getLast? = some b') :
    chain.map (·.block) <+: chain'.map (·.block) ↔
      r.hash = r'.hash ∨ b'.previousHash = r.hash ∧ b'.height = b.height + 1 := by
  have hheight : b.height = r.height := by
    obtain ⟨br, hbr, -, hlast₁⟩ := hb.last
    rw [hlast, Option.some.injEq] at hlast₁
    rw [hlast₁, hbr.height]
  constructor
  · intro hstem
    obtain ⟨pre, hpre, hmap⟩ : ∃ pre, pre <+: chain' ∧ pre.map (·.block) = chain.map (·.block) := by
      rw [List.prefix_iff_eq_take, ← List.map_take] at hstem
      exact ⟨_, List.take_prefix _ _, hstem.symm⟩
    have hne : pre ≠ [] := fun he => hb.ne_nil (List.map_eq_nil_iff.mp (by rw [← hmap, he]; rfl))
    have hend : ∀ {q : BlockRow}, Branch store.blocks q pre → q = r := fun hq =>
      Branch.eq_of_last hn hb hq hlast (hmap ▸ hlast)
    have hsame : pre = chain' → r.hash = r'.hash := fun he => by
      rw [hend (show Branch store.blocks r' pre from he ▸ hb')]
    cases hb' with
    | root hr hbr h₀ hw =>
      rw [← List.nil_append [_], List.prefix_concat_iff, List.prefix_nil] at hpre
      exact .inl (hsame (hpre.resolve_right hne))
    | @child _ p br chain'' hr hbr hbp hp hh hw =>
      rcases List.prefix_concat_iff.mp hpre with he | hpre
      · exact .inl (hsame he)
      · -- The parent of the new tip is an old row, so it has no more work than the old tip.
        obtain ⟨q, hq, hlt⟩ := hbp.of_prefix hne hpre
        obtain rfl := hend hq
        have hpos := workFor_pos br
        have hold : p.cumulativeWork ≤ q.cumulativeWork := (hbest p hbp.mem).resolve_left fun he => by rw [← he] at hw; omega
        obtain rfl := hlt.resolve_left (by omega)
        obtain rfl := hend hbp
        obtain rfl : br = b' := by simpa using hlast'
        exact .inr ⟨hp.symm, by rw [hh, hheight]⟩
  · rintro (he | ⟨hprev, hchild⟩)
    · obtain rfl := List.inj_on_of_nodup_map hn hb.mem hb'.mem he
      rw [hb.unique hn hb']
    · cases hb' with
      | @root _ br hr hbr h₀ hw =>
        obtain rfl : br = b' := by simpa using hlast'
        have hpos := hb.height_nonneg
        omega
      | @child _ p br chain'' hr hbr hbp hp hh hw =>
        obtain rfl : br = b' := by simpa using hlast'
        obtain rfl := List.inj_on_of_nodup_map hn hb.mem hbp.mem (hprev.symm.trans hp.symm)
        rw [hb.unique hn hbp, List.map_append]
        exact List.prefix_append _ _

/-! ## Imports -/

section Import

variable [Ed25519]

/-- The active chain of a store that has blocks, by its best row. -/
theorem StoreOk.exists_active {f : ForkChoice} {store : ForkStore} (h : StoreOk f store) (hne : store.blocks ≠ []) :
    ∃ r chain a b, Table.first BlockRow.better store.blocks = some r ∧ Branch store.blocks r chain ∧ RowOf b r ∧
      f.activeChain store = .ok a ∧ a.blocks = chain.map (·.block) ∧ a.tip = some b ∧
      store.bestTip = .ok (some ⟨b, r.cumulativeWork⟩) := by
  cases hf : Table.first BlockRow.better store.blocks with
  | none => exact absurd (Table.first_eq_none.mp hf) hne
  | some r =>
    obtain ⟨chain, s, hb, -, ha⟩ := h.activeChain hf
    obtain ⟨b, hrow, hbest⟩ := h.bestTip hf
    obtain ⟨b', hrow', -, hlast⟩ := hb.last
    have he := hrow.data
    rw [hrow'.data, Except.ok.injEq] at he
    subst he
    exact ⟨r, chain, _, b', rfl, hb, hrow', ha, rfl, hlast, hbest⟩

/-- After an import that returns, `last_reorg` is `None` exactly when the active chain before it is a prefix of the one
after it; otherwise it names both tips. -/
theorem lastReorg_iff (calls : List Call) (n n' : ConsensusNode) (hn : World.after calls = .up n)
    (hne : n.disk.store.blocks ≠ []) (b : ConsensusBlock) (stored : StoredConsensusBlock)
    (hcall : (ConsensusNode.importBlock b).call n = (.ok stored, n')) :
    ∃ old new, n.forkChoice.activeChain n.disk.store = .ok old ∧ n'.forkChoice.activeChain n'.disk.store = .ok new ∧
      (n'.lastReorg = none ↔ old.blocks <+: new.blocks) ∧ ∀ event, n'.lastReorg = some event → Names event old new := by
  have h := nodeOk_after hn
  have hi := importBlock_cases h b
  rw [hcall] at hi
  generalize hr : (Except.ok stored : Except PyError StoredConsensusBlock) = result at hi
  cases hi with
  | refused => cases hr
  | rejected => cases hr
  | @stored hash oldTip stored' n₁ n₂ r' hhash hcache htip hst hact =>
    cases r' with
    | error e => cases hr
    | ok u =>
      obtain ⟨store, hcand, hstores, rfl⟩ := (storeCandidate_eq_ok h hhash).mp hst
      obtain ⟨new, reorg, index, hnew, hreorg, -, rfl⟩ := activate_returns h hhash hcand hstores hact
      have hok := hstores.storeOk h.store hhash
      obtain ⟨r, chain, old, o, hfirst, hb, hrow, hold, hblocks, htip', hbest⟩ := h.store.exists_active hne
      have hne' : store.blocks ≠ [] := fun he => List.not_mem_nil (he ▸ hstores.subset hb.mem)
      obtain ⟨r', chain', new', w, hfirst', hb', hrow', hnew', hblocks', htip'', -⟩ := hok.exists_active hne'
      rw [hnew, Except.ok.injEq] at hnew'
      subst hnew'
      rw [htip, Except.ok.injEq] at hbest
      subst hbest
      have hbest : ∀ q ∈ store.blocks, q = r' ∨ q.cumulativeWork ≤ r.cumulativeWork := by
        intro q hq
        cases hstores with
        | known => exact .inr (work_le_of_first hfirst hq)
        | @new _ _ row =>
          rcases List.mem_append.mp hq with hq' | hq'
          · exact .inr (work_le_of_first hfirst hq')
          · obtain rfl := List.mem_singleton.mp hq'
            rcases first_concat h.store.nodup hfirst hfirst' with rfl | rfl
            · exact .inr (work_le_of_first hfirst' hq)
            · exact .inl rfl
      have hstem := prefix_iff hok.nodup (hb.mono hstores.subset) hb' hbest (by rw [← hblocks]; exact htip')
        (by rw [← hblocks']; exact htip'')
      rw [← hblocks, ← hblocks'] at hstem
      rw [htip''] at hreorg
      have hevent := detectReorg_eq_ok hrow.hash hrow'.hash hreorg
      refine ⟨old, new, hold, hnew, ?_, fun event he => ?_⟩
      · rw [hstem, hevent]
        split
        · rename_i hc
          exact iff_of_true rfl hc
        · rename_i hc
          exact iff_of_false nofun hc
      · rw [hevent] at he
        split at he
        · cases he
        · cases he
          exact ⟨o, w, htip', htip'', hrow.hash, hrow'.hash, rfl, rfl⟩

end Import

theorem lastReorg_paymentBlock :
    let _ := aliceVerify
    ∃ (n' : ConsensusNode) (old new : ActiveChain), genesisNode.forkChoice.activeChain genesisNode.disk.store = .ok old ∧
      n'.forkChoice.activeChain n'.disk.store = .ok new ∧ (n'.lastReorg = none ↔ old.blocks <+: new.blocks) ∧
      ∀ event, n'.lastReorg = some event → Names event old new := by
  intro _
  have hreturns : ((ConsensusNode.importBlock paymentBlock).call genesisNode).1.isOk = true := by decide +kernel
  obtain ⟨stored, n', hcall⟩ := Method.exists_call_of_isOk hreturns
  exact ⟨n', lastReorg_iff _ genesisNode n' created_genesisNode (by decide) paymentBlock stored hcall⟩

end BCC.Proof
