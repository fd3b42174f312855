import BlockchainCoin.Proof.Cache

/-!
# The history of a node

Whatever is called, in any order, and whether it returns or raises, a stored block stays
what it is, with its branch, and the tip never becomes a worse one (`history_kept`). Only
a block that was not stored before can take its place.
-/

namespace BCC.Proof

open BCC.Impl

/-- `tip'` comes before `tip` where `best_tip` orders them: by work, by height, and by the smaller hash. -/
def Outranks (tip' tip : StoredConsensusBlock) : Prop :=
  tip.cumulativeWork < tip'.cumulativeWork ∨ tip'.cumulativeWork = tip.cumulativeWork ∧
    (tip.block.height < tip'.block.height ∨ tip'.block.height = tip.block.height ∧
      ∃ hash hash', tip.block.hash = .ok hash ∧ tip'.block.hash = .ok hash' ∧ hash' ≤ hash)

variable [Ed25519]

/-! ## Stores that grow -/

section

variable {store store' : ForkStore} {f f' : ForkChoice}

/-- A block that is read from the store has a row. -/
theorem StoreOk.of_getBlock (h : StoreOk f store) {hash : Str} {stored : StoredConsensusBlock}
    (hget : store.getBlock hash = .ok stored) :
    ∃ r ∈ store.blocks, r.hash = hash ∧ RowOf stored.block r ∧ stored.cumulativeWork = r.cumulativeWork := by
  cases hl : Table.lookup BlockRow.hash store.blocks hash with
  | none => rw [ForkStore.getBlock, hl] at hget; cases hget
  | some r =>
    obtain ⟨hr, rfl⟩ := (Table.lookup_eq_some h.nodup).mp hl
    obtain ⟨b, hb, hget'⟩ := h.getBlock hr
    rw [hget, Except.ok.injEq] at hget'
    exact ⟨r, hr, rfl, hget' ▸ hb, by rw [hget']⟩

theorem getBlock_kept (h : StoreOk f store) (h' : StoreOk f' store') (hsub : store.blocks ⊆ store'.blocks) {hash : Str}
    {stored : StoredConsensusBlock} (hget : store.getBlock hash = .ok stored) : store'.getBlock hash = .ok stored := by
  obtain ⟨r, hr, rfl, hrow, hwork⟩ := h.of_getBlock hget
  rw [getBlock_of_mem h'.nodup (hsub hr) hrow, ← hwork]

theorem chainToTip_kept (h : StoreOk f store) (h' : StoreOk f' store') (hsub : store.blocks ⊆ store'.blocks) {hash : Str}
    {chain : List StoredConsensusBlock} (hchain : store.chainToTip hash = .ok chain) : store'.chainToTip hash = .ok chain := by
  obtain ⟨walk, hwalk, -⟩ := bind_eq_ok.mp hchain
  obtain ⟨current, hget, -⟩ := bind_eq_ok.mp hwalk
  obtain ⟨r, hr, rfl, -⟩ := h.of_getBlock hget
  obtain ⟨chain', s, hb, -⟩ := h.branch r hr
  rw [hb.chainToTip h.nodup, Except.ok.injEq] at hchain
  exact hchain ▸ (hb.mono hsub).chainToTip h'.nodup

/-- The best tip of a store that has grown is no worse, and new where it is another one. -/
theorem bestTip_kept (h : StoreOk f store) (h' : StoreOk f' store') (hsub : store.blocks ⊆ store'.blocks)
    {tip : StoredConsensusBlock} (htip : store.bestTip = .ok (some tip)) :
    ∃ tip', store'.bestTip = .ok (some tip') ∧ Outranks tip' tip ∧
      (tip' = tip ∨ ∃ hash, tip'.block.hash = .ok hash ∧ store.hasBlock hash = false) := by
  cases hf : Table.first BlockRow.better store.blocks with
  | none => rw [ForkStore.bestTip, hf] at htip; cases htip
  | some r =>
    obtain ⟨b, hb, hbest⟩ := h.bestTip hf
    rw [htip, Except.ok.injEq, Option.some.injEq] at hbest
    subst hbest
    have hmem := hsub (Table.first_mem hf)
    obtain ⟨r', hf'⟩ : ∃ r', Table.first BlockRow.better store'.blocks = some r' :=
      Option.ne_none_iff_exists'.mp fun hnone => List.not_mem_nil (Table.first_eq_none.mp hnone ▸ hmem)
    obtain ⟨b', hb', hbest'⟩ := h'.bestTip hf'
    have hbetter : r'.better r := Table.first_le better_total better_trans hf' r hmem
    refine ⟨_, hbest', ?_, ?_⟩
    · rw [Outranks]
      rcases hbetter with hw | ⟨hw, hh | ⟨hh, hhash⟩⟩
      · exact .inl hw
      · exact .inr ⟨hw, .inl (by rw [← hb.height, ← hb'.height]; exact hh)⟩
      · exact .inr ⟨hw, .inr ⟨by rw [← hb.height, ← hb'.height]; exact hh, _, _, hb.hash, hb'.hash, hhash⟩⟩
    · by_cases hold : r'.hash ∈ store.blocks.map (·.hash)
      · obtain ⟨q, hq, he⟩ := List.mem_map.mp hold
        have hqr : q = r' := List.inj_on_of_nodup_map h'.nodup (hsub hq) (Table.first_mem hf') he
        have hback : r.better r' := Table.first_le better_total better_trans hf r' (hqr ▸ hq)
        obtain rfl := List.inj_on_of_nodup_map h'.nodup (Table.first_mem hf') hmem (hash_eq_of_better hbetter hback)
        have hdata := hb.data
        rw [hb'.data, Except.ok.injEq] at hdata
        exact .inl (by rw [hdata])
      · exact .inr ⟨_, hb'.hash, Bool.eq_false_iff.mpr fun hhas => hold (Table.isSome_lookup.mp hhas)⟩

end

/-! ## Runs -/

/-- The rows of the store are there after every run. -/
theorem persists_after {calls : List Call} : ∀ more : List Call,
    Persists (World.after calls).disk (World.after (calls ++ more)).disk := by
  intro more
  induction more using List.reverseRecOn with
  | nil =>
    rw [List.append_nil]
    exact .refl _
  | append_singleton more call ih =>
    rw [← List.append_assoc, after_concat]
    exact ih.trans (.step (worldOk_after _) call)

/-- The files of a world replay, unless there is no block. -/
theorem WorldOk.storeOk {w : World} (h : WorldOk w) : w.disk.store.blocks = [] ∨ ∃ f, StoreOk f w.disk.store := by
  cases w with
  | up n => exact .inr ⟨_, h.store⟩
  | down d => exact h.store.imp_right fun hd => hd.elim fun p hp => ⟨_, hp.2⟩

/-- Blocks that are stored stay, with the branches that end in them, and the tip does not become a worse one. Another tip
is a block that was not stored. -/
theorem history_kept (calls more : List Call) :
    let store := (World.after calls).disk.store
    let store' := (World.after (calls ++ more)).disk.store
    (∀ hash stored, store.getBlock hash = .ok stored → store'.getBlock hash = .ok stored) ∧
      (∀ hash chain, store.chainToTip hash = .ok chain → store'.chainToTip hash = .ok chain) ∧
      ∀ tip, store.bestTip = .ok (some tip) → ∃ tip', store'.bestTip = .ok (some tip') ∧ Outranks tip' tip ∧
        (tip' = tip ∨ ∃ hash, tip'.block.hash = .ok hash ∧ store.hasBlock hash = false) := by
  intro store store'
  have hsub : store.blocks ⊆ store'.blocks := (persists_after more).blocks
  by_cases hnil : store.blocks = []
  · have hget : ∀ hash stored, store.getBlock hash ≠ .ok stored := fun hash stored => by
      rw [ForkStore.getBlock, hnil]
      exact fun h => by cases h
    refine ⟨fun hash stored hs => absurd hs (hget hash stored), fun hash chain hchain => ?_, fun tip htip => ?_⟩
    · obtain ⟨walk, hwalk, -⟩ := bind_eq_ok.mp hchain
      obtain ⟨current, hs, -⟩ := bind_eq_ok.mp hwalk
      exact absurd hs (hget _ _)
    · rw [StoreOk.bestTip_of_nil hnil] at htip
      cases htip
  · obtain ⟨f, h⟩ := (worldOk_after calls).storeOk.resolve_left hnil
    obtain ⟨f', h'⟩ := (worldOk_after (calls ++ more)).storeOk.resolve_left fun hnil' =>
      hnil (List.subset_nil.mp (hnil' ▸ hsub))
    exact ⟨fun _ _ => getBlock_kept h h' hsub, fun _ _ => chainToTip_kept h h' hsub, fun _ => bestTip_kept h h' hsub⟩

end BCC.Proof
