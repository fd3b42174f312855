import BlockchainCoin.Proof.ForkTree
import BlockchainCoin.Proof.Reimport

/-!
# The cache of invalid blocks

`import_block` caches the hash of a block for good, for whatever reason the block was
refused. Nothing is removed from the fork store, so what a block is validated against does
not change once its parent is stored (`Persists`): a block that is valid now was valid at
every earlier call with its parent in the store (`Accepted.candidate`). Its hash is cached
only by a call before that, or by another block under its hash (`cache_sound`).
-/

namespace BCC.Proof

open BCC.Impl BlockProcessor

/-! ## Files over time -/

/-- The rows of `d` are rows of `d'`, under the same parameters. -/
structure Persists (d d' : Disk) : Prop where
  blocks : d.store.blocks ⊆ d'.store.blocks
  parameters : d.store.blocks ≠ [] → d'.store.parameters = d.store.parameters

namespace Persists

theorem refl (d : Disk) : Persists d d := ⟨List.Subset.refl _, fun _ => rfl⟩

theorem trans {d₁ d₂ d₃ : Disk} (h : Persists d₁ d₂) (h' : Persists d₂ d₃) : Persists d₁ d₃ := by
  refine ⟨List.Subset.trans h.blocks h'.blocks, fun hne => ?_⟩
  have hne' : d₂.store.blocks ≠ [] := fun hnil => hne (List.subset_nil.mp (hnil ▸ h.blocks))
  rw [h'.parameters hne', h.parameters hne]

theorem of_store {d d' : Disk} (h : d'.store = d.store) : Persists d d' :=
  ⟨by rw [h]; exact List.Subset.refl _, fun _ => by rw [h]⟩

theorem of_later {d d' : Disk} (h : Later d d') : Persists d d' := ⟨h.blocks, h.parameters⟩

variable [Ed25519]

theorem importBlock {n : ConsensusNode} (h : NodeOk n) (b : ConsensusBlock) :
    Persists n.disk ((ConsensusNode.importBlock b).call n).2.disk := by
  cases importBlock_effect h b with
  | refused _ hstore => exact .of_store hstore
  | rejected _ _ _ hstore => exact .of_store hstore
  | stored _ _ _ hst => exact ⟨hst.subset, fun _ => hst.parameters⟩

theorem step {w : World} (h : WorldOk w) (call : Call) : Persists w.disk (w.step call).disk := by
  cases w with
  | up n =>
    cases hb : call.offered n with
    | none => exact .of_store (step_of_not_offered h hb).1
    | some b =>
      rw [step_of_offered hb]
      exact .importBlock h b
  | down d =>
    cases call with
    | create allocations p timestamp fuel => exact .of_later (create_makes h allocations p timestamp fuel).made.2
    | openNode p => exact .of_later (openNode_makes h p).made.2
    | _ => exact .refl d

end Persists

section Calls

variable [Ed25519]

/-! ## Calls that cache a hash -/

section

variable {n : ConsensusNode} {b : ConsensusBlock} {hash : Str}

/-- A hash is cached by an import of a block with this hash, which raises since the block is not valid or cannot be stored. -/
theorem rejected_of_cached (h : NodeOk n) (hfree : n.disk.invalidBlocks.isInvalid hash = false)
    (hcached : ((ConsensusNode.importBlock b).call n).2.disk.invalidBlocks.isInvalid hash = true) :
    b.hash = .ok hash ∧ ((ConsensusNode.importBlock b).call n).1.isOk = false ∧
      ∀ chain s, Candidate n.forkChoice n.disk.store b chain s → ∀ stored store,
        ¬ Stores n.forkChoice n.disk.store b hash stored store := by
  have hraises : ((ConsensusNode.importBlock b).call n).1.isOk = false := by
    rcases hcall : (ConsensusNode.importBlock b).call n with ⟨e | stored, n'⟩
    · rfl
    · obtain ⟨_, _, _, hact⟩ := importBlock_returns h hcall
      rw [hcall, hact.node] at hcached
      exact absurd (hcached.symm.trans hfree) nofun
  cases importBlock_effect h b with
  | refused _ _ hcache =>
    rw [hcache, hfree] at hcached
    cases hcached
  | stored _ _ _ _ hcache =>
    rw [hcache, hfree] at hcached
    cases hcached
  | @rejected hash' _ hhash _ hno _ hcache =>
    rw [hcache, isInvalid_markInvalid, hfree] at hcached
    obtain rfl : hash = hash' := hcached.resolve_right nofun
    exact ⟨hhash, hraises, hno⟩

/-- A call of a run handed `b` to `import_block` of `n`, which raised. -/
def Refused (calls : List Call) (n : ConsensusNode) (b : ConsensusBlock) : Prop :=
  ∃ before call after, calls = before ++ call :: after ∧ World.after before = .up n ∧ call.offered n = some b ∧
    ((ConsensusNode.importBlock b).call n).1.isOk = false

theorem Refused.concat {calls : List Call} (h : Refused calls n b) (call : Call) : Refused (calls ++ [call]) n b := by
  obtain ⟨before, call', after, rfl, h⟩ := h
  exact ⟨before, call', after ++ [call], by rw [List.append_assoc, List.cons_append], h⟩

theorem after_concat (calls : List Call) (call : Call) : World.after (calls ++ [call]) = (World.after calls).step call := by
  rw [World.after, List.foldl_append]
  rfl

/-- Every cached hash is that of a block that was refused, when it was not valid or could not be stored. -/
theorem refused_of_cached {calls : List Call} (hcached : (World.after calls).disk.invalidBlocks.isInvalid hash = true) :
    ∃ n b, Refused calls n b ∧ b.hash = .ok hash ∧ Persists n.disk (World.after calls).disk ∧
      ∀ chain s, Candidate n.forkChoice n.disk.store b chain s → ∀ stored store,
        ¬ Stores n.forkChoice n.disk.store b hash stored store := by
  induction calls using List.reverseRecOn with
  | nil => cases hcached
  | append_singleton calls call ih =>
    rw [after_concat] at hcached ⊢
    have hok := worldOk_after calls
    have hpersists := Persists.step hok call
    cases hfree : (World.after calls).disk.invalidBlocks.isInvalid hash with
    | true =>
      obtain ⟨n, b, hrefused, hhash, hbefore, hno⟩ := ih hfree
      exact ⟨n, b, hrefused.concat call, hhash, hbefore.trans hpersists, hno⟩
    | false =>
      have hchanged : ((World.after calls).step call).disk.invalidBlocks ≠ (World.after calls).disk.invalidBlocks :=
        fun hsame => by rw [hsame, hfree] at hcached; cases hcached
      rcases hw : World.after calls with d | n
      · rw [hw] at hok hchanged
        cases call with
        | create allocations p timestamp fuel =>
          exact absurd (create_makes hok allocations p timestamp fuel).made.2.invalidBlocks hchanged
        | openNode p => exact absurd (openNode_makes hok p).made.2.invalidBlocks hchanged
        | _ => exact absurd rfl hchanged
      · rw [hw] at hok hchanged hfree hcached hpersists
        cases hb : call.offered n with
        | none => exact absurd (step_of_not_offered hok hb).2 hchanged
        | some b =>
          rw [step_of_offered hb] at hcached
          obtain ⟨hhash, hraises, hno⟩ := rejected_of_cached hok hfree hcached
          exact ⟨n, b, ⟨calls, call, [], rfl, hw, hb, hraises⟩, hhash, hpersists, hno⟩

end

/-! ## Blocks that are valid -/

/-- `b` is one block above its parent in the store, and `BlockProcessor` accepts it on the replayed branch of the parent. -/
def ValidOnParent (n : ConsensusNode) (b : ConsensusBlock) : Prop :=
  ∃ parent branch fees s, n.disk.store.getBlock b.previousHash = .ok parent ∧ b.height = parent.block.height + 1 ∧
    n.forkChoice.chainToTip n.disk.store b.previousHash = .ok branch ∧
    (applyBlock b (parent.block.height + 1) b.previousHash).call branch.state = (.ok fees, s)

/-- The row of `b` can be written. -/
def Storable (n : ConsensusNode) (b : ConsensusBlock) : Prop :=
  ∀ parent, n.disk.store.getBlock b.previousHash = .ok parent → Fits parent b

section

variable {n m : ConsensusNode} {b : ConsensusBlock} {hash : Str}

/-- Nodes on the same files have the same chain parameters once a block is stored. -/
theorem Persists.forkChoice (h : Persists m.disk n.disk) (hm : NodeOk m) (hn : NodeOk n) (hne : m.disk.store.blocks ≠ []) :
    m.forkChoice = n.forkChoice := by
  have hp := h.parameters hne
  rw [hn.parameters, hm.parameters, Option.some.injEq, ChainParameters.mk.injEq] at hp
  obtain ⟨-, hsubsidy, hmax⟩ := hp
  cases hf : m.forkChoice
  cases hf' : n.forkChoice
  rw [hf, hf'] at hsubsidy hmax
  exact congrArg₂ ForkChoice.mk hsubsidy.symm hmax.symm

theorem ValidOnParent.replay (h : NodeOk n) (hvalid : ValidOnParent n b) (hhash : b.hash = .ok hash) :
    ∃ p chain s, p.hash = b.previousHash ∧ Branch n.disk.store.blocks p chain ∧
      Built n.forkChoice.blockSubsidy n.forkChoice.maxMoney (chain.map (·.block) ++ [b]) hash s := by
  obtain ⟨parent, branch, fees, s, hparent, hheight, hbranch, happly⟩ := hvalid
  obtain ⟨p, chain, hp, hb, hs, -⟩ := h.store.chainToTip_eq_ok hbranch
  obtain ⟨bp, hbp, -⟩ := hb.last
  rw [← hp, getBlock_of_mem h.store.nodup hb.mem hbp, Except.ok.injEq] at hparent
  subst hparent
  refine ⟨p, chain, s, hp, hb, hs.snoc (f := fees) ?_ hhash⟩
  rw [List.length_map, hb.length, hbp.height, hp]
  exact applyBlock_eq_ok.mp happly

/-- A block that is valid now was valid when its parent was stored. -/
theorem ValidOnParent.stores (hn : NodeOk n) (hm : NodeOk m) (hpersists : Persists m.disk n.disk) (hvalid : ValidOnParent n b)
    (hfits : Storable n b) (hhash : b.hash = .ok hash) (hstored : m.disk.store.hasBlock b.previousHash = true) :
    ∃ chain s, Candidate m.forkChoice m.disk.store b chain s ∧
      ∃ stored store, Stores m.forkChoice m.disk.store b hash stored store := by
  obtain ⟨p, chain, s, hp, hb, hs⟩ := hvalid.replay hn hhash
  obtain ⟨q, hq, hqhash⟩ := List.mem_map.mp (Table.isSome_lookup.mp hstored)
  obtain ⟨chain', -, hb', -⟩ := hm.store.branch q hq
  -- The parent has the same branch then and now.
  obtain rfl : q = p := List.inj_on_of_nodup_map hn.store.nodup (hpersists.blocks hq) hb.mem (hqhash.trans hp.symm)
  obtain rfl := (hb'.mono hpersists.blocks).unique hn.store.nodup hb
  rw [← hpersists.forkChoice hm hn (List.ne_nil_of_mem hq)] at hs
  refine ⟨chain', s, stores_of_replay hm hhash hp hb' ⟨_, hs⟩ fun bp hbp => hfits _ ?_⟩
  exact hp ▸ getBlock_of_mem hn.store.nodup hb.mem hbp

/-- A valid block that can be stored is stored by an import, unless its hash is cached. -/
theorem ValidOnParent.importBlock (h : NodeOk n) (hvalid : ValidOnParent n b) (hfits : Storable n b) (hhash : b.hash = .ok hash)
    (hfree : n.disk.invalidBlocks.isInvalid hash = false) :
    ((ConsensusNode.importBlock b).call n).2.disk.store.hasBlock hash = true := by
  cases importBlock_effect h b with
  | refused hcached =>
    rw [hcached hash hhash] at hfree
    cases hfree
  | rejected hhash' _ hno =>
    obtain rfl := Except.ok.inj (hhash.symm.trans hhash')
    obtain ⟨_, _, _, _, hparent, -⟩ := id hvalid
    obtain ⟨chain, s, hcand, stored, store, hst⟩ := hvalid.stores h h (.refl _) hfits hhash (hasBlock_of_getBlock hparent)
    exact absurd hst (hno chain s hcand stored store)
  | stored hhash' _ _ hst =>
    obtain rfl := Except.ok.inj (hhash.symm.trans hhash')
    exact Table.isSome_lookup.mpr (hst.mem h.store hhash).1

end

/-- The hash of a valid block that can be stored is not cached, and `import_block` stores the block, unless a block with
this hash was refused before the parent was stored or is another block. -/
theorem cache_sound (calls : List Call) (n : ConsensusNode) (hn : World.after calls = .up n) (b : ConsensusBlock) (hash : Str)
    (hhash : b.hash = .ok hash) (hvalid : ValidOnParent n b) (hfits : Storable n b)
    (hrefused : ∀ m b', Refused calls m b' → b'.hash = .ok hash →
      b' = b ∧ m.disk.store.hasBlock b.previousHash = true) :
    n.disk.invalidBlocks.isInvalid hash = false ∧
      ((ConsensusNode.importBlock b).call n).2.disk.store.hasBlock hash = true := by
  have h := nodeOk_after hn
  have hfree : n.disk.invalidBlocks.isInvalid hash = false := by
    by_contra hcached
    rw [Bool.not_eq_false] at hcached
    have hworld : (World.after calls).disk.invalidBlocks.isInvalid hash = true := by
      rw [hn]
      exact hcached
    obtain ⟨m, b', href, hhash', hpersists, hno⟩ := refused_of_cached hworld
    obtain ⟨rfl, hstored⟩ := hrefused m b' href hhash'
    obtain ⟨before, _, _, -, hm, -⟩ := href
    rw [hn] at hpersists
    obtain ⟨chain, s, hcand, stored, store, hst⟩ := hvalid.stores h (nodeOk_after hm) hpersists hfits hhash hstored
    exact hno chain s hcand stored store hst
  exact ⟨hfree, hvalid.importBlock h hfits hhash hfree⟩

end Calls

/-- The check of `ValidOnParent`. -/
def validOnParent [Ed25519] (n : ConsensusNode) (b : ConsensusBlock) : Bool :=
  match n.disk.store.getBlock b.previousHash, n.forkChoice.chainToTip n.disk.store b.previousHash with
  | .ok parent, .ok branch =>
    decide (b.height = parent.block.height + 1) &&
      ((applyBlock b (parent.block.height + 1) b.previousHash).call branch.state).1.isOk
  | _, _ => false

theorem validOnParent_eq_true [Ed25519] {n : ConsensusNode} {b : ConsensusBlock} (h : validOnParent n b = true) :
    ValidOnParent n b := by
  unfold validOnParent at h
  split at h
  · rename_i parent branch hparent hbranch
    rw [Bool.and_eq_true, decide_eq_true_eq] at h
    obtain ⟨fees, s, hcall⟩ := Method.exists_call_of_isOk h.2
    exact ⟨parent, branch, fees, s, hparent, h.1, hbranch, hcall⟩
  · cases h

/-- Nothing was refused before the payment block. -/
theorem cache_sound_paymentBlock :
    let _ := aliceVerify
    genesisNode.disk.invalidBlocks.isInvalid paymentHash = false ∧
      ((ConsensusNode.importBlock paymentBlock).call genesisNode).2.disk.store.hasBlock paymentHash = true := by
  intro _
  have hvalid : ValidOnParent genesisNode paymentBlock := validOnParent_eq_true (by decide +kernel)
  have hfits : Storable genesisNode paymentBlock := fun parent hget => by
    obtain rfl := Except.ok.inj (chainToTip_genesisNode.1.symm.trans hget)
    exact ⟨exists_of_isOk (by decide +kernel), by decide, by decide, by decide⟩
  have hcreated : World.after [.create [(aliceAddress, 10)] ⟨0, 50, 1000⟩ 0 1] = .up genesisNode := created_genesisNode
  have hrefused : ∀ m b', ¬ Refused [.create [(aliceAddress, 10)] ⟨0, 50, 1000⟩ 0 1] m b' := by
    rintro m b' ⟨before, call, after, he, hm, -⟩
    cases before with
    | nil => cases hm
    | cons _ before => cases before <;> cases he
  exact cache_sound _ genesisNode hcreated paymentBlock paymentHash hash_paymentBlock.1 hvalid hfits
    fun m b' h => absurd h (hrefused m b')

/-- The block is valid in this world, and its hash is cached. -/
def refusesValid [Ed25519] (world : World) (b : ConsensusBlock) : Bool :=
  match world, b.hash with
  | .up n, .ok hash => validOnParent n b && n.disk.invalidBlocks.isInvalid hash
  | _, _ => false

theorem cached_of_refusesValid [Ed25519] {world : World} {b : ConsensusBlock} (h : refusesValid world b = true) :
    ∃ n hash, world = .up n ∧ b.hash = .ok hash ∧ ValidOnParent n b ∧ n.disk.invalidBlocks.isInvalid hash = true := by
  unfold refusesValid at h
  split at h
  · rename_i n hash hhash
    rw [Bool.and_eq_true] at h
    exact ⟨n, hash, rfl, hhash, validOnParent_eq_true h.1, h.2⟩
  · cases h

/-- A block that was offered before its parent stays refused after the parent was imported. -/
theorem child_refused :
    let _ := aliceSigned [payment, rivalPayment]
    ∃ n hash, World.after [.create [(aliceAddress, 10)] ⟨0, 50, 1000⟩ 0 1, .importBlock rivalBlock, .importBlock twinBlock] =
        .up n ∧ rivalBlock.hash = .ok hash ∧ ValidOnParent n rivalBlock ∧ n.disk.invalidBlocks.isInvalid hash = true := by
  intro _
  have hrefuses : refusesValid (World.after [.create [(aliceAddress, 10)] ⟨0, 50, 1000⟩ 0 1, .importBlock rivalBlock,
      .importBlock twinBlock]) rivalBlock = true := by decide +kernel
  exact cached_of_refusesValid hrefuses

end BCC.Proof
