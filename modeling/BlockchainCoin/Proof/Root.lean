import BlockchainCoin.Proof.Commitment

/-!
# Transaction lists with one root

The loop of `calculate_transaction_root` repeats the last node of every odd layer, so
lists of different lengths can have one root. Without a collision they do exactly when
their txids, with all these repetitions written out, are the same (`root_eq_iff`),
except for transactions that are encoded like a pair of nodes, which have no inputs.
-/

namespace BCC.Proof

open BCC.Impl

/-- The leaves of the Merkle tree over a list of transactions. -/
def txLeaves (ts : List ConsensusTransaction) : List Bytes := ts.map fun t => Sha256.digest (okBytes t.toBytes)

/-- The strings hashed for the root of a list of transactions. -/
def rootStrings (ts : List ConsensusTransaction) : List Bytes :=
  if ts = [] then [[]]
  else ts.map (fun t => okBytes t.toBytes) ++ (Merkle.allPairs merkleCombine (txLeaves ts)).map fun p => p.1 ++ p.2

/-- The transactions of the first list have the digests of a layer over the second. -/
def Nested (ts₁ ts₂ : List ConsensusTransaction) : Prop :=
  ∃ m, Relation.TransGen (Merkle.Over merkleCombine) (txLeaves ts₂) m ∧ Merkle.spread (txLeaves ts₁) = Merkle.spread m

/-! ## What is hashed -/

section

variable {ts ts₁ ts₂ : List ConsensusTransaction} {root root₁ root₂ : Str}

theorem txBytes_mem {t : ConsensusTransaction} (h : t ∈ ts) : okBytes t.toBytes ∈ rootStrings ts := by
  rw [rootStrings, if_neg (List.ne_nil_of_mem h)]
  exact List.mem_append_left _ (List.mem_map_of_mem h)

theorem pairBytes_mem (hne : ts ≠ []) {p : Bytes × Bytes} (h : p ∈ Merkle.allPairs merkleCombine (txLeaves ts)) :
    p.1 ++ p.2 ∈ rootStrings ts := by
  rw [rootStrings, if_neg hne]
  exact List.mem_append_right _ (List.mem_map_of_mem h)

theorem length_of_mem_allPairs {p : Bytes × Bytes} (h : p ∈ Merkle.allPairs merkleCombine (txLeaves ts)) :
    p.1.length = 32 ∧ p.2.length = 32 := by
  refine Merkle.forall_mem_climbPairs (P := fun a : Bytes => a.length = 32) (fun _ _ => Sha256.length_digest _)
    (fun a ha => ?_) p h
  obtain ⟨t, -, rfl⟩ := List.mem_map.mp ha
  exact Sha256.length_digest _

theorem injOn_of_noCollision (hS : Sha256.NoCollision (rootStrings ts₁ ++ rootStrings ts₂)) (h₁ : ts₁ ≠ []) (h₂ : ts₂ ≠ []) :
    Merkle.InjOn merkleCombine (Merkle.allPairs merkleCombine (txLeaves ts₁)) (Merkle.allPairs merkleCombine (txLeaves ts₂)) := by
  intro p hp q hq he
  have hbytes := hS _ (List.mem_append_left _ (pairBytes_mem h₁ hp)) _ (List.mem_append_right _ (pairBytes_mem h₂ hq)) he
  exact Prod.ext_iff.mpr (List.append_inj hbytes ((length_of_mem_allPairs hp).1.trans (length_of_mem_allPairs hq).1.symm))

/-- The root of a list that is not empty. -/
theorem root_eq_top (hne : ts ≠ []) (h : calculateTransactionRoot ts = .ok root) :
    (∀ t ∈ ts, t.toBytes = .ok (okBytes t.toBytes)) ∧ ∃ top, Merkle.top merkleCombine (txLeaves ts) = [top] ∧ root = hexEncode top := by
  obtain ⟨hbytes, hroot⟩ := calculateTransactionRoot_eq_ok hne h
  obtain ⟨top, htop⟩ := Merkle.exists_top merkleCombine (l := txLeaves ts) (by rwa [txLeaves, ne_eq, List.map_eq_nil_iff])
  exact ⟨hbytes, top, htop, by rw [hroot, show (ts.map fun t => Sha256.digest (okBytes t.toBytes)) = txLeaves ts from rfl, htop]; rfl⟩

theorem map_txid (hbytes : ∀ t ∈ ts, t.toBytes = .ok (okBytes t.toBytes)) :
    ts.map (·.txid) = (txLeaves ts).map fun d => .ok (hexEncode d) := by
  rw [txLeaves, List.map_map]
  refine List.map_congr_left fun t ht => ?_
  rw [ConsensusTransaction.txid, hbytes t ht]
  rfl

theorem toBytes_ne_nil {t : ConsensusTransaction} {bs : Bytes} (h : t.toBytes = .ok bs) : bs ≠ [] := by
  simp only [ConsensusTransaction.toBytes, bind_eq_ok, pure_eq_ok] at h
  obtain ⟨_, -, _, -, _, -, _, -, _, -, rfl⟩ := h
  simp [transactionMagic]

/-- The top of a tree is the digest of a transaction or of a pair. -/
theorem top_digest {top : Bytes} (hne : ts ≠ []) (hbytes : ∀ t ∈ ts, t.toBytes = .ok (okBytes t.toBytes))
    (htop : Merkle.top merkleCombine (txLeaves ts) = [top]) :
    ∃ bs ∈ rootStrings ts, bs ≠ [] ∧ top = Sha256.digest bs := by
  by_cases hl : 1 < (txLeaves ts).length
  · obtain ⟨p, hp, hp'⟩ := Merkle.top_of_one_lt_length merkleCombine hl
    refine ⟨p.1 ++ p.2, pairBytes_mem hne hp, ?_, (List.singleton_inj.mp (htop.symm.trans hp'))⟩
    have hlen := (length_of_mem_allPairs hp).1
    exact List.append_ne_nil_of_left_ne_nil (List.length_pos_iff.mp (by omega)) _
  · rw [Merkle.top_of_length_le_one (by omega)] at htop
    obtain ⟨t, ht, rfl⟩ := List.mem_map.mp (htop ▸ List.mem_singleton_self top : top ∈ txLeaves ts)
    exact ⟨_, txBytes_mem ht, toBytes_ne_nil (hbytes t ht), rfl⟩

theorem not_nested_nil : ¬ Nested ts [] := by
  rintro ⟨m, hm, -⟩
  obtain ⟨n, ⟨hlen, -⟩, -⟩ := Relation.TransGen.head'_iff.mp hm
  exact absurd hlen (by decide)

/-- A list that is not empty has not the root of the empty one. -/
theorem root_ne_of_nil (hne : ts ≠ []) (h : calculateTransactionRoot ts = .ok root)
    (hS : Sha256.NoCollision (rootStrings [] ++ rootStrings ts)) : sha256Hex [] ≠ root := by
  obtain ⟨hbytes, top, htop, rfl⟩ := root_eq_top hne h
  obtain ⟨bs, hmem, hbs, rfl⟩ := top_digest hne hbytes htop
  intro he
  have hnil : ([] : Bytes) ∈ rootStrings [] := List.mem_singleton_self _
  exact hbs (hS _ (List.mem_append_left _ hnil) _ (List.mem_append_right _ hmem) (hexEncode_inj he)).symm

theorem spread_ne_nil {α : Type} {l : List α} (hne : l ≠ []) : Merkle.spread l ≠ [] := by
  have hle := Merkle.length_le_length_spread l
  have hpos := List.length_pos_iff.mpr hne
  exact List.ne_nil_of_length_pos (by omega)

theorem not_nested_of_nil : ¬ Nested [] ts := by
  rintro ⟨m, hm, he⟩
  exact spread_ne_nil (Merkle.ne_nil_of_over hm) he.symm

theorem Nested.length_ne (h : Nested ts₁ ts₂) : ts₁.length ≠ ts₂.length := by
  obtain ⟨m, hm, he⟩ := h
  intro hlen
  have hsame : (Merkle.spread (txLeaves ts₁)).length = (Merkle.spread (txLeaves ts₂)).length :=
    Merkle.length_spread_congr (by rw [txLeaves, txLeaves, List.length_map, List.length_map, hlen])
  have hless := Merkle.length_spread_of_over hm
  rw [← he, hsame] at hless
  exact absurd hless (lt_irrefl _)

/-- A transaction with the digest of a pair of nodes is encoded as they are. -/
theorem Nested.inputs_nil (h : Nested ts₁ ts₂) (hbytes : ∀ t ∈ ts₁, t.toBytes = .ok (okBytes t.toBytes))
    (hS : Sha256.NoCollision (rootStrings ts₁ ++ rootStrings ts₂)) {t : ConsensusTransaction} (ht : t ∈ ts₁) :
    t.inputs = [] ∧ (okBytes t.toBytes).length = 64 := by
  have hne₂ : ts₂ ≠ [] := by
    rintro rfl
    exact not_nested_nil h
  obtain ⟨m, hm, he⟩ := h
  have hleaf : Sha256.digest (okBytes t.toBytes) ∈ txLeaves ts₁ := List.mem_map_of_mem ht
  obtain ⟨q, hq, hdigest⟩ := Merkle.mem_of_over hm (Merkle.mem_spread (he ▸ Merkle.subset_spread _ hleaf))
  have hbytes' := hS _ (List.mem_append_left _ (txBytes_mem ht)) _ (List.mem_append_right _ (pairBytes_mem hne₂ hq)) hdigest
  have hlen : (okBytes t.toBytes).length = 64 := by
    rw [hbytes', List.length_append, (length_of_mem_allPairs hq).1, (length_of_mem_allPairs hq).2]
  refine ⟨by_contra fun hne => ?_, hlen⟩
  have hlong := length_toBytes (hbytes t ht) hne
  omega

/-- Which lists share a root, in their leaves. -/
theorem root_eq_iff_leaves (hne₁ : ts₁ ≠ []) (hne₂ : ts₂ ≠ []) (h₁ : calculateTransactionRoot ts₁ = .ok root₁)
    (h₂ : calculateTransactionRoot ts₂ = .ok root₂) (hS : Sha256.NoCollision (rootStrings ts₁ ++ rootStrings ts₂)) :
    root₁ = root₂ ↔ Merkle.spread (txLeaves ts₁) = Merkle.spread (txLeaves ts₂) ∨ Nested ts₁ ts₂ ∨ Nested ts₂ ts₁ := by
  obtain ⟨-, top₁, htop₁, rfl⟩ := root_eq_top hne₁ h₁
  obtain ⟨-, top₂, htop₂, rfl⟩ := root_eq_top hne₂ h₂
  have htops : hexEncode top₁ = hexEncode top₂ ↔
      Merkle.top merkleCombine (txLeaves ts₁) = Merkle.top merkleCombine (txLeaves ts₂) := by
    rw [htop₁, htop₂, List.singleton_inj]
    exact ⟨hexEncode_inj, congrArg hexEncode⟩
  rw [htops, Merkle.top_eq_iff (injOn_of_noCollision hS hne₁ hne₂)]
  simp only [Relation.reflTransGen_iff_eq_or_transGen]
  constructor
  · rintro (⟨m, rfl | hm, he⟩ | ⟨m, rfl | hm, he⟩)
    · exact .inl he
    · exact .inr (.inl ⟨m, hm, he⟩)
    · exact .inl he
    · exact .inr (.inr ⟨m, hm, he.symm⟩)
  · rintro (he | ⟨m, hm, he⟩ | ⟨m, hm, he⟩)
    · exact .inl ⟨_, .inl rfl, he⟩
    · exact .inl ⟨m, .inr hm, he⟩
    · exact .inr ⟨m, .inr hm, he.symm⟩

theorem bytes_of_root (h : calculateTransactionRoot ts = .ok root) : ∀ t ∈ ts, t.toBytes = .ok (okBytes t.toBytes) := by
  by_cases hne : ts = []
  · subst hne
    exact fun t ht => absurd ht List.not_mem_nil
  · exact (root_eq_top hne h).1

theorem spread_txids (h₁ : calculateTransactionRoot ts₁ = .ok root₁) (h₂ : calculateTransactionRoot ts₂ = .ok root₂) :
    Merkle.spread (ts₁.map (·.txid)) = Merkle.spread (ts₂.map (·.txid)) ↔
      Merkle.spread (txLeaves ts₁) = Merkle.spread (txLeaves ts₂) := by
  have hinj : Function.Injective fun d : Bytes => (.ok (hexEncode d) : Except PyError Str) :=
    fun _ _ he => hexEncode_inj (Except.ok.inj he)
  rw [map_txid (bytes_of_root h₁), map_txid (bytes_of_root h₂), Merkle.spread_map, Merkle.spread_map,
    (List.map_injective_iff.mpr hinj).eq_iff]

/-- Lists of one length with one root have the same txids in the same order; lists of any lengths share a root when their
txids with the repetitions written out are the same, or the txids of one are hashes of pairs in the tree of the other. -/
theorem root_eq_iff (ts₁ ts₂ : List ConsensusTransaction) (root₁ root₂ : Str)
    (h₁ : calculateTransactionRoot ts₁ = .ok root₁) (h₂ : calculateTransactionRoot ts₂ = .ok root₂)
    (hS : Sha256.NoCollision (rootStrings ts₁ ++ rootStrings ts₂)) :
    (ts₁.length = ts₂.length → (root₁ = root₂ ↔ ts₁.map (·.txid) = ts₂.map (·.txid))) ∧
      (root₁ = root₂ ↔ Merkle.spread (ts₁.map (·.txid)) = Merkle.spread (ts₂.map (·.txid)) ∨ Nested ts₁ ts₂ ∨ Nested ts₂ ts₁) ∧
      (Nested ts₁ ts₂ → ∀ t ∈ ts₁, t.inputs = [] ∧ (okBytes t.toBytes).length = 64) := by
  have hiff : root₁ = root₂ ↔
      Merkle.spread (ts₁.map (·.txid)) = Merkle.spread (ts₂.map (·.txid)) ∨ Nested ts₁ ts₂ ∨ Nested ts₂ ts₁ := by
    rw [spread_txids h₁ h₂]
    have hnil {root : Str} (h : calculateTransactionRoot [] = .ok root) : root = sha256Hex [] := (Except.ok.inj h).symm
    by_cases hne₁ : ts₁ = []
    · subst hne₁
      by_cases hne₂ : ts₂ = []
      · subst hne₂
        exact iff_of_true ((hnil h₁).trans (hnil h₂).symm) (.inl rfl)
      · refine iff_of_false (hnil h₁ ▸ root_ne_of_nil hne₂ h₂ hS) ?_
        rintro (he | h | h)
        · exact spread_ne_nil (mt List.map_eq_nil_iff.mp hne₂) he.symm
        · exact not_nested_of_nil h
        · exact not_nested_nil h
    · by_cases hne₂ : ts₂ = []
      · subst hne₂
        refine iff_of_false (hnil h₂ ▸ (root_ne_of_nil hne₁ h₁ fun x hx y hy => hS x ?_ y ?_).symm) ?_
        · exact List.mem_append.mpr (List.mem_append.mp hx).symm
        · exact List.mem_append.mpr (List.mem_append.mp hy).symm
        · rintro (he | h | h)
          · exact spread_ne_nil (mt List.map_eq_nil_iff.mp hne₁) he
          · exact not_nested_nil h
          · exact not_nested_of_nil h
      · exact root_eq_iff_leaves hne₁ hne₂ h₁ h₂ hS
  refine ⟨fun hlen => hiff.trans ⟨?_, fun h => .inl (congrArg Merkle.spread h)⟩, hiff, fun h t ht =>
    h.inputs_nil (bytes_of_root h₁) hS ht⟩
  rintro (he | h | h)
  · exact Merkle.spread_inj (by rw [List.length_map, List.length_map, hlen]) he
  · exact absurd hlen h.length_ne
  · exact absurd hlen.symm h.length_ne

theorem root_doubled (a b c : ConsensusTransaction) : calculateTransactionRoot [a, b, c, c] = calculateTransactionRoot [a, b, c] := by
  simp only [calculateTransactionRoot, List.cons_ne_nil, if_false, List.mapM_cons, List.mapM_nil]
  cases a.txid >>= bytesFromhex with
  | error e => rfl
  | ok x =>
    cases b.txid >>= bytesFromhex with
    | error e => rfl
    | ok y => cases c.txid >>= bytesFromhex <;> rfl

theorem rootStrings_doubled (a b c : ConsensusTransaction) : rootStrings [a, b, c, c] ⊆ rootStrings [a, b, c] := by
  intro bs h
  have hpairs : Merkle.allPairs merkleCombine (txLeaves [a, b, c, c]) = Merkle.allPairs merkleCombine (txLeaves [a, b, c]) := rfl
  simp only [rootStrings, List.cons_ne_nil, if_false, hpairs, List.map_cons, List.map_nil, List.mem_append, List.mem_cons] at h ⊢
  tauto

end

/-- Three transactions: two coinbases and a payment. -/
def threeTransactions : List ConsensusTransaction := [aliceCoinbase (-1) 10, aliceCoinbase (-2) 53, payment]

/-- The same with the last one twice. -/
def fourTransactions : List ConsensusTransaction := [aliceCoinbase (-1) 10, aliceCoinbase (-2) 53, payment, payment]

theorem noCollision_threeTransactions : Sha256.NoCollision (rootStrings threeTransactions ++ rootStrings fourTransactions) := by
  have hn : ((rootStrings threeTransactions).map Sha256.digest).Nodup := by decide +kernel
  have h : Sha256.NoCollision (rootStrings threeTransactions) := fun x hx y hy => List.inj_on_of_nodup_map hn hx hy
  exact h.mono (List.append_subset.mpr ⟨List.Subset.refl _, rootStrings_doubled _ _ _⟩)

theorem root_threeTransactions : ∃ root, calculateTransactionRoot threeTransactions = .ok root := by
  have htxids := txids_sample
  rw [List.map_cons, List.map_cons, List.map_singleton, List.cons.injEq, List.cons.injEq, List.singleton_inj] at htxids
  obtain ⟨ha, hb, hc⟩ := htxids
  have hleaf {t : ConsensusTransaction} {d : Bytes} (h : t.txid = .ok (hexEncode d)) : (t.txid >>= bytesFromhex) = .ok d := by
    rw [h, ok_bind, bytesFromhex, hexDecode_hexEncode]
  obtain ⟨layer, hlayer⟩ : ∃ layer, (threeTransactions.mapM fun t => t.txid >>= bytesFromhex) = .ok layer :=
    ⟨_, mapM_eq_ok.mpr (.cons (hleaf ha) (.cons (hleaf hb) (.cons (hleaf hc) .nil)))⟩
  rw [calculateTransactionRoot, if_neg (show threeTransactions ≠ [] from List.cons_ne_nil _ _), hlayer]
  exact ⟨_, rfl⟩

theorem root_eq_iff_threeTransactions :
    ∃ root₁ root₂, calculateTransactionRoot threeTransactions = .ok root₁ ∧ calculateTransactionRoot fourTransactions = .ok root₂ ∧
      (threeTransactions.length = fourTransactions.length →
        (root₁ = root₂ ↔ threeTransactions.map (·.txid) = fourTransactions.map (·.txid))) ∧
      (root₁ = root₂ ↔ Merkle.spread (threeTransactions.map (·.txid)) = Merkle.spread (fourTransactions.map (·.txid)) ∨
        Nested threeTransactions fourTransactions ∨ Nested fourTransactions threeTransactions) ∧
      (Nested threeTransactions fourTransactions → ∀ t ∈ threeTransactions, t.inputs = [] ∧ (okBytes t.toBytes).length = 64) := by
  obtain ⟨root, h₁⟩ := root_threeTransactions
  have h₂ : calculateTransactionRoot fourTransactions = .ok root := (root_doubled _ _ _).trans h₁
  exact ⟨root, root, h₁, h₂, root_eq_iff _ _ root root h₁ h₂ noCollision_threeTransactions⟩

theorem root_not_injective :
    ∃ root, calculateTransactionRoot threeTransactions = .ok root ∧ calculateTransactionRoot fourTransactions = .ok root ∧
      Sha256.NoCollision (rootStrings threeTransactions ++ rootStrings fourTransactions) ∧
      threeTransactions.length ≠ fourTransactions.length := by
  obtain ⟨root, h₁⟩ := root_threeTransactions
  exact ⟨root, h₁, (root_doubled _ _ _).trans h₁, noCollision_threeTransactions, by decide⟩

end BCC.Proof
