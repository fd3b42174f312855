import BlockchainCoin.Framework.Except

/-!
# Merkle trees that pair an odd node with itself

The layers of a Merkle tree over any type of nodes: `up` combines the nodes of
a layer in pairs, the last node of an odd layer with itself, and `top` repeats
this until one node is left.

Pairing the odd node with itself makes different lists share a top. What still
holds, when `combine` is injective on the pairs of both trees and no leaf is
also an inner node, is that two lists with the same top are equal unless one of
them has a segment directly followed by a copy of itself
(`eq_or_repeats_of_top_eq`). Which lists share a top is said by their leaves with
all the repetitions written out, `spread`: those where it is the same, or where one
list's is that of a layer over the other (`top_eq_iff`).
-/

namespace BCC.Merkle

variable {α : Type}

/-- The layer above: neighbours combined, an odd last node with itself. -/
def up (combine : α → α → α) : List α → List α
  | [] => []
  | [a] => [combine a a]
  | a :: b :: l => combine a b :: up combine l

/-- `while len(layer) > 1`, with at most `fuel` passes. -/
def climb (combine : α → α → α) : Nat → List α → List α
  | 0, l => l
  | fuel + 1, l => if 1 < l.length then climb combine fuel (up combine l) else l

/-- The layers above `l` end in this one; one pass at least halves a layer of two or more nodes, so
the length of `l` is passes enough. -/
def top (combine : α → α → α) (l : List α) : List α := climb combine l.length l

/-! ## Pairs -/

/-- The pairs a layer is combined in. -/
def pairs : List α → List (α × α)
  | [] => []
  | [a] => [(a, a)]
  | a :: b :: l => (a, b) :: pairs l

/-- The pairs of all layers, with at most `fuel` of them. -/
def climbPairs (combine : α → α → α) : Nat → List α → List (α × α)
  | 0, _ => []
  | fuel + 1, l => if 1 < l.length then pairs l ++ climbPairs combine fuel (up combine l) else []

/-- The pairs combined anywhere in the tree over `l`. -/
def allPairs (combine : α → α → α) (l : List α) : List (α × α) := climbPairs combine l.length l

/-- The layer as it is combined, with the odd last node twice. -/
def unpair (ps : List (α × α)) : List α := ps.flatMap fun p => [p.1, p.2]

@[simp] theorem unpair_append (ps qs : List (α × α)) : unpair (ps ++ qs) = unpair ps ++ unpair qs := by
  simp [unpair]

theorem unpair_eq_nil {ps : List (α × α)} : unpair ps = [] ↔ ps = [] := by
  cases ps <;> simp [unpair]

theorem up_eq_map (combine : α → α → α) : ∀ l, up combine l = (pairs l).map fun p => combine p.1 p.2
  | [] => rfl
  | [_] => rfl
  | a :: b :: l => by rw [up, pairs, List.map_cons, up_eq_map combine l]

theorem length_up (combine : α → α → α) : ∀ l, (up combine l).length = (l.length + 1) / 2
  | [] => by simp [up]
  | [_] => by simp [up]
  | a :: b :: l => by
    simp only [up, List.length_cons, length_up combine l]
    omega

/-- A layer is its pairs written out, except that an odd last node is written twice. -/
theorem unpair_pairs : ∀ l : List α,
    unpair (pairs l) = l ∨ ∃ m x, l = m ++ [x] ∧ unpair (pairs l) = m ++ [x, x]
  | [] => .inl rfl
  | [a] => .inr ⟨[], a, rfl, rfl⟩
  | a :: b :: l => by
    have hu : unpair (pairs (a :: b :: l)) = a :: b :: unpair (pairs l) := rfl
    rcases unpair_pairs l with h | ⟨m, x, hl, h⟩
    · exact .inl (by rw [hu, h])
    · exact .inr ⟨a :: b :: m, x, by rw [hl]; rfl, by rw [hu, h]; rfl⟩

theorem fst_mem_of_mem_pairs : ∀ {l : List α} {p : α × α}, p ∈ pairs l → p.1 ∈ l
  | [a], p, h => by
    rw [pairs, List.mem_singleton] at h
    rw [h]
    exact List.mem_cons_self
  | a :: b :: l, p, h => by
    rcases List.mem_cons.mp h with rfl | h
    · exact List.mem_cons_self
    · exact List.mem_cons_of_mem _ (List.mem_cons_of_mem _ (fst_mem_of_mem_pairs h))

theorem snd_mem_of_mem_pairs : ∀ {l : List α} {p : α × α}, p ∈ pairs l → p.2 ∈ l
  | [a], p, h => by
    rw [pairs, List.mem_singleton] at h
    rw [h]
    exact List.mem_cons_self
  | a :: b :: l, p, h => by
    rcases List.mem_cons.mp h with rfl | h
    · exact List.mem_cons_of_mem _ List.mem_cons_self
    · exact List.mem_cons_of_mem _ (List.mem_cons_of_mem _ (snd_mem_of_mem_pairs h))

/-! ## Passes -/

section Passes

variable {combine : α → α → α}

theorem climb_eq : ∀ {f g : Nat} {l : List α}, l.length ≤ f → l.length ≤ g →
    climb combine f l = climb combine g l
  | 0, 0, _, _, _ => rfl
  | 0, g + 1, l, hf, _ => by rw [climb, climb, if_neg (by omega)]
  | f + 1, 0, l, _, hg => by rw [climb, climb, if_neg (by omega)]
  | f + 1, g + 1, l, hf, hg => by
    rw [climb, climb]
    split
    · have hlen := length_up combine l
      exact climb_eq (by omega) (by omega)
    · rfl

theorem climbPairs_eq : ∀ {f g : Nat} {l : List α}, l.length ≤ f → l.length ≤ g →
    climbPairs combine f l = climbPairs combine g l
  | 0, 0, _, _, _ => rfl
  | 0, g + 1, l, hf, _ => by rw [climbPairs, climbPairs, if_neg (by omega)]
  | f + 1, 0, l, _, hg => by rw [climbPairs, climbPairs, if_neg (by omega)]
  | f + 1, g + 1, l, hf, hg => by
    rw [climbPairs, climbPairs]
    split
    · have hlen := length_up combine l
      rw [climbPairs_eq (f := f) (g := g) (by omega) (by omega)]
    · rfl

theorem top_of_length_le_one {l : List α} (h : l.length ≤ 1) : top combine l = l := by
  unfold top
  cases hl : l.length with
  | zero => rfl
  | succ n => rw [climb, if_neg (by omega)]

theorem top_up {l : List α} (h : 1 < l.length) : top combine l = top combine (up combine l) := by
  obtain ⟨n, hn⟩ : ∃ n, l.length = n + 1 := ⟨l.length - 1, by omega⟩
  have hlen := length_up combine l
  rw [top, top, hn, climb, if_pos h]
  exact climb_eq (by omega) (Nat.le_refl _)

theorem allPairs_up (combine : α → α → α) {l : List α} (h : 1 < l.length) :
    allPairs combine l = pairs l ++ allPairs combine (up combine l) := by
  obtain ⟨n, hn⟩ : ∃ n, l.length = n + 1 := ⟨l.length - 1, by omega⟩
  have hlen := length_up combine l
  rw [allPairs, allPairs, hn, climbPairs, if_pos h]
  exact congrArg _ (climbPairs_eq (by omega) (Nat.le_refl _))

/-- The top of a tree of more than one layer is a combined pair. -/
theorem top_of_one_lt_length (combine : α → α → α) {l : List α} (h : 1 < l.length) :
    ∃ p ∈ allPairs combine l, top combine l = [combine p.1 p.2] := by
  have hlen := length_up combine l
  rw [top_up h, allPairs_up combine h]
  by_cases hu : 1 < (up combine l).length
  · obtain ⟨p, hp, ht⟩ := top_of_one_lt_length combine hu
    exact ⟨p, List.mem_append_right _ hp, ht⟩
  · rw [top_of_length_le_one (by omega), up_eq_map]
    rw [up_eq_map, List.length_map] at hu hlen
    obtain ⟨p, hp⟩ := List.length_eq_one_iff.mp (show (pairs l).length = 1 by omega)
    exact ⟨p, by simp [hp], by simp [hp]⟩
termination_by l.length
decreasing_by omega

/-- The first node of every pair above the bottom layer is itself a combined pair. -/
theorem fst_of_mem_allPairs_up {l : List α} (h : 1 < l.length) {q : α × α}
    (hq : q ∈ allPairs combine (up combine l)) : ∃ p ∈ allPairs combine l, q.1 = combine p.1 p.2 := by
  have hlen := length_up combine l
  by_cases hu : 1 < (up combine l).length
  · rw [allPairs_up combine hu] at hq
    rcases List.mem_append.mp hq with hq | hq
    · have hmem := fst_mem_of_mem_pairs hq
      rw [up_eq_map] at hmem
      obtain ⟨p, hp, he⟩ := List.mem_map.mp hmem
      exact ⟨p, by rw [allPairs_up combine h]; exact List.mem_append_left _ hp, he.symm⟩
    · obtain ⟨p, hp, he⟩ := fst_of_mem_allPairs_up hu hq
      exact ⟨p, by rw [allPairs_up combine h]; exact List.mem_append_right _ hp, he⟩
  · have hnil : allPairs combine (up combine l) = [] := by
      rw [allPairs]
      cases hn : (up combine l).length with
      | zero => rfl
      | succ n => rw [climbPairs, if_neg hu]
    rw [hnil] at hq
    cases hq
termination_by l.length
decreasing_by omega

theorem exists_top (combine : α → α → α) {l : List α} (h : l ≠ []) : ∃ a, top combine l = [a] := by
  by_cases hl : 1 < l.length
  · obtain ⟨p, -, ht⟩ := top_of_one_lt_length combine hl
    exact ⟨_, ht⟩
  · have hpos := List.length_pos_iff.mpr h
    obtain ⟨a, ha⟩ := List.length_eq_one_iff.mp (show l.length = 1 by omega)
    exact ⟨a, by rw [top_of_length_le_one (by omega), ha]⟩

/-- What holds of the leaves and of every combined node holds of all nodes that are combined. -/
theorem forall_mem_climbPairs {P : α → Prop} (hc : ∀ a b, P (combine a b)) :
    ∀ {fuel : Nat} {l : List α}, (∀ a ∈ l, P a) → ∀ p ∈ climbPairs combine fuel l, P p.1 ∧ P p.2
  | 0, _, _, _, hp => absurd hp List.not_mem_nil
  | fuel + 1, l, hl, p, hp => by
    rw [climbPairs] at hp
    split at hp
    · rcases List.mem_append.mp hp with hp | hp
      · exact ⟨hl _ (fst_mem_of_mem_pairs hp), hl _ (snd_mem_of_mem_pairs hp)⟩
      · refine forall_mem_climbPairs hc (fun a ha => ?_) p hp
        rw [up_eq_map] at ha
        obtain ⟨q, -, rfl⟩ := List.mem_map.mp ha
        exact hc _ _
    · cases hp

end Passes

/-! ## Lists with one top -/

/-- Some segment of `l` is directly followed by a copy of itself. -/
def Repeats {α : Type} (l : List α) : Prop := ∃ a s b, s ≠ [] ∧ l = a ++ s ++ s ++ b

/-- A repeated segment, by positions. -/
theorem Repeats.positions {l : List α} (h : Repeats l) :
    ∃ p n, 0 < n ∧ p + 2 * n ≤ l.length ∧ ∀ i < n, l[p + i]? = l[p + n + i]? := by
  obtain ⟨a, s, b, hs, rfl⟩ := h
  refine ⟨a.length, s.length, List.length_pos_iff.mpr hs, by simp; omega, fun i hi => ?_⟩
  have h₁ : (a ++ s ++ s ++ b)[a.length + i]? = s[i]? := by
    rw [List.append_assoc, List.append_assoc, List.getElem?_append_right (by omega),
      Nat.add_sub_cancel_left, List.getElem?_append_left hi]
  have h₂ : (a ++ s ++ s ++ b)[a.length + s.length + i]? = s[i]? := by
    rw [List.append_assoc, List.append_assoc, Nat.add_assoc, List.getElem?_append_right (by omega),
      Nat.add_sub_cancel_left, List.getElem?_append_right (by omega), Nat.add_sub_cancel_left,
      List.getElem?_append_left hi]
  rw [h₁, h₂]

theorem eq_or_repeats_of_pairs_eq {l₁ l₂ : List α} (h : pairs l₁ = pairs l₂) :
    l₁ = l₂ ∨ Repeats l₁ ∨ Repeats l₂ := by
  rcases unpair_pairs l₁ with h₁ | ⟨m₁, x₁, hl₁, h₁⟩ <;> rcases unpair_pairs l₂ with h₂ | ⟨m₂, x₂, hl₂, h₂⟩ <;>
    rw [h] at h₁
  · exact .inl (h₁.symm.trans h₂)
  · exact .inr (.inl ⟨m₂, [x₂], [], by simp, by rw [← h₁, h₂]; simp⟩)
  · exact .inr (.inr ⟨m₁, [x₁], [], by simp, by rw [← h₂, h₁]; simp⟩)
  · have he := h₁.symm.trans h₂
    have hm := List.append_inj' he rfl
    rw [List.cons.injEq] at hm
    exact .inl (by rw [hl₁, hl₂, hm.1, hm.2.1])

/-- A copied segment of pairs is a copied segment of the layer; where the copy ends in an odd last
node, that node already stands twice in the segment. -/
theorem Repeats.of_pairs {l : List α} (h : Repeats (pairs l)) : Repeats l := by
  obtain ⟨a, s, b, hs, hp⟩ := h
  rcases unpair_pairs l with hl | ⟨m, x, hl, hu⟩
  · refine ⟨unpair a, unpair s, unpair b, by rwa [ne_eq, unpair_eq_nil], ?_⟩
    rw [← hl, hp]
    simp only [unpair_append]
  · rw [hp] at hu
    simp only [unpair_append] at hu
    rcases List.eq_nil_or_concat b with rfl | ⟨b', ⟨y, z⟩, rfl⟩
    · obtain ⟨s', ⟨y, z⟩, rfl⟩ := (List.eq_nil_or_concat s).resolve_left hs
      have hyz : unpair [(y, z)] = [y, z] := rfl
      simp only [List.concat_eq_append, unpair_append, hyz, unpair_eq_nil.mpr rfl, List.append_nil,
        ← List.append_assoc] at hu
      obtain ⟨hm, he⟩ := List.append_inj' hu rfl
      simp only [List.cons.injEq, and_true] at he
      obtain ⟨rfl, rfl⟩ := he
      exact ⟨unpair a ++ unpair s', [z], unpair s' ++ [z], by simp, by rw [hl, ← hm]; simp⟩
    · have hyz : unpair [(y, z)] = [y, z] := rfl
      simp only [List.concat_eq_append, unpair_append, hyz, ← List.append_assoc] at hu
      obtain ⟨hm, he⟩ := List.append_inj' hu rfl
      simp only [List.cons.injEq, and_true] at he
      obtain ⟨rfl, rfl⟩ := he
      exact ⟨unpair a, unpair s, unpair b' ++ [z], by rwa [ne_eq, unpair_eq_nil], by rw [hl, ← hm]; simp⟩

section Top

variable {combine : α → α → α}

/-- `combine` does not take two of these pairs to one node. -/
def InjOn (combine : α → α → α) (ps qs : List (α × α)) : Prop :=
  ∀ p ∈ ps, ∀ q ∈ qs, combine p.1 p.2 = combine q.1 q.2 → p = q

/-- Lists with one image under `f` have one image under `g`, where `f` tells apart what `g` does. -/
theorem map_eq_of_map_eq {β γ δ : Type} {f : β → γ} {g : β → δ} : ∀ {l₁ l₂ : List β},
    (∀ a ∈ l₁, ∀ b ∈ l₂, f a = f b → g a = g b) → l₁.map f = l₂.map f → l₁.map g = l₂.map g
  | [], [], _, _ => rfl
  | a :: l₁, b :: l₂, h, he => by
    rw [List.map_cons, List.map_cons, List.cons.injEq] at he
    rw [List.map_cons, List.map_cons, h a List.mem_cons_self b List.mem_cons_self he.1,
      map_eq_of_map_eq (fun a ha b hb => h a (List.mem_cons_of_mem _ ha) b (List.mem_cons_of_mem _ hb)) he.2]

theorem InjOn.eq_of_map_eq {ps qs : List (α × α)} (hinj : InjOn combine ps qs)
    (h : (ps.map fun p => combine p.1 p.2) = qs.map fun p => combine p.1 p.2) : ps = qs := by
  simpa using map_eq_of_map_eq (g := id) hinj h

theorem Repeats.of_up {l : List α} (hinj : InjOn combine (pairs l) (pairs l))
    (h : Repeats (up combine l)) : Repeats l := by
  obtain ⟨a, s, b, hs, hp⟩ := h
  rw [up_eq_map] at hp
  obtain ⟨ass, b', hass, hmass, -⟩ := List.map_eq_append_iff.mp hp
  obtain ⟨as, s₂, rfl, hmas, hms₂⟩ := List.map_eq_append_iff.mp hmass
  obtain ⟨a', s₁, rfl, -, hms₁⟩ := List.map_eq_append_iff.mp hmas
  have he : s₁ = s₂ := by
    refine InjOn.eq_of_map_eq (fun p hp q hq => hinj p ?_ q ?_) (hms₁.trans hms₂.symm)
    · rw [hass]; simp [hp]
    · rw [hass]; simp [hq]
  refine Repeats.of_pairs ⟨a', s₁, b', ?_, by rw [hass, he]⟩
  rintro rfl
  exact hs (by simpa using hms₁.symm)

/-- Two lists with one top are equal, or one of them repeats a segment: `combine` is injective on the
pairs of both trees, and no node of either list is an inner node of the other's tree. -/
theorem eq_or_repeats_of_top_eq {l₁ l₂ : List α} (hne₁ : l₁ ≠ []) (hne₂ : l₂ ≠ [])
    (h₁₁ : InjOn combine (allPairs combine l₁) (allPairs combine l₁))
    (h₁₂ : InjOn combine (allPairs combine l₁) (allPairs combine l₂))
    (h₂₂ : InjOn combine (allPairs combine l₂) (allPairs combine l₂))
    (hleaf₁ : ∀ a ∈ l₁, ∀ q ∈ allPairs combine l₂, a ≠ combine q.1 q.2)
    (hleaf₂ : ∀ a ∈ l₂, ∀ q ∈ allPairs combine l₁, a ≠ combine q.1 q.2)
    (htop : top combine l₁ = top combine l₂) : l₁ = l₂ ∨ Repeats l₁ ∨ Repeats l₂ := by
  have hpos₁ := List.length_pos_iff.mpr hne₁
  have hpos₂ := List.length_pos_iff.mpr hne₂
  by_cases hl₁ : 1 < l₁.length
  · by_cases hl₂ : 1 < l₂.length
    · -- Both trees have a layer above: it is the same list, or it repeats a segment.
      have hlen₁ := length_up combine l₁
      have hlen₂ := length_up combine l₂
      have hsub₁ := allPairs_up combine hl₁
      have hsub₂ := allPairs_up combine hl₂
      have hp₁ : ∀ p ∈ pairs l₁, p ∈ allPairs combine l₁ := fun p hp => by rw [hsub₁]; simp [hp]
      have hp₂ : ∀ p ∈ pairs l₂, p ∈ allPairs combine l₂ := fun p hp => by rw [hsub₂]; simp [hp]
      have hu₁ : ∀ p ∈ allPairs combine (up combine l₁), p ∈ allPairs combine l₁ := fun p hp => by
        rw [hsub₁]; simp [hp]
      have hu₂ : ∀ p ∈ allPairs combine (up combine l₂), p ∈ allPairs combine l₂ := fun p hp => by
        rw [hsub₂]; simp [hp]
      have hsep₁ : ∀ a ∈ up combine l₁, ∀ q ∈ allPairs combine (up combine l₂), a ≠ combine q.1 q.2 := by
        intro a ha q hq he
        rw [up_eq_map] at ha
        obtain ⟨p, hp, rfl⟩ := List.mem_map.mp ha
        obtain ⟨r, hr, hqr⟩ := fst_of_mem_allPairs_up hl₂ hq
        rw [← h₁₂ p (hp₁ p hp) q (hu₂ q hq) he] at hqr
        exact hleaf₁ p.1 (fst_mem_of_mem_pairs hp) r hr hqr
      have hsep₂ : ∀ a ∈ up combine l₂, ∀ q ∈ allPairs combine (up combine l₁), a ≠ combine q.1 q.2 := by
        intro a ha q hq he
        rw [up_eq_map] at ha
        obtain ⟨p, hp, rfl⟩ := List.mem_map.mp ha
        obtain ⟨r, hr, hqr⟩ := fst_of_mem_allPairs_up hl₁ hq
        rw [h₁₂ q (hu₁ q hq) p (hp₂ p hp) he.symm] at hqr
        exact hleaf₂ p.1 (fst_mem_of_mem_pairs hp) r hr hqr
      have ih : up combine l₁ = up combine l₂ ∨ Repeats (up combine l₁) ∨ Repeats (up combine l₂) :=
        eq_or_repeats_of_top_eq (List.length_pos_iff.mp (by omega)) (List.length_pos_iff.mp (by omega))
          (fun p hp q hq => h₁₁ p (hu₁ p hp) q (hu₁ q hq)) (fun p hp q hq => h₁₂ p (hu₁ p hp) q (hu₂ q hq))
          (fun p hp q hq => h₂₂ p (hu₂ p hp) q (hu₂ q hq)) hsep₁ hsep₂
          (by rw [← top_up hl₁, ← top_up hl₂, htop])
      rcases ih with he | hr | hr
      · rw [up_eq_map, up_eq_map] at he
        exact eq_or_repeats_of_pairs_eq
          (InjOn.eq_of_map_eq (fun p hp q hq => h₁₂ p (hp₁ p hp) q (hp₂ q hq)) he)
      · exact .inr (.inl (hr.of_up fun p hp q hq => h₁₁ p (hp₁ p hp) q (hp₁ q hq)))
      · exact .inr (.inr (hr.of_up fun p hp q hq => h₂₂ p (hp₂ p hp) q (hp₂ q hq)))
    · -- `l₂` is a leaf and its own top, which is an inner node over `l₁`.
      obtain ⟨q, hq, ht⟩ := top_of_one_lt_length combine hl₁
      rw [ht, top_of_length_le_one (by omega)] at htop
      exact absurd rfl (hleaf₂ _ (by rw [← htop]; simp) q hq)
  · rw [top_of_length_le_one (l := l₁) (by omega)] at htop
    by_cases hl₂ : 1 < l₂.length
    · obtain ⟨q, hq, ht⟩ := top_of_one_lt_length combine hl₂
      exact absurd rfl (hleaf₁ _ (by rw [htop, ht]; simp) q hq)
    · rw [top_of_length_le_one (by omega)] at htop
      exact .inl htop
termination_by l₁.length
decreasing_by omega

end Top

/-! ## Leaves with their repetitions -/

/-- The leaves of the tree over a list from left to right, with at most `fuel` layers above them. -/
def spreadFuel : Nat → {β : Type} → List β → List β
  | 0, _, l => l
  | fuel + 1, _, l => if 1 < l.length then unpair (spreadFuel fuel (pairs l)) else l

/-- The leaves of the tree over a list from left to right: where an odd last node stands twice, what is under it does. -/
def spread {β : Type} (l : List β) : List β := spreadFuel l.length l

theorem length_pairs (l : List α) : (pairs l).length = (l.length + 1) / 2 := by
  rw [← length_up (fun a _ => a) l, up_eq_map, List.length_map]

theorem spreadFuel_eq : ∀ {f g : Nat} {β : Type} {l : List β}, l.length ≤ f → l.length ≤ g →
    spreadFuel f l = spreadFuel g l
  | 0, 0, _, _, _, _ => rfl
  | 0, g + 1, _, l, hf, _ => by rw [spreadFuel, spreadFuel, if_neg (by omega)]
  | f + 1, 0, _, l, _, hg => by rw [spreadFuel, spreadFuel, if_neg (by omega)]
  | f + 1, g + 1, _, l, hf, hg => by
    rw [spreadFuel, spreadFuel]
    split
    · have hlen := length_pairs l
      rw [spreadFuel_eq (f := f) (g := g) (by omega) (by omega)]
    · rfl

theorem spread_of_length_le_one {l : List α} (h : l.length ≤ 1) : spread l = l := by
  rw [spread, spreadFuel_eq (g := 1) le_rfl h, spreadFuel, if_neg (by omega)]

theorem spread_pairs {l : List α} (h : 1 < l.length) : spread l = unpair (spread (pairs l)) := by
  obtain ⟨n, hn⟩ : ∃ n, l.length = n + 1 := ⟨l.length - 1, by omega⟩
  have hlen := length_pairs l
  rw [spread, hn, spreadFuel, if_pos h]
  exact congrArg _ (spreadFuel_eq (by omega) le_rfl)

theorem pairs_map {β : Type} (f : α → β) : ∀ l : List α, pairs (l.map f) = (pairs l).map (Prod.map f f)
  | [] => rfl
  | [_] => rfl
  | a :: b :: l => by rw [List.map_cons, List.map_cons, pairs, pairs_map f l, pairs, List.map_cons]; rfl

theorem unpair_map {β : Type} (f : α → β) (ps : List (α × α)) : unpair (ps.map (Prod.map f f)) = (unpair ps).map f := by
  rw [unpair, List.flatMap_map, unpair, List.map_flatMap]
  rfl

theorem spread_map {α β : Type} (f : α → β) (l : List α) : spread (l.map f) = (spread l).map f := by
  by_cases h : 1 < l.length
  · have hlen := length_pairs l
    rw [spread_pairs (by rwa [List.length_map]), pairs_map, spread_map (Prod.map f f) (pairs l), unpair_map, spread_pairs h]
  · rw [spread_of_length_le_one (by rw [List.length_map]; omega), spread_of_length_le_one (by omega)]
termination_by l.length
decreasing_by omega

theorem mem_spread {α : Type} {l : List α} {a : α} (h : a ∈ spread l) : a ∈ l := by
  by_cases hl : 1 < l.length
  · have hlen := length_pairs l
    rw [spread_pairs hl, unpair, List.mem_flatMap] at h
    obtain ⟨p, hp, ha⟩ := h
    have hmem := mem_spread hp
    rcases List.mem_pair.mp ha with rfl | rfl
    · exact fst_mem_of_mem_pairs hmem
    · exact snd_mem_of_mem_pairs hmem
  · rwa [spread_of_length_le_one (by omega)] at h
termination_by l.length
decreasing_by omega

theorem length_unpair (ps : List (α × α)) : (unpair ps).length = 2 * ps.length := by
  rw [unpair, List.length_flatMap]
  simp only [List.length_cons, List.length_nil, Nat.zero_add, Nat.reduceAdd, List.map_const', List.sum_replicate, smul_eq_mul]
  exact Nat.mul_comm _ _

theorem length_le_length_spread {α : Type} (l : List α) : l.length ≤ (spread l).length := by
  by_cases h : 1 < l.length
  · have hlen := length_pairs l
    have hle := length_le_length_spread (pairs l)
    rw [spread_pairs h, length_unpair]
    omega
  · rw [spread_of_length_le_one (by omega)]
termination_by l.length
decreasing_by omega

theorem exists_mem_pairs : ∀ {l : List α} {a : α}, a ∈ l → ∃ p ∈ pairs l, a ∈ [p.1, p.2]
  | [_], _, h => ⟨_, List.mem_singleton_self _, List.mem_cons.mpr (.inl (List.mem_singleton.mp h))⟩
  | b :: c :: l, a, h => by
    rcases List.mem_cons.mp h with rfl | h
    · exact ⟨_, List.mem_cons_self, List.mem_cons_self⟩
    · rcases List.mem_cons.mp h with rfl | h
      · exact ⟨_, List.mem_cons_self, List.mem_cons_of_mem _ List.mem_cons_self⟩
      · obtain ⟨p, hp, ha⟩ := exists_mem_pairs h
        exact ⟨p, List.mem_cons_of_mem _ hp, ha⟩

theorem subset_spread {α : Type} (l : List α) : l ⊆ spread l := by
  intro a ha
  by_cases h : 1 < l.length
  · have hlen := length_pairs l
    obtain ⟨p, hp, hmem⟩ := exists_mem_pairs ha
    rw [spread_pairs h]
    exact List.mem_flatMap.mpr ⟨p, subset_spread (pairs l) hp, hmem⟩
  · rwa [spread_of_length_le_one (by omega)]
termination_by l.length
decreasing_by omega

/-- How many leaves are written out depends on the length alone. -/
theorem length_spread_congr {α β : Type} {l : List α} {m : List β} (h : l.length = m.length) :
    (spread l).length = (spread m).length := by
  have hunit : l.map (fun _ => ()) = m.map fun _ => () := by rw [List.map_const', List.map_const', h]
  have hspread := congrArg List.length (congrArg spread hunit)
  rwa [spread_map, spread_map, List.length_map, List.length_map] at hspread

theorem unpair_inj : ∀ {ps qs : List (α × α)}, unpair ps = unpair qs → ps = qs
  | [], [], _ => rfl
  | [], _ :: _, h => by cases h
  | _ :: _, [], h => by cases h
  | p :: ps, q :: qs, h => by
    have h : p.1 :: p.2 :: unpair ps = q.1 :: q.2 :: unpair qs := h
    rw [List.cons.injEq, List.cons.injEq] at h
    rw [Prod.ext h.1 h.2.1, unpair_inj h.2.2]

theorem pairs_inj : ∀ {l m : List α}, l.length = m.length → pairs l = pairs m → l = m
  | [], [], _, _ => rfl
  | [a], [b], _, h => by
    rw [pairs, pairs, List.singleton_inj, Prod.mk.injEq] at h
    rw [h.1]
  | a :: b :: l, c :: d :: m, hlen, h => by
    rw [pairs, pairs, List.cons.injEq, Prod.mk.injEq] at h
    rw [h.1.1, h.1.2, pairs_inj (Nat.succ_injective (Nat.succ_injective hlen)) h.2]

/-- Lists of one length are told apart by their written-out leaves. -/
theorem spread_inj {α : Type} {l m : List α} (hlen : l.length = m.length) (h : spread l = spread m) : l = m := by
  by_cases hl : 1 < l.length
  · have hpairs := length_pairs l
    have hm : 1 < m.length := hlen ▸ hl
    rw [spread_pairs hl, spread_pairs hm] at h
    refine pairs_inj hlen (spread_inj ?_ (unpair_inj h))
    rw [length_pairs, length_pairs, hlen]
  · rwa [spread_of_length_le_one (by omega), spread_of_length_le_one (by omega)] at h
termination_by l.length
decreasing_by omega

section Spread

variable {combine : α → α → α}

theorem up_unpair : ∀ ps : List (α × α), up combine (unpair ps) = ps.map fun p => combine p.1 p.2
  | [] => rfl
  | p :: ps => by
    show combine p.1 p.2 :: up combine (unpair ps) = _
    rw [up_unpair ps, List.map_cons]

/-- The written-out leaves lie under the written-out layer above. -/
theorem up_spread {l : List α} (h : 1 < l.length) : up combine (spread l) = spread (up combine l) := by
  rw [spread_pairs h, up_unpair, up_eq_map, spread_map]

/-- The tree over the written-out leaves has the same top. -/
theorem top_spread (combine : α → α → α) (l : List α) : top combine (spread l) = top combine l := by
  by_cases h : 1 < l.length
  · have hlen := length_up combine l
    rw [top_up (h.trans_le (length_le_length_spread l)), up_spread h, top_spread combine (up combine l), ← top_up h]
  · rw [spread_of_length_le_one (by omega)]
termination_by l.length
decreasing_by omega

/-- `m` is the layer above `l`. -/
def Over (combine : α → α → α) (l m : List α) : Prop := 1 < l.length ∧ m = up combine l

theorem top_of_over {l m : List α} (h : Relation.ReflTransGen (Over combine) l m) : top combine m = top combine l := by
  induction h with
  | refl => rfl
  | tail _ hs ih =>
    obtain ⟨hlen, rfl⟩ := hs
    rw [← top_up hlen, ih]

theorem over_top (combine : α → α → α) (l : List α) : Relation.ReflTransGen (Over combine) l (top combine l) := by
  by_cases h : 1 < l.length
  · have hlen := length_up combine l
    rw [top_up h]
    exact .head ⟨h, rfl⟩ (over_top combine (up combine l))
  · rw [top_of_length_le_one (by omega)]
termination_by l.length
decreasing_by omega

/-- A layer over the next layer is the next layer of one over `l`. -/
theorem over_up {l m : List α} (hl : 1 < l.length) (h : Relation.ReflTransGen (Over combine) (up combine l) m) :
    ∃ n, Relation.ReflTransGen (Over combine) l n ∧ 1 < n.length ∧ m = up combine n := by
  rcases Relation.ReflTransGen.cases_tail h with rfl | ⟨n, hn, hlen, rfl⟩
  · exact ⟨l, .refl, hl, rfl⟩
  · exact ⟨n, .head ⟨hl, rfl⟩ hn, hlen, rfl⟩

theorem allPairs_of_over {l m : List α} (h : Relation.ReflTransGen (Over combine) l m) :
    allPairs combine m ⊆ allPairs combine l := by
  induction h with
  | refl => exact List.Subset.refl _
  | tail _ hs ih =>
    obtain ⟨hlen, rfl⟩ := hs
    rw [allPairs_up combine hlen] at ih
    exact fun p hp => ih (List.mem_append_right _ hp)

/-- The nodes of the layers over a list are combined pairs. -/
theorem mem_of_over {l m : List α} (h : Relation.TransGen (Over combine) l m) {a : α} (ha : a ∈ m) :
    ∃ q ∈ allPairs combine l, a = combine q.1 q.2 := by
  obtain ⟨n, hn, hlen, rfl⟩ := Relation.TransGen.tail'_iff.mp h
  rw [up_eq_map] at ha
  obtain ⟨q, hq, rfl⟩ := List.mem_map.mp ha
  refine ⟨q, allPairs_of_over hn ?_, rfl⟩
  rw [allPairs_up combine hlen]
  exact List.mem_append_left _ hq

theorem ne_nil_of_over {l m : List α} (h : Relation.TransGen (Over combine) l m) : m ≠ [] := by
  obtain ⟨n, -, hlen, rfl⟩ := Relation.TransGen.tail'_iff.mp h
  refine List.ne_nil_of_length_pos ?_
  rw [length_up]
  omega

/-- A layer over a list has fewer written-out leaves. -/
theorem length_spread_of_over {l m : List α} (h : Relation.TransGen (Over combine) l m) :
    (spread m).length < (spread l).length := by
  have hstep : ∀ {l m : List α}, Over combine l m → (spread m).length < (spread l).length := by
    rintro l _ ⟨hlen, rfl⟩
    have hle := length_le_length_spread l
    rw [← up_spread hlen, length_up]
    omega
  induction h with
  | single h => exact hstep h
  | tail _ h ih => exact (hstep h).trans ih

/-- Lists whose next layers have the same leaves have, where `combine` tells their pairs apart. -/
theorem spread_eq_of_up {l m : List α} (hl : 1 < l.length) (hm : 1 < m.length)
    (hinj : InjOn combine (allPairs combine l) (allPairs combine m)) (h : spread (up combine l) = spread (up combine m)) :
    spread l = spread m := by
  have hp {l : List α} (hl : 1 < l.length) : ∀ p ∈ spread (pairs l), p ∈ allPairs combine l := fun p hp => by
    rw [allPairs_up combine hl]
    exact List.mem_append_left _ (mem_spread hp)
  rw [up_eq_map, up_eq_map, spread_map, spread_map] at h
  rw [spread_pairs hl, spread_pairs hm,
    InjOn.eq_of_map_eq (fun p hp' q hq' => hinj p (hp hl p hp') q (hp hm q hq')) h]

/-- Which lists share a top: those with the same written-out leaves, and those of which one has the written-out leaves
of a layer over the other. -/
theorem top_eq_iff {l₁ l₂ : List α} (hinj : InjOn combine (allPairs combine l₁) (allPairs combine l₂)) :
    top combine l₁ = top combine l₂ ↔ (∃ m, Relation.ReflTransGen (Over combine) l₂ m ∧ spread l₁ = spread m) ∨
      ∃ m, Relation.ReflTransGen (Over combine) l₁ m ∧ spread m = spread l₂ := by
  constructor
  · intro h
    by_cases h₁ : 1 < l₁.length
    · by_cases h₂ : 1 < l₂.length
      · have hlen₁ := length_up combine l₁
        have hsub₁ : allPairs combine (up combine l₁) ⊆ allPairs combine l₁ :=
          allPairs_of_over (.single ⟨h₁, rfl⟩)
        have hsub₂ : allPairs combine (up combine l₂) ⊆ allPairs combine l₂ :=
          allPairs_of_over (.single ⟨h₂, rfl⟩)
        rw [top_up h₁, top_up h₂] at h
        rcases (top_eq_iff fun p hp q hq => hinj p (hsub₁ hp) q (hsub₂ hq)).mp h with ⟨m, hm, he⟩ | ⟨m, hm, he⟩
        · obtain ⟨n, hn, hlen, rfl⟩ := over_up h₂ hm
          exact .inl ⟨n, hn, spread_eq_of_up h₁ hlen (fun p hp q hq => hinj p hp q (allPairs_of_over hn hq)) he⟩
        · obtain ⟨n, hn, hlen, rfl⟩ := over_up h₁ hm
          exact .inr ⟨n, hn, spread_eq_of_up hlen h₂ (fun p hp q hq => hinj p (allPairs_of_over hn hp) q hq) he⟩
      · rw [top_of_length_le_one (l := l₂) (by omega)] at h
        exact .inr ⟨_, over_top combine l₁, by rw [h]⟩
    · rw [top_of_length_le_one (l := l₁) (by omega)] at h
      exact .inl ⟨_, over_top combine l₂, by rw [← h]⟩
  · rintro (⟨m, hm, he⟩ | ⟨m, hm, he⟩)
    · rw [← top_spread combine l₁, he, top_spread, top_of_over hm]
    · rw [← top_of_over hm, ← top_spread combine m, he, top_spread]
termination_by l₁.length
decreasing_by omega

end Spread

end BCC.Merkle
