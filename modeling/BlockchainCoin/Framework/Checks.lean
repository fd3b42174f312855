import BlockchainCoin.Framework.Except

/-!
# Loops of checks

A loop over a list comes to an element when those before it have passed (`Reached`),
and raises what the elements it comes to raise.
-/

namespace BCC

variable {ε α β : Type} {P : ε → Prop}

/-- An element that a loop over the list comes to: those before it pass. -/
def Reached (passes : α → Prop) (l : List α) (a : α) : Prop := ∃ before after, l = before ++ a :: after ∧ ∀ b ∈ before, passes b

theorem not_reached_nil {passes : α → Prop} {a : α} : ¬ Reached passes [] a := by
  rintro ⟨before, after, h, -⟩
  cases before <;> cases h

theorem reached_cons {passes : α → Prop} {b : α} {l : List α} {a : α} :
    Reached passes (b :: l) a ↔ a = b ∨ passes b ∧ Reached passes l a := by
  constructor
  · rintro ⟨before, after, h, hb⟩
    cases before with
    | nil =>
      rw [List.nil_append, List.cons.injEq] at h
      exact .inl h.1.symm
    | cons c before =>
      rw [List.cons_append, List.cons.injEq] at h
      rw [List.forall_mem_cons] at hb
      exact .inr ⟨h.1 ▸ hb.1, before, after, h.2, hb.2⟩
  · rintro (rfl | ⟨hb, before, after, rfl, hbefore⟩)
    · exact ⟨[], l, rfl, nofun⟩
    · exact ⟨b :: before, after, rfl, List.forall_mem_cons.mpr ⟨hb, hbefore⟩⟩

theorem forall_reached_cons {passes Q : α → Prop} {b : α} {l : List α} :
    (∀ a, Reached passes (b :: l) a → Q a) ↔ Q b ∧ (passes b → ∀ a, Reached passes l a → Q a) := by
  constructor
  · intro h
    exact ⟨h b (reached_cons.mpr (.inl rfl)), fun hb a ha => h a (reached_cons.mpr (.inr ⟨hb, ha⟩))⟩
  · rintro ⟨hb, hl⟩ a ha
    rcases reached_cons.mp ha with rfl | ⟨hpass, ha⟩
    · exact hb
    · exact hl hpass a ha

theorem mem_of_mapM_eq_ok {f : α → Except ε β} {l : List α} {bs : List β} (h : l.mapM f = .ok bs) :
    ∀ b ∈ bs, ∃ a, f a = .ok b := by
  replace h := mapM_eq_ok.mp h
  induction h with
  | nil => exact nofun
  | cons hb _ ih => exact List.forall_mem_cons.mpr ⟨⟨_, hb⟩, ih⟩

namespace Raises

theorem ite {c : Prop} {_ : Decidable c} {x y : Except ε α} (hx : Raises P x) (hy : Raises P y) :
    Raises P (if c then x else y) := by
  split
  · exact hx
  · exact hy

theorem forM_iff {f : α → Except ε Unit} : ∀ {l : List α},
    Raises P (l.forM f) ↔ ∀ a, Reached (fun a => f a = .ok ()) l a → Raises P (f a)
  | [] => ⟨fun _ _ h => absurd h not_reached_nil, fun _ => pure ()⟩
  | b :: l => by
    rw [List.forM_eq_forM, List.forM_cons, bind_iff, forall_reached_cons, ← List.forM_eq_forM]
    exact and_congr_right fun _ => ⟨fun h hb => forM_iff.mp (h () hb), fun h _ hb => forM_iff.mpr (h hb)⟩

theorem mapM_iff {f : α → Except ε β} : ∀ {l : List α},
    Raises P (l.mapM f) ↔ ∀ a, Reached (fun a => ∃ b, f a = .ok b) l a → Raises P (f a)
  | [] => by
    rw [List.mapM_nil]
    exact ⟨fun _ _ h => absurd h not_reached_nil, fun _ => pure []⟩
  | b :: l => by
    rw [List.mapM_cons, bind_iff, forall_reached_cons]
    refine and_congr_right fun _ => ⟨?_, fun h c hc => bind_iff.mpr ⟨mapM_iff.mpr (h ⟨c, hc⟩), fun _ _ => pure _⟩⟩
    rintro h ⟨c, hc⟩
    exact mapM_iff.mp (bind_iff.mp (h c hc)).1

/-- The exceptions of a computation whose exceptions in `p` are caught. -/
theorem catchAs_iff {x : Except ε α} {p : ε → Bool} {e' : ε} (he' : P e') (hp : ∀ e, P e → p e = true) :
    Raises P (catchAs x p e') ↔ Raises (p · = true) x := by
  cases x with
  | ok a => exact ⟨fun _ => ok a, fun _ => ok a⟩
  | error e =>
    have hcatch : catchAs (.error e : Except ε α) p e' = if p e then .error e' else .error e := rfl
    rw [hcatch]
    cases he : p e with
    | true => exact ⟨fun _ => error he, fun _ => error he'⟩
    | false =>
      refine ⟨fun h => error (hp e (h e rfl)), fun h => ?_⟩
      have hpe : p e = true := h e rfl
      rw [he] at hpe
      cases hpe

end Raises

end BCC
