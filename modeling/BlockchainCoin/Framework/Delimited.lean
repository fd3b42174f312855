import BlockchainCoin.Framework.Except

/-!
# Texts that are read in one way

`Delimited f S E` says that a text `f a ++ r`, for an `a` with `S` and a rest `r`
with `E`, determines both `a` and `r`. Texts made of the characters of one class
are delimited by any other character (`Delimited.of_class`); fixed texts may be
put around a delimited one, delimited texts one after the other, and into a list
with separators.
-/

namespace BCC

variable {α β χ : Type}

/-- `f a ++ r` determines `a` and `r`. -/
def Delimited (f : α → List χ) (S : α → Prop) (E : List χ → Prop) : Prop :=
  ∀ ⦃a b : α⦄ ⦃r r' : List χ⦄, S a → S b → E r → E r' → f a ++ r = f b ++ r' → a = b ∧ r = r'

/-- The rest does not begin with a character of the class `p`. -/
def BeginsOutside (p : χ → Bool) (r : List χ) : Prop := ∀ c ∈ r.head?, p c = false

/-- Anything may follow. -/
def Anything (_ : List χ) : Prop := True

namespace Delimited

variable {f : α → List χ} {g : β → List χ} {S : α → Prop} {S' : β → Prop} {E E' : List χ → Prop}

theorem takeWhile_eq {p : χ → Bool} {s r : List χ} (hs : ∀ c ∈ s, p c = true) (hr : BeginsOutside p r) :
    (s ++ r).takeWhile p = s := by
  rw [List.takeWhile_append_of_pos hs]
  cases r with
  | nil => simp
  | cons c r => rw [List.takeWhile_cons_of_neg (by simp [hr c rfl]), List.append_nil]

theorem of_class {p : χ → Bool} (hp : ∀ a, S a → ∀ c ∈ f a, p c = true)
    (hinj : ∀ a b, S a → S b → f a = f b → a = b) : Delimited f S (BeginsOutside p) :=
  fun a b r r' ha hb hr hr' h => by
    have hab : f a = f b := by rw [← takeWhile_eq (hp a ha) hr, h, takeWhile_eq (hp b hb) hr']
    rw [hab] at h
    exact ⟨hinj a b ha hb hab, List.append_cancel_left h⟩

theorem comp {h : β → α} (hf : Delimited f S E) (hh : Function.Injective h) :
    Delimited (fun b => f (h b)) (fun b => S (h b)) E :=
  fun a b r r' ha hb hr hr' he => by
    obtain ⟨hab, hr⟩ := hf ha hb hr hr' he
    exact ⟨hh hab, hr⟩

theorem const_append (k : List χ) (h : Delimited f S E) : Delimited (fun a => k ++ f a) S E :=
  fun a b r r' ha hb hr hr' he => by
    simp only [List.append_assoc] at he
    exact h ha hb hr hr' (List.append_cancel_left he)

theorem append_const (k : List χ) (h : Delimited f S E) (hk : ∀ r, E (k ++ r)) :
    Delimited (fun a => f a ++ k) S Anything :=
  fun a b r r' ha hb _ _ he => by
    simp only [List.append_assoc] at he
    obtain ⟨hab, hr⟩ := h ha hb (hk r) (hk r') he
    exact ⟨hab, List.append_cancel_left hr⟩

theorem append (hf : Delimited f S E) (hg : Delimited g S' E') (hE : ∀ b r, S' b → E' r → E (g b ++ r)) :
    Delimited (fun p : α × β => f p.1 ++ g p.2) (fun p => S p.1 ∧ S' p.2) E' :=
  fun p q r r' hp hq hr hr' he => by
    simp only [List.append_assoc] at he
    obtain ⟨h₁, he⟩ := hf hp.1 hq.1 (hE _ _ hp.2 hr) (hE _ _ hq.2 hr') he
    obtain ⟨h₂, he⟩ := hg hp.2 hq.2 hr hr' he
    exact ⟨Prod.ext h₁ h₂, he⟩

theorem intercalate_cons (sep : χ) (x : List χ) (xs : List (List χ)) :
    List.intercalate [sep] (x :: xs) = x ++ xs.flatMap (sep :: ·) := by
  induction xs generalizing x with
  | nil => simp
  | cons y ys ih => rw [List.intercalate_cons_cons, ih, List.flatMap_cons]; simp

section List

variable {sep stop : χ} (hf : Delimited f S Anything) (hsep : sep ≠ stop)
include hf hsep

theorem tail_inj : ∀ {as bs : List α} {r r' : List χ}, (∀ a ∈ as, S a) → (∀ b ∈ bs, S b) →
    (as.map f).flatMap (sep :: ·) ++ stop :: r = (bs.map f).flatMap (sep :: ·) ++ stop :: r' → as = bs ∧ r = r'
  | [], [], r, r', _, _, h => ⟨rfl, by simpa using h⟩
  | [], b :: bs, r, r', _, _, h => absurd (by simpa using congrArg List.head? h) hsep.symm
  | a :: as, [], r, r', _, _, h => absurd (by simpa using congrArg List.head? h) hsep
  | a :: as, b :: bs, r, r', ha, hb, h => by
    simp only [List.map_cons, List.flatMap_cons, List.append_assoc, List.cons_append, List.cons.injEq, true_and] at h
    obtain ⟨hab, h⟩ := hf (ha a List.mem_cons_self) (hb b List.mem_cons_self) trivial trivial h
    obtain ⟨htl, h⟩ := tail_inj (fun c hc => ha c (List.mem_cons_of_mem _ hc))
      (fun c hc => hb c (List.mem_cons_of_mem _ hc)) h
    exact ⟨by rw [hab, htl], h⟩

/-- The items of a list, with a separator between them and a mark after the last that begins no item. -/
theorem list (hstop : ∀ a r, S a → (f a ++ r).head? ≠ some stop) :
    Delimited (fun as : List α => List.intercalate [sep] (as.map f) ++ [stop]) (fun as => ∀ a ∈ as, S a) Anything :=
  fun as bs r r' ha hb _ _ h => by
    simp only [List.append_assoc, List.singleton_append] at h
    cases as with
    | nil =>
      cases bs with
      | nil => exact ⟨rfl, by simpa using h⟩
      | cons b bs =>
        rw [List.map_cons, intercalate_cons, List.append_assoc] at h
        exact absurd (by rw [← h]; rfl) (hstop b _ (hb b List.mem_cons_self))
    | cons a as =>
      rw [List.map_cons, intercalate_cons, List.append_assoc] at h
      cases bs with
      | nil => exact absurd (by rw [h]; rfl) (hstop a _ (ha a List.mem_cons_self))
      | cons b bs =>
        rw [List.map_cons, intercalate_cons, List.append_assoc] at h
        obtain ⟨hab, h⟩ := hf (ha a List.mem_cons_self) (hb b List.mem_cons_self) trivial trivial h
        obtain ⟨htl, h⟩ := tail_inj hf hsep (fun c hc => ha c (List.mem_cons_of_mem _ hc))
          (fun c hc => hb c (List.mem_cons_of_mem _ hc)) h
        exact ⟨by rw [hab, htl], h⟩

end List

end Delimited

end BCC
