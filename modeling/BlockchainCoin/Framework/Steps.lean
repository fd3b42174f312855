import BlockchainCoin.Framework.Except

/-!
# Methods as sequences of steps

`x.EndsBy R s₀ s Q` says that a call from `s`, a state that steps of `R` have led to from
`s₀`, does nothing to its object but more of these steps, whether it returns or raises. A
method is taken apart into its steps once, by the rules below; what the steps keep,
every call then keeps. `Metered.paid` is the potential method for runs of steps that cost
something.
-/

namespace BCC.Method

variable {σ τ ε α β : Type} {R : σ → σ → Prop}

theorem Ends.get {s : σ} {Q : σ → σ → Prop} {S : ε → σ → Prop} (h : Q s s) :
    Ends (MonadState.get : Method σ ε σ) s Q S := h

theorem Ends.and {x : Method σ ε α} {s : σ} {Q Q' : α → σ → Prop} {S S' : ε → σ → Prop} (h : Ends x s Q S)
    (h' : Ends x s Q' S') : Ends x s (fun a s' => Q a s' ∧ Q' a s') fun e s' => S e s' ∧ S' e s' := by
  rw [Ends] at h h' ⊢
  rcases hx : x.call s with ⟨_ | _, _⟩
  · rw [hx] at h h'
    exact ⟨h, h'⟩
  · rw [hx] at h h'
    exact ⟨h, h'⟩

theorem Ends.of_snd {x : Method σ ε α} {s : σ} {P : σ → Prop} (h : P (x.call s).2) :
    Ends x s (fun _ => P) fun _ => P := by
  rw [Ends]
  rcases hx : x.call s with ⟨_ | _, _⟩
  · rw [hx] at h
    exact h
  · rw [hx] at h
    exact h

/-- A call that does not return. -/
theorem Ends.raises {x : Method σ ε α} {s : σ} {S : ε → σ → Prop} (h : Ends x s (fun _ _ => False) S) :
    ∃ e s', x.call s = (.error e, s') ∧ S e s' := by
  rw [Ends] at h
  rcases hx : x.call s with ⟨e | _, s'⟩
  · rw [hx] at h
    exact ⟨e, s', rfl, h⟩
  · rw [hx] at h
    exact h.elim

/-- A call that does not raise. -/
theorem Ends.returns {x : Method σ ε α} {s : σ} {Q : α → σ → Prop} (h : Ends x s Q fun _ _ => False) :
    ∃ a s', x.call s = (.ok a, s') ∧ Q a s' := by
  rw [Ends] at h
  rcases hx : x.call s with ⟨_ | a, s'⟩
  · rw [hx] at h
    exact h.elim
  · rw [hx] at h
    exact ⟨a, s', rfl, h⟩

/-- A call that ends in a state steps lead to from `s₀`, with `Q` when it returns. -/
def EndsBy (R : σ → σ → Prop) (s₀ : σ) (x : Method σ ε α) (s : σ) (Q : α → σ → Prop) : Prop :=
  Ends x s (fun a s' => Relation.ReflTransGen R s₀ s' ∧ Q a s') fun _ s' => Relation.ReflTransGen R s₀ s'

namespace EndsBy

variable {s₀ s : σ} {Q : α → σ → Prop}

theorem pure {a : α} (hs : Relation.ReflTransGen R s₀ s) (h : Q a s) :
    EndsBy R s₀ (Pure.pure a : Method σ ε α) s Q := ⟨hs, h⟩

theorem throw {e : ε} (hs : Relation.ReflTransGen R s₀ s) : EndsBy R s₀ (MonadExcept.throw e : Method σ ε α) s Q := hs

theorem bind {x : Method σ ε β} {f : β → Method σ ε α} {P : β → σ → Prop} (hx : EndsBy R s₀ x s P)
    (hf : ∀ b s', Relation.ReflTransGen R s₀ s' → P b s' → EndsBy R s₀ (f b) s' Q) : EndsBy R s₀ (x >>= f) s Q :=
  Ends.bind (Ends.mono hx (fun b s' h => hf b s' h.1 h.2) fun _ _ h => h)

/-- What follows a computation that reads the object. -/
theorem bind_reading {f : σ → Except ε β} {g : β → Method σ ε α} (hs : Relation.ReflTransGen R s₀ s)
    (h : ∀ b, f s = .ok b → EndsBy R s₀ (g b) s Q) : EndsBy R s₀ (Method.reading f >>= g) s Q :=
  Ends.bind (Ends.reading h fun _ _ => hs)

theorem bind_get {g : σ → Method σ ε α} (h : EndsBy R s₀ (g s) s Q) : EndsBy R s₀ (MonadState.get >>= g) s Q :=
  Ends.bind (Ends.get h)

/-- An assignment may lead to a state that is no step away, as long as what follows does. -/
theorem bind_modify {f : σ → σ} {g : Unit → Method σ ε α} (h : EndsBy R s₀ (g ()) (f s) Q) :
    EndsBy R s₀ (MonadStateOf.modifyGet (fun s => ((), f s)) >>= g) s Q :=
  Ends.bind (Ends.modify h)

theorem mono {x : Method σ ε α} {Q' : α → σ → Prop} (h : EndsBy R s₀ x s Q) (hQ : ∀ a s', Q a s' → Q' a s') :
    EndsBy R s₀ x s Q' :=
  Ends.mono h (fun a s' h => ⟨h.1, hQ a s' h.2⟩) fun _ _ h => h

theorem snd {x : Method σ ε α} (h : EndsBy R s₀ x s Q) : Relation.ReflTransGen R s₀ (x.call s).2 :=
  Ends.snd (Ends.mono h (fun _ _ h => h.1) fun _ _ h => h)

theorem of_return {x : Method σ ε α} (h : EndsBy R s₀ x s Q) {a : α} {s' : σ} (hx : x.call s = (.ok a, s')) : Q a s' :=
  (Ends.of_return h hx).2

end EndsBy

end BCC.Method

namespace BCC

/-! ## Steps that cost -/

variable {σ : Type} {R : σ → Nat → Nat → σ → Prop}

/-- A run of steps `R s cost intake s'`, with what its steps cost and take in together. -/
inductive Metered (R : σ → Nat → Nat → σ → Prop) : σ → Nat → Nat → σ → Prop
  | nil (s : σ) : Metered R s 0 0 s
  | cons {s s₁ s₂ : σ} {cost intake cost' intake' : Nat} (h : R s cost intake s₁)
    (hrest : Metered R s₁ cost' intake' s₂) : Metered R s (cost + cost') (intake + intake') s₂

/-- A potential that pays for every step, out of what it has and what the step takes in, pays for every run. -/
theorem Metered.paid {I : σ → Prop} {φ : σ → Nat}
    (hstep : ∀ {s s' cost intake}, I s → R s cost intake s' → I s' ∧ cost + φ s' ≤ φ s + intake)
    {s s' : σ} {cost intake : Nat} (hs : I s) (h : Metered R s cost intake s') : I s' ∧ cost + φ s' ≤ φ s + intake := by
  induction h with
  | nil s => exact ⟨hs, by omega⟩
  | cons h _ ih =>
    obtain ⟨hI, hpay⟩ := hstep hs h
    obtain ⟨hend, hrest⟩ := ih hI
    exact ⟨hend, by omega⟩

end BCC
