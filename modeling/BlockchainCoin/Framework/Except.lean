import Mathlib

/-!
# Exceptions and object state

A function that may raise is an `Except ε α`. A method that may raise after
it has assigned to its object is a `Method σ ε α`: it gives its result or the
exception, and the object as the call leaves it in both cases, so that what
was assigned before an exception stays assigned.

`bind_eq_ok` and `raiseIf_eq_ok` take a computation that returned apart, and
the `call_` lemmas say what each statement of a method does to the object.
-/

namespace BCC

/-! ## Raising -/

section Raising

variable {ε α β : Type}

/-- `if c: raise e`. -/
def raiseIf (c : Prop) [Decidable c] (e : ε) : Except ε Unit := if c then .error e else .ok ()

@[simp] theorem raiseIf_eq_ok {c : Prop} [Decidable c] {e : ε} {u : Unit} :
    raiseIf c e = .ok u ↔ ¬ c := by
  unfold raiseIf; split <;> simp_all

theorem raiseIf_of_not {c : Prop} [Decidable c] {e : ε} (h : ¬ c) : raiseIf c e = .ok () := by
  simp [raiseIf, h]

theorem raiseIf_of {c : Prop} [Decidable c] {e : ε} (h : c) : raiseIf c e = .error e := by
  simp [raiseIf, h]

theorem bind_eq_ok {x : Except ε α} {f : α → Except ε β} {b : β} :
    (x >>= f) = .ok b ↔ ∃ a, x = .ok a ∧ f a = .ok b := by
  cases x <;> simp [bind, Except.bind]

/-- The result of a check carries nothing. -/
theorem exists_unit {p : Unit → Prop} : (∃ u, p u) ↔ p () := ⟨fun ⟨(), h⟩ => h, fun h => ⟨(), h⟩⟩

theorem bind_eq_error {x : Except ε α} {f : α → Except ε β} {e : ε} :
    (x >>= f) = .error e ↔ x = .error e ∨ ∃ a, x = .ok a ∧ f a = .error e := by
  cases x <;> simp [bind, Except.bind]

theorem map_eq_ok {x : Except ε α} {f : α → β} {b : β} :
    (f <$> x) = .ok b ↔ ∃ a, x = .ok a ∧ f a = b := by
  cases x <;> simp [Functor.map, Except.map]

@[simp] theorem pure_eq_ok {a b : α} : (pure a : Except ε α) = .ok b ↔ a = b := by
  simp [pure, Except.pure]

@[simp] theorem ok_bind (a : α) (f : α → Except ε β) : ((.ok a : Except ε α) >>= f) = f a := rfl

@[simp] theorem error_bind (e : ε) (f : α → Except ε β) :
    ((.error e : Except ε α) >>= f) = .error e := rfl

theorem exists_of_isOk {x : Except ε α} (h : x.isOk = true) : ∃ a, x = .ok a := by
  cases x with
  | ok a => exact ⟨a, rfl⟩
  | error e => cases h

/-- An exception of another class, raised in place of the one caught. -/
def catchAs (x : Except ε α) (p : ε → Bool) (e' : ε) : Except ε α :=
  match x with
  | .ok a => .ok a
  | .error e => if p e then .error e' else .error e

@[simp] theorem catchAs_ok (a : α) (p : ε → Bool) (e' : ε) : catchAs (.ok a) p e' = .ok a := rfl

@[simp] theorem catchAs_eq_ok {x : Except ε α} {p : ε → Bool} {e' : ε} {a : α} :
    catchAs x p e' = .ok a ↔ x = .ok a := by
  unfold catchAs
  cases x with
  | ok b => simp
  | error e => by_cases h : p e <;> simp [h]

/-- A loop of checks passes when each of them does. -/
theorem forM_eq_ok {f : α → Except ε Unit} : ∀ {l : List α}, l.forM f = .ok () ↔ ∀ a ∈ l, f a = .ok ()
  | [] => by simp [List.forM_eq_forM, pure, Except.pure]
  | a :: l => by
    rw [List.forM_eq_forM, List.forM_cons, bind_eq_ok, exists_unit, ← List.forM_eq_forM, forM_eq_ok,
      List.forall_mem_cons]

/-- `mapM` returns when every element's computation does, with their results in order. -/
theorem mapM_eq_ok {f : α → Except ε β} : ∀ {l : List α} {bs : List β},
    l.mapM f = .ok bs ↔ List.Forall₂ (fun a b => f a = .ok b) l bs
  | [], bs => by
    rw [List.mapM_nil, pure_eq_ok, List.forall₂_nil_left_iff, eq_comm]
  | a :: l, bs => by
    rw [List.mapM_cons, bind_eq_ok]
    constructor
    · rintro ⟨b, hb, h⟩
      obtain ⟨bs', hbs, h⟩ := bind_eq_ok.mp h
      rw [pure_eq_ok] at h
      subst h
      exact .cons hb (mapM_eq_ok.mp hbs)
    · intro h
      cases h with
      | cons hb hl => exact ⟨_, hb, bind_eq_ok.mpr ⟨_, mapM_eq_ok.mpr hl, rfl⟩⟩

/-- Where a result is a function of the element it comes from, `mapM` is `map`. -/
theorem map_of_mapM_eq_ok {f : α → Except ε β} {g : α → β} {P : α → Prop}
    (hf : ∀ {a b}, f a = .ok b → P a ∧ b = g a) {l : List α} {bs : List β} (h : l.mapM f = .ok bs) :
    (∀ a ∈ l, P a) ∧ bs = l.map g := by
  replace h := mapM_eq_ok.mp h
  induction h with
  | nil => exact ⟨fun a ha => absurd ha List.not_mem_nil, rfl⟩
  | cons ha _ ih =>
    obtain ⟨hP, rfl⟩ := hf ha
    exact ⟨List.forall_mem_cons.mpr ⟨hP, ih.1⟩, by rw [List.map_cons, ← ih.2]⟩

/-- Every exception of the computation satisfies `P`. -/
def Raises (P : ε → Prop) (x : Except ε α) : Prop := ∀ e, x = .error e → P e

namespace Raises

variable {P : ε → Prop}

theorem ok (a : α) : Raises P (.ok a) := fun _ h => by cases h

theorem pure (a : α) : Raises P (Pure.pure a : Except ε α) := ok a

theorem error {e : ε} (h : P e) : Raises P (.error e : Except ε α) := fun _ he => by cases he; exact h

theorem throw {e : ε} (h : P e) : Raises P (MonadExcept.throw e : Except ε α) := error h

theorem raiseIf {c : Prop} {_ : Decidable c} {e : ε} (h : P e) : Raises P (BCC.raiseIf c e) := by
  unfold BCC.raiseIf
  split
  · exact error h
  · exact ok ()

theorem bind {x : Except ε α} {f : α → Except ε β} (hx : Raises P x) (hf : ∀ a, Raises P (f a)) :
    Raises P (x >>= f) := fun e he => by
  rcases bind_eq_error.mp he with he | ⟨a, -, he⟩
  · exact hx e he
  · exact hf a e he

/-- The exceptions of a sequence are those of its first part and, where that returns, of the rest. -/
theorem bind_iff {x : Except ε α} {f : α → Except ε β} :
    Raises P (x >>= f) ↔ Raises P x ∧ ∀ a, x = .ok a → Raises P (f a) := by
  constructor
  · intro h
    exact ⟨fun e he => h e (bind_eq_error.mpr (.inl he)), fun a ha e he => h e (bind_eq_error.mpr (.inr ⟨a, ha, he⟩))⟩
  · rintro ⟨hx, hf⟩ e he
    rcases bind_eq_error.mp he with he | ⟨a, ha, he⟩
    · exact hx e he
    · exact hf a ha e he

/-- A computation none of whose exceptions satisfies `P` has to return. -/
theorem iff_returns {Q : ε → Prop} {x : Except ε α} (hx : Raises Q x) (hPQ : ∀ e, Q e → ¬ P e) :
    Raises P x ↔ ∃ a, x = .ok a := by
  constructor
  · intro h
    cases hr : x with
    | ok a => exact ⟨a, rfl⟩
    | error e => exact absurd (h e hr) (hPQ e (hx e hr))
  · rintro ⟨a, rfl⟩
    exact ok a

theorem map {x : Except ε α} (f : α → β) (hx : Raises P x) : Raises P (f <$> x) := fun e he => by
  cases x with
  | ok a => cases he
  | error e' => cases he; exact hx _ rfl

theorem mapM {f : α → Except ε β} (hf : ∀ a, Raises P (f a)) : ∀ l : List α, Raises P (l.mapM f)
  | [] => by rw [List.mapM_nil]; exact pure []
  | a :: l => by
    rw [List.mapM_cons]
    exact bind (hf a) fun b => bind (mapM hf l) fun bs => pure (b :: bs)

theorem forM {f : α → Except ε Unit} (hf : ∀ a, Raises P (f a)) : ∀ l : List α, Raises P (l.forM f)
  | [] => pure ()
  | a :: l => by
    rw [List.forM_eq_forM, List.forM_cons]
    exact bind (hf a) fun _ => forM hf l

theorem mono {Q : ε → Prop} {x : Except ε α} (h : Raises P x) (hPQ : ∀ e, P e → Q e) : Raises Q x :=
  fun e he => hPQ e (h e he)

end Raises

end Raising

/-! ## Methods -/

/-- A method of an object of state `σ`. -/
def Method (σ ε α : Type) : Type := σ → Except ε α × σ

namespace Method

variable {σ ε α β : Type}

instance : Monad (Method σ ε) where
  pure a := fun s => (.ok a, s)
  bind x f := fun s => match x s with
    | (.ok a, s') => f a s'
    | (.error e, s') => (.error e, s')

instance : MonadExceptOf ε (Method σ ε) where
  throw e := fun s => (.error e, s)
  tryCatch x h := fun s => match x s with
    | (.ok a, s') => (.ok a, s')
    | (.error e, s') => h e s'

instance : MonadStateOf σ (Method σ ε) where
  get := fun s => (.ok s, s)
  set s' := fun _ => (.ok (), s')
  modifyGet f := fun s => (.ok (f s).1, (f s).2)

/-- Calling a method: its result or exception, and the object afterwards. -/
def call (x : Method σ ε α) (s : σ) : Except ε α × σ := x s

/-- A call on an object that is dropped when the call raises. -/
def onLocal (x : Method σ ε α) (s : σ) : Except ε (α × σ) :=
  match x.call s with
  | (.ok a, s') => .ok (a, s')
  | (.error e, _) => .error e

theorem onLocal_eq_ok {x : Method σ ε α} {s s' : σ} {a : α} :
    x.onLocal s = .ok (a, s') ↔ x.call s = (.ok a, s') := by
  unfold onLocal
  rcases x.call s with ⟨_ | _, _⟩ <;> simp

/-- A computation that reads the object and leaves it as it is. -/
def reading (f : σ → Except ε α) : Method σ ε α := fun s => (f s, s)

/-- An assignment to the object that is not reached when its right-hand side raises. -/
def assigning (f : σ → Except ε (α × σ)) : Method σ ε α := fun s =>
  match f s with
  | .ok (a, s') => (.ok a, s')
  | .error e => (.error e, s)

/-- A method of a part of the object. -/
def onPart {τ : Type} (part : σ → τ) (put : τ → σ → σ) (x : Method τ ε α) : Method σ ε α := fun s =>
  ((x.call (part s)).1, put (x.call (part s)).2 s)

@[simp] theorem call_pure (a : α) (s : σ) : (pure a : Method σ ε α).call s = (.ok a, s) := rfl

@[simp] theorem call_throw (e : ε) (s : σ) :
    (throw e : Method σ ε α).call s = (.error e, s) := rfl

@[simp] theorem call_reading (f : σ → Except ε α) (s : σ) : (reading f).call s = (f s, s) := rfl

theorem call_reading_eq_ok {f : σ → Except ε α} {s s' : σ} {a : α} :
    (reading f).call s = (.ok a, s') ↔ f s = .ok a ∧ s' = s := by
  rw [call_reading, Prod.mk.injEq]
  exact and_congr_right fun _ => eq_comm

@[simp] theorem call_onPart {τ : Type} (part : σ → τ) (put : τ → σ → σ) (x : Method τ ε α) (s : σ) :
    (onPart part put x).call s = ((x.call (part s)).1, put (x.call (part s)).2 s) := rfl

@[simp] theorem call_modify (f : σ → σ) (s : σ) :
    (modify f : Method σ ε Unit).call s = (.ok (), f s) := rfl

@[simp] theorem call_get (s : σ) : (get : Method σ ε σ).call s = (.ok s, s) := rfl

theorem exists_call_of_isOk {x : Method σ ε α} {s : σ} (h : (x.call s).1.isOk = true) :
    ∃ a s', x.call s = (.ok a, s') := by
  obtain ⟨a, ha⟩ := exists_of_isOk h
  exact ⟨a, (x.call s).2, Prod.ext ha rfl⟩

theorem call_bind (x : Method σ ε α) (f : α → Method σ ε β) (s : σ) :
    (x >>= f).call s = match x.call s with
      | (.ok a, s') => (f a).call s'
      | (.error e, s') => (.error e, s') := rfl

theorem call_bind_of_ok {x : Method σ ε α} {f : α → Method σ ε β} {s s' : σ} {a : α}
    (h : x.call s = (.ok a, s')) : (x >>= f).call s = (f a).call s' := by
  rw [call_bind, h]

theorem call_bind_of_error {x : Method σ ε α} {f : α → Method σ ε β} {s s' : σ} {e : ε}
    (h : x.call s = (.error e, s')) : (x >>= f).call s = (.error e, s') := by
  rw [call_bind, h]

theorem call_bind_reading {f : σ → Except ε α} {g : α → Method σ ε β} {s : σ} {a : α} (h : f s = .ok a) :
    (reading f >>= g).call s = (g a).call s := by
  rw [call_bind, call_reading, h]

theorem call_bind_eq_ok {x : Method σ ε α} {f : α → Method σ ε β} {s s' : σ} {b : β} :
    (x >>= f).call s = (.ok b, s') ↔
      ∃ a s₁, x.call s = (.ok a, s₁) ∧ (f a).call s₁ = (.ok b, s') := by
  rw [call_bind]
  rcases x.call s with ⟨_ | _, _⟩ <;> simp

theorem call_assigning_of_ok {f : σ → Except ε (α × σ)} {s s' : σ} {a : α} (h : f s = .ok (a, s')) :
    (assigning f).call s = (.ok a, s') := by
  simp [call, assigning, h]

theorem call_bind_assigning {f : σ → Except ε (α × σ)} {g : α → Method σ ε β} {s s' : σ} {a : α} (h : f s = .ok (a, s')) :
    (assigning f >>= g).call s = (g a).call s' :=
  call_bind_of_ok (call_assigning_of_ok h)

theorem call_assigning_of_error {f : σ → Except ε (α × σ)} {s : σ} {e : ε} (h : f s = .error e) :
    (assigning f).call s = (.error e, s) := by
  simp [call, assigning, h]

theorem call_assigning_eq_ok {f : σ → Except ε (α × σ)} {s s' : σ} {a : α} :
    (assigning f).call s = (.ok a, s') ↔ f s = .ok (a, s') := by
  simp only [call, assigning]
  split <;> simp_all

/-- `try: x; except Exception as e: h(e)`. -/
theorem call_tryCatch (x : Method σ ε α) (h : ε → Method σ ε α) (s : σ) :
    (tryCatch x h).call s = match x.call s with
      | (.ok a, s') => (.ok a, s')
      | (.error e, s') => (h e).call s' := rfl

/-! ### Postconditions -/

/-- The call ends in `Q` when it returns and in `R` when it raises. -/
def Ends (x : Method σ ε α) (s : σ) (Q : α → σ → Prop) (R : ε → σ → Prop) : Prop :=
  match x.call s with
  | (.ok a, s') => Q a s'
  | (.error e, s') => R e s'

namespace Ends

variable {s : σ} {Q : α → σ → Prop} {R : ε → σ → Prop}

theorem pure {a : α} (h : Q a s) : Ends (Pure.pure a) s Q R := h

theorem throw {e : ε} (h : R e s) : Ends (MonadExcept.throw e) s Q R := h

theorem modify {f : σ → σ} {Q : Unit → σ → Prop} (h : Q () (f s)) : Ends (modify f) s Q R := h

theorem reading {f : σ → Except ε α} (hok : ∀ a, f s = .ok a → Q a s) (herr : ∀ e, f s = .error e → R e s) :
    Ends (Method.reading f) s Q R := by
  rw [Ends, call_reading]
  cases hf : f s with
  | ok a => exact hok a hf
  | error e => exact herr e hf

theorem assigning {f : σ → Except ε (α × σ)} (hok : ∀ a s', f s = .ok (a, s') → Q a s')
    (herr : ∀ e, f s = .error e → R e s) : Ends (Method.assigning f) s Q R := by
  rw [Ends]
  cases hf : f s with
  | error e => rw [call_assigning_of_error hf]; exact herr e hf
  | ok r => obtain ⟨a, s'⟩ := r; rw [call_assigning_of_ok hf]; exact hok a s' hf

theorem bind {x : Method σ ε β} {f : β → Method σ ε α} (h : Ends x s (fun b s' => Ends (f b) s' Q R) R) :
    Ends (x >>= f) s Q R := by
  rw [Ends, call_bind]
  rw [Ends] at h
  split at h <;> exact h

theorem tryCatch {x : Method σ ε α} {handler : ε → Method σ ε α}
    (h : Ends x s Q fun e s' => Ends (handler e) s' Q R) : Ends (MonadExcept.tryCatch x handler) s Q R := by
  rw [Ends, call_tryCatch]
  rw [Ends] at h
  split at h <;> exact h

theorem mono {x : Method σ ε α} {Q' : α → σ → Prop} {R' : ε → σ → Prop} (h : Ends x s Q R)
    (hQ : ∀ a s', Q a s' → Q' a s') (hR : ∀ e s', R e s' → R' e s') : Ends x s Q' R' := by
  rw [Ends] at h ⊢
  split at h
  · exact hQ _ _ h
  · exact hR _ _ h

theorem of_call {x : Method σ ε α} {a : α} {s' : σ} (hx : x.call s = (.ok a, s')) (h : Q a s') : Ends x s Q R := by
  rw [Ends, hx]
  exact h

theorem of_return {x : Method σ ε α} {a : α} {s' : σ} (h : Ends x s Q R) (hx : x.call s = (.ok a, s')) : Q a s' := by
  rw [Ends, hx] at h
  exact h

/-- What holds however the call ends. -/
theorem snd {x : Method σ ε α} {P : σ → Prop} (h : Ends x s (fun _ => P) fun _ => P) : P (x.call s).2 := by
  rw [Ends] at h
  revert h
  rcases x.call s with ⟨_ | _, _⟩ <;> exact id

end Ends

/-- Whatever happens, the method leaves an object with `P` as one with `P`. -/
def Preserves (P : σ → Prop) (x : Method σ ε α) : Prop := ∀ s, P s → Ends x s (fun _ => P) (fun _ => P)

namespace Preserves

variable {P : σ → Prop}

theorem reading (f : σ → Except ε α) : Preserves P (Method.reading f) :=
  fun _ h => .reading (fun _ _ => h) fun _ _ => h

theorem modify {f : σ → σ} (h : ∀ s, P s → P (f s)) : Preserves P (modify f : Method σ ε Unit) :=
  fun s hs => .modify (h s hs)

theorem assigning {f : σ → Except ε (α × σ)} (h : ∀ {s a s'}, P s → f s = .ok (a, s') → P s') :
    Preserves P (Method.assigning f) :=
  fun _ hs => .assigning (fun _ _ hf => h hs hf) fun _ _ => hs

theorem bind {x : Method σ ε α} {f : α → Method σ ε β} (hx : Preserves P x) (hf : ∀ a, Preserves P (f a)) :
    Preserves P (x >>= f) :=
  fun s hs => .bind ((hx s hs).mono (fun a s' h => hf a s' h) fun _ _ h => h)

end Preserves

end Method

end BCC
