import BlockchainCoin.Framework.Steps

/-!
# Cursors that log what they do

A `Cursor` reads a payload from an offset on. Its log has an entry for every read, with
the length of the payload it was made from, and one for every element that a repetition
begins to decode.

`Pays P x k q` bounds both by the payload. Every item that is read is paid into a bank, and
every element costs one: a call that starts with `k` in the bank ends with `q a` when it
returns `a`, and the bank is never overdrawn. `Computes x r` says that `x` computes what
`r` does on the items that are left.
-/

namespace BCC

/-- An entry of the log of a cursor. -/
inductive Cursor.Event
  | read (offset size length : Nat)
  | element
  deriving DecidableEq

structure Cursor (τ : Type) where
  payload : List τ
  offset : Nat := 0
  log : List Cursor.Event := []
  deriving DecidableEq

namespace Cursor

variable {τ ε α β : Type}

/-! ## Operations -/

/-- The next `size` items, or `e` when there are fewer. -/
def read (e : ε) (size : Nat) : Method (Cursor τ) ε (List τ) := do
  let c ← get
  if c.payload.length < c.offset + size then throw e
  else do
    modify fun c => { c with offset := c.offset + size, log := c.log ++ [.read c.offset size c.payload.length] }
    return (c.payload.drop c.offset).take size

/-- The decoding of an element. -/
def element (x : Method (Cursor τ) ε α) : Method (Cursor τ) ε α := do
  modify fun c => { c with log := c.log ++ [.element] }
  x

/-- `x` on a payload of its own, with the same log. -/
def nested (payload : List τ) (x : Method (Cursor τ) ε α) : Method (Cursor τ) ε α :=
  Method.onPart (fun c => ⟨payload, 0, c.log⟩) (fun inner c => { c with log := inner.log }) x

/-- `count` elements. -/
def many (x : Method (Cursor τ) ε α) : Nat → Method (Cursor τ) ε (List α)
  | 0 => return []
  | count + 1 => do
    let a ← element x
    let rest ← many x count
    return a :: rest

/-! ## What is left -/

def rest (c : Cursor τ) : List τ := c.payload.drop c.offset

/-- What was read was there. -/
def Event.Fits : Event → Prop
  | .read offset size length => offset + size ≤ length
  | .element => True

/-- No read went past the end. -/
structure InBounds (c : Cursor τ) : Prop where
  offset : c.offset ≤ c.payload.length
  log : ∀ e ∈ c.log, e.Fits

/-- The elements whose decoding began. -/
def elements (log : List Event) : Nat := log.count .element

theorem elements_concat_read (log : List Event) (offset size length : Nat) :
    elements (log ++ [.read offset size length]) = elements log := by
  rw [elements, List.count_append]
  rfl

theorem elements_concat_element (log : List Event) : elements (log ++ [.element]) = elements log + 1 := by
  rw [elements, List.count_append]
  rfl

/-! ## Bounds -/

/-- There is `k` in the bank, which lends one: `base` is the number of elements at the start of the payload. -/
structure Holds (base k : Nat) (c : Cursor τ) : Prop where
  inBounds : InBounds c
  bank : elements c.log + k ≤ base + c.offset + 1

theorem Holds.mono {base k k' : Nat} {c : Cursor τ} (h : Holds base k c) (hk : k' ≤ k) : Holds base k' c :=
  ⟨h.inBounds, by have := h.bank; omega⟩

/-- Any bank is enough to have begun with no more elements than the payload has items, and one. -/
theorem Holds.elements_le {base k : Nat} {c : Cursor τ} {payload : List τ} (h : Holds base k c)
    (hpayload : c.payload = payload) : elements c.log + k ≤ base + payload.length + 1 := by
  subst hpayload
  have hbank := h.bank
  have hoffset := h.inBounds.offset
  omega

/-- A call that starts with `k` in the bank ends with `q a` there when it returns `a`, and raises only what is in
`P`. -/
def Pays (P : ε → Prop) (x : Method (Cursor τ) ε α) (k : Nat) (q : α → Nat) : Prop :=
  ∀ base c, Holds base k c → x.Ends c (fun a c' => Holds base (q a) c' ∧ c'.payload = c.payload)
    fun e c' => P e ∧ Holds base 0 c' ∧ c'.payload = c.payload

namespace Pays

variable {P : ε → Prop} {x : Method (Cursor τ) ε α} {k : Nat} {q : α → Nat}

theorem pure {a : α} (h : q a ≤ k) : Pays P (Pure.pure a : Method (Cursor τ) ε α) k q :=
  fun _ _ hc => .pure ⟨hc.mono h, rfl⟩

theorem throw {e : ε} (he : P e) : Pays P (MonadExcept.throw e : Method (Cursor τ) ε α) k q :=
  fun _ _ hc => .throw ⟨he, hc.mono (Nat.zero_le _), rfl⟩

theorem bind {f : α → Method (Cursor τ) ε β} {q' : β → Nat} (hx : Pays P x k q) (hf : ∀ a, Pays P (f a) (q a) q') :
    Pays P (x >>= f) k q' := fun base c hc => by
  refine .bind ((hx base c hc).mono (fun a c₁ h₁ => ?_) fun _ _ h => h)
  rw [← h₁.2]
  exact hf a base c₁ h₁.1

theorem mono {k' : Nat} {q' : α → Nat} (hx : Pays P x k q) (hk : k ≤ k') (hq : ∀ a, q' a ≤ q a) : Pays P x k' q' :=
  fun base c hc => (hx base c (hc.mono hk)).mono (fun a _ h => ⟨h.1.mono (hq a), h.2⟩) fun _ _ h => h

theorem read_call {e : ε} (he : P e) (size : Nat) {base : Nat} {c : Cursor τ} (hc : Holds base k c) :
    (Cursor.read e size).Ends c
      (fun items c' => items.length = size ∧ Holds base (k + size) c' ∧ c'.payload = c.payload)
      fun e c' => P e ∧ Holds base 0 c' ∧ c'.payload = c.payload := by
  refine .bind (.get ?_)
  split
  · exact .throw ⟨he, hc.mono (Nat.zero_le _), rfl⟩
  · rename_i hlen
    rw [not_lt] at hlen
    refine .bind (.modify (.pure ⟨?_, ⟨⟨hlen, fun e he => ?_⟩, ?_⟩, rfl⟩))
    · rw [List.length_take, List.length_drop]
      omega
    · rcases List.mem_append.mp he with he | he
      · exact hc.inBounds.log e he
      · rw [List.mem_singleton.mp he]
        exact hlen
    · have hbank := hc.bank
      show elements (c.log ++ [.read c.offset size c.payload.length]) + (k + size) ≤ base + (c.offset + size) + 1
      rw [elements_concat_read]
      omega

/-- What is read is paid in. -/
theorem read {e : ε} (he : P e) (size k : Nat) :
    Pays P (Cursor.read e size : Method (Cursor τ) ε (List τ)) k fun _ => k + size :=
  fun _ _ hc => (read_call he size hc).mono (fun _ _ h => h.2) fun _ _ h => h

theorem read_length {e : ε} (he : P e) (size k : Nat) :
    Pays P (Cursor.read e size : Method (Cursor τ) ε (List τ)) k fun items => k + items.length :=
  fun _ _ hc => (read_call he size hc).mono (fun _ _ h => by beta_reduce; rw [h.1]; exact h.2) fun _ _ h => h

/-- An element is paid for. -/
theorem element (hx : Pays P x k q) : Pays P (Cursor.element x) (k + 1) q := fun base c hc => by
  refine .bind (.modify (hx base { c with log := c.log ++ [.element] } ⟨⟨hc.inBounds.offset, fun e he => ?_⟩, ?_⟩))
  · rcases List.mem_append.mp he with he | he
    · exact hc.inBounds.log e he
    · rw [List.mem_singleton.mp he]
      trivial
  · have hbank := hc.bank
    show elements (c.log ++ [.element]) + k ≤ base + c.offset + 1
    rw [elements_concat_element]
    omega

/-- A payload of its own takes out what its items are worth, and one that the bank lends it. -/
theorem nested {payload : List τ} {q : α → Nat} (hx : Pays P x 1 fun _ => 1) (hq : ∀ a, q a + payload.length ≤ k)
    (hk : payload.length + 1 ≤ k) : Pays P (Cursor.nested payload x) k q := fun base c hc => by
  have hstart : Holds (elements c.log) 1 ({ payload := payload, log := c.log } : Cursor τ) :=
    ⟨⟨Nat.zero_le _, hc.inBounds.log⟩, by show elements c.log + 1 ≤ elements c.log + 0 + 1; omega⟩
  have hbank := hc.bank
  have hinner := hx _ _ hstart
  rw [Method.Ends] at hinner
  rw [Method.Ends, Cursor.nested, Method.call_onPart]
  rcases hcall : x.call { payload := payload, log := c.log } with ⟨_ | a, inner⟩
  · rw [hcall] at hinner
    obtain ⟨he, hinner, hpayload⟩ := hinner
    have hle := hinner.elements_le hpayload
    dsimp only at hle
    exact ⟨he, ⟨⟨hc.inBounds.offset, hinner.inBounds.log⟩, by show elements inner.log + 0 ≤ base + c.offset + 1; omega⟩, rfl⟩
  · rw [hcall] at hinner
    have hle := hinner.1.elements_le hinner.2
    dsimp only at hle
    have hqa := hq a
    exact ⟨⟨⟨hc.inBounds.offset, hinner.1.inBounds.log⟩, by show elements inner.log + q a ≤ base + c.offset + 1; omega⟩, rfl⟩

/-- A repetition of elements that pay for themselves. -/
theorem many (hx : Pays P x 0 fun _ => 1) : ∀ count, Pays P (Cursor.many x count) 1 fun _ => 1
  | 0 => .pure (Nat.le_refl 1)
  | count + 1 => hx.element.bind fun _ => (many hx count).bind fun _ => .pure (Nat.le_refl 1)

end Pays

/-! ## What is computed -/

/-- `x` does on a cursor what `r` does on what is left of the payload. -/
def Computes (x : Method (Cursor τ) ε α) (r : StateT (List τ) (Except ε) α) : Prop :=
  ∀ c : Cursor τ, c.offset ≤ c.payload.length → match r c.rest with
    | .ok (a, rest) => ∃ c', x.call c = (.ok a, c') ∧ c'.payload = c.payload ∧ c'.offset ≤ c.payload.length ∧ c'.rest = rest
    | .error e => ∃ c', x.call c = (.error e, c')

namespace Computes

variable {x : Method (Cursor τ) ε α} {r : StateT (List τ) (Except ε) α}

theorem pure (a : α) : Computes (Pure.pure a : Method (Cursor τ) ε α) (Pure.pure a) :=
  fun c hc => ⟨c, rfl, rfl, hc, rfl⟩

theorem throw (e : ε) : Computes (MonadExcept.throw e : Method (Cursor τ) ε α) (MonadExcept.throw e) :=
  fun c _ => ⟨c, rfl⟩

theorem bind {f : α → Method (Cursor τ) ε β} {g : α → StateT (List τ) (Except ε) β} (hx : Computes x r)
    (hf : ∀ a, Computes (f a) (g a)) : Computes (x >>= f) (r >>= g) := fun c hc => by
  have h := hx c hc
  simp only [Bind.bind, StateT.bind]
  rcases hr : r c.rest with e | ⟨a, rest⟩
  · rw [hr] at h
    obtain ⟨c', hcall⟩ := h
    exact ⟨c', Method.call_bind_of_error hcall⟩
  · rw [hr] at h
    obtain ⟨c', hcall, hpayload, hoffset, rfl⟩ := h
    have hnext := hf a c' (hpayload ▸ hoffset)
    rw [hpayload] at hnext
    show match g a c'.rest with
      | .ok (b, rest) => _
      | .error e => _
    rcases hg : g a c'.rest with e | ⟨b, rest⟩
    · rw [hg] at hnext
      obtain ⟨c'', hcall'⟩ := hnext
      exact ⟨c'', (Method.call_bind_of_ok hcall).trans hcall'⟩
    · rw [hg] at hnext
      obtain ⟨c'', hcall', h''⟩ := hnext
      exact ⟨c'', (Method.call_bind_of_ok hcall).trans hcall', h''⟩

theorem read (e : ε) (size : Nat) : Computes (Cursor.read e size)
    fun payload : List τ => if payload.length < size then .error e else .ok (payload.take size, payload.drop size) :=
  fun c hc => by
    have hiff : c.rest.length < size ↔ c.payload.length < c.offset + size := by
      rw [Cursor.rest, List.length_drop]
      omega
    by_cases h : c.payload.length < c.offset + size
    · simp only [if_pos (hiff.mpr h)]
      exact ⟨c, by rw [Cursor.read, Method.call_bind, Method.call_get]; simp only [if_pos h]; rfl⟩
    · simp only [if_neg (hiff.not.mpr h)]
      refine ⟨{ c with offset := c.offset + size, log := c.log ++ [.read c.offset size c.payload.length] }, ?_, rfl,
        not_lt.mp h, List.drop_drop.symm⟩
      rw [Cursor.read, Method.call_bind, Method.call_get]
      simp only [if_neg h]
      rfl

theorem element (hx : Computes x r) : Computes (Cursor.element x) r := fun c hc =>
  hx { c with log := c.log ++ [.element] } hc

/-- A computation on a payload of its own, which reads nothing of the outer one. -/
theorem nested {payload : List τ} (hx : Computes x r) :
    Computes (Cursor.nested payload x) (StateT.lift (r.run' payload)) := fun c hc => by
  have h := hx { payload := payload, log := c.log } (Nat.zero_le _)
  show match (r.run' payload >>= fun a => Except.ok (a, c.rest)) with
    | .ok (a, rest) => _
    | .error e => _
  rw [StateT.run']
  rcases hr : r payload with e | ⟨a, rest⟩
  · rw [show ({ payload := payload, log := c.log } : Cursor τ).rest = payload from rfl, hr] at h
    obtain ⟨c', hcall⟩ := h
    exact ⟨_, by rw [Cursor.nested, Method.call_onPart, hcall]⟩
  · rw [show ({ payload := payload, log := c.log } : Cursor τ).rest = payload from rfl, hr] at h
    obtain ⟨c', hcall, -⟩ := h
    refine ⟨{ c with log := c'.log }, ?_, rfl, hc, rfl⟩
    rw [Cursor.nested, Method.call_onPart, hcall]

/-- What a call on a whole payload ends in. -/
theorem result (hx : Computes x r) (payload : List τ) : (x.call { payload := payload }).1 = r.run' payload := by
  have h := hx { payload := payload } (Nat.zero_le _)
  rw [StateT.run']
  rcases hr : r payload with e | ⟨a, rest⟩
  · rw [show ({ payload := payload } : Cursor τ).rest = payload from rfl, hr] at h
    obtain ⟨c', hcall⟩ := h
    rw [hcall]
    rfl
  · rw [show ({ payload := payload } : Cursor τ).rest = payload from rfl, hr] at h
    obtain ⟨c', hcall, -⟩ := h
    rw [hcall]
    rfl

end Computes

end Cursor

end BCC
