import BlockchainCoin.Proof.Block
import BlockchainCoin.Proof.Codec

/-!
# Decoding only what was encoded

`Takes r P` says that whatever the reader `r` returns stands in the relation `P`
to the bytes it took off the front of the payload. Every reader takes the
encoding of what it returns, so no two payloads are decoded to the same
transaction or block. With the round trips of the other direction the two codecs
are bijections between payloads and well-formed values
(`transaction_codec`, `block_codec`).
-/

namespace BCC.Proof

open BCC.Impl

/-! ## Readers -/

/-- What `r` returns is in the relation `P` to the bytes it took. -/
def Takes {α : Type} (r : Reader α) (P : α → Bytes → Prop) : Prop :=
  ∀ payload a rest, r payload = .ok (a, rest) → ∃ bs, P a bs ∧ payload = bs ++ rest

namespace Takes

variable {α β : Type} {P : α → Bytes → Prop}

theorem pure {a : α} (h : P a []) : Takes (Pure.pure a) P := fun payload a' rest hr => by
  cases hr
  exact ⟨[], h, rfl⟩

theorem throw (e : PyError) : Takes (MonadExcept.throw e : Reader α) P := fun payload a rest hr => by cases hr

theorem bind {r : Reader β} {f : β → Reader α} {Q : β → Bytes → Prop} (hr : Takes r Q)
    (hf : ∀ b bs, Q b bs → Takes (f b) fun a cs => P a (bs ++ cs)) : Takes (r >>= f) P :=
  fun payload a rest h => by
    simp only [Bind.bind, StateT.bind] at h
    cases hb : r payload with
    | error e => rw [hb] at h; cases h
    | ok res =>
      obtain ⟨b, payload'⟩ := res
      rw [hb] at h
      obtain ⟨bs, hQ, rfl⟩ := hr payload b payload' hb
      obtain ⟨cs, hP, rfl⟩ := hf b bs hQ payload' a rest h
      exact ⟨bs ++ cs, hP, (List.append_assoc _ _ _).symm⟩

theorem mono {r : Reader α} {Q : α → Bytes → Prop} (hr : Takes r Q) (h : ∀ a bs, Q a bs → P a bs) : Takes r P :=
  fun payload a rest hp => by
    obtain ⟨bs, hQ, he⟩ := hr payload a rest hp
    exact ⟨bs, h a bs hQ, he⟩

/-- The last step of a reader returns without reading more. -/
theorem last {r : Reader β} {f : β → α} {Q : β → Bytes → Prop} (hr : Takes r Q) (hf : ∀ b bs, Q b bs → P (f b) bs) :
    Takes (r >>= fun b => Pure.pure (f b)) P :=
  hr.bind fun b bs hQ => .pure (by rw [List.append_nil]; exact hf b bs hQ)

theorem read (n : Nat) : Takes (Reader.read n) fun a bs => a = bs ∧ bs.length = n := fun payload a rest h => by
  unfold Reader.read at h
  split at h
  · cases h
  · rename_i hlen
    rw [Except.ok.injEq, Prod.mk.injEq] at h
    obtain ⟨rfl, rfl⟩ := h
    exact ⟨_, ⟨rfl, by rw [List.length_take]; omega⟩, (List.take_append_drop n payload).symm⟩

theorem readExpected (expected : Bytes) (message : String) :
    Takes (Reader.readExpected expected message) fun _ bs => bs = expected :=
  (read _).bind fun raw bs h => by
    obtain ⟨rfl, -⟩ := h
    split
    · rename_i he
      exact .pure (by rw [List.append_nil]; exact he)
    · exact .throw _

theorem readOptional {r : Reader α} (hr : Takes r P) (message : String) :
    Takes (Reader.readOptional r message) fun a bs =>
      (a = none ∧ bs = [0]) ∨ ∃ b cs, a = some b ∧ P b cs ∧ bs = 1 :: cs :=
  (read 1).bind fun flag bs h => by
    obtain ⟨rfl, -⟩ := h
    split
    · rename_i he
      exact .pure (.inl ⟨rfl, by rw [List.append_nil]; exact he⟩)
    split
    · rename_i he
      subst he
      exact fun payload a rest h => by
        simp only [Functor.map, StateT.map] at h
        cases hb : r payload with
        | error e => rw [hb] at h; cases h
        | ok res =>
          obtain ⟨b, rest'⟩ := res
          rw [hb] at h
          cases h
          obtain ⟨cs, hP, rfl⟩ := hr payload b rest' hb
          exact ⟨cs, .inr ⟨b, cs, rfl, hP, rfl⟩, rfl⟩
    · exact .throw _

theorem readMany {r : Reader α} (hr : Takes r P) : ∀ count, Takes (Reader.readMany r count) fun as bs =>
    as.length = count ∧ ∃ bss, List.Forall₂ P as bss ∧ bs = bss.flatten
  | 0 => .pure ⟨rfl, [], .nil, rfl⟩
  | count + 1 => hr.bind fun a bs hP => (readMany hr count).last fun as cs h => by
    obtain ⟨rfl, bss, hall, rfl⟩ := h
    exact ⟨rfl, bs :: bss, .cons hP hall, rfl⟩

theorem of_run' {r : Reader α} (hr : Takes r P) {payload : Bytes} {a : α}
    (h : (Reader.finished r).run' payload = .ok a) : P a payload := by
  simp only [StateT.run', Reader.finished, Bind.bind, StateT.bind] at h
  cases hb : r payload with
  | error e => rw [hb] at h; cases h
  | ok res =>
    obtain ⟨b, rest⟩ := res
    obtain ⟨bs, hP, rfl⟩ := hr payload b rest hb
    rw [hb] at h
    simp only [Reader.requireFinished] at h
    by_cases hrest : rest = []
    · subst hrest
      cases h
      rw [List.append_nil]
      exact hP
    · simp [Except.bind, hrest, Functor.map, Except.map] at h

end Takes

/-! ## Fields -/

theorem encodeInt_eq_ok {value : Int} {bs : Bytes} :
    encodeInt value = .ok bs ↔ (-2 ^ 63 ≤ value ∧ value < 2 ^ 63) ∧ beBytes 8 (value % 2 ^ 64).toNat = bs := by
  simp only [encodeInt, bind_eq_ok, exists_unit, raiseIf_eq_ok, not_or, not_lt, not_le, pure_eq_ok]

theorem encodeUint_eq_ok {value : Int} {bs : Bytes} :
    encodeUint value = .ok bs ↔ (0 ≤ value ∧ value < 2 ^ 64) ∧ beBytes 8 value.toNat = bs := by
  simp only [encodeUint, bind_eq_ok, exists_unit, raiseIf_eq_ok, not_lt, not_le, pure_eq_ok, and_assoc]

theorem encodeBytes_eq_ok {value bs : Bytes} :
    encodeBytes value = .ok bs ↔ value.length < 2 ^ 32 ∧ beBytes 4 value.length ++ value = bs := by
  simp only [encodeBytes, bind_eq_ok, exists_unit, raiseIf_eq_ok, not_lt, pure_eq_ok]
  exact and_congr_left fun _ => by omega

theorem takes_decodeInt : Takes decodeInt fun value bs => encodeInt value = .ok bs :=
  (Takes.read 8).last fun raw bs h => by
    obtain ⟨rfl, hlen⟩ := h
    have hlt := ofBeBytes_lt raw
    have hbe := beBytes_ofBeBytes raw
    rw [hlen] at hlt hbe
    generalize ofBeBytes raw = n at hlt hbe
    refine encodeInt_eq_ok.mpr ⟨?_, ?_⟩
    · split <;> omega
    · have hn : ((if (n : Int) < 2 ^ 63 then (n : Int) else n - 2 ^ 64) % 2 ^ 64).toNat = n := by
        split <;> omega
      rw [hn, hbe]

theorem takes_decodeUint : Takes decodeUint fun value bs => encodeUint value = .ok bs :=
  (Takes.read 8).last fun raw bs h => by
    obtain ⟨rfl, hlen⟩ := h
    have hlt := ofBeBytes_lt raw
    have hbe := beBytes_ofBeBytes raw
    rw [hlen] at hlt hbe
    exact encodeUint_eq_ok.mpr ⟨by omega, by rw [Int.toNat_natCast, hbe]⟩

theorem takes_decodeFloat : Takes decodeFloat fun value bs => encodeFloat value = bs :=
  (Takes.read 8).last fun raw bs h => by
    obtain ⟨rfl, hlen⟩ := h
    have hlt := ofBeBytes_lt raw
    have hbe := beBytes_ofBeBytes raw
    rw [hlen] at hlt hbe
    rw [encodeFloat, UInt64.toNat_ofNat', Nat.mod_eq_of_lt (by omega), hbe]

theorem takes_decodeBytes : Takes decodeBytes fun value bs => encodeBytes value = .ok bs :=
  (Takes.read 4).bind fun size bs h => by
    obtain ⟨rfl, hlen⟩ := h
    have hlt := ofBeBytes_lt size
    have hbe := beBytes_ofBeBytes size
    rw [hlen] at hlt hbe
    refine (Takes.read _).mono fun value cs hv => ?_
    obtain ⟨rfl, hvlen⟩ := hv
    exact encodeBytes_eq_ok.mpr ⟨by omega, by rw [hvlen, hbe]⟩

theorem takes_decodeText : Takes decodeText fun value bs => encodeText value = .ok bs :=
  takes_decodeBytes.bind fun raw bs h => by
    split
    · rename_i s hs
      exact .pure (by rw [List.append_nil, encodeText, utf8Encode_of_utf8Decode hs]; exact h)
    · exact .throw _

/-! ## Well-formed transactions -/

/-- 64 lower-case hexadecimal digits. -/
def IsHash (value : Str) : Prop := value.length = 64 ∧ ∀ c ∈ value, c ∈ hexDigits

/-- A text whose UTF-8 form has a 32-bit length. -/
def IsText (value : Str) : Prop := (utf8Encode value).length < 2 ^ 32

def IsInt64 (value : Int) : Prop := -2 ^ 63 ≤ value ∧ value < 2 ^ 63

def IsUint64 (value : Int) : Prop := 0 ≤ value ∧ value < 2 ^ 64

/-- A dictionary with the two entries of a key and no other. -/
def IsKey (d : PublicKeyDict) : Prop :=
  ∃ algorithm key, d = ⟨some algorithm, some key, []⟩ ∧ IsText algorithm ∧ IsText key

structure WellFormedInput (x : TxInput) : Prop where
  txid : IsHash x.previousOutput.txid
  index : IsInt64 x.previousOutput.index
  signature : ∀ s, x.signature = some s → IsText s
  publicKey : ∀ d, x.publicKey = some d → IsKey d

/-- The transactions that have an encoding of their own. A tuple of the source has at most `sys.maxsize`
elements, so the bounds on the two counts are met by every transaction of the source. -/
structure WellFormed (t : ConsensusTransaction) : Prop where
  version : IsInt64 t.version
  inputs : ∀ x ∈ t.inputs, WellFormedInput x
  outputs : ∀ o ∈ t.outputs, IsUint64 o.amount ∧ IsText o.address
  inputCount : t.inputs.length < 2 ^ 64
  outputCount : t.outputs.length < 2 ^ 64

/-- No input carries a witness. -/
def Unwitnessed (t : ConsensusTransaction) : Prop := ∀ x ∈ t.inputs, x.signature = none ∧ x.publicKey = none

theorem isHash_hexEncode {bs : Bytes} (h : bs.length = 32) : IsHash (hexEncode bs) :=
  ⟨by rw [length_hexEncode, h], fun _ hc => mem_hexEncode hc⟩

theorem IsHash.encodeHash {value : Str} (h : IsHash value) :
    ∃ bs, bs.length = 32 ∧ hexEncode bs = value ∧ Impl.encodeHash value = .ok bs := by
  obtain ⟨bs, hlen, rfl⟩ := exists_hexEncode (k := 32) h.1 h.2
  exact ⟨bs, hlen, rfl, encodeHash_hexEncode hlen⟩

theorem IsHash.stored {value : Str} (h : IsHash value) : storedHash value = value := by
  obtain ⟨bs, -, rfl, -⟩ := h.encodeHash
  exact storedHash_hexEncode bs

theorem isText_iff {value : Str} : IsText value ↔ ∃ bs, encodeText value = .ok bs := by
  constructor
  · exact fun h => ⟨_, encodeBytes_eq_ok.mpr ⟨h, rfl⟩⟩
  · rintro ⟨bs, h⟩
    exact (encodeBytes_eq_ok.mp h).1

theorem isInt64_iff {value : Int} : IsInt64 value ↔ ∃ bs, encodeInt value = .ok bs := by
  constructor
  · exact fun h => ⟨_, encodeInt_eq_ok.mpr ⟨h, rfl⟩⟩
  · rintro ⟨bs, h⟩
    exact (encodeInt_eq_ok.mp h).1

theorem isUint64_iff {value : Int} : IsUint64 value ↔ ∃ bs, encodeUint value = .ok bs := by
  constructor
  · exact fun h => ⟨_, encodeUint_eq_ok.mpr ⟨h, rfl⟩⟩
  · rintro ⟨bs, h⟩
    exact (encodeUint_eq_ok.mp h).1

/-! ### Encoding -/

theorem WellFormedInput.stored {x : TxInput} (h : WellFormedInput x) : storedInput x = x := by
  obtain ⟨o, signature, publicKey⟩ := x
  have ho : storedOutPoint o = o := by rw [storedOutPoint, h.txid.stored]
  have hk : publicKey.map storedKey = publicKey := by
    cases publicKey with
    | none => rfl
    | some d =>
      obtain ⟨algorithm, key, rfl, -⟩ := h.publicKey d rfl
      rfl
  rw [storedInput, ho, hk]

theorem WellFormed.stored {t : ConsensusTransaction} (h : WellFormed t) : storedTransaction t = t := by
  have hi : t.inputs.map storedInput = t.inputs := by
    rw [List.map_congr_left fun x hx => (h.inputs x hx).stored, List.map_id']
  rw [storedTransaction, hi]

theorem WellFormedInput.encodes {x : TxInput} (h : WellFormedInput x) (includeWitness : Bool) :
    ∃ bs, x.toBytes includeWitness = .ok bs := by
  obtain ⟨txid, -, -, htxid⟩ := h.txid.encodeHash
  obtain ⟨index, hindex⟩ := isInt64_iff.mp h.index
  obtain ⟨signature, hsignature⟩ : ∃ bs, x.signatureBytes = .ok bs := by
    unfold TxInput.signatureBytes
    cases hs : x.signature with
    | none => exact ⟨_, rfl⟩
    | some s =>
      obtain ⟨bs, hbs⟩ := isText_iff.mp (h.signature s hs)
      exact ⟨_, map_eq_ok.mpr ⟨bs, hbs, rfl⟩⟩
  obtain ⟨key, hkey⟩ : ∃ bs, x.publicKeyBytes = .ok bs := by
    unfold TxInput.publicKeyBytes
    cases hd : x.publicKey with
    | none => exact ⟨_, rfl⟩
    | some d =>
      obtain ⟨algorithm, key, rfl, ha, hk⟩ := h.publicKey d hd
      obtain ⟨as, has⟩ := isText_iff.mp ha
      obtain ⟨ks, hks⟩ := isText_iff.mp hk
      simp only [Option.getD_some, has, hks, ok_bind]
      exact ⟨_, rfl⟩
  simp only [TxInput.toBytes, OutPoint.toBytes, TxInput.witnessBytes, htxid, hindex, hsignature, hkey, ok_bind]
  cases includeWitness <;> exact ⟨_, rfl⟩

theorem exists_mapM {α β : Type} {f : α → Except PyError β} : ∀ {l : List α}, (∀ a ∈ l, ∃ b, f a = .ok b) →
    ∃ bs, l.mapM f = .ok bs
  | [], _ => ⟨[], rfl⟩
  | a :: l, h => by
    obtain ⟨b, hb⟩ := h a List.mem_cons_self
    obtain ⟨bs, hbs⟩ := exists_mapM fun a ha => h a (List.mem_cons_of_mem _ ha)
    exact ⟨b :: bs, by rw [List.mapM_cons, hb, ok_bind, hbs]; rfl⟩

theorem WellFormed.encodes {t : ConsensusTransaction} (h : WellFormed t) (includeWitness : Bool) :
    ∃ bs, t.toBytes includeWitness = .ok bs := by
  obtain ⟨version, hversion⟩ := isInt64_iff.mp h.version
  have hcount : ∀ {k : Nat}, k < 2 ^ 64 → IsUint64 k := fun hk => ⟨by omega, by omega⟩
  obtain ⟨inputCount, hinputCount⟩ := isUint64_iff.mp (hcount h.inputCount)
  obtain ⟨outputCount, houtputCount⟩ := isUint64_iff.mp (hcount h.outputCount)
  obtain ⟨inputs, hinputs⟩ := exists_mapM fun x hx => (h.inputs x hx).encodes includeWitness
  obtain ⟨outputs, houtputs⟩ := exists_mapM (f := TxOutput.toBytes) fun o ho => by
    obtain ⟨amount, hamount⟩ := isUint64_iff.mp (h.outputs o ho).1
    obtain ⟨address, haddress⟩ := isText_iff.mp (h.outputs o ho).2
    exact ⟨_, by rw [TxOutput.toBytes, hamount, ok_bind, haddress]; rfl⟩
  simp only [ConsensusTransaction.toBytes, hversion, hinputCount, hinputs, houtputCount, houtputs, ok_bind]
  exact ⟨_, rfl⟩

/-! ### Decoding -/

theorem takes_outPoint : Takes OutPoint.fromReader fun o bs =>
    o.toBytes = .ok bs ∧ IsHash o.txid ∧ IsInt64 o.index :=
  (Takes.read 32).bind fun raw bs h => by
    obtain ⟨rfl, hlen⟩ := h
    refine takes_decodeInt.last fun index cs hindex => ⟨?_, isHash_hexEncode hlen, isInt64_iff.mpr ⟨cs, hindex⟩⟩
    rw [OutPoint.toBytes, encodeHash_hexEncode hlen, ok_bind, hindex]
    rfl

theorem takes_publicKey : Takes decodePublicKey fun d bs =>
    ∃ algorithm key as ks, d = ⟨some algorithm, some key, []⟩ ∧ encodeText algorithm = .ok as ∧
      encodeText key = .ok ks ∧ bs = as ++ ks :=
  takes_decodeText.bind fun algorithm as ha => takes_decodeText.last fun key ks hk =>
    ⟨algorithm, key, as, ks, rfl, ha, hk, rfl⟩

theorem takes_input (includeWitness : Bool) : Takes (TxInput.fromReader includeWitness) fun x bs =>
    x.toBytes includeWitness = .ok bs ∧ WellFormedInput x ∧
      (includeWitness = false → x.signature = none ∧ x.publicKey = none) := by
  refine takes_outPoint.bind fun o bs ⟨ho, htxid, hindex⟩ => ?_
  cases includeWitness with
  | false =>
    refine .pure ⟨?_, ⟨htxid, hindex, nofun, nofun⟩, fun _ => ⟨rfl, rfl⟩⟩
    rw [TxInput.toBytes, ho, List.append_nil]
    rfl
  | true =>
    refine (Takes.readOptional takes_decodeText _).bind fun signature ss hs => ?_
    refine (Takes.readOptional takes_publicKey _).last fun publicKey ks hk => ?_
    -- What the two flags say, as the encoders say it.
    have hsig : TxInput.signatureBytes ⟨o, signature, publicKey⟩ = .ok ss ∧
        ∀ s, signature = some s → IsText s := by
      rcases hs with ⟨rfl, rfl⟩ | ⟨s, cs, rfl, hcs, rfl⟩
      · exact ⟨rfl, fun _ h => by cases h⟩
      · exact ⟨map_eq_ok.mpr ⟨cs, hcs, rfl⟩, fun _ h => by cases h; exact isText_iff.mpr ⟨cs, hcs⟩⟩
    have hkey : TxInput.publicKeyBytes ⟨o, signature, publicKey⟩ = .ok ks ∧
        ∀ d, publicKey = some d → IsKey d := by
      rcases hk with ⟨rfl, rfl⟩ | ⟨d, cs, rfl, ⟨algorithm, key, as, bs', rfl, has, hbs, rfl⟩, rfl⟩
      · exact ⟨rfl, fun _ h => by cases h⟩
      · refine ⟨?_, fun _ h => ?_⟩
        · simp only [TxInput.publicKeyBytes, Option.getD_some, has, hbs, ok_bind]
          rfl
        · cases h
          exact ⟨algorithm, key, rfl, isText_iff.mpr ⟨as, has⟩, isText_iff.mpr ⟨bs', hbs⟩⟩
    refine ⟨?_, ⟨htxid, hindex, hsig.2, hkey.2⟩, fun h => by cases h⟩
    simp only [TxInput.toBytes, TxInput.witnessBytes, ho, hsig.1, hkey.1, ok_bind]
    rfl

theorem takes_output : Takes TxOutput.fromReader fun o bs =>
    o.toBytes = .ok bs ∧ IsUint64 o.amount ∧ IsText o.address :=
  takes_decodeUint.bind fun amount as ha => takes_decodeText.last fun address bs hb => by
    refine ⟨?_, isUint64_iff.mpr ⟨as, ha⟩, isText_iff.mpr ⟨bs, hb⟩⟩
    simp only [TxOutput.toBytes, ha, hb, ok_bind]
    rfl

theorem mapM_of_forall₂ {α β : Type} {f : α → Except PyError β} {Q : α → Prop} {as : List α} {bs : List β}
    (h : List.Forall₂ (fun a b => f a = .ok b ∧ Q a) as bs) : as.mapM f = .ok bs ∧ ∀ a ∈ as, Q a := by
  induction h with
  | nil => exact ⟨rfl, fun _ h => absurd h List.not_mem_nil⟩
  | cons hab _ ih =>
    exact ⟨by rw [List.mapM_cons, hab.1, ok_bind, ih.1]; rfl, List.forall_mem_cons.mpr ⟨hab.2, ih.2⟩⟩

theorem takes_transaction (includeWitness : Bool) : Takes (ConsensusTransaction.fromReader includeWitness) fun t bs =>
    t.toBytes includeWitness = .ok bs ∧ WellFormed t ∧ (includeWitness = false → Unwitnessed t) := by
  refine (Takes.readExpected _ _).bind fun _ m₁ h₁ => (Takes.readExpected _ _).bind fun _ m₂ h₂ => ?_
  refine takes_decodeInt.bind fun version vs hv => takes_decodeUint.bind fun inputCount ics hic => ?_
  refine (Takes.readMany (takes_input includeWitness) _).bind fun inputs is hi => ?_
  refine takes_decodeUint.bind fun outputCount ocs hoc => ?_
  refine (Takes.readMany takes_output _).last fun outputs os ho => ?_
  obtain ⟨rfl, iss, hi, rfl⟩ := hi
  obtain ⟨rfl, oss, ho, rfl⟩ := ho
  obtain ⟨hi, hwf⟩ := mapM_of_forall₂ hi
  obtain ⟨ho, hwo⟩ := mapM_of_forall₂ ho
  refine ⟨?_, ⟨isInt64_iff.mpr ⟨vs, hv⟩, fun x hx => (hwf x hx).1, hwo, ?_, ?_⟩, fun hw x hx => (hwf x hx).2 hw⟩
  · simp only [ConsensusTransaction.toBytes, hv, hic, hi, hoc, ho, ok_bind]
    rw [h₁, h₂, ← List.append_assoc (transactionMagic.take 5), List.take_append_drop]
    simp only [List.append_assoc]
    rfl
  · show inputs.length < 2 ^ 64
    have := (isUint64_iff.mpr ⟨ics, hic⟩).2
    omega
  · show outputs.length < 2 ^ 64
    have := (isUint64_iff.mpr ⟨ocs, hoc⟩).2
    omega

/-- The codec of transactions is a bijection between the well-formed transactions and the payloads that
are decoded, with the witnesses and without them. -/
theorem transaction_codec :
    (∀ t, WellFormed t → ∃ payload, t.toBytes = .ok payload ∧ ConsensusTransaction.fromBytes payload = .ok t) ∧
    (∀ payload t, ConsensusTransaction.fromBytes payload = .ok t → WellFormed t ∧ t.toBytes = .ok payload) ∧
    (∀ t, WellFormed t → Unwitnessed t → ∃ payload, t.toBytes false = .ok payload ∧
      ConsensusTransaction.fromBytes payload false = .ok t) ∧
    (∀ payload t, ConsensusTransaction.fromBytes payload false = .ok t →
      WellFormed t ∧ Unwitnessed t ∧ t.toBytes false = .ok payload) := by
  refine ⟨fun t h => ?_, fun payload t h => ?_, fun t h hu => ?_, fun payload t h => ?_⟩
  · obtain ⟨payload, hp⟩ := h.encodes true
    exact ⟨payload, hp, by rw [fromBytes_toBytes_transaction hp, h.stored]⟩
  · obtain ⟨hp, hw, -⟩ := (takes_transaction true).of_run' h
    exact ⟨hw, hp⟩
  · obtain ⟨payload, hp⟩ := h.encodes false
    refine ⟨payload, hp, ?_⟩
    have hread := reads_transaction_of (fun x => ⟨storedOutPoint x.previousOutput, none, none⟩) (fun {x bs} hx => by
      simp only [TxInput.toBytes, Bool.false_eq_true, if_false, bind_eq_ok, pure_eq_ok] at hx
      obtain ⟨point, hpoint, rfl⟩ := hx
      exact (reads_outPoint hpoint).last (.pure _)) hp
    have hinputs : t.inputs.map (fun x => (⟨storedOutPoint x.previousOutput, none, none⟩ : TxInput)) = t.inputs := by
      rw [List.map_congr_left fun x hx => ?_, List.map_id']
      have hx' := (h.inputs x hx).stored
      rw [storedInput, (hu x hx).1, (hu x hx).2] at hx'
      exact hx'
    rw [hinputs] at hread
    exact hread.run'_finished
  · obtain ⟨hp, hw, hu⟩ := (takes_transaction false).of_run' h
    exact ⟨hw, hu rfl, hp⟩

theorem transaction_codec_payment : WellFormed payment ∧
    ∃ payload, payment.toBytes = .ok payload ∧ ConsensusTransaction.fromBytes payload = .ok payment := by
  have h : (payment.toBytes >>= fun payload => ConsensusTransaction.fromBytes payload) = .ok payment := by
    decide +kernel
  obtain ⟨payload, -, h⟩ := bind_eq_ok.mp h
  have hw := (transaction_codec.2.1 payload payment h).1
  exact ⟨hw, transaction_codec.1 payment hw⟩

/-! ## Blocks -/

/-- The blocks that have an encoding of their own. The timestamp is a 64-bit pattern by its type, and a
tuple of the source has at most `sys.maxsize` elements. -/
structure WellFormedBlock (b : ConsensusBlock) : Prop where
  version : IsInt64 b.version
  height : IsInt64 b.height
  difficulty : IsInt64 b.difficulty
  nonce : IsInt64 b.nonce
  previousHash : IsHash b.previousHash
  transactionRoot : IsHash b.transactionRoot
  transactions : ∀ t ∈ b.transactions, WellFormed t ∧ ∀ bs, t.toBytes = .ok bs → bs.length < 2 ^ 32
  count : b.transactions.length < 2 ^ 64

theorem WellFormedBlock.stored {b : ConsensusBlock} (h : WellFormedBlock b) : storedBlock b = b := by
  have ht : b.transactions.map storedTransaction = b.transactions := by
    rw [List.map_congr_left fun t ht => (h.transactions t ht).1.stored, List.map_id']
  rw [storedBlock, h.previousHash.stored, h.transactionRoot.stored, ht]

theorem WellFormedBlock.encodes {b : ConsensusBlock} (h : WellFormedBlock b) : ∃ bs, b.toBytes = .ok bs := by
  obtain ⟨version, hversion⟩ := isInt64_iff.mp h.version
  obtain ⟨height, hheight⟩ := isInt64_iff.mp h.height
  obtain ⟨difficulty, hdifficulty⟩ := isInt64_iff.mp h.difficulty
  obtain ⟨nonce, hnonce⟩ := isInt64_iff.mp h.nonce
  obtain ⟨previousHash, -, -, hprevious⟩ := h.previousHash.encodeHash
  obtain ⟨root, -, -, hroot⟩ := h.transactionRoot.encodeHash
  have hcount : IsUint64 b.transactions.length := ⟨by omega, by have := h.count; omega⟩
  obtain ⟨count, hcount⟩ := isUint64_iff.mp hcount
  obtain ⟨ts, hts⟩ := exists_mapM (f := fun t : ConsensusTransaction => t.toBytes >>= encodeBytes)
    (l := b.transactions) fun t ht => by
      obtain ⟨bs, hbs⟩ := (h.transactions t ht).1.encodes true
      exact ⟨_, by rw [hbs, ok_bind, encodeBytes_eq_ok.mpr ⟨(h.transactions t ht).2 bs hbs, rfl⟩]⟩
  simp only [ConsensusBlock.toBytes, ConsensusBlock.headerBytes, hversion, hheight, hprevious, hroot, hdifficulty,
    hnonce, hcount, hts, ok_bind, pure_bind]
  exact ⟨_, rfl⟩

theorem takes_transactionField : Takes ConsensusTransaction.decodeField fun t bs =>
    (t.toBytes >>= encodeBytes) = .ok bs ∧ WellFormed t ∧ ∀ cs, t.toBytes = .ok cs → cs.length < 2 ^ 32 :=
  takes_decodeBytes.bind fun raw bs hraw payload t rest h => by
    cases ht : ConsensusTransaction.fromBytes raw with
    | error e => rw [ht] at h; cases h
    | ok t' =>
      rw [ht] at h
      cases h
      obtain ⟨hp, hw, -⟩ := (takes_transaction true).of_run' ht
      refine ⟨[], ⟨?_, hw, fun cs hcs => ?_⟩, rfl⟩
      · rw [hp, ok_bind, hraw, List.append_nil]
      · rw [hp, Except.ok.injEq] at hcs
        exact hcs ▸ (encodeBytes_eq_ok.mp hraw).1

theorem takes_block : Takes ConsensusBlock.fromReader fun b bs => b.toBytes = .ok bs ∧ WellFormedBlock b := by
  refine (Takes.readExpected _ _).bind fun _ m₁ h₁ => (Takes.readExpected _ _).bind fun _ m₂ h₂ => ?_
  refine takes_decodeInt.bind fun version vs hv => takes_decodeInt.bind fun height hs hh => ?_
  refine (Takes.read 32).bind fun previousHash ps hp => (Takes.read 32).bind fun root rs hr => ?_
  refine takes_decodeInt.bind fun difficulty ds hd => takes_decodeFloat.bind fun timestamp ts ht => ?_
  refine takes_decodeInt.bind fun nonce ns hn => takes_decodeUint.bind fun count cs hc => ?_
  refine (Takes.readMany takes_transactionField _).last fun transactions bs hts => ?_
  obtain ⟨rfl, hp⟩ := hp
  obtain ⟨rfl, hr⟩ := hr
  obtain ⟨rfl, bss, hts, rfl⟩ := hts
  obtain ⟨hts, hwf⟩ := mapM_of_forall₂ hts
  refine ⟨?_, isInt64_iff.mpr ⟨vs, hv⟩, isInt64_iff.mpr ⟨hs, hh⟩, isInt64_iff.mpr ⟨ds, hd⟩, isInt64_iff.mpr ⟨ns, hn⟩,
    isHash_hexEncode hp, isHash_hexEncode hr, hwf, ?_⟩
  · simp only [ConsensusBlock.toBytes, ConsensusBlock.headerBytes, hv, hh, encodeHash_hexEncode hp,
      encodeHash_hexEncode hr, hd, ht, hn, hc, hts, ok_bind, pure_bind]
    rw [h₁, h₂, ← List.append_assoc (blockMagic.take 6), List.take_append_drop]
    simp only [List.append_assoc]
    rfl
  · show transactions.length < 2 ^ 64
    have := (isUint64_iff.mpr ⟨cs, hc⟩).2
    omega

/-- The codec of blocks is a bijection between the well-formed blocks and the payloads that are decoded;
the decoded block has the hash of the encoded one, and a payload is determined by what it is decoded
to. -/
theorem block_codec :
    (∀ b, WellFormedBlock b → ∃ payload hash, b.toBytes = .ok payload ∧ ConsensusBlock.fromBytes payload = .ok b ∧
      b.hash = .ok hash ∧ (ConsensusBlock.fromBytes payload >>= fun b' => b'.hash) = .ok hash) ∧
    (∀ payload b, ConsensusBlock.fromBytes payload = .ok b → WellFormedBlock b ∧ b.toBytes = .ok payload) ∧
    ∀ payload payload' b, ConsensusBlock.fromBytes payload = .ok b → ConsensusBlock.fromBytes payload' = .ok b →
      payload = payload' := by
  refine ⟨fun b h => ?_, fun payload b h => ?_, fun payload payload' b h h' => ?_⟩
  · obtain ⟨payload, hp⟩ := h.encodes
    have hd : ConsensusBlock.fromBytes payload = .ok b := by rw [fromBytes_toBytes_block hp, h.stored]
    obtain ⟨header, hheader, -⟩ := bind_eq_ok.mp hp
    have hash : b.hash = .ok (sha256Hex header) := by rw [ConsensusBlock.hash, hheader]; rfl
    exact ⟨payload, _, hp, hd, hash, by rw [hd, ok_bind, hash]⟩
  · obtain ⟨hp, hw⟩ := takes_block.of_run' h
    exact ⟨hw, hp⟩
  · have hp := (takes_block.of_run' h).1
    rw [(takes_block.of_run' h').1, Except.ok.injEq] at hp
    exact hp.symm

theorem block_codec_paymentBlock : WellFormedBlock paymentBlock ∧ ∃ payload hash,
    paymentBlock.toBytes = .ok payload ∧ ConsensusBlock.fromBytes payload = .ok paymentBlock ∧
      paymentBlock.hash = .ok hash ∧ (ConsensusBlock.fromBytes payload >>= fun b' => b'.hash) = .ok hash := by
  have h : (paymentBlock.toBytes >>= ConsensusBlock.fromBytes) = .ok paymentBlock := by decide +kernel
  obtain ⟨payload, -, h⟩ := bind_eq_ok.mp h
  have hw := (block_codec.2.1 payload paymentBlock h).1
  exact ⟨hw, block_codec.1 paymentBlock hw⟩

end BCC.Proof
