import BlockchainCoin.Framework.Delimited
import BlockchainCoin.Proof.Block

/-!
# What a signature authorises

The message an input signs is a JSON text. Its integers end at the next character
that is no digit, its texts have no quotation marks inside, and its lists end at
their bracket, so the whole text is read in one way (`delimited_message`) and
determines the input index, the version, the spent outpoints and the outputs. It
holds no witness, so inputs may be signed in any order (`signInputs_eq_ok`).
-/

namespace BCC.Proof

open BCC.Impl

/-! ## Numbers and texts -/

/-- The characters of a JSON integer. -/
def isIntChar (c : Char) : Bool := c.isDigit || c == '-'

theorem toDigits_inj {m n : Nat} (h : Nat.toDigits 10 m = Nat.toDigits 10 n) : m = n := by
  rw [← Nat.ofDigitChars_ten_toDigits (n := m), h, Nat.ofDigitChars_ten_toDigits]

theorem isDigit_of_mem_toDigits {n : Nat} {c : Char} (h : c ∈ Nat.toDigits 10 n) : c.isDigit = true :=
  Nat.isDigit_of_mem_toDigits (by decide) (by decide) h

theorem isIntChar_of_mem_jsonInt {n : Int} {c : Char} (h : c ∈ jsonInt n) : isIntChar c = true := by
  cases n with
  | ofNat n => rw [isIntChar, isDigit_of_mem_toDigits h, Bool.true_or]
  | negSucc n =>
    rcases List.mem_cons.mp h with rfl | h
    · rfl
    · rw [isIntChar, isDigit_of_mem_toDigits h, Bool.true_or]

/-- No number begins with a minus sign and is not negative. -/
theorem toDigits_ne_minus {m : Nat} {s : Str} : Nat.toDigits 10 m ≠ '-' :: s := fun h => by
  have hd := isDigit_of_mem_toDigits (n := m) (c := '-') (by rw [h]; exact List.mem_cons_self)
  exact absurd hd (by decide)

theorem jsonInt_inj {m n : Int} (h : jsonInt m = jsonInt n) : m = n := by
  cases m with
  | ofNat m =>
    cases n with
    | ofNat n => exact congrArg _ (toDigits_inj h)
    | negSucc n => exact absurd h toDigits_ne_minus
  | negSucc m =>
    cases n with
    | ofNat n => exact absurd h.symm toDigits_ne_minus
    | negSucc n =>
      have he := toDigits_inj (List.cons.inj h).2
      rw [Nat.add_right_cancel he]

theorem delimited_jsonInt : Delimited jsonInt (fun _ => True) (BeginsOutside isIntChar) :=
  .of_class (fun _ _ _ hc => isIntChar_of_mem_jsonInt hc) fun _ _ _ _ h => jsonInt_inj h

/-- The characters that stand for themselves and do not end a text. -/
def IsPlain (c : Char) : Prop := c ≠ '"' ∧ jsonChar c = [c]

theorem flatMap_jsonChar {s : Str} (h : ∀ c ∈ s, IsPlain c) : s.flatMap jsonChar = s := by
  induction s with
  | nil => rfl
  | cons c s ih =>
    rw [List.forall_mem_cons] at h
    rw [List.flatMap_cons, h.1.2, ih h.2]
    rfl

theorem delimited_jsonText : Delimited jsonText (fun s => ∀ c ∈ s, IsPlain c) Anything := by
  have hbody : Delimited (fun s : Str => s.flatMap jsonChar) (fun s => ∀ c ∈ s, IsPlain c)
      (BeginsOutside (· != '"')) := by
    refine .of_class (fun s hs c hc => ?_) fun s s' hs hs' h => ?_
    · rw [flatMap_jsonChar hs] at hc
      simpa using (hs c hc).1
    · rwa [flatMap_jsonChar hs, flatMap_jsonChar hs'] at h
  exact (hbody.append_const ['"'] fun r c hc => by cases hc; rfl).const_append ['"']

/-! ## The message -/

def IsPlainText (s : Str) : Prop := ∀ c ∈ s, IsPlain c

/-- A key and the colon after it. -/
def jsonKey (key : String) : Str := jsonText key.toList ++ [':']

theorem delimited_jsonArray {α : Type} {f : α → Str} {S : α → Prop} (hf : Delimited f S Anything)
    (hstart : ∀ a, S a → (f a).head? = some '\x7b') :
    Delimited (fun as : List α => jsonArray (as.map f)) (fun as => ∀ a ∈ as, S a) Anything := by
  have hlist : Delimited (fun as : List α => List.intercalate [','] (as.map f) ++ [']']) (fun as => ∀ a ∈ as, S a) Anything := by
    refine hf.list (by decide) fun a r ha => ?_
    have h := hstart a ha
    cases hfa : f a with
    | nil => rw [hfa] at h; cases h
    | cons c s =>
      rw [hfa, List.head?_cons, Option.some.injEq] at h
      rw [List.cons_append, List.head?_cons, h]
      decide
  exact hlist.const_append ['[']

/-- An input as the message has it. -/
def jsonInput (o : OutPoint) : Str :=
  jsonObject [jsonField "previous_output" (jsonObject
    [jsonField "index" (jsonInt o.index), jsonField "txid" (jsonText o.txid)])]

/-- An output as the message has it. -/
def jsonOutput (o : TxOutput) : Str :=
  jsonObject [jsonField "address" (jsonText o.address), jsonField "amount" (jsonInt o.amount)]

theorem delimited_jsonInput : Delimited jsonInput (fun o => IsPlainText o.txid) Anything := by
  have h := (((delimited_jsonInt.append (delimited_jsonText.const_append (',' :: jsonKey "txid"))
    fun b r _ _ c hc => by cases hc; rfl).append_const ['\x7d', '\x7d'] fun _ => trivial).const_append
      ('\x7b' :: jsonKey "previous_output" ++ '\x7b' :: jsonKey "index")).comp
        (h := fun o : OutPoint => (o.index, o.txid)) fun o o' he => by
          obtain ⟨h₁, h₂⟩ := Prod.mk.inj he
          cases o; cases o'
          simp_all
  have he : jsonInput = fun o => ('\x7b' :: jsonKey "previous_output" ++ '\x7b' :: jsonKey "index") ++
      (jsonInt o.index ++ (',' :: jsonKey "txid" ++ jsonText o.txid) ++ ['\x7d', '\x7d']) := by
    funext o
    simp [jsonInput, jsonObject, jsonField, jsonKey, List.intercalate_cons_cons]
  rw [he]
  exact fun a b r r' ha hb => h ⟨trivial, ha⟩ ⟨trivial, hb⟩

theorem delimited_jsonOutput : Delimited jsonOutput (fun o => IsPlainText o.address) Anything := by
  have h := (((delimited_jsonText.append (delimited_jsonInt.const_append (',' :: jsonKey "amount"))
    fun _ _ _ _ => trivial).append_const ['\x7d'] fun r c hc => by cases hc; rfl).const_append
      ('\x7b' :: jsonKey "address")).comp
        (h := fun o : TxOutput => (o.address, o.amount)) fun o o' he => by
          obtain ⟨h₁, h₂⟩ := Prod.mk.inj he
          cases o; cases o'
          simp_all
  have he : jsonOutput = fun o => ('\x7b' :: jsonKey "address") ++
      (jsonText o.address ++ (',' :: jsonKey "amount" ++ jsonInt o.amount) ++ ['\x7d']) := by
    funext o
    simp [jsonOutput, jsonObject, jsonField, jsonKey, List.intercalate_cons_cons]
  rw [he]
  exact fun a b r r' ha hb => h ⟨ha, trivial⟩ ⟨hb, trivial⟩

/-- What a message tells: the input index, the spent outpoints, the outputs and the version. -/
abbrev Told := ((Int × List OutPoint) × List TxOutput) × Int

def jsonMessage (m : Told) : Str :=
  jsonObject [jsonField "input_index" (jsonInt m.1.1.1), jsonField "inputs" (jsonArray (m.1.1.2.map jsonInput)),
    jsonField "outputs" (jsonArray (m.1.2.map jsonOutput)), jsonField "version" (jsonInt m.2)]

/-- What the message of input `i` tells. -/
def told (t : ConsensusTransaction) (i : Nat) : Told := (((i, t.inputs.map (·.previousOutput)), t.outputs), t.version)

theorem signingMessage_eq (t : ConsensusTransaction) (i : Nat) : t.signingMessage i = jsonMessage (told t i) := by
  rw [jsonMessage, told, List.map_map]
  rfl

def ToldPlain (m : Told) : Prop := (∀ o ∈ m.1.1.2, IsPlainText o.txid) ∧ ∀ o ∈ m.1.2, IsPlainText o.address

theorem delimited_message : Delimited jsonMessage ToldPlain Anything := by
  have hin := (delimited_jsonArray delimited_jsonInput fun _ _ => rfl).const_append (',' :: jsonKey "inputs")
  have hout := (delimited_jsonArray delimited_jsonOutput fun _ _ => rfl).const_append (',' :: jsonKey "outputs")
  have h := ((((delimited_jsonInt.append hin fun b r _ _ c hc => by cases hc; rfl).append hout
    fun _ _ _ _ => trivial).append (delimited_jsonInt.const_append (',' :: jsonKey "version"))
      fun _ _ _ _ => trivial).append_const ['\x7d'] fun r c hc => by cases hc; rfl).const_append
        ('\x7b' :: jsonKey "input_index")
  have he : jsonMessage = fun m => ('\x7b' :: jsonKey "input_index") ++ (jsonInt m.1.1.1 ++
      (',' :: jsonKey "inputs" ++ jsonArray (m.1.1.2.map jsonInput)) ++
      (',' :: jsonKey "outputs" ++ jsonArray (m.1.2.map jsonOutput)) ++
      (',' :: jsonKey "version" ++ jsonInt m.2) ++ ['\x7d']) := by
    funext m
    simp [jsonMessage, jsonObject, jsonField, jsonKey, List.intercalate_cons_cons]
  rw [he]
  exact fun a b r r' ha hb => h ⟨⟨⟨trivial, ha.1⟩, ha.2⟩, trivial⟩ ⟨⟨⟨trivial, hb.1⟩, hb.2⟩, trivial⟩

/-! ## Which messages are equal -/

/-- 64 hexadecimal digits, of either case. -/
def IsHexHash (value : Str) : Prop := value.length = 64 ∧ ∀ c ∈ value, (hexValue c).isSome

theorem isPlain_of_range {c : Char} (h : ' ' ≤ c ∧ c ≤ '~') (hq : c ≠ '"') (hb : c ≠ '\\') : IsPlain c := by
  -- The characters with an escape of their own that are left are below the space.
  have hlow : ∀ d : Char, d < ' ' → c ≠ d := fun d hd e => absurd (e ▸ h.1) (not_le.mpr hd)
  refine ⟨hq, ?_⟩
  rw [jsonChar, if_neg hq, if_neg hb, if_neg (hlow _ (by decide)), if_neg (hlow _ (by decide)),
    if_neg (hlow _ (by decide)), if_neg (hlow _ (by decide)), if_neg (hlow _ (by decide)), if_pos h]

theorem isPlain_of_hexValue {c : Char} (h : (hexValue c).isSome) : IsPlain c := by
  have hrange : ('0' ≤ c ∧ c ≤ '9') ∨ ('a' ≤ c ∧ c ≤ 'f') ∨ ('A' ≤ c ∧ c ≤ 'F') := by
    unfold hexValue at h
    split at h
    · exact .inl ‹_›
    split at h
    · exact .inr (.inl ‹_›)
    split at h
    · exact .inr (.inr ‹_›)
    · cases h
  have hdigit : ∀ lo hi : Char, ' ' ≤ lo → hi ≤ '~' → ¬ (lo ≤ '"' ∧ '"' ≤ hi) → ¬ (lo ≤ '\\' ∧ '\\' ≤ hi) →
      lo ≤ c ∧ c ≤ hi → IsPlain c := fun lo hi hlo hhi hq hb hc =>
    isPlain_of_range ⟨hlo.trans hc.1, hc.2.trans hhi⟩ (fun e => hq (e ▸ hc)) fun e => hb (e ▸ hc)
  rcases hrange with hc | hc | hc
  · exact hdigit '0' '9' (by decide) (by decide) (by decide) (by decide) hc
  · exact hdigit 'a' 'f' (by decide) (by decide) (by decide) (by decide) hc
  · exact hdigit 'A' 'F' (by decide) (by decide) (by decide) (by decide) hc

theorem isPlainText_of_address {address : Str} (h : isValidAddress address = true) : IsPlainText address := by
  simp only [isValidAddress, Bool.and_eq_true, List.isPrefixOf_iff_prefix, List.all_eq_true] at h
  obtain ⟨⟨suffix, rfl⟩, -, hall⟩ := h
  rw [List.drop_left] at hall
  have hhex : ∀ c ∈ hexDigits, (hexValue c).isSome := fun c hc => by
    obtain ⟨n, hn, rfl⟩ := exists_hexDigit hc
    rw [hexValue_hexDigit n hn]
    rfl
  have hpre : ∀ c ∈ addressPrefix, (' ' ≤ c ∧ c ≤ '~') ∧ c ≠ '"' ∧ c ≠ '\\' := by
    simp only [addressPrefix, List.forall_mem_cons, List.not_mem_nil, false_imp_iff, forall_const]
    decide
  intro c hc
  rcases List.mem_append.mp hc with hc | hc
  · exact isPlain_of_range (hpre c hc).1 (hpre c hc).2.1 (hpre c hc).2.2
  · exact isPlain_of_hexValue (hhex c (by simpa using hall c hc))

/-- A message of a transaction whose outputs are valid, and whose inputs name hashes, is read in one way. -/
theorem toldPlain {s : ConsensusState} {t : ConsensusTransaction} (i : Nat) (ho : s.validateOutputs t.outputs = .ok ())
    (hx : ∀ x ∈ t.inputs, IsHexHash x.previousOutput.txid) : ToldPlain (told t i) :=
  ⟨List.forall_mem_map.mpr fun x hxm c hc => isPlain_of_hexValue ((hx x hxm).2 c hc),
    fun o hom => isPlainText_of_address ((validateOutputs_eq_ok.mp ho).2 o hom).2.2⟩

/-! ## Signing -/

/-- `sign_input`, for one input after the other. -/
def signInputs : ConsensusTransaction → List (Int × Wallet) → Except PyError ConsensusTransaction
  | t, [] => .ok t
  | t, (i, wallet) :: rest => do
    let t' ← t.signInput i wallet
    signInputs t' rest

theorem map_modify {f : TxInput → TxInput} (hf : ∀ x, (f x).previousOutput = x.previousOutput) {l : List TxInput}
    {n : Nat} : (l.modify n f).map (·.previousOutput) = l.map (·.previousOutput) := by
  apply List.ext_getElem?
  intro m
  rw [List.getElem?_map, List.getElem?_map]
  by_cases hm : n = m
  · subst hm
    rw [List.getElem?_modify_eq]
    cases l[n]? with
    | none => rfl
    | some x => exact congrArg some (hf x)
  · rw [List.getElem?_modify_ne _ _ hm]

theorem signInput_eq_ok {t t' : ConsensusTransaction} {k : Int} {w : Wallet} (h : t.signInput k w = .ok t') :
    (∀ j, told t' j = told t j) ∧ (∀ j, j ≠ k.toNat → t'.inputs[j]? = t.inputs[j]?) ∧
      ∃ x, t'.inputs[k.toNat]? = some x ∧ x.signature = some (w.sign (t.signingMessage k.toNat)) ∧
        x.publicKey = some w.publicKey.toDict := by
  simp only [ConsensusTransaction.signInput, bind_eq_ok, exists_unit, raiseIf_eq_ok, not_or, not_lt, not_le,
    pure_eq_ok] at h
  obtain ⟨⟨hlo, hhi⟩, rfl⟩ := h
  refine ⟨fun j => ?_, fun j hj => ?_, ?_⟩
  · exact congrArg (fun l => ((((j : Int), l), t.outputs), t.version)) (map_modify (by exact fun _ => rfl))
  · exact List.getElem?_modify_ne _ _ (Ne.symm hj)
  · obtain ⟨x, hx⟩ : ∃ x, t.inputs[k.toNat]? = some x := ⟨_, List.getElem?_eq_getElem (by omega)⟩
    exact ⟨_, by rw [List.getElem?_modify_eq, hx]; rfl, rfl, rfl⟩

/-- Signing does not change the messages, and a signature that is not replaced stays. -/
theorem signInputs_eq_ok {ws : List (Int × Wallet)} : ∀ {t t' : ConsensusTransaction}, signInputs t ws = .ok t' →
    (∀ j, told t' j = told t j) ∧ (∀ j, j ∉ ws.map (·.1.toNat) → t'.inputs[j]? = t.inputs[j]?) := by
  induction ws with
  | nil =>
    intro t t' h
    cases h
    exact ⟨fun _ => rfl, fun _ _ => rfl⟩
  | cons e ws ih =>
    intro t t' h
    obtain ⟨t₁, h₁, h⟩ := bind_eq_ok.mp h
    obtain ⟨htold, hother, -⟩ := signInput_eq_ok h₁
    obtain ⟨htold', hother'⟩ := ih h
    refine ⟨fun j => (htold' j).trans (htold j), fun j hj => ?_⟩
    rw [List.map_cons, List.mem_cons, not_or] at hj
    exact (hother' j hj.2).trans (hother j hj.1)

theorem signInputs_append {ws ws' : List (Int × Wallet)} {t t' : ConsensusTransaction} :
    signInputs t (ws ++ ws') = .ok t' ↔ ∃ t₁, signInputs t ws = .ok t₁ ∧ signInputs t₁ ws' = .ok t' := by
  induction ws generalizing t with
  | nil => simp [signInputs]
  | cons e ws ih =>
    rw [List.cons_append]
    simp only [signInputs, bind_eq_ok, ih]
    constructor
    · rintro ⟨t₁, h₁, t₂, h₂, h⟩
      exact ⟨t₂, ⟨t₁, h₁, h₂⟩, h⟩
    · rintro ⟨t₂, ⟨t₁, h₁, h₂⟩, h⟩
      exact ⟨t₁, h₁, t₂, h₂, h⟩

/-- A signature authorises one spend: equal messages are of the same input of transactions with the same
version, spent outpoints and outputs. Signing inputs in any order leaves every message as it was, so the
last signature of an input is of the message its final transaction has. -/
theorem signature_authorises (s s' : ConsensusState) (t t' : ConsensusTransaction) (i i' : Nat)
    (ho : s.validateOutputs t.outputs = .ok ()) (ho' : s'.validateOutputs t'.outputs = .ok ())
    (hx : ∀ x ∈ t.inputs, IsHexHash x.previousOutput.txid) (hx' : ∀ x ∈ t'.inputs, IsHexHash x.previousOutput.txid) :
    (t.signingMessage i = t'.signingMessage i' ↔ i = i' ∧ t.version = t'.version ∧
      t.inputs.map (·.previousOutput) = t'.inputs.map (·.previousOutput) ∧ t.outputs = t'.outputs) ∧
    ∀ ws signed, signInputs t ws = .ok signed → (∀ j, signed.signingMessage j = t.signingMessage j) ∧
      ∀ before k wallet after, ws = before ++ (k, wallet) :: after → k.toNat ∉ after.map (·.1.toNat) →
        ∃ x, signed.inputs[k.toNat]? = some x ∧ x.signature = some (wallet.sign (signed.signingMessage k.toNat)) ∧
          x.publicKey = some wallet.publicKey.toDict := by
  refine ⟨?_, fun ws signed hs => ?_⟩
  · rw [signingMessage_eq, signingMessage_eq]
    constructor
    · intro h
      have he := (delimited_message (toldPlain i ho hx) (toldPlain i' ho' hx') (r := []) trivial
        (show Anything ([] : Str) from trivial) (by rw [h])).1
      simp only [told, Prod.mk.injEq] at he
      exact ⟨by omega, he.2, he.1.1.2, he.1.2⟩
    · rintro ⟨rfl, hv, hi, hout⟩
      rw [told, told, hv, hi, hout]
  · have hmsg : ∀ j, signed.signingMessage j = t.signingMessage j := fun j => by
      rw [signingMessage_eq, signingMessage_eq, (signInputs_eq_ok hs).1 j]
    refine ⟨hmsg, ?_⟩
    rintro before k wallet after rfl hk
    obtain ⟨t₁, h₁, h⟩ := signInputs_append.mp hs
    obtain ⟨t₂, h₂, h⟩ := bind_eq_ok.mp h
    obtain ⟨-, -, x, hxk, hsig, hkey⟩ := signInput_eq_ok h₂
    refine ⟨x, ((signInputs_eq_ok h).2 _ hk).trans hxk, ?_, hkey⟩
    rw [hsig, hmsg, signingMessage_eq, signingMessage_eq, (signInputs_eq_ok h₁).1]

/-- `payment` before Alice signed it. -/
def unsignedPayment : ConsensusTransaction := { payment with inputs := [⟨⟨genesisTxid, 0⟩, none, none⟩] }

/-- Alice's wallet, as far as its one signature. -/
def aliceWallet : Wallet where
  publicKey := ⟨keyAlgorithm, (aliceKey.key).getD []⟩
  sign _ := paymentSignature

theorem isHexHash_genesisTxid : IsHexHash genesisTxid :=
  ⟨by decide, fun c hc => by
    obtain ⟨n, hn, rfl⟩ := exists_hexDigit (mem_hexEncode hc)
    rw [hexValue_hexDigit n hn]
    rfl⟩

theorem signature_authorises_payment : signInputs unsignedPayment [(0, aliceWallet)] = .ok payment ∧
    unsignedPayment.signingMessage 0 = payment.signingMessage 0 ∧ ∃ x, payment.inputs[0]? = some x ∧
      x.signature = some (aliceWallet.sign (payment.signingMessage 0)) ∧ x.publicKey = some aliceKey := by
  have hsign : signInputs unsignedPayment [(0, aliceWallet)] = .ok payment := rfl
  have hin : ∀ x ∈ unsignedPayment.inputs, IsHexHash x.previousOutput.txid :=
    List.forall_mem_singleton.mpr isHexHash_genesisTxid
  obtain ⟨hiff, hsigned⟩ := signature_authorises afterGenesis afterGenesis unsignedPayment payment 0 0 (by decide)
    (by decide) hin (List.forall_mem_singleton.mpr isHexHash_genesisTxid)
  exact ⟨hsign, hiff.mpr ⟨rfl, rfl, rfl, rfl⟩, (hsigned _ _ hsign).2 [] 0 aliceWallet [] rfl List.not_mem_nil⟩

end BCC.Proof
