import BlockchainCoin.Impl.ByteReader
import BlockchainCoin.Proof.Decode

/-!
# Decoding within the input

The decoders on their cursor compute what the decoders on bytes do
(`computes_transaction`, `computes_block`). Every element that is decoded takes a byte at
least, so that a bank of the bytes read pays for the elements (`pays_transaction`,
`pays_block`), whatever counts and lengths the payload declares.
-/

namespace BCC.Proof

open BCC.Impl PyError

/-! ## The cursor and the bytes that are left -/

open Cursor (Computes)

theorem computes_read (size : Nat) : Computes (ByteReader.read size) (Reader.read size) := .read _ size

theorem computes_requireFinished : Computes ByteReader.requireFinished Reader.requireFinished := fun c hc => by
  have hiff : c.rest ≠ [] ↔ c.offset ≠ c.payload.length := by
    rw [ne_eq, Cursor.rest, List.drop_eq_nil_iff]
    omega
  rw [Reader.requireFinished, ByteReader.requireFinished, Method.call_bind, Method.call_get]
  by_cases h : c.offset ≠ c.payload.length
  · simp only [if_pos h, if_pos (hiff.mpr h)]
    exact ⟨c, rfl⟩
  · simp only [if_neg h, if_neg (hiff.not.mpr h)]
    exact ⟨c, rfl, rfl, hc, rfl⟩

theorem computes_readExpected (expected : Bytes) (message : String) :
    Computes (ByteReader.readExpected expected message) (Reader.readExpected expected message) :=
  (computes_read _).bind fun raw => by
    by_cases h : raw = expected
    · rw [if_pos h, if_pos h]
      exact .pure ()
    · rw [if_neg h, if_neg h]
      exact .throw _

theorem computes_readOptional {α : Type} {x : Method ByteReader PyError α} {r : Reader α} (hx : Computes x r)
    (message : String) : Computes (ByteReader.readOptional x message) (Reader.readOptional r message) :=
  (computes_read 1).bind fun present => by
    by_cases h₀ : present = [0]
    · rw [if_pos h₀, if_pos h₀]
      exact .pure none
    rw [if_neg h₀, if_neg h₀]
    by_cases h₁ : present = [1]
    · rw [if_pos h₁, if_pos h₁, map_eq_pure_bind]
      exact hx.bind fun a => .pure (some a)
    · rw [if_neg h₁, if_neg h₁]
      exact .throw _

theorem computes_many {α : Type} {x : Method ByteReader PyError α} {r : Reader α} (hx : Computes x r) :
    ∀ count, Computes (Cursor.many x count) (Reader.readMany r count)
  | 0 => .pure []
  | count + 1 => hx.element.bind fun a => (computes_many hx count).bind fun rest => .pure (a :: rest)

theorem computes_decodeInt : Computes ByteReader.decodeInt decodeInt := (computes_read 8).bind fun _ => .pure _

theorem computes_decodeUint : Computes ByteReader.decodeUint decodeUint := (computes_read 8).bind fun _ => .pure _

theorem computes_decodeFloat : Computes ByteReader.decodeFloat decodeFloat := (computes_read 8).bind fun _ => .pure _

theorem computes_decodeBytes : Computes ByteReader.decodeBytes decodeBytes :=
  (computes_read 4).bind fun size => computes_read (ofBeBytes size)

theorem computes_decodeText : Computes ByteReader.decodeText decodeText := computes_decodeBytes.bind fun raw => by
  cases utf8Decode raw with
  | some s => exact .pure s
  | none => exact .throw _

theorem computes_outPoint : Computes ByteReader.outPoint OutPoint.fromReader :=
  (computes_read 32).bind fun _ => computes_decodeInt.bind fun _ => .pure _

theorem computes_publicKey : Computes ByteReader.publicKey decodePublicKey :=
  computes_decodeText.bind fun _ => computes_decodeText.bind fun _ => .pure _

theorem computes_txInput (includeWitness : Bool) :
    Computes (ByteReader.txInput includeWitness) (TxInput.fromReader includeWitness) :=
  computes_outPoint.bind fun _ => by
    cases includeWitness with
    | false => exact .pure _
    | true =>
      exact (computes_readOptional computes_decodeText _).bind fun _ =>
        (computes_readOptional computes_publicKey _).bind fun _ => .pure _

theorem computes_txOutput : Computes ByteReader.txOutput TxOutput.fromReader :=
  computes_decodeUint.bind fun _ => computes_decodeText.bind fun _ => .pure _

theorem computes_transaction (includeWitness : Bool) :
    Computes (ByteReader.transaction includeWitness) (Reader.finished (ConsensusTransaction.fromReader includeWitness)) := by
  rw [Reader.finished, ConsensusTransaction.fromReader]
  simp only [bind_assoc, pure_bind]
  refine (computes_readExpected _ _).bind fun _ => (computes_readExpected _ _).bind fun _ => computes_decodeInt.bind fun _ => ?_
  refine computes_decodeUint.bind fun _ => (computes_many (computes_txInput _) _).bind fun _ => ?_
  exact computes_decodeUint.bind fun _ => (computes_many computes_txOutput _).bind fun _ =>
    computes_requireFinished.bind fun _ => .pure _

theorem computes_transactionField : Computes ByteReader.transactionField ConsensusTransaction.decodeField :=
  computes_decodeBytes.bind fun _ => (computes_transaction true).nested

theorem computes_block : Computes ByteReader.block (Reader.finished ConsensusBlock.fromReader) := by
  rw [Reader.finished, ConsensusBlock.fromReader]
  simp only [bind_assoc, pure_bind]
  refine (computes_readExpected _ _).bind fun _ => (computes_readExpected _ _).bind fun _ => computes_decodeInt.bind fun _ => ?_
  refine computes_decodeInt.bind fun _ => (computes_read 32).bind fun _ => (computes_read 32).bind fun _ => ?_
  refine computes_decodeInt.bind fun _ => computes_decodeFloat.bind fun _ => computes_decodeInt.bind fun _ => ?_
  exact computes_decodeUint.bind fun _ => (computes_many computes_transactionField _).bind fun _ =>
    computes_requireFinished.bind fun _ => .pure _

/-! ## What the bytes pay for -/

/-- An error that is a `ConsensusError`. -/
def IsConsensusError (e : PyError) : Prop := ∃ text, e = consensusError text

/-- The bank of a decoder that raises nothing but a `ConsensusError`. -/
abbrev PaysBytes {α : Type} (x : Method ByteReader PyError α) (k : Nat) (q : α → Nat) : Prop :=
  Cursor.Pays IsConsensusError x k q

open Cursor (Pays)

theorem pays_read (size k : Nat) : PaysBytes (ByteReader.read size) k fun _ => k + size := .read ⟨_, rfl⟩ size k

theorem pays_requireFinished (k : Nat) : PaysBytes ByteReader.requireFinished k fun _ => k := fun _ c hc => by
  refine .bind (.get ?_)
  split
  · exact .throw ⟨⟨_, rfl⟩, hc.mono (Nat.zero_le _), rfl⟩
  · exact .pure ⟨hc, rfl⟩

theorem pays_readExpected (expected : Bytes) (message : String) (k : Nat) :
    PaysBytes (ByteReader.readExpected expected message) k fun _ => k :=
  (pays_read _ k).bind fun _ => by
    split
    · exact .pure (Nat.le_add_right _ _)
    · exact .throw ⟨_, rfl⟩

theorem pays_readOptional {α : Type} {x : Method ByteReader PyError α} {k : Nat} (message : String)
    (hx : PaysBytes x (k + 1) fun _ => k + 1) : PaysBytes (ByteReader.readOptional x message) k fun _ => k + 1 :=
  (pays_read 1 k).bind fun _ => by
    split
    · exact .pure (Nat.le_refl _)
    split
    · exact hx.bind fun _ => .pure (Nat.le_refl _)
    · exact .throw ⟨_, rfl⟩

theorem pays_decodeInt (k : Nat) : PaysBytes ByteReader.decodeInt k fun _ => k + 8 :=
  (pays_read 8 k).bind fun _ => .pure (Nat.le_refl _)

theorem pays_decodeUint (k : Nat) : PaysBytes ByteReader.decodeUint k fun _ => k + 8 :=
  (pays_read 8 k).bind fun _ => .pure (Nat.le_refl _)

theorem pays_decodeFloat (k : Nat) : PaysBytes ByteReader.decodeFloat k fun _ => k + 8 :=
  (pays_read 8 k).bind fun _ => .pure (Nat.le_refl _)

theorem pays_decodeBytes (k : Nat) : PaysBytes ByteReader.decodeBytes k fun raw => k + 4 + raw.length :=
  (pays_read 4 k).bind fun _ => .read_length ⟨_, rfl⟩ _ (k + 4)

theorem pays_decodeText (k : Nat) : PaysBytes ByteReader.decodeText k fun _ => k + 4 :=
  (pays_decodeBytes k).bind fun raw => by
    split
    · exact .pure (Nat.le_add_right _ _)
    · exact .throw ⟨_, rfl⟩

/-- What is not needed of the bank is left out of account. -/
theorem keeps {α : Type} {x : Method ByteReader PyError α} {k n : Nat} (hx : PaysBytes x k fun _ => k + n) :
    PaysBytes x k fun _ => k := hx.mono (Nat.le_refl k) fun _ => Nat.le_add_right k n

theorem pays_outPoint (k : Nat) : PaysBytes ByteReader.outPoint k fun _ => k + 40 :=
  (pays_read 32 k).bind fun _ => (pays_decodeInt (k + 32)).bind fun _ => .pure (Nat.le_refl _)

theorem pays_publicKey (k : Nat) : PaysBytes ByteReader.publicKey k fun _ => k :=
  (keeps (pays_decodeText k)).bind fun _ => (keeps (pays_decodeText k)).bind fun _ => .pure (Nat.le_refl k)

theorem pays_txInput (includeWitness : Bool) : PaysBytes (ByteReader.txInput includeWitness) 0 fun _ => 1 :=
  (pays_outPoint 0).bind fun _ => by
    cases includeWitness with
    | false => exact .pure (by decide)
    | true =>
      exact (pays_readOptional _ (keeps (pays_decodeText 41))).bind fun _ =>
        (pays_readOptional _ (pays_publicKey 42)).bind fun _ => .pure (by decide)

theorem pays_txOutput : PaysBytes ByteReader.txOutput 0 fun _ => 1 :=
  (pays_decodeUint 0).bind fun _ => (pays_decodeText 8).bind fun _ => .pure (by decide)

theorem pays_transaction (includeWitness : Bool) : PaysBytes (ByteReader.transaction includeWitness) 1 fun _ => 1 := by
  refine (pays_readExpected _ _ 1).bind fun _ => (pays_readExpected _ _ 1).bind fun _ => (keeps (pays_decodeInt 1)).bind fun _ => ?_
  refine (keeps (pays_decodeUint 1)).bind fun _ => (Pays.many (pays_txInput _) _).bind fun _ => ?_
  exact (keeps (pays_decodeUint 1)).bind fun _ => (Pays.many pays_txOutput _).bind fun _ =>
    (pays_requireFinished 1).bind fun _ => .pure (Nat.le_refl 1)

/-- The transaction takes out what its bytes are worth, which leaves the four of its length. -/
theorem pays_transactionField : PaysBytes ByteReader.transactionField 0 fun _ => 1 :=
  (pays_decodeBytes 0).bind fun _ => (pays_transaction true).nested (fun _ => by omega) (by omega)

theorem pays_block : PaysBytes ByteReader.block 1 fun _ => 1 := by
  refine (pays_readExpected _ _ 1).bind fun _ => (pays_readExpected _ _ 1).bind fun _ => (keeps (pays_decodeInt 1)).bind fun _ => ?_
  refine (keeps (pays_decodeInt 1)).bind fun _ => (keeps (pays_read 32 1)).bind fun _ => (keeps (pays_read 32 1)).bind fun _ => ?_
  refine (keeps (pays_decodeInt 1)).bind fun _ => (keeps (pays_decodeFloat 1)).bind fun _ => (keeps (pays_decodeInt 1)).bind fun _ => ?_
  exact (keeps (pays_decodeUint 1)).bind fun _ => (Pays.many pays_transactionField _).bind fun _ =>
    (pays_requireFinished 1).bind fun _ => .pure (Nat.le_refl 1)

/-! ## How many elements there are -/

theorem le_length_flatten {α : Type} {n : Nat} {as : List α} {bss : List Bytes}
    (h : List.Forall₂ (fun _ bs => n ≤ bs.length) as bss) : n * as.length ≤ bss.flatten.length := by
  induction h with
  | nil => exact Nat.le_refl 0
  | cons hbs _ ih =>
    rw [List.length_cons, Nat.mul_succ, List.flatten_cons, List.length_append]
    omega

theorem length_decodeText : Takes decodeText fun _ bs => 4 ≤ bs.length := takes_decodeText.mono fun _ bs h => by
  obtain ⟨-, rfl⟩ := encodeBytes_eq_ok.mp h
  rw [List.length_append, length_beBytes]
  exact Nat.le_add_right 4 _

theorem length_outPoint_read : Takes OutPoint.fromReader fun _ bs => bs.length = 40 :=
  takes_outPoint.mono fun _ _ h => length_outPoint h.1

theorem length_readOptional {α : Type} {r : Reader α} (hr : Takes r fun _ _ => True) (message : String) :
    Takes (Reader.readOptional r message) fun _ bs => 1 ≤ bs.length :=
  (Takes.readOptional hr message).mono fun _ bs h => by
    rcases h with ⟨-, rfl⟩ | ⟨_, _, -, -, rfl⟩
    · exact Nat.le_refl 1
    · exact Nat.le_add_left 1 _

theorem length_txInput : Takes (TxInput.fromReader true) fun _ bs => 42 ≤ bs.length :=
  length_outPoint_read.bind fun _ bs hbs => by
    refine (length_readOptional (takes_decodeText.mono fun _ _ _ => trivial) _).bind fun _ cs hcs => ?_
    refine (length_readOptional (takes_publicKey.mono fun _ _ _ => trivial) _).last fun _ ds hds => ?_
    rw [List.length_append, List.length_append]
    omega

theorem length_txOutput : Takes TxOutput.fromReader fun _ bs => 12 ≤ bs.length :=
  takes_decodeUint.bind fun _ bs hbs => length_decodeText.last fun _ cs hcs => by
    rw [List.length_append, length_encodeUint hbs]
    omega

theorem length_transaction : Takes ConsensusTransaction.fromReader fun t bs =>
    42 * t.inputs.length ≤ bs.length ∧ 12 * t.outputs.length ≤ bs.length := by
  refine (Takes.readExpected _ _).bind fun _ _ _ => (Takes.readExpected _ _).bind fun _ _ _ => takes_decodeInt.bind fun _ _ _ => ?_
  refine takes_decodeUint.bind fun _ _ _ => (length_txInput.readMany _).bind fun _ _ hinputs => ?_
  refine takes_decodeUint.bind fun _ _ _ => (length_txOutput.readMany _).last fun _ _ houtputs => ?_
  obtain ⟨-, _, hinputs, rfl⟩ := hinputs
  obtain ⟨-, _, houtputs, rfl⟩ := houtputs
  have hin := le_length_flatten hinputs
  have hout := le_length_flatten houtputs
  simp only [List.length_append]
  omega

/-! ## Decoding -/

/-- A decoder on a whole payload computes `decoded`, which is a value or a `ConsensusError`, never reads past the end and
begins with no more elements than there are bytes, and one. -/
structure DecodesWithin {α : Type} (x : Method ByteReader PyError α) (payload : Bytes) (decoded : Except PyError α) : Prop where
  result : (x.call { payload := payload }).1 = decoded
  raises : Raises IsConsensusError decoded
  inBounds : (x.call { payload := payload }).2.InBounds
  elements : Cursor.elements (x.call { payload := payload }).2.log ≤ payload.length + 1

theorem decodesWithin {α : Type} {x : Method ByteReader PyError α} {r : Reader α} (hpays : PaysBytes x 1 fun _ => 1)
    (hcomputes : Computes x r) (payload : Bytes) : DecodesWithin x payload (r.run' payload) := by
  have hresult := hcomputes.result payload
  have hends := hpays 0 { payload := payload } ⟨⟨Nat.zero_le _, nofun⟩, Nat.le_refl 1⟩
  rw [Method.Ends] at hends
  rcases hcall : x.call { payload := payload } with ⟨e | a, c⟩
  · rw [hcall] at hends hresult
    obtain ⟨he, hholds, hpayload⟩ := hends
    have hle := hholds.elements_le hpayload
    refine ⟨by rw [hcall]; exact hresult, ?_, by rw [hcall]; exact hholds.inBounds, by rw [hcall]; dsimp only at hle ⊢; omega⟩
    rw [← hresult]
    exact .error he
  · rw [hcall] at hends hresult
    obtain ⟨hholds, hpayload⟩ := hends
    have hle := hholds.elements_le hpayload
    refine ⟨by rw [hcall]; exact hresult, ?_, by rw [hcall]; exact hholds.inBounds, by rw [hcall]; dsimp only at hle ⊢; omega⟩
    rw [← hresult]
    exact .ok a

/-- Decoding is bounded by the payload, whatever counts and lengths it declares. -/
theorem decoding_within (payload : Bytes) :
    (∀ includeWitness, DecodesWithin (ByteReader.transaction includeWitness) payload
      (ConsensusTransaction.fromBytes payload includeWitness)) ∧
    DecodesWithin ByteReader.block payload (ConsensusBlock.fromBytes payload) ∧
    ∀ t, ConsensusTransaction.fromBytes payload = .ok t →
      t.inputs.length ≤ payload.length / 42 ∧ t.outputs.length ≤ payload.length / 12 := by
  refine ⟨fun includeWitness => decodesWithin (pays_transaction includeWitness) (computes_transaction includeWitness) payload,
    decodesWithin pays_block computes_block payload, fun t ht => ?_⟩
  obtain ⟨hin, hout⟩ := length_transaction.of_run' ht
  omega

/-- A payload that declares `2 ** 64 - 1` inputs, and ends. -/
def missingInputs : Bytes := transactionMagic ++ beBytes 8 1 ++ beBytes 8 (2 ^ 64 - 1)

example : Cursor.elements ((ByteReader.transaction true).call { payload := missingInputs }).2.log = 1 := by decide +kernel

end BCC.Proof
