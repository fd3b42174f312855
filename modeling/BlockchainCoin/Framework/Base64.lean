import BlockchainCoin.Framework.Bytes
import Mathlib.Data.List.DropRight

/-!
# Base64 text

`b64Scan` is the lenient decoder of the standard library (`binascii.a2b_base64`
without its strict mode): characters outside the alphabet are skipped, the
first complete padding ends the data, and data that ends inside a quantum is an
error. What the encoder writes is decoded again
(`urlsafeB64decode_urlsafeB64encode`), also after its padding was stripped and put
back (`strip_urlsafeB64encode`, `length_b64Text`).
-/

namespace BCC

/-- The value of a character of the URL-safe alphabet, whose `-` and `_` are also accepted as the
`+` and `/` of the standard one. -/
def b64Value (c : Char) : Option Nat :=
  if 'A' ≤ c ∧ c ≤ 'Z' then some (c.toNat - 'A'.toNat)
  else if 'a' ≤ c ∧ c ≤ 'z' then some (c.toNat - 'a'.toNat + 26)
  else if '0' ≤ c ∧ c ≤ '9' then some (c.toNat - '0'.toNat + 52)
  else if c = '+' ∨ c = '-' then some 62
  else if c = '/' ∨ c = '_' then some 63
  else none

/-- The scan of a text from inside a quantum: `pos` of its characters are read, the bits of them
not yet written are `left`, and `pads` padding characters were seen since. -/
def b64Scan (pos left pads : Nat) : Str → Option Bytes
  | [] => if pos = 0 then some [] else none
  | c :: cs =>
    if c = '=' then
      if 2 ≤ pos ∧ 4 ≤ pos + (pads + 1) then some []
      else b64Scan pos left (if 2 ≤ pos then pads + 1 else pads) cs
    else match b64Value c with
      | none => b64Scan pos left pads cs
      | some v =>
        match pos with
        | 0 => b64Scan 1 v 0 cs
        | 1 => (UInt8.ofNat (left * 4 + v / 16) :: ·) <$> b64Scan 2 (v % 16) 0 cs
        | 2 => (UInt8.ofNat (left * 16 + v / 4) :: ·) <$> b64Scan 3 (v % 4) 0 cs
        | _ => (UInt8.ofNat (left * 64 + v) :: ·) <$> b64Scan 0 0 0 cs

/-- `base64.urlsafe_b64decode` on ASCII bytes. -/
def urlsafeB64decode (s : Str) : Option Bytes := b64Scan 0 0 0 s

/-- Characters outside the alphabet are skipped. -/
theorem b64Scan_replicate_append {c : Char} (hc : c ≠ '=') (hv : b64Value c = none) (n : Nat) (s : Str)
    (pos left pads : Nat) :
    b64Scan pos left pads (List.replicate n c ++ s) = b64Scan pos left pads s := by
  induction n with
  | zero => rfl
  | succ n ih => rw [List.replicate_succ, List.cons_append, b64Scan, if_neg hc, hv]; exact ih

/-- The scan of a text with characters outside the alphabet inserted in it. -/
theorem b64Scan_append_replicate {c : Char} (hc : c ≠ '=') (hv : b64Value c = none) (n : Nat) (t : Str) :
    ∀ (s : Str) (pos left pads : Nat),
      b64Scan pos left pads (s ++ (List.replicate n c ++ t)) = b64Scan pos left pads (s ++ t)
  | [], pos, left, pads => by
    rw [List.nil_append, List.nil_append, b64Scan_replicate_append hc hv]
  | d :: s, pos, left, pads => by
    rw [List.cons_append, List.cons_append, b64Scan, b64Scan]
    simp only [b64Scan_append_replicate hc hv n t s]

/-! ## Encoding -/

/-- The character of the URL-safe alphabet for six bits. -/
def b64Char (v : Nat) : Char :=
  if v < 26 then Char.ofNat ('A'.toNat + v)
  else if v < 52 then Char.ofNat ('a'.toNat + (v - 26))
  else if v < 62 then Char.ofNat ('0'.toNat + (v - 52))
  else if v = 62 then '-'
  else '_'

/-- The characters for some bytes, four for every three, without padding. -/
def b64Text : Bytes → Str
  | [] => []
  | [a] => [b64Char (a.toNat / 4), b64Char (a.toNat % 4 * 16)]
  | [a, b] => [b64Char (a.toNat / 4), b64Char (a.toNat % 4 * 16 + b.toNat / 16), b64Char (b.toNat % 16 * 4)]
  | a :: b :: c :: bs =>
    b64Char (a.toNat / 4) :: b64Char (a.toNat % 4 * 16 + b.toNat / 16) :: b64Char (b.toNat % 16 * 4 + c.toNat / 64) ::
      b64Char (c.toNat % 64) :: b64Text bs

/-- `base64.urlsafe_b64encode`, as text. -/
def urlsafeB64encode (bs : Bytes) : Str := b64Text bs ++ List.replicate ((3 - bs.length % 3) % 3) '='

theorem b64Value_b64Char : ∀ v < 64, b64Value (b64Char v) = some v := by decide

theorem b64Char_ne_pad : ∀ v < 64, b64Char v ≠ '=' := by decide

theorem b64Char_ascii : ∀ v < 64, (b64Char v).toNat < 128 := by decide

theorem b64Char_of_mem : ∀ {bs : Bytes} {c : Char}, c ∈ b64Text bs → ∃ v < 64, c = b64Char v
  | [a], c, h => by
    have ha := a.toNat_lt
    simp only [b64Text, List.mem_cons, List.not_mem_nil, or_false] at h
    rcases h with rfl | rfl
    · exact ⟨_, by omega, rfl⟩
    · exact ⟨_, by omega, rfl⟩
  | [a, b], c, h => by
    have ha := a.toNat_lt
    have hb := b.toNat_lt
    simp only [b64Text, List.mem_cons, List.not_mem_nil, or_false] at h
    rcases h with rfl | rfl | rfl
    · exact ⟨_, by omega, rfl⟩
    · exact ⟨_, by omega, rfl⟩
    · exact ⟨_, by omega, rfl⟩
  | a :: b :: d :: bs, c, h => by
    have ha := a.toNat_lt
    have hb := b.toNat_lt
    have hd := d.toNat_lt
    simp only [b64Text, List.mem_cons] at h
    rcases h with rfl | rfl | rfl | rfl | h
    · exact ⟨_, by omega, rfl⟩
    · exact ⟨_, by omega, rfl⟩
    · exact ⟨_, by omega, rfl⟩
    · exact ⟨_, by omega, rfl⟩
    · exact b64Char_of_mem h

/-- The padding completes the last quantum of the text, as it does that of the bytes. -/
theorem length_b64Text : ∀ bs : Bytes, (4 - (b64Text bs).length % 4) % 4 = (3 - bs.length % 3) % 3
  | [] => rfl
  | [_] => rfl
  | [_, _] => rfl
  | a :: b :: c :: bs => by
    have ih := length_b64Text bs
    simp only [b64Text, List.length_cons]
    omega

/-- The text without its padding. -/
theorem strip_urlsafeB64encode (bs : Bytes) : (urlsafeB64encode bs).rdropWhile (· == '=') = b64Text bs := by
  have hstrip : ∀ n, (b64Text bs ++ List.replicate n '=').rdropWhile (· == '=') = b64Text bs := fun n => by
    induction n with
    | zero =>
      rw [List.replicate_zero, List.append_nil, List.rdropWhile_eq_self_iff]
      intro hne hpad
      obtain ⟨v, hv, he⟩ := b64Char_of_mem (List.getLast_mem hne)
      exact b64Char_ne_pad v hv (he.symm.trans (beq_iff_eq.mp hpad))
    | succ n ih => rw [List.replicate_succ', ← List.append_assoc, List.rdropWhile_concat_pos _ _ _ (by decide), ih]
  exact hstrip _

section

variable {v left pads : Nat} {a : UInt8} {s : Str}

theorem b64Scan_zero (hv : v < 64) : b64Scan 0 left pads (b64Char v :: s) = b64Scan 1 v 0 s := by
  rw [b64Scan, if_neg (b64Char_ne_pad v hv), b64Value_b64Char v hv]
  rfl

theorem b64Scan_one (hv : v < 64) (ha : left * 4 + v / 16 = a.toNat) :
    b64Scan 1 left pads (b64Char v :: s) = (a :: ·) <$> b64Scan 2 (v % 16) 0 s := by
  rw [b64Scan, if_neg (b64Char_ne_pad v hv), b64Value_b64Char v hv]
  simp only [ha, UInt8.ofNat_toNat]

theorem b64Scan_two (hv : v < 64) (ha : left * 16 + v / 4 = a.toNat) :
    b64Scan 2 left pads (b64Char v :: s) = (a :: ·) <$> b64Scan 3 (v % 4) 0 s := by
  rw [b64Scan, if_neg (b64Char_ne_pad v hv), b64Value_b64Char v hv]
  simp only [ha, UInt8.ofNat_toNat]

theorem b64Scan_three (hv : v < 64) (ha : left * 64 + v = a.toNat) :
    b64Scan 3 left pads (b64Char v :: s) = (a :: ·) <$> b64Scan 0 0 0 s := by
  rw [b64Scan, if_neg (b64Char_ne_pad v hv), b64Value_b64Char v hv]
  simp only [ha, UInt8.ofNat_toNat]

end

theorem urlsafeB64decode_urlsafeB64encode : ∀ bs : Bytes, urlsafeB64decode (urlsafeB64encode bs) = some bs
  | [] => rfl
  | [a] => by
    have ha := a.toNat_lt
    show b64Scan 0 0 0 (b64Char _ :: b64Char _ :: ['=', '=']) = _
    rw [b64Scan_zero (by omega), b64Scan_one (a := a) (by omega) (by omega)]
    rfl
  | [a, b] => by
    have ha := a.toNat_lt
    have hb := b.toNat_lt
    show b64Scan 0 0 0 (b64Char _ :: b64Char _ :: b64Char _ :: ['=']) = _
    rw [b64Scan_zero (by omega), b64Scan_one (a := a) (by omega) (by omega), b64Scan_two (a := b) (by omega) (by omega)]
    rfl
  | a :: b :: c :: bs => by
    have ha := a.toNat_lt
    have hb := b.toNat_lt
    have hc := c.toNat_lt
    have hpad : (3 - (a :: b :: c :: bs).length % 3) % 3 = (3 - bs.length % 3) % 3 := by
      simp only [List.length_cons]
      omega
    rw [urlsafeB64encode, hpad]
    show b64Scan 0 0 0 (b64Char _ :: b64Char _ :: b64Char _ :: b64Char _ :: urlsafeB64encode bs) = _
    have ih : b64Scan 0 0 0 (urlsafeB64encode bs) = some bs := urlsafeB64decode_urlsafeB64encode bs
    rw [b64Scan_zero (by omega), b64Scan_one (a := a) (by omega) (by omega), b64Scan_two (a := b) (by omega) (by omega),
      b64Scan_three (a := c) (by omega) (by omega), ih]
    rfl

end BCC
