import BlockchainCoin.Framework.Except

/-!
# Byte strings

`beBytes k n` are the `k` bytes of `n`, most significant first, and `ofBeBytes`
reads them back (`ofBeBytes_beBytes`, `beBytes_ofBeBytes`). `hexEncode` and
`hexDecode` are the text form of a byte string: two lower-case digits for each
byte, and what reads it back, which also takes upper-case digits and skips
white space between bytes (`hexDecode_hexEncode`). `utf8Encode` and
`utf8Decode` are the UTF-8 form of a text.
-/

namespace BCC

abbrev Bytes := List UInt8

/-- A text, as its characters. -/
abbrev Str := List Char

instance : LawfulBEq Str := inferInstance

/-! ## Big-endian words -/

/-- The low `k` bytes of `n`, most significant first. -/
def beBytes : Nat → Nat → Bytes
  | 0, _ => []
  | k + 1, n => UInt8.ofNat (n / 256 ^ k) :: beBytes k n

/-- The number a big-endian byte string represents. -/
def ofBeBytes (bs : Bytes) : Nat := bs.foldl (fun n b => 256 * n + b.toNat) 0

@[simp] theorem length_beBytes : ∀ k n, (beBytes k n).length = k
  | 0, _ => rfl
  | k + 1, n => by rw [beBytes, List.length_cons, length_beBytes k n]

theorem foldl_beBytes (k n : Nat) : ∀ a : Nat,
    (beBytes k n).foldl (fun n b => 256 * n + b.toNat) a = 256 ^ k * a + n % 256 ^ k := by
  induction k with
  | zero => intro a; simp [beBytes, Nat.mod_one]
  | succ k ih =>
    intro a
    rw [beBytes, List.foldl_cons, ih, UInt8.toNat_ofNat', show (2 : Nat) ^ 8 = 256 from rfl,
      pow_succ, Nat.mod_mul]
    ring

theorem ofBeBytes_beBytes {k n : Nat} (h : n < 256 ^ k) : ofBeBytes (beBytes k n) = n := by
  rw [ofBeBytes, foldl_beBytes, Nat.mod_eq_of_lt h, Nat.mul_zero, Nat.zero_add]

/-- Numbers that fit in `k` bytes are equal when their bytes are. -/
theorem beBytes_inj {k m n : Nat} (hm : m < 256 ^ k) (hn : n < 256 ^ k) (h : beBytes k m = beBytes k n) :
    m = n := by
  rw [← ofBeBytes_beBytes hm, h, ofBeBytes_beBytes hn]

theorem foldl_ofBeBytes (bs : Bytes) : ∀ a : Nat,
    bs.foldl (fun n b => 256 * n + b.toNat) a = 256 ^ bs.length * a + ofBeBytes bs := by
  induction bs with
  | nil => intro a; simp [ofBeBytes]
  | cons b bs ih =>
    intro a
    have h : ofBeBytes (b :: bs) = 256 ^ bs.length * b.toNat + ofBeBytes bs := by
      rw [ofBeBytes, List.foldl_cons, ih, Nat.mul_zero, Nat.zero_add]
    rw [List.foldl_cons, ih, h, List.length_cons, pow_succ]
    ring

theorem ofBeBytes_lt (bs : Bytes) : ofBeBytes bs < 256 ^ bs.length := by
  induction bs with
  | nil => simp [ofBeBytes]
  | cons b bs ih =>
    have hb := b.toNat_lt
    rw [ofBeBytes, List.foldl_cons, foldl_ofBeBytes, List.length_cons, pow_succ]
    nlinarith

theorem beBytes_add_mul (k d n : Nat) : beBytes k (256 ^ k * d + n) = beBytes k n := by
  induction k generalizing d with
  | zero => rfl
  | succ k ih =>
    rw [beBytes, beBytes]
    have h : 256 ^ (k + 1) * d + n = 256 ^ k * (256 * d) + n := by ring
    rw [h, ih, Nat.mul_add_div (by positivity)]
    congr 1
    apply UInt8.toNat.inj
    rw [UInt8.toNat_ofNat', UInt8.toNat_ofNat']
    omega

theorem beBytes_ofBeBytes (bs : Bytes) : beBytes bs.length (ofBeBytes bs) = bs := by
  induction bs with
  | nil => rfl
  | cons b bs ih =>
    have hlt := ofBeBytes_lt bs
    rw [List.length_cons, ofBeBytes, List.foldl_cons, foldl_ofBeBytes, Nat.mul_zero, Nat.zero_add, beBytes,
      beBytes_add_mul, ih, Nat.mul_add_div (by positivity), Nat.div_eq_of_lt hlt, Nat.add_zero,
      UInt8.ofNat_toNat]

/-! ## Hexadecimal text -/

/-- The lower-case digits. -/
def hexDigits : List Char := ['0', '1', '2', '3', '4', '5', '6', '7', '8', '9', 'a', 'b', 'c', 'd', 'e', 'f']

/-- The lower-case digit of a number below 16. -/
def hexDigit (n : Nat) : Char := hexDigits.getD n '0'

/-- `bytes.hex`: two lower-case digits for each byte. -/
def hexEncode (bs : Bytes) : Str := bs.flatMap fun b => [hexDigit (b.toNat / 16), hexDigit (b.toNat % 16)]

/-- The value of a digit, of either case. -/
def hexValue (c : Char) : Option Nat :=
  if '0' ≤ c ∧ c ≤ '9' then some (c.toNat - '0'.toNat)
  else if 'a' ≤ c ∧ c ≤ 'f' then some (c.toNat - 'a'.toNat + 10)
  else if 'A' ≤ c ∧ c ≤ 'F' then some (c.toNat - 'A'.toNat + 10)
  else none

/-- ASCII white space. -/
def isAsciiSpace (c : Char) : Bool := c = ' ' || ('\t' ≤ c && c ≤ '\r')

/-- `bytes.fromhex`: white space is skipped between bytes, not inside one. -/
def hexDecode : Str → Option Bytes
  | [] => some []
  | [c] => if isAsciiSpace c then some [] else none
  | c :: d :: cs =>
    if isAsciiSpace c then hexDecode (d :: cs)
    else do
      let hi ← hexValue c
      let lo ← hexValue d
      let bs ← hexDecode cs
      return UInt8.ofNat (16 * hi + lo) :: bs

theorem hexValue_hexDigit : ∀ n < 16, hexValue (hexDigit n) = some n := by decide

theorem isAsciiSpace_hexDigit : ∀ n < 16, isAsciiSpace (hexDigit n) = false := by decide

theorem hexEncode_cons (b : UInt8) (bs : Bytes) :
    hexEncode (b :: bs) = hexDigit (b.toNat / 16) :: hexDigit (b.toNat % 16) :: hexEncode bs := rfl

@[simp] theorem length_hexEncode (bs : Bytes) : (hexEncode bs).length = 2 * bs.length := by
  induction bs with
  | nil => rfl
  | cons b bs ih => rw [hexEncode_cons]; simp only [List.length_cons, ih]; omega

theorem hexDecode_hexEncode (bs : Bytes) : hexDecode (hexEncode bs) = some bs := by
  induction bs with
  | nil => rfl
  | cons b bs ih =>
    have hb := b.toNat_lt
    rw [hexEncode_cons, hexDecode, isAsciiSpace_hexDigit _ (by omega), hexValue_hexDigit _ (by omega),
      hexValue_hexDigit _ (by omega), ih]
    simp only [Bool.false_eq_true, ite_false, Option.bind_eq_bind, Option.bind_some, Option.pure_def,
      Nat.div_add_mod, UInt8.ofNat_toNat]

theorem hexEncode_inj {bs cs : Bytes} (h : hexEncode bs = hexEncode cs) : bs = cs := by
  have := congrArg hexDecode h
  rwa [hexDecode_hexEncode, hexDecode_hexEncode, Option.some.injEq] at this

theorem exists_hexDigit {c : Char} (h : c ∈ hexDigits) : ∃ n < 16, hexDigit n = c := by
  obtain ⟨n, hn, rfl⟩ := List.getElem_of_mem h
  exact ⟨n, hn, List.getD_eq_getElem _ _ hn⟩

/-- A text of lower-case digits, two for each byte, is the text of some bytes. -/
theorem exists_hexEncode : ∀ {k : Nat} {s : Str}, s.length = 2 * k → (∀ c ∈ s, c ∈ hexDigits) →
    ∃ bs : Bytes, bs.length = k ∧ hexEncode bs = s
  | 0, s, hlen, _ => ⟨[], rfl, (List.length_eq_zero_iff.mp hlen).symm⟩
  | k + 1, c :: d :: s, hlen, hs => by
    obtain ⟨hi, hhi, rfl⟩ := exists_hexDigit (hs c List.mem_cons_self)
    obtain ⟨lo, hlo, rfl⟩ := exists_hexDigit (hs d (List.mem_cons_of_mem _ List.mem_cons_self))
    rw [List.length_cons, List.length_cons] at hlen
    obtain ⟨bs, hbs, rfl⟩ := exists_hexEncode (k := k) (by omega) fun e he =>
      hs e (List.mem_cons_of_mem _ (List.mem_cons_of_mem _ he))
    have hbyte : (UInt8.ofNat (16 * hi + lo)).toNat = 16 * hi + lo := by
      rw [UInt8.toNat_ofNat', Nat.mod_eq_of_lt (by omega)]
    refine ⟨UInt8.ofNat (16 * hi + lo) :: bs, by rw [List.length_cons, hbs], ?_⟩
    rw [hexEncode_cons, hbyte, show (16 * hi + lo) / 16 = hi by omega, show (16 * hi + lo) % 16 = lo by omega]
  | k + 1, [], hlen, _ => by rw [List.length_nil] at hlen; omega
  | k + 1, [_], hlen, _ => by rw [List.length_singleton] at hlen; omega

theorem mem_hexEncode {bs : Bytes} {c : Char} (h : c ∈ hexEncode bs) : c ∈ hexDigits := by
  have hdigit : ∀ n < 16, hexDigit n ∈ hexDigits := by decide
  obtain ⟨b, -, hc⟩ := List.mem_flatMap.mp h
  have hb := b.toNat_lt
  rw [List.mem_cons, List.mem_singleton] at hc
  rcases hc with rfl | rfl
  · exact hdigit _ (by omega)
  · exact hdigit _ (by omega)

/-! ## UTF-8 -/

/-- `str.encode("utf-8")`. -/
def utf8Encode (s : Str) : Bytes := s.flatMap String.utf8EncodeChar

/-- The characters of a byte string, at most `fuel` of them. -/
def utf8DecodeFuel : Nat → Bytes → Option Str
  | _, [] => some []
  | 0, _ :: _ => none
  | fuel + 1, b :: bs => do
    let c ← (b :: bs).toByteArray.utf8DecodeChar? 0
    let cs ← utf8DecodeFuel fuel ((b :: bs).drop c.utf8Size)
    return c :: cs

/-- `bytes.decode("utf-8")`, which fails on a byte string that is not UTF-8. -/
def utf8Decode (bs : Bytes) : Option Str := utf8DecodeFuel bs.length bs

theorem utf8Encode_cons (c : Char) (s : Str) :
    utf8Encode (c :: s) = String.utf8EncodeChar c ++ utf8Encode s := rfl

@[simp] theorem utf8Encode_append (s t : Str) : utf8Encode (s ++ t) = utf8Encode s ++ utf8Encode t := by
  simp [utf8Encode]

theorem length_utf8Encode_of_ascii : ∀ {s : Str}, (∀ c ∈ s, c.toNat < 128) → (utf8Encode s).length = s.length
  | [], _ => rfl
  | c :: s, h => by
    obtain ⟨hc, hs⟩ := List.forall_mem_cons.mp h
    have hsize : c.utf8Size = 1 := by
      rw [Char.utf8Size_eq_one_iff]
      exact Nat.le_of_lt_succ (show c.toNat < 128 from hc)
    rw [utf8Encode_cons, List.length_append, String.length_utf8EncodeChar, hsize, length_utf8Encode_of_ascii hs,
      List.length_cons, Nat.add_comm]

theorem ascii_of_mem_hexDigits : ∀ c ∈ hexDigits, c.toNat < 128 := by simp [hexDigits]

theorem utf8DecodeFuel_utf8Encode (s : Str) : ∀ fuel, (utf8Encode s).length ≤ fuel →
    utf8DecodeFuel fuel (utf8Encode s) = some s := by
  induction s with
  | nil => intro fuel _; cases fuel <;> rfl
  | cons c s ih =>
    intro fuel hf
    have hpos := c.utf8Size_pos
    have hlen : (String.utf8EncodeChar c).length = c.utf8Size := String.length_utf8EncodeChar c
    obtain ⟨b, bs, hb⟩ : ∃ b bs, utf8Encode (c :: s) = b :: bs := by
      cases h : utf8Encode (c :: s) with
      | nil =>
        have := congrArg List.length h
        simp only [utf8Encode_cons, List.length_append, hlen, List.length_nil] at this
        omega
      | cons b bs => exact ⟨b, bs, rfl⟩
    have hdec : (b :: bs).toByteArray.utf8DecodeChar? 0 = some c := by
      rw [← hb, utf8Encode_cons, List.toByteArray_append]
      exact ByteArray.utf8DecodeChar?_utf8EncodeChar_append
    have hdrop : (b :: bs).drop c.utf8Size = utf8Encode s := by
      rw [← hb, utf8Encode_cons, ← hlen, List.drop_left]
    rw [utf8Encode_cons, List.length_append, hlen] at hf
    obtain ⟨fuel, rfl⟩ : ∃ f, fuel = f + 1 := ⟨fuel - 1, by omega⟩
    rw [hb, utf8DecodeFuel, hdec]
    simp only [Option.bind_eq_bind, Option.bind_some, hdrop, ih fuel (by omega), Option.pure_def]

theorem utf8Decode_utf8Encode (s : Str) : utf8Decode (utf8Encode s) = some s :=
  utf8DecodeFuel_utf8Encode s _ (Nat.le_refl _)

theorem utf8Encode_of_utf8DecodeFuel : ∀ {fuel : Nat} {bs : Bytes} {s : Str},
    utf8DecodeFuel fuel bs = some s → utf8Encode s = bs
  | _, [], s, h => by
    rw [utf8DecodeFuel, Option.some.injEq] at h
    exact h ▸ rfl
  | 0, _ :: _, s, h => by cases h
  | fuel + 1, b :: bs, s, h => by
    simp only [utf8DecodeFuel, Option.bind_eq_bind, Option.bind_eq_some_iff, Option.pure_def,
      Option.some.injEq] at h
    obtain ⟨c, hc, cs, hcs, rfl⟩ := h
    obtain ⟨l, hl⟩ := ByteArray.exists_of_utf8DecodeChar?_eq_some hc
    have hbytes : b :: bs = String.utf8EncodeChar c ++ l.data.toList := by
      have hdata := congrArg (fun x : ByteArray => x.data.toList) hl
      simpa [ByteArray.data_append, List.data_toByteArray] using hdata
    rw [utf8Encode_cons, utf8Encode_of_utf8DecodeFuel hcs, hbytes,
      ← String.length_utf8EncodeChar c, List.drop_left]

/-- Only the UTF-8 form of a text is decoded to it. -/
theorem utf8Encode_of_utf8Decode {bs : Bytes} {s : Str} (h : utf8Decode bs = some s) : utf8Encode s = bs :=
  utf8Encode_of_utf8DecodeFuel h

end BCC
