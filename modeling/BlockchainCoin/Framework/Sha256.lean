import BlockchainCoin.Framework.Bytes

/-!
# SHA-256

The hash of FIPS 180-4, on byte strings: padding to whole 64-byte blocks
(`padded`), the message schedule (`schedule`), 64 rounds a block (`rounds`) and
the chaining of blocks (`digest`). A word is a `Nat` below `2³²`, and the
operations on words are written with the functions of `Nat` that the kernel
computes with big numbers, so that the digest of a closed byte string can be
computed inside a proof.

Nothing is proved about the digest but its length: what a caller needs of the
function beyond that is `NoCollision`, injectivity on the byte strings at hand.
-/

namespace BCC

namespace Sha256

/-- Addition of words. -/
def add (x y : Nat) : Nat := Nat.mod (Nat.add x y) 4294967296

def xor3 (x y z : Nat) : Nat := Nat.xor (Nat.xor x y) z

/-- A word rotated right by `n` bits. -/
def rotr (x n : Nat) : Nat :=
  Nat.lor (Nat.shiftRight x n) (Nat.mod (Nat.shiftLeft x (Nat.sub 32 n)) 4294967296)

def bigSigma0 (x : Nat) : Nat := xor3 (rotr x 2) (rotr x 13) (rotr x 22)

def bigSigma1 (x : Nat) : Nat := xor3 (rotr x 6) (rotr x 11) (rotr x 25)

def smallSigma0 (x : Nat) : Nat := xor3 (rotr x 7) (rotr x 18) (Nat.shiftRight x 3)

def smallSigma1 (x : Nat) : Nat := xor3 (rotr x 17) (rotr x 19) (Nat.shiftRight x 10)

def ch (x y z : Nat) : Nat := Nat.xor (Nat.land x y) (Nat.land (Nat.xor x 0xffffffff) z)

def maj (x y z : Nat) : Nat := xor3 (Nat.land x y) (Nat.land x z) (Nat.land y z)

/-- The round constants. -/
def roundConstants : List Nat :=
  [0x428a2f98, 0x71374491, 0xb5c0fbcf, 0xe9b5dba5, 0x3956c25b, 0x59f111f1, 0x923f82a4, 0xab1c5ed5,
    0xd807aa98, 0x12835b01, 0x243185be, 0x550c7dc3, 0x72be5d74, 0x80deb1fe, 0x9bdc06a7, 0xc19bf174,
    0xe49b69c1, 0xefbe4786, 0x0fc19dc6, 0x240ca1cc, 0x2de92c6f, 0x4a7484aa, 0x5cb0a9dc, 0x76f988da,
    0x983e5152, 0xa831c66d, 0xb00327c8, 0xbf597fc7, 0xc6e00bf3, 0xd5a79147, 0x06ca6351, 0x14292967,
    0x27b70a85, 0x2e1b2138, 0x4d2c6dfc, 0x53380d13, 0x650a7354, 0x766a0abb, 0x81c2c92e, 0x92722c85,
    0xa2bfe8a1, 0xa81a664b, 0xc24b8b70, 0xc76c51a3, 0xd192e819, 0xd6990624, 0xf40e3585, 0x106aa070,
    0x19a4c116, 0x1e376c08, 0x2748774c, 0x34b0bcb5, 0x391c0cb3, 0x4ed8aa4a, 0x5b9cca4f, 0x682e6ff3,
    0x748f82ee, 0x78a5636f, 0x84c87814, 0x8cc70208, 0x90befffa, 0xa4506ceb, 0xbef9a3f7, 0xc67178f2]

/-- The eight working variables. -/
structure Words where
  a : Nat
  b : Nat
  c : Nat
  d : Nat
  e : Nat
  f : Nat
  g : Nat
  h : Nat

/-- The initial hash value. -/
def initial : Words :=
  ⟨0x6a09e667, 0xbb67ae85, 0x3c6ef372, 0xa54ff53a, 0x510e527f, 0x9b05688c, 0x1f83d9ab, 0x5be0cd19⟩

/-- One round, with its constant `k` and schedule word `w`. -/
def round (s : Words) (k w : Nat) : Words :=
  match s with
  | ⟨a, b, c, d, e, f, g, h⟩ =>
    let t := add (add (add (add h (bigSigma1 e)) (ch e f g)) k) w
    ⟨add t (add (bigSigma0 a) (maj a b c)), a, b, c, add d t, e, f, g⟩

def rounds : Words → List Nat → List Nat → Words
  | s, k :: ks, w :: ws => rounds (round s k w) ks ws
  | s, _, _ => s

/-- The big-endian 32-bit words of a byte string. -/
def wordsOf : Bytes → List Nat
  | a :: b :: c :: d :: bs =>
    (a.toNat * 16777216 + b.toNat * 65536 + c.toNat * 256 + d.toNat) :: wordsOf bs
  | _ => []

/-- The first `n` schedule words, from a window of 16. -/
def schedule : Nat → List Nat → List Nat
  | n + 1, w :: ws =>
    let w' := add (add w (smallSigma0 (ws.getD 0 0))) (add (ws.getD 8 0) (smallSigma1 (ws.getD 13 0)))
    w :: schedule n (ws ++ [w'])
  | _, _ => []

/-- The chaining value after a 64-byte block. -/
def compress (s : Words) (block : Bytes) : Words :=
  let t := rounds s roundConstants (schedule 64 (wordsOf block))
  ⟨add s.a t.a, add s.b t.b, add s.c t.c, add s.d t.d, add s.e t.e, add s.f t.f, add s.g t.g, add s.h t.h⟩

/-- A message followed by `0x80`, zeros and its length in bits, in whole blocks. -/
def padded (m : Bytes) : Bytes :=
  m ++ 0x80 :: List.replicate ((119 - m.length % 64) % 64) 0 ++ beBytes 8 (8 * m.length)

/-- The chaining value after `n` blocks. -/
def chain : Nat → Words → Bytes → Words
  | 0, s, _ => s
  | n + 1, s, m => chain n (compress s (m.take 64)) (m.drop 64)

/-- The digest of a message. -/
def digest (m : Bytes) : Bytes :=
  let s := chain ((padded m).length / 64) initial (padded m)
  [s.a, s.b, s.c, s.d, s.e, s.f, s.g, s.h].flatMap (beBytes 4)

theorem length_digest (m : Bytes) : (digest m).length = 32 := by
  simp [digest, List.flatMap_cons]

example : hexEncode (digest []) = "e3b0c44298fc1c149afbf4c8996fb92427ae41e4649b934ca495991b7852b855".toList := by
  decide +kernel

attribute [irreducible] digest

/-- No two of the byte strings `S` have the same digest. -/
def NoCollision (S : List Bytes) : Prop := ∀ x ∈ S, ∀ y ∈ S, digest x = digest y → x = y

instance (S : List Bytes) : Decidable (NoCollision S) :=
  inferInstanceAs (Decidable (∀ x ∈ S, ∀ y ∈ S, digest x = digest y → x = y))

theorem NoCollision.mono {S T : List Bytes} (h : NoCollision T) (hs : S ⊆ T) : NoCollision S :=
  fun x hx y hy e => h x (hs hx) y (hs hy) e

end Sha256

end BCC
