import MutationGuard.Word

/-!
The SHA-256 digest of a byte string: the message is padded to whole blocks of sixty-four bytes, and
each block is folded into a state of eight 32-bit words by sixty-four rounds.
-/

namespace MutationGuard.Sha256

/-- The eight words carried from block to block. -/
structure State where
  a : UInt32
  b : UInt32
  c : UInt32
  d : UInt32
  e : UInt32
  f : UInt32
  g : UInt32
  h : UInt32

/-- The state before the first block: the fractions of the square roots of the first eight primes.
-/
def State.start : State :=
  ⟨0x6a09e667, 0xbb67ae85, 0x3c6ef372, 0xa54ff53a, 0x510e527f, 0x9b05688c, 0x1f83d9ab, 0x5be0cd19⟩

/-- The round constants: the fractions of the cube roots of the first sixty-four primes. -/
def roundConstants : List UInt32 :=
  [0x428a2f98, 0x71374491, 0xb5c0fbcf, 0xe9b5dba5, 0x3956c25b, 0x59f111f1, 0x923f82a4, 0xab1c5ed5,
   0xd807aa98, 0x12835b01, 0x243185be, 0x550c7dc3, 0x72be5d74, 0x80deb1fe, 0x9bdc06a7, 0xc19bf174,
   0xe49b69c1, 0xefbe4786, 0x0fc19dc6, 0x240ca1cc, 0x2de92c6f, 0x4a7484aa, 0x5cb0a9dc, 0x76f988da,
   0x983e5152, 0xa831c66d, 0xb00327c8, 0xbf597fc7, 0xc6e00bf3, 0xd5a79147, 0x06ca6351, 0x14292967,
   0x27b70a85, 0x2e1b2138, 0x4d2c6dfc, 0x53380d13, 0x650a7354, 0x766a0abb, 0x81c2c92e, 0x92722c85,
   0xa2bfe8a1, 0xa81a664b, 0xc24b8b70, 0xc76c51a3, 0xd192e819, 0xd6990624, 0xf40e3585, 0x106aa070,
   0x19a4c116, 0x1e376c08, 0x2748774c, 0x34b0bcb5, 0x391c0cb3, 0x4ed8aa4a, 0x5b9cca4f, 0x682e6ff3,
   0x748f82ee, 0x78a5636f, 0x84c87814, 0x8cc70208, 0x90befffa, 0xa4506ceb, 0xbef9a3f7, 0xc67178f2]

/-- The word turned right by `n` bits. -/
def rotate (n x : UInt32) : UInt32 := (x >>> n) ||| (x <<< (32 - n))

/-- The message, a one bit, zeroes up to eight bytes short of a whole block, and the bit count. -/
def pad (message : Bytes) : Bytes :=
  message ++ 0x80 :: (List.replicate ((119 - message.length % 64) % 64) 0 ++
    Bytes.ofNat 8 (8 * message.length))

/-- The four bytes from `i` on as a word. -/
def wordAt (bytes : Array UInt8) (i : Nat) : UInt32 :=
  let byte (j : Nat) : UInt32 := (bytes.getD (i + j) 0).toUInt32
  (byte 0 <<< 24) ||| (byte 1 <<< 16) ||| (byte 2 <<< 8) ||| byte 3

/-- The sixty-four words that a block feeds to the rounds: its own sixteen, and each later one from
four earlier ones. -/
def schedule (block : Array UInt32) : Array UInt32 :=
  (List.range 48).foldl
    (fun w i =>
      let x := w.getD (i + 1) 0
      let y := w.getD (i + 14) 0
      let s0 := rotate 7 x ^^^ rotate 18 x ^^^ (x >>> 3)
      let s1 := rotate 17 y ^^^ rotate 19 y ^^^ (y >>> 10)
      w.push (w.getD i 0 + s0 + w.getD (i + 9) 0 + s1))
    block

/-- One round, given the constant and the scheduled word added up. -/
def State.round (s : State) (kw : UInt32) : State :=
  let s1 := rotate 6 s.e ^^^ rotate 11 s.e ^^^ rotate 25 s.e
  let choice := (s.e &&& s.f) ^^^ (~~~s.e &&& s.g)
  let t1 := s.h + s1 + choice + kw
  let s0 := rotate 2 s.a ^^^ rotate 13 s.a ^^^ rotate 22 s.a
  let majority := (s.a &&& s.b) ^^^ (s.a &&& s.c) ^^^ (s.b &&& s.c)
  ⟨t1 + (s0 + majority), s.a, s.b, s.c, s.d + t1, s.e, s.f, s.g⟩

/-- The state after a block of sixteen words. -/
def State.absorb (s : State) (block : Array UInt32) : State :=
  let t := (List.zipWith (· + ·) roundConstants (schedule block).toList).foldl State.round s
  ⟨s.a + t.a, s.b + t.b, s.c + t.c, s.d + t.d, s.e + t.e, s.f + t.f, s.g + t.g, s.h + t.h⟩

/-- The state as a number of 256 bits. -/
def State.toNat (s : State) : Nat :=
  [s.a, s.b, s.c, s.d, s.e, s.f, s.g, s.h].foldl (fun n w => UInt32.size * n + w.toNat) 0

/-- The digest of a message. -/
def digest (message : Bytes) : Hash :=
  let bytes := (pad message).toArray
  let final := (List.range (bytes.size / 64)).foldl
    (fun s i => s.absorb ((List.range 16).map fun j => wordAt bytes (64 * i + 4 * j)).toArray)
    State.start
  ⟨BitVec.ofNat 256 final.toNat⟩

end MutationGuard.Sha256
