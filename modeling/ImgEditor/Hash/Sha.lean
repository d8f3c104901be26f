import ImgEditor.Storage.Bytes

namespace ImgEditor

open Storage

/-! The block functions of the hashes of RFC 6234. -/

def shaCh {w : Nat} (x y z : BitVec w) : BitVec w := (x &&& y) ^^^ (~~~x &&& z)

def shaMaj {w : Nat} (x y z : BitVec w) : BitVec w := (x &&& y) ^^^ (x &&& z) ^^^ (y &&& z)

def shaParity {w : Nat} (x y z : BitVec w) : BitVec w := x ^^^ y ^^^ z

/-- The word of `w` bits at word `t` of the block, most significant byte first. -/
def shaWord (w : Nat) (block : List Byte) (t : Nat) : BitVec w :=
  (List.range (w / 8)).foldl
    (fun word k => word ||| (block.getD (w / 8 * t + k) 0).setWidth w <<< (w - 8 - 8 * k)) 0

section Sha1

def sha1Rotl (bits : Nat) (word : BitVec 32) : BitVec 32 := word <<< bits ||| word >>> (32 - bits)

structure Sha1Vars where
  a : BitVec 32
  b : BitVec 32
  c : BitVec 32
  d : BitVec 32
  e : BitVec 32

def sha1Schedule (block : List Byte) : List (BitVec 32) :=
  (List.range' 16 64).foldl
    (fun W t => W ++ [sha1Rotl 1 (W.getD (t - 3) 0 ^^^ W.getD (t - 8) 0 ^^^ W.getD (t - 14) 0 ^^^ W.getD (t - 16) 0)])
    ((List.range 16).map (shaWord 32 block))

def sha1Round (f : BitVec 32 → BitVec 32 → BitVec 32 → BitVec 32) (k : BitVec 32) (W : List (BitVec 32))
    (v : Sha1Vars) (t : Nat) : Sha1Vars :=
  let temp := sha1Rotl 5 v.a + f v.b v.c v.d + v.e + W.getD t 0 + k
  ⟨temp, v.a, sha1Rotl 30 v.b, v.c, v.d⟩

def sha1ProcessMessageBlock (hash : List (BitVec 32)) (block : List Byte) : List (BitVec 32) :=
  let W := sha1Schedule block
  let start : Sha1Vars := ⟨hash.getD 0 0, hash.getD 1 0, hash.getD 2 0, hash.getD 3 0, hash.getD 4 0⟩
  let first := (List.range' 0 20).foldl (sha1Round shaCh 0x5a827999 W) start
  let second := (List.range' 20 20).foldl (sha1Round shaParity 0x6ed9eba1 W) first
  let third := (List.range' 40 20).foldl (sha1Round shaMaj 0x8f1bbcdc W) second
  let v := (List.range' 60 20).foldl (sha1Round shaParity 0xca62c1d6 W) third
  [hash.getD 0 0 + v.a, hash.getD 1 0 + v.b, hash.getD 2 0 + v.c, hash.getD 3 0 + v.d, hash.getD 4 0 + v.e]

def sha1H0 : List (BitVec 32) := [0x67452301, 0xefcdab89, 0x98badcfe, 0x10325476, 0xc3d2e1f0]

end Sha1

section Sha2

variable {w : Nat}

def sha2Rotr (bits : Nat) (word : BitVec w) : BitVec w := word >>> bits ||| word <<< (w - bits)

structure Sha2Vars (w : Nat) where
  a : BitVec w
  b : BitVec w
  c : BitVec w
  d : BitVec w
  e : BitVec w
  f : BitVec w
  g : BitVec w
  h : BitVec w

/-- The functions and constants in which SHA-256 and SHA-512 differ. -/
structure Sha2Functions (w : Nat) where
  Sigma0 : BitVec w → BitVec w
  Sigma1 : BitVec w → BitVec w
  sigma0 : BitVec w → BitVec w
  sigma1 : BitVec w → BitVec w
  K : List (BitVec w)

variable (fn : Sha2Functions w)

def sha2Schedule (block : List Byte) : List (BitVec w) :=
  (List.range' 16 (fn.K.length - 16)).foldl
    (fun W t => W ++ [fn.sigma1 (W.getD (t - 2) 0) + W.getD (t - 7) 0 + fn.sigma0 (W.getD (t - 15) 0) + W.getD (t - 16) 0])
    ((List.range 16).map (shaWord w block))

def sha2Round (W : List (BitVec w)) (v : Sha2Vars w) (t : Nat) : Sha2Vars w :=
  let temp1 := v.h + fn.Sigma1 v.e + shaCh v.e v.f v.g + fn.K.getD t 0 + W.getD t 0
  let temp2 := fn.Sigma0 v.a + shaMaj v.a v.b v.c
  ⟨temp1 + temp2, v.a, v.b, v.c, v.d + temp1, v.e, v.f, v.g⟩

def sha2ProcessMessageBlock (hash : List (BitVec w)) (block : List Byte) : List (BitVec w) :=
  let W := sha2Schedule fn block
  let start : Sha2Vars w := ⟨hash.getD 0 0, hash.getD 1 0, hash.getD 2 0, hash.getD 3 0, hash.getD 4 0, hash.getD 5 0,
    hash.getD 6 0, hash.getD 7 0⟩
  let v := (List.range fn.K.length).foldl (sha2Round fn W) start
  [hash.getD 0 0 + v.a, hash.getD 1 0 + v.b, hash.getD 2 0 + v.c, hash.getD 3 0 + v.d, hash.getD 4 0 + v.e,
    hash.getD 5 0 + v.f, hash.getD 6 0 + v.g, hash.getD 7 0 + v.h]

end Sha2

def sha256K : List (BitVec 32) := [
    0x428a2f98, 0x71374491, 0xb5c0fbcf, 0xe9b5dba5, 0x3956c25b, 0x59f111f1, 0x923f82a4, 0xab1c5ed5,
    0xd807aa98, 0x12835b01, 0x243185be, 0x550c7dc3, 0x72be5d74, 0x80deb1fe, 0x9bdc06a7, 0xc19bf174,
    0xe49b69c1, 0xefbe4786, 0x0fc19dc6, 0x240ca1cc, 0x2de92c6f, 0x4a7484aa, 0x5cb0a9dc, 0x76f988da,
    0x983e5152, 0xa831c66d, 0xb00327c8, 0xbf597fc7, 0xc6e00bf3, 0xd5a79147, 0x06ca6351, 0x14292967,
    0x27b70a85, 0x2e1b2138, 0x4d2c6dfc, 0x53380d13, 0x650a7354, 0x766a0abb, 0x81c2c92e, 0x92722c85,
    0xa2bfe8a1, 0xa81a664b, 0xc24b8b70, 0xc76c51a3, 0xd192e819, 0xd6990624, 0xf40e3585, 0x106aa070,
    0x19a4c116, 0x1e376c08, 0x2748774c, 0x34b0bcb5, 0x391c0cb3, 0x4ed8aa4a, 0x5b9cca4f, 0x682e6ff3,
    0x748f82ee, 0x78a5636f, 0x84c87814, 0x8cc70208, 0x90befffa, 0xa4506ceb, 0xbef9a3f7, 0xc67178f2]

def sha256Functions : Sha2Functions 32 where
  Sigma0 word := sha2Rotr 2 word ^^^ sha2Rotr 13 word ^^^ sha2Rotr 22 word
  Sigma1 word := sha2Rotr 6 word ^^^ sha2Rotr 11 word ^^^ sha2Rotr 25 word
  sigma0 word := sha2Rotr 7 word ^^^ sha2Rotr 18 word ^^^ word >>> 3
  sigma1 word := sha2Rotr 17 word ^^^ sha2Rotr 19 word ^^^ word >>> 10
  K := sha256K

def sha224_256ProcessMessageBlock : List (BitVec 32) → List Byte → List (BitVec 32) :=
  sha2ProcessMessageBlock sha256Functions

def sha224H0 : List (BitVec 32) := [
    0xc1059ed8, 0x367cd507, 0x3070dd17, 0xf70e5939, 0xffc00b31, 0x68581511, 0x64f98fa7, 0xbefa4fa4]

def sha256H0 : List (BitVec 32) := [
    0x6a09e667, 0xbb67ae85, 0x3c6ef372, 0xa54ff53a, 0x510e527f, 0x9b05688c, 0x1f83d9ab, 0x5be0cd19]

def sha512K : List (BitVec 64) := [
    0x428a2f98d728ae22, 0x7137449123ef65cd, 0xb5c0fbcfec4d3b2f, 0xe9b5dba58189dbbc, 0x3956c25bf348b538,
    0x59f111f1b605d019, 0x923f82a4af194f9b, 0xab1c5ed5da6d8118, 0xd807aa98a3030242, 0x12835b0145706fbe,
    0x243185be4ee4b28c, 0x550c7dc3d5ffb4e2, 0x72be5d74f27b896f, 0x80deb1fe3b1696b1, 0x9bdc06a725c71235,
    0xc19bf174cf692694, 0xe49b69c19ef14ad2, 0xefbe4786384f25e3, 0x0fc19dc68b8cd5b5, 0x240ca1cc77ac9c65,
    0x2de92c6f592b0275, 0x4a7484aa6ea6e483, 0x5cb0a9dcbd41fbd4, 0x76f988da831153b5, 0x983e5152ee66dfab,
    0xa831c66d2db43210, 0xb00327c898fb213f, 0xbf597fc7beef0ee4, 0xc6e00bf33da88fc2, 0xd5a79147930aa725,
    0x06ca6351e003826f, 0x142929670a0e6e70, 0x27b70a8546d22ffc, 0x2e1b21385c26c926, 0x4d2c6dfc5ac42aed,
    0x53380d139d95b3df, 0x650a73548baf63de, 0x766a0abb3c77b2a8, 0x81c2c92e47edaee6, 0x92722c851482353b,
    0xa2bfe8a14cf10364, 0xa81a664bbc423001, 0xc24b8b70d0f89791, 0xc76c51a30654be30, 0xd192e819d6ef5218,
    0xd69906245565a910, 0xf40e35855771202a, 0x106aa07032bbd1b8, 0x19a4c116b8d2d0c8, 0x1e376c085141ab53,
    0x2748774cdf8eeb99, 0x34b0bcb5e19b48a8, 0x391c0cb3c5c95a63, 0x4ed8aa4ae3418acb, 0x5b9cca4f7763e373,
    0x682e6ff3d6b2b8a3, 0x748f82ee5defb2fc, 0x78a5636f43172f60, 0x84c87814a1f0ab72, 0x8cc702081a6439ec,
    0x90befffa23631e28, 0xa4506cebde82bde9, 0xbef9a3f7b2c67915, 0xc67178f2e372532b, 0xca273eceea26619c,
    0xd186b8c721c0c207, 0xeada7dd6cde0eb1e, 0xf57d4f7fee6ed178, 0x06f067aa72176fba, 0x0a637dc5a2c898a6,
    0x113f9804bef90dae, 0x1b710b35131c471b, 0x28db77f523047d84, 0x32caab7b40c72493, 0x3c9ebe0a15c9bebc,
    0x431d67c49c100d4c, 0x4cc5d4becb3e42b6, 0x597f299cfc657e2a, 0x5fcb6fab3ad6faec, 0x6c44198c4a475817]

def sha512Functions : Sha2Functions 64 where
  Sigma0 word := sha2Rotr 28 word ^^^ sha2Rotr 34 word ^^^ sha2Rotr 39 word
  Sigma1 word := sha2Rotr 14 word ^^^ sha2Rotr 18 word ^^^ sha2Rotr 41 word
  sigma0 word := sha2Rotr 1 word ^^^ sha2Rotr 8 word ^^^ word >>> 7
  sigma1 word := sha2Rotr 19 word ^^^ sha2Rotr 61 word ^^^ word >>> 6
  K := sha512K

def sha384_512ProcessMessageBlock : List (BitVec 64) → List Byte → List (BitVec 64) :=
  sha2ProcessMessageBlock sha512Functions

def sha384H0 : List (BitVec 64) := [
    0xcbbb9d5dc1059ed8, 0x629a292a367cd507, 0x9159015a3070dd17, 0x152fecd8f70e5939,
    0x67332667ffc00b31, 0x8eb44a8768581511, 0xdb0c2e0d64f98fa7, 0x47b5481dbefa4fa4]

def sha512H0 : List (BitVec 64) := [
    0x6a09e667f3bcc908, 0xbb67ae8584caa73b, 0x3c6ef372fe94f82b, 0xa54ff53a5f1d36f1,
    0x510e527fade682d1, 0x9b05688c2b3e6c1f, 0x1f83d9abfb41bd6b, 0x5be0cd19137e2179]

inductive ShaError where
  | null
  | inputTooLong
  | stateError
  | badParam
deriving DecidableEq

/-- What the members of the family differ in; the length of a message takes two words at the end of a block. -/
structure ShaAlgo where
  w : Nat
  blockSize : Nat
  hashSize : Nat
  H0 : List (BitVec w)
  processMessageBlock : List (BitVec w) → List Byte → List (BitVec w)
  wide : 0 < w
  bytes : 8 ∣ w
  room : w / 4 < blockSize

structure ShaContext (algo : ShaAlgo) where
  intermediateHash : List (BitVec algo.w)
  lengthHigh : BitVec algo.w
  lengthLow : BitVec algo.w
  messageBlockIndex : Nat
  messageBlock : Vector Byte algo.blockSize
  computed : Bool
  corrupted : Option ShaError

section Functions

variable {algo : ShaAlgo}

/-- `junk` is what the array of the block holds before. -/
def shaReset (junk : Vector Byte algo.blockSize) : ShaContext algo where
  intermediateHash := algo.H0
  lengthHigh := 0
  lengthLow := 0
  messageBlockIndex := 0
  messageBlock := junk
  computed := false
  corrupted := none

def shaAddLength (context : ShaContext algo) (length : BitVec algo.w) : ShaContext algo :=
  let low := context.lengthLow + length
  if low < context.lengthLow then
    let high := context.lengthHigh + 1
    { context with
      lengthLow := low
      lengthHigh := high
      corrupted := if high = 0 then some .inputTooLong else context.corrupted }
  else { context with lengthLow := low }

def shaProcessMessageBlock (context : ShaContext algo) : ShaContext algo :=
  { context with
    intermediateHash := algo.processMessageBlock context.intermediateHash context.messageBlock.toList
    messageBlockIndex := 0 }

/-- `Message_Block[Message_Block_Index++] = c`; `none` is a write behind the array. -/
def shaPut (context : ShaContext algo) (c : Byte) : Option (ShaContext algo) :=
  if context.messageBlockIndex < algo.blockSize then
    some { context with
      messageBlock := context.messageBlock.setIfInBounds context.messageBlockIndex c
      messageBlockIndex := context.messageBlockIndex + 1 }
  else none

def shaInputByte (context : ShaContext algo) (c : Byte) : Option (ShaContext algo) := do
  let context ← shaPut context c
  let context := shaAddLength context 8
  if context.corrupted = none ∧ context.messageBlockIndex = algo.blockSize then
    some (shaProcessMessageBlock context)
  else some context

def shaInput (context : ShaContext algo) (message : List Byte) : Option (Option ShaError × ShaContext algo) :=
  if message.length = 0 then some (none, context)
  else if context.computed then some (some .stateError, { context with corrupted := some .stateError })
  else if context.corrupted ≠ none then some (context.corrupted, context)
  else (message.foldlM shaInputByte context).map fun context => (context.corrupted, context)

/-- The loop that puts zeros up to the index `limit`. -/
def shaPutZeros (limit : Nat) (context : ShaContext algo) : Option (ShaContext algo) :=
  (List.range (limit - context.messageBlockIndex)).foldlM (fun context _ => shaPut context 0#8) context

def shaPutLength (context : ShaContext algo) : ShaContext algo :=
  let word := algo.w / 8
  let high := (List.range word).foldl (fun (block : Vector Byte algo.blockSize) k =>
    block.setIfInBounds (algo.blockSize - algo.w / 4 + k) ((context.lengthHigh >>> (algo.w - 8 - 8 * k)).setWidth 8))
    context.messageBlock
  let low := (List.range word).foldl (fun (block : Vector Byte algo.blockSize) k =>
    block.setIfInBounds (algo.blockSize - word + k) ((context.lengthLow >>> (algo.w - 8 - 8 * k)).setWidth 8))
    high
  { context with messageBlock := low }

def shaPadMessage (context : ShaContext algo) (padByte : Byte) : Option (ShaContext algo) := do
  let context ←
    if algo.blockSize - algo.w / 4 ≤ context.messageBlockIndex then do
      let context ← shaPut context padByte
      let context ← shaPutZeros algo.blockSize context
      some (shaProcessMessageBlock context)
    else shaPut context padByte
  let context ← shaPutZeros (algo.blockSize - algo.w / 4) context
  some (shaProcessMessageBlock (shaPutLength context))

def shaFinalize (context : ShaContext algo) (padByte : Byte) : Option (ShaContext algo) := do
  let context ← shaPadMessage context padByte
  some { context with
    messageBlock := Vector.replicate algo.blockSize 0#8
    lengthHigh := 0
    lengthLow := 0
    computed := true }

def shaDigest (w hashSize : Nat) (hash : List (BitVec w)) : List Byte :=
  (List.range hashSize).map fun i =>
    (hash.getD (i / (w / 8)) 0 >>> (8 * (w / 8 - 1 - i % (w / 8)))).setWidth 8

/-- The digest is `none` where the function returns before it is stored. -/
def shaResult (context : ShaContext algo) : Option (Option ShaError × Option (List Byte) × ShaContext algo) := do
  if context.corrupted ≠ none then some (context.corrupted, none, context)
  else
    let context ← if context.computed then some context else shaFinalize context 0x80#8
    some (none, some (shaDigest algo.w algo.hashSize context.intermediateHash), context)

end Functions

def sha1 : ShaAlgo where
  w := 32
  blockSize := 64
  hashSize := 20
  H0 := sha1H0
  processMessageBlock := sha1ProcessMessageBlock
  wide := by decide
  bytes := by decide
  room := by decide

def sha224 : ShaAlgo where
  w := 32
  blockSize := 64
  hashSize := 28
  H0 := sha224H0
  processMessageBlock := sha224_256ProcessMessageBlock
  wide := by decide
  bytes := by decide
  room := by decide

def sha256 : ShaAlgo where
  w := 32
  blockSize := 64
  hashSize := 32
  H0 := sha256H0
  processMessageBlock := sha224_256ProcessMessageBlock
  wide := by decide
  bytes := by decide
  room := by decide

def sha384 : ShaAlgo where
  w := 64
  blockSize := 128
  hashSize := 48
  H0 := sha384H0
  processMessageBlock := sha384_512ProcessMessageBlock
  wide := by decide
  bytes := by decide
  room := by decide

def sha512 : ShaAlgo where
  w := 64
  blockSize := 128
  hashSize := 64
  H0 := sha512H0
  processMessageBlock := sha384_512ProcessMessageBlock
  wide := by decide
  bytes := by decide
  room := by decide

end ImgEditor
