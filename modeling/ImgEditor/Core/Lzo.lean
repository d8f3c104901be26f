import ImgEditor.Storage.Bytes
import ImgEditor.Storage.Checked
import ImgEditor.Storage.Lz77

namespace ImgEditor

open Storage Storage.Lz77

inductive LzoStatus where
  | ok
  | inputOverrun
  | outputOverrun
  | lookbehindOverrun
  | inputNotConsumed
deriving DecidableEq

def LzoStatus.code : LzoStatus → Int
  | .ok => 0
  | .inputOverrun => -4
  | .outputOverrun => -5
  | .lookbehindOverrun => -6
  | .inputNotConsumed => -8

/-- How bytes are copied, by `LZO_OPT_UNALIGNED64` and `LZO_OPT_UNALIGNED32`. -/
inductive LzoOpt where
  | unaligned64
  | unaligned32
  | bytes
deriving DecidableEq

/-- The widths of the copies that move `n` bytes. -/
def LzoOpt.widths (opt : LzoOpt) (n : Nat) : List Nat :=
  match opt with
  | .unaligned64 => List.replicate (n / 8) 8 ++ List.replicate (n % 8 / 4) 4 ++ List.replicate (n % 4) 1
  | .unaligned32 => List.replicate (n / 4) 4 ++ List.replicate (n % 4) 1
  | .bytes => List.replicate n 1

/-- A match whose distance is too short for wide copies is moved byte by byte. -/
def LzoOpt.matchWidths (opt : LzoOpt) (distance n : Nat) : List Nat :=
  match opt with
  | .unaligned64 => if 8 ≤ distance then opt.widths n else List.replicate n 1
  | .unaligned32 => if 8 ≤ n ∧ 4 ≤ distance then opt.widths n else List.replicate n 1
  | .bytes => List.replicate n 1

/-- The end of a run: an access outside the two buffers, or a status with the bytes up to `op`. -/
inductive LzoStop where
  | fault
  | ret (status : LzoStatus) (out : List Byte)
deriving DecidableEq

/-- `ip` is the input from the pointer on, `behind` the bytes before it, the nearest first, and `out` the output
up to `op`. -/
structure LzoState where
  behind : List Byte
  ip : List Byte
  out : List Byte

/-- The labels of the program; `top` is the head of the outer loop. -/
inductive LzoLabel where
  | top
  | firstLiteralRun
  | matching (t : Nat)
  | matchDone
  | matchNext (t : Nat)

def needIp (n : Nat) (s : LzoState) : Except LzoStop Unit := refuseIf (.ret .inputOverrun s.out) (s.ip.length < n)

def needOp (cap n : Nat) (s : LzoState) : Except LzoStop Unit :=
  refuseIf (.ret .outputOverrun s.out) (cap - s.out.length < n)

def testLb (distance : Nat) (s : LzoState) : Except LzoStop Unit :=
  refuseIf (.ret .lookbehindOverrun s.out) (distance = 0 ∨ s.out.length < distance)

/-- `*ip++`. -/
def LzoState.next (s : LzoState) : Except LzoStop (Nat × LzoState) :=
  match s.ip with
  | [] => throw .fault
  | b :: ip => return (b.toNat, { s with behind := b :: s.behind, ip := ip })

/-- `UA_GET_LE16(ip)` and `ip += 2`. -/
def LzoState.next16 (s : LzoState) : Except LzoStop (Nat × LzoState) :=
  match s.ip with
  | low :: high :: ip => return (low.toNat + 256 * high.toNat, { s with behind := high :: low :: s.behind, ip := ip })
  | _ => throw .fault

/-- The loop over zero bytes, each of which stands for 255; `beyond` is what `TEST_IV` or `TEST_OV` returns. -/
def lzoZeros (beyond : LzoStatus) (out : List Byte) : List Byte → List Byte → Nat → Except LzoStop (Nat × LzoState)
  | _, [], _ => throw .fault
  | behind, b :: ip, t =>
    if b = 0#8 then do
      refuseIf (.ret beyond out) (2 ^ 64 - 511 < t + 255)
      refuseIf (.ret .inputOverrun out) (ip.length < 1)
      lzoZeros beyond out (b :: behind) ip (t + 255)
    else return (t, ⟨behind, b :: ip, out⟩)

/-- A length that the instruction byte holds in `t`, or that follows it when `t` is zero. -/
def lzoLength (beyond : LzoStatus) (base need t : Nat) (s : LzoState) : Except LzoStop (Nat × LzoState) :=
  if t = 0 then do
    let (t, s) ← lzoZeros beyond s.out s.behind s.ip 0
    let (b, s) ← s.next
    needIp need s
    return (t + (base + b), s)
  else return (t, s)

/-- Both pointers behind `n` bytes that were copied from `ip` to `op`. -/
def LzoState.copied (s : LzoState) (n : Nat) : LzoState :=
  ⟨(s.ip.take n).reverse ++ s.behind, s.ip.drop n, s.out ++ s.ip.take n⟩

def copyLiteral (cap : Nat) (s : LzoState) (width : Nat) : Except LzoStop LzoState :=
  if width ≤ s.ip.length ∧ s.out.length + width ≤ cap then return s.copied width else throw .fault

def copyLiterals (cap : Nat) (widths : List Nat) (s : LzoState) : Except LzoStop LzoState :=
  widths.foldlM (copyLiteral cap) s

def copyMatch (cap distance : Nat) (s : LzoState) (width : Nat) : Except LzoStop LzoState :=
  if s.out.length + width ≤ cap then do
    let out ← found .fault (copyUnit distance s.out width)
    return { s with out := out }
  else throw .fault

def copyMatches (cap distance : Nat) (widths : List Nat) (s : LzoState) : Except LzoStop LzoState :=
  widths.foldlM (copyMatch cap distance) s

section Steps

variable (cap : Nat) (opt : LzoOpt)

def lzoLiteralRun (t : Nat) (s : LzoState) : Except LzoStop (LzoLabel × LzoState) := do
  let (t, s) ← lzoLength .inputOverrun 15 0 t s
  needOp cap (t + 3) s
  needIp (t + 6) s
  let s ← copyLiterals cap (opt.widths (t + 3)) s
  return (.firstLiteralRun, s)

/-- A match of `n` bytes, the first of them at `op - distance`. -/
def lzoMatchOf (opt : LzoOpt) (distance n : Nat) (s : LzoState) : Except LzoStop (LzoLabel × LzoState) := do
  testLb distance s
  needOp cap n s
  let s ← copyMatches cap distance (opt.matchWidths distance n) s
  return (.matchDone, s)

def lzoMatch (t : Nat) (s : LzoState) : Except LzoStop (LzoLabel × LzoState) :=
  if 64 ≤ t then do
    let (b, s) ← s.next
    lzoMatchOf cap .bytes (1 + t / 4 % 8 + b * 8) (t / 32 - 1 + 2) s
  else if 32 ≤ t then do
    let (n, s) ← lzoLength .outputOverrun 31 2 (t % 32) s
    let (off, s) ← s.next16
    lzoMatchOf cap opt (1 + off / 4) (n + 2) s
  else if 16 ≤ t then do
    let (n, s) ← lzoLength .outputOverrun 7 2 (t % 8) s
    let (off, s) ← s.next16
    if t / 8 % 2 * 16384 + off / 4 = 0 then throw (.ret (if s.ip = [] then .ok else .inputNotConsumed) s.out)
    else lzoMatchOf cap opt (t / 8 % 2 * 16384 + off / 4 + 16384) (n + 2) s
  else do
    let (b, s) ← s.next
    lzoMatchOf cap .bytes (1 + t / 4 + b * 4) 2 s

def lzoStep (label : LzoLabel) (s : LzoState) : Except LzoStop (LzoLabel × LzoState) :=
  match label with
  | .top => do
    needIp 3 s
    let (t, s) ← s.next
    if 16 ≤ t then return (.matching t, s) else lzoLiteralRun cap opt t s
  | .firstLiteralRun => do
    let (t, s) ← s.next
    if 16 ≤ t then return (.matching t, s)
    else do
      let (b, s) ← s.next
      lzoMatchOf cap .bytes (1 + 2048 + t / 4 + b * 4) 3 s
  | .matching t => lzoMatch cap opt t s
  | .matchDone => do
    let b ← found .fault s.behind[1]?
    if b.toNat % 4 = 0 then return (.top, s) else return (.matchNext (b.toNat % 4), s)
  | .matchNext t => do
    needOp cap t s
    needIp (t + 3) s
    let s ← copyLiterals cap (List.replicate t 1) s
    let (t, s) ← s.next
    return (.matching t, s)

/-- Up to the first label. -/
def lzoStart (s : LzoState) : Except LzoStop (LzoLabel × LzoState) := do
  needIp 1 s
  let (t, next) ← s.next
  if 17 < t then
    if t - 17 < 4 then return (.matchNext (t - 17), next)
    else do
      needOp cap (t - 17) next
      needIp (t - 17 + 3) next
      let next ← copyLiterals cap (List.replicate (t - 17) 1) next
      return (.firstLiteralRun, next)
  else return (.top, s)

def lzoRun : Nat → LzoLabel → LzoState → Option LzoStop
  | 0, _, _ => none
  | fuel + 1, label, s =>
    match lzoStep cap opt label s with
    | .error stop => some stop
    | .ok (label, s) => lzoRun fuel label s

end Steps

/-- The decompressor for an output buffer of `cap` bytes; none when the fuel runs out. -/
def lzo1xDecompressSafe (opt : LzoOpt) (input : List Byte) (cap : Nat) : Option LzoStop :=
  match lzoStart cap ⟨[], input, []⟩ with
  | .error stop => some stop
  | .ok (label, s) => lzoRun cap opt (2 * input.length + 2) label s

/-- What stands before an instruction: the head of the text, an instruction without literals behind it, a long run
of literals, or one to three literals; `owes n` is a match whose `n` literals follow. -/
inductive LzoPlace where
  | start
  | plain
  | afterRun
  | afterFew
  | owes (n : Nat)

def LzoPlace.TakesCode : LzoPlace → Prop
  | .plain => True
  | .afterRun => True
  | .afterFew => True
  | _ => False

/-- A length in the bits of the instruction byte up to `base`, else as a zero field, one zero byte for each 255 and
the rest. -/
def lzoLengthBytes (base flag n : Nat) : List Byte :=
  if n ≤ base then [BitVec.ofNat 8 (flag + n)]
  else BitVec.ofNat 8 flag ::
    (List.replicate ((n - base - 1) / 255) 0#8 ++ [BitVec.ofNat 8 ((n - base - 1) % 255 + 1)])

/-- A match of `length` bytes at `distance` with `literals` of them behind it, as it can be written at a place. -/
inductive LzoBack : LzoPlace → (distance length literals : Nat) → List Byte → Prop where
  | near {d k : Nat} (low : 1 ≤ d) (high : d ≤ 1024) :
      LzoBack .afterFew d 2 k [BitVec.ofNat 8 (4 * ((d - 1) % 4) + k), BitVec.ofNat 8 ((d - 1) / 4)]
  | behindRun {d k : Nat} (low : 2049 ≤ d) (high : d ≤ 3072) :
      LzoBack .afterRun d 3 k [BitVec.ofNat 8 (4 * ((d - 2049) % 4) + k), BitVec.ofNat 8 ((d - 2049) / 4)]
  | short {place : LzoPlace} {d n k : Nat} (takes : place.TakesCode) (low : 1 ≤ d) (high : d ≤ 2048) (least : 3 ≤ n)
      (most : n ≤ 8) :
      LzoBack place d n k [BitVec.ofNat 8 (32 * (n - 1) + 4 * ((d - 1) % 8) + k), BitVec.ofNat 8 ((d - 1) / 8)]
  | medium {place : LzoPlace} {d n k : Nat} (takes : place.TakesCode) (low : 1 ≤ d) (high : d ≤ 16384) (least : 3 ≤ n) :
      LzoBack place d n k (lzoLengthBytes 31 32 (n - 2) ++ leBytes 2 (4 * (d - 1) + k))
  | long {place : LzoPlace} {d n k : Nat} (takes : place.TakesCode) (low : 16385 ≤ d) (high : d ≤ 49151) (least : 3 ≤ n) :
      LzoBack place d n k
        (lzoLengthBytes 7 (16 + 8 * ((d - 16384) / 16384)) (n - 2) ++ leBytes 2 (4 * ((d - 16384) % 16384) + k))

/-- The bytes that spell a list of tokens up to the end mark, with `rest` behind it. -/
inductive LzoSpells (rest : List Byte) : LzoPlace → List Byte → List (Token Byte) → Prop where
  | eof {place : LzoPlace} {n low : Nat} (takes : place.TakesCode) (positive : 0 < n) (small : low < 4) :
      LzoSpells rest place (lzoLengthBytes 7 16 n ++ leBytes 2 low ++ rest) []
  | back {place : LzoPlace} {d n k : Nat} {code bytes : List Byte} {tokens : List (Token Byte)}
      (spelled : LzoBack place d n k code) (small : k < 4) (follows : LzoSpells rest (.owes k) bytes tokens) :
      LzoSpells rest place (code ++ bytes) (.back d n :: tokens)
  | run {n : Nat} {literals bytes : List Byte} {tokens : List (Token Byte)} (positive : 0 < n)
      (count : literals.length = n + 3) (follows : LzoSpells rest .afterRun bytes tokens) :
      LzoSpells rest .plain (lzoLengthBytes 15 0 n ++ (literals ++ bytes)) (literals.map Token.literal ++ tokens)
  | none {bytes : List Byte} {tokens : List (Token Byte)} (follows : LzoSpells rest .plain bytes tokens) :
      LzoSpells rest (.owes 0) bytes tokens
  | few {n : Nat} {literals bytes : List Byte} {tokens : List (Token Byte)} (positive : 0 < n)
      (count : literals.length = n) (follows : LzoSpells rest .afterFew bytes tokens) :
      LzoSpells rest (.owes n) (literals ++ bytes) (literals.map Token.literal ++ tokens)
  | start {b : Byte} {bytes : List Byte} {tokens : List (Token Byte)} (small : b.toNat ≤ 17)
      (follows : LzoSpells rest .plain (b :: bytes) tokens) : LzoSpells rest .start (b :: bytes) tokens
  | startFew {n : Nat} {bytes : List Byte} {tokens : List (Token Byte)} (positive : 0 < n) (small : n < 4)
      (follows : LzoSpells rest (.owes n) bytes tokens) : LzoSpells rest .start (BitVec.ofNat 8 (17 + n) :: bytes) tokens
  | startRun {n : Nat} {literals bytes : List Byte} {tokens : List (Token Byte)} (least : 4 ≤ n) (most : n ≤ 238)
      (count : literals.length = n) (follows : LzoSpells rest .afterRun bytes tokens) :
      LzoSpells rest .start (BitVec.ofNat 8 (17 + n) :: (literals ++ bytes)) (literals.map Token.literal ++ tokens)

end ImgEditor
