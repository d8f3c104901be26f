import ImgEditor.Core.CInt
import ImgEditor.Core.Crc32
import ImgEditor.Core.Dd
import ImgEditor.Core.StringHelper

namespace ImgEditor

open Storage CText

def ENV_PART_MAIN : Int := 0
def ENV_PART_REDUND : Int := 1
def UENV_MINIMUM_SIZE : Nat := 2048
def UENV_MAXIMUM_SIZE : Nat := 2 ^ 21

def uenvCalcCrc : BufScan (BitVec 32) := fun buf crc => (buf, crc32 crc buf)

/-- The checksum that `dd` computes over `count` bytes behind the first four; `junk` is what malloc left
in the buffer, which is scanned as well when a read is short. -/
def uenvScan (junk : Nat → Byte) (fd : Fd) (count : Nat) : BitVec 32 :=
  (dd64 junk (some fd) none 4 0 count (some uenvCalcCrc) 0).scan

/-- The loop of `uenv_auto_detect_filesize` for a stored checksum. The scan of every size has a buffer of
its own. -/
def uenvDetectLoop (junk : Nat → Nat → Byte) (fd : Fd) (crcExpected : BitVec 32) (sz : Nat) : Option Nat :=
  if UENV_MINIMUM_SIZE < sz then
    if uenvScan (junk sz) fd (sz - 4) = crcExpected then some sz
    else if sz > 2 ^ 17 then uenvDetectLoop junk fd crcExpected (sz - 2 ^ 17)
    else uenvDetectLoop junk fd crcExpected (sz / 2)
  else none
termination_by sz
decreasing_by
  · omega
  · have positive : 0 < sz := by omega
    omega

/-- `uenv_auto_detect_filesize` on a descriptor at its start; `stack` is what `buf` held before. -/
def uenvAutoDetectFilesize (junk : Nat → Nat → Byte) (stack : List Byte) (fd : Fd) : Option Nat :=
  let length := fd.file.size - fd.start
  let sz := if length ≥ UENV_MAXIMUM_SIZE then UENV_MAXIMUM_SIZE else alignedLength length (2 ^ 17)
  let (bytes, fd) := fd.read 4
  let crcExpected := BitVec.ofNat 32 (leNumber ((bytes ++ stack.drop bytes.length).take 4))
  uenvDetectLoop junk fd crcExpected sz

/-- The title: `sscanf` with `"#uEnv %ld %d"`, and the checks behind it. The part is none when it is
missing. -/
def uenvTitle (buffer : CString) : Option (Int × Option Int) := do
  if ¬ [35#8, 117#8, 69#8, 110#8, 118#8] <+: buffer then none
  else
    let (envSize, rest) ← scanLong (buffer.drop 5)
    if envSize % 2 ≠ 0 then none
    else
      match scanLong rest with
      | none => some (envSize, none)
      | some (part, _) =>
        let envPart := part.bmod (2 ^ 32)
        if envPart = ENV_PART_MAIN ∨ envPart = ENV_PART_REDUND then some (envSize, some envPart) else none

/-- A buffer of fgets as a string without its newline; none where the code reads `buffer[-1]`. -/
def uenvLine (buffer : List Byte) : Option CString :=
  let s := buffer.takeWhile (· ≠ 0#8)
  match s.getLast? with
  | none => none
  | some c => some (if c = 10#8 then s.dropLast else s)

/-- `uenv_pack` after the title: the size and the image so far. -/
structure UenvPack where
  envSize : Int
  fd : Fd

/-- The image is filled with zeros and the part is written behind the checksum. -/
def uenvPackTitle (title : Int × Option Int) (fd : Fd) : UenvPack :=
  let fd := (dd64 (fun _ => 0) none (some fd) 0 0 (title.1 % 2 ^ 64).toNat none ()).dst.getD fd
  let fd := fd.lseek64 4
  match title.2 with
  | some part => ⟨title.1, fd.write [BitVec.ofInt 8 part]⟩
  | none => ⟨title.1, fd⟩

def uenvPackLine (pack : Option UenvPack) (buffer : List Byte) (fd : Fd) : Option UenvPack := do
  let s ← uenvLine buffer
  match pack with
  | none => return uenvPackTitle (← uenvTitle s) fd
  | some pack =>
    let s := stringReplaceInBuffer s 1024 [92#8, 114#8] [13#8]
    let s := stringReplaceInBuffer s 1024 [92#8, 110#8] [10#8]
    return { pack with fd := pack.fd.write (s ++ [0#8]) }

def uenvPack (junk : Nat → Byte) (text : List Byte) : Option Fd := do
  let pack ← (fgetsLines 1021 text).foldlM (fun pack buffer => (uenvPackLine pack buffer Fd.created).map some) none
  let pack := pack.getD ⟨0, Fd.created⟩
  if (pack.fd.file.size : Int) > pack.envSize then none
  else
    let crc := uenvScan junk pack.fd ((pack.envSize - 4) % 2 ^ 64).toNat
    return (pack.fd.lseek64 0).write (leBytes 4 crc.toNat)

/-- The characters of `uenv_list` behind its title line, from `i` on. -/
def uenvListFrom (buf : Nat → Byte) (envSize i : Nat) : List Byte :=
  if i < envSize - 1 then
    if buf i = 13#8 then [92#8, 114#8] ++ uenvListFrom buf envSize (i + 1)
    else if buf i = 10#8 then [92#8, 110#8, 10#8] ++ uenvListFrom buf envSize (i + 1)
    else if buf i = 0#8 then
      if buf (i + 1) = 0#8 then [10#8] else 10#8 :: uenvListFrom buf envSize (i + 1)
    else buf i :: uenvListFrom buf envSize (i + 1)
  else []
termination_by envSize - i

/-- `uenv_list`: the title and what follows it. `junk` is what malloc left in the buffer. -/
def uenvList (junk : Nat → Byte) (envSize : Nat) (fd : Fd) : List Byte × List Byte :=
  let (bytes, _) := fd.read envSize
  let buf := fillBuffer junk bytes
  let title := [35#8, 117#8, 69#8, 110#8, 118#8, 32#8] ++ decimal envSize ++ [32#8]
  if buf 4 = 0#8 ∨ buf 4 = 1#8 then (title ++ decimal (buf 4).toNat ++ [10#8], uenvListFrom buf envSize 5)
  else (title ++ [10#8], uenvListFrom buf envSize 4)

end ImgEditor
