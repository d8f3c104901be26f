import ImgEditor.Storage.Bytes

namespace ImgEditor

open Storage

def reverse32 (x : BitVec 32) : BitVec 32 :=
  let x := ((x &&& 0x55555555) <<< 1) ||| ((x >>> 1) &&& 0x55555555)
  let x := ((x &&& 0x33333333) <<< 2) ||| ((x >>> 2) &&& 0x33333333)
  let x := ((x &&& 0x0F0F0F0F) <<< 4) ||| ((x >>> 4) &&& 0x0F0F0F0F)
  (x <<< 24) ||| ((x &&& 0xFF00) <<< 8) ||| ((x >>> 8) &&& 0xFF00) ||| (x >>> 24)

/-- One entry of the table of `LIBCRC32_CRC32` (poly 0x04C11DB7, reflected input and output). -/
def crcTable (i : BitVec 8) : BitVec 32 :=
  let step (curByte : BitVec 32) : BitVec 32 :=
    if curByte &&& 0x80000000 ≠ 0 then (curByte <<< 1) ^^^ 0x04C11DB7 else curByte <<< 1
  reverse32 (Nat.iterate step 32 (reverse32 (i.zeroExtend 32) >>> 24))

def libcrc32Update (next : BitVec 32) : List Byte → BitVec 32
  | [] => next
  | byte :: rest => libcrc32Update ((next >>> 8) ^^^ crcTable ((next ^^^ byte.zeroExtend 32).truncate 8)) rest

def crc32 (crc : BitVec 32) (bytes : List Byte) : BitVec 32 :=
  libcrc32Update (crc ^^^ 0xffffffff) bytes ^^^ 0xffffffff

example : crc32 0 [0x31, 0x32, 0x33, 0x34, 0x35, 0x36, 0x37, 0x38, 0x39] = 0xcbf43926 := by
  decide +kernel

end ImgEditor
