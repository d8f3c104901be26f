import ImgEditor.Core.CInt
import ImgEditor.Fdt.ListProp
import ImgEditor.Storage.Overwrite

namespace ImgEditor

open Storage CText

/-- printf of `%08lx`. -/
def hexLong (n : Nat) : CString := List.replicate (8 - (printed 16 n).length) 48 ++ printed 16 n

structure HexdumpState where
  out : CString
  preline : List Byte
  skip : Bool

section Hexdump

/-- `n` bytes that are read from an offset on: `none` when one of them is outside. -/
def readBytes (blk : List Byte) (i n : Nat) : Option (List Byte) :=
  if i + n ≤ blk.length then some (field blk i n) else none

/-- What is printed for column `j` in pass `n` over the line at `i`. -/
def hexdumpCell (blk : List Byte) (i n j : Nat) : CString :=
  let overflow := blk.length ≤ i + j
  if n = 0 then (if overflow then [32, 32, 32] else hexFixed 2 (blk.getD (i + j) 0).toNat ++ [32])
  else
    (if j = 0 then [124] else []) ++
      (if overflow then [32] else if isprint (blk.getD (i + j) 0) then [blk.getD (i + j) 0] else [46]) ++
      (if j = 15 then [124] else [])

def hexdumpLine (blk : List Byte) (i : Nat) : CString :=
  (List.range 2).flatMap fun n => (List.range 16).flatMap (hexdumpCell blk i n)

/-- One pass of the loop of `hexdump_indent`. -/
def hexdumpPass (indent : CString) (blk : List Byte) (baseaddr : BitVec 64) (st : HexdumpState) (pass : Nat) :
    Option HexdumpState := do
  let i := 16 * pass
  let szBuster := min (toInt32 (blk.length - i)) 16
  let n := toSizeT szBuster
  let same ← if i = 0 then some false else do
    let preline ← readBytes st.preline 0 n
    let line ← readBytes blk i n
    some (decide (preline = line))
  if same then
    some { st with out := st.out ++ (if st.skip then [] else indent ++ [42, 10]), skip := true }
  else do
    let out := st.out ++ (if i = 0 then [] else indent) ++
      hexLong (baseaddr + BitVec.ofNat 64 i).toNat ++ [32] ++ hexdumpLine blk i
    let line ← readBytes blk i n
    let preline ← overwrite st.preline 0 line
    some ⟨out ++ [10], preline, false⟩

/-- `hexdump_indent`, with the text that the format of the indent prints and what is left in `preline`; `none` when memory
outside of the buffer or of `preline` is accessed. -/
def hexdumpIndent (preline : Vector Byte 16) (indentFmt : Option CString) (buf : List Byte) (baseaddr : BitVec 64) :
    Option CString := do
  let indent := indentFmt.getD []
  let st ← (List.range ((buf.length + 15) / 16)).foldlM (hexdumpPass indent buf baseaddr) ⟨[], preline.toList, false⟩
  some (st.out ++ indent ++ hexLong (baseaddr + BitVec.ofNat 64 (alignedLength buf.length 16)).toNat ++ [10])

def hexdump (preline : Vector Byte 16) (buf : List Byte) (baseaddr : BitVec 64) : Option CString :=
  hexdumpIndent preline none buf baseaddr

end Hexdump

end ImgEditor
