import ImgEditor.Core.CInt
import ImgEditor.Storage.Memmem

namespace ImgEditor

open Storage

structure Imgeditor where
  name : String
  headerSize : Nat
  magic : List Byte
  magicOffset : Nat
  headerSize_int : headerSize < 2 ^ 31
  mbr_plain : name = "mbr" → magic = []

structure VirtualFile where
  file : File
  startOffset : Int
  totalLength : Int

def virtualFileOpen (file : File) (offset : Int) : VirtualFile where
  file := file
  startOffset := offset
  totalLength := file.size - offset

def filelength (vf : VirtualFile) : Int := vf.totalLength
def filestart (vf : VirtualFile) : Int := vf.startOffset

def virtualFileDup (ref : VirtualFile) (offset : Int) : VirtualFile where
  file := ref.file
  startOffset := offset + filestart ref
  totalLength := ref.file.size - (offset + filestart ref)

/-- An editor during the search: `nextSearchOffset` of its magic, and the file offsets that byte 0 of
the virtual files given to its `detect` had so far. -/
structure SearchSlot where
  editor : Imgeditor
  nextSearchOffset : Nat
  detected : List Int

def SearchSlot.detectIt (fd : VirtualFile) (imgOffset : Int) (slot : SearchSlot) : SearchSlot :=
  { slot with detected := slot.detected ++ [filestart (virtualFileDup fd imgOffset)] }

def searchEditor (fd : VirtualFile) (fileOffset : Nat) (buf : List Byte) (slot : SearchSlot) :
    SearchSlot × Bool :=
  let sm := slot.editor
  if sm.magic.length = 0 then (slot, false)
  else
    let buf4mSearchOffset : Int :=
      if slot.nextSearchOffset = 0 then 0 else toInt32 (slot.nextSearchOffset - fileOffset)
    if buf4mSearchOffset < 0 ∨ buf4mSearchOffset ≥ toInt32 buf.length then (slot, false)
    else
      match memmem (buf.drop buf4mSearchOffset.toNat) sm.magic with
      | none => ({ slot with nextSearchOffset := fileOffset + buf.length }, false)
      | some found =>
        let magicFileOffset := fileOffset + (buf4mSearchOffset.toNat + found)
        let slot := { slot with nextSearchOffset := magicFileOffset + 1 }
        let imgOffset : Int := magicFileOffset - sm.magicOffset
        if imgOffset + toInt32 sm.headerSize > filelength fd then (slot, true)
        else (slot.detectIt fd imgOffset, true)

/-- One pass over the registered editors: the slots, whether any was ready, and `offset0_searched`. -/
def searchPass (fd : VirtualFile) (fileOffset : Nat) (buf : List Byte) :
    Bool → List SearchSlot → List SearchSlot × Bool × Bool
  | offset0Searched, [] => ([], false, offset0Searched)
  | offset0Searched, slot :: rest =>
    if offset0Searched = false ∧ fileOffset = 0 ∧ slot.editor.name = "mbr" then
      let (slots, ready, searched) := searchPass fd fileOffset buf true rest
      (slot.detectIt fd 0 :: slots, ready, searched)
    else
      let (slot, slotReady) := searchEditor fd fileOffset buf slot
      let (slots, ready, searched) := searchPass fd fileOffset buf offset0Searched rest
      (slot :: slots, slotReady || ready, searched)

/-- The `do .. while (ready)` loop of `imgeditor_search_buf`, for at most `fuel` passes. -/
def searchPasses (fd : VirtualFile) (fileOffset : Nat) (buf : List Byte) :
    Nat → Bool → List SearchSlot → List SearchSlot
  | 0, _, slots => slots
  | fuel + 1, offset0Searched, slots =>
    let (slots, ready, searched) := searchPass fd fileOffset buf offset0Searched slots
    if ready then searchPasses fd fileOffset buf fuel searched slots else slots

/-- No editor can find its magic more often than the buffer has bytes, see `searchPasses_searched`. -/
def imgeditorSearchBuf (fd : VirtualFile) (fileOffset : Nat) (buf : List Byte) (slots : List SearchSlot) :
    List SearchSlot :=
  searchPasses fd fileOffset buf (buf.length + 1) false slots

def BUF4M_SZ : Nat := 4 <<< 20

def readBack (offset : Nat) : Nat := if offset > 1024 then offset - 1024 else offset

def searchWindows (fd : VirtualFile) (offset : Nat) (slots : List SearchSlot) : List SearchSlot :=
  let start := readBack offset
  let buf := fd.file.readAt start BUF4M_SZ
  if buf.length = 0 then slots
  else
    let searched := imgeditorSearchBuf fd start buf slots
    if buf.length = BUF4M_SZ then searchWindows fd (start + buf.length) searched else searched
termination_by fd.file.size - offset
decreasing_by
  rename_i full
  have loaded : buf.length = min BUF4M_SZ (fd.file.size - start) := fd.file.readAt_length start BUF4M_SZ
  have near : offset ≤ start + 1024 := by
    simp only [start, readBack]
    split <;> omega
  have size : BUF4M_SZ = 4194304 := by decide
  show fd.file.size - (start + buf.length) < fd.file.size - offset
  omega

def imgeditorSearchForeach (fd : VirtualFile) (editors : List Imgeditor) : List SearchSlot :=
  searchWindows fd (filestart fd).toNat (editors.map fun editor => ⟨editor, 0, []⟩)

/-- `imgeditor_search` opens the file at the requested offset and refuses an offset past its end. -/
def imgeditorSearch (file : File) (offset : Nat) (editors : List Imgeditor) : List SearchSlot :=
  let fd := virtualFileOpen file offset
  if filelength fd ≤ 0 then [] else imgeditorSearchForeach fd editors

end ImgEditor
