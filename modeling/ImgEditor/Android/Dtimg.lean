import ImgEditor.Core.Exini
import ImgEditor.Fdt.DeviceTree
import Mathlib.Data.Fin.VecNotation

namespace ImgEditor

open Storage CText

def DT_TABLE_MAGIC : BitVec 32 := 0xd7b7ab1e
def DT_TABLE_DEFAULT_PAGE_SIZE : BitVec 32 := 2048
def DT_TABLE_DEFAULT_VERSION : BitVec 32 := 0

def sizeofDtTableHeader : Nat := 32
def sizeofDtTableEntry : Nat := 32

structure DtTableHeader where
  magic : BitVec 32
  totalSize : BitVec 32
  headerSize : BitVec 32
  dtEntrySize : BitVec 32
  dtEntryCount : BitVec 32
  dtEntriesOffset : BitVec 32
  pageSize : BitVec 32
  version : BitVec 32
deriving DecidableEq

structure DtTableEntry where
  dtSize : BitVec 32
  dtOffset : BitVec 32
  id : BitVec 32
  rev : BitVec 32
  custom : Fin 4 → BitVec 32

namespace DtTableHeader

def words (h : DtTableHeader) : List (BitVec 32) :=
  [h.magic, h.totalSize, h.headerSize, h.dtEntrySize, h.dtEntryCount, h.dtEntriesOffset, h.pageSize, h.version]

def decode (bytes : List Byte) : DtTableHeader :=
  ⟨be32 bytes 0, be32 bytes 4, be32 bytes 8, be32 bytes 12, be32 bytes 16, be32 bytes 20, be32 bytes 24, be32 bytes 28⟩

end DtTableHeader

namespace DtTableEntry

def zero : DtTableEntry := ⟨0, 0, 0, 0, fun _ => 0⟩

def words (e : DtTableEntry) : List (BitVec 32) :=
  [e.dtSize, e.dtOffset, e.id, e.rev, e.custom 0, e.custom 1, e.custom 2, e.custom 3]

def decode (bytes : List Byte) : DtTableEntry :=
  ⟨be32 bytes 0, be32 bytes 4, be32 bytes 8, be32 bytes 12, fun i => be32 bytes (16 + 4 * i)⟩

end DtTableEntry

def encodeDtEntries (entries : List DtTableEntry) : List Byte := be32Words (entries.flatMap DtTableEntry.words)

def decodeDtEntries (count : Nat) (bytes : List Byte) : List DtTableEntry :=
  (List.range count).map fun i => .decode (bytes.drop (sizeofDtTableEntry * i))

structure DtimgPrivateData where
  header : DtTableHeader
  entries : List DtTableEntry

/-- The sections that `dtimg_detect` checks, with what it expects there. -/
def dtimgSections (h : DtTableHeader) : List (BitVec 32 × BitVec 32) :=
  [(h.magic, DT_TABLE_MAGIC), (h.headerSize, 32), (h.dtEntrySize, 32), (h.pageSize, DT_TABLE_DEFAULT_PAGE_SIZE),
    (h.version, DT_TABLE_DEFAULT_VERSION)]

def dtimgDetect (fd : Fd) : Option DtimgPrivateData := do
  let header := DtTableHeader.decode (← fileread fd sizeofDtTableHeader)
  if ∃ checked ∈ dtimgSections header, checked.1 ≠ checked.2 then none
  else if header.dtEntriesOffset.toNat < sizeofDtTableHeader then none
  else
    let entries ← fileread (fd.fileseek header.dtEntriesOffset.toNat) (header.dtEntryCount * header.dtEntrySize).toNat
    return ⟨header, decodeDtEntries header.dtEntryCount.toNat entries⟩

/-- The inner loop of `dtimg_get_default_custom` from `j` on. `count` starts at 1 and `j` at `i + 1`. -/
def dtimgCountSame (custom : Nat → BitVec 32) (i maxCount : Nat) : Nat → Nat → Nat → BitVec 32 → BitVec 32
  | 0, _, _, max => max
  | fuel + 1, j, count, max =>
    if j < count then
      if custom i = custom j then
        dtimgCountSame custom i maxCount fuel (j + 1) (count + 1) (if count + 1 > maxCount then custom i else max)
      else dtimgCountSame custom i maxCount fuel (j + 1) count max
    else max

/-- `dtimg_get_default_custom`. The index of its `custom` array stays `which_custom`; the array is a part
of `heap`, which is zero where calloc made it so. -/
def dtimgGetDefaultCustom (entries : List DtTableEntry) (which : Fin 4) : BitVec 32 :=
  if ∃ entry ∈ entries, entry.custom which = 0 then 0
  else
    let heap : Nat → BitVec 32 := entries.foldl
      (fun heap entry cell => if cell = which.val then entry.custom which else heap cell) fun _ => 0
    (List.range entries.length).foldl (fun max i => dtimgCountSame heap i 0 entries.length (i + 1) 1 max) (heap 0)

/-- The name and the value in a device tree that `dtimg_dtbo_get_global` reads. -/
def dtimgDtboGetGlobal (root : DeviceNode) (name : CString) : BitVec 32 :=
  ((deviceNodeFindByname root name).bind deviceNodeReadU32).getD 0

abbrev DtimgDir := CString → Option File

def DtimgDir.writeFile (dir : DtimgDir) (name : CString) (content : File) : DtimgDir :=
  fun other => if other = name then some content else dir other

def dtboimgCfg : CString := cstr "dtboimg.cfg"

def boardName (i : Nat) : CString := cstr "board" ++ snprintfUnsigned32 (BitVec.ofNat 32 (i + 1)) ++ cstr ".dtbo"

def customName (i : Fin 4) : CString := cstr "custom" ++ decimal i.val

def dtimgNumberLine (name : CString) (value : BitVec 32) : List Byte :=
  cstr "  " ++ name ++ cstr "=0x" ++ printed 16 value.toNat ++ [10#8]

def dtimgUnpackEntrySection (value : BitVec 32) (name : CString) (default_ : BitVec 32) : List Byte :=
  if value ≠ default_ then dtimgNumberLine name value else []

section Unpack

variable (junk : Nat → Byte)

def dtimgUnpackGlobal (p : DtimgPrivateData) : List Byte :=
  cstr "# global options" ++ [10#8] ++ (cstr "  id=/:board_id" ++ [10#8]) ++ (cstr "  rev=/:board_rev" ++ [10#8]) ++
    (List.finRange 4).flatMap fun i =>
      let def_ := dtimgGetDefaultCustom p.entries i
      if def_ ≠ 0 then dtimgNumberLine (customName i) def_ else []

def dtimgUnpackEntry (p : DtimgPrivateData) (i : Nat) (entry : DtTableEntry) (root : DeviceNode) : List Byte :=
  [10#8] ++ boardName i ++ [10#8] ++
    dtimgUnpackEntrySection entry.id (cstr "id") (dtimgDtboGetGlobal root (cstr "board_id")) ++
    dtimgUnpackEntrySection entry.rev (cstr "rev") (dtimgDtboGetGlobal root (cstr "board_rev")) ++
    (List.finRange 4).flatMap fun j =>
      dtimgUnpackEntrySection (entry.custom j) (customName j) (dtimgGetDefaultCustom p.entries j)

def Fd.virtualFileDup (fd : Fd) (offset : Nat) : Fd := ⟨fd.file, fd.start + offset, fd.start + offset⟩

/-- The loop of `dtimg_unpack` from the entry with index `i` on: the text in `fp` and the directory. -/
def dtimgUnpackLoop (p : DtimgPrivateData) (fd : Fd) :
    Nat → List DtTableEntry → List Byte → DtimgDir → Option (List Byte × DtimgDir)
  | _, [], fp, outdir => some (fp, outdir)
  | i, entry :: rest, fp, outdir => do
    let fdt ← fdtEditorDetect (fd.virtualFileDup entry.dtOffset.toNat)
    let done := dd64 junk (some fd) (some Fd.created) entry.dtOffset.toNat 0 entry.dtSize.toNat none ()
    dtimgUnpackLoop p fd (i + 1) rest (fp ++ dtimgUnpackEntry p i entry fdt.root)
      (outdir.writeFile (boardName i) (done.dst.getD Fd.created).file)

def dtimgUnpack (p : DtimgPrivateData) (fd : Fd) (outdir : DtimgDir) : Option DtimgDir := do
  let fp := dtimgUnpackGlobal p ++ ([10#8] ++ cstr "# entries")
  let (fp, outdir) ← dtimgUnpackLoop junk p fd 0 (p.entries.take p.header.dtEntryCount.toNat) fp outdir
  return outdir.writeFile dtboimgCfg (File.ofBytes fp)

end Unpack

section InitEntry

variable (root : DeviceNode) (globalOption section_ : ExiniSection)

def dtimgEntryReadUlong (id : CString) : Except ExiniErr Nat :=
  match exiniSectionReadUlong section_ id with
  | .ok n => .ok n
  | .error _ => exiniSectionReadUlong globalOption id

/-- The new value of `ret_number`. -/
def dtimgInitEntryFromDt (id : CString) (number : BitVec 32) : Option (BitVec 32) :=
  match (exiniSectionReadString section_ id true).or (exiniSectionReadString globalOption id true) with
  | none => some number
  | some fdtpath =>
    match deviceNodeFindBypath root (stringReplaceInBuffer (fdtpath.take 127) 128 (cstr ":") []) with
    | none => some number
    | some node => deviceNodeReadU32 node

/-- The `id` or the `rev` of an entry that had this value. -/
def dtimgInitNumber (id : CString) (number : BitVec 32) : Option (BitVec 32) :=
  match dtimgEntryReadUlong globalOption section_ id with
  | .ok n => some (BitVec.ofNat 32 n)
  | .error .badType => dtimgInitEntryFromDt root globalOption section_ id number
  | .error .notDefined => some number

def dtimgInitCustom (i : Fin 4) : Option (BitVec 32) :=
  match dtimgEntryReadUlong globalOption section_ (customName i) with
  | .ok n => some (BitVec.ofNat 32 n)
  | .error .badType => none
  | .error .notDefined => some 0

def dtimgInitEntry (entry : DtTableEntry) : Option DtTableEntry := do
  let id ← dtimgInitNumber root globalOption section_ (cstr "id") entry.id
  let rev ← dtimgInitNumber root globalOption section_ (cstr "rev") entry.rev
  let custom0 ← dtimgInitCustom globalOption section_ 0
  let custom1 ← dtimgInitCustom globalOption section_ 1
  let custom2 ← dtimgInitCustom globalOption section_ 2
  let custom3 ← dtimgInitCustom globalOption section_ 3
  return { entry with id, rev, custom := ![custom0, custom1, custom2, custom3] }

end InitEntry

section Pack

variable (junk : Nat → Byte)

structure DtimgPack where
  entries : List DtTableEntry
  dataOffset : BitVec 32
  out : Fd

def dtimgPackEntry (file : File) (entry : DtTableEntry) (st : DtimgPack) : DtTableEntry × Fd :=
  let length := BitVec.ofNat 32 file.size
  let done := dd64 junk (some ⟨file, 0, 0⟩) (some st.out) 0 st.dataOffset.toNat length.toNat none ()
  ({ entry with dtOffset := st.dataOffset, dtSize := length }, done.dst.getD st.out)

def dtimgPackSection (dir : DtimgDir) (globalOption : ExiniSection) (globalIndex : Nat) (section_ : ExiniSection)
    (st : DtimgPack) : Option DtimgPack :=
  if section_.name = DTBOCFG_GLOBAL_OPTION then some st
  else do
    let file ← dir section_.name
    let fdt ← fdtEditorDetect ⟨file, 0, 0⟩
    let entry ← dtimgInitEntry fdt.root globalOption section_ (st.entries.getD (globalIndex - 1) .zero)
    let (entry, out) := dtimgPackEntry junk file entry st
    return ⟨st.entries.set (globalIndex - 1) entry, st.dataOffset + entry.dtSize, out⟩

def dtimgPackLoop (dir : DtimgDir) (globalOption : ExiniSection) :
    Nat → List ExiniSection → DtimgPack → Option DtimgPack
  | _, [], st => some st
  | globalIndex, section_ :: rest, st => do
    let st ← dtimgPackSection junk dir globalOption globalIndex section_ st
    dtimgPackLoop dir globalOption (globalIndex + 1) rest st

def dtimgPackHeader (count totalSize : BitVec 32) : DtTableHeader where
  magic := DT_TABLE_MAGIC
  totalSize := totalSize
  headerSize := 32
  dtEntrySize := 32
  dtEntryCount := count
  dtEntriesOffset := 32
  pageSize := DT_TABLE_DEFAULT_PAGE_SIZE
  version := DT_TABLE_DEFAULT_VERSION

/-- The end of `dtimg_pack`. A write(2) call transfers at most `0x7ffff000` bytes. -/
def dtimgPackFinish (count : BitVec 32) (st : DtimgPack) : Fd :=
  let header := dtimgPackHeader count st.dataOffset
  let entries := (encodeDtEntries st.entries).take (header.dtEntrySize * count).toNat
  ((st.out.fileseek 0).write (be32Words header.words)).write (entries.take 0x7ffff000)

def dtimgPack (dir : DtimgDir) (fdOutimg : Fd) : Option Fd := do
  let cfg ← dir dtboimgCfg
  let sections ← exiniLoad ⟨true, none, EXINI_QUIRK_DTBOCFG⟩ cfg.content
  let globalOption ← exiniFindSection sections DTBOCFG_GLOBAL_OPTION
  let count := BitVec.ofNat 32 (sections.length - 1)
  let st ← dtimgPackLoop junk dir globalOption 0 sections
    ⟨List.replicate (sections.length - 1) .zero, 32 + 32 * count, fdOutimg⟩
  return dtimgPackFinish count st

end Pack

end ImgEditor
