import ImgEditor.Core.CInt
import ImgEditor.Core.Dd
import ImgEditor.Core.StructureTable

namespace ImgEditor

open Storage CText

def ANDR_BOOT_MAGIC : List Byte := cstr "ANDROID!"

abbrev AndrImgHdr := List Byte

def sizeofAndrImgHdr : Nat := 1660

namespace AndrImgHdr

def magic (hdr : AndrImgHdr) : List Byte := field hdr 0 8
def pageSize (hdr : AndrImgHdr) : Nat := leField hdr 36 4
def headerVersion (hdr : AndrImgHdr) : Nat := leField hdr 40 4
def id (hdr : AndrImgHdr) : List Byte := field hdr 576 32

end AndrImgHdr

/-- `structure_andr_hdr` without `id`, which is never saved or loaded. -/
def structureAndrHdr : List TableItem :=
  [⟨"kernel_addr", 12, 4, .xunsigned, false⟩, ⟨"kernel_size", 8, 4, .xunsigned, true⟩,
    ⟨"ramdisk_addr", 20, 4, .xunsigned, false⟩, ⟨"ramdisk_size", 16, 4, .xunsigned, true⟩,
    ⟨"second_addr", 28, 4, .xunsigned, false⟩, ⟨"second_size", 24, 4, .xunsigned, true⟩,
    ⟨"dtb_addr", 1652, 8, .xunsigned, false⟩, ⟨"dtb_size", 1648, 4, .xunsigned, true⟩,
    ⟨"recovery_dtbo_offset", 1636, 8, .xunsigned, false⟩, ⟨"recovery_dtbo_size", 1632, 4, .xunsigned, true⟩,
    ⟨"tags_addr", 32, 4, .xunsigned, false⟩, ⟨"page_size", 36, 4, .unsigned, false⟩,
    ⟨"header_version", 40, 4, .xunsigned, false⟩, ⟨"header_size", 1644, 4, .xunsigned, false⟩,
    ⟨"os_version", 44, 4, .xunsigned, false⟩, ⟨"name", 48, 16, .string, false⟩,
    ⟨"cmdline", 64, 512, .string, false⟩, ⟨"extra_cmdline", 608, 1024, .string, false⟩]

def dropItems (items : List TableItem) (dropOffset : Nat) : List TableItem :=
  items.map fun st => if st.offset < dropOffset then st else { st with notSave := true }

def fixAndrHdrStructure (items : List TableItem) : Nat → List TableItem
  | 0 => dropItems items 1632
  | 1 => dropItems items 1648
  | _ => items

structure AbootimgEditorPrivateData where
  head : AndrImgHdr
  totalSize : Nat

/-- The hash context is the stream that was hashed so far. -/
def abootimgUpdateSha1sum : BufScan (List Byte) := fun buf ctx => (buf, ctx ++ buf)

def abootimgPageSizes : List Nat := [2048, 4096, 8192, 16384]

structure AbootimgHash where
  offset : Nat
  stream : List Byte

def abootimgFileSizes (head : AndrImgHdr) : List Nat :=
  [leField head 8 4, leField head 16 4, leField head 24 4, leField head 1632 4, leField head 1648 4]

section Detect

variable (sha1 : List Byte → List Byte) (junk : Nat → Byte) (fd : Fd)

/-- One pass of the loop of `abootimg_detect`. Every `dd` seeks first, so the position that the one
before left is not kept. -/
def abootimgDetectFile (pageSize : Nat) (st : AbootimgHash) (sz : Nat) : AbootimgHash :=
  let stream := if 0 < sz then
      (dd64 junk (some fd) none st.offset 0 sz (some abootimgUpdateSha1sum) st.stream).scan
    else st.stream
  -- the size is hashed even when it is zero
  ⟨(st.offset + alignedLength32 sz pageSize) % 2 ^ 32, stream ++ leBytes 4 sz⟩

def abootimgDetectHash (head : AndrImgHdr) : AbootimgHash :=
  ((abootimgFileSizes head).take (3 + head.headerVersion)).foldl (abootimgDetectFile junk fd head.pageSize)
    ⟨head.pageSize, []⟩

def abootimgDetect : Option AbootimgEditorPrivateData :=
  let head : AndrImgHdr := setField (List.replicate sizeofAndrImgHdr 0#8) 0 (fd.read sizeofAndrImgHdr).1
  if head.magic ≠ ANDR_BOOT_MAGIC then none
  else if head.headerVersion > 2 then none
  else if head.pageSize ∉ abootimgPageSizes then none
  else
    let hash := abootimgDetectHash junk fd head
    if sha1 hash.stream ≠ head.id.take 20 then none
    else some ⟨head, hash.offset⟩

end Detect

structure AbootimgFile where
  minVersion : Nat
  name : String
  hdrSizeOffset : Nat
deriving DecidableEq

def abootimgFiles : List AbootimgFile :=
  [⟨0, "kernel.bin", 8⟩, ⟨0, "ramdisk.bin", 16⟩, ⟨0, "second.bin", 24⟩, ⟨1, "recovery_dtbo.bin", 1632⟩,
    ⟨2, "dtb.bin", 1648⟩]

/-- A directory: what `json_from_file` makes of its abootimg.json, and its other files. -/
structure AbootimgDir (J : Type) where
  json : Option J
  file : CString → Option File

def AbootimgDir.writeFile {J : Type} (dir : AbootimgDir J) (name : CString) (content : File) : AbootimgDir J :=
  { dir with file := fun other => if other = name then some content else dir.file other }

section Unpack

variable {J : Type} (api : CJsonStrings J) (junk : Nat → Byte)

def abootimgUnpackSaveFile (fdimg : Fd) (dir : AbootimgDir J) (name : CString) (imgOffset sz : Nat) :
    Option (AbootimgDir J) :=
  if sz ≠ 0 then
    let done := dd64 junk (some fdimg) (some Fd.created) imgOffset 0 sz none ()
    if done.copied ≠ sz then none
    else some (dir.writeFile name (done.dst.getD Fd.created).file)
  else some dir

structure AbootimgUnpack (J : Type) where
  offset : Nat
  dir : AbootimgDir J
  filelists : List CString

def abootimgUnpackLoop (fd : Fd) (hdr : AndrImgHdr) :
    List AbootimgFile → AbootimgUnpack J → Option (AbootimgUnpack J)
  | [], st => some st
  | file :: rest, st =>
    let filesz := leField hdr file.hdrSizeOffset 4
    if file.minVersion > hdr.headerVersion then some st
    else if filesz = 0 then abootimgUnpackLoop fd hdr rest st
    else do
      let dir ← abootimgUnpackSaveFile junk fd st.dir (cstr file.name) st.offset filesz
      abootimgUnpackLoop fd hdr rest
        ⟨st.offset + alignedLength32 filesz hdr.pageSize, dir, st.filelists ++ [cstr file.name]⟩

def abootimgUnpack (p : AbootimgEditorPrivateData) (fd : Fd) (outdir : AbootimgDir J) : Option (AbootimgDir J) := do
  let root := structureSaveJson api.toCJson api.createObject p.head
    (savedItems (fixAndrHdrStructure structureAndrHdr p.head.headerVersion))
  let st ← abootimgUnpackLoop junk fd p.head abootimgFiles ⟨p.head.pageSize, outdir, []⟩
  let root := api.addItemToObject root (cstr "files") (api.createStringArray st.filelists)
  return { st.dir with json := some root }

end Unpack

/-- The comparison with an item that is no string crashes. -/
def searchStrings (s : CString) : List (Option CString) → Option Bool
  | [] => some false
  | none :: _ => none
  | some value :: rest => if s = value then some true else searchStrings s rest

section Pack

variable {J : Type} (api : CJson J) (sha1 : List Byte → List Byte) (junk : Nat → Byte)

def jsonStringArraySearch (files : J) (s : CString) : Option Bool :=
  searchStrings s ((arrayForEach api files).map api.getStringValue)

structure AbootimgPack where
  hdr : AndrImgHdr
  out : Fd
  stream : List Byte
  padsz : Nat
  offset : Nat

/-- A listed file of this `(int)filelength`. -/
def abootimgPackListed (afile : AbootimgFile) (file : File) (length : Int) (st : AbootimgPack) : Option AbootimgPack :=
  if length < 0 then none
  else
    let length := length.toNat
    let hdr : AndrImgHdr := setField st.hdr afile.hdrSizeOffset (leBytes 4 length)
    let done := dd64 junk (some ⟨file, 0, 0⟩) (some st.out) 0 st.offset length (some abootimgUpdateSha1sum) st.stream
    let tmp := st.offset + length
    let offset := st.offset + alignedLength32 length hdr.pageSize
    some ⟨hdr, done.dst.getD st.out, done.scan ++ leBytes 4 length, offset - tmp, offset⟩

def abootimgPackFile (files : J) (dir : AbootimgDir J) (afile : AbootimgFile) (st : AbootimgPack) :
    Option AbootimgPack := do
  if (← jsonStringArraySearch api files (cstr afile.name)) then
    let file ← dir.file (cstr afile.name)
    abootimgPackListed junk afile file (toInt32 file.size) st
  else
    return { st with hdr := setField st.hdr afile.hdrSizeOffset (leBytes 4 0), stream := st.stream ++ leBytes 4 0 }

def abootimgPackLoop (files : J) (dir : AbootimgDir J) : List AbootimgFile → AbootimgPack → Option AbootimgPack
  | [], st => some st
  | afile :: rest, st =>
    if afile.minVersion > st.hdr.headerVersion then some st
    else (abootimgPackFile api junk files dir afile st).bind (abootimgPackLoop files dir rest)

def abootimgPackFinish (st : AbootimgPack) : Fd :=
  let out := if st.padsz ≠ 0 then (st.out.lseek64 (st.offset - 1)).write [0#8] else st.out
  let hdr := setField st.hdr 576 (sha1 st.stream)
  let hdr := setField hdr 0 ANDR_BOOT_MAGIC
  (out.lseek64 0).write hdr

def abootimgDoPack (hdr : AndrImgHdr) (files : J) (dir : AbootimgDir J) (fdOutimg : Fd) : Option Fd :=
  (abootimgPackLoop api junk files dir abootimgFiles ⟨hdr, fdOutimg, [], 0, hdr.pageSize⟩).map
    (abootimgPackFinish sha1)

def andrHdrEraseFrom (hdr : AndrImgHdr) (offset : Nat) : AndrImgHdr :=
  setField hdr offset (List.replicate (sizeofAndrImgHdr - offset) 0#8)

def abootimgLoadHeader (root : J) : Option AndrImgHdr :=
  let head : AndrImgHdr := List.replicate sizeofAndrImgHdr 0#8
  structureLoadJson api root head (savedItems (fixAndrHdrStructure structureAndrHdr head.headerVersion))

def abootimgEraseHeader (head : AndrImgHdr) : Option AndrImgHdr :=
  match head.headerVersion with
  | 0 => some (andrHdrEraseFrom head 1632)
  | 1 => some (andrHdrEraseFrom head 1648)
  | 2 => some head
  | _ => none

/-- The checks of `abootimg_pack` that a listed file exists in the header version. -/
def abootimgCheckVersion (files : J) (head : AndrImgHdr) : Option Unit := do
  if (← jsonStringArraySearch api files (cstr "recovery_dtbo.bin")) then
    if head.headerVersion < 1 then none else some ()
  else if (← jsonStringArraySearch api files (cstr "dtb.bin")) then
    if head.headerVersion < 2 then none else some ()
  else some ()

def abootimgPack (dir : AbootimgDir J) (fdOutimg : Fd) : Option Fd := do
  let root ← dir.json
  let files ← api.getObjectItem root (cstr "files")
  if ¬ api.isArray files then none
  else
    let head ← abootimgLoadHeader api root
    if head.pageSize ∉ abootimgPageSizes then none
    else
      let head ← abootimgEraseHeader head
      abootimgCheckVersion api files head
      abootimgDoPack api sha1 junk head files dir fdOutimg

end Pack

end ImgEditor
