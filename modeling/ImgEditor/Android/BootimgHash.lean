import ImgEditor.Android.BootimgPack
import ImgEditor.Hash.HashContext

namespace ImgEditor

open Storage CText

-- `abootimg_detect` and `abootimg_do_pack` on the hash contexts themselves
namespace Sha1sum

def abootimgUpdateSha1sum : BufScan (Option HashContext) := hashScan

/-- The digest that `hash_context_finish` stores to `sha1sum[128]`. -/
def finish (hash : Option HashContext) : Option (List Byte) :=
  hash.bind fun hash => (hashContextFinish hash 128).map Prod.fst

structure AbootimgHash where
  offset : Nat
  hash : Option HashContext

section Detect

variable (junk : Nat → Byte) (fd : Fd)

def abootimgDetectFile (pageSize : Nat) (st : AbootimgHash) (sz : Nat) : AbootimgHash :=
  let hash := if 0 < sz then (dd64 junk (some fd) none st.offset 0 sz (some abootimgUpdateSha1sum) st.hash).scan
    else st.hash
  ⟨(st.offset + alignedLength32 sz pageSize) % 2 ^ 32, (abootimgUpdateSha1sum (leBytes 4 sz) hash).2⟩

def abootimgDetectHash (head : AndrImgHdr) : AbootimgHash :=
  ((abootimgFileSizes head).take (3 + head.headerVersion)).foldl (abootimgDetectFile junk fd head.pageSize)
    ⟨head.pageSize, some (hashContextInit .sha1)⟩

/-- The answer of `abootimg_detect`; the outer `none` is a fault of the hash functions. -/
def abootimgDetect : Option (Option AbootimgEditorPrivateData) :=
  let head : AndrImgHdr := setField (List.replicate sizeofAndrImgHdr 0#8) 0 (fd.read sizeofAndrImgHdr).1
  if head.magic ≠ ANDR_BOOT_MAGIC then some none
  else if head.headerVersion > 2 then some none
  else if head.pageSize ∉ abootimgPageSizes then some none
  else
    let st := abootimgDetectHash junk fd head
    (finish st.hash).map fun sha1sum =>
      if sha1sum ≠ head.id.take sha1sum.length then none else some ⟨head, st.offset⟩

end Detect

section Pack

variable {J : Type} (api : CJson J) (junk : Nat → Byte)

structure AbootimgPack where
  hdr : AndrImgHdr
  out : Fd
  hash : Option HashContext
  padsz : Nat
  offset : Nat

def abootimgPackListed (afile : AbootimgFile) (file : File) (length : Int) (st : AbootimgPack) : Option AbootimgPack :=
  if length < 0 then none
  else
    let length := length.toNat
    let hdr : AndrImgHdr := setField st.hdr afile.hdrSizeOffset (leBytes 4 length)
    let done := dd64 junk (some ⟨file, 0, 0⟩) (some st.out) 0 st.offset length (some abootimgUpdateSha1sum) st.hash
    let tmp := st.offset + length
    let offset := st.offset + alignedLength32 length hdr.pageSize
    some ⟨hdr, done.dst.getD st.out, (abootimgUpdateSha1sum (leBytes 4 length) done.scan).2, offset - tmp, offset⟩

def abootimgPackFile (files : J) (dir : AbootimgDir J) (afile : AbootimgFile) (st : AbootimgPack) :
    Option AbootimgPack := do
  if (← jsonStringArraySearch api files (cstr afile.name)) then
    let file ← dir.file (cstr afile.name)
    abootimgPackListed junk afile file (toInt32 file.size) st
  else
    return { st with
      hdr := setField st.hdr afile.hdrSizeOffset (leBytes 4 0)
      hash := (abootimgUpdateSha1sum (leBytes 4 0) st.hash).2 }

def abootimgPackLoop (files : J) (dir : AbootimgDir J) : List AbootimgFile → AbootimgPack → Option AbootimgPack
  | [], st => some st
  | afile :: rest, st =>
    if afile.minVersion > st.hdr.headerVersion then some st
    else (abootimgPackFile api junk files dir afile st).bind (abootimgPackLoop files dir rest)

def abootimgPackFinish (st : AbootimgPack) : Option Fd :=
  let out := if st.padsz ≠ 0 then (st.out.lseek64 (st.offset - 1)).write [0#8] else st.out
  (finish st.hash).map fun sha1sum =>
    let hdr := setField st.hdr 576 sha1sum
    let hdr := setField hdr 0 ANDR_BOOT_MAGIC
    (out.lseek64 0).write hdr

/-- The answer of `abootimg_do_pack`; the outer `none` is a fault of the hash functions. -/
def abootimgDoPack (hdr : AndrImgHdr) (files : J) (dir : AbootimgDir J) (fdOutimg : Fd) : Option (Option Fd) :=
  match abootimgPackLoop api junk files dir abootimgFiles
      ⟨hdr, fdOutimg, some (hashContextInit .sha1), 0, hdr.pageSize⟩ with
  | none => some none
  | some st => (abootimgPackFinish st).map some

end Pack

theorem sha1_length (stream : List Byte) : (HashTypeId.sha1.reference stream).length = 20 := by
  show (ImgEditor.sha1.reference stream).length = 20
  rw [ShaAlgo.reference, shaDigest, List.length_map, List.length_range]
  rfl

theorem finish_digest {room : Nat} {hash : Option HashContext} {stream : List Byte} (hashed : Hashed room hash stream) :
    finish hash = some (HashTypeId.sha1.reference stream) := by
  obtain ⟨⟨context, rfl, took⟩, _⟩ := hashed
  obtain ⟨done, ran⟩ := hashContextFinish_took took 128
  rw [finish, Option.bind_some, ran, Option.map_some, List.take_of_length_le (by rw [sha1_length]; decide)]

/-- A scan that is followed by the four bytes of its size. -/
theorem Hashed.size {room : Nat} {hash : Option HashContext} {stream : List Byte} (hashed : Hashed (room + 1) hash stream)
    (sz : Nat) : Hashed room (abootimgUpdateSha1sum (leBytes 4 sz) hash).2 (stream ++ leBytes 4 sz) := by
  apply hashed.fed <;> rw [leBytes_length]
  · decide
  · rw [Nat.succ_mul]
    unfold ddMaxBufsz
    omega

section Detect

variable {junk : Nat → Byte} {fd : Fd} {page room sz : Nat} {st : AbootimgHash} {st' : ImgEditor.AbootimgHash}

structure AbootimgHash.Stands (room : Nat) (st : AbootimgHash) (st' : ImgEditor.AbootimgHash) : Prop where
  offset : st.offset = st'.offset
  hashed : Hashed room st.hash st'.stream

theorem abootimgDetectFile_stands (stands : st.Stands (room + sz + 1) st') :
    (abootimgDetectFile junk fd page st sz).Stands room (ImgEditor.abootimgDetectFile junk fd page st' sz) := by
  constructor
  · simp only [abootimgDetectFile, ImgEditor.abootimgDetectFile, stands.offset]
  · simp only [abootimgDetectFile, ImgEditor.abootimgDetectFile]
    apply Hashed.size
    split
    · rw [stands.offset]
      exact (dd64_simulates hashScan_simulates junk (some fd) none st'.offset 0 (room + 1) sz
        (hashScan_simulates.fewer (by omega) stands.hashed)).scan
    · exact hashScan_simulates.fewer (by omega) stands.hashed

theorem abootimgDetectFiles_stands {sizes : List Nat} (words : ∀ sz ∈ sizes, sz < 2 ^ 32)
    (stands : st.Stands (room + sizes.length * 2 ^ 32) st') :
    (sizes.foldl (abootimgDetectFile junk fd page) st).Stands room
      (sizes.foldl (ImgEditor.abootimgDetectFile junk fd page) st') := by
  induction sizes generalizing st st' with
  | nil => exact stands
  | cons sz sizes ih =>
    have word := words sz List.mem_cons_self
    rw [List.length_cons, Nat.succ_mul] at stands
    apply ih (fun other member => words other (List.mem_cons_of_mem _ member))
    apply abootimgDetectFile_stands
    exact ⟨stands.offset, hashScan_simulates.fewer (by omega) stands.hashed⟩

theorem abootimgDetectHash_stands (head : AndrImgHdr) :
    (abootimgDetectHash junk fd head).Stands 0 (ImgEditor.abootimgDetectHash junk fd head) := by
  apply abootimgDetectFiles_stands
  · intro sz member
    obtain ⟨offset, rfl⟩ : ∃ offset, sz = leField head offset 4 := by
      have listed := List.mem_of_mem_take member
      simp only [abootimgFileSizes, List.mem_cons, List.not_mem_nil, or_false] at listed
      rcases listed with rfl | rfl | rfl | rfl | rfl <;> exact ⟨_, rfl⟩
    exact leField_lt _ _ _
  · refine ⟨rfl, ⟨_, rfl, hashContextInit_took .sha1⟩, ?_⟩
    have few : ((abootimgFileSizes head).take (3 + head.headerVersion)).length ≤ 5 := by
      rw [List.length_take]
      exact Nat.min_le_right _ _
    unfold ddMaxBufsz
    simp only [List.length_nil]
    omega

/-- The hash context that the pieces of `dd` go through decides as the digest of one stream does. -/
theorem abootimgDetect_digest (junk : Nat → Byte) (fd : Fd) :
    abootimgDetect junk fd = some (ImgEditor.abootimgDetect HashTypeId.sha1.reference junk fd) := by
  simp only [abootimgDetect, ImgEditor.abootimgDetect]
  split
  · rfl
  · split
    · rfl
    · split
      · rfl
      · have stands := @abootimgDetectHash_stands junk fd
          (setField (List.replicate sizeofAndrImgHdr 0#8) 0 (fd.read sizeofAndrImgHdr).1)
        rw [finish_digest stands.hashed, Option.map_some, sha1_length, stands.offset]

end Detect

section Pack

variable {J : Type} {api : CJson J} {junk : Nat → Byte} {files : J} {dir : AbootimgDir J} {afile : AbootimgFile}
  {room more : Nat} {st : AbootimgPack} {st' : ImgEditor.AbootimgPack}

structure AbootimgPack.Stands (room : Nat) (st : AbootimgPack) (st' : ImgEditor.AbootimgPack) : Prop where
  hdr : st.hdr = st'.hdr
  out : st.out = st'.out
  hashed : Hashed room st.hash st'.stream
  padsz : st.padsz = st'.padsz
  offset : st.offset = st'.offset

/-- Two runs that fail together. -/
inductive Together (room : Nat) : Option AbootimgPack → Option ImgEditor.AbootimgPack → Prop where
  | failed : Together room none none
  | ran {st : AbootimgPack} {st' : ImgEditor.AbootimgPack} (stands : st.Stands room st') :
      Together room (some st) (some st')

theorem abootimgPackListed_stands (file : File) {length : Int} (spent : room + length.toNat < more)
    (stands : st.Stands more st') :
    Together room (abootimgPackListed junk afile file length st)
      (ImgEditor.abootimgPackListed junk afile file length st') := by
  simp only [abootimgPackListed, ImgEditor.abootimgPackListed]
  split
  · exact .failed
  · have same := dd64_simulates hashScan_simulates junk (some ⟨file, 0, 0⟩) (some st'.out) 0 st'.offset (room + 1)
      length.toNat (hashScan_simulates.fewer (by omega) stands.hashed)
    apply Together.ran
    constructor
    · rw [stands.hdr]
    · rw [stands.out, stands.offset]
      exact congrArg (·.getD st'.out) same.dst
    · rw [stands.out, stands.offset]
      exact Hashed.size same.scan length.toNat
    · rw [stands.offset, stands.hdr]
    · rw [stands.offset, stands.hdr]

theorem abootimgPackFile_listed {file : File} (search : jsonStringArraySearch api files (cstr afile.name) = some true)
    (opened : dir.file (cstr afile.name) = some file) :
    abootimgPackFile api junk files dir afile st = abootimgPackListed junk afile file (toInt32 file.size) st := by
  rw [abootimgPackFile, search, Option.bind_eq_bind, Option.bind_some, if_pos rfl, opened, Option.bind_eq_bind,
    Option.bind_some]

theorem abootimgPackFile_stands (spent : room + 2 ^ 32 ≤ more) (stands : st.Stands more st') :
    Together room (abootimgPackFile api junk files dir afile st)
      (ImgEditor.abootimgPackFile api junk files dir afile st') := by
  cases search : jsonStringArraySearch api files (cstr afile.name) with
  | none =>
    rw [abootimgPackFile, ImgEditor.abootimgPackFile, search]
    exact .failed
  | some found =>
    cases found with
    | true =>
      cases opened : dir.file (cstr afile.name) with
      | none =>
        rw [abootimgPackFile, ImgEditor.abootimgPackFile, search, opened]
        exact .failed
      | some file =>
        rw [abootimgPackFile_listed search opened, ImgEditor.abootimgPackFile_listed st' search opened]
        have short := (toInt32_range file.size).2
        exact abootimgPackListed_stands file (by omega) stands
    | false =>
      rw [abootimgPackFile, ImgEditor.abootimgPackFile, search]
      apply Together.ran
      refine ⟨?_, stands.out, ?_, stands.padsz, stands.offset⟩
      · rw [stands.hdr]
      · exact Hashed.size (hashScan_simulates.fewer (by omega) stands.hashed) 0

theorem abootimgPackLoop_stands {afiles : List AbootimgFile}
    (stands : st.Stands (room + afiles.length * 2 ^ 32) st') :
    Together room (abootimgPackLoop api junk files dir afiles st)
      (ImgEditor.abootimgPackLoop api junk files dir afiles st') := by
  induction afiles generalizing st st' with
  | nil => exact .ran stands
  | cons afile afiles ih =>
    rw [List.length_cons, Nat.succ_mul, ← Nat.add_assoc] at stands
    generalize left : room + afiles.length * 2 ^ 32 = next at stands ih
    rw [abootimgPackLoop, ImgEditor.abootimgPackLoop, stands.hdr]
    split
    · exact .ran ⟨stands.hdr, stands.out, hashScan_simulates.fewer (by omega) stands.hashed, stands.padsz, stands.offset⟩
    · have step := @abootimgPackFile_stands J api junk files dir afile next _ st st' (le_refl _) stands
      generalize abootimgPackFile api junk files dir afile st = ran at step ⊢
      generalize ImgEditor.abootimgPackFile api junk files dir afile st' = ran' at step ⊢
      cases step with
      | failed => exact .failed
      | ran kept => exact ih kept

theorem abootimgPackFinish_stands (stands : st.Stands room st') :
    abootimgPackFinish st = some (ImgEditor.abootimgPackFinish HashTypeId.sha1.reference st') := by
  simp only [abootimgPackFinish, ImgEditor.abootimgPackFinish, finish_digest stands.hashed, Option.map_some,
    stands.hdr, stands.out, stands.padsz, stands.offset]

/-- The image that is packed with the hash context is the image packed with the digest of one stream. -/
theorem abootimgDoPack_digest {J : Type} (api : CJson J) (junk : Nat → Byte) (hdr : AndrImgHdr) (files : J)
    (dir : AbootimgDir J) (fdOutimg : Fd) :
    abootimgDoPack api junk hdr files dir fdOutimg =
      some (ImgEditor.abootimgDoPack api HashTypeId.sha1.reference junk hdr files dir fdOutimg) := by
  have start : AbootimgPack.Stands (0 + abootimgFiles.length * 2 ^ 32)
      ⟨hdr, fdOutimg, some (hashContextInit .sha1), 0, hdr.pageSize⟩ ⟨hdr, fdOutimg, [], 0, hdr.pageSize⟩ :=
    ⟨rfl, rfl, ⟨⟨_, rfl, hashContextInit_took .sha1⟩,
      show 0 + (0 + 5 * 2 ^ 32) * ddMaxBufsz < 2 ^ 61 by decide⟩, rfl, rfl⟩
  have looped := @abootimgPackLoop_stands J api junk files dir _ _ _ _ start
  rw [abootimgDoPack, ImgEditor.abootimgDoPack]
  generalize abootimgPackLoop api junk files dir abootimgFiles
    ⟨hdr, fdOutimg, some (hashContextInit .sha1), 0, hdr.pageSize⟩ = ran at looped ⊢
  generalize ImgEditor.abootimgPackLoop api junk files dir abootimgFiles ⟨hdr, fdOutimg, [], 0, hdr.pageSize⟩ =
    ran' at looped ⊢
  cases looped with
  | failed => rfl
  | ran stands =>
    dsimp only
    rw [abootimgPackFinish_stands stands]
    rfl

end Pack

end Sha1sum

end ImgEditor
