import ImgEditor.Android.BootimgPack
import Mathlib.Algebra.Order.BigOperators.Group.List

namespace ImgEditor

open Storage CText

section Hash

variable {f : File} {page pos : Nat}

theorem abootimgDetectFile_reads (junk : Nat → Byte) (admitted : page ∈ abootimgPageSizes) {offset : Nat}
    {bytes : List Byte} (reads : f.Reads offset bytes) (small : bytes.length < 2 ^ 31)
    (near : offset + alignedLength bytes.length page < 2 ^ 32) (stream : List Byte) :
    abootimgDetectFile junk ⟨f, 0, pos⟩ page ⟨offset, stream⟩ bytes.length =
      ⟨offset + alignedLength bytes.length page, stream ++ (bytes ++ leBytes 4 bytes.length)⟩ := by
  have aligned := alignedLength32_eq admitted small
  have wrap : (offset + alignedLength bytes.length page) % 2 ^ 32 = offset + alignedLength bytes.length page :=
    Nat.mod_eq_of_lt near
  unfold abootimgDetectFile
  simp only [aligned, wrap]
  by_cases positive : 0 < bytes.length
  · have seek := Fd.fileseek_pos (⟨f, 0, pos⟩ : Fd) offset (by simp only; omega)
    have source : ddStream ((some (⟨f, 0, pos⟩ : Fd)).map (·.fileseek offset)) bytes.length = bytes := by
      rw [Option.map_some, ddStream, Fd.fileseek_file, seek, Nat.zero_add]
      exact reads
    have scanned := (dd64_scan abootimgUpdateSha1sum_piecewise junk (some ⟨f, 0, pos⟩) none offset 0
      bytes.length stream (by simp) (by rw [source])).2.2
    rw [if_pos positive, scanned, source, abootimgUpdateSha1sum, List.append_assoc]
  · have empty := List.length_eq_zero_iff.mp (Nat.eq_zero_of_not_pos positive)
    rw [if_neg positive, empty, List.nil_append]

theorem abootimgDetectLoop_reads (junk : Nat → Byte) (admitted : page ∈ abootimgPageSizes)
    {contents : List (List Byte)} {offset : Nat} (stream : List Byte)
    (reads : ∀ piece ∈ placed (fun len => alignedLength len page) offset contents, f.Reads piece.1 piece.2)
    (small : ∀ bytes ∈ contents, bytes.length < 2 ^ 31)
    (near : placedEnd (fun len => alignedLength len page) offset contents < 2 ^ 32) :
    (contents.map List.length).foldl (abootimgDetectFile junk ⟨f, 0, pos⟩ page) ⟨offset, stream⟩ =
      ⟨placedEnd (fun len => alignedLength len page) offset contents, stream ++ hashInput contents⟩ := by
  induction contents generalizing offset stream with
  | nil => rw [hashInput, List.flatMap_nil, List.append_nil, placedEnd, List.map_nil, List.foldl_nil]
  | cons bytes rest ih =>
    rw [placedEnd] at near
    have reach := placedEnd_ge (fun len => alignedLength len page) (offset + alignedLength bytes.length page) rest
    have step := @abootimgDetectFile_reads f page pos junk admitted offset bytes
      (reads (offset, bytes) List.mem_cons_self) (small bytes List.mem_cons_self)
      (by omega) stream
    rw [List.map_cons, List.foldl_cons, step, placedEnd]
    rw [ih _ (fun piece member => reads piece (List.mem_cons_of_mem _ member))
      (fun other member => small other (List.mem_cons_of_mem _ member)) near]
    rw [hashInput, hashInput, List.flatMap_cons, List.append_assoc]

theorem abootimgFileSizes_active (head : AndrImgHdr) (version : head.headerVersion ≤ 2) :
    (abootimgFileSizes head).take (3 + head.headerVersion) =
      (activeFiles head.headerVersion abootimgFiles).map fun afile => leField head afile.hdrSizeOffset 4 := by
  generalize head.headerVersion = v at version
  have versions : v = 0 ∨ v = 1 ∨ v = 2 := by omega
  rcases versions with rfl | rfl | rfl <;> rfl

end Hash

theorem readHeader_reads {f : File} {header : AndrImgHdr} (reads : f.Reads 0 header)
    (length : header.length = sizeofAndrImgHdr) :
    setField (List.replicate sizeofAndrImgHdr 0#8) 0 ((⟨f, 0, 0⟩ : Fd).read sizeofAndrImgHdr).1 = header := by
  have bytes : ((⟨f, 0, 0⟩ : Fd).read sizeofAndrImgHdr).1 = header := by
    rw [Fd.read_bytes _ _ (by decide), ← length]
    exact reads
  rw [bytes, setField, List.take_zero, List.nil_append, Nat.zero_add, length, List.drop_of_length_le (by simp),
    List.append_nil]

theorem abootimgDetect_header {sha1 : List Byte → List Byte} {junk : Nat → Byte} {f : File} {header : AndrImgHdr}
    (reads : f.Reads 0 header) (length : header.length = sizeofAndrImgHdr) (magic : header.magic = ANDR_BOOT_MAGIC)
    (version : header.headerVersion ≤ 2) (page : header.pageSize ∈ abootimgPageSizes)
    (id : sha1 (abootimgDetectHash junk ⟨f, 0, 0⟩ header).stream = header.id.take 20) :
    abootimgDetect sha1 junk ⟨f, 0, 0⟩ = some ⟨header, (abootimgDetectHash junk ⟨f, 0, 0⟩ header).offset⟩ := by
  unfold abootimgDetect
  simp only [readHeader_reads reads length]
  rw [if_neg (not_not.mpr magic), if_neg (Nat.not_lt.mpr version), if_neg (not_not.mpr page), if_neg (not_not.mpr id)]

section Image

variable {J : Type} {api : CJson J} {sha1 : List Byte → List Byte} {junk : Nat → Byte} {files : J}
  {dir : AbootimgDir J} {hdr : AndrImgHdr} {image : File} {content : AbootimgFile → List Byte}

theorem AbootimgImage.detect (packed : AbootimgImage sha1 content hdr image)
    (digest : ∀ stream, (sha1 stream).length = 20) (length : hdr.length = sizeofAndrImgHdr)
    (admitted : hdr.pageSize ∈ abootimgPageSizes) (version : hdr.headerVersion ≤ 2)
    (near : placedEnd (fun len => alignedLength len hdr.pageSize) hdr.pageSize
      ((activeFiles hdr.headerVersion abootimgFiles).map content) < 2 ^ 32) :
    ∃ p, abootimgDetect sha1 junk ⟨image, 0, 0⟩ = some p ∧
      abootimgDetectHash junk ⟨image, 0, 0⟩ p.head =
        ⟨p.totalSize, hashInput ((activeFiles hdr.headerVersion abootimgFiles).map content)⟩ ∧
      p.totalSize = placedEnd (fun len => alignedLength len hdr.pageSize) hdr.pageSize
        ((activeFiles hdr.headerVersion abootimgFiles).map content) := by
  have header := @packedHeader_packed sha1 content digest hdr length
  have reads := packed.header
  generalize setFields hdr (packedFields sha1 (activeFiles hdr.headerVersion abootimgFiles) content) = head
    at header reads
  have sizes : (abootimgFileSizes head).take (3 + AndrImgHdr.headerVersion head) =
      ((activeFiles hdr.headerVersion abootimgFiles).map content).map List.length := by
    rw [abootimgFileSizes_active head (by rw [header.headerVersion]; exact version), header.headerVersion, List.map_map]
    apply List.map_congr_left
    intro afile member
    exact header.sizes afile member (packed.small afile member)
  have hash : abootimgDetectHash junk ⟨image, 0, 0⟩ head =
      ⟨placedEnd (fun len => alignedLength len hdr.pageSize) hdr.pageSize
        ((activeFiles hdr.headerVersion abootimgFiles).map content),
        hashInput ((activeFiles hdr.headerVersion abootimgFiles).map content)⟩ := by
    rw [abootimgDetectHash, sizes, header.pageSize]
    have looped := @abootimgDetectLoop_reads image _ 0 junk admitted _ _ [] packed.components (by
      intro bytes member
      obtain ⟨afile, active, rfl⟩ := List.mem_map.mp member
      exact packed.small afile active) near
    rw [looped, List.nil_append]
  refine ⟨⟨head, placedEnd (fun len => alignedLength len hdr.pageSize) hdr.pageSize
    ((activeFiles hdr.headerVersion abootimgFiles).map content)⟩, ?_, hash, rfl⟩
  have detected := @abootimgDetect_header sha1 junk image head reads header.length header.magic
    (by rw [header.headerVersion]; exact version) (by rw [header.pageSize]; exact admitted)
    (by rw [hash, header.id])
  rw [detected, hash]

def listedContent (api : CJson J) (files : J) (dir : AbootimgDir J) (afile : AbootimgFile) : List Byte :=
  (listedFile api files dir afile).elim [] File.content

theorem packedContent_eq {afile : AbootimgFile} (small : (listedContent api files dir afile).length < 2 ^ 31) :
    packedContent api files dir afile = listedContent api files dir afile := by
  rw [listedContent] at small
  rw [packedContent, listedContent]
  cases found : listedFile api files dir afile with
  | none => rw [Option.elim_none, Option.elim_none]
  | some file =>
    rw [found, Option.elim_some, File.content, File.slice_length] at small
    have whole : (toInt32 file.size).toNat = file.size := by rw [toInt32_of_lt small, Int.toNat_natCast]
    rw [Option.elim_some, Option.elim_some, whole, File.content]

theorem placedEnd_aligned_le {page offset : Nat} {contents : List (List Byte)} (admitted : page ∈ abootimgPageSizes) :
    placedEnd (fun len => alignedLength len page) offset contents ≤
      offset + (contents.map List.length).sum + contents.length * page := by
  induction contents generalizing offset with
  | nil => simp [placedEnd]
  | cons bytes rest ih =>
    have bounds := (@alignedLength_bounds bytes.length page admitted).2
    have tail := @ih (offset + alignedLength bytes.length page)
    rw [placedEnd, List.map_cons, List.sum_cons, List.length_cons, Nat.succ_mul]
    omega

end Image

/-- What `abootimg_do_pack` writes is detected: both sides hash the same stream, over the same components at
the same offsets, and agree on where the last one ends. -/
theorem abootimgDoPack_detected {J : Type} (api : CJson J) (sha1 : List Byte → List Byte)
    (digest : ∀ stream, (sha1 stream).length = 20) (junk junk' : Nat → Byte) (files : J) (dir : AbootimgDir J)
    (hdr : AndrImgHdr) (length : hdr.length = sizeofAndrImgHdr) (page : hdr.pageSize ∈ abootimgPageSizes)
    (version : hdr.headerVersion ≤ 2)
    (total : ((activeFiles hdr.headerVersion abootimgFiles).map
      fun afile => (listedContent api files dir afile).length).sum < 2 ^ 31)
    (fdOutimg out : Fd) (plain : fdOutimg.start = 0)
    (packed : abootimgDoPack api sha1 junk hdr files dir fdOutimg = some out) :
    ∃ done p,
      abootimgPackLoop api junk files dir abootimgFiles ⟨hdr, fdOutimg, [], 0, hdr.pageSize⟩ = some done ∧
      abootimgDetect sha1 junk' ⟨out.file, 0, 0⟩ = some p ∧
      (abootimgDetectHash junk' ⟨out.file, 0, 0⟩ p.head).stream = done.stream ∧
      done.stream = hashInput ((activeFiles hdr.headerVersion abootimgFiles).map (listedContent api files dir)) ∧
      (∀ piece ∈ placed (fun len => alignedLength len hdr.pageSize) hdr.pageSize
        ((activeFiles hdr.headerVersion abootimgFiles).map (listedContent api files dir)),
        out.file.Reads piece.1 piece.2) ∧
      p.totalSize = placedEnd (fun len => alignedLength len hdr.pageSize) hdr.pageSize
        ((activeFiles hdr.headerVersion abootimgFiles).map (listedContent api files dir)) := by
  have contents : (activeFiles hdr.headerVersion abootimgFiles).map (packedContent api files dir) =
      (activeFiles hdr.headerVersion abootimgFiles).map (listedContent api files dir) := by
    apply List.map_congr_left
    intro afile member
    have part : (listedContent api files dir afile).length ≤ ((activeFiles hdr.headerVersion abootimgFiles).map
        fun afile => (listedContent api files dir afile).length).sum :=
      List.single_le_sum (fun _ _ => Nat.zero_le _) _ (List.mem_map.mpr ⟨afile, member, rfl⟩)
    exact packedContent_eq (by omega)
  obtain ⟨image, _⟩ := abootimgDoPack_image digest length page plain packed
  obtain ⟨done, loop, _⟩ := Option.map_eq_some_iff.mp packed
  have pages : hdr.pageSize ≤ 16384 := by
    simp only [abootimgPageSizes, List.mem_cons, List.not_mem_nil, or_false] at page
    omega
  obtain ⟨ran, _⟩ := abootimgPackLoop_packed (fun _ member => member) length page plain
    (by
      rw [show abootimgFiles.length = 5 from rfl]
      simp only
      omega) loop
  have stream := ran.stream
  rw [List.nil_append] at stream
  simp only at stream
  have near : placedEnd (fun len => alignedLength len hdr.pageSize) hdr.pageSize
      ((activeFiles hdr.headerVersion abootimgFiles).map (packedContent api files dir)) < 2 ^ 32 := by
    have reach := @placedEnd_aligned_le hdr.pageSize hdr.pageSize
      ((activeFiles hdr.headerVersion abootimgFiles).map (packedContent api files dir)) page
    have count := (activeFiles_sublist hdr.headerVersion abootimgFiles).length_le
    have few : (activeFiles hdr.headerVersion abootimgFiles).length * hdr.pageSize ≤ 5 * 16384 :=
      Nat.mul_le_mul count pages
    rw [List.length_map] at reach
    rw [contents] at reach ⊢
    rw [List.map_map] at reach
    have same : (List.length ∘ listedContent api files dir) =
        fun afile => (listedContent api files dir afile).length := rfl
    rw [same] at reach
    omega
  obtain ⟨p, detected, hash, finish⟩ := @AbootimgImage.detect sha1 junk' hdr out.file _ image digest length page version near
  have components := image.components
  rw [contents] at stream components finish hash
  exact ⟨done, p, loop, detected, by rw [hash, stream], stream, components, finish⟩

def plainHeader : AndrImgHdr := setField (List.replicate sizeofAndrImgHdr 0#8) 36 (leBytes 4 2048)

def letterDir : AbootimgDir CJsonTree where
  json := none
  file name := if name = cstr "kernel.bin" then some (File.ofBytes [65#8]) else none

def kernelList : CJsonTree := cjsonTreeStrings.createStringArray [cstr "kernel.bin"]

def letterSha1 (_ : List Byte) : List Byte :=
  [206#8, 28, 10, 123, 223, 206, 11, 153, 249, 115, 46, 190, 101, 94, 155, 87, 182, 102, 31, 254]

theorem abootimgDoPack_detected_letter : ∃ out done p,
    abootimgDoPack cjsonTree letterSha1 (fun _ => 0#8) plainHeader kernelList letterDir Fd.created = some out ∧
    abootimgPackLoop cjsonTree (fun _ => 0#8) kernelList letterDir abootimgFiles
      ⟨plainHeader, Fd.created, [], 0, plainHeader.pageSize⟩ = some done ∧
    abootimgDetect letterSha1 (fun _ => 0#8) ⟨out.file, 0, 0⟩ = some p ∧
    (abootimgDetectHash (fun _ => 0#8) ⟨out.file, 0, 0⟩ p.head).stream = done.stream := by
  have packs : (abootimgDoPack cjsonTree letterSha1 (fun _ => 0#8) plainHeader kernelList letterDir
      Fd.created).isSome := by decide +kernel
  obtain ⟨out, packed⟩ := Option.isSome_iff_exists.mp packs
  obtain ⟨done, p, loop, detected, stream, _⟩ := abootimgDoPack_detected cjsonTree letterSha1 (fun _ => rfl)
    (fun _ => 0#8) (fun _ => 0#8) kernelList letterDir plainHeader (by decide +kernel) (by decide +kernel)
    (by decide +kernel) (by decide +kernel) Fd.created out rfl packed
  exact ⟨out, done, p, packed, loop, detected, stream⟩

end ImgEditor
