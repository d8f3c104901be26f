import ImgEditor.Android.BootimgPack

namespace ImgEditor

open Storage CText

def componentOffsets (room : Nat → Nat) (head : AndrImgHdr) :
    Nat → List AbootimgFile → List (AbootimgFile × Nat)
  | _, [] => []
  | offset, afile :: rest =>
    (afile, offset) :: componentOffsets room head (offset + room (leField head afile.hdrSizeOffset 4)) rest

/-- The components of an image, each on a page boundary. -/
def componentsOf (head : AndrImgHdr) : List (AbootimgFile × Nat) :=
  componentOffsets (fun len => alignedLength len head.pageSize) head head.pageSize
    (activeFiles head.headerVersion abootimgFiles)

/-- The image holds the whole file as this component. -/
def Embedded (image : File) (afile : AbootimgFile) (file : File) : Prop :=
  let head : AndrImgHdr := image.slice 0 sizeofAndrImgHdr
  leField head afile.hdrSizeOffset 4 = file.size ∧
    ∃ offset, (afile, offset) ∈ componentsOf head ∧ image.Reads offset file.content

theorem componentOffsets_placed {room : Nat → Nat} {head : AndrImgHdr} {content : AbootimgFile → List Byte}
    {afiles : List AbootimgFile} {offset : Nat}
    (sizes : ∀ afile ∈ afiles, leField head afile.hdrSizeOffset 4 = (content afile).length) :
    (componentOffsets room head offset afiles).map (fun component => (component.2, content component.1)) =
      placed room offset (afiles.map content) := by
  induction afiles generalizing offset with
  | nil => rfl
  | cons afile rest ih =>
    have here := sizes afile List.mem_cons_self
    rw [componentOffsets, List.map_cons, List.map_cons, placed, ← here,
      ih fun other member => sizes other (List.mem_cons_of_mem _ member)]

theorem componentOffsets_files (room : Nat → Nat) (head : AndrImgHdr) (offset : Nat) (afiles : List AbootimgFile) :
    (componentOffsets room head offset afiles).map Prod.fst = afiles := by
  induction afiles generalizing offset with
  | nil => rfl
  | cons afile rest ih => rw [componentOffsets, List.map_cons, ih]

theorem mem_activeFiles {version : Nat} {afile : AbootimgFile} (member : afile ∈ activeFiles version abootimgFiles) :
    afile.minVersion ≤ version := by
  simpa using List.mem_takeWhile_imp member

/-- The table is ordered by version, so that only newer files are cut off. -/
theorem activeFiles_mem {version : Nat} {afile : AbootimgFile} (member : afile ∈ abootimgFiles)
    (exists_ : afile.minVersion ≤ version) : afile ∈ activeFiles version abootimgFiles := by
  have versions : version = 0 ∨ version = 1 ∨ 2 ≤ version := by omega
  simp only [abootimgFiles, List.mem_cons, List.not_mem_nil, or_false] at member
  have active : activeFiles version abootimgFiles =
      if version = 0 then abootimgFiles.take 3 else if version = 1 then abootimgFiles.take 4 else abootimgFiles := by
    rcases versions with rfl | rfl | later
    · rfl
    · rfl
    · have one : 1 ≤ version := by omega
      rw [if_neg (by omega), if_neg (by omega)]
      simp [activeFiles, abootimgFiles, List.takeWhile, one, later]
  rw [active]
  rcases versions with rfl | rfl | later
  · rcases member with rfl | rfl | rfl | rfl | rfl
    all_goals first | decide | (simp at exists_)
  · rcases member with rfl | rfl | rfl | rfl | rfl
    all_goals first | decide | (simp at exists_)
  · rw [if_neg (by omega), if_neg (by omega)]
    rcases member with rfl | rfl | rfl | rfl | rfl <;> decide

section Image

variable {J : Type} {api : CJson J} {sha1 : List Byte → List Byte} {junk : Nat → Byte} {files : J}
  {dir : AbootimgDir J} {hdr : AndrImgHdr} {image : File}

theorem AbootimgImage.head {content : AbootimgFile → List Byte} (packed : AbootimgImage sha1 content hdr image)
    (digest : ∀ stream, (sha1 stream).length = 20) (length : hdr.length = sizeofAndrImgHdr) :
    PackedHeader sha1 content hdr (image.slice 0 sizeofAndrImgHdr) := by
  have header := @packedHeader_packed sha1 content digest hdr length
  have stored := packed.header.slice
  rw [header.length] at stored
  rw [stored]
  exact header

theorem AbootimgImage.embedded (packed : AbootimgImage sha1 (packedContent api files dir) hdr image)
    (digest : ∀ stream, (sha1 stream).length = 20) (length : hdr.length = sizeofAndrImgHdr)
    {afile : AbootimgFile} (active : afile ∈ activeFiles hdr.headerVersion abootimgFiles) {file : File}
    (found : listedFile api files dir afile = some file) :
    Embedded image afile file ↔ file.size < 2 ^ 31 := by
  have head := packed.head digest length
  have content : packedContent api files dir afile = file.slice 0 (toInt32 file.size).toNat := by
    rw [packedContent, found, Option.elim_some]
  have small := packed.small afile active
  have size := head.sizes afile active small
  rw [content, File.slice_length] at size small
  unfold Embedded componentsOf
  simp only [size, head.headerVersion, head.pageSize]
  constructor
  · rintro ⟨whole, _⟩
    omega
  · intro fits
    have whole : (toInt32 file.size).toNat = file.size := by rw [toInt32_of_lt fits, Int.toNat_natCast]
    rw [whole] at content
    refine ⟨whole, ?_⟩
    have files' := componentOffsets_files (fun len => alignedLength len hdr.pageSize)
      (image.slice 0 sizeofAndrImgHdr) hdr.pageSize (activeFiles hdr.headerVersion abootimgFiles)
    rw [← files'] at active
    obtain ⟨⟨same, offset⟩, member, rfl⟩ := List.mem_map.mp active
    refine ⟨offset, member, ?_⟩
    have pieces := @componentOffsets_placed (fun len => alignedLength len hdr.pageSize)
      (image.slice 0 sizeofAndrImgHdr) (packedContent api files dir) _ hdr.pageSize
      fun afile active => head.sizes afile active (packed.small afile active)
    have piece : (offset, packedContent api files dir same) ∈
        (componentOffsets (fun len => alignedLength len hdr.pageSize) (image.slice 0 sizeofAndrImgHdr) hdr.pageSize
          (activeFiles hdr.headerVersion abootimgFiles)).map
          fun component => (component.2, packedContent api files dir component.1) :=
      List.mem_map.mpr ⟨_, member, rfl⟩
    rw [pieces] at piece
    have stored := packed.components _ piece
    simp only at content
    rw [content] at stored
    exact stored

theorem LookedUp.found {afile : AbootimgFile} (looked : LookedUp api files dir afile)
    (listed : Listed api files (cstr afile.name)) :
    ∃ file, dir.file (cstr afile.name) = some file ∧ listedFile api files dir afile = some file := by
  obtain ⟨known, opened⟩ := looked
  cases search : jsonStringArraySearch api files (cstr afile.name) with
  | none => exact absurd search known
  | some found =>
    obtain rfl := (jsonStringArraySearch_listed search).mpr listed
    obtain ⟨file, exists_, _⟩ := opened search
    exact ⟨file, exists_, by rw [listedFile, if_pos search, exists_]⟩

theorem Embedded.active {afile : AbootimgFile} {file : File} (embedded : Embedded image afile file) :
    afile ∈ activeFiles (AndrImgHdr.headerVersion (image.slice 0 sizeofAndrImgHdr)) abootimgFiles := by
  obtain ⟨_, offset, member, _⟩ := embedded
  rw [componentsOf] at member
  rw [← componentOffsets_files (fun len => alignedLength len (AndrImgHdr.pageSize (image.slice 0 sizeofAndrImgHdr)))
    (image.slice 0 sizeofAndrImgHdr) (AndrImgHdr.pageSize (image.slice 0 sizeofAndrImgHdr))
    (activeFiles _ abootimgFiles)]
  exact List.mem_map.mpr ⟨_, member, rfl⟩

theorem abootimgCheckVersion_listed {head : AndrImgHdr} (checked : abootimgCheckVersion api files head = some ()) :
    (Listed api files (cstr "recovery_dtbo.bin") → 1 ≤ head.headerVersion) ∧
      (Listed api files (cstr "dtb.bin") →
        2 ≤ head.headerVersion ∨ Listed api files (cstr "recovery_dtbo.bin")) := by
  unfold abootimgCheckVersion at checked
  obtain ⟨recovery, search, checked⟩ := Option.bind_eq_some_iff.mp checked
  have recoveryListed := jsonStringArraySearch_listed search
  cases recovery with
  | true =>
    rw [if_pos rfl] at checked
    split at checked
    · exact absurd checked (by simp)
    · exact ⟨fun _ => by omega, fun _ => .inr (recoveryListed.mp rfl)⟩
  | false =>
    rw [if_neg (by simp)] at checked
    obtain ⟨dtb, search, checked⟩ := Option.bind_eq_some_iff.mp checked
    have dtbListed := jsonStringArraySearch_listed search
    refine ⟨fun listed => absurd (recoveryListed.mpr listed) (by simp), fun listed => ?_⟩
    obtain rfl := dtbListed.mpr listed
    rw [if_pos rfl] at checked
    split at checked
    · exact absurd checked (by simp)
    · exact .inl (by omega)

end Image

section Pack

variable {J : Type} {api : CJson J} {sha1 : List Byte → List Byte} {junk : Nat → Byte} {root files : J}
  {dir : AbootimgDir J} {head : AndrImgHdr}

theorem zeroHeader_version : AndrImgHdr.headerVersion (List.replicate sizeofAndrImgHdr 0#8) = 0 := by
  simp [AndrImgHdr.headerVersion, leField]

theorem structureAndrHdr_fits : ∀ item ∈ structureAndrHdr, item.Fits sizeofAndrImgHdr := by decide

theorem fixAndrHdrStructure_fits (version : Nat) :
    ∀ item ∈ fixAndrHdrStructure structureAndrHdr version, item.Fits sizeofAndrImgHdr := by
  have dropped : ∀ offset, ∀ item ∈ dropItems structureAndrHdr offset, item.Fits sizeofAndrImgHdr := by
    intro offset item member
    obtain ⟨kept, known, rfl⟩ := List.mem_map.mp member
    have fits := structureAndrHdr_fits kept known
    split
    · exact fits
    · exact ⟨fits.inside, fits.size⟩
  match version with
  | 0 => exact dropped 1632
  | 1 => exact dropped 1648
  | _ + 2 => exact structureAndrHdr_fits

theorem abootimgLoadHeader_length (loaded : abootimgLoadHeader api root = some head) :
    head.length = sizeofAndrImgHdr := by
  have fits := fixAndrHdrStructure_fits (AndrImgHdr.headerVersion (List.replicate sizeofAndrImgHdr 0#8))
  have length := structureLoadJson_length (by
    rw [List.length_replicate]
    exact fun item member _ => fits item member) loaded
  rw [length, List.length_replicate]

structure HeaderErased (head erased : AndrImgHdr) : Prop where
  length : erased.length = sizeofAndrImgHdr
  pageSize : erased.pageSize = head.pageSize
  headerVersion : erased.headerVersion = head.headerVersion
  version : head.headerVersion ≤ 2

theorem andrHdrEraseFrom_erased {offset : Nat} (length : head.length = sizeofAndrImgHdr)
    (behind : 44 ≤ offset) (inside : offset ≤ sizeofAndrImgHdr) (version : head.headerVersion ≤ 2) :
    HeaderErased head (andrHdrEraseFrom head offset) := by
  have fits : offset + (List.replicate (sizeofAndrImgHdr - offset) 0#8).length ≤ head.length := by
    rw [List.length_replicate, length]
    omega
  constructor
  · rw [andrHdrEraseFrom, setField_length fits, length]
  · rw [AndrImgHdr.pageSize, leField_eq, andrHdrEraseFrom, field_setField_apart fits (.inl (by omega)),
      AndrImgHdr.pageSize, leField_eq]
  · rw [AndrImgHdr.headerVersion, leField_eq, andrHdrEraseFrom, field_setField_apart fits (.inl (by omega)),
      AndrImgHdr.headerVersion, leField_eq]
  · exact version

theorem abootimgEraseHeader_erased {erased : AndrImgHdr} (length : head.length = sizeofAndrImgHdr)
    (ran : abootimgEraseHeader head = some erased) : HeaderErased head erased := by
  unfold abootimgEraseHeader at ran
  split at ran
  · rename_i version
    obtain rfl := Option.some.inj ran
    exact andrHdrEraseFrom_erased length (by omega) (by decide) (by omega)
  · rename_i version
    obtain rfl := Option.some.inj ran
    exact andrHdrEraseFrom_erased length (by omega) (by decide) (by omega)
  · rename_i version
    obtain rfl := Option.some.inj ran
    exact ⟨length, rfl, rfl, by omega⟩
  · exact absurd ran (by simp)

theorem abootimgPack_steps {fdOutimg out : Fd} (json : dir.json = some root)
    (array : api.getObjectItem root (cstr "files") = some files) (loaded : abootimgLoadHeader api root = some head)
    (packed : abootimgPack api sha1 junk dir fdOutimg = some out) :
    ∃ erased, abootimgEraseHeader head = some erased ∧ HeaderErased head erased ∧
      head.pageSize ∈ abootimgPageSizes ∧ abootimgCheckVersion api files erased = some () ∧
      abootimgDoPack api sha1 junk erased files dir fdOutimg = some out := by
  unfold abootimgPack at packed
  simp only [json, array, loaded, Option.bind_eq_bind, Option.bind_some] at packed
  split at packed
  · exact absurd packed (by simp)
  · split at packed
    · exact absurd packed (by simp)
    · rename_i page
      obtain ⟨erased, erase, packed⟩ := Option.bind_eq_some_iff.mp packed
      obtain ⟨_, checked, packed⟩ := Option.bind_eq_some_iff.mp packed
      exact ⟨erased, erase, abootimgEraseHeader_erased (abootimgLoadHeader_length loaded) erase, not_not.mp page,
        checked, packed⟩

end Pack

/-- A packing that is accepted embeds every listed component with its full contents exactly when it is not a
version 1 header with both recovery_dtbo.bin and dtb.bin listed, where the check for dtb.bin is skipped, and no
listed file has a size that does not fit in an `int`. -/
theorem abootimgPack_listed_exact {J : Type} (api : CJson J) (sha1 : List Byte → List Byte)
    (digest : ∀ stream, (sha1 stream).length = 20) (junk : Nat → Byte) (dir : AbootimgDir J) (root files : J)
    (head : AndrImgHdr) (fdOutimg out : Fd) (plain : fdOutimg.start = 0) (json : dir.json = some root)
    (array : api.getObjectItem root (cstr "files") = some files) (loaded : abootimgLoadHeader api root = some head)
    (packed : abootimgPack api sha1 junk dir fdOutimg = some out) :
    (∀ afile ∈ abootimgFiles, Listed api files (cstr afile.name) →
      ∃ file, dir.file (cstr afile.name) = some file ∧ Embedded out.file afile file) ↔
    ¬ (head.headerVersion = 1 ∧ Listed api files (cstr "recovery_dtbo.bin") ∧ Listed api files (cstr "dtb.bin")) ∧
      ∀ afile ∈ abootimgFiles, Listed api files (cstr afile.name) →
        ∀ file, dir.file (cstr afile.name) = some file → file.size < 2 ^ 31 := by
  obtain ⟨erased, _, same, page, checked, doPacked⟩ := abootimgPack_steps json array loaded packed
  rw [← same.pageSize] at page
  obtain ⟨image, looked⟩ := abootimgDoPack_image digest same.length page plain doPacked
  have version := (image.head digest same.length).headerVersion
  obtain ⟨recovery, dtb⟩ := abootimgCheckVersion_listed checked
  rw [same.headerVersion] at version recovery dtb
  constructor
  · intro embedded
    constructor
    · rintro ⟨one, _, listed⟩
      obtain ⟨file, _, held⟩ := embedded ⟨2, "dtb.bin", 1648⟩ (by decide) listed
      have newer := mem_activeFiles held.active
      rw [version, one] at newer
      exact absurd newer (by decide)
    · intro afile member listed file exists_
      obtain ⟨other, otherExists, held⟩ := embedded afile member listed
      obtain rfl := Option.some.inj (exists_.symm.trans otherExists)
      have active := held.active
      rw [version, ← same.headerVersion] at active
      obtain ⟨found, foundExists, taken⟩ := (looked afile active).found listed
      obtain rfl := Option.some.inj (exists_.symm.trans foundExists)
      exact (image.embedded digest same.length active taken).mp held
  · rintro ⟨both, small⟩ afile member listed
    have exists_ : afile.minVersion ≤ head.headerVersion := by
      simp only [abootimgFiles, List.mem_cons, List.not_mem_nil, or_false] at member
      rcases member with rfl | rfl | rfl | rfl | rfl
      · exact Nat.zero_le _
      · exact Nat.zero_le _
      · exact Nat.zero_le _
      · exact recovery listed
      · rcases dtb listed with newer | recoveryListed
        · exact newer
        · by_contra older
          have one := recovery recoveryListed
          simp only at older
          exact both ⟨by omega, recoveryListed, listed⟩
    have active := activeFiles_mem member exists_
    rw [← same.headerVersion] at active
    obtain ⟨file, found, taken⟩ := (looked afile active).found listed
    exact ⟨file, found, (image.embedded digest same.length active taken).mpr (small afile member listed file found)⟩

def versionJson (version : String) (files : List String) : CJsonTree :=
  .mk none false
    ([("kernel_addr", "0x0"), ("ramdisk_addr", "0x0"), ("second_addr", "0x0"), ("tags_addr", "0x0"),
      ("page_size", "2048"), ("header_version", version), ("os_version", "0x0"), ("name", ""), ("cmdline", ""),
      ("extra_cmdline", "")].map (fun item => (cstr item.1, .mk (some (cstr item.2)) false [])) ++
      [(cstr "files", cjsonTreeStrings.createStringArray (files.map cstr))])

def versionDir (version : String) (files : List String) : AbootimgDir CJsonTree where
  json := some (versionJson version files)
  file _ := some (File.ofBytes [65#8])

/-- SHA-1 of the hashed stream of `versionDir "0x0" ["kernel.bin"]`. -/
def kernelSha1 (_ : List Byte) : List Byte :=
  [206#8, 28, 10, 123, 223, 206, 11, 153, 249, 115, 46, 190, 101, 94, 155, 87, 182, 102, 31, 254]

theorem abootimgPack_listed_exact_kernel : ∃ out,
    abootimgPack cjsonTree kernelSha1 (fun _ => 0#8) (versionDir "0x0" ["kernel.bin"]) Fd.created = some out ∧
    ∀ afile ∈ abootimgFiles, Listed cjsonTree (cjsonTreeStrings.createStringArray [cstr "kernel.bin"])
        (cstr afile.name) →
      ∃ file, (versionDir "0x0" ["kernel.bin"]).file (cstr afile.name) = some file ∧ Embedded out.file afile file := by
  have packs : (abootimgPack cjsonTree kernelSha1 (fun _ => 0#8) (versionDir "0x0" ["kernel.bin"])
      Fd.created).isSome := by decide +kernel
  have loads : ((abootimgLoadHeader cjsonTree (versionJson "0x0" ["kernel.bin"])).map
      AndrImgHdr.headerVersion) = some 0 := by decide +kernel
  obtain ⟨out, packed⟩ := Option.isSome_iff_exists.mp packs
  obtain ⟨head, loaded, version⟩ := Option.map_eq_some_iff.mp loads
  refine ⟨out, packed, ?_⟩
  apply (abootimgPack_listed_exact cjsonTree kernelSha1 (fun _ => rfl) (fun _ => 0#8)
    (versionDir "0x0" ["kernel.bin"]) _ (cjsonTreeStrings.createStringArray [cstr "kernel.bin"]) head Fd.created out
    rfl rfl rfl loaded packed).mpr
  constructor
  · rintro ⟨one, _⟩
    omega
  · intro _ _ _ file exists_
    obtain rfl := Option.some.inj exists_
    decide

/-- SHA-1 of the hashed stream of `versionDir "0x1" ["recovery_dtbo.bin", "dtb.bin"]`. -/
def recoverySha1 (_ : List Byte) : List Byte :=
  [126#8, 112, 132, 52, 240, 62, 15, 79, 195, 227, 249, 179, 99, 52, 199, 217, 53, 127, 56, 193]

/-- A version 1 header with both files listed is packed, without the dtb. -/
theorem abootimgPack_drops_dtb : ∃ out,
    abootimgPack cjsonTree recoverySha1 (fun _ => 0#8) (versionDir "0x1" ["recovery_dtbo.bin", "dtb.bin"])
      Fd.created = some out ∧
    Listed cjsonTree (cjsonTreeStrings.createStringArray [cstr "recovery_dtbo.bin", cstr "dtb.bin"]) (cstr "dtb.bin") ∧
    ∀ file, ¬ Embedded out.file ⟨2, "dtb.bin", 1648⟩ file := by
  have packs : (abootimgPack cjsonTree recoverySha1 (fun _ => 0#8)
      (versionDir "0x1" ["recovery_dtbo.bin", "dtb.bin"]) Fd.created).isSome := by decide +kernel
  have loads : ((abootimgLoadHeader cjsonTree (versionJson "0x1" ["recovery_dtbo.bin", "dtb.bin"])).map
      AndrImgHdr.headerVersion) = some 1 := by decide +kernel
  obtain ⟨out, packed⟩ := Option.isSome_iff_exists.mp packs
  obtain ⟨head, loaded, version⟩ := Option.map_eq_some_iff.mp loads
  refine ⟨out, packed, ⟨_, List.mem_cons_of_mem _ List.mem_cons_self, rfl⟩, ?_⟩
  intro file embedded
  obtain ⟨erased, _, same, page, _, doPacked⟩ := abootimgPack_steps rfl rfl loaded packed
  rw [← same.pageSize] at page
  obtain ⟨image, _⟩ := abootimgDoPack_image (fun _ => rfl) same.length page rfl doPacked
  have newer := mem_activeFiles embedded.active
  rw [(image.head (fun _ => rfl) same.length).headerVersion, same.headerVersion, version] at newer
  exact absurd newer (by decide)

end ImgEditor
