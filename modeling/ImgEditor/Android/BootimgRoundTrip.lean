import ImgEditor.Android.BootimgDetect
import ImgEditor.Android.BootimgHeader

namespace ImgEditor

open Storage CText

section Unpack

variable {J : Type} {junk : Nat → Byte} {f : File} {head : AndrImgHdr}

theorem abootimgUnpackSaveFile_eq (dir : AbootimgDir J) (name : CString) {pos offset sz : Nat} (some_ : sz ≠ 0)
    (near : offset < 2 ^ 63) :
    abootimgUnpackSaveFile junk ⟨f, 0, pos⟩ dir name offset sz =
      if offset + sz ≤ f.size then some (dir.writeFile name (File.ofBytes (f.slice offset sz))) else none := by
  have seek := Fd.fileseek_pos (⟨f, 0, pos⟩ : Fd) offset (by simp only; omega)
  have source : ddStream ((some (⟨f, 0, pos⟩ : Fd)).map (·.fileseek offset)) sz = f.readAt offset sz := by
    rw [Option.map_some, ddStream, Fd.fileseek_file, seek, Nat.zero_add]
  have copied := dd64_copy junk (some ⟨f, 0, pos⟩) (some Fd.created) offset 0 sz () (by simp)
  rw [source] at copied
  obtain ⟨_, dst, count, _⟩ := copied
  rw [File.readAt_length] at count
  have target : ((Fd.created.fileseek 0).write (f.readAt offset sz)).file = File.ofBytes (f.readAt offset sz) := by
    rw [Fd.write_file, Fd.fileseek_file, Fd.fileseek_pos _ _ (show (0 + 0 : Nat) < 2 ^ 63 by decide)]
    exact Fd.created_writeAt _
  unfold abootimgUnpackSaveFile
  simp only [some_, ne_eq, not_false_eq_true, ↓reduceIte, count, dst, Option.map_some, Option.getD_some, target]
  by_cases inside : offset + sz ≤ f.size
  · rw [if_neg (by omega), if_pos inside, File.readAt_full f offset sz inside]
  · rw [if_pos (by omega), if_neg inside]

theorem alignedLength32_zero {page : Nat} (admitted : page ∈ abootimgPageSizes) : alignedLength32 0 page = 0 := by
  simp only [abootimgPageSizes, List.mem_cons, List.not_mem_nil, or_false] at admitted
  rcases admitted with rfl | rfl | rfl | rfl <;> decide

theorem alignedLength32_lt (len page : Nat) : alignedLength32 len page < 2 ^ 32 := by
  unfold alignedLength32
  have whole := Nat.div_mul_le_self ((len + page - 1) % 2 ^ 32) page
  have bound := Nat.mod_lt (len + page - 1) (show 2 ^ 32 > 0 by decide)
  omega

abbrev componentSize (head : AndrImgHdr) (afile : AbootimgFile) : Nat := leField head afile.hdrSizeOffset 4

def unpackOffsets (head : AndrImgHdr) (offset : Nat) (afiles : List AbootimgFile) : List (AbootimgFile × Nat) :=
  componentOffsets (fun len => alignedLength32 len head.pageSize) head offset
    (activeFiles head.headerVersion afiles)

def Complete (f : File) (head : AndrImgHdr) (components : List (AbootimgFile × Nat)) : Prop :=
  ∀ component ∈ components,
    componentSize head component.1 = 0 ∨ component.2 + componentSize head component.1 ≤ f.size

/-- What the loop of `abootimg_unpack` has done: it listed and wrote every component that is not empty. -/
structure LoopUnpacked (f : File) (head : AndrImgHdr) (afiles : List AbootimgFile) (st done : AbootimgUnpack J) :
    Prop where
  complete : Complete f head (unpackOffsets head st.offset afiles)
  listed : done.filelists = st.filelists ++
    ((activeFiles head.headerVersion afiles).filter fun afile => decide (componentSize head afile ≠ 0)).map
      fun afile => cstr afile.name
  stored : ∀ component ∈ unpackOffsets head st.offset afiles, componentSize head component.1 ≠ 0 →
    done.dir.file (cstr component.1.name) =
      some (File.ofBytes (f.slice component.2 (componentSize head component.1)))
  others : ∀ name, (∀ afile ∈ afiles, cstr afile.name ≠ name) → done.dir.file name = st.dir.file name

theorem LoopUnpacked.stop {afile : AbootimgFile} {rest : List AbootimgFile} {st : AbootimgUnpack J}
    (later : afile.minVersion > head.headerVersion) : LoopUnpacked f head (afile :: rest) st st := by
  have none : activeFiles head.headerVersion (afile :: rest) = [] := by
    rw [activeFiles, List.takeWhile_cons_of_neg (by simpa using later)]
  constructor
  · rw [unpackOffsets, none]
    exact fun _ member => absurd member List.not_mem_nil
  · rw [none, List.filter_nil, List.map_nil, List.append_nil]
  · rw [unpackOffsets, none]
    exact fun _ member => absurd member List.not_mem_nil
  · exact fun _ _ => rfl

theorem activeFiles_cons {version : Nat} {afile : AbootimgFile} (exists_ : afile.minVersion ≤ version)
    (rest : List AbootimgFile) : activeFiles version (afile :: rest) = afile :: activeFiles version rest := by
  rw [activeFiles, List.takeWhile_cons_of_pos (by simpa using exists_), activeFiles]

theorem LoopUnpacked.cons {afile : AbootimgFile} {rest : List AbootimgFile} {st next done : AbootimgUnpack J}
    (exists_ : afile.minVersion ≤ head.headerVersion)
    (distinct : ∀ other ∈ rest, cstr other.name ≠ cstr afile.name)
    (offset : next.offset = st.offset + alignedLength32 (componentSize head afile) head.pageSize)
    (inside : componentSize head afile = 0 ∨ st.offset + componentSize head afile ≤ f.size)
    (lists : next.filelists = st.filelists ++ if componentSize head afile ≠ 0 then [cstr afile.name] else [])
    (dir : next.dir = if componentSize head afile ≠ 0 then
      st.dir.writeFile (cstr afile.name) (File.ofBytes (f.slice st.offset (componentSize head afile))) else st.dir)
    (tail : LoopUnpacked f head rest next done) : LoopUnpacked f head (afile :: rest) st done := by
  have components : unpackOffsets head st.offset (afile :: rest) =
      (afile, st.offset) :: unpackOffsets head next.offset rest := by
    rw [unpackOffsets, activeFiles_cons exists_, componentOffsets, offset, unpackOffsets]
  constructor
  · rw [components]
    intro component member
    rcases List.mem_cons.mp member with rfl | later
    · exact inside
    · exact tail.complete component later
  · rw [tail.listed, lists, activeFiles_cons exists_, List.append_assoc]
    congr 1
    by_cases empty : componentSize head afile = 0
    · simp [empty]
    · simp [empty]
  · rw [components]
    intro component member positive
    rcases List.mem_cons.mp member with rfl | later
    · rw [tail.others _ distinct, dir, if_pos positive]
      simp [AbootimgDir.writeFile]
    · exact tail.stored component later positive
  · intro name apart
    rw [tail.others name fun other member => apart other (List.mem_cons_of_mem _ member), dir]
    split
    · have other := apart afile List.mem_cons_self
      simp [AbootimgDir.writeFile, other.symm]
    · rfl

variable {pos : Nat}

theorem abootimgUnpackLoop_unpacked {afiles : List AbootimgFile} {st : AbootimgUnpack J}
    (admitted : head.pageSize ∈ abootimgPageSizes)
    (distinct : afiles.Pairwise fun a b => cstr b.name ≠ cstr a.name)
    (near : st.offset + afiles.length * 2 ^ 32 < 2 ^ 63) :
    (∀ done, abootimgUnpackLoop junk ⟨f, 0, pos⟩ head afiles st = some done → LoopUnpacked f head afiles st done) ∧
      (Complete f head (unpackOffsets head st.offset afiles) →
        ∃ done, abootimgUnpackLoop junk ⟨f, 0, pos⟩ head afiles st = some done) := by
  induction afiles generalizing st with
  | nil =>
    refine ⟨fun done ran => ?_, fun _ => ⟨st, rfl⟩⟩
    obtain rfl := Option.some.inj ran
    constructor
    · exact fun _ member => absurd member List.not_mem_nil
    · exact (List.append_nil _).symm
    · exact fun _ member => absurd member List.not_mem_nil
    · exact fun _ _ => rfl
  | cons afile rest ih =>
    obtain ⟨apart, restApart⟩ := List.pairwise_cons.mp distinct
    rw [List.length_cons] at near
    have fewer : st.offset + rest.length * 2 ^ 32 < 2 ^ 63 := by
      rw [Nat.succ_mul] at near
      exact Nat.lt_of_le_of_lt (by omega) near
    unfold abootimgUnpackLoop
    by_cases later : afile.minVersion > head.headerVersion
    · rw [if_pos later]
      refine ⟨fun done ran => ?_, fun _ => ⟨st, rfl⟩⟩
      obtain rfl := Option.some.inj ran
      exact .stop later
    · have exists_ : afile.minVersion ≤ head.headerVersion := Nat.le_of_not_lt later
      rw [if_neg later]
      by_cases empty : componentSize head afile = 0
      · -- an empty component leaves the offset where it is
        have room : st.offset = st.offset + alignedLength32 (componentSize head afile) head.pageSize := by
          rw [empty, alignedLength32_zero admitted, Nat.add_zero]
        rw [if_pos empty]
        obtain ⟨sound, total⟩ := @ih st restApart fewer
        refine ⟨fun done ran => ?_, fun complete => ?_⟩
        · exact .cons exists_ apart room (.inl empty) (by simp [empty]) (by simp [empty]) (sound done ran)
        · apply total
          intro component member
          apply complete component
          rw [unpackOffsets, activeFiles_cons exists_, componentOffsets, ← room]
          exact List.mem_cons_of_mem _ member
      · rw [if_neg empty, abootimgUnpackSaveFile_eq st.dir (cstr afile.name) empty (by omega)]
        have small := alignedLength32_lt (componentSize head afile) head.pageSize
        obtain ⟨sound, total⟩ := @ih ⟨st.offset + alignedLength32 (componentSize head afile) head.pageSize,
          st.dir.writeFile (cstr afile.name) (File.ofBytes (f.slice st.offset (componentSize head afile))),
          st.filelists ++ [cstr afile.name]⟩ restApart (by dsimp only; omega)
        refine ⟨fun done ran => ?_, fun complete => ?_⟩
        · split at ran
          · rename_i inside
            exact .cons exists_ apart rfl (.inr inside) (by simp [empty]) (by simp [empty]) (sound done ran)
          · exact absurd ran (by simp)
        · have here := complete (afile, st.offset) (by
            rw [unpackOffsets, activeFiles_cons exists_, componentOffsets]
            exact List.mem_cons_self)
          rw [if_pos (here.resolve_left empty)]
          apply total
          intro component member
          apply complete component
          rw [unpackOffsets, activeFiles_cons exists_, componentOffsets]
          exact List.mem_cons_of_mem _ member

end Unpack

section Directory

variable {J : Type} {api : CJsonStrings J} {children : J → List (CString × J)} {elements : J → List J}
  {sha1 : List Byte → List Byte} {junk : Nat → Byte} {f : File} {p : AbootimgEditorPrivateData} {head : AndrImgHdr}
  {outdir dir : AbootimgDir J}

theorem searchStrings_some (s : CString) (strings : List CString) :
    searchStrings s (strings.map some) = some (decide (s ∈ strings)) := by
  induction strings with
  | nil => simp [searchStrings]
  | cons value rest ih =>
    rw [List.map_cons, searchStrings, ih]
    by_cases same : s = value
    · simp [same]
    · simp [same]

theorem abootimgFiles_distinct : abootimgFiles.Pairwise fun a b => cstr b.name ≠ cstr a.name := by decide

theorem abootimgFiles_name : ∀ a ∈ abootimgFiles, ∀ b ∈ abootimgFiles, cstr a.name = cstr b.name → a = b := by decide

/-- A directory that `abootimg_unpack` wrote, for `abootimg_pack`. -/
structure Unpacked (api : CJsonStrings J) (f : File) (head : AndrImgHdr) (dir : AbootimgDir J) (root files : J) :
    Prop where
  json : dir.json = some root
  array : api.getObjectItem root (cstr "files") = some files
  isArray : api.isArray files = true
  loaded : abootimgLoadHeader api.toCJson root = some (loadedHeader head)
  search : ∀ afile ∈ abootimgFiles, jsonStringArraySearch api.toCJson files (cstr afile.name) =
    some (decide (afile ∈ activeFiles head.headerVersion abootimgFiles ∧ componentSize head afile ≠ 0))
  stored : ∀ component ∈ unpackOffsets head head.pageSize abootimgFiles, componentSize head component.1 ≠ 0 →
    dir.file (cstr component.1.name) = some (File.ofBytes (f.slice component.2 (componentSize head component.1)))

theorem abootimgUnpack_unpacked (laws : api.Lawful children elements) (length : p.head.length = sizeofAndrImgHdr)
    (admitted : p.head.pageSize ∈ abootimgPageSizes) :
    (∀ dir, abootimgUnpack api junk p ⟨f, 0, 0⟩ outdir = some dir →
      Complete f p.head (unpackOffsets p.head p.head.pageSize abootimgFiles) ∧
        ∃ root files, Unpacked api f p.head dir root files) ∧
      (Complete f p.head (unpackOffsets p.head p.head.pageSize abootimgFiles) →
        ∃ dir, abootimgUnpack api junk p ⟨f, 0, 0⟩ outdir = some dir) := by
  have pages : p.head.pageSize ≤ 16384 := by
    simp only [abootimgPageSizes, List.mem_cons, List.not_mem_nil, or_false] at admitted
    omega
  obtain ⟨sound, total⟩ := @abootimgUnpackLoop_unpacked J junk f p.head 0 abootimgFiles
    ⟨p.head.pageSize, outdir, []⟩ admitted abootimgFiles_distinct (by
      rw [show abootimgFiles.length = 5 from rfl]
      dsimp only
      omega)
  unfold abootimgUnpack
  refine ⟨fun dir ran => ?_, fun complete => ?_⟩
  · obtain ⟨done, loop, ran⟩ := Option.bind_eq_some_iff.mp ran
    obtain rfl := Option.some.inj ran
    have unpacked := sound done loop
    refine ⟨unpacked.complete, ?_⟩
    have strings : (arrayForEach api.toCJson (api.createStringArray done.filelists)).map api.getStringValue =
        done.filelists.map some := by
      rw [arrayForEach_eq laws.toLawful]
      exact laws.strings_elements _
    obtain ⟨array, loaded⟩ := abootimgLoadHeader_saved laws.toLawful length (api.createStringArray done.filelists)
    refine ⟨_, _, rfl, array, laws.strings_array _, loaded, ?_, unpacked.stored⟩
    intro afile known
    rw [jsonStringArraySearch, strings, searchStrings_some, unpacked.listed, List.nil_append]
    congr 1
    apply decide_eq_decide.mpr
    rw [List.mem_map]
    constructor
    · rintro ⟨other, kept, same⟩
      obtain ⟨active, positive⟩ := List.mem_filter.mp kept
      obtain rfl := abootimgFiles_name other ((activeFiles_sublist _ _).subset active) afile known same
      exact ⟨active, by simpa using positive⟩
    · rintro ⟨active, positive⟩
      exact ⟨afile, List.mem_filter.mpr ⟨active, by simpa using positive⟩, rfl⟩
  · obtain ⟨done, loop⟩ := total complete
    rw [loop]
    exact ⟨_, rfl⟩

def componentBytes (f : File) (head : AndrImgHdr) : List (List Byte) :=
  (componentsOf head).map fun component => f.slice component.2 (componentSize head component.1)

def ComponentsSmall (head : AndrImgHdr) : Prop :=
  ∀ afile ∈ activeFiles head.headerVersion abootimgFiles, componentSize head afile < 2 ^ 31

theorem componentOffsets_congr {room room' : Nat → Nat} {afiles : List AbootimgFile} (offset : Nat)
    (same : ∀ afile ∈ afiles, room (componentSize head afile) = room' (componentSize head afile)) :
    componentOffsets room head offset afiles = componentOffsets room' head offset afiles := by
  induction afiles generalizing offset with
  | nil => rfl
  | cons afile rest ih =>
    rw [componentOffsets, componentOffsets, same afile List.mem_cons_self,
      ih _ fun other member => same other (List.mem_cons_of_mem _ member)]

theorem unpackOffsets_small (admitted : head.pageSize ∈ abootimgPageSizes) (small : ComponentsSmall head) :
    unpackOffsets head head.pageSize abootimgFiles = componentsOf head :=
  componentOffsets_congr _ fun afile active => alignedLength32_eq admitted (small afile active)

theorem Unpacked.listedFile {root files : J} (unpacked : Unpacked api f head dir root files)
    {component : AbootimgFile × Nat} (member : component ∈ unpackOffsets head head.pageSize abootimgFiles)
    (known : component.1 ∈ activeFiles head.headerVersion abootimgFiles) :
    ImgEditor.listedFile api.toCJson files dir component.1 =
      if componentSize head component.1 ≠ 0 then
        some (File.ofBytes (f.slice component.2 (componentSize head component.1)))
      else none := by
  rw [ImgEditor.listedFile, unpacked.search _ ((activeFiles_sublist _ _).subset known)]
  by_cases positive : componentSize head component.1 ≠ 0
  · rw [if_pos (by simp [known, positive]), if_pos positive, unpacked.stored component member positive]
  · rw [if_neg (by simp [positive]), if_neg positive]

theorem mem_componentOffsets {room : Nat → Nat} {offset : Nat} {afiles : List AbootimgFile}
    {component : AbootimgFile × Nat} (member : component ∈ componentOffsets room head offset afiles) :
    component.1 ∈ afiles := by
  rw [← componentOffsets_files room head offset afiles]
  exact List.mem_map.mpr ⟨component, member, rfl⟩

theorem Unpacked.packedContent {root files : J} (unpacked : Unpacked api f head dir root files)
    (admitted : head.pageSize ∈ abootimgPageSizes) (small : ComponentsSmall head)
    {component : AbootimgFile × Nat} (member : component ∈ componentsOf head) :
    ImgEditor.packedContent api.toCJson files dir component.1 =
      f.slice component.2 (componentSize head component.1) := by
  have active : component.1 ∈ activeFiles head.headerVersion abootimgFiles := mem_componentOffsets member
  rw [← unpackOffsets_small admitted small] at member
  rw [ImgEditor.packedContent, unpacked.listedFile member active]
  by_cases positive : componentSize head component.1 ≠ 0
  · have whole : (toInt32 (File.ofBytes (f.slice component.2 (componentSize head component.1))).size).toNat =
        (f.slice component.2 (componentSize head component.1)).length := by
      rw [File.ofBytes_size, File.slice_length, toInt32_of_lt (small _ active), Int.toNat_natCast]
    rw [if_pos positive, Option.elim_some, whole]
    exact File.ofBytes_content _
  · rw [if_neg positive, Option.elim_none, not_not.mp positive, File.slice_zero]

theorem exists_offset {afile : AbootimgFile} (room : Nat → Nat) (offset : Nat) {afiles : List AbootimgFile}
    (member : afile ∈ afiles) : ∃ place, (afile, place) ∈ componentOffsets room head offset afiles := by
  rw [← componentOffsets_files room head offset afiles] at member
  obtain ⟨⟨_, place⟩, inside, rfl⟩ := List.mem_map.mp member
  exact ⟨place, inside⟩

theorem Unpacked.file {root files : J} (unpacked : Unpacked api f head dir root files) {afile : AbootimgFile}
    (active : afile ∈ activeFiles head.headerVersion abootimgFiles) (positive : componentSize head afile ≠ 0) :
    ∃ file, dir.file (cstr afile.name) = some file ∧ file.size = componentSize head afile := by
  obtain ⟨place, member⟩ := exists_offset (fun len => alignedLength32 len head.pageSize) head.pageSize active
  have stored := unpacked.stored (afile, place) member positive
  exact ⟨_, stored, by rw [File.ofBytes_size, File.slice_length]⟩

theorem Unpacked.lookedUp {root files : J} (unpacked : Unpacked api f head dir root files)
    (small : ComponentsSmall head) :
    ∀ afile ∈ activeFiles head.headerVersion abootimgFiles, LookedUp api.toCJson files dir afile := by
  intro afile active
  have search := unpacked.search afile ((activeFiles_sublist _ _).subset active)
  constructor
  · rw [search]
    exact Option.some_ne_none _
  · intro found
    rw [search, Option.some.injEq, decide_eq_true_eq] at found
    obtain ⟨file, exists_, size⟩ := unpacked.file active found.2
    refine ⟨file, exists_, ?_⟩
    rw [size, toInt32_of_lt (small afile active)]
    exact Int.natCast_nonneg _

theorem toInt32_nonneg {n : Nat} (word : n < 2 ^ 32) (positive : 0 ≤ toInt32 n) : n < 2 ^ 31 := by
  unfold toInt32 at positive
  rw [Int.bmod_def] at positive
  omega

theorem Unpacked.small {root files : J} (unpacked : Unpacked api f head dir root files)
    (looked : ∀ afile ∈ activeFiles head.headerVersion abootimgFiles, LookedUp api.toCJson files dir afile) :
    ComponentsSmall head := by
  intro afile active
  by_cases positive : componentSize head afile = 0
  · rw [positive]
    decide
  · have search := unpacked.search afile ((activeFiles_sublist _ _).subset active)
    obtain ⟨file, exists_, size⟩ := unpacked.file active positive
    obtain ⟨other, otherExists, length⟩ := (looked afile active).2 (by rw [search]; simp [active, positive])
    obtain rfl := Option.some.inj (exists_.symm.trans otherExists)
    rw [size] at length
    exact toInt32_nonneg (leField_lt head afile.hdrSizeOffset 4) length

theorem Unpacked.check {root files : J} (unpacked : Unpacked api f head dir root files) {erased : AndrImgHdr}
    (version : erased.headerVersion = head.headerVersion) :
    abootimgCheckVersion api.toCJson files erased = some () := by
  have recovery := unpacked.search ⟨1, "recovery_dtbo.bin", 1632⟩ (by decide)
  have dtb := unpacked.search ⟨2, "dtb.bin", 1648⟩ (by decide)
  simp only at recovery dtb
  rw [abootimgCheckVersion, recovery, Option.bind_eq_bind, Option.bind_some, version]
  split
  · rename_i listed
    have active := mem_activeFiles (of_decide_eq_true listed).1
    simp only at active
    rw [if_neg (by omega)]
  · rw [dtb, Option.bind_some]
    split
    · rename_i listed
      have active := mem_activeFiles (of_decide_eq_true listed).1
      simp only at active
      rw [if_neg (by omega)]
    · rfl

theorem Unpacked.pack {root files : J} (unpacked : Unpacked api f head dir root files)
    (digest : ∀ stream, (sha1 stream).length = 20) (length : head.length = sizeofAndrImgHdr)
    (magic : head.magic = ANDR_BOOT_MAGIC) (version : head.headerVersion ≤ 2)
    (admitted : head.pageSize ∈ abootimgPageSizes) (small : ComponentsSmall head) :
    ∃ out erased, abootimgPack api.toCJson sha1 junk dir Fd.created = some out ∧
      erased.pageSize = head.pageSize ∧
      AbootimgImage sha1 (ImgEditor.packedContent api.toCJson files dir) erased out.file ∧
      Repacked head erased (ImgEditor.packedContent api.toCJson files dir) := by
  have loadedLength := loadedHeader_length length
  have loadedVersion := loadedHeader_version length
  have loadedPage := loadedHeader_pageSize length
  obtain ⟨erased, erase, kept⟩ := abootimgEraseHeader_kept loadedLength (by rw [loadedVersion]; exact version)
  have same := abootimgEraseHeader_erased loadedLength erase
  have erasedVersion := same.headerVersion.trans loadedVersion
  have erasedPage := same.pageSize.trans loadedPage
  have looked := unpacked.lookedUp small
  rw [← erasedVersion] at looked
  have pages : erased.pageSize ≤ 16384 := by
    rw [erasedPage]
    simp only [abootimgPageSizes, List.mem_cons, List.not_mem_nil, or_false] at admitted
    omega
  obtain ⟨done, loop⟩ := @abootimgPackLoop_succeeds J api.toCJson junk files dir abootimgFiles
    ⟨erased, Fd.created, [], 0, erased.pageSize⟩ (fun _ known => known) same.length
    (by rw [← erasedPage] at admitted; exact admitted) rfl (by
      rw [show abootimgFiles.length = 5 from rfl]
      dsimp only
      omega) looked
  have doPacked : abootimgDoPack api.toCJson sha1 junk erased files dir Fd.created =
      some (abootimgPackFinish sha1 done) := by
    rw [abootimgDoPack, loop, Option.map_some]
  have image := (abootimgDoPack_image digest same.length (by rw [erasedPage]; exact admitted) rfl doPacked).1
  refine ⟨abootimgPackFinish sha1 done, erased, ?_, erasedPage, image, length, magic, erasedVersion, same.length, ?_, ?_⟩
  · unfold abootimgPack
    simp only [unpacked.json, unpacked.array, unpacked.isArray, unpacked.loaded, Option.bind_eq_bind,
      Option.bind_some, not_true_eq_false, if_false]
    rw [if_neg (by rw [loadedPage]; exact not_not.mpr admitted), erase, Option.bind_some,
      unpacked.check erasedVersion, Option.bind_some, doPacked]
  · rw [loadedVersion] at kept
    exact kept
  · intro afile active
    obtain ⟨place, member⟩ := exists_offset (fun len => alignedLength len head.pageSize) head.pageSize active
    rw [unpacked.packedContent admitted small member, File.slice_length]

theorem Unpacked.contents {root files : J} (unpacked : Unpacked api f head dir root files)
    (admitted : head.pageSize ∈ abootimgPageSizes) (small : ComponentsSmall head) :
    (activeFiles head.headerVersion abootimgFiles).map (ImgEditor.packedContent api.toCJson files dir) =
      componentBytes f head := by
  have names : (componentsOf head).map Prod.fst = activeFiles head.headerVersion abootimgFiles :=
    componentOffsets_files _ _ _ _
  rw [← names, List.map_map, componentBytes]
  apply List.map_congr_left
  intro component member
  exact unpacked.packedContent admitted small member

theorem Unpacked.placed {root files : J} (unpacked : Unpacked api f head dir root files)
    (admitted : head.pageSize ∈ abootimgPageSizes) (small : ComponentsSmall head) {erased : AndrImgHdr} {image : File}
    (page : erased.pageSize = head.pageSize)
    (repacked : Repacked head erased (ImgEditor.packedContent api.toCJson files dir))
    (packed : AbootimgImage sha1 (ImgEditor.packedContent api.toCJson files dir) erased image)
    {component : AbootimgFile × Nat} (member : component ∈ componentsOf head) :
    image.readAt component.2 (componentSize head component.1) =
      f.slice component.2 (componentSize head component.1) := by
  have pieces := @componentOffsets_placed (fun len => alignedLength len head.pageSize) head
    (ImgEditor.packedContent api.toCJson files dir) _ head.pageSize fun afile active => (repacked.sizes afile active).symm
  have piece : (component.2, ImgEditor.packedContent api.toCJson files dir component.1) ∈
      (componentsOf head).map fun component =>
        (component.2, ImgEditor.packedContent api.toCJson files dir component.1) :=
    List.mem_map.mpr ⟨component, member, rfl⟩
  rw [componentsOf, pieces] at piece
  have components := packed.components
  rw [page, repacked.version] at components
  have reads := components _ piece
  rw [File.Reads, unpacked.packedContent admitted small member, File.slice_length] at reads
  exact reads

end Directory

/-- The images that survive: complete components below 2 GiB, an id that is their digest followed by zeros, and
zeros in the fields that `abootimg_pack` does not load. -/
structure Repackable (sha1 : List Byte → List Byte) (f : File) (head : AndrImgHdr) : Prop where
  small : ComponentsSmall head
  complete : Complete f head (componentsOf head)
  id : head.id = sha1 (hashInput (componentBytes f head)) ++ List.replicate 12 0#8
  unloaded : UnloadedZero head

theorem abootimgDetect_head {sha1 : List Byte → List Byte} {junk : Nat → Byte} {f : File}
    {p : AbootimgEditorPrivateData} (detected : abootimgDetect sha1 junk ⟨f, 0, 0⟩ = some p) :
    p.head.length = sizeofAndrImgHdr ∧ p.head.magic = ANDR_BOOT_MAGIC ∧ p.head.headerVersion ≤ 2 ∧
      p.head.pageSize ∈ abootimgPageSizes := by
  unfold abootimgDetect at detected
  dsimp only at detected
  split at detected
  · exact absurd detected (by simp)
  split at detected
  · exact absurd detected (by simp)
  split at detected
  · exact absurd detected (by simp)
  split at detected
  · exact absurd detected (by simp)
  rename_i magic version page _
  obtain rfl := Option.some.inj detected
  refine ⟨?_, not_not.mp magic, Nat.le_of_not_lt version, not_not.mp page⟩
  dsimp only
  rw [setField_length, List.length_replicate]
  rw [Fd.read_bytes _ _ (by decide), File.readAt_length, List.length_replicate]
  omega

theorem AbootimgImage.header_eq {sha1 : List Byte → List Byte} {content : AbootimgFile → List Byte}
    {erased : AndrImgHdr} {image : File} (digest : ∀ stream, (sha1 stream).length = 20)
    (length : erased.length = sizeofAndrImgHdr) (packed : AbootimgImage sha1 content erased image) :
    image.slice 0 sizeofAndrImgHdr = repackedHeader sha1 content erased := by
  have stored := packed.header.slice
  rwa [(@packedHeader_packed sha1 content digest erased length).length] at stored

section RoundTrip

variable {J : Type} {api : CJsonStrings J} {children : J → List (CString × J)} {elements : J → List J}
  {sha1 : List Byte → List Byte} {junk junk' : Nat → Byte} {f : File} {p : AbootimgEditorPrivateData}
  {outdir dir : AbootimgDir J}

theorem Repackable.of_sameHeader (laws : api.Lawful children elements) (digest : ∀ stream, (sha1 stream).length = 20)
    (detected : abootimgDetect sha1 junk ⟨f, 0, 0⟩ = some p) (terminated : Terminated p.head) {out : Fd}
    (unpacked : abootimgUnpack api junk' p ⟨f, 0, 0⟩ outdir = some dir)
    (packed : abootimgPack api.toCJson sha1 junk' dir Fd.created = some out)
    (same : SameHeader p.head (out.file.slice 0 sizeofAndrImgHdr)) : Repackable sha1 f p.head := by
  obtain ⟨length, magic, version, admitted⟩ := abootimgDetect_head detected
  obtain ⟨complete, root, files, directory⟩ := (abootimgUnpack_unpacked laws length admitted).1 dir unpacked
  obtain ⟨erased, erase, found, page, _, doPacked⟩ :=
    abootimgPack_steps directory.json directory.array directory.loaded packed
  obtain ⟨_, looked⟩ := abootimgDoPack_image digest found.length (by rw [found.pageSize]; exact page) rfl doPacked
  rw [found.headerVersion, loadedHeader_version length] at looked
  have small := directory.small looked
  obtain ⟨other, erased, repack, _, image, repacked⟩ :=
    @Unpacked.pack J api sha1 junk' f p.head dir root files directory digest length magic version admitted small
  obtain rfl := Option.some.inj (packed.symm.trans repack)
  rw [image.header_eq digest repacked.erasedLength, repacked.same_iff digest terminated,
    directory.contents admitted small] at same
  rw [unpackOffsets_small admitted small] at complete
  exact ⟨small, complete, same.1, same.2⟩

theorem Repackable.roundTrip (laws : api.Lawful children elements) (digest : ∀ stream, (sha1 stream).length = 20)
    (detected : abootimgDetect sha1 junk ⟨f, 0, 0⟩ = some p) (terminated : Terminated p.head)
    (repackable : Repackable sha1 f p.head) :
    ∃ dir out, abootimgUnpack api junk' p ⟨f, 0, 0⟩ outdir = some dir ∧
      abootimgPack api.toCJson sha1 junk' dir Fd.created = some out ∧
      SameHeader p.head (out.file.slice 0 sizeofAndrImgHdr) ∧
      ∀ component ∈ componentsOf p.head,
        out.file.readAt component.2 (componentSize p.head component.1) =
          f.readAt component.2 (componentSize p.head component.1) := by
  obtain ⟨length, magic, version, admitted⟩ := abootimgDetect_head detected
  obtain ⟨sound, total⟩ := @abootimgUnpack_unpacked J api children elements junk' f p outdir laws length admitted
  obtain ⟨dir, unpacked⟩ := total (by
    rw [unpackOffsets_small admitted repackable.small]
    exact repackable.complete)
  obtain ⟨_, root, files, directory⟩ := sound dir unpacked
  obtain ⟨out, erased, repack, page, image, repacked⟩ :=
    @Unpacked.pack J api sha1 junk' f p.head dir root files directory digest length magic version admitted
      repackable.small
  refine ⟨dir, out, unpacked, repack, ?_, ?_⟩
  · rw [image.header_eq digest repacked.erasedLength, repacked.same_iff digest terminated,
      directory.contents admitted repackable.small]
    exact ⟨repackable.id, repackable.unloaded⟩
  · intro component member
    rw [directory.placed admitted repackable.small page repacked image member]
    rcases repackable.complete component member with empty | inside
    · rw [empty, File.slice_zero, File.readAt, Nat.zero_min, File.slice_zero]
    · exact (f.readAt_full _ _ inside).symm

end RoundTrip

def emptyImage (version headerSize : Nat) (digest : List Byte) : AndrImgHdr :=
  setFields (List.replicate sizeofAndrImgHdr 0#8)
    [(0, ANDR_BOOT_MAGIC), (36, leBytes 4 2048), (40, leBytes 4 version), (576, digest), (1644, leBytes 4 headerSize)]

instance (head : AndrImgHdr) : Decidable (Terminated head) :=
  inferInstanceAs (Decidable (∀ item ∈ structureAndrHdr, _))

/-- SHA-1 of the sizes of three empty components. -/
def emptySha1 (_ : List Byte) : List Byte :=
  [44#8, 81, 63, 20, 158, 115, 126, 196, 6, 63, 193, 211, 122, 238, 155, 234, 188, 75, 75, 191]

theorem emptyImage_repackable : Repackable emptySha1 (File.ofBytes (emptyImage 0 0 (emptySha1 [])))
    (emptyImage 0 0 (emptySha1 [])) where
  small := by
    unfold ComponentsSmall
    decide +kernel
  complete := by
    unfold Complete
    decide +kernel
  id := by decide +kernel
  unloaded := by
    unfold UnloadedZero
    decide +kernel

theorem emptyImage_detected : ∃ total,
    abootimgDetect emptySha1 (fun _ => 0#8) ⟨File.ofBytes (emptyImage 0 0 (emptySha1 [])), 0, 0⟩ =
      some ⟨emptyImage 0 0 (emptySha1 []), total⟩ := by
  have id : ∀ stream, emptySha1 stream = (AndrImgHdr.id (emptyImage 0 0 (emptySha1 []))).take 20 := by
    intro stream
    show emptySha1 [] = _
    decide +kernel
  exact ⟨_, abootimgDetect_header (ofBytes_reads _) (by decide +kernel) (by decide +kernel) (by decide +kernel)
    (by decide +kernel) (id _)⟩

/-- SHA-1 of the sizes of four empty components. -/
def emptySha1V1 (_ : List Byte) : List Byte :=
  [225#8, 41, 242, 124, 81, 3, 188, 92, 196, 75, 205, 240, 161, 94, 22, 13, 68, 80, 102, 255]

theorem emptyImageV1_detected : ∃ total,
    abootimgDetect emptySha1V1 (fun _ => 0#8) ⟨File.ofBytes (emptyImage 1 1648 (emptySha1V1 [])), 0, 0⟩ =
      some ⟨emptyImage 1 1648 (emptySha1V1 []), total⟩ := by
  have id : ∀ stream, emptySha1V1 stream = (AndrImgHdr.id (emptyImage 1 1648 (emptySha1V1 []))).take 20 := by
    intro stream
    show emptySha1V1 [] = _
    decide +kernel
  exact ⟨_, abootimgDetect_header (ofBytes_reads _) (by decide +kernel) (by decide +kernel) (by decide +kernel)
    (by decide +kernel) (id _)⟩

end ImgEditor
