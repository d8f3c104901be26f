import ImgEditor.Android.Bootimg
import ImgEditor.Storage.Placement

namespace ImgEditor

open Storage CText

theorem abootimgUpdateSha1sum_piecewise : Piecewise abootimgUpdateSha1sum where
  keeps _ _ := rfl
  empty ctx := by rw [abootimgUpdateSha1sum, List.append_nil]
  append left right ctx _ := by simp only [abootimgUpdateSha1sum, List.append_assoc]

theorem alignedLength32_eq {len page : Nat} (admitted : page ∈ abootimgPageSizes) (small : len < 2 ^ 31) :
    alignedLength32 len page = alignedLength len page := by
  have positive : page ≤ 16384 := by
    simp only [abootimgPageSizes, List.mem_cons, List.not_mem_nil, or_false] at admitted
    omega
  rw [alignedLength32, alignedLength, Nat.mod_eq_of_lt (by omega)]

theorem alignedLength_bounds {len page : Nat} (admitted : page ∈ abootimgPageSizes) :
    len ≤ alignedLength len page ∧ alignedLength len page < len + page := by
  simp only [abootimgPageSizes, List.mem_cons, List.not_mem_nil, or_false] at admitted
  rw [alignedLength]
  rcases admitted with rfl | rfl | rfl | rfl <;> omega

/-- The stream that is hashed for components: their bytes, each with its size behind it. -/
def hashInput (contents : List (List Byte)) : List Byte := contents.flatMap fun bytes => bytes ++ leBytes 4 bytes.length

section Component

variable {J : Type} (api : CJson J) (files : J) (dir : AbootimgDir J)

def Listed (s : CString) : Prop := ∃ json ∈ arrayForEach api files, api.getStringValue json = some s

def listedFile (afile : AbootimgFile) : Option File :=
  if jsonStringArraySearch api files (cstr afile.name) = some true then dir.file (cstr afile.name) else none

/-- What `abootimg_do_pack` takes of a listed file, whose length it keeps in an `int`. -/
def packedContent (afile : AbootimgFile) : List Byte :=
  (listedFile api files dir afile).elim [] fun file => file.slice 0 (toInt32 file.size).toNat

def activeFiles (version : Nat) (afiles : List AbootimgFile) : List AbootimgFile :=
  afiles.takeWhile fun afile => decide (afile.minVersion ≤ version)

end Component

theorem searchStrings_eq {s : CString} {values : List (Option CString)} {found : Bool}
    (searched : searchStrings s values = some found) : found = true ↔ some s ∈ values := by
  induction values with
  | nil =>
    obtain rfl := Option.some.inj searched
    simp
  | cons value rest ih =>
    cases value with
    | none => simp [searchStrings] at searched
    | some value =>
      rw [searchStrings] at searched
      split at searched
      · rename_i same
        obtain rfl := Option.some.inj searched
        simp [same]
      · rename_i other
        rw [ih searched, List.mem_cons, Option.some.injEq, or_iff_right other]

theorem jsonStringArraySearch_listed {J : Type} {api : CJson J} {files : J} {s : CString} {found : Bool}
    (searched : jsonStringArraySearch api files s = some found) : found = true ↔ Listed api files s := by
  rw [searchStrings_eq searched, List.mem_map, Listed]

theorem abootimgFiles_apart : ∀ afile ∈ abootimgFiles,
    afile.hdrSizeOffset + 4 ≤ 36 ∨ 44 ≤ afile.hdrSizeOffset ∧ afile.hdrSizeOffset + 4 ≤ sizeofAndrImgHdr := by
  decide

section Loop

variable {J : Type} {api : CJson J} {junk : Nat → Byte} {files : J} {dir : AbootimgDir J}

theorem setField_pageSize {hdr : AndrImgHdr} {afile : AbootimgFile} (known : afile ∈ abootimgFiles)
    (length : hdr.length = sizeofAndrImgHdr) (n : Nat) :
    AndrImgHdr.pageSize (setField hdr afile.hdrSizeOffset (leBytes 4 n)) = hdr.pageSize := by
  have apart := abootimgFiles_apart afile known
  rw [AndrImgHdr.pageSize, leField_eq, field_setField_apart, AndrImgHdr.pageSize, leField_eq]
  · rw [leBytes_length, length]
    simp only [sizeofAndrImgHdr] at apart ⊢
    omega
  · rw [leBytes_length]
    omega

theorem setField_headerVersion {hdr : AndrImgHdr} {afile : AbootimgFile} (known : afile ∈ abootimgFiles)
    (length : hdr.length = sizeofAndrImgHdr) (n : Nat) :
    AndrImgHdr.headerVersion (setField hdr afile.hdrSizeOffset (leBytes 4 n)) = hdr.headerVersion := by
  have apart := abootimgFiles_apart afile known
  rw [AndrImgHdr.headerVersion, leField_eq, field_setField_apart, AndrImgHdr.headerVersion, leField_eq]
  · rw [leBytes_length, length]
    simp only [sizeofAndrImgHdr] at apart ⊢
    omega
  · rw [leBytes_length]
    omega

theorem packedContent_listed {afile : AbootimgFile} {file : File}
    (search : jsonStringArraySearch api files (cstr afile.name) = some true)
    (opened : dir.file (cstr afile.name) = some file) :
    packedContent api files dir afile = file.slice 0 (toInt32 file.size).toNat := by
  rw [packedContent, listedFile, if_pos search, opened, Option.elim_some]

theorem packedContent_unlisted {afile : AbootimgFile}
    (search : jsonStringArraySearch api files (cstr afile.name) = some false) :
    packedContent api files dir afile = [] := by
  rw [packedContent, listedFile, if_neg (by simp [search])]
  rfl

/-- A component written to the image: its size in the header, its bytes at the offset, its bytes and size
in the hash. -/
structure ComponentPacked (afile : AbootimgFile) (bytes : List Byte) (st next : AbootimgPack) : Prop where
  hdr : next.hdr = setField st.hdr afile.hdrSizeOffset (leBytes 4 bytes.length)
  file : next.out.file = st.out.file.writeAt st.offset bytes
  start : next.out.start = 0
  stream : next.stream = st.stream ++ (bytes ++ leBytes 4 bytes.length)
  offset : next.offset = st.offset + alignedLength bytes.length st.hdr.pageSize
  small : bytes.length < 2 ^ 31
  padding : bytes ≠ [] → st.offset + bytes.length + next.padsz ≤ next.offset
  unpadded : st.offset - st.padsz ≤ next.offset - next.padsz

theorem toInt32_range (n : Nat) : (toInt32 n).toNat ≤ n ∧ (toInt32 n).toNat < 2 ^ 31 := by
  unfold toInt32
  rw [Int.bmod_def]
  omega

theorem abootimgPackListed_packed {afile : AbootimgFile} {st next : AbootimgPack} {file : File} {length : Int}
    (known : afile ∈ abootimgFiles) (width : st.hdr.length = sizeofAndrImgHdr)
    (admitted : st.hdr.pageSize ∈ abootimgPageSizes) (plain : st.out.start = 0) (near : st.offset < 2 ^ 62)
    (range : length.toNat ≤ file.size ∧ length.toNat < 2 ^ 31)
    (ran : abootimgPackListed junk afile file length st = some next) :
    ComponentPacked afile (file.slice 0 length.toNat) st next := by
  unfold abootimgPackListed at ran
  split at ran
  · exact absurd ran (by simp)
  · generalize length.toNat = size at ran range
    have taken : (file.slice 0 size).length = size := File.slice_length _ _ _
    have stream : ddStream ((some (⟨file, 0, 0⟩ : Fd)).map (·.fileseek 0)) size = file.slice 0 size := by
      show File.readAt _ _ _ = _
      rw [Fd.fileseek_file, Fd.fileseek_pos _ _ (show (0 + 0 : Nat) < 2 ^ 63 by omega)]
      exact File.readAt_full _ _ _ (show 0 + 0 + size ≤ file.size by omega)
    have copied := dd64_scan abootimgUpdateSha1sum_piecewise junk (some ⟨file, 0, 0⟩) (some st.out) 0
      st.offset size st.stream (by simp) (by rw [stream, taken])
    rw [stream] at copied
    obtain ⟨_, dst, scan⟩ := copied
    simp only [Option.some.injEq] at ran
    subst ran
    have page := setField_pageSize known width size
    have bounds := @alignedLength_bounds size _ admitted
    have aligned := alignedLength32_eq admitted range.2
    constructor
    · rw [taken]
    · have seek := Fd.fileseek_pos st.out st.offset (by omega)
      rw [plain, Nat.zero_add] at seek
      simp only [dst, Option.map_some, Option.getD_some, Fd.write_file, Fd.fileseek_file, seek,
        abootimgUpdateSha1sum]
    · dsimp only
      rw [dst, Option.map_some, Option.getD_some, Fd.write_start, Fd.fileseek_start, plain]
    · simp only [scan, abootimgUpdateSha1sum, taken, List.append_assoc]
    · rw [taken, page, aligned]
    · rw [taken]
      exact range.2
    · intro _
      simp only [taken, page, aligned]
      omega
    · simp only [page, aligned]
      omega

theorem unlisted_packed {st : AbootimgPack} (afile : AbootimgFile) (admitted : st.hdr.pageSize ∈ abootimgPageSizes)
    (plain : st.out.start = 0) :
    ComponentPacked afile [] st
      { st with hdr := setField st.hdr afile.hdrSizeOffset (leBytes 4 0), stream := st.stream ++ leBytes 4 0 } := by
  constructor
  · rfl
  · rw [File.writeAt_nil]
  · exact plain
  · rfl
  · have zero : alignedLength ([] : List Byte).length st.hdr.pageSize = 0 := by
      simp only [abootimgPageSizes, List.mem_cons, List.not_mem_nil, or_false] at admitted
      rw [alignedLength, List.length_nil, Nat.div_eq_of_lt (by omega), Nat.zero_mul]
    rw [zero]
    rfl
  · rw [List.length_nil]
    omega
  · exact fun nonempty => absurd rfl nonempty
  · exact le_refl _

def LookedUp (api : CJson J) (files : J) (dir : AbootimgDir J) (afile : AbootimgFile) : Prop :=
  jsonStringArraySearch api files (cstr afile.name) ≠ none ∧
    (jsonStringArraySearch api files (cstr afile.name) = some true →
      ∃ file, dir.file (cstr afile.name) = some file ∧ 0 ≤ toInt32 file.size)

theorem abootimgPackFile_packed {afile : AbootimgFile} {st next : AbootimgPack} (known : afile ∈ abootimgFiles)
    (length : st.hdr.length = sizeofAndrImgHdr) (admitted : st.hdr.pageSize ∈ abootimgPageSizes)
    (plain : st.out.start = 0) (near : st.offset < 2 ^ 62)
    (ran : abootimgPackFile api junk files dir afile st = some next) :
    ComponentPacked afile (packedContent api files dir afile) st next ∧ LookedUp api files dir afile := by
  unfold abootimgPackFile at ran
  obtain ⟨listed, search, ran⟩ := Option.bind_eq_some_iff.mp ran
  cases listed with
  | false =>
    obtain rfl := Option.some.inj ran
    rw [packedContent_unlisted search]
    exact ⟨unlisted_packed afile admitted plain, by simp [search], by simp [search]⟩
  | true =>
    obtain ⟨file, opened, ran⟩ := Option.bind_eq_some_iff.mp ran
    have positive : 0 ≤ toInt32 file.size := by
      by_contra negative
      rw [abootimgPackListed, if_pos (not_le.mp negative)] at ran
      exact absurd ran (by simp)
    rw [packedContent_listed search opened]
    exact ⟨abootimgPackListed_packed known length admitted plain near (toInt32_range _) ran,
      by simp [search], fun _ => ⟨file, opened, positive⟩⟩

structure HeaderKept (st next : AbootimgPack) : Prop where
  length : next.hdr.length = sizeofAndrImgHdr
  pageSize : next.hdr.pageSize = st.hdr.pageSize
  headerVersion : next.hdr.headerVersion = st.hdr.headerVersion
  plain : next.out.start = 0

theorem abootimgPackFile_next {afile : AbootimgFile} {st next : AbootimgPack} (known : afile ∈ abootimgFiles)
    (length : st.hdr.length = sizeofAndrImgHdr) (admitted : st.hdr.pageSize ∈ abootimgPageSizes)
    (plain : st.out.start = 0) (near : st.offset < 2 ^ 62)
    (ran : abootimgPackFile api junk files dir afile st = some next) :
    HeaderKept st next ∧ next.offset ≤ st.offset + 2 ^ 32 := by
  obtain ⟨packed, _⟩ := abootimgPackFile_packed known length admitted plain near ran
  have apart := abootimgFiles_apart afile known
  have bounds := @alignedLength_bounds (packedContent api files dir afile).length _ admitted
  have small := packed.small
  have pages : st.hdr.pageSize ≤ 16384 := by
    simp only [abootimgPageSizes, List.mem_cons, List.not_mem_nil, or_false] at admitted
    omega
  constructor
  · constructor
    · rw [packed.hdr, setField_length, length]
      rw [leBytes_length, length]
      simp only [sizeofAndrImgHdr] at apart ⊢
      omega
    · rw [packed.hdr, setField_pageSize known length]
    · rw [packed.hdr, setField_headerVersion known length]
    · exact packed.start
  · rw [packed.offset]
    omega

structure ComponentsPacked (afiles : List AbootimgFile) (content : AbootimgFile → List Byte)
    (st done : AbootimgPack) : Prop where
  hdr : done.hdr = setFields st.hdr (afiles.map fun afile => (afile.hdrSizeOffset, leBytes 4 (content afile).length))
  file : done.out.file = st.out.file.writePieces
    (placed (fun len => alignedLength len st.hdr.pageSize) st.offset (afiles.map content))
  start : done.out.start = 0
  stream : done.stream = st.stream ++ hashInput (afiles.map content)
  offset : done.offset = placedEnd (fun len => alignedLength len st.hdr.pageSize) st.offset (afiles.map content)
  small : ∀ afile ∈ afiles, (content afile).length < 2 ^ 31
  padding : ∀ piece ∈ placed (fun len => alignedLength len st.hdr.pageSize) st.offset (afiles.map content),
    piece.2 ≠ [] → piece.1 + piece.2.length + done.padsz ≤ done.offset
  unpadded : st.offset - st.padsz ≤ done.offset - done.padsz

theorem ComponentsPacked.nil {content : AbootimgFile → List Byte} {st : AbootimgPack} (plain : st.out.start = 0) :
    ComponentsPacked [] content st st where
  hdr := rfl
  file := rfl
  start := plain
  stream := (List.append_nil _).symm
  offset := rfl
  small := fun _ member => absurd member List.not_mem_nil
  padding := fun _ member => absurd member List.not_mem_nil
  unpadded := le_refl _

theorem ComponentsPacked.cons {afile : AbootimgFile} {afiles : List AbootimgFile}
    {content : AbootimgFile → List Byte} {st next done : AbootimgPack}
    (head : ComponentPacked afile (content afile) st next) (page : next.hdr.pageSize = st.hdr.pageSize)
    (tail : ComponentsPacked afiles content next done) : ComponentsPacked (afile :: afiles) content st done where
  hdr := by
    rw [tail.hdr, head.hdr]
    rfl
  file := by
    rw [tail.file, head.file, head.offset, page, List.map_cons, placed, File.writePieces, File.writePieces,
      List.foldl_cons]
  start := tail.start
  stream := by
    rw [tail.stream, head.stream, List.map_cons, hashInput, hashInput, List.flatMap_cons, List.append_assoc]
  offset := by rw [tail.offset, head.offset, page, List.map_cons, placedEnd]
  small := by
    intro other member
    rcases List.mem_cons.mp member with rfl | later
    · exact head.small
    · exact tail.small other later
  padding := by
    intro piece member nonempty
    rw [List.map_cons, placed] at member
    rcases List.mem_cons.mp member with rfl | later
    · have here := head.padding nonempty
      have behind := tail.unpadded
      have positive := List.length_pos_iff.mpr nonempty
      simp only at positive ⊢
      omega
    · have padded := tail.padding piece
      rw [page, head.offset] at padded
      exact padded later nonempty
  unpadded := head.unpadded.trans tail.unpadded

theorem abootimgPackLoop_packed {afiles : List AbootimgFile} {st done : AbootimgPack}
    (known : ∀ afile ∈ afiles, afile ∈ abootimgFiles) (length : st.hdr.length = sizeofAndrImgHdr)
    (admitted : st.hdr.pageSize ∈ abootimgPageSizes) (plain : st.out.start = 0)
    (near : st.offset + afiles.length * 2 ^ 32 < 2 ^ 62)
    (ran : abootimgPackLoop api junk files dir afiles st = some done) :
    ComponentsPacked (activeFiles st.hdr.headerVersion afiles) (packedContent api files dir) st done ∧
      ∀ afile ∈ activeFiles st.hdr.headerVersion afiles, LookedUp api files dir afile := by
  induction afiles generalizing st with
  | nil =>
    obtain rfl := Option.some.inj ran
    exact ⟨.nil plain, fun _ member => absurd member List.not_mem_nil⟩
  | cons afile rest ih =>
    rw [abootimgPackLoop] at ran
    by_cases later : afile.minVersion > st.hdr.headerVersion
    · rw [if_pos later] at ran
      obtain rfl := Option.some.inj ran
      have none : activeFiles st.hdr.headerVersion (afile :: rest) = [] := by
        rw [activeFiles, List.takeWhile_cons_of_neg (by simpa using later)]
      rw [none]
      exact ⟨.nil plain, fun _ member => absurd member List.not_mem_nil⟩
    · rw [if_neg later] at ran
      obtain ⟨next, step, ran⟩ := Option.bind_eq_some_iff.mp ran
      have here := known afile List.mem_cons_self
      have first : activeFiles st.hdr.headerVersion (afile :: rest) =
          afile :: activeFiles st.hdr.headerVersion rest := by
        rw [activeFiles, List.takeWhile_cons_of_pos (by simpa using later), activeFiles]
      obtain ⟨packed, looked⟩ := abootimgPackFile_packed here length admitted plain (by omega) step
      obtain ⟨same, small⟩ := abootimgPackFile_next here length admitted plain (by omega) step
      obtain ⟨tail, others⟩ := ih (fun other member => known other (List.mem_cons_of_mem _ member)) same.length
        (by rw [same.pageSize]; exact admitted) same.plain (by
          rw [List.length_cons] at near
          omega) ran
      rw [same.headerVersion] at tail others
      rw [first]
      refine ⟨.cons packed same.pageSize tail, ?_⟩
      intro other member
      rcases List.mem_cons.mp member with rfl | inside
      · exact looked
      · exact others other inside

theorem abootimgPackFile_listed {afile : AbootimgFile} {file : File} (st : AbootimgPack)
    (search : jsonStringArraySearch api files (cstr afile.name) = some true)
    (opened : dir.file (cstr afile.name) = some file) :
    abootimgPackFile api junk files dir afile st = abootimgPackListed junk afile file (toInt32 file.size) st := by
  unfold abootimgPackFile
  rw [search, Option.bind_eq_bind, Option.bind_some, if_pos rfl, opened, Option.bind_eq_bind, Option.bind_some]

theorem abootimgPackFile_succeeds {afile : AbootimgFile} (looked : LookedUp api files dir afile) (st : AbootimgPack) :
    ∃ next, abootimgPackFile api junk files dir afile st = some next := by
  obtain ⟨known, opened⟩ := looked
  cases search : jsonStringArraySearch api files (cstr afile.name) with
  | none => exact absurd search known
  | some found =>
    cases found with
    | false =>
      rw [abootimgPackFile, search]
      exact ⟨_, rfl⟩
    | true =>
      obtain ⟨file, exists_, positive⟩ := opened search
      rw [abootimgPackFile_listed st search exists_, abootimgPackListed, if_neg (not_lt.mpr positive)]
      exact ⟨_, rfl⟩

theorem abootimgPackLoop_succeeds {afiles : List AbootimgFile} {st : AbootimgPack}
    (known : ∀ afile ∈ afiles, afile ∈ abootimgFiles) (length : st.hdr.length = sizeofAndrImgHdr)
    (admitted : st.hdr.pageSize ∈ abootimgPageSizes) (plain : st.out.start = 0)
    (near : st.offset + afiles.length * 2 ^ 32 < 2 ^ 62)
    (looked : ∀ afile ∈ activeFiles st.hdr.headerVersion afiles, LookedUp api files dir afile) :
    ∃ done, abootimgPackLoop api junk files dir afiles st = some done := by
  induction afiles generalizing st with
  | nil => exact ⟨st, rfl⟩
  | cons afile rest ih =>
    rw [abootimgPackLoop]
    by_cases later : afile.minVersion > st.hdr.headerVersion
    · rw [if_pos later]
      exact ⟨st, rfl⟩
    · have first : activeFiles st.hdr.headerVersion (afile :: rest) =
          afile :: activeFiles st.hdr.headerVersion rest := by
        rw [activeFiles, List.takeWhile_cons_of_pos (by simpa using later), activeFiles]
      rw [first] at looked
      obtain ⟨next, step⟩ := @abootimgPackFile_succeeds J api junk files dir afile (looked afile List.mem_cons_self) st
      rw [if_neg later, step, Option.bind_some]
      obtain ⟨same, small⟩ := abootimgPackFile_next (known afile List.mem_cons_self) length admitted plain
        (by omega) step
      apply ih (fun other member => known other (List.mem_cons_of_mem _ member)) same.length
        (by rw [same.pageSize]; exact admitted) same.plain
      · rw [List.length_cons] at near
        omega
      · rw [same.headerVersion]
        exact fun other member => looked other (List.mem_cons_of_mem _ member)

end Loop

theorem activeFiles_sublist (version : Nat) (afiles : List AbootimgFile) :
    List.Sublist (activeFiles version afiles) afiles := List.takeWhile_sublist _

section Header

variable (sha1 : List Byte → List Byte) (afiles : List AbootimgFile) (content : AbootimgFile → List Byte)

def packedFields : List FieldWrite :=
  afiles.map (fun afile => (afile.hdrSizeOffset, leBytes 4 (content afile).length)) ++
    [(576, sha1 (hashInput (afiles.map content))), (0, ANDR_BOOT_MAGIC)]

variable {sha1 afiles content} (digest : ∀ stream, (sha1 stream).length = 20)

include digest

theorem packedFields_inside (known : List.Sublist afiles abootimgFiles) :
    ∀ write ∈ packedFields sha1 afiles content, write.1 + write.2.length ≤ sizeofAndrImgHdr := by
  intro write member
  simp only [packedFields, List.mem_append, List.mem_map, List.mem_cons, List.not_mem_nil, or_false] at member
  rcases member with ⟨afile, inside, rfl⟩ | rfl | rfl
  · have apart := abootimgFiles_apart afile (known.subset inside)
    simp only [leBytes_length, sizeofAndrImgHdr] at apart ⊢
    omega
  · simp only [digest, sizeofAndrImgHdr]
    omega
  · decide

theorem packedFields_apart (known : List.Sublist afiles abootimgFiles) :
    (packedFields sha1 afiles content).Pairwise FieldWrite.Apart := by
  rw [packedFields, List.pairwise_append]
  refine ⟨?_, ?_, ?_⟩
  · have all : abootimgFiles.Pairwise fun a b =>
        a.hdrSizeOffset + 4 ≤ b.hdrSizeOffset ∨ b.hdrSizeOffset + 4 ≤ a.hdrSizeOffset := by decide
    rw [List.pairwise_map]
    apply (all.sublist known).imp
    intro a b apart
    simpa only [FieldWrite.Apart, leBytes_length] using apart
  · rw [List.pairwise_cons]
    refine ⟨?_, List.pairwise_singleton _ _⟩
    intro write member
    rw [List.mem_singleton.mp member]
    exact .inr (show 0 + 8 ≤ 576 by decide)
  · have offsets : ∀ afile ∈ abootimgFiles, 8 ≤ afile.hdrSizeOffset ∧
        (afile.hdrSizeOffset + 4 ≤ 576 ∨ 596 ≤ afile.hdrSizeOffset) := by decide
    intro write member other last
    obtain ⟨afile, inside, rfl⟩ := List.mem_map.mp member
    have apart := offsets afile (known.subset inside)
    simp only [List.mem_cons, List.not_mem_nil, or_false] at last
    rcases last with rfl | rfl
    · simp only [FieldWrite.Apart, leBytes_length, digest]
      omega
    · simp only [FieldWrite.Apart, leBytes_length, show ANDR_BOOT_MAGIC.length = 8 from rfl]
      omega

theorem packedHeader_length {hdr : AndrImgHdr} (known : List.Sublist afiles abootimgFiles)
    (length : hdr.length = sizeofAndrImgHdr) :
    (setFields hdr (packedFields sha1 afiles content)).length = sizeofAndrImgHdr := by
  rw [setFields_length, length]
  rw [length]
  exact packedFields_inside digest known

theorem packedHeader_field {hdr : AndrImgHdr} (known : List.Sublist afiles abootimgFiles)
    (length : hdr.length = sizeofAndrImgHdr) {write : FieldWrite} (member : write ∈ packedFields sha1 afiles content) :
    field (setFields hdr (packedFields sha1 afiles content)) write.1 write.2.length = write.2 := by
  apply field_setFields _ (packedFields_apart digest known) member
  rw [length]
  exact packedFields_inside digest known

theorem packedHeader_kept {hdr : AndrImgHdr} (known : List.Sublist afiles abootimgFiles)
    (length : hdr.length = sizeofAndrImgHdr) {offset width : Nat} (behind : 8 ≤ offset)
    (apart : ∀ afile ∈ afiles, offset + width ≤ afile.hdrSizeOffset ∨ afile.hdrSizeOffset + 4 ≤ offset)
    (id : offset + width ≤ 576 ∨ 596 ≤ offset) :
    field (setFields hdr (packedFields sha1 afiles content)) offset width = field hdr offset width := by
  apply field_setFields_apart
  · rw [length]
    exact packedFields_inside digest known
  · intro write member
    simp only [packedFields, List.mem_append, List.mem_map, List.mem_cons, List.not_mem_nil, or_false] at member
    rcases member with ⟨afile, inside, rfl⟩ | rfl | rfl
    · have fields := apart afile inside
      simpa only [leBytes_length] using fields
    · simpa only [digest] using id
    · exact .inr behind

structure PackedHeader (sha1 : List Byte → List Byte) (content : AbootimgFile → List Byte) (hdr packed : AndrImgHdr) :
    Prop where
  length : packed.length = sizeofAndrImgHdr
  magic : packed.magic = ANDR_BOOT_MAGIC
  id : packed.id.take 20 = sha1 (hashInput ((activeFiles hdr.headerVersion abootimgFiles).map content))
  pageSize : packed.pageSize = hdr.pageSize
  headerVersion : packed.headerVersion = hdr.headerVersion
  sizes : ∀ afile ∈ activeFiles hdr.headerVersion abootimgFiles, (content afile).length < 2 ^ 31 →
    leField packed afile.hdrSizeOffset 4 = (content afile).length

theorem packedHeader_packed {hdr : AndrImgHdr} (length : hdr.length = sizeofAndrImgHdr) :
    PackedHeader sha1 content hdr
      (setFields hdr (packedFields sha1 (activeFiles hdr.headerVersion abootimgFiles) content)) := by
  have known := activeFiles_sublist hdr.headerVersion abootimgFiles
  have kept := fun afile inside => abootimgFiles_apart afile (known.subset inside)
  constructor
  · exact packedHeader_length digest known length
  · have written := @packedHeader_field sha1 _ content digest hdr known length (0, ANDR_BOOT_MAGIC)
      (by simp [packedFields])
    exact written
  · have written := @packedHeader_field sha1 _ content digest hdr known length
      (576, sha1 (hashInput ((activeFiles hdr.headerVersion abootimgFiles).map content))) (by simp [packedFields])
    simp only [digest] at written
    rw [AndrImgHdr.id, field, List.take_take]
    exact written
  · rw [AndrImgHdr.pageSize, leField_eq, packedHeader_kept digest known length (by omega) _ (by omega),
      AndrImgHdr.pageSize, leField_eq]
    intro afile inside
    have apart := kept afile inside
    omega
  · rw [AndrImgHdr.headerVersion, leField_eq, packedHeader_kept digest known length (by omega) _ (by omega),
      AndrImgHdr.headerVersion, leField_eq]
    intro afile inside
    have apart := kept afile inside
    omega
  · intro afile inside small
    have written := @packedHeader_field sha1 _ content digest hdr known length
      (afile.hdrSizeOffset, leBytes 4 (content afile).length) (by
        rw [packedFields, List.mem_append]
        exact .inl (List.mem_map.mpr ⟨afile, inside, rfl⟩))
    simp only [leBytes_length] at written
    rw [leField_eq, written, leNumber_leBytes]
    omega

end Header

section Image

variable {J : Type} {api : CJson J} {sha1 : List Byte → List Byte} {junk : Nat → Byte} {files : J}
  {dir : AbootimgDir J} {hdr : AndrImgHdr}

/-- An image that `abootimg_do_pack` wrote: the header, and behind it the components on page boundaries. -/
structure AbootimgImage (sha1 : List Byte → List Byte) (content : AbootimgFile → List Byte) (hdr : AndrImgHdr)
    (image : File) : Prop where
  header : image.Reads 0 (setFields hdr (packedFields sha1 (activeFiles hdr.headerVersion abootimgFiles) content))
  components : ∀ piece ∈ placed (fun len => alignedLength len hdr.pageSize) hdr.pageSize
    ((activeFiles hdr.headerVersion abootimgFiles).map content), image.Reads piece.1 piece.2
  small : ∀ afile ∈ activeFiles hdr.headerVersion abootimgFiles, (content afile).length < 2 ^ 31

theorem abootimgDoPack_image {out fdOutimg : Fd} (digest : ∀ stream, (sha1 stream).length = 20)
    (length : hdr.length = sizeofAndrImgHdr) (admitted : hdr.pageSize ∈ abootimgPageSizes)
    (plain : fdOutimg.start = 0) (ran : abootimgDoPack api sha1 junk hdr files dir fdOutimg = some out) :
    AbootimgImage sha1 (packedContent api files dir) hdr out.file ∧
      ∀ afile ∈ activeFiles hdr.headerVersion abootimgFiles, LookedUp api files dir afile := by
  obtain ⟨done, loop, finish⟩ := Option.map_eq_some_iff.mp ran
  have pages : 2048 ≤ hdr.pageSize ∧ hdr.pageSize ≤ 16384 := by
    simp only [abootimgPageSizes, List.mem_cons, List.not_mem_nil, or_false] at admitted
    omega
  obtain ⟨packed, looked⟩ := abootimgPackLoop_packed (fun _ member => member) length admitted plain
    (by
      rw [show abootimgFiles.length = 5 from rfl]
      simp only
      omega) loop
  refine ⟨?_, looked⟩
  have fits : ∀ piece ∈ (activeFiles hdr.headerVersion abootimgFiles).map (packedContent api files dir),
      piece.length ≤ alignedLength piece.length hdr.pageSize :=
    fun piece _ => (alignedLength_bounds admitted).1
  have reads := @writePieces_reads (fun len => alignedLength len hdr.pageSize) fdOutimg.file hdr.pageSize _ fits
  have inside := @placed_inside (fun len => alignedLength len hdr.pageSize) hdr.pageSize _ fits
  have file := packed.file
  simp only at file
  rw [← file] at reads
  have near : done.offset < 2 ^ 62 := by
    have count := (activeFiles_sublist hdr.headerVersion abootimgFiles).length_le
    have reach := @placedEnd_le (fun len => alignedLength len hdr.pageSize) hdr.pageSize
      ((activeFiles hdr.headerVersion abootimgFiles).map (packedContent api files dir)) (2 ^ 32) (by
        intro piece member
        obtain ⟨afile, active, rfl⟩ := List.mem_map.mp member
        have bounds := (@alignedLength_bounds (packedContent api files dir afile).length _ admitted).2
        have small := packed.small afile active
        omega)
    have final := packed.offset
    simp only at final
    rw [← final, List.length_map] at reach
    rw [show abootimgFiles.length = 5 from rfl] at count
    omega
  -- the padding byte lies behind every component
  have padded : ∀ piece ∈ placed (fun len => alignedLength len hdr.pageSize) hdr.pageSize
        ((activeFiles hdr.headerVersion abootimgFiles).map (packedContent api files dir)),
      (if done.padsz ≠ 0 then (done.out.lseek64 (done.offset - 1)).write [0#8] else done.out).file.Reads
        piece.1 piece.2 := by
    intro piece member
    split
    · rename_i pad
      by_cases nonempty : piece.2 = []
      · rw [nonempty]
        exact File.reads_nil _ _
      · have room := packed.padding piece member nonempty
        rw [Fd.write_file, Fd.lseek64_file, Fd.lseek64_pos _ _ (by omega)]
        exact (reads piece member).writeAt (.inl (by omega))
    · exact reads piece member
  have header : setField (setField done.hdr 576 (sha1 done.stream)) 0 ANDR_BOOT_MAGIC =
      setFields hdr (packedFields sha1 (activeFiles hdr.headerVersion abootimgFiles) (packedContent api files dir)) := by
    rw [packed.hdr, packed.stream, packedFields, setFields_append, List.nil_append]
    rfl
  have width := @packedHeader_length sha1 _ (packedContent api files dir) digest hdr
    (activeFiles_sublist hdr.headerVersion abootimgFiles) length
  rw [← finish]
  unfold abootimgPackFinish
  simp only [header]
  generalize (if done.padsz ≠ 0 then (done.out.lseek64 (done.offset - 1)).write [0#8] else done.out) = padOut at padded ⊢
  have image : ((padOut.lseek64 0).write (setFields hdr (packedFields sha1
      (activeFiles hdr.headerVersion abootimgFiles) (packedContent api files dir)))).file =
      padOut.file.writeAt 0 (setFields hdr (packedFields sha1
        (activeFiles hdr.headerVersion abootimgFiles) (packedContent api files dir))) := by
    rw [Fd.write_file, Fd.lseek64_file, Fd.lseek64_pos _ _ (by omega)]
  rw [image]
  constructor
  · exact File.reads_writeAt _ _ _
  · intro piece member
    apply (padded piece member).writeAt
    have behind := (inside piece member).1
    rw [width, sizeofAndrImgHdr]
    omega
  · exact packed.small

end Image

end ImgEditor
