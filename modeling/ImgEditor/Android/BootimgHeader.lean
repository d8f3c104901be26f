import ImgEditor.Android.BootimgListed

namespace ImgEditor

open Storage CText

def headerEnd : Nat → Nat
  | 0 => 1632
  | 1 => 1648
  | _ => sizeofAndrImgHdr

structure SameHeader (head packed : AndrImgHdr) : Prop where
  magic : packed.magic = head.magic
  id : packed.id = head.id
  items : ∀ item ∈ structureAndrHdr, item.offset < headerEnd head.headerVersion → item.value packed = item.value head

def Terminated (head : AndrImgHdr) : Prop :=
  ∀ item ∈ structureAndrHdr, item.print = .string → (cString (field head item.offset item.size)).length < item.size

/-- The fields that `abootimg_pack` does not load are zero where the version has them. -/
def UnloadedZero (head : AndrImgHdr) : Prop :=
  (1 ≤ head.headerVersion → leField head 1636 8 = 0 ∧ leField head 1644 4 = 0) ∧
    (2 ≤ head.headerVersion → leField head 1652 8 = 0)

def loadedHeader (head : AndrImgHdr) : AndrImgHdr :=
  setFields (List.replicate sizeofAndrImgHdr 0#8) (writtenFields (fixAndrHdrStructure structureAndrHdr 0) head)

section Json

variable {J : Type} {api : CJson J} {children : J → List (CString × J)} {elements : J → List J}

theorem savedItems_apart (version : Nat) : NamesApart (savedItems (fixAndrHdrStructure structureAndrHdr version)) :=
  match version with
  | 0 => by decide +kernel
  | 1 => by decide +kernel
  | _ + 2 => show NamesApart (savedItems structureAndrHdr) by decide +kernel

theorem savedItems_filesApart (version : Nat) :
    ∀ item ∈ savedItems (fixAndrHdrStructure structureAndrHdr version), sameName item.name (cstr "files") = false :=
  match version with
  | 0 => by decide +kernel
  | 1 => by decide +kernel
  | _ + 2 => show ∀ item ∈ savedItems structureAndrHdr, sameName item.name (cstr "files") = false by decide +kernel

theorem savedItems_zero (version : Nat) : ∀ item ∈ savedItems (fixAndrHdrStructure structureAndrHdr 0),
    item ∈ savedItems (fixAndrHdrStructure structureAndrHdr version) := by
  have kept : ∀ item ∈ (fixAndrHdrStructure structureAndrHdr 0).filter fun item => !item.notSave,
      item ∈ (fixAndrHdrStructure structureAndrHdr version).filter fun item => !item.notSave :=
    match version with
    | 0 => fun item member => member
    | 1 => by decide +kernel
    | _ + 2 => show ∀ item ∈ (fixAndrHdrStructure structureAndrHdr 0).filter fun item => !item.notSave,
        item ∈ structureAndrHdr.filter fun item => !item.notSave by decide +kernel
  intro item member
  obtain ⟨entry, inside, rfl⟩ := List.mem_map.mp member
  exact List.mem_map.mpr ⟨entry, kept entry inside, rfl⟩

theorem abootimgLoadHeader_saved (laws : api.Lawful children elements) {head : AndrImgHdr}
    (length : head.length = sizeofAndrImgHdr) (files : J) :
    let root := api.addItemToObject (structureSaveJson api api.createObject head
      (savedItems (fixAndrHdrStructure structureAndrHdr head.headerVersion))) (cstr "files") files
    api.getObjectItem root (cstr "files") = some files ∧
      abootimgLoadHeader api root = some (loadedHeader head) := by
  have saved := StringItems.save laws (StringItems.create laws) head (savedItems_apart head.headerVersion)
    (fun _ inside => absurd inside List.not_mem_nil)
  rw [List.nil_append] at saved
  constructor
  · apply StringItems.getItem_addItem laws saved
    intro pair member
    obtain ⟨item, inside, rfl⟩ := List.mem_map.mp member
    exact savedItems_filesApart _ item inside
  · have found : ∀ item ∈ savedItems (fixAndrHdrStructure structureAndrHdr 0),
        jsonGetStringValueInObject api (api.addItemToObject (structureSaveJson api api.createObject head
          (savedItems (fixAndrHdrStructure structureAndrHdr head.headerVersion))) (cstr "files") files) item.name =
        some (item.saveJson head) :=
      fun item member => StringItems.get_addItem laws saved _ _
        (savedPairs_find head (savedItems_apart _) (savedItems_zero _ item member))
    have loaded := @loadJson_saved (fixAndrHdrStructure structureAndrHdr 0) head
      (List.replicate sizeofAndrImgHdr 0#8) (by
        rw [length]
        exact fun item member _ => fixAndrHdrStructure_fits 0 item member)
    show abootimgLoadHeader api _ = _
    rw [abootimgLoadHeader]
    simp only [zeroHeader_version]
    rw [structureLoadJson_saved found, loaded, loadedHeader]

end Json

section Fields

variable {head : AndrImgHdr}

theorem fixed_disjoint : (fixAndrHdrStructure structureAndrHdr 0).Pairwise TableItem.Disjoint := by decide

theorem fixed_fits (length : head.length = sizeofAndrImgHdr) :
    ∀ item ∈ fixAndrHdrStructure structureAndrHdr 0, item.Fits head.length := by
  rw [length]
  exact fixAndrHdrStructure_fits 0

theorem loadedFields_inside (length : head.length = sizeofAndrImgHdr) :
    ∀ write ∈ writtenFields (fixAndrHdrStructure structureAndrHdr 0) head,
      write.1 + write.2.length ≤ (List.replicate sizeofAndrImgHdr 0#8).length := by
  intro write member
  obtain ⟨item, inside, rfl⟩ := List.mem_map.mp member
  apply TableItem.written_inside (fixed_fits length item (List.mem_filter.mp inside).1)
  rw [List.length_replicate, length]

theorem loadedHeader_length (length : head.length = sizeofAndrImgHdr) :
    (loadedHeader head).length = sizeofAndrImgHdr := by
  rw [loadedHeader, setFields_length (loadedFields_inside length), List.length_replicate]

theorem loadedHeader_written (length : head.length = sizeofAndrImgHdr) {item : TableItem}
    (member : item ∈ structureAndrHdr) (saved : item.notSave = false) (front : item.offset < 1632) :
    field (loadedHeader head) item.offset (item.written head).2.length = (item.written head).2 := by
  have kept : item ∈ fixAndrHdrStructure structureAndrHdr 0 := by
    apply List.mem_map.mpr
    exact ⟨item, member, by rw [if_pos front]⟩
  have written : item.written head ∈ writtenFields (fixAndrHdrStructure structureAndrHdr 0) head := by
    apply List.mem_map.mpr
    exact ⟨item, List.mem_filter.mpr ⟨kept, by simp [saved]⟩, rfl⟩
  exact field_setFields (loadedFields_inside length)
    (writtenFields_apart (fixed_fits length) fixed_disjoint) written

theorem loadedHeader_zero (length : head.length = sizeofAndrImgHdr) {offset width : Nat}
    (apart : ∀ item ∈ (fixAndrHdrStructure structureAndrHdr 0).filter fun item => !item.notSave,
      offset + width ≤ item.offset ∨ item.offset + item.size ≤ offset)
    (inside : offset + width ≤ sizeofAndrImgHdr) :
    field (loadedHeader head) offset width = List.replicate width 0#8 := by
  rw [loadedHeader, field_setFields_apart (loadedFields_inside length)]
  · rw [field, List.drop_replicate, List.take_replicate, Nat.min_eq_left (by omega)]
  · intro write member
    obtain ⟨item, kept, rfl⟩ := List.mem_map.mp member
    have width := TableItem.written_width (fixed_fits length item (List.mem_filter.mp kept).1)
    have clear := apart item kept
    rw [width.1]
    omega

theorem loadedHeader_pageSize (length : head.length = sizeofAndrImgHdr) :
    (loadedHeader head).pageSize = head.pageSize := by
  have written := @loadedHeader_written head length ⟨"page_size", 36, 4, .unsigned, false⟩ (by decide) rfl (by decide)
  have width : (field head 36 4).length = 4 := field_length (by rw [length]; decide)
  simp only [TableItem.written, width] at written
  rw [AndrImgHdr.pageSize, leField_eq, written, AndrImgHdr.pageSize, leField_eq]

theorem loadedHeader_version (length : head.length = sizeofAndrImgHdr) :
    (loadedHeader head).headerVersion = head.headerVersion := by
  have written := @loadedHeader_written head length ⟨"header_version", 40, 4, .xunsigned, false⟩ (by decide) rfl
    (by decide)
  have width : (field head 40 4).length = 4 := field_length (by rw [length]; decide)
  simp only [TableItem.written, width] at written
  rw [AndrImgHdr.headerVersion, leField_eq, written, AndrImgHdr.headerVersion, leField_eq]

theorem abootimgEraseHeader_kept {loaded : AndrImgHdr} (length : loaded.length = sizeofAndrImgHdr)
    (version : loaded.headerVersion ≤ 2) :
    ∃ erased, abootimgEraseHeader loaded = some erased ∧
      ∀ offset width, offset + width ≤ headerEnd loaded.headerVersion →
        field erased offset width = field loaded offset width := by
  have kept : ∀ limit ≤ sizeofAndrImgHdr, ∀ offset width, offset + width ≤ limit →
      field (andrHdrEraseFrom loaded limit) offset width = field loaded offset width := by
    intro limit inside offset width front
    rw [andrHdrEraseFrom, field_setField_apart _ (.inl front)]
    rw [List.length_replicate, length]
    omega
  unfold abootimgEraseHeader headerEnd
  generalize loaded.headerVersion = v at version
  have versions : v = 0 ∨ v = 1 ∨ v = 2 := by omega
  rcases versions with rfl | rfl | rfl
  · exact ⟨_, rfl, kept 1632 (by decide)⟩
  · exact ⟨_, rfl, kept 1648 (by decide)⟩
  · exact ⟨_, rfl, fun _ _ _ => rfl⟩

end Fields

section Same

variable {sha1 : List Byte → List Byte} {head erased : AndrImgHdr} {content : AbootimgFile → List Byte}

theorem headerEnd_le {version : Nat} : headerEnd version ≤ sizeofAndrImgHdr := by
  unfold headerEnd
  split <;> decide

/-- The header of a packing whose text was saved from `head`. -/
structure Repacked (head erased : AndrImgHdr) (content : AbootimgFile → List Byte) : Prop where
  length : head.length = sizeofAndrImgHdr
  magic : head.magic = ANDR_BOOT_MAGIC
  version : erased.headerVersion = head.headerVersion
  erasedLength : erased.length = sizeofAndrImgHdr
  kept : ∀ offset width, offset + width ≤ headerEnd head.headerVersion →
    field erased offset width = field (loadedHeader head) offset width
  sizes : ∀ afile ∈ activeFiles head.headerVersion abootimgFiles,
    (content afile).length = leField head afile.hdrSizeOffset 4

abbrev repackedHeader (sha1 : List Byte → List Byte) (content : AbootimgFile → List Byte) (erased : AndrImgHdr) :
    AndrImgHdr := setFields erased (packedFields sha1 (activeFiles erased.headerVersion abootimgFiles) content)

theorem Repacked.field_kept (same : Repacked head erased content) (digest : ∀ stream, (sha1 stream).length = 20)
    {offset width : Nat} (behind : 8 ≤ offset) (inside : offset + width ≤ headerEnd head.headerVersion)
    (apart : ∀ afile ∈ abootimgFiles, offset + width ≤ afile.hdrSizeOffset ∨ afile.hdrSizeOffset + 4 ≤ offset)
    (id : offset + width ≤ 576 ∨ 596 ≤ offset) :
    field (repackedHeader sha1 content erased) offset width = field (loadedHeader head) offset width := by
  have known := activeFiles_sublist erased.headerVersion abootimgFiles
  rw [← same.kept offset width inside]
  exact packedHeader_kept digest known same.erasedLength behind (fun afile active => apart afile (known.subset active)) id

theorem Repacked.loaded (same : Repacked head erased content) (digest : ∀ stream, (sha1 stream).length = 20)
    (terminated : Terminated head) {item : TableItem} (member : item ∈ structureAndrHdr)
    (saved : item.notSave = false) (front : item.offset < 1632) :
    item.value (repackedHeader sha1 content erased) = item.value head := by
  have fits := structureAndrHdr_fits item member
  have written := loadedHeader_written same.length member saved front
  have places : ∀ item ∈ structureAndrHdr, item.notSave = false → item.offset < 1632 →
      8 ≤ item.offset ∧ item.offset + item.size ≤ 1632 ∧ (item.offset + item.size ≤ 576 ∨ 596 ≤ item.offset) ∧
      ∀ afile ∈ abootimgFiles,
        item.offset + item.size ≤ afile.hdrSizeOffset ∨ afile.hdrSizeOffset + 4 ≤ item.offset := by decide
  obtain ⟨behind, inside, id, apart⟩ := places item member saved front
  have reach : 1632 ≤ headerEnd head.headerVersion := by
    unfold headerEnd
    split <;> decide
  have kept := @Repacked.field_kept sha1 head erased content same digest item.offset item.size behind (by omega) apart id
  have width := field_length (show item.offset + item.size ≤ head.length by rw [same.length]; exact fits.inside)
  unfold TableItem.value
  rw [kept]
  unfold TableItem.written at written
  cases shape : item.print with
  | string =>
    simp only [shape] at written ⊢
    have short := terminated item member shape
    have whole : (cString (field head item.offset item.size)).take (item.size - 1) =
        cString (field head item.offset item.size) := List.take_of_length_le (by omega)
    rw [whole] at written
    apply cString_field _ (by omega) written
    intro c inside
    have text := List.mem_takeWhile_imp inside
    simpa using text
  | unsigned =>
    simp only [shape, width] at written ⊢
    exact written
  | xunsigned =>
    simp only [shape, width] at written ⊢
    exact written

theorem Repacked.size (same : Repacked head erased content) (digest : ∀ stream, (sha1 stream).length = 20)
    {afile : AbootimgFile} (active : afile ∈ activeFiles head.headerVersion abootimgFiles) :
    field (repackedHeader sha1 content erased) afile.hdrSizeOffset 4 = field head afile.hdrSizeOffset 4 := by
  have known := activeFiles_sublist erased.headerVersion abootimgFiles
  have written := @packedHeader_field sha1 (activeFiles erased.headerVersion abootimgFiles) content digest erased known
    same.erasedLength (afile.hdrSizeOffset, leBytes 4 (content afile).length) (by
      rw [packedFields, List.mem_append, same.version]
      exact .inl (List.mem_map.mpr ⟨afile, active, rfl⟩))
  have apart := abootimgFiles_apart afile ((activeFiles_sublist _ _).subset active)
  have inside : afile.hdrSizeOffset + 4 ≤ head.length := by
    rw [same.length]
    simp only [sizeofAndrImgHdr] at apart ⊢
    omega
  simp only [leBytes_length] at written
  rw [repackedHeader, written, same.sizes afile active, leBytes_field inside]

theorem Repacked.zero (same : Repacked head erased content) (digest : ∀ stream, (sha1 stream).length = 20)
    {offset width : Nat} (behind : 596 ≤ offset) (inside : offset + width ≤ headerEnd head.headerVersion)
    (unloaded : ∀ item ∈ (fixAndrHdrStructure structureAndrHdr 0).filter fun item => !item.notSave,
      offset + width ≤ item.offset ∨ item.offset + item.size ≤ offset)
    (apart : ∀ afile ∈ abootimgFiles, offset + width ≤ afile.hdrSizeOffset ∨ afile.hdrSizeOffset + 4 ≤ offset) :
    field (repackedHeader sha1 content erased) offset width = List.replicate width 0#8 := by
  rw [same.field_kept digest (by omega) inside apart (.inr behind),
    loadedHeader_zero same.length unloaded (inside.trans headerEnd_le)]

theorem field_zero_iff {r : List Byte} {offset width : Nat} (inside : offset + width ≤ r.length) :
    field r offset width = List.replicate width 0#8 ↔ leField r offset width = 0 := by
  constructor
  · intro zero
    rw [leField_eq, zero, leNumber_replicate_zero]
  · intro zero
    have bytes := leBytes_field inside
    have none := leBytes_leNumber (List.replicate width 0#8)
    rw [List.length_replicate, leNumber_replicate_zero] at none
    rw [← bytes, zero, none]

theorem headerEnd_version {version offset : Nat} (inside : offset < headerEnd version) :
    (1632 ≤ offset → 1 ≤ version) ∧ (1648 ≤ offset → 2 ≤ version) := by
  unfold headerEnd at inside
  split at inside
  · exact ⟨fun _ => by omega, fun _ => by omega⟩
  · exact ⟨fun _ => le_refl _, fun _ => by omega⟩
  · rename_i zero one
    have other : version ≠ 0 ∧ version ≠ 1 := ⟨fun same => zero same, fun same => one same⟩
    exact ⟨fun _ => by omega, fun _ => by omega⟩

theorem Repacked.id_eq (same : Repacked head erased content) (digest : ∀ stream, (sha1 stream).length = 20) :
    AndrImgHdr.id (repackedHeader sha1 content erased) =
      sha1 (hashInput ((activeFiles head.headerVersion abootimgFiles).map content)) ++ List.replicate 12 0#8 := by
  have header := @packedHeader_packed sha1 content digest erased same.erasedLength
  have digested := header.id
  have behind := @Repacked.field_kept sha1 head erased content same digest 596 12 (by decide)
    (by unfold headerEnd; split <;> decide) (by decide) (.inr (le_refl _))
  rw [loadedHeader_zero same.length (by decide) (by decide)] at behind
  rw [AndrImgHdr.id, field, List.take_take] at digested
  rw [AndrImgHdr.id, show (32:Nat) = 20 + 12 from rfl, field_add, behind, ← same.version]
  exact congrArg (· ++ List.replicate 12 0#8) digested

theorem Repacked.same_iff (same : Repacked head erased content) (digest : ∀ stream, (sha1 stream).length = 20)
    (terminated : Terminated head) :
    SameHeader head (repackedHeader sha1 content erased) ↔
      head.id = sha1 (hashInput ((activeFiles head.headerVersion abootimgFiles).map content)) ++
        List.replicate 12 0#8 ∧ UnloadedZero head := by
  have header := @packedHeader_packed sha1 content digest erased same.erasedLength
  have reach1 : 1 ≤ head.headerVersion → 1648 ≤ headerEnd head.headerVersion := by
    intro newer
    unfold headerEnd
    split <;> first | omega | decide
  have reach2 : 2 ≤ head.headerVersion → 1660 ≤ headerEnd head.headerVersion := by
    intro newer
    unfold headerEnd
    split <;> first | omega | decide
  have recovery := fun newer => @Repacked.zero sha1 head erased content same digest 1636 8 (by decide)
    (le_trans (by decide) (reach1 newer)) (by decide) (by decide)
  have size := fun newer => @Repacked.zero sha1 head erased content same digest 1644 4 (by decide)
    (le_trans (by decide) (reach1 newer)) (by decide) (by decide)
  have dtb := fun newer => @Repacked.zero sha1 head erased content same digest 1652 8 (by decide)
    (le_trans (by decide) (reach2 newer)) (by decide) (by decide)
  have inside : ∀ offset width, offset + width ≤ sizeofAndrImgHdr → offset + width ≤ head.length := by
    rw [same.length]
    exact fun _ _ fits => fits
  constructor
  · intro equal
    refine ⟨by rw [← equal.id, same.id_eq digest], ?_, ?_⟩
    · intro newer
      have offsetSame := equal.items ⟨"recovery_dtbo_offset", 1636, 8, .xunsigned, false⟩ (by decide)
        (lt_of_lt_of_le (by decide) (reach1 newer))
      have sizeSame := equal.items ⟨"header_size", 1644, 4, .xunsigned, false⟩ (by decide)
        (lt_of_lt_of_le (by decide) (reach1 newer))
      simp only [TableItem.value] at offsetSame sizeSame
      rw [recovery newer] at offsetSame
      rw [size newer] at sizeSame
      exact ⟨(field_zero_iff (inside 1636 8 (by decide))).mp offsetSame.symm,
        (field_zero_iff (inside 1644 4 (by decide))).mp sizeSame.symm⟩
    · intro newer
      have addrSame := equal.items ⟨"dtb_addr", 1652, 8, .xunsigned, false⟩ (by decide)
        (lt_of_lt_of_le (by decide) (reach2 newer))
      simp only [TableItem.value] at addrSame
      rw [dtb newer] at addrSame
      exact (field_zero_iff (inside 1652 8 (by decide))).mp addrSame.symm
  · rintro ⟨id, zero1, zero2⟩
    constructor
    · rw [header.magic, same.magic]
    · rw [same.id_eq digest, id]
    · intro item member field
      have classes : ∀ item ∈ structureAndrHdr, item.notSave = false ∧ item.offset < 1632 ∨
          (∃ afile ∈ abootimgFiles, afile.hdrSizeOffset = item.offset ∧ item.size = 4 ∧ item.print = .xunsigned ∧
            (afile.minVersion = 0 ∨ afile.minVersion = 1 ∧ 1632 ≤ item.offset ∨
              afile.minVersion = 2 ∧ 1648 ≤ item.offset)) ∨
          item = ⟨"recovery_dtbo_offset", 1636, 8, .xunsigned, false⟩ ∨
          item = ⟨"header_size", 1644, 4, .xunsigned, false⟩ ∨ item = ⟨"dtb_addr", 1652, 8, .xunsigned, false⟩ := by
        decide
      have newer := headerEnd_version field
      rcases classes item member with ⟨saved, front⟩ | ⟨afile, known, offset, width, print, version⟩ | rfl | rfl | rfl
      · exact same.loaded digest terminated member saved front
      · have active : afile ∈ activeFiles head.headerVersion abootimgFiles := by
          apply activeFiles_mem known
          omega
        have bytes := @Repacked.size sha1 head erased content same digest afile active
        simp only [TableItem.value, print, ← offset, width]
        exact bytes
      · have one := newer.1 (by decide)
        simp only [TableItem.value]
        rw [recovery one, (field_zero_iff (inside 1636 8 (by decide))).mpr (zero1 one).1]
      · have one := newer.1 (by decide)
        simp only [TableItem.value]
        rw [size one, (field_zero_iff (inside 1644 4 (by decide))).mpr (zero1 one).2]
      · have two := newer.2 (by decide)
        simp only [TableItem.value]
        rw [dtb two, (field_zero_iff (inside 1652 8 (by decide))).mpr (zero2 two)]

end Same

end ImgEditor
