import ImgEditor.Core.Dd
import ImgEditor.Fdt.FitSize
import ImgEditor.Fdt.ListNode
import Mathlib.Logic.Function.Basic

namespace ImgEditor

open Storage CText

namespace LabelledNode

def withChild : LabelledNode → List LabelledNode → LabelledNode
  | mk name label isNode data _, child => mk name label isNode data child

def deleteByname (root : LabelledNode) (name : CString) : LabelledNode :=
  root.withChild (root.child.eraseP fun node => decide (node.name = name))

/-- Deletes the node that a path of names ends at; the root itself is no node of its tree. -/
def deleteBypath : List CString → LabelledNode → LabelledNode
  | [], root => root
  | [name], root => root.deleteByname name
  | step :: path, root =>
    root.withChild (root.child.modify (root.child.findIdx fun node => decide (node.name = step)) (deleteBypath path))

end LabelledNode

def deviceNodeDeleteBypath (root : LabelledNode) (path : CString) : LabelledNode :=
  root.deleteBypath (argvBufferSplitWithDelim path [47#8] FDT_MAX_DEPTH)

/-! ## Unpacking -/

/-- The paths are printed to `char tmp[1024]`. -/
def fitImagePath (outdir : CString) (image : LabelledNode) : CString :=
  (outdir ++ cstr "/" ++ image.name ++ cstr ".bin").take 1023

def fitItsPath (outdir : CString) : CString := (outdir ++ cstr "/image.its").take 1023

def fitIncbinText (image : LabelledNode) : List Byte :=
  (cstr "/incbin/(\"./" ++ image.name ++ cstr ".bin\")").take 1023 ++ [0]

/-- What is left of an image, with the name of its file. -/
def fitItsImage (image : LabelledNode) : LabelledNode :=
  let bare := (image.deleteByname (cstr "data-size")).deleteByname (cstr "data-position")
  let bare := deviceNodeDeleteBypath bare (cstr "hash/value")
  bare.withChild (.mk (cstr "data") [] false (fitIncbinText image) [] :: bare.child)

def fitItsRoot (root : LabelledNode) : LabelledNode :=
  let root := deviceNodeDeleteBypath root (cstr "/timestamp")
  root.withChild (root.child.modify (root.child.findIdx fun node => decide (node.name = cstr "images")) fun images =>
    images.withChild (images.child.map fitItsImage))

def fitItsText (fit : FdtTreeListing) : CString :=
  cstr "/dts-v1/;\n" ++ fdtListNode { fit with incbin := true, root := fitItsRoot fit.root } (fitItsRoot fit.root) 0

/-- The regular files by their paths. -/
abbrev PathFiles := CString → Option File

section Unpack

variable (junk : Nat → Byte) (fd : Fd) (fdNumber : Int) (outdir : CString) (opens : CString → Bool)

/-- The file of an image is opened without `O_TRUNC`. -/
def fitUnpackImage (image : LabelledNode) (size pos : BitVec 32) (files : PathFiles) : PathFiles :=
  let old := (files (fitImagePath outdir image)).getD File.empty
  let done := dd64 junk (some fd) (some ⟨old, 0, 0⟩) pos.toNat 0 size.toNat none ()
  Function.update files (fitImagePath outdir image) (done.dst.map Fd.file)

/-- The loop over the images: what it returns where it ends the function, and the files. -/
def fitUnpackImages : List LabelledNode → PathFiles → Option Int × PathFiles
  | [], files => (none, files)
  | image :: rest, files =>
    match fitImageWord image.unlabelled (cstr "data-size") with
    | none => (some (-1), files)
    | some size =>
      match fitImageWord image.unlabelled (cstr "data-position") with
      | none => (some (-1), files)
      | some pos =>
        -- the source returns the descriptor of the image here
        if opens (fitImagePath outdir image) = false then (some fdNumber, files)
        else fitUnpackImages rest (fitUnpackImage junk fd outdir image size pos files)

def fitUnpack (fit : FdtTreeListing) (files : PathFiles) : Int × PathFiles :=
  match fit.root.findBypath (cstr "/images") with
  | none => (-1, files)
  | some images =>
    match fitUnpackImages junk fd fdNumber outdir opens images.child files with
    | (some ret, files) => (ret, files)
    | (none, files) =>
      if opens (fitItsPath outdir) = false then (-1, files)
      else (0, Function.update files (fitItsPath outdir) (some (File.ofBytes (fitItsText fit))))

end Unpack

/-! ## The files behind it -/

def fitImageSize (image : LabelledNode) : Nat := ((fitImageWord image.unlabelled (cstr "data-size")).getD 0).toNat

def fitImagePos (image : LabelledNode) : Nat := ((fitImageWord image.unlabelled (cstr "data-position")).getD 0).toNat

def fitImageBytes (fd : Fd) (image : LabelledNode) : List Byte := fd.file.slice (fd.start + fitImagePos image) (fitImageSize image)

structure FitImagesPlaced (fd : Fd) (outdir : CString) (images : List LabelledNode) : Prop where
  names : (images.map LabelledNode.name).Nodup
  paths : ∀ image ∈ images, outdir.length + image.name.length + 5 ≤ 1023
  its : outdir.length + 10 ≤ 1023
  inside : ∀ image ∈ images, fd.start + fitImagePos image + fitImageSize image ≤ fd.file.size
  offsets : fd.file.size < 2 ^ 63

/-- Every image stands in its file, the listing in `image.its`, and the other files are as they were. -/
structure FitUnpacked (fit : FdtTreeListing) (fd : Fd) (outdir : CString) (images : List LabelledNode) (before : PathFiles)
    (result : Int × PathFiles) : Prop where
  ret : result.1 = 0
  image : ∀ image ∈ images, (result.2 (fitImagePath outdir image)).map File.content = some (fitImageBytes fd image)
  its : result.2 (fitItsPath outdir) = some (File.ofBytes (fitItsText fit))
  other : ∀ path, path ≠ fitItsPath outdir → (∀ image ∈ images, path ≠ fitImagePath outdir image) → result.2 path = before path

/-- The words are there, the files open, and no file of an image was longer than the image. -/
structure FitUnpackable (outdir : CString) (opens : CString → Bool) (images : List LabelledNode) (before : PathFiles) : Prop where
  size : ∀ image ∈ images, (fitImageWord image.unlabelled (cstr "data-size")).isSome = true
  pos : ∀ image ∈ images, (fitImageWord image.unlabelled (cstr "data-position")).isSome = true
  opened : ∀ image ∈ images, opens (fitImagePath outdir image) = true
  its : opens (fitItsPath outdir) = true
  short : ∀ image ∈ images, ((before (fitImagePath outdir image)).getD File.empty).size ≤ fitImageSize image

section Paths

variable {outdir : CString} {image image' : LabelledNode}

theorem fitImagePath_short (short : outdir.length + image.name.length + 5 ≤ 1023) :
    fitImagePath outdir image = outdir ++ (cstr "/" ++ (image.name ++ cstr ".bin")) := by
  have dot : (cstr ".bin").length = 4 := by decide
  have slash : (cstr "/").length = 1 := by decide
  rw [fitImagePath, List.take_of_length_le]
  · rw [List.append_assoc, List.append_assoc]
  · rw [List.length_append, List.length_append, List.length_append, dot, slash]
    omega

theorem fitImagePath_inj (short : outdir.length + image.name.length + 5 ≤ 1023)
    (short' : outdir.length + image'.name.length + 5 ≤ 1023) (same : fitImagePath outdir image = fitImagePath outdir image') :
    image.name = image'.name := by
  rw [fitImagePath_short short, fitImagePath_short short'] at same
  exact List.append_cancel_right (List.append_cancel_left (List.append_cancel_left same))

theorem fitImagePath_ne_its (short : outdir.length + image.name.length + 5 ≤ 1023) (its : outdir.length + 10 ≤ 1023) :
    fitImagePath outdir image ≠ fitItsPath outdir := by
  have length : (cstr "/image.its").length = 10 := by decide
  have whole : fitItsPath outdir = outdir ++ cstr "/image.its" := by
    rw [fitItsPath, List.take_of_length_le]
    rw [List.length_append, length]
    exact its
  intro same
  rw [fitImagePath_short short, whole] at same
  have last := congrArg List.getLast? (List.append_cancel_left same)
  rw [← List.append_assoc, List.getLast?_append_of_ne_nil _ (by decide)] at last
  exact absurd last (by decide)

end Paths

section Files

variable {junk : Nat → Byte} {fd : Fd} {fdNumber : Int} {outdir : CString} {opens : CString → Bool}

theorem content_eq_iff (f : File) (bytes : List Byte) : (f.writeAt 0 bytes).content = bytes ↔ f.size ≤ bytes.length := by
  have start := f.writeAt_slice_self 0 bytes
  have larger := f.size_le_writeAt 0 bytes
  constructor
  · intro same
    have length := congrArg List.length same
    rw [File.content, File.slice_length] at length
    rw [← length]
    exact larger
  · intro fits
    have size := f.writeAt_size_le 0 bytes
    have least : bytes.length ≤ (f.writeAt 0 bytes).size := by
      by_cases none : bytes = []
      · rw [none]
        exact Nat.zero_le _
      · rw [File.writeAt_size f 0 bytes none, Nat.zero_add]
        exact Nat.le_max_right _ _
    have whole : (f.writeAt 0 bytes).size = bytes.length := by omega
    rw [File.content, whole]
    exact start

/-- A pass for an image that has its words and whose file opens. -/
theorem fitUnpackImages_step {image : LabelledNode} {size pos : BitVec 32}
    (sized : fitImageWord image.unlabelled (cstr "data-size") = some size)
    (placed : fitImageWord image.unlabelled (cstr "data-position") = some pos)
    (opened : opens (fitImagePath outdir image) = true) (rest : List LabelledNode) (files : PathFiles) :
    fitUnpackImages junk fd fdNumber outdir opens (image :: rest) files =
      fitUnpackImages junk fd fdNumber outdir opens rest (fitUnpackImage junk fd outdir image size pos files) := by
  rw [fitUnpackImages, sized, placed]
  dsimp only
  rw [opened, if_neg (Ne.symm Bool.false_ne_true)]

/-- The loop comes through all images exactly if each one has its words and its file opens. -/
theorem fitUnpackImages_through (images : List LabelledNode) (files : PathFiles) :
    (fitUnpackImages junk fd fdNumber outdir opens images files).1 = none ↔
      ∀ image ∈ images, (fitImageWord image.unlabelled (cstr "data-size")).isSome = true ∧
        (fitImageWord image.unlabelled (cstr "data-position")).isSome = true ∧ opens (fitImagePath outdir image) = true := by
  induction images generalizing files with
  | nil => exact iff_of_true rfl (List.forall_mem_nil _)
  | cons image rest ih =>
    rw [List.forall_mem_cons, fitUnpackImages]
    cases fitImageWord image.unlabelled (cstr "data-size") with
    | none => exact iff_of_false (Option.some_ne_none _) fun all => absurd all.1.1 Bool.false_ne_true
    | some size =>
      cases fitImageWord image.unlabelled (cstr "data-position") with
      | none => exact iff_of_false (Option.some_ne_none _) fun all => absurd all.1.2.1 Bool.false_ne_true
      | some pos =>
        dsimp only
        split
        · rename_i closed
          exact iff_of_false (Option.some_ne_none _) fun all => absurd (closed.symm.trans all.1.2.2) Bool.false_ne_true
        · rename_i opened
          rw [ih]
          exact (and_iff_right ⟨rfl, rfl, Bool.eq_true_of_not_eq_false opened⟩).symm

/-- A loop that ends the function returns no zero. -/
theorem fitUnpackImages_ret (number : 0 < fdNumber) {images : List LabelledNode} {files : PathFiles} {ret : Int}
    (ended : (fitUnpackImages junk fd fdNumber outdir opens images files).1 = some ret) : ret ≠ 0 := by
  induction images generalizing files with
  | nil => exact absurd ended (Option.some_ne_none ret).symm
  | cons image rest ih =>
    rw [fitUnpackImages] at ended
    split at ended
    · rw [← Option.some.inj ended]
      decide
    · split at ended
      · rw [← Option.some.inj ended]
        decide
      · split at ended
        · rw [← Option.some.inj ended]
          exact number.ne'
        · exact ih ended

theorem fitUnpackImage_other {image : LabelledNode} {path : CString} (other : path ≠ fitImagePath outdir image)
    (size pos : BitVec 32) (files : PathFiles) : fitUnpackImage junk fd outdir image size pos files path = files path :=
  Function.update_of_ne other _ _

theorem fitUnpackImages_other {images : List LabelledNode} {path : CString}
    (other : ∀ image ∈ images, path ≠ fitImagePath outdir image) (files : PathFiles) :
    (fitUnpackImages junk fd fdNumber outdir opens images files).2 path = files path := by
  induction images generalizing files with
  | nil => rfl
  | cons image rest ih =>
    obtain ⟨here, others⟩ := List.forall_mem_cons.mp other
    rw [fitUnpackImages]
    split
    · rfl
    · split
      · rfl
      · split
        · rfl
        · rw [ih others, fitUnpackImage_other here]

theorem fitUnpackImage_file {image : LabelledNode} {size pos : BitVec 32}
    (sized : fitImageWord image.unlabelled (cstr "data-size") = some size)
    (placed : fitImageWord image.unlabelled (cstr "data-position") = some pos)
    (inside : fd.start + fitImagePos image + fitImageSize image ≤ fd.file.size) (offsets : fd.file.size < 2 ^ 63)
    (files : PathFiles) : fitUnpackImage junk fd outdir image size pos files (fitImagePath outdir image) =
      some (((files (fitImagePath outdir image)).getD File.empty).writeAt 0 (fitImageBytes fd image)) := by
  have sizes : fitImageSize image = size.toNat := by rw [fitImageSize, sized, Option.getD_some]
  have places : fitImagePos image = pos.toNat := by rw [fitImagePos, placed, Option.getD_some]
  rw [sizes, places] at inside
  obtain ⟨_, target⟩ := dd64_files junk fd ⟨(files (fitImagePath outdir image)).getD File.empty, 0, 0⟩ size.toNat
    (show fd.start + pos.toNat < 2 ^ 63 by omega) (show 0 + 0 < 2 ^ 63 by decide)
  rw [fitUnpackImage, Function.update_self, target, Option.map_some, File.readAt_full _ _ _ inside, fitImageBytes, sizes, places]

/-- The file of an image is written once, over what was there. -/
theorem fitUnpackImages_file {images : List LabelledNode} (placed : FitImagesPlaced fd outdir images) {files : PathFiles}
    (through : (fitUnpackImages junk fd fdNumber outdir opens images files).1 = none) {image : LabelledNode}
    (member : image ∈ images) : (fitUnpackImages junk fd fdNumber outdir opens images files).2 (fitImagePath outdir image) =
      some (((files (fitImagePath outdir image)).getD File.empty).writeAt 0 (fitImageBytes fd image)) := by
  induction images generalizing files with
  | nil => exact absurd member List.not_mem_nil
  | cons first rest ih =>
    have names := List.nodup_cons.mp (placed.names : (first.name :: rest.map LabelledNode.name).Nodup)
    have apart : ∀ other ∈ rest, fitImagePath outdir first ≠ fitImagePath outdir other := by
      intro other there same
      have equal := fitImagePath_inj (placed.paths first List.mem_cons_self)
        (placed.paths other (List.mem_cons_of_mem _ there)) same
      exact names.1 (equal ▸ List.mem_map_of_mem there)
    have later : FitImagesPlaced fd outdir rest := {
      names := names.2
      paths := fun other there => placed.paths other (List.mem_cons_of_mem _ there)
      its := placed.its
      inside := fun other there => placed.inside other (List.mem_cons_of_mem _ there)
      offsets := placed.offsets }
    obtain ⟨⟨hasSize, hasPos, opened⟩, _⟩ := List.forall_mem_cons.mp ((fitUnpackImages_through _ _).mp through)
    obtain ⟨size, sized⟩ := Option.isSome_iff_exists.mp hasSize
    obtain ⟨pos, place⟩ := Option.isSome_iff_exists.mp hasPos
    rw [fitUnpackImages_step sized place opened] at through ⊢
    cases member with
    | head =>
      rw [fitUnpackImages_other apart]
      exact fitUnpackImage_file sized place (placed.inside image List.mem_cons_self) placed.offsets files
    | tail _ member => rw [ih later through member, fitUnpackImage_other (apart image member).symm]

end Files

section Unpacked

variable {fit : FdtTreeListing} {fd : Fd} {fdNumber : Int} {outdir : CString} {opens : CString → Bool} {images : LabelledNode}
  {files : PathFiles}

/-- It returns zero exactly if the loop comes through and `image.its` opens. -/
theorem fitUnpack_ret_iff (junk : Nat → Byte) (found : fit.root.findBypath (cstr "/images") = some images)
    (number : 0 < fdNumber) : (fitUnpack junk fd fdNumber outdir opens fit files).1 = 0 ↔
      (fitUnpackImages junk fd fdNumber outdir opens images.child files).1 = none ∧ opens (fitItsPath outdir) = true := by
  rw [fitUnpack, found]
  dsimp only
  cases loop : fitUnpackImages junk fd fdNumber outdir opens images.child files with
  | mk ended behind =>
    cases ended with
    | some ret =>
      have ends : (fitUnpackImages junk fd fdNumber outdir opens images.child files).1 = some ret := by rw [loop]
      exact iff_of_false (fitUnpackImages_ret number ends) fun both => absurd both.1 (Option.some_ne_none ret)
    | none =>
      dsimp only
      split
      · rename_i closed
        exact iff_of_false (show (-1 : Int) ≠ 0 by decide) fun both => absurd (closed.symm.trans both.2) Bool.false_ne_true
      · rename_i opened
        exact iff_of_true rfl ⟨rfl, Bool.eq_true_of_not_eq_false opened⟩

theorem fitUnpack_files (junk : Nat → Byte) (found : fit.root.findBypath (cstr "/images") = some images)
    (through : (fitUnpackImages junk fd fdNumber outdir opens images.child files).1 = none)
    (opened : opens (fitItsPath outdir) = true) : (fitUnpack junk fd fdNumber outdir opens fit files).2 =
      Function.update (fitUnpackImages junk fd fdNumber outdir opens images.child files).2 (fitItsPath outdir)
        (some (File.ofBytes (fitItsText fit))) := by
  rw [fitUnpack, found]
  dsimp only
  cases loop : fitUnpackImages junk fd fdNumber outdir opens images.child files with
  | mk ended behind =>
    rw [loop] at through
    have none : ended = none := through
    rw [none]
    dsimp only
    rw [opened, if_neg (Bool.false_ne_true ∘ Eq.symm)]

def kernelImage : LabelledNode := .mk (cstr "kernel") [] true []
  [.mk (cstr "data-size") [] false [0, 0, 0, 2] [], .mk (cstr "data-position") [] false [0, 0, 0, 1] []]

def kernelFit : FdtTreeListing :=
  ⟨⟨false, false, 0, fun _ _ _ _ => none⟩, false, false, false,
    .mk [47] [] true [] [.mk (cstr "images") [] true [] [kernelImage]], none⟩

def kernelFd : Fd := ⟨File.ofBytes [1, 2, 3, 4], 0, 0⟩

theorem kernelImage_words : fitImageWord kernelImage.unlabelled (cstr "data-size") = some 2 ∧
    fitImageWord kernelImage.unlabelled (cstr "data-position") = some 1 := by decide +kernel

end Unpacked

end ImgEditor
