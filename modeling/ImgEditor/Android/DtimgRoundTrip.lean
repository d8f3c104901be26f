import ImgEditor.Android.DtimgPack

namespace ImgEditor

open Storage CText

def blobOf (fd : Fd) (entry : DtTableEntry) : List Byte :=
  fd.file.readAt (fd.start + entry.dtOffset.toNat) entry.dtSize.toNat

/-- The blob of an entry is complete and a device tree that `fdt_editor_detect` accepts on its own, and its
board_id and board_rev, if it has them, are 32 bit numbers. -/
structure ValidBlob (fd : Fd) (entry : DtTableEntry) : Prop where
  inside : fd.start + entry.dtOffset.toNat + entry.dtSize.toNat ≤ fd.file.size
  header : 40 ≤ entry.dtSize.toNat
  tree : ∃ fdt, fdtEditorDetect ⟨File.ofBytes (blobOf fd entry), 0, 0⟩ = some fdt ∧
    Readable32 fdt.root (cstr "board_id") ∧ Readable32 fdt.root (cstr "board_rev")

/-- What `dtimg_unpack` reads of an image for a board. -/
structure DtimgBoard.Loaded (fd : Fd) (board : DtimgBoard) : Prop where
  blob : board.blob = blobOf fd board.entry
  size : board.blob.length = board.entry.dtSize.toNat
  near : fd.start + board.entry.dtOffset.toNat < 2 ^ 63
  tree : ∃ fdt, fdtEditorDetect (fd.virtualFileDup board.entry.dtOffset.toNat) = some fdt ∧ fdt.root = board.root

theorem ValidBlob.board {fd : Fd} {entry : DtTableEntry} (valid : ValidBlob fd entry) (near : fd.file.size < 2 ^ 63) :
    ∃ board : DtimgBoard, board.entry = entry ∧ board.Loaded fd ∧ board.Packable := by
  have inside := valid.inside
  have sized : (blobOf fd entry).length = entry.dtSize.toNat := by
    rw [blobOf, File.readAt_length]
    omega
  have far : fd.start + entry.dtOffset.toNat < 2 ^ 63 := by
    have header := valid.header
    omega
  obtain ⟨fdt, detected, id, rev⟩ := valid.tree
  have same : ∀ i, i < (File.ofBytes (blobOf fd entry)).size →
      (File.ofBytes (blobOf fd entry)).byte i = fd.file.byte (fd.start + entry.dtOffset.toNat + i) := by
    intro i bound
    rw [File.ofBytes_size, sized] at bound
    rw [File.ofBytes_byte, blobOf, File.readAt_full _ _ _ inside]
    exact File.slice_getD _ _ _ _ bound
  have stays := fdtDetect_inside (by rw [File.ofBytes_size, sized]; exact inside) far same detected
  exact ⟨⟨entry, fdt.root, blobOf fd entry⟩, rfl, ⟨rfl, sized, far, stays⟩,
    ⟨by rw [sized]; exact entry.dtSize.isLt, ⟨fdt, detected, rfl⟩, id, rev⟩⟩

theorem validBlobs_boards {fd : Fd} (near : fd.file.size < 2 ^ 63) {entries : List DtTableEntry}
    (valid : ∀ entry ∈ entries, ValidBlob fd entry) :
    ∃ boards : List DtimgBoard, boards.map DtimgBoard.entry = entries ∧
      ∀ board ∈ boards, board.Loaded fd ∧ board.Packable := by
  induction entries with
  | nil => exact ⟨[], rfl, by simp⟩
  | cons entry entries ih =>
    obtain ⟨board, rfl, loaded, packable⟩ := (valid entry List.mem_cons_self).board near
    obtain ⟨boards, rfl, all⟩ := ih fun other member => valid other (List.mem_cons_of_mem _ member)
    exists board :: boards
    constructor
    · rfl
    · intro other member
      rcases List.mem_cons.mp member with rfl | member
      · exact ⟨loaded, packable⟩
      · exact all other member

section Unpack

variable (junk : Nat → Byte) (p : DtimgPrivateData) {fd : Fd}

def writeBoards : DtimgDir → Nat → List DtimgBoard → DtimgDir
  | dir, _, [] => dir
  | dir, i, board :: rest => writeBoards (dir.writeFile (boardName i) (File.ofBytes board.blob)) (i + 1) rest

theorem dtimgUnpackLoop_boards {boards : List DtimgBoard} (loaded : ∀ board ∈ boards, board.Loaded fd) (i : Nat)
    (fp : List Byte) (dir : DtimgDir) :
    dtimgUnpackLoop junk p fd i (boards.map DtimgBoard.entry) fp dir =
      some (fp ++ entriesText p i boards, writeBoards dir i boards) := by
  induction boards generalizing i fp dir with
  | nil => simp [dtimgUnpackLoop, entriesText, writeBoards]
  | cons board rest ih =>
    obtain ⟨blob, _, near, fdt, detected, root⟩ := loaded board List.mem_cons_self
    obtain ⟨pos, copied⟩ := @dd64_files junk fd Fd.created board.entry.dtOffset.toNat 0 board.entry.dtSize.toNat near
      (show 0 + 0 < 2 ^ 63 by decide)
    have content : Fd.created.file.writeAt (Fd.created.start + 0)
        (fd.file.readAt (fd.start + board.entry.dtOffset.toNat) board.entry.dtSize.toNat) =
        File.ofBytes board.blob := by
      rw [blob, blobOf]
      exact Fd.created_writeAt _
    rw [List.map_cons, dtimgUnpackLoop, detected]
    simp only [Option.bind_eq_bind, Option.bind_some, copied, Option.getD_some, content, root]
    rw [ih fun other member => loaded other (List.mem_cons_of_mem _ member)]
    rw [entriesText, writeBoards, List.append_assoc]

theorem writeBoards_other {boards : List DtimgBoard} {i : Nat} {name : CString}
    (other : ∀ j, i ≤ j → j < i + boards.length → name ≠ boardName j) (dir : DtimgDir) :
    writeBoards dir i boards name = dir name := by
  induction boards generalizing i dir with
  | nil => rfl
  | cons board rest ih =>
    have here := other i (le_refl i) (by simp)
    rw [writeBoards, ih fun j lower upper => other j (by omega) (by simp only [List.length_cons]; omega)]
    rw [DtimgDir.writeFile, if_neg here]

theorem writeBoards_board {boards : List DtimgBoard} {i : Nat} (small : i + boards.length < 2 ^ 31) (dir : DtimgDir)
    (j : Nat) (board : DtimgBoard) (at_ : boards[j]? = some board) :
    writeBoards dir i boards (boardName (i + j)) = some (File.ofBytes board.blob) := by
  induction boards generalizing i j dir with
  | nil => cases at_
  | cons head rest ih =>
    simp only [List.length_cons] at small
    rw [writeBoards]
    cases j with
    | zero =>
      obtain rfl : head = board := by simpa using at_
      rw [writeBoards_other, DtimgDir.writeFile, Nat.add_zero, if_pos rfl]
      intro j lower upper same
      have index := boardName_injective (by omega) (by omega) same
      omega
    | succ j =>
      have later := @ih (i + 1) (by omega) (dir.writeFile (boardName i) (File.ofBytes head.blob)) j
        (by simpa using at_)
      rw [Nat.add_assoc, Nat.add_comm 1 j] at later
      exact later

theorem dtimgUnpack_boards {boards : List DtimgBoard} (loaded : ∀ board ∈ boards, board.Loaded fd)
    (entries : p.entries = boards.map DtimgBoard.entry) (counted : p.header.dtEntryCount.toNat = p.entries.length)
    (outdir : DtimgDir) :
    dtimgUnpack junk p fd outdir = some ((writeBoards outdir 0 boards).writeFile dtboimgCfg
      (File.ofBytes (dtimgUnpackGlobal p ++ ([10#8] ++ cstr "# entries") ++ entriesText p 0 boards))) := by
  have all : p.entries.take p.header.dtEntryCount.toNat = boards.map DtimgBoard.entry := by
    rw [counted, List.take_length, entries]
  have loop := dtimgUnpackLoop_boards junk p loaded 0 (dtimgUnpackGlobal p ++ ([10#8] ++ cstr "# entries")) outdir
  rw [dtimgUnpack, all, loop]
  rfl

end Unpack

theorem dtimgPack_boards (junk : Nat → Byte) (p : DtimgPrivateData) {boards : List DtimgBoard} (some_ : boards ≠ [])
    (small : 32 * boards.length ≤ 0x7ffff000) (packable : ∀ board ∈ boards, board.Packable) (outdir : DtimgDir) :
    let start : BitVec 32 := 32 + 32 * BitVec.ofNat 32 boards.length
    let dir := (writeBoards outdir 0 boards).writeFile dtboimgCfg
      (File.ofBytes (dtimgUnpackGlobal p ++ ([10#8] ++ cstr "# entries") ++ entriesText p 0 boards))
    ∃ out header, dtimgPack junk dir Fd.created = some out ∧
      dtimgDetect ⟨out.file, 0, 0⟩ = some ⟨header, packedEntries start boards⟩ ∧
      ∃ front, front.length = 32 + 32 * boards.length ∧
        out.file = (File.empty.writePieces (packedPieces start boards)).writeAt 0 front := by
  intro start dir
  have counted : (globalSection p :: boardSections p 0 boards).length - 1 = boards.length := by
    have sections : ∀ i, (boardSections p i boards).length = boards.length := by
      intro i
      clear some_ small packable start dir
      induction boards generalizing i with
      | nil => rfl
      | cons board rest ih => rw [boardSections, List.length_cons, List.length_cons, ih]
    rw [List.length_cons, sections, Nat.add_sub_cancel]
  have cfg : dir dtboimgCfg = some (File.ofBytes
      (dtimgUnpackGlobal p ++ ([10#8] ++ cstr "# entries") ++ entriesText p 0 boards)) := if_pos rfl
  have loaded := exiniLoad_config p some_ (show boards.length < 2 ^ 31 by omega)
  have found : exiniFindSection (globalSection p :: boardSections p 0 boards) DTBOCFG_GLOBAL_OPTION =
      some (globalSection p) := by
    rw [exiniFindSection, List.find?_cons_of_pos (by simp [globalSection])]
  have stored : ∀ j board, boards[j]? = some board → dir (boardName (0 + j)) = some (File.ofBytes board.blob) := by
    intro j board at_
    have written := writeBoards_board (i := 0) (show 0 + boards.length < 2 ^ 31 by omega) outdir j board at_
    rw [← written]
    exact if_neg boardName_ne.1
  obtain ⟨pos, loop⟩ := @dtimgPackLoop_boards junk p dir boards packable 0 stored [] rfl start Fd.created rfl
  rw [List.nil_append, List.nil_append] at loop
  have file := dtimgPackFinish_file ⟨packedEntries start boards, packedOffset start boards,
    ⟨Fd.created.file.writePieces (packedPieces start boards), 0, pos⟩⟩ rfl
    (by rw [packedEntries_length]; exact small)
  have detected := @dtimgDetect_table _ (packedOffset start boards) (packedEntries start boards)
    (by rw [packedEntries_length]; omega)
    ((Fd.created.file.writePieces (packedPieces start boards)).reads_writeAt 0 _)
  rw [← file] at detected
  simp only [packedEntries_length] at file detected
  refine ⟨_, _, ?_, detected, _, ?_, file⟩
  · rw [dtimgPack, cfg]
    simp only [Option.bind_eq_bind, Option.bind_some, File.ofBytes_content]
    rw [show (⟨true, none, EXINI_QUIRK_DTBOCFG⟩ : Exini) = dtbocfg from rfl, loaded]
    simp only [Option.bind_some, found, counted]
    have global : dtimgPackSection junk dir (globalSection p) 0 (globalSection p)
        ⟨List.replicate boards.length .zero, start, Fd.created⟩ =
        some ⟨List.replicate boards.length .zero, start, Fd.created⟩ := if_pos rfl
    rw [dtimgPackLoop, global]
    simp only [Option.bind_eq_bind, Option.bind_some]
    rw [loop]
    rfl
  · rw [List.length_append, be32Words_length, encodeDtEntries_length, packedEntries_length]
    rfl

section Offsets

variable {boards : List DtimgBoard} {offset : BitVec 32}

def sizesBefore (boards : List DtimgBoard) : Nat := (boards.dropLast.map fun board => board.blob.length).sum

theorem sizesBefore_cons (board : DtimgBoard) {rest : List DtimgBoard} (some_ : rest ≠ []) :
    sizesBefore (board :: rest) = board.blob.length + sizesBefore rest := by
  rw [sizesBefore, List.dropLast_cons_of_ne_nil some_, List.map_cons, List.sum_cons, sizesBefore]

theorem offset_next {board : DtimgBoard} (fits : offset.toNat + board.blob.length < 2 ^ 32) :
    (offset + BitVec.ofNat 32 board.blob.length).toNat = offset.toNat + board.blob.length := by
  rw [BitVec.toNat_add, BitVec.toNat_ofNat]
  omega

theorem packedPieces_placed (fits : offset.toNat + sizesBefore boards < 2 ^ 32) :
    packedPieces offset boards = placed id offset.toNat (boards.map DtimgBoard.blob) := by
  induction boards generalizing offset with
  | nil => rfl
  | cons board rest ih =>
    rw [packedPieces, List.map_cons, placed]
    by_cases last : rest = []
    · rw [last]
      rfl
    · rw [sizesBefore_cons board last] at fits
      have next := @offset_next offset board (by omega)
      rw [ih (by omega), next]
      rfl

theorem packedEntries_bounds (fits : offset.toNat + sizesBefore boards < 2 ^ 32)
    (small : ∀ board ∈ boards, board.blob.length < 2 ^ 32) :
    (∀ entry ∈ packedEntries offset boards, offset.toNat ≤ entry.dtOffset.toNat) ∧
      (packedEntries offset boards).Pairwise fun entry later =>
        entry.dtOffset.toNat + entry.dtSize.toNat ≤ later.dtOffset.toNat := by
  induction boards generalizing offset with
  | nil => simp [packedEntries]
  | cons board rest ih =>
    rw [packedEntries]
    have sized : (board.packed offset).dtSize.toNat = board.blob.length := by
      rw [DtimgBoard.packed, BitVec.toNat_ofNat]
      exact Nat.mod_eq_of_lt (small board List.mem_cons_self)
    have at_ : (board.packed offset).dtOffset.toNat = offset.toNat := rfl
    by_cases last : rest = []
    · subst last
      simp [packedEntries, at_]
    · rw [sizesBefore_cons board last] at fits
      have next := @offset_next offset board (by omega)
      obtain ⟨above, apart⟩ := @ih (offset + BitVec.ofNat 32 board.blob.length) (by omega)
        fun other member => small other (List.mem_cons_of_mem _ member)
      constructor
      · intro entry member
        rcases List.mem_cons.mp member with rfl | later
        · exact le_of_eq at_.symm
        · have behind := above entry later
          omega
      · apply List.pairwise_cons.mpr
        constructor
        · intro entry later
          have behind := above entry later
          omega
        · exact apart

theorem packedEntries_pieces (offset : BitVec 32) (boards : List DtimgBoard) :
    List.Forall₂ (fun board entry => board ∈ boards ∧ entry = board.packed entry.dtOffset ∧
        (entry.dtOffset.toNat, board.blob) ∈ packedPieces offset boards) boards (packedEntries offset boards) := by
  induction boards generalizing offset with
  | nil => exact .nil
  | cons board rest ih =>
    rw [packedEntries, packedPieces]
    apply List.Forall₂.cons
    · exact ⟨List.mem_cons_self, rfl, List.mem_cons_self⟩
    · apply (ih (offset + BitVec.ofNat 32 board.blob.length)).imp
      intro other entry stored
      exact ⟨List.mem_cons_of_mem _ stored.1, stored.2.1, List.mem_cons_of_mem _ stored.2.2⟩

end Offsets

structure SameBoard (fd fd' : Fd) (entry entry' : DtTableEntry) : Prop where
  id : entry'.id = entry.id
  rev : entry'.rev = entry.rev
  custom : entry'.custom = entry.custom
  blob : blobOf fd' entry' = blobOf fd entry

/-- A table with the same entries as another one, whose blobs lie behind the tables and apart. -/
structure SameTable (fd fd' : Fd) (p p' : DtimgPrivateData) : Prop where
  same : List.Forall₂ (SameBoard fd fd') p.entries p'.entries
  behind : ∀ entry ∈ p'.entries,
    sizeofDtTableHeader + sizeofDtTableEntry * p'.entries.length ≤ entry.dtOffset.toNat
  apart : p'.entries.Pairwise fun entry later =>
    entry.dtOffset.toNat + entry.dtSize.toNat ≤ later.dtOffset.toNat

theorem dtimgDetect_counted {fd : Fd} {p : DtimgPrivateData} (detected : dtimgDetect fd = some p) :
    p.header.dtEntryCount.toNat = p.entries.length := by
  obtain ⟨header, _, rest⟩ := Option.bind_eq_some_iff.mp detected
  simp only at rest
  split at rest
  · cases rest
  · split at rest
    · cases rest
    · obtain ⟨entries, _, result⟩ := Option.bind_eq_some_iff.mp rest
      obtain rfl := Option.some.inj result
      simp [decodeDtEntries]

theorem sizes_ge {boards : List DtimgBoard} (header : ∀ board ∈ boards, 40 ≤ board.blob.length) :
    40 * boards.length ≤ sizesBefore boards + 40 := by
  induction boards with
  | nil => simp
  | cons board rest ih =>
    have here := header board List.mem_cons_self
    have tail := ih fun other member => header other (List.mem_cons_of_mem _ member)
    rw [List.length_cons]
    by_cases last : rest = []
    · rw [last, List.length_nil]
      omega
    · rw [sizesBefore_cons board last]
      omega

theorem packed_sameTable {fd out : Fd} {p : DtimgPrivateData} {header : DtTableHeader} {boards : List DtimgBoard}
    {front : List Byte} {start : BitVec 32} (begins : start.toNat = 32 + 32 * boards.length)
    (entries : boards.map DtimgBoard.entry = p.entries) (loaded : ∀ board ∈ boards, board.Loaded fd)
    (fits : start.toNat + sizesBefore boards < 2 ^ 32) (length : front.length = 32 + 32 * boards.length)
    (file : out.file = (File.empty.writePieces (packedPieces start boards)).writeAt 0 front) (plain : out.start = 0) :
    SameTable fd out p ⟨header, packedEntries start boards⟩ := by
  have small : ∀ board ∈ boards, board.blob.length < 2 ^ 32 := by
    intro board member
    rw [(loaded board member).size]
    exact board.entry.dtSize.isLt
  obtain ⟨above, apart⟩ := packedEntries_bounds fits small
  have reads : ∀ piece ∈ packedPieces start boards, out.file.Reads piece.1 piece.2 := by
    intro piece member
    rw [file]
    rw [packedPieces_placed fits] at member ⊢
    have inside := placed_inside (fun _ _ => le_refl _) piece member
    apply (writePieces_reads (fun _ _ => le_refl _) piece member).writeAt
    omega
  constructor
  · rw [← entries, List.forall₂_map_left_iff]
    apply (packedEntries_pieces start boards).imp
    intro board entry stored
    obtain ⟨member, shape, piece⟩ := stored
    have sized : entry.dtSize.toNat = board.blob.length := by
      rw [shape, DtimgBoard.packed, BitVec.toNat_ofNat]
      exact Nat.mod_eq_of_lt (small board member)
    constructor
    · rw [shape]
      rfl
    · rw [shape]
      rfl
    · rw [shape]
      rfl
    · rw [blobOf, plain, Nat.zero_add, sized, reads _ piece]
      exact (loaded board member).blob
  · intro entry member
    have behind := above entry member
    simp only [packedEntries_length, sizeofDtTableHeader, sizeofDtTableEntry]
    omega
  · exact apart

def emptyTree : List Byte :=
  be32Words [FDT_MAGIC, 72, 56, 72, 40, 17, 16, 0, 0, 16, 0, 0, 0, 0, FDT_BEGIN_NODE, 0, FDT_END_NODE, FDT_END]

theorem emptyTree_length : emptyTree.length = 72 := by
  rw [emptyTree, be32Words_length]
  rfl

theorem emptyTree_detect : ∃ fdt, fdtEditorDetect ⟨File.ofBytes emptyTree, 0, 0⟩ = some fdt ∧
    fdt.root = .mk [47#8] true [] [] := by
  have whole : ∀ count, 72 ≤ count → (File.ofBytes emptyTree).readAt 0 count = emptyTree := by
    intro count enough
    rw [File.readAt, File.ofBytes_size, emptyTree_length, Nat.min_eq_right enough, ← emptyTree_length]
    exact File.ofBytes_content emptyTree
  have header : (File.ofBytes emptyTree).readAt 0 40 = emptyTree.take 40 := by
    rw [File.readAt_full _ _ _ (by rw [File.ofBytes_size, emptyTree_length]; decide), ← File.slice_take _ 0 72 40 (by decide),
      ← emptyTree_length]
    exact congrArg (List.take 40) (File.ofBytes_content emptyTree)
  have checked : fdtCheckHeader (emptyTree.take 40) = some 72 := by decide +kernel
  have tree : fdtUnflatten emptyTree 72 = some (.mk [47#8] true [] []) := by rfl
  rw [fdtEditorDetect, fdtDetect_eq _ _ (by decide), header, checked, Option.bind_some, whole _ (by decide), tree]
  exact ⟨_, rfl, rfl⟩

theorem emptyTree_valid {fd : Fd} {entry : DtTableEntry}
    (inside : fd.start + entry.dtOffset.toNat + entry.dtSize.toNat ≤ fd.file.size) (long : 72 ≤ entry.dtSize.toNat)
    (reads : fd.file.Reads (fd.start + entry.dtOffset.toNat) emptyTree) : ValidBlob fd entry := by
  have sized : (File.ofBytes (blobOf fd entry)).size = entry.dtSize.toNat := by
    rw [File.ofBytes_size, blobOf, File.readAt_length]
    omega
  have same : ∀ i, i < (File.ofBytes emptyTree).size →
      (File.ofBytes emptyTree).byte i = (File.ofBytes (blobOf fd entry)).byte (0 + i) := by
    intro i bound
    rw [File.ofBytes_size] at bound
    have stored := File.slice_getD fd.file (fd.start + entry.dtOffset.toNat) emptyTree.length i bound
    rw [reads.slice] at stored
    rw [File.ofBytes_byte, stored, Nat.zero_add, File.ofBytes_byte, blobOf, File.readAt_full _ _ _ inside]
    rw [emptyTree_length] at bound
    exact (File.slice_getD _ _ _ _ (by omega)).symm
  obtain ⟨fdt, detected, root⟩ := emptyTree_detect
  obtain ⟨fdt', stays, sameRoot⟩ := fdtDetect_inside
    (by rw [File.ofBytes_size, emptyTree_length, sized]; omega) (by decide) same detected
  have readable : ∀ name, Readable32 fdt'.root name := by
    intro name node found
    rw [sameRoot, root] at found
    cases found
  exact ⟨inside, by omega, fdt', stays, readable _, readable _⟩

def oneBoard : DtTableEntry := ⟨72, 64, 7, 0, ![5, 0, 0, 1]⟩

def oneBoardImage : File := File.ofBytes
  ((be32Words (dtimgPackHeader 1 136).words ++ encodeDtEntries [oneBoard]) ++ emptyTree)

theorem oneBoardImage_detect : oneBoardImage.size = 136 ∧
    dtimgDetect ⟨oneBoardImage, 0, 0⟩ = some ⟨dtimgPackHeader 1 136, [oneBoard]⟩ ∧
      ValidBlob ⟨oneBoardImage, 0, 0⟩ oneBoard := by
  have headed := dtimgPackHeader_length 1 136
  have table : (be32Words (dtimgPackHeader 1 136).words ++ encodeDtEntries [oneBoard]).length = 64 := by
    rw [List.length_append, headed, encodeDtEntries_length]
    rfl
  obtain ⟨tables, tree⟩ := (ofBytes_reads
    ((be32Words (dtimgPackHeader 1 136).words ++ encodeDtEntries [oneBoard]) ++ emptyTree)).append
  rw [table] at tree
  have size : oneBoardImage.size = 136 := by
    rw [oneBoardImage, File.ofBytes_size, List.length_append, table, emptyTree_length]
  refine ⟨size, @dtimgDetect_table _ 136 [oneBoard] (by decide) tables, ?_⟩
  apply emptyTree_valid
  · rw [size]
    decide
  · decide
  · exact tree

/-- Two entries that share one tree; the first one takes the image up to 4 GiB. -/
def sharedBoards : List DtTableEntry := [⟨0xffffffa0, 96, 1, 0, ![0, 0, 0, 0]⟩, ⟨72, 96, 2, 0, ![0, 0, 0, 0]⟩]

def sharedImage : File :=
  (File.ofBytes ((be32Words (dtimgPackHeader 2 0).words ++ encodeDtEntries sharedBoards) ++ emptyTree)).writeAt
    (2 ^ 32 - 1) [0#8]

theorem sharedImage_detect : sharedImage.size = 2 ^ 32 ∧
    dtimgDetect ⟨sharedImage, 0, 0⟩ = some ⟨dtimgPackHeader 2 0, sharedBoards⟩ ∧
      ∀ entry ∈ sharedBoards, ValidBlob ⟨sharedImage, 0, 0⟩ entry := by
  have headed := dtimgPackHeader_length 2 0
  have table : (be32Words (dtimgPackHeader 2 0).words ++ encodeDtEntries sharedBoards).length = 96 := by
    rw [List.length_append, headed, encodeDtEntries_length]
    rfl
  have whole := ofBytes_reads ((be32Words (dtimgPackHeader 2 0).words ++ encodeDtEntries sharedBoards) ++ emptyTree)
  have length : ((be32Words (dtimgPackHeader 2 0).words ++ encodeDtEntries sharedBoards) ++ emptyTree).length = 168 := by
    rw [List.length_append, table, emptyTree_length]
  have kept := @File.Reads.writeAt _ 0 (2 ^ 32 - 1) _ [0#8] whole (Or.inl (by rw [length]; decide))
  obtain ⟨tables, tree⟩ := kept.append
  rw [table] at tree
  have size : sharedImage.size = 2 ^ 32 := by
    rw [sharedImage, File.writeAt_size _ _ _ (by simp), File.ofBytes_size, length]
    rfl
  refine ⟨size, @dtimgDetect_table _ 0 sharedBoards (by decide) tables, ?_⟩
  intro entry member
  simp only [sharedBoards, List.mem_cons, List.not_mem_nil, or_false] at member
  rcases member with rfl | rfl
  · apply emptyTree_valid
    · rw [size]
      decide
    · decide
    · exact tree
  · apply emptyTree_valid
    · rw [size]
      decide
    · decide
    · exact tree

end ImgEditor
