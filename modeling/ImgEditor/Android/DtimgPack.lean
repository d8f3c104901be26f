import ImgEditor.Android.DtimgEntry
import ImgEditor.Storage.Placement

namespace ImgEditor

open Storage CText

namespace DtimgBoard

structure Packable (board : DtimgBoard) : Prop where
  small : board.blob.length < 2 ^ 32
  tree : ∃ fdt, fdtEditorDetect ⟨File.ofBytes board.blob, 0, 0⟩ = some fdt ∧ fdt.root = board.root
  id : Readable32 board.root (cstr "board_id")
  rev : Readable32 board.root (cstr "board_rev")

def packed (board : DtimgBoard) (offset : BitVec 32) : DtTableEntry :=
  { board.entry with dtOffset := offset, dtSize := BitVec.ofNat 32 board.blob.length }

end DtimgBoard

def packedEntries : BitVec 32 → List DtimgBoard → List DtTableEntry
  | _, [] => []
  | offset, board :: rest =>
    board.packed offset :: packedEntries (offset + BitVec.ofNat 32 board.blob.length) rest

def packedPieces : BitVec 32 → List DtimgBoard → List (Nat × List Byte)
  | _, [] => []
  | offset, board :: rest =>
    (offset.toNat, board.blob) :: packedPieces (offset + BitVec.ofNat 32 board.blob.length) rest

def packedOffset : BitVec 32 → List DtimgBoard → BitVec 32
  | offset, [] => offset
  | offset, board :: rest => packedOffset (offset + BitVec.ofNat 32 board.blob.length) rest

@[simp] theorem packedEntries_length (offset : BitVec 32) (boards : List DtimgBoard) :
    (packedEntries offset boards).length = boards.length := by
  induction boards generalizing offset with
  | nil => rfl
  | cons board rest ih => rw [packedEntries, List.length_cons, List.length_cons, ih]

section Pack

variable (junk : Nat → Byte) (p : DtimgPrivateData) {dir : DtimgDir}

theorem dtimgPackSection_board {board : DtimgBoard} (packable : board.Packable) {k : Nat}
    (stored : dir (boardName k) = some (File.ofBytes board.blob)) {done later : List DtTableEntry}
    (filled : done.length = k) {offset : BitVec 32} {out : Fd} (plain : out.start = 0) :
    ∃ pos, dtimgPackSection junk dir (globalSection p) (k + 1) (boardSection p board (boardName k))
        ⟨done ++ .zero :: later, offset, out⟩ =
      some ⟨done ++ board.packed offset :: later, offset + BitVec.ofNat 32 board.blob.length,
        ⟨out.file.writeAt offset.toNat board.blob, 0, pos⟩⟩ := by
  obtain ⟨fdt, detected, root⟩ := packable.tree
  have length : (BitVec.ofNat 32 board.blob.length).toNat = board.blob.length := by
    rw [BitVec.toNat_ofNat]
    exact Nat.mod_eq_of_lt packable.small
  have named : (boardSection p board (boardName k)).name = boardName k := rfl
  have index : k + 1 - 1 = k := rfl
  have fresh : (done ++ DtTableEntry.zero :: later).getD k .zero = .zero := by
    simp [← filled]
  have placed : (done ++ DtTableEntry.zero :: later).set k (board.packed offset) = done ++ board.packed offset :: later := by
    simp [← filled]
  have entry := dtimgInitEntry_board p board (boardName k) packable.id packable.rev
  have far : out.start + offset.toNat < 2 ^ 63 := by
    have bound := offset.isLt
    omega
  obtain ⟨pos, copied⟩ := dd64_files junk ⟨File.ofBytes board.blob, 0, 0⟩ out board.blob.length
    (show 0 + 0 < 2 ^ 63 by decide) far
  rw [plain, Nat.zero_add, Nat.zero_add] at copied
  rw [ofBytes_reads board.blob] at copied
  exists pos
  rw [dtimgPackSection, if_neg (by rw [named]; exact boardName_ne.2), named, stored]
  simp only [Option.bind_eq_bind, Option.bind_some, detected, root, index, fresh, entry, dtimgPackEntry,
    File.ofBytes_size, length, copied, Option.getD_some, Option.pure_def]
  rw [← placed]
  rfl

theorem dtimgPackLoop_boards {boards : List DtimgBoard} (packable : ∀ board ∈ boards, board.Packable) {k : Nat}
    (stored : ∀ j board, boards[j]? = some board → dir (boardName (k + j)) = some (File.ofBytes board.blob))
    {done : List DtTableEntry} (filled : done.length = k) {offset : BitVec 32} {out : Fd} (plain : out.start = 0) :
    ∃ pos, dtimgPackLoop junk dir (globalSection p) (k + 1) (boardSections p k boards)
        ⟨done ++ List.replicate boards.length .zero, offset, out⟩ =
      some ⟨done ++ packedEntries offset boards, packedOffset offset boards,
        ⟨out.file.writePieces (packedPieces offset boards), 0, pos⟩⟩ := by
  induction boards generalizing k done offset out with
  | nil =>
    exists out.pos
    rw [boardSections, dtimgPackLoop, ← plain]
    rfl
  | cons board rest ih =>
    obtain ⟨pos, first⟩ := @dtimgPackSection_board junk p dir board (packable board List.mem_cons_self) k
      (stored 0 board rfl) done (List.replicate rest.length .zero) filled offset out plain
    obtain ⟨pos', others⟩ := @ih (fun other member => packable other (List.mem_cons_of_mem _ member)) (k + 1)
      (fun j other at_ => by
        rw [Nat.add_assoc, Nat.add_comm 1 j]
        exact stored (j + 1) other at_)
      (done ++ [board.packed offset]) (by simp [filled]) (offset + BitVec.ofNat 32 board.blob.length)
      ⟨out.file.writeAt offset.toNat board.blob, 0, pos⟩ rfl
    exists pos'
    rw [boardSections, dtimgPackLoop, List.length_cons, List.replicate_succ]
    rw [boardSection] at first
    rw [first]
    simp only [List.append_assoc, List.singleton_append] at others
    exact others

end Pack

theorem DtTableHeader.decode_words (header : DtTableHeader) : .decode (be32Words header.words) = header := by
  have word : ∀ {i : Nat} {word : BitVec 32}, header.words[i]? = some word →
      be32 (be32Words header.words) (4 * i) = word := by
    intro i word at_
    have read := @be32_be32Words _ [] _ _ at_
    rwa [List.append_nil] at read
  have h0 := @word 0 header.magic rfl
  have h1 := @word 1 header.totalSize rfl
  have h2 := @word 2 header.headerSize rfl
  have h3 := @word 3 header.dtEntrySize rfl
  have h4 := @word 4 header.dtEntryCount rfl
  have h5 := @word 5 header.dtEntriesOffset rfl
  have h6 := @word 6 header.pageSize rfl
  have h7 := @word 7 header.version rfl
  simp only [Nat.reduceMul] at h0 h1 h2 h3 h4 h5 h6 h7
  rw [DtTableHeader.decode, h0, h1, h2, h3, h4, h5, h6, h7]

theorem DtTableEntry.decode_words (entry : DtTableEntry) (rest : List Byte) :
    .decode (be32Words entry.words ++ rest) = entry := by
  have word : ∀ {i : Nat} {word : BitVec 32}, entry.words[i]? = some word →
      be32 (be32Words entry.words ++ rest) (4 * i) = word := be32_be32Words
  have h0 := @word 0 entry.dtSize rfl
  have h1 := @word 1 entry.dtOffset rfl
  have h2 := @word 2 entry.id rfl
  have h3 := @word 3 entry.rev rfl
  have customs : (fun i : Fin 4 => be32 (be32Words entry.words ++ rest) (16 + 4 * i)) = entry.custom := by
    funext ⟨i, bound⟩
    have cases : i = 0 ∨ i = 1 ∨ i = 2 ∨ i = 3 := by omega
    rcases cases with rfl | rfl | rfl | rfl
    · exact @word 4 _ rfl
    · exact @word 5 _ rfl
    · exact @word 6 _ rfl
    · exact @word 7 _ rfl
  simp only [Nat.reduceMul] at h0 h1 h2 h3
  rw [DtTableEntry.decode, h0, h1, h2, h3, customs]

theorem encodeDtEntries_cons (entry : DtTableEntry) (entries : List DtTableEntry) :
    encodeDtEntries (entry :: entries) = be32Words entry.words ++ encodeDtEntries entries := by
  simp [encodeDtEntries, be32Words]

@[simp] theorem encodeDtEntries_length (entries : List DtTableEntry) :
    (encodeDtEntries entries).length = 32 * entries.length := by
  induction entries with
  | nil => rfl
  | cons entry entries ih =>
    rw [encodeDtEntries_cons, List.length_append, ih, be32Words_length, List.length_cons]
    simp only [DtTableEntry.words, List.length_cons, List.length_nil]
    omega

theorem decodeDtEntries_encode (entries : List DtTableEntry) :
    decodeDtEntries entries.length (encodeDtEntries entries) = entries := by
  induction entries with
  | nil => rfl
  | cons entry entries ih =>
    have skipped : ∀ i, (encodeDtEntries (entry :: entries)).drop (sizeofDtTableEntry * (i + 1)) =
        (encodeDtEntries entries).drop (sizeofDtTableEntry * i) := by
      intro i
      have front : (be32Words entry.words).length = sizeofDtTableEntry := by
        rw [be32Words_length]
        rfl
      rw [encodeDtEntries_cons, Nat.mul_succ, Nat.add_comm, ← List.drop_drop, List.drop_left' front]
    rw [decodeDtEntries, List.length_cons, List.range_succ_eq_map, List.map_cons, List.map_map, Nat.mul_zero,
      List.drop_zero, encodeDtEntries_cons, DtTableEntry.decode_words, ← encodeDtEntries_cons]
    have tail : (List.range entries.length).map ((fun i => DtTableEntry.decode
        ((encodeDtEntries (entry :: entries)).drop (sizeofDtTableEntry * i))) ∘ Nat.succ) = entries := by
      rw [decodeDtEntries] at ih
      apply Eq.trans _ ih
      apply List.map_congr_left
      intro i _
      rw [Function.comp_apply, skipped]
    rw [tail]

theorem dtimgPackHeader_length (count totalSize : BitVec 32) :
    (be32Words (dtimgPackHeader count totalSize).words).length = 32 := by
  rw [be32Words_length]
  rfl

theorem dtimgPackHeader_table {n : Nat} (small : 32 * n < 2 ^ 32) (totalSize : BitVec 32) :
    ((dtimgPackHeader (BitVec.ofNat 32 n) totalSize).dtEntrySize * BitVec.ofNat 32 n).toNat = 32 * n := by
  rw [BitVec.toNat_mul, BitVec.toNat_ofNat]
  show 32 * (n % 2 ^ 32) % 2 ^ 32 = _
  omega

theorem dtimgDetect_table {f : File} {totalSize : BitVec 32} {entries : List DtTableEntry}
    (small : 32 * entries.length < 2 ^ 32)
    (reads : f.Reads 0 (be32Words (dtimgPackHeader (BitVec.ofNat 32 entries.length) totalSize).words ++
      encodeDtEntries entries)) :
    dtimgDetect ⟨f, 0, 0⟩ = some ⟨dtimgPackHeader (BitVec.ofNat 32 entries.length) totalSize, entries⟩ := by
  have headed := dtimgPackHeader_length (BitVec.ofNat 32 entries.length) totalSize
  have sized := dtimgPackHeader_table small totalSize
  have counted : (BitVec.ofNat 32 entries.length).toNat = entries.length := by
    rw [BitVec.toNat_ofNat]
    omega
  obtain ⟨header, table⟩ := reads.append
  rw [headed, Nat.zero_add] at table
  rw [File.Reads, headed] at header
  rw [File.Reads, encodeDtEntries_length] at table
  have readHeader : fileread ⟨f, 0, 0⟩ sizeofDtTableHeader =
      some (be32Words (dtimgPackHeader (BitVec.ofNat 32 entries.length) totalSize).words) := by
    simp only [fileread, sizeofDtTableHeader, header, headed, ↓reduceIte]
  have seekTable : ((⟨f, 0, 0⟩ : Fd).fileseek 32).pos = 32 := Fd.fileseek_pos _ _ (show 0 + 32 < 2 ^ 63 by decide)
  have readTable : fileread ((⟨f, 0, 0⟩ : Fd).fileseek 32) (32 * entries.length) = some (encodeDtEntries entries) := by
    simp only [fileread, seekTable, Fd.fileseek_file, table, encodeDtEntries_length, ↓reduceIte]
  have accepted : ¬ ∃ checked ∈ dtimgSections (dtimgPackHeader (BitVec.ofNat 32 entries.length) totalSize),
      checked.1 ≠ checked.2 := by
    simp [dtimgSections, dtimgPackHeader]
  have offset : (dtimgPackHeader (BitVec.ofNat 32 entries.length) totalSize).dtEntriesOffset.toNat = 32 := rfl
  have counts : (dtimgPackHeader (BitVec.ofNat 32 entries.length) totalSize).dtEntryCount =
      BitVec.ofNat 32 entries.length := rfl
  rw [dtimgDetect, readHeader]
  simp only [Option.bind_eq_bind, Option.bind_some, DtTableHeader.decode_words, accepted, ↓reduceIte, offset,
    sizeofDtTableHeader, Nat.lt_irrefl, counts]
  rw [BitVec.mul_comm, sized, readTable, Option.bind_some, counted, decodeDtEntries_encode]
  rfl

theorem dtimgPackFinish_file (st : DtimgPack) (plain : st.out.start = 0) (small : 32 * st.entries.length ≤ 0x7ffff000) :
    (dtimgPackFinish (BitVec.ofNat 32 st.entries.length) st).file = st.out.file.writeAt 0
      (be32Words (dtimgPackHeader (BitVec.ofNat 32 st.entries.length) st.dataOffset).words ++
        encodeDtEntries st.entries) := by
  have sized := @dtimgPackHeader_table st.entries.length (by omega) st.dataOffset
  have headed := dtimgPackHeader_length (BitVec.ofNat 32 st.entries.length) st.dataOffset
  have seek : (st.out.fileseek 0).pos = 0 := by
    rw [Fd.fileseek_pos _ _ (by rw [plain]; decide), plain]
  have table : (encodeDtEntries st.entries).take (32 * st.entries.length) = encodeDtEntries st.entries :=
    List.take_of_length_le (by rw [encodeDtEntries_length])
  have uncut : (encodeDtEntries st.entries).take 0x7ffff000 = encodeDtEntries st.entries :=
    List.take_of_length_le (by rw [encodeDtEntries_length]; exact small)
  rw [← File.writeAt_append, headed]
  simp only [dtimgPackFinish, sized, table, uncut, Fd.write, seek, Fd.fileseek_file, headed]

end ImgEditor
