import ImgEditor.Fs.F2fs
import ImgEditor.Storage.BlockIndex
import Mathlib.Data.Option.Basic

namespace ImgEditor

open Storage

/-- The node blocks as an index, with node numbers for entries above the blocks. -/
def f2fsIndex (p : F2fsEditor) : BlockIndex where
  fanout := NIDS_PER_BLOCK
  entries nid := do
    let entry ← f2fsGetNatEntry p nid
    let blkbuf ← f2fsAllocReadBlock p entry.blockAddr
    some (f2fsNodeWords blkbuf NIDS_PER_BLOCK)
  complete := by
    intro nid list found
    obtain ⟨entry, _, rest⟩ := Option.bind_eq_some_iff.mp found
    obtain ⟨blkbuf, _, words⟩ := Option.bind_eq_some_iff.mp rest
    rw [← Option.some.inj words]
    simp [f2fsNodeWords]

def iNidLevel (i : Nat) : Nat := if i < 2 then 1 else if i < 4 then 2 else 3

def f2fsRoots (inode : List Byte) : List (Nat × Nat) :=
  ((List.range DEF_ADDRS_PER_INODE).map fun i => (0, iAddr inode i)) ++
    (List.range DEF_NIDS_PER_INODE).map fun i => (iNidLevel i, iNid inode i)

def fileAddr (p : F2fsEditor) (inode : List Byte) (k : Nat) : Option Nat :=
  (f2fsIndex p).forestLookup (f2fsRoots inode) k

def fileSlots (p : F2fsEditor) (inode : List Byte) : Option (List Nat) :=
  (f2fsIndex p).forestSlots (f2fsRoots inode)

theorem f2fsIndex_fanout (p : F2fsEditor) : 0 < (f2fsIndex p).fanout := Nat.succ_pos 1017

theorem fileSlots_addr {p : F2fsEditor} {inode : List Byte} {slots : List Nat} (found : fileSlots p inode = some slots)
    (k : Nat) : fileAddr p inode k = some (slots.getD k 0) :=
  BlockIndex.forestSlots_lookup (f2fsIndex_fanout p) found k

section Walk

def Appends (step : F2fsInodeBlocks → Nat → Option F2fsInodeBlocks) (found : Nat → Option (List Nat)) (n : Nat) : Prop :=
  ∀ b, (step b n).map F2fsInodeBlocks.blocks = (found n).map (b.blocks ++ ·)

theorem foldlM_appends {step : F2fsInodeBlocks → Nat → Option F2fsInodeBlocks} {found : Nat → Option (List Nat)}
    {list : List Nat} (appends : ∀ n ∈ list, Appends step found n) (b : F2fsInodeBlocks) :
    (list.foldlM step b).map F2fsInodeBlocks.blocks = (gather found list).map (b.blocks ++ ·) := by
  induction list generalizing b with
  | nil => simp [gather]
  | cons n rest ih =>
    have first := appends n List.mem_cons_self b
    have tail := ih fun m among => appends m (List.mem_cons_of_mem _ among)
    rw [List.foldlM_cons, gather]
    cases here : found n with
    | none =>
      rw [here, Option.map_none, Option.map_eq_none_iff] at first
      rw [first]
      rfl
    | some head =>
      rw [here, Option.map_some, Option.map_eq_some_iff] at first
      obtain ⟨next, stepped, blocks⟩ := first
      rw [stepped, Option.bind_eq_bind, Option.bind_some, tail next, blocks]
      cases gather found rest <;> simp

theorem push_appends (ix : BlockIndex) (n : Nat) : Appends f2fsInodeBlocksPush (ix.walk 0) n := fun _ => rfl

theorem readBlock_appends {p : F2fsEditor} {todo : F2fsInodeBlocks → Nat → Option F2fsInodeBlocks} {level : Nat}
    (appends : ∀ n, Appends todo ((f2fsIndex p).walk level) n) (nid : Nat) :
    Appends (f2fsInodeReadBlock p todo NIDS_PER_BLOCK) ((f2fsIndex p).walk (level + 1)) nid := by
  intro b
  have skips (n : Nat) : Appends (fun b n => if n = 0 then some b else todo (b.mark n) n)
      (fun n => if n = 0 then some [] else (f2fsIndex p).walk level n) n := by
    intro b
    by_cases zero : n = 0
    · simp [zero]
    · simp only [if_neg zero]
      exact appends n (b.mark n)
  rw [f2fsInodeReadBlock, BlockIndex.walk]
  cases entry : f2fsGetNatEntry p nid with
  | none =>
    have missing : (f2fsIndex p).entries nid = none := by simp [f2fsIndex, entry]
    rw [missing]
    rfl
  | some entry' =>
    cases read : f2fsAllocReadBlock p entry'.blockAddr with
    | none =>
      have missing : (f2fsIndex p).entries nid = none := by simp [f2fsIndex, entry, read]
      rw [missing]
      simp [read]
    | some blkbuf =>
      have words : (f2fsIndex p).entries nid = some (f2fsNodeWords blkbuf NIDS_PER_BLOCK) := by
        simp [f2fsIndex, entry, read]
      have run := foldlM_appends (fun n (_ : n ∈ f2fsNodeWords blkbuf NIDS_PER_BLOCK) => skips n)
        (b.mark entry'.blockAddr)
      rw [gather_skip] at run
      rw [words]
      simp only [Option.bind_eq_bind, Option.bind_some, read]
      exact run

theorem nidPush_appends (p : F2fsEditor) (inode : List Byte) {i : Nat} (inside : i < DEF_NIDS_PER_INODE) :
    Appends (fun b i => f2fsInodeNidPush p b i (iNid inode i))
      (fun i => (f2fsIndex p).present (iNidLevel i, iNid inode i)) i := by
  have direct := readBlock_appends (push_appends (f2fsIndex p))
  have indirect := readBlock_appends direct
  have doubleIndirect := readBlock_appends indirect
  intro b
  unfold f2fsInodeNidPush BlockIndex.present
  by_cases zero : iNid inode i = 0
  · simp [zero]
  simp only [if_neg zero]
  match i, inside with
  | 0, _ => exact direct _ b
  | 1, _ => exact direct _ b
  | 2, _ => exact indirect _ b
  | 3, _ => exact indirect _ b
  | 4, _ => exact doubleIndirect _ b

theorem addrPush_appends (p : F2fsEditor) (inode : List Byte) (i : Nat) :
    Appends (fun b i => if iAddr inode i = 0 then some b else f2fsInodeBlocksPush b (iAddr inode i))
      (fun i => (f2fsIndex p).present (0, iAddr inode i)) i := by
  intro b
  unfold BlockIndex.present
  by_cases zero : iAddr inode i = 0
  · simp [zero]
  · simp only [if_neg zero]
    exact push_appends _ _ b

theorem f2fsInodeBlocksRead_eq (p : F2fsEditor) (inode : List Byte) :
    f2fsInodeBlocksRead p inode = (fileSlots p inode).map (List.filter (· ≠ 0)) := by
  have roots : fileSlots p inode = (f2fsIndex p).forestSlots (f2fsRoots inode) := rfl
  rw [roots, ← BlockIndex.gather_present, f2fsRoots, gather_append, gather_map, gather_map]
  have addrs := foldlM_appends (fun i (_ : i ∈ List.range DEF_ADDRS_PER_INODE) => addrPush_appends p inode i) ⟨[], none⟩
  have nids := foldlM_appends fun i (inside : i ∈ List.range DEF_NIDS_PER_INODE) =>
    nidPush_appends p inode (List.mem_range.mp inside)
  rw [f2fsInodeBlocksRead, f2fsInodeBlocksReadMarked]
  cases front : gather (fun i => (f2fsIndex p).present (0, iAddr inode i)) (List.range DEF_ADDRS_PER_INODE) with
  | none =>
    rw [front, Option.map_none, Option.map_eq_none_iff] at addrs
    rw [addrs]
    rfl
  | some head =>
    rw [front, Option.map_some, Option.map_eq_some_iff] at addrs
    obtain ⟨b, run, blocks⟩ := addrs
    rw [run, Option.bind_eq_bind, Option.bind_some, nids b, blocks]
    rfl

theorem fileSlots_flat (p : F2fsEditor) {inode : List Byte} (nids : ∀ i < DEF_NIDS_PER_INODE, iNid inode i = 0) :
    ∃ holes, fileSlots p inode = some ((List.range DEF_ADDRS_PER_INODE).map (iAddr inode) ++ holes) ∧
      holes.filter (· ≠ 0) = [] := by
  have addrs (list : List Nat) : gather (fun i => (f2fsIndex p).slots 0 (iAddr inode i)) list =
      some (list.map (iAddr inode)) := by
    induction list with
    | nil => rfl
    | cons i rest ih =>
      rw [gather, ih]
      rfl
  have zeros (list : List Nat) (among : ∀ i ∈ list, i < DEF_NIDS_PER_INODE) :
      ∃ holes, gather (fun i => (f2fsIndex p).slots (iNidLevel i) (iNid inode i)) list = some holes ∧
        holes.filter (· ≠ 0) = [] := by
    induction list with
    | nil => exact ⟨[], rfl, rfl⟩
    | cons i rest ih =>
      obtain ⟨holes, found, none⟩ := ih fun j later => among j (List.mem_cons_of_mem _ later)
      have level : ∃ level, iNidLevel i = level + 1 := by
        unfold iNidLevel
        split
        · exact ⟨0, rfl⟩
        · split
          · exact ⟨1, rfl⟩
          · exact ⟨2, rfl⟩
      obtain ⟨level, eq⟩ := level
      refine ⟨List.replicate ((f2fsIndex p).fanout ^ (level + 1)) 0 ++ holes, ?_, ?_⟩
      · rw [gather, found, nids i (among i List.mem_cons_self), eq, BlockIndex.slots, if_pos rfl]
        rfl
      · rw [List.filter_append, none]
        simp
  obtain ⟨holes, found, none⟩ := zeros (List.range DEF_NIDS_PER_INODE) fun i inside => List.mem_range.mp inside
  refine ⟨holes, ?_, none⟩
  rw [fileSlots, BlockIndex.forestSlots, f2fsRoots, gather_append, gather_map, gather_map, addrs, found]
  rfl

end Walk

section Detected

theorem f2fsDetect_blockSize {fd : Fd} {p : F2fsEditor} (detected : f2fsDetect fd = some p) :
    p.blockSize = F2FS_BLKSIZE ∧ p.nat.blockSize = F2FS_BLKSIZE := by
  unfold f2fsDetect at detected
  simp only [Option.bind_eq_bind, Option.bind_eq_some_iff, Option.guard_eq_some'] at detected
  obtain ⟨sb, -, _, -, _, -, _, -, _, -, _, -, _, -, _, -, _, -, _, -, _, size, checkpoint, -, nat, loaded, final⟩ := detected
  obtain ⟨buffer, -, segment⟩ := Option.bind_eq_some_iff.mp loaded
  rw [← Option.some.inj final, ← Option.some.inj segment]
  exact ⟨size, size⟩

theorem f2fsNatOffsets_eq {nat : F2fsSegment} (size : nat.blockSize = F2FS_BLKSIZE) :
    f2fsNatOffsets nat = (List.range (nat.blocks * NAT_ENTRY_PER_BLOCK)).map fun nid =>
      nid / NAT_ENTRY_PER_BLOCK * F2FS_BLKSIZE + 9 * (nid % NAT_ENTRY_PER_BLOCK) := by
  unfold f2fsNatOffsets
  rw [size]
  generalize nat.blocks = blocks
  induction blocks with
  | zero => rfl
  | succ blocks ih =>
    rw [List.range_succ, List.flatMap_append, ih, Nat.succ_mul, List.range_add, List.map_append, List.map_map,
      List.flatMap_singleton]
    refine congrArg (List.map _ (List.range (blocks * NAT_ENTRY_PER_BLOCK)) ++ ·) ?_
    apply List.map_congr_left
    intro j among
    have bound : j < 455 := List.mem_range.mp among
    have block : (blocks * NAT_ENTRY_PER_BLOCK + j) / NAT_ENTRY_PER_BLOCK = blocks := by
      unfold NAT_ENTRY_PER_BLOCK
      omega
    have index : (blocks * NAT_ENTRY_PER_BLOCK + j) % NAT_ENTRY_PER_BLOCK = j := by
      unfold NAT_ENTRY_PER_BLOCK
      omega
    rw [Function.comp_apply, block, index]

/-- The entries lie in the order of their numbers. -/
theorem natOffset_le {q q' s s' : Nat} (order : 455 * q + s ≤ 455 * q' + s') (small : s < 455) (small' : s' < 455) :
    q * 4096 + 9 * s ≤ q' * 4096 + 9 * s' := by
  rcases Nat.lt_trichotomy q q' with less | rfl | more
  · have before : q * 4096 + 4096 ≤ q' * 4096 := by omega
    omega
  · omega
  · have behind : 455 * q' + 455 ≤ 455 * q := by omega
    omega

theorem f2fsGetNatEntry_below {p : F2fsEditor} (size : p.blockSize = F2FS_BLKSIZE) {nid ino : Nat} (below : nid ≤ ino)
    {entry : F2fsNatEntry} (stored : f2fsGetNatEntry p ino = some entry) : ∃ other, f2fsGetNatEntry p nid = some other := by
  rw [f2fsGetNatEntry, Option.ite_none_left_eq_some, f2fsNatEntryAt, Option.ite_none_right_eq_some, size] at stored
  obtain ⟨inside, room, -⟩ := stored
  have first : ¬ p.nat.blocks * NAT_ENTRY_PER_BLOCK ≤ nid := by omega
  have early : nid / NAT_ENTRY_PER_BLOCK * F2FS_BLKSIZE + 9 * (nid % NAT_ENTRY_PER_BLOCK) + 9 ≤ p.nat.buffer.length := by
    have order : 455 * (nid / 455) + nid % 455 ≤ 455 * (ino / 455) + ino % 455 := by
      rw [Nat.div_add_mod, Nat.div_add_mod]
      exact below
    have early := natOffset_le order (Nat.mod_lt _ (by decide)) (Nat.mod_lt _ (by decide))
    exact (Nat.add_le_add_right early 9).trans room
  rw [f2fsGetNatEntry, if_neg first, f2fsNatEntryAt, size, if_pos early]
  exact ⟨_, rfl⟩

structure FirstNatEntry (p : F2fsEditor) (ino nid : Nat) (entry : F2fsNatEntry) : Prop where
  stored : f2fsGetNatEntry p nid = some entry
  owned : entry.ino = ino
  first : ∀ before < nid, ∀ other, f2fsGetNatEntry p before = some other → other.ino ≠ ino

theorem f2fsGetInodeBlock_some_iff {p : F2fsEditor} (size : p.blockSize = F2FS_BLKSIZE)
    (natSize : p.nat.blockSize = F2FS_BLKSIZE) (ino addr : Nat) :
    f2fsGetInodeBlock p ino = some addr ↔ ∃ nid entry, FirstNatEntry p ino nid entry ∧ entry.blockAddr = addr := by
  have lookup (nid : Nat) (bound : nid < p.nat.blocks * NAT_ENTRY_PER_BLOCK) :
      f2fsNatEntryAt p.nat (nid / NAT_ENTRY_PER_BLOCK * F2FS_BLKSIZE + 9 * (nid % NAT_ENTRY_PER_BLOCK)) =
        f2fsGetNatEntry p nid := by
    rw [f2fsGetNatEntry, if_neg (by omega), size]
  have entries : (f2fsNatOffsets p.nat).map (f2fsNatEntryAt p.nat) =
      (List.range (p.nat.blocks * NAT_ENTRY_PER_BLOCK)).map (f2fsGetNatEntry p) := by
    rw [f2fsNatOffsets_eq natSize, List.map_map]
    exact List.map_congr_left fun nid among => lookup nid (List.mem_range.mp among)
  simp only [f2fsGetInodeBlock, entries, List.find?_map, Option.bind_eq_bind, Option.bind_eq_some_iff,
    Option.map_eq_some_iff, List.find?_range_eq_some, Option.pure_def, Option.some.injEq]
  constructor
  · rintro ⟨_, ⟨nid, ⟨owned, -, first⟩, rfl⟩, entry, stored, address⟩
    rw [Function.comp_apply, stored] at owned
    refine ⟨nid, entry, ⟨stored, by simpa using owned, ?_⟩, address⟩
    intro before below other found
    simpa [found] using first before below
  · rintro ⟨nid, entry, ⟨stored, owned, first⟩, address⟩
    have inside : nid < p.nat.blocks * NAT_ENTRY_PER_BLOCK := by
      by_contra outside
      rw [f2fsGetNatEntry, if_pos (by omega)] at stored
      cases stored
    refine ⟨_, ⟨nid, ⟨by simp [stored, owned], List.mem_range.mpr inside, ?_⟩, rfl⟩, entry, stored, address⟩
    intro before below
    rcases f2fsGetNatEntry_below size (le_of_lt below) stored with ⟨other, found⟩
    simp [found, first before below other found]

/-- An inode is found at its own entry, unless an entry in front of it has its number. -/
theorem f2fsGetInodeBlock_own {p : F2fsEditor} (size : p.blockSize = F2FS_BLKSIZE) (natSize : p.nat.blockSize = F2FS_BLKSIZE)
    {ino : Nat} {entry : F2fsNatEntry} (own : f2fsGetNatEntry p ino = some entry) (named : entry.ino = ino)
    (first : ∀ nid < ino, ∀ other, f2fsGetNatEntry p nid = some other → other.ino ≠ ino) :
    f2fsGetInodeBlock p ino = some entry.blockAddr :=
  (f2fsGetInodeBlock_some_iff size natSize ino _).mpr ⟨ino, entry, ⟨own, named, first⟩, rfl⟩

theorem f2fsReadBlocks_length {p : F2fsEditor} (size : p.blockSize = F2FS_BLKSIZE) {blkno : Nat} {buf : List Byte}
    (read : f2fsReadBlocks p blkno 1 p.blockSize = some buf) : buf.length = p.blockSize := by
  have width : min (p.blockSize * 1 % 2^32) p.blockSize = p.blockSize := by
    rw [size]
    decide
  rw [f2fsReadBlocks, width, Option.ite_none_left_eq_some] at read
  obtain ⟨whole, bytes⟩ := read
  rw [← Option.some.inj bytes]
  omega

theorem f2fsAllocReadBlock_eq {p : F2fsEditor} (size : p.blockSize = F2FS_BLKSIZE) (blkno : Nat) :
    f2fsAllocReadBlock p blkno = f2fsReadBlocks p blkno 1 F2FS_BLKSIZE := by
  have width : F2FS_BLKSIZE * 1 % 2^32 = F2FS_BLKSIZE := by decide
  rw [f2fsAllocReadBlock, f2fsAllocReadBlocks, size, width]

theorem f2fsDetect_fd {fd : Fd} {p : F2fsEditor} (detected : f2fsDetect fd = some p) : p.fd = fd := by
  unfold f2fsDetect at detected
  simp only [Option.bind_eq_bind, Option.bind_eq_some_iff, Option.guard_eq_some'] at detected
  obtain ⟨sb, -, _, -, _, -, _, -, _, -, _, -, _, -, _, -, _, -, _, -, _, -, checkpoint, -, nat, -, final⟩ := detected
  rw [← Option.some.inj final]

theorem f2fsReadBlocks_inside {p : F2fsEditor} (size : p.blockSize = F2FS_BLKSIZE) {blkno : Nat}
    (offsets : p.fd.file.size < 2^63) (inside : p.fd.start + blkno * F2FS_BLKSIZE + F2FS_BLKSIZE ≤ p.fd.file.size) :
    f2fsReadBlocks p blkno 1 F2FS_BLKSIZE = some (p.fd.file.slice (p.fd.start + blkno * F2FS_BLKSIZE) F2FS_BLKSIZE) := by
  have width : min (F2FS_BLKSIZE * 1 % 2^32) F2FS_BLKSIZE = F2FS_BLKSIZE := by decide
  have count : min F2FS_BLKSIZE 0x7ffff000 = F2FS_BLKSIZE := by decide
  have wrapped : blkno * F2FS_BLKSIZE % 2^64 = blkno * F2FS_BLKSIZE := Nat.mod_eq_of_lt (by omega)
  have bytes : ((p.fd.fileseek (blkno * F2FS_BLKSIZE)).read F2FS_BLKSIZE).1 =
      p.fd.file.slice (p.fd.start + blkno * F2FS_BLKSIZE) F2FS_BLKSIZE := by
    rw [Fd.read_bytes _ _ (by decide), Fd.fileseek_file, Fd.fileseek_pos _ _ (by omega)]
    exact p.fd.file.readAt_full _ _ inside
  have positive : F2FS_BLKSIZE ≠ 0 := by decide
  rw [f2fsReadBlocks, size, width, wrapped, bytes, File.slice_length, if_neg (by simp [positive])]

end Detected

end ImgEditor
