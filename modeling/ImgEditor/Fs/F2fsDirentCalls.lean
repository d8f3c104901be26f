import ImgEditor.Fs.F2fsDirent
import ImgEditor.Storage.Calls
import Mathlib.Data.List.Forall2

namespace ImgEditor

open Storage

/-- A call of the callback of `_foreach_dirent`, with the place of its entry in the directory. -/
structure DentryCall where
  block : Nat
  slot : Nat
  childDir : List Byte
  dentry : F2fsDirEntry
deriving DecidableEq

def CHILD_DIR_SIZE : Nat := 4096

def dentryName (dblk : Memory) (i : Nat) : List Byte :=
  (List.range (f2fsDirEntry dblk i).nameLen).map fun k => dblk (filenameOffset i + k)

/-- `snprintf(child_dir, sizeof(child_dir), "%s/%.*s", ..)`: the name ends at a zero byte, the text at its buffer. -/
def dentryChildDir (path : List Byte) (dblk : Memory) (i : Nat) : List Byte :=
  (path ++ 0x2f#8 :: (dentryName dblk i).takeWhile (· ≠ 0#8)).take (CHILD_DIR_SIZE - 1)

def ReadsName (dblk : Memory) (i k : Nat) : Prop :=
  k < (f2fsDirEntry dblk i).nameLen ∧ ∀ j < k, dblk (filenameOffset i + j) ≠ 0#8

section Walk

variable (goesOn : List DentryCall → Bool) (path : List Byte)

/-- The inner loop. `goesOn` tells of the calls so far whether neither the last one nor the walk of its directory,
where it is one, ends the loop. -/
def dentryCalls (block : Nat) (dblk : Memory) : List Nat → List DentryCall → List DentryCall × Bool
  | [], calls => (calls, true)
  | i :: rest, calls =>
    match dentryPass dblk i with
    | .skip => dentryCalls block dblk rest calls
    | .bad => (calls, false)
    | .call dentry =>
      let calls := calls ++ [⟨block, i, dentryChildDir path dblk i, dentry⟩]
      if goesOn calls then dentryCalls block dblk rest calls else (calls, false)

/-- `_foreach_dirent` with the calls it makes in this directory, and whether it came through all blocks. -/
def foreachDirentCalls (junk : Nat → Byte) (f2fs : F2fsEditor) : Nat → List Nat → List DentryCall → List DentryCall × Bool
  | _, [], calls => (calls, true)
  | block, blkno :: rest, calls =>
    match f2fsReadBlocks f2fs blkno 1 f2fs.blockSize with
    | none => (calls, false)
    | some dblk =>
      let walked := dentryCalls goesOn path block (bufferMemory junk dblk) (dentrySlots (bufferMemory junk dblk)) calls
      if walked.2 then foreachDirentCalls junk f2fs (block + 1) rest walked.1 else walked

end Walk

/-! ## The entries of a directory -/

def dentryUsed (dblk : Memory) (i : Nat) : Bool := (dblk (i / 8)).getLsbD (i % 8)

def dentrySlotCount (dblk : Memory) (i : Nat) : Nat := ((f2fsDirEntry dblk i).nameLen + (F2FS_SLOT_LEN - 1)) / F2FS_SLOT_LEN

/-- An entry takes the slots of its name, and in those behind its first one `name_len` is zero. -/
structure DentryLayout (dblk : Memory) : Prop where
  whole : ∀ i < NR_DENTRY_IN_BLOCK, dentryUsed dblk i = true → (f2fsDirEntry dblk i).nameLen ≠ 0 →
    ∀ j < dentrySlotCount dblk i, i + j < NR_DENTRY_IN_BLOCK ∧ dentryUsed dblk (i + j) = true ∧
      (0 < j → (f2fsDirEntry dblk (i + j)).nameLen = 0)
  covered : ∀ i < NR_DENTRY_IN_BLOCK, dentryUsed dblk i = true → (f2fsDirEntry dblk i).nameLen = 0 →
    ∃ start < i, dentryUsed dblk start = true ∧ i < start + dentrySlotCount dblk start

def isDots (name : List Byte) : Prop := name = [0x2e#8] ∨ name = [0x2e#8, 0x2e#8]

instance (name : List Byte) : Decidable (isDots name) := inferInstanceAs (Decidable (_ ∨ _))

def IsEntry (dblk : Memory) (i : Nat) : Prop := (f2fsDirEntry dblk i).nameLen ≠ 0 ∧ ¬ isDots (dentryName dblk i)

instance (dblk : Memory) (i : Nat) : Decidable (IsEntry dblk i) := inferInstanceAs (Decidable (_ ∧ _))

def direntEntry (path : List Byte) (block : Nat) (dblk : Memory) (i : Nat) : Option DentryCall :=
  if IsEntry dblk i then some ⟨block, i, path ++ 0x2f#8 :: dentryName dblk i, f2fsDirEntry dblk i⟩ else none

def directoryCalls (slot : Nat → Memory → Nat → Option DentryCall) : Nat → List Memory → List DentryCall
  | _, [] => []
  | block, dblk :: rest =>
    ((List.range NR_DENTRY_IN_BLOCK).filter (dentryUsed dblk)).filterMap (slot block dblk) ++ directoryCalls slot (block + 1) rest

def direntEntries (path : List Byte) (dblks : List Memory) : List DentryCall := directoryCalls (direntEntry path) 0 dblks

/-- The walk makes one call for each entry with its full name, and reads names inside of `filename` only. -/
structure CallsRight (junk : Nat → Byte) (f2fs : F2fsEditor) (path : List Byte) (blocks : List Nat) (dblks : List Memory) :
    Prop where
  calls : ∀ goesOn, foreachDirentCalls goesOn path junk f2fs 0 blocks [] = callAll goesOn [] (direntEntries path dblks)
  inside : ∀ dblk ∈ dblks, ∀ i ∈ dentrySlots dblk, ∀ dentry, dentryPass dblk i = .call dentry →
    ∀ k, ReadsName dblk i k → filenameOffset i + k < filenameOffset NR_DENTRY_IN_BLOCK

/-- An entry has a hash, a known type and a name that fits, and any other slot in use has no hash or no type. -/
structure DentryFits (path : List Byte) (dblk : Memory) (i : Nat) : Prop where
  entry : IsEntry dblk i → (f2fsDirEntry dblk i).hashCode ≠ 0 ∧ (f2fsDirEntry dblk i).fileType ≠ 0 ∧
    (f2fsDirEntry dblk i).fileType < F2FS_FT_MAX ∧ (f2fsDirEntry dblk i).nameLen ≤ F2FS_NAME_LEN ∧
    0#8 ∉ dentryName dblk i ∧ path.length + 1 + (f2fsDirEntry dblk i).nameLen < CHILD_DIR_SIZE
  other : ¬ IsEntry dblk i → (f2fsDirEntry dblk i).hashCode = 0 ∨ (f2fsDirEntry dblk i).fileType = 0

section Slots

variable {path : List Byte} {block : Nat} {dblk : Memory} {i : Nat}

theorem dentryBitmap_bit (dblk : Memory) {k : Nat} (inside : k < 216) : (dentryBitmap dblk).bit k = dentryUsed dblk k := by
  have length : ((List.range SIZE_OF_DENTRY_BITMAP).map dblk).length = 27 := by rw [List.length_map, List.length_range]; rfl
  have byte : k / 8 < SIZE_OF_DENTRY_BITMAP := by
    unfold SIZE_OF_DENTRY_BITMAP
    omega
  unfold dentryBitmap
  rw [Bitmask.memcpyLsbfirst_bit _ (by rw [length]; decide) (by rw [length]; omega), dentryUsed, List.getD_eq_getElem?_getD,
    List.getElem?_map, List.getElem?_range byte]
  rfl

theorem takeWhile_filter_range (used : Nat → Bool) {count total : Nat} (less : count ≤ total) :
    ((List.range total).filter used).takeWhile (· < count) = (List.range count).filter used := by
  have split : List.range total = List.range count ++ List.range' count (total - count) := by
    have ranges := @List.range'_append_1 0 count (total - count)
    rw [Nat.zero_add, Nat.add_sub_cancel' less] at ranges
    rw [List.range_eq_range', List.range_eq_range', ranges]
  have bound : ∀ k ∈ (List.range count).filter used, decide (k < count) = true := by
    intro k member
    exact decide_eq_true (List.mem_range.mp (List.mem_filter.mp member).1)
  have behind : ((List.range' count (total - count)).filter used).takeWhile (· < count) = [] := by
    rw [List.takeWhile_eq_nil_iff]
    intro filled
    have member := List.mem_filter.mp (List.getElem_mem filled)
    rw [List.mem_range'_1] at member
    simpa using member.1.1
  rw [split, List.filter_append, List.takeWhile_append_of_pos bound, behind, List.append_nil]

/-- The loop comes to the slots in use, without the two bits that stand for no slot. -/
theorem dentrySlots_eq (dblk : Memory) : dentrySlots dblk = (List.range NR_DENTRY_IN_BLOCK).filter (dentryUsed dblk) := by
  have total : (dentryBitmap dblk).totalBits = 216 := rfl
  have range : (dentryBitmap dblk).IntRange := by
    intro k inside _
    omega
  have bits : (List.range 216).filter (dentryBitmap dblk).bit = (List.range 216).filter (dentryUsed dblk) := by
    apply List.filter_congr
    intro k member
    rw [dentryBitmap_bit dblk (List.mem_range.mp member)]
  rw [dentrySlots, Bitmask.foreach_eq _ range, total, bits]
  exact takeWhile_filter_range (dentryUsed dblk) (by decide)

theorem dentryPass_skip_iff : dentryPass dblk i = .skip ↔
    (f2fsDirEntry dblk i).hashCode = 0 ∨ (f2fsDirEntry dblk i).fileType = 0 := by
  unfold dentryPass
  dsimp only
  split
  · rename_i zero
    exact iff_of_true rfl (.inl zero)
  split
  · rename_i zero
    exact iff_of_true rfl (.inr zero)
  · rename_i hash type
    refine iff_of_false ?_ (not_or.mpr ⟨hash, type⟩)
    split <;> exact nofun

theorem dentryPass_call_iff {dentry : F2fsDirEntry} : dentryPass dblk i = .call dentry ↔
    (f2fsDirEntry dblk i).hashCode ≠ 0 ∧ (f2fsDirEntry dblk i).fileType ≠ 0 ∧
      (f2fsDirEntry dblk i).fileType < F2FS_FT_MAX ∧ (f2fsDirEntry dblk i).nameLen ≤ F2FS_NAME_LEN ∧
      f2fsDirEntry dblk i = dentry := by
  unfold dentryPass
  dsimp only
  split
  · rename_i zero
    exact iff_of_false nofun fun all => all.1 zero
  split
  · rename_i zero
    exact iff_of_false nofun fun all => all.2.1 zero
  split
  · rename_i bad
    refine iff_of_false nofun fun all => ?_
    have type := all.2.2.1
    have name := all.2.2.2.1
    omega
  · rename_i hash type good
    rcases not_or.mp good with ⟨known, short⟩
    constructor
    · intro called
      exact ⟨hash, type, Nat.lt_of_not_le known, Nat.le_of_not_lt short, DentryPass.call.inj called⟩
    · intro all
      rw [all.2.2.2.2]

theorem dentryName_length (dblk : Memory) (i : Nat) : (dentryName dblk i).length = (f2fsDirEntry dblk i).nameLen := by
  rw [dentryName, List.length_map, List.length_range]

theorem takeWhile_length_le (name : List Byte) : (name.takeWhile (· ≠ 0#8)).length ≤ name.length :=
  (List.takeWhile_prefix _).length_le

/-- The text is the full path exactly if it has room and the name has no zero byte. -/
theorem dentryChildDir_eq_iff : dentryChildDir path dblk i = path ++ 0x2f#8 :: dentryName dblk i ↔
    0#8 ∉ dentryName dblk i ∧ path.length + 1 + (f2fsDirEntry dblk i).nameLen < CHILD_DIR_SIZE := by
  have shorter := takeWhile_length_le (dentryName dblk i)
  have length := dentryName_length dblk i
  unfold dentryChildDir
  constructor
  · intro same
    have lengths := congrArg List.length same
    rw [List.length_take, List.length_append, List.length_append, List.length_cons, List.length_cons] at lengths
    have room : path.length + 1 + (f2fsDirEntry dblk i).nameLen < CHILD_DIR_SIZE := by
      unfold CHILD_DIR_SIZE at lengths ⊢
      omega
    refine ⟨fun zero => ?_, room⟩
    have whole : (dentryName dblk i).takeWhile (· ≠ 0#8) = dentryName dblk i :=
      (List.takeWhile_prefix _).eq_of_length (by omega)
    have first := List.takeWhile_eq_self_iff.mp whole 0#8 zero
    exact absurd first (by decide)
  · rintro ⟨clean, room⟩
    have whole : (dentryName dblk i).takeWhile (· ≠ 0#8) = dentryName dblk i := by
      rw [List.takeWhile_eq_self_iff]
      intro byte member
      apply decide_eq_true
      intro zero
      rw [zero] at member
      exact clean member
    rw [whole]
    apply List.take_of_length_le
    rw [List.length_append, List.length_cons]
    omega

def slotCall (path : List Byte) (block : Nat) (dblk : Memory) (i : Nat) : Option DentryCall :=
  match dentryPass dblk i with
  | .call dentry => some ⟨block, i, dentryChildDir path dblk i, dentry⟩
  | _ => none

/-- A slot fits exactly if it is no bad one and its call is the one of its entry. -/
theorem dentryFits_iff (block : Nat) : DentryFits path dblk i ↔
    dentryPass dblk i ≠ .bad ∧ slotCall path block dblk i = direntEntry path block dblk i := by
  unfold slotCall direntEntry
  constructor
  · intro fits
    by_cases entry : IsEntry dblk i
    · rcases fits.entry entry with ⟨hash, type, known, short, clean, room⟩
      have called := dentryPass_call_iff.mpr ⟨hash, type, known, short, rfl⟩
      rw [called, if_pos entry, dentryChildDir_eq_iff.mpr ⟨clean, room⟩]
      exact ⟨nofun, rfl⟩
    · rw [dentryPass_skip_iff.mpr (fits.other entry), if_neg entry]
      exact ⟨nofun, rfl⟩
  · rintro ⟨good, same⟩
    cases pass : dentryPass dblk i with
    | skip =>
      rw [pass] at same
      refine ⟨fun entry => ?_, fun _ => dentryPass_skip_iff.mp pass⟩
      rw [if_pos entry] at same
      cases same
    | bad => exact absurd pass good
    | call dentry =>
      rw [pass] at same
      rcases dentryPass_call_iff.mp pass with ⟨hash, type, known, short, _⟩
      have entry : IsEntry dblk i := by
        by_contra other
        rw [if_neg other] at same
        cases same
      rw [if_pos entry] at same
      have text := dentryChildDir_eq_iff.mp (DentryCall.mk.inj (Option.some.inj same)).2.2.1
      exact ⟨fun _ => ⟨hash, type, known, short, text⟩, fun other => absurd entry other⟩

end Slots

section Loops

variable {path : List Byte} {block : Nat} {dblk : Memory} {slots : List Nat}

theorem dentryCalls_fits (goesOn : List DentryCall → Bool) (fits : ∀ i ∈ slots, DentryFits path dblk i) (calls : List DentryCall) :
    dentryCalls goesOn path block dblk slots calls = callAll goesOn calls (slots.filterMap (direntEntry path block dblk)) := by
  induction slots generalizing calls with
  | nil => rfl
  | cons i rest ih =>
    rcases List.forall_mem_cons.mp fits with ⟨first, others⟩
    rcases (dentryFits_iff block).mp first with ⟨good, same⟩
    rw [dentryCalls, List.filterMap_cons, ← same, slotCall]
    cases pass : dentryPass dblk i with
    | skip => exact ih others calls
    | bad => exact absurd pass good
    | call dentry =>
      dsimp only
      rw [callAll]
      split
      · exact ih others _
      · rfl

/-- A loop that nothing stops has come to no bad slot, and made the calls of all others. -/
theorem dentryCalls_through {calls made : List DentryCall}
    (done : dentryCalls (fun _ => true) path block dblk slots calls = (made, true)) :
    (∀ i ∈ slots, dentryPass dblk i ≠ .bad) ∧ made = calls ++ slots.filterMap (slotCall path block dblk) := by
  induction slots generalizing calls with
  | nil => exact ⟨nofun, by rw [← (Prod.mk.inj done).1, List.filterMap_nil, List.append_nil]⟩
  | cons i rest ih =>
    rw [dentryCalls] at done
    rw [List.forall_mem_cons, List.filterMap_cons, slotCall]
    cases pass : dentryPass dblk i with
    | skip =>
      rw [pass] at done
      rcases ih done with ⟨good, same⟩
      exact ⟨⟨nofun, good⟩, same⟩
    | bad =>
      rw [pass] at done
      cases done
    | call dentry =>
      rw [pass] at done
      dsimp only at done
      rw [if_pos rfl] at done
      rcases ih done with ⟨good, same⟩
      refine ⟨⟨nofun, good⟩, ?_⟩
      rw [same, ← List.append_cons]

end Loops

def BlocksRead (junk : Nat → Byte) (f2fs : F2fsEditor) : List Nat → List Memory → Prop :=
  List.Forall₂ fun blkno dblk =>
    ∃ buf, f2fsReadBlocks f2fs blkno 1 f2fs.blockSize = some buf ∧ dblk = bufferMemory junk buf

section Blocks

variable {junk : Nat → Byte} {f2fs : F2fsEditor} {path : List Byte} {blocks : List Nat} {dblks : List Memory}

def BlockFits (path : List Byte) (dblk : Memory) : Prop :=
  ∀ i < NR_DENTRY_IN_BLOCK, dentryUsed dblk i = true → DentryFits path dblk i

theorem mem_used {dblk : Memory} {i : Nat} :
    i ∈ (List.range NR_DENTRY_IN_BLOCK).filter (dentryUsed dblk) ↔ i < NR_DENTRY_IN_BLOCK ∧ dentryUsed dblk i = true := by
  rw [List.mem_filter, List.mem_range]

theorem foreachDirentCalls_fits (goesOn : List DentryCall → Bool) (reads : BlocksRead junk f2fs blocks dblks)
    (fits : ∀ dblk ∈ dblks, BlockFits path dblk) (block : Nat) (calls : List DentryCall) :
    foreachDirentCalls goesOn path junk f2fs block blocks calls =
      callAll goesOn calls (directoryCalls (direntEntry path) block dblks) := by
  induction reads generalizing block calls with
  | nil => rfl
  | cons read _ ih =>
    rcases read with ⟨buf, read, rfl⟩
    rcases List.forall_mem_cons.mp fits with ⟨first, others⟩
    have slots : ∀ i ∈ dentrySlots (bufferMemory junk buf), DentryFits path (bufferMemory junk buf) i := by
      intro i member
      rw [dentrySlots_eq] at member
      exact first i (mem_used.mp member).1 (mem_used.mp member).2
    rw [foreachDirentCalls, read, directoryCalls, callAll_append, ← dentrySlots_eq]
    dsimp only
    rw [dentryCalls_fits goesOn slots calls]
    split
    · exact ih others _ _
    · rfl

/-- A walk that nothing stops has come to no bad slot, and made the calls of all others. -/
theorem foreachDirentCalls_through (reads : BlocksRead junk f2fs blocks dblks) {block : Nat} {calls made : List DentryCall}
    (done : foreachDirentCalls (fun _ => true) path junk f2fs block blocks calls = (made, true)) :
    (∀ dblk ∈ dblks, ∀ i ∈ dentrySlots dblk, dentryPass dblk i ≠ .bad) ∧
      made = calls ++ directoryCalls (slotCall path) block dblks := by
  induction reads generalizing block calls with
  | nil => exact ⟨nofun, by rw [← (Prod.mk.inj done).1, directoryCalls, List.append_nil]⟩
  | cons read _ ih =>
    rcases read with ⟨buf, read, rfl⟩
    rw [foreachDirentCalls, read] at done
    dsimp only at done
    cases walked : dentryCalls (fun _ => true) path block (bufferMemory junk buf) (dentrySlots (bufferMemory junk buf)) calls with
    | mk first through =>
      rw [walked] at done
      cases through with
      | false => cases done
      | true =>
        rcases dentryCalls_through walked with ⟨good, same⟩
        rcases ih done with ⟨rest, later⟩
        refine ⟨List.forall_mem_cons.mpr ⟨good, rest⟩, ?_⟩
        rw [later, same, directoryCalls, dentrySlots_eq, List.append_assoc]

theorem mem_directoryCalls {slot : Nat → Memory → Nat → Option DentryCall} {block : Nat} {call : DentryCall} :
    call ∈ directoryCalls slot block dblks ↔ ∃ n dblk i, dblks[n]? = some dblk ∧ i < NR_DENTRY_IN_BLOCK ∧
      dentryUsed dblk i = true ∧ slot (block + n) dblk i = some call := by
  induction dblks generalizing block with
  | nil => exact iff_of_false List.not_mem_nil fun ⟨_, _, _, there, _⟩ => nomatch there
  | cons first rest ih =>
    rw [directoryCalls, List.mem_append, List.mem_filterMap, ih]
    constructor
    · rintro (⟨i, member, made⟩ | ⟨n, dblk, i, there, bound, used, made⟩)
      · exact ⟨0, first, i, rfl, (mem_used.mp member).1, (mem_used.mp member).2, made⟩
      · refine ⟨n + 1, dblk, i, there, bound, used, ?_⟩
        rw [← Nat.add_assoc, Nat.add_right_comm]
        exact made
    · rintro ⟨n, dblk, i, there, bound, used, made⟩
      cases n with
      | zero =>
        rw [← Option.some.inj there] at used made
        exact .inl ⟨i, mem_used.mpr ⟨bound, used⟩, made⟩
      | succ n =>
        refine .inr ⟨n, dblk, i, there, bound, used, ?_⟩
        rw [Nat.add_right_comm, Nat.add_assoc]
        exact made

def Placed (slot : Nat → Memory → Nat → Option DentryCall) : Prop :=
  ∀ block dblk i call, slot block dblk i = some call → call.block = block ∧ call.slot = i

theorem slotCall_placed (path : List Byte) : Placed (slotCall path) := by
  intro block dblk i call made
  unfold slotCall at made
  split at made
  · rw [← Option.some.inj made]
    exact ⟨rfl, rfl⟩
  · cases made

theorem direntEntry_placed (path : List Byte) : Placed (direntEntry path) := by
  intro block dblk i call made
  unfold direntEntry at made
  split at made
  · rw [← Option.some.inj made]
    exact ⟨rfl, rfl⟩
  · cases made

/-- What one of two equal lists of calls has for a slot, the other one has for the same slot. -/
theorem directoryCalls_slot {slot other : Nat → Memory → Nat → Option DentryCall} (placed : Placed slot)
    (otherPlaced : Placed other) (same : directoryCalls slot 0 dblks = directoryCalls other 0 dblks) {n i : Nat}
    {dblk : Memory} (there : dblks[n]? = some dblk) (bound : i < NR_DENTRY_IN_BLOCK) (used : dentryUsed dblk i = true)
    {call : DentryCall} (made : slot n dblk i = some call) : other n dblk i = some call := by
  have member : call ∈ directoryCalls slot 0 dblks := by
    rw [mem_directoryCalls]
    refine ⟨n, dblk, i, there, bound, used, ?_⟩
    rw [Nat.zero_add]
    exact made
  rw [same, mem_directoryCalls] at member
  rcases member with ⟨m, otherBlock, j, otherThere, _, _, again⟩
  rw [Nat.zero_add] at again
  rcases placed _ _ _ _ made with ⟨block, place⟩
  rcases otherPlaced _ _ _ _ again with ⟨otherBlock, otherPlace⟩
  rw [← block.symm.trans otherBlock] at otherThere again
  rw [Option.some.inj (there.symm.trans otherThere), place.symm.trans otherPlace]
  exact again

theorem directoryCalls_inj {slot other : Nat → Memory → Nat → Option DentryCall} (placed : Placed slot)
    (otherPlaced : Placed other) (same : directoryCalls slot 0 dblks = directoryCalls other 0 dblks) {n i : Nat}
    {dblk : Memory} (there : dblks[n]? = some dblk) (bound : i < NR_DENTRY_IN_BLOCK) (used : dentryUsed dblk i = true) :
    slot n dblk i = other n dblk i := by
  apply Option.ext
  intro call
  exact ⟨directoryCalls_slot placed otherPlaced same there bound used,
    directoryCalls_slot otherPlaced placed same.symm there bound used⟩

theorem readsName_inside {dblk : Memory} (layout : DentryLayout dblk) {i k : Nat} (bound : i < NR_DENTRY_IN_BLOCK)
    (used : dentryUsed dblk i = true) (reads : ReadsName dblk i k) :
    filenameOffset i + k < filenameOffset NR_DENTRY_IN_BLOCK := by
  have short := reads.1
  have last := layout.whole i bound used (by omega) (dentrySlotCount dblk i - 1) (by
    unfold dentrySlotCount F2FS_SLOT_LEN
    omega)
  have inside := last.1
  unfold dentrySlotCount F2FS_SLOT_LEN at inside
  unfold filenameOffset F2FS_SLOT_LEN
  omega

theorem callsRight_fits (reads : BlocksRead junk f2fs blocks dblks) (right : CallsRight junk f2fs path blocks dblks)
    {dblk : Memory} (member : dblk ∈ dblks) : BlockFits path dblk := by
  intro i bound used
  have calls := right.calls fun _ => true
  rw [callAll_always, List.nil_append] at calls
  rcases foreachDirentCalls_through reads calls with ⟨good, same⟩
  rw [List.nil_append] at same
  rcases List.mem_iff_getElem?.mp member with ⟨n, there⟩
  have slot : i ∈ dentrySlots dblk := by
    rw [dentrySlots_eq]
    exact mem_used.mpr ⟨bound, used⟩
  have call := directoryCalls_inj (slotCall_placed path) (direntEntry_placed path) same.symm there bound used
  exact (dentryFits_iff n).mpr ⟨good dblk member i slot, call⟩

end Blocks

/-- The walk of a directory is right exactly if all slots in use fit. -/
theorem foreachDirent_right_iff (junk : Nat → Byte) (f2fs : F2fsEditor) (path : List Byte) (blocks : List Nat)
    (dblks : List Memory) (reads : BlocksRead junk f2fs blocks dblks) (layouts : ∀ dblk ∈ dblks, DentryLayout dblk) :
    CallsRight junk f2fs path blocks dblks ↔ ∀ dblk ∈ dblks, BlockFits path dblk := by
  constructor
  · intro right dblk member
    exact callsRight_fits reads right member
  · intro fits
    refine ⟨fun goesOn => foreachDirentCalls_fits goesOn reads fits 0 [], ?_⟩
    intro dblk member i slot _ _ k named
    rw [dentrySlots_eq] at slot
    exact readsName_inside (layouts dblk member) (mem_used.mp slot).1 (mem_used.mp slot).2 named

/-- A block with one entry, whose name of nine letters takes two slots; the second one has this hash and type. -/
def longNameBlock (hash fileType : Byte) : List Byte :=
  [3#8] ++ List.replicate 29 0#8 ++ [1#8, 0#8, 0#8, 0#8, 5#8, 0#8, 0#8, 0#8, 9#8, 0#8, 1#8] ++
    [hash, 0#8, 0#8, 0#8, 0#8, 0#8, 0#8, 0#8, 0#8, 0#8, fileType] ++ List.replicate 2332 0#8 ++
    [0x61#8, 0x62#8, 0x63#8, 0x64#8, 0x65#8, 0x66#8, 0x67#8, 0x68#8, 0x69#8] ++ List.replicate 1703 0#8

def longNameEditor (hash fileType : Byte) : F2fsEditor where
  fd := ⟨File.ofBytes (longNameBlock hash fileType), 0, 0⟩
  sblock := []
  checkpoint := []
  nat := ⟨0, 0, []⟩
  sectorSize := 512
  blockSize := 4096
  blocksPerSegment := 512
  segmentSize := 2097152

def longNameMemory (hash fileType : Byte) : Memory := bufferMemory (fun _ => 0#8) (longNameBlock hash fileType)

theorem longName_length (hash fileType : Byte) : (longNameBlock hash fileType).length = 4096 := by
  unfold longNameBlock
  simp only [List.length_append, List.length_replicate, List.length_cons, List.length_nil]

theorem longName_reads (hash fileType : Byte) :
    BlocksRead (fun _ => 0#8) (longNameEditor hash fileType) [0] [longNameMemory hash fileType] := by
  have whole : (File.ofBytes (longNameBlock hash fileType)).readAt 0 4096 = longNameBlock hash fileType := by
    rw [File.readAt_full _ _ _ (by rw [File.ofBytes_size, longName_length]), ← longName_length hash fileType]
    exact File.ofBytes_content _
  have block : (longNameEditor hash fileType).blockSize = 4096 := rfl
  have size : min (4096 * 1 % 2^32) 4096 = 4096 := by decide
  have place : 0 * 4096 % 2^64 = 0 := by decide
  have read : (((longNameEditor hash fileType).fd.fileseek 0).read 4096).1 = longNameBlock hash fileType := by
    have fd : (longNameEditor hash fileType).fd = ⟨File.ofBytes (longNameBlock hash fileType), 0, 0⟩ := rfl
    rw [fd, Fd.read_bytes _ _ (by decide), Fd.fileseek_file, Fd.fileseek_pos _ _ (Nat.two_pow_pos 63)]
    exact whole
  refine .cons ⟨longNameBlock hash fileType, ?_, rfl⟩ .nil
  unfold f2fsReadBlocks
  rw [block, size, place]
  dsimp only
  rw [read, longName_length]
  rw [if_neg (by decide)]

theorem longName_layout {hash fileType : Byte}
    (used : ∀ i < NR_DENTRY_IN_BLOCK, dentryUsed (longNameMemory hash fileType) i = true → i = 0 ∨ i = 1)
    (both : dentryUsed (longNameMemory hash fileType) 0 = true ∧ dentryUsed (longNameMemory hash fileType) 1 = true)
    (names : (f2fsDirEntry (longNameMemory hash fileType) 0).nameLen = 9 ∧
      (f2fsDirEntry (longNameMemory hash fileType) 1).nameLen = 0) : DentryLayout (longNameMemory hash fileType) := by
  have count : dentrySlotCount (longNameMemory hash fileType) 0 = 2 := by
    rw [dentrySlotCount, names.1]
    rfl
  constructor
  · intro i bound isUsed filled j inside
    rcases used i bound isUsed with rfl | rfl
    · rw [count] at inside
      rcases (by omega : j = 0 ∨ j = 1) with rfl | rfl
      · exact ⟨by decide, both.1, fun later => absurd later (Nat.lt_irrefl 0)⟩
      · exact ⟨by decide, both.2, fun _ => names.2⟩
    · exact absurd names.2 filled
  · intro i bound isUsed empty
    rcases used i bound isUsed with rfl | rfl
    · exact absurd (names.1.symm.trans empty) (by decide)
    · exact ⟨0, by decide, both.1, by rw [count]; decide⟩

theorem foreachDirent_right_iff_longName :
    CallsRight (fun _ => 0#8) (longNameEditor 0#8 0#8) [] [0] [longNameMemory 0#8 0#8] := by
  have slots : (∀ i < NR_DENTRY_IN_BLOCK, dentryUsed (longNameMemory 0#8 0#8) i = true → i = 0 ∨ i = 1) ∧
      (dentryUsed (longNameMemory 0#8 0#8) 0 = true ∧ dentryUsed (longNameMemory 0#8 0#8) 1 = true) ∧
      (f2fsDirEntry (longNameMemory 0#8 0#8) 0 = ⟨1, 5, 9, 1⟩ ∧ f2fsDirEntry (longNameMemory 0#8 0#8) 1 = ⟨0, 0, 0, 0⟩) ∧
      0#8 ∉ dentryName (longNameMemory 0#8 0#8) 0 := by decide +kernel
  rcases slots with ⟨used, both, entries, clean⟩
  have layout := longName_layout used both ⟨by rw [entries.1], by rw [entries.2]⟩
  apply (foreachDirent_right_iff _ _ [] [0] _ (longName_reads 0#8 0#8) (List.forall_mem_singleton.mpr layout)).mpr
  rw [List.forall_mem_singleton]
  intro i bound isUsed
  rcases used i bound isUsed with rfl | rfl
  · have name := dentryName_length (longNameMemory 0#8 0#8) 0
    rw [entries.1] at name
    refine ⟨fun _ => ?_, fun other => absurd ⟨?_, ?_⟩ other⟩
    · rw [entries.1]
      exact ⟨by decide, by decide, by decide, by decide, clean, by decide⟩
    · rw [entries.1]
      decide
    · rintro (one | two)
      · rw [one] at name
        exact absurd name (by decide)
      · rw [two] at name
        exact absurd name (by decide)
  · refine ⟨fun entry => absurd ?_ entry.1, fun _ => .inl ?_⟩
    · rw [entries.2]
    · rw [entries.2]

/-- A second slot that keeps the hash and the type of a deleted entry is taken for an entry with an empty name. -/
theorem foreachDirent_stale : DentryLayout (longNameMemory 1#8 1#8) ∧
    BlocksRead (fun _ => 0#8) (longNameEditor 1#8 1#8) [0] [longNameMemory 1#8 1#8] ∧
    ¬ CallsRight (fun _ => 0#8) (longNameEditor 1#8 1#8) [] [0] [longNameMemory 1#8 1#8] := by
  have slots : (∀ i < NR_DENTRY_IN_BLOCK, dentryUsed (longNameMemory 1#8 1#8) i = true → i = 0 ∨ i = 1) ∧
      (dentryUsed (longNameMemory 1#8 1#8) 0 = true ∧ dentryUsed (longNameMemory 1#8 1#8) 1 = true) ∧
      (f2fsDirEntry (longNameMemory 1#8 1#8) 0 = ⟨1, 5, 9, 1⟩ ∧ f2fsDirEntry (longNameMemory 1#8 1#8) 1 = ⟨1, 0, 0, 1⟩) := by
    decide +kernel
  rcases slots with ⟨used, both, entries⟩
  have layout := longName_layout used both ⟨by rw [entries.1], by rw [entries.2]⟩
  refine ⟨layout, longName_reads 1#8 1#8, fun right => ?_⟩
  have fits := callsRight_fits (longName_reads 1#8 1#8) right List.mem_cons_self 1 (by decide) both.2
  have other : ¬ IsEntry (longNameMemory 1#8 1#8) 1 := by
    intro entry
    apply entry.1
    rw [entries.2]
  have unset := fits.other other
  rw [entries.2] at unset
  exact absurd unset (by decide)

end ImgEditor
