import ImgEditor.Fs.F2fsUnpack

namespace ImgEditor

open Storage

/-- Both lookups of an inode number lead to the same block. -/
def NatLookupsAgree (p : F2fsEditor) (ino : Nat) : Prop :=
  ∃ entry, f2fsGetNatEntry p ino = some entry ∧ f2fsGetInodeBlock p ino = some entry.blockAddr

/-- A node of an inode has an entry with the inode's number too, and may come first. -/
theorem natLookups_agree_iff {fd : Fd} {p : F2fsEditor} (detected : f2fsDetect fd = some p) (ino : Nat) :
    NatLookupsAgree p ino ↔
      ∃ entry, f2fsGetNatEntry p ino = some entry ∧
        ∃ nid other, FirstNatEntry p ino nid other ∧ other.blockAddr = entry.blockAddr := by
  rcases f2fsDetect_blockSize detected with ⟨size, natSize⟩
  unfold NatLookupsAgree
  simp only [f2fsGetInodeBlock_some_iff size natSize]

theorem natLookups_agree_iff_four : NatLookupsAgree twoFilesEditor 4 := by
  rcases twoFilesEditor_entries with ⟨four, -, before⟩
  refine (natLookups_agree_iff twoFilesEditor_detected 4).mpr ⟨_, four, 4, _, ⟨four, rfl, ?_⟩, rfl⟩
  intro nid below other stored
  have unowned := before nid below
  rw [stored] at unowned
  have zero : other.ino = 0 := by simpa using unowned
  omega

def ownedNodeF2fs : Fd :=
  { twoFilesF2fs with file := twoFilesF2fs.file.writeAt (2 * F2FS_BLKSIZE + 9 * 4 + 1) (leBytes 4 5) }

theorem ownedNodeF2fs_lookups :
    (f2fsDetect ownedNodeF2fs).any fun p =>
      f2fsGetNatEntry p 5 = some ⟨5, 4⟩ ∧ f2fsGetInodeBlock p 5 = some 3 := by decide +kernel

theorem natLookups_disagree :
    ∃ p, f2fsDetect ownedNodeF2fs = some p ∧ 5 < p.nat.blocks * NAT_ENTRY_PER_BLOCK ∧ ¬ NatLookupsAgree p 5 := by
  rcases (Option.any_eq_true _ _).mp ownedNodeF2fs_lookups with ⟨p, detected, lookups⟩
  rcases of_decide_eq_true lookups with ⟨own, found⟩
  refine ⟨p, detected, ?_, ?_⟩
  · by_contra outside
    rw [f2fsGetNatEntry, if_pos (by omega)] at own
    cases own
  · rintro ⟨entry, stored, agrees⟩
    rw [own] at stored
    obtain rfl := Option.some.inj stored
    rw [found] at agrees
    exact absurd (Option.some.inj agrees) (by decide)

end ImgEditor
