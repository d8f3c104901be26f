import ImgEditor.Fs.Ext2UnpackDirent
import ImgEditor.Fs.F2fsDirent

namespace ImgEditor

open Storage

/-- The recursive walks over directories return exactly if they do not come to a directory below itself. -/
theorem direntWalks_return_iff (heap : Nat → Memory) (junk : Nat → Byte) (calls : UnpackCalls) (p : Ext2Editor)
    (todo : F2fsDirEntry → Bool) (f2fs : F2fsEditor) :
    (WalkReturns (unpackDirent heap junk calls p) EXT2_ROOT_INO ↔
      ¬ Loops (Leads (unpackDirent heap junk calls p)) EXT2_ROOT_INO) ∧
    (WalkReturns (foreachDirent junk todo f2fs) (f2fsRootIno f2fs) ↔
      ¬ Loops (Leads (foreachDirent junk todo f2fs)) (f2fsRootIno f2fs)) :=
  ⟨walkReturns_iff_acyclic (fun _ _ => unpackDirent_child) _, walkReturns_iff_acyclic (fun _ _ => foreachDirent_child) _⟩

/-- An image whose root directory has a subdirectory `a`, which is the root directory itself. -/
def loopDirectoryImage : File :=
  let f := File.empty.writeAt 5248 (leBytes 2 0x41ed ++ leBytes 2 0 ++ leBytes 4 1024)
  let f := f.writeAt (5248 + 40) [6]
  let f := f.writeAt 6144 (leBytes 4 2 ++ leBytes 2 1024 ++ [1, 2, 0x61])
  f.writeAt 8191 [0]

def loopDirectoryEditor : Ext2Editor := ⟨⟨loopDirectoryImage, 0, 0⟩, 1024, 128, 1, 16, [5]⟩

def allCallsSucceed : UnpackCalls := ⟨fun _ => true, fun _ => true, fun _ => true⟩

theorem loopDirectory_steps :
    unpackDirent (fun _ _ => 0#8) (fun _ => 0#8) allCallsSucceed loopDirectoryEditor EXT2_ROOT_INO = [.into EXT2_ROOT_INO] := by
  decide +kernel

theorem unpackDirent_never_returns :
    ¬ WalkReturns (unpackDirent (fun _ _ => 0#8) (fun _ => 0#8) allCallsSucceed loopDirectoryEditor) EXT2_ROOT_INO := by
  have leads : Leads (unpackDirent (fun _ _ => 0#8) (fun _ => 0#8) allCallsSucceed loopDirectoryEditor)
      EXT2_ROOT_INO EXT2_ROOT_INO :=
    ⟨[], [], loopDirectory_steps, fun s none => absurd none List.not_mem_nil⟩
  rw [walkReturns_iff_acc]
  exact fun acc => not_transGen_of_acc acc (.single leads)

end ImgEditor
