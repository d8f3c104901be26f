import ImgEditor.Core.CText

namespace ImgEditor

open Storage CText

structure DiskPartition where
  name : CString
  startAddr : BitVec 64
  endAddr : BitVec 64

structure DiskPartitions where
  diskType : CString
  score : Int
  parts : List DiskPartition

def GD_MAX_PARTITIONS : Nat := 8
def DISK_PARTITIONS_SCORE_GOOD : Int := 80
def DISK_PARTITIONS_SCORE_WEAK : Int := 10

/-- `register_disk_partitions`; `gd` is the used part of `disk_parts_array`. -/
def registerDiskPartitions (gd : List DiskPartitions) (dp : DiskPartitions) : List DiskPartitions :=
  if gd.length < GD_MAX_PARTITIONS then
    gd ++ [{ dp with score := if dp.score = 0 then DISK_PARTITIONS_SCORE_GOOD else dp.score }]
  else gd

def registerWeakDiskPartitions (gd : List DiskPartitions) (dp : DiskPartitions) : List DiskPartitions :=
  registerDiskPartitions gd { dp with score := DISK_PARTITIONS_SCORE_WEAK }

/-- The variables of `find_registed_partition`. A pointer to a partition is its cell of
`disk_parts_array` and its place in `parts`. -/
structure PartitionSearch where
  bestPart : Option (Nat × Nat)
  bestScore : Int
  retDiskType : Option CString

def DiskPartition.Holds (part : DiskPartition) (addr : BitVec 64) : Prop :=
  part.startAddr ≤ addr ∧ addr ≤ part.endAddr

instance (part : DiskPartition) (addr : BitVec 64) : Decidable (part.Holds addr) :=
  inferInstanceAs (Decidable (_ ∧ _))

def findRegistedStep (startAddr : BitVec 64) (cell : Nat) (dp : DiskPartitions) (search : PartitionSearch)
    (part : DiskPartition × Nat) : PartitionSearch :=
  if part.1.Holds startAddr then
    let search := { search with retDiskType := some dp.diskType }
    if dp.score > search.bestScore then
      { search with bestPart := some (cell, part.2), bestScore := dp.score }
    else search
  else search

def findRegistedPartition (gd : List DiskPartitions) (startAddr : BitVec 64) : PartitionSearch :=
  gd.zipIdx.foldl (fun search dp => dp.1.parts.zipIdx.foldl (findRegistedStep startAddr dp.2 dp.1) search)
    ⟨none, 0, none⟩

theorem findRegistedStep_settled {startAddr : BitVec 64} {cell : Nat} {dp : DiskPartitions}
    (parts : List (DiskPartition × Nat)) {search : PartitionSearch} (settled : dp.score ≤ search.bestScore) :
    (parts.foldl (findRegistedStep startAddr cell dp) search).bestPart = search.bestPart := by
  induction parts generalizing search with
  | nil => rfl
  | cons part rest ih =>
    have step : (findRegistedStep startAddr cell dp search part).bestPart = search.bestPart ∧
        (findRegistedStep startAddr cell dp search part).bestScore = search.bestScore := by
      unfold findRegistedStep
      split
      · simp only [if_neg (not_lt.mpr settled), and_self]
      · exact ⟨rfl, rfl⟩
    rw [List.foldl_cons, ih (by rw [step.2]; exact settled), step.1]

theorem findRegistedStep_first {startAddr : BitVec 64} {cell : Nat} {dp : DiskPartitions}
    (parts : List DiskPartition) (n : Nat) {search : PartitionSearch} (better : search.bestScore < dp.score) :
    ((parts.zipIdx n).foldl (findRegistedStep startAddr cell dp) search).bestPart =
      ((parts.findIdx? fun part => part.Holds startAddr).map fun i => (cell, n + i)).or search.bestPart := by
  induction parts generalizing n search with
  | nil => rfl
  | cons part rest ih =>
    rw [List.zipIdx_cons, List.foldl_cons, List.findIdx?_cons]
    by_cases holds : part.Holds startAddr
    · have step : findRegistedStep startAddr cell dp search (part, n) =
          ⟨some (cell, n), dp.score, some dp.diskType⟩ := by
        simp only [findRegistedStep, if_pos holds, if_pos better]
      rw [step, findRegistedStep_settled _ (le_refl _)]
      simp [holds]
    · have step : findRegistedStep startAddr cell dp search (part, n) = search := by
        simp only [findRegistedStep, if_neg holds]
      rw [step, ih (n + 1) better]
      simp [holds, Function.comp_def, Nat.add_assoc, Nat.add_comm 1]

theorem findRegistedPartition_single (dp : DiskPartitions) (startAddr : BitVec 64) (scored : 0 < dp.score) :
    (findRegistedPartition [dp] startAddr).bestPart =
      (dp.parts.findIdx? fun part => part.Holds startAddr).map fun i => (0, i) := by
  rw [findRegistedPartition]
  simp only [List.zipIdx_cons, List.zipIdx_nil, List.foldl_cons, List.foldl_nil]
  rw [findRegistedStep_first _ _ scored]
  simp

end ImgEditor
