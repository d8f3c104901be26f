import ImgEditor.Core.BigEndian
import ImgEditor.Fs.Xfs

namespace ImgEditor

open Storage

/-- What can be wrong with an AG: a sector that cannot be read, a bad superblock, a wrong magic of another sector, a
B+tree root that cannot be read or has a wrong magic, or a field outside of its sector or block. -/
inductive XfsFlaw where
  | unreadable
  | superblock
  | magic
  | root
  | outside

section Flaws

variable (xfs : XfsEditor)

def xfsSectorFlaw (offset sector expected : Nat) : Option XfsFlaw :=
  match fileread ⟨xfs.fd.file, 0, offset + sector * xfs.sectorSize⟩ xfs.sectorSize with
  | none => some .unreadable
  | some buf =>
    if sector = 0 then
      match xfsCheckSb buf with
      | .ok _ => none
      | .error .error => some .superblock
      | .error .fault => some .outside
    else
      match beField buf 0 4 with
      | .ok magic => if magic = expected then none else some .magic
      | .error _ => some .outside

def xfsRootFlaw (i : Nat) (root : XfsM Nat) (magic1 magic2 : Nat) : Option XfsFlaw :=
  match root with
  | .error _ => some .outside
  | .ok blkoff =>
    if blkoff = 0 then none
    else
      match fileread ⟨xfs.fd.file, 0, (i * xfs.agBlocks + blkoff) % 2^32 * xfs.blockSize⟩ xfs.blockSize with
      | none => some .root
      | some block =>
        match beField block 0 4 with
        | .ok magic => if isGoodMagic magic magic1 || isGoodMagic magic magic2 then none else some .root
        | .error _ => some .outside

def xfsRoots (agf agi : List Byte) : List (XfsM Nat × Nat × Nat) :=
  [(agfBnoRoot agf, XFS_ABTB_MAGIC, XFS_ABTB_CRC_MAGIC), (agfCntRoot agf, XFS_ABTC_MAGIC, XFS_ABTC_CRC_MAGIC),
    (agfRefcountRoot agf, XFS_REFC_CRC_MAGIC, 0), (agiRoot agi, XFS_IBT_MAGIC, XFS_IBT_CRC_MAGIC),
    (agiFreeRoot agi, XFS_FIBT_MAGIC, XFS_FIBT_CRC_MAGIC)]

def xfsSectorsFlaw (offset : Nat) (sector : Nat) : List Nat → Option XfsFlaw
  | [] => none
  | expected :: rest => (xfsSectorFlaw xfs offset sector expected).or (xfsSectorsFlaw offset (sector + 1) rest)

def xfsSector (offset sector : Nat) : List Byte :=
  xfs.fd.file.readAt (offset + sector * xfs.sectorSize) xfs.sectorSize

/-- The first thing that is wrong with an AG where the 32-bit product puts it. -/
def xfsAgFlaw (i : Nat) : Option XfsFlaw :=
  let offset := i * xfs.agBlocks * xfs.blockSize % 2^32
  (xfsSectorsFlaw xfs offset 0 xfsMagics).or
    (((xfsRoots (xfsSector xfs offset 1) (xfsSector xfs offset 2)).map fun root =>
      xfsRootFlaw xfs i root.1 root.2.1 root.2.2).foldr Option.or none)

def XfsAgRight (i : Nat) : Prop :=
  let offset := i * xfs.agBlocks * xfs.blockSize
  (∀ sector expected, xfsMagics[sector]? = some expected →
    ∃ buf, fileread ⟨xfs.fd.file, 0, offset + sector * xfs.sectorSize⟩ xfs.sectorSize = some buf ∧
      beField buf 0 4 = .ok expected) ∧
  ∀ root ∈ xfsRoots (xfsSector xfs offset 1) (xfsSector xfs offset 2),
    ∃ blkoff, root.1 = .ok blkoff ∧ (blkoff ≠ 0 →
      ∃ block magic, fileread ⟨xfs.fd.file, 0, (i * xfs.agBlocks + blkoff) * xfs.blockSize⟩ xfs.blockSize = some block ∧
        beField block 0 4 = .ok magic ∧ (isGoodMagic magic root.2.1 || isGoodMagic magic root.2.2) = true)

end Flaws

/-- `xfs_detect` of an image returns 0 only if every AG is in order; any failed read or bad magic is an error. -/
def XfsDetectReports (image : File) : Prop :=
  xfsDetect ⟨image, 0, 0⟩ = .error .error ∨
    ∃ xfs, xfsDetect ⟨image, 0, 0⟩ = .ok xfs ∧ ∀ i, i < xfs.agCount → XfsAgRight xfs i

/-- The primary superblock is bad, or the first flaw of the AGs is one that `xfs_load_ags` reports, or there is no
flaw but wrong sector magics, and every AG is in order at its exact place. -/
def XfsFlawReported (image : File) : Prop :=
  match fileread ⟨image, 0, 0⟩ sizeofXfsDsb with
  | none => True
  | some primarySb =>
    xfsCheckSb primarySb = .error .error ∨
      ∃ xfs, xfsCheckSb primarySb = .ok () ∧ xfsInitAllocAgs ⟨image, 0, 0⟩ primarySb = .ok xfs ∧
        match (List.range xfs.agCount).findSome? (xfsAgFlaw xfs) with
        | some .unreadable | some .superblock | some .root => True
        | some .outside => False
        | some .magic | none => ∀ i, i < xfs.agCount → XfsAgRight xfs i

def XfsEnds {α : Type} (flaw : Option XfsFlaw) (good : α → Prop) (result : XfsM (α × Bool)) : Prop :=
  match flaw with
  | none => ∃ a, good a ∧ result = .ok (a, true)
  | some .magic => ∃ a, result = .ok (a, false)
  | some .outside => result = .error .fault
  | some .unreadable | some .superblock | some .root => result = .error .error

theorem fileseek_plain {image : File} {offset : Nat} (small : offset < 2^63) :
    (⟨image, 0, 0⟩ : Fd).fileseek offset = ⟨image, 0, offset⟩ := by
  have whole : offset % 2^64 = offset := by omega
  simp only [Fd.fileseek, Fd.lseek64, Nat.zero_add, whole]
  rw [if_pos small]

theorem XfsEnds.cons {α β : Type} {flaw later : Option XfsFlaw} {good : α → Prop} {good' : β → Prop}
    {result : XfsM (α × Bool)} {next : α × Bool → XfsM (β × Bool)} (first : XfsEnds flaw good result)
    (stopped : ∀ a, ∃ b, next (a, false) = .ok (b, false))
    (rest : ∀ a, good a → XfsEnds later good' (next (a, true))) :
    XfsEnds (flaw.or later) good' (result >>= next) := by
  rcases flaw with _ | (_ | _ | _ | _ | _)
  · obtain ⟨a, isGood, rfl⟩ := first
    exact rest a isGood
  · rw [show result = .error .error from first]
    rfl
  · rw [show result = .error .error from first]
    rfl
  · obtain ⟨a, rfl⟩ := first
    exact stopped a
  · rw [show result = .error .error from first]
    rfl
  · rw [show result = .error .fault from first]
    rfl

theorem XfsEnds.map {α β : Type} {flaw : Option XfsFlaw} {good : α → Prop} {good' : β → Prop}
    {result : XfsM (α × Bool)} (ends : XfsEnds flaw good result) (f : α → β) (keeps : ∀ a, good a → good' (f a)) :
    XfsEnds flaw good' (result >>= fun r => pure (f r.1, r.2)) := by
  rcases flaw with _ | (_ | _ | _ | _ | _)
  · obtain ⟨a, isGood, rfl⟩ := ends
    exact ⟨f a, keeps a isGood, rfl⟩
  · rw [show result = .error .error from ends]
    rfl
  · rw [show result = .error .error from ends]
    rfl
  · obtain ⟨a, rfl⟩ := ends
    exact ⟨f a, rfl⟩
  · rw [show result = .error .error from ends]
    rfl
  · rw [show result = .error .fault from ends]
    rfl

theorem beField_error {buf : List Byte} {offset width : Nat} {fail : XfsFail}
    (read : beField buf offset width = .error fail) : fail = .fault := by
  unfold beField at read
  split at read
  · cases read
  · exact (Except.error.inj read).symm

section Load

variable {xfs : XfsEditor}

theorem xfsLoadSectors_ends (offset sector : Nat) (magics : List Nat) :
    XfsEnds (xfsSectorsFlaw xfs offset sector magics)
      (fun bufs => bufs = (List.range' sector magics.length).map (xfsSector xfs offset))
      (xfsLoadSectors xfs ⟨xfs.fd.file, 0, offset + sector * xfs.sectorSize⟩ sector magics) := by
  induction magics generalizing sector with
  | nil => exact ⟨[], rfl, rfl⟩
  | cons expected rest ih =>
    rw [xfsSectorsFlaw, xfsSectorFlaw, xfsLoadSectors]
    rcases read : fileread ⟨xfs.fd.file, 0, offset + sector * xfs.sectorSize⟩ xfs.sectorSize with _ | buf
    · rfl
    have position : offset + sector * xfs.sectorSize + xfs.sectorSize = offset + (sector + 1) * xfs.sectorSize := by
      rw [Nat.add_mul, Nat.one_mul, Nat.add_assoc]
    have grows : ∀ bufs, bufs = (List.range' (sector + 1) rest.length).map (xfsSector xfs offset) →
        buf :: bufs = (List.range' sector (rest.length + 1)).map (xfsSector xfs offset) := by
      rintro bufs rfl
      rw [List.range'_succ, List.map_cons, fileread_eq read]
      rfl
    have later : XfsEnds _ (fun bufs => bufs = (List.range' sector (rest.length + 1)).map (xfsSector xfs offset)) _ :=
      (ih (sector + 1)).map (fun bufs => buf :: bufs) grows
    simp only [position]
    by_cases first : sector = 0
    · rw [if_pos first, if_pos first]
      rcases xfsCheckSb buf with (_ | _) | _
      · rfl
      · rfl
      · exact later
    · rw [if_neg first, if_neg first]
      rcases field : beField buf 0 4 with fail | magic
      · rw [beField_error field]
        rfl
      · by_cases right : magic = expected
        · simp only [bind, Except.bind, right, ne_eq, not_true_eq_false, if_true, if_false, Option.none_or]
          exact later
        · simp only [bind, Except.bind, right, ne_eq, not_false_eq_true, if_true, if_false]
          exact ⟨_, rfl⟩

def XfsEndsRoot (flaw : Option XfsFlaw) (result : XfsM (Option (List Byte))) : Prop :=
  match flaw with
  | none => ∃ block, result = .ok block
  | some .outside => result = .error .fault
  | some .root => result = .error .error
  | some _ => False

theorem XfsEndsRoot.bind {β : Type} {flaw later : Option XfsFlaw} {good : β → Prop}
    {result : XfsM (Option (List Byte))} {next : Option (List Byte) → XfsM (β × Bool)}
    (first : XfsEndsRoot flaw result) (rest : ∀ a, result = .ok a → XfsEnds later good (next a)) :
    XfsEnds (flaw.or later) good (result >>= next) := by
  rcases flaw with _ | (_ | _ | _ | _ | _)
  · obtain ⟨block, rfl⟩ := first
    exact rest block rfl
  · exact first.elim
  · exact first.elim
  · exact first.elim
  · rw [show result = .error .error from first]
    rfl
  · rw [show result = .error .fault from first]
    rfl

theorem agTryLoadBt_ends {image : File} (plain : xfs.fd = ⟨image, 0, 0⟩) (small : xfs.blockSize ≤ 2^31) (i : Nat)
    {root : XfsM Nat} (field : ∀ fail, root = .error fail → fail = .fault) (magic1 magic2 : Nat) :
    XfsEndsRoot (xfsRootFlaw xfs i root magic1 magic2) (agTryLoadBt xfs i root magic1 magic2) := by
  rcases root with fail | blkoff
  · rw [field fail rfl]
    rfl
  unfold xfsRootFlaw agTryLoadBt
  by_cases zero : blkoff = 0
  · simp only [bind, Except.bind, if_pos zero]
    exact ⟨none, rfl⟩
  simp only [bind, Except.bind, if_neg zero, xfsAllocReadBt]
  have wrapped : (i * xfs.agBlocks + blkoff) % 2^32 < 2^32 := Nat.mod_lt _ (by decide)
  have far : (i * xfs.agBlocks + blkoff) % 2^32 * xfs.blockSize < 2^63 := by
    have product := Nat.mul_le_mul (Nat.le_sub_one_of_lt wrapped) small
    omega
  rw [plain, fileseek_plain far]
  rcases fileread ⟨image, 0, (i * xfs.agBlocks + blkoff) % 2^32 * xfs.blockSize⟩ xfs.blockSize with _ | block
  · rfl
  rcases magicField : beField block 0 4 with fail | magic
  · simp only [magicField]
    rw [beField_error magicField]
    rfl
  · simp only [magicField]
    by_cases good : (isGoodMagic magic magic1 || isGoodMagic magic magic2) = true
    · rw [if_pos good, if_pos good]
      exact ⟨some block, rfl⟩
    · rw [if_neg good, if_neg good]
      rfl

theorem xfsLoadAg_ends {image : File} (plain : xfs.fd = ⟨image, 0, 0⟩) (small : xfs.blockSize ≤ 2^31) (i : Nat) :
    XfsEnds (xfsAgFlaw xfs i) (fun _ => True) (xfsLoadAg xfs i) := by
  rw [xfsAgFlaw, xfsLoadAg]
  have offset : i * xfs.agBlocks * xfs.blockSize % 2^32 < 2^63 := by omega
  have sectors := @xfsLoadSectors_ends xfs (i * xfs.agBlocks * xfs.blockSize % 2^32) 0 xfsMagics
  rw [Nat.zero_mul, Nat.add_zero] at sectors
  rw [plain] at sectors ⊢
  rw [fileseek_plain offset]
  apply sectors.cons
  · intro bufs
    exact ⟨_, rfl⟩
  · rintro bufs rfl
    have fault : ∀ buf offset width fail, beField buf offset width = .error fail → fail = .fault :=
      fun _ _ _ _ read => beField_error read
    have ends := fun root field magic1 magic2 => @agTryLoadBt_ends xfs image plain small i root field magic1 magic2
    simp only [xfsRoots, List.map_cons, List.map_nil, List.foldr_cons, List.foldr_nil]
    apply (ends _ (fault _ _ _) _ _).bind
    intro bnobt _
    apply (ends _ (fault _ _ _) _ _).bind
    intro cntbt _
    apply (ends _ (fault _ _ _) _ _).bind
    intro refcountbt _
    apply (ends _ (fault _ _ _) _ _).bind
    intro inobt _
    apply (ends _ (fault _ _ _) _ _).bind
    intro finobt _
    exact ⟨_, trivial, rfl⟩

theorem xfsLoadAgs_ends {image : File} (plain : xfs.fd = ⟨image, 0, 0⟩) (small : xfs.blockSize ≤ 2^31) (i count : Nat) :
    match (List.range' i count).findSome? (xfsAgFlaw xfs) with
    | some .magic | none => ∃ ags, xfsLoadAgs xfs i count = .ok ags
    | some .outside => xfsLoadAgs xfs i count = .error .fault
    | some .unreadable | some .superblock | some .root => xfsLoadAgs xfs i count = .error .error := by
  induction count generalizing i with
  | zero => exact ⟨[], rfl⟩
  | succ count ih =>
    have ends := xfsLoadAg_ends plain small i
    rw [List.range'_succ, List.findSome?_cons, xfsLoadAgs]
    generalize xfsAgFlaw xfs i = flaw at ends ⊢
    rcases flaw with _ | (_ | _ | _ | _ | _)
    · obtain ⟨ag, _, loaded⟩ := ends
      rw [loaded]
      have later := ih (i + 1)
      simp only [bind, Except.bind, if_true]
      split at later
      · obtain ⟨ags, loaded⟩ := later
        exact ⟨ag :: ags, by rw [loaded]; rfl⟩
      · obtain ⟨ags, loaded⟩ := later
        exact ⟨ag :: ags, by rw [loaded]; rfl⟩
      · rw [later]
      · rw [later]
      · rw [later]
      · rw [later]
    · rw [show xfsLoadAg xfs i = .error .error from ends]
      rfl
    · rw [show xfsLoadAg xfs i = .error .error from ends]
      rfl
    · obtain ⟨ag, loaded⟩ := ends
      rw [loaded]
      exact ⟨_, rfl⟩
    · rw [show xfsLoadAg xfs i = .error .error from ends]
      rfl
    · rw [show xfsLoadAg xfs i = .error .fault from ends]
      rfl

end Load

theorem beField_lt {buf : List Byte} {offset width n : Nat} (read : beField buf offset width = .ok n) : n < 256 ^ width := by
  unfold beField at read
  split at read
  · rename_i inside
    obtain rfl := Except.ok.inj read
    have value := leNumber_lt (field buf offset width).reverse
    rwa [List.length_reverse, field_length inside] at value
  · cases read

theorem beField_primary {primarySb : List Byte} (whole : primarySb.length = 264) {offset width : Nat}
    (inside : offset + width ≤ 264) : ∃ n, n < 256 ^ width ∧ beField primarySb offset width = .ok n := by
  have read : beField primarySb offset width = .ok _ := if_pos (by rw [whole]; exact inside)
  exact ⟨_, beField_lt read, read⟩

theorem sbCheckLogsize_ok {sb : List Byte} {name width logname : Nat}
    (checked : sbCheckLogsize sb name width logname = .ok ()) :
    ∃ size log, beField sb name width = .ok size ∧ beField sb logname 1 = .ok log ∧ size = 2 ^ (log % 64) := by
  unfold sbCheckLogsize at checked
  rcases sizeField : beField sb name width with _ | size
  · rw [sizeField] at checked
    cases checked
  rcases logField : beField sb logname 1 with _ | log
  · rw [sizeField, logField] at checked
    cases checked
  rw [sizeField, logField] at checked
  by_cases same : size = 2 ^ (log % 64)
  · exact ⟨size, log, rfl, rfl, same⟩
  · simp only [bind, Except.bind, ne_eq, same, not_false_eq_true, if_true] at checked
    cases checked

theorem xfsCheckSb_blockSize {sb : List Byte} (checked : xfsCheckSb sb = .ok ()) :
    ∃ size, beField sb 4 4 = .ok size ∧ size ≤ 2^31 := by
  unfold xfsCheckSb at checked
  rcases magicField : beField sb 0 4 with _ | magic
  · rw [magicField] at checked
    cases checked
  rw [magicField] at checked
  by_cases right : magic = XFS_SB_MAGIC
  · rcases blockCheck : sbCheckLogsize sb 4 4 120 with _ | _
    · simp only [bind, Except.bind, right, ne_eq, not_true_eq_false, if_false, blockCheck] at checked
      cases checked
    · obtain ⟨size, log, sizeField, _, power⟩ := sbCheckLogsize_ok blockCheck
      exists size, sizeField
      have bound : size < 2 ^ 32 := beField_lt sizeField
      rw [power] at bound ⊢
      have less : log % 64 < 32 := (Nat.pow_lt_pow_iff_right (by decide)).mp bound
      exact Nat.pow_le_pow_right (by decide) (by omega)
  · simp only [bind, Except.bind, ne_eq, right, not_false_eq_true, if_true] at checked
    cases checked

/-- `xfs_detect` tells about a flaw exactly when it is one that `xfs_load_ags` reports. -/
theorem xfsDetect_reports_iff (image : File) : XfsDetectReports image ↔ XfsFlawReported image := by
  rw [XfsDetectReports, XfsFlawReported, xfsDetect]
  rcases read : fileread ⟨image, 0, 0⟩ sizeofXfsDsb with _ | primarySb
  · exact ⟨fun _ => trivial, fun _ => .inl rfl⟩
  rcases checked : xfsCheckSb primarySb with (_ | _) | _
  · simp [bind, Except.bind, checked]
  · simp [bind, Except.bind, checked]
  · obtain ⟨size, sizeField, small⟩ := xfsCheckSb_blockSize checked
    have whole : primarySb.length = 264 := fileread_length read
    obtain ⟨sectorSize, _, sectorField⟩ := @beField_primary primarySb whole 102 2 (by decide)
    obtain ⟨inodeSize, _, inodeField⟩ := @beField_primary primarySb whole 104 2 (by decide)
    obtain ⟨inodePerBlock, _, inopField⟩ := @beField_primary primarySb whole 106 2 (by decide)
    obtain ⟨agCount, _, countField⟩ := @beField_primary primarySb whole 88 4 (by decide)
    obtain ⟨agBlocks, _, blocksField⟩ := @beField_primary primarySb whole 84 4 (by decide)
    have allocated : xfsInitAllocAgs ⟨image, 0, 0⟩ primarySb = .ok ⟨⟨image, 0, 0⟩,
        List.replicate agCount (.calloc sectorSize), agCount, agBlocks, size, sectorSize, inodePerBlock, inodeSize⟩ := by
      rw [xfsInitAllocAgs, sectorField, sizeField, inodeField, inopField, countField, blocksField]
      rfl
    generalize List.replicate agCount (XfsAg.calloc sectorSize) = ags at allocated
    have ends := @xfsLoadAgs_ends ⟨⟨image, 0, 0⟩, ags, agCount, agBlocks, size, sectorSize, inodePerBlock, inodeSize⟩
      image rfl small 0 agCount
    simp only [bind, Except.bind, checked, allocated, reduceCtorEq, false_or, Except.ok.injEq, exists_eq_left',
      true_and, List.range_eq_range']
    split at ends
    · rename_i first
      obtain ⟨loaded, result⟩ := ends
      rw [first, result]
      constructor
      · rintro (failed | ⟨_, found, right⟩)
        · cases failed
        · obtain rfl := Except.ok.inj found
          exact right
      · exact fun right => .inr ⟨_, rfl, right⟩
    · rename_i first
      obtain ⟨loaded, result⟩ := ends
      rw [first, result]
      constructor
      · rintro (failed | ⟨_, found, right⟩)
        · cases failed
        · obtain rfl := Except.ok.inj found
          exact right
      · exact fun right => .inr ⟨_, rfl, right⟩
    · rename_i first
      rw [first, ends]
      simp
    · rename_i first
      rw [first, ends]
      simp
    · rename_i first
      rw [first, ends]
      simp
    · rename_i first
      rw [first, ends]
      simp

def xfsBadAgf : File :=
  ((((File.empty.writeAt 0 (be32Words [0x58465342, 4096])).writeAt 84 (be32Words [4, 1])).writeAt 102
    [2, 0, 2, 0, 0, 8]).writeAt 120 [12, 9, 9, 3]).writeAt 1023 [0]

theorem xfsInitAllocAgs_ok {fd : Fd} {primarySb : List Byte} {xfs : XfsEditor}
    (allocated : xfsInitAllocAgs fd primarySb = .ok xfs) :
    xfs.fd = fd ∧ beField primarySb 4 4 = .ok xfs.blockSize := by
  simp only [xfsInitAllocAgs, bind, Except.bind] at allocated
  repeat' split at allocated
  · cases allocated
  · cases allocated
  · cases allocated
  · cases allocated
  · cases allocated
  · cases allocated
  · rw [← Except.ok.inj allocated]
    exact ⟨rfl, by assumption⟩

theorem xfsDetect_ok {fd : Fd} {xfs : XfsEditor} (detected : xfsDetect fd = .ok xfs) :
    xfs.fd = fd ∧ xfs.blockSize ≤ 2^31 := by
  rw [xfsDetect] at detected
  rcases read : fileread fd sizeofXfsDsb with _ | primarySb
  · rw [read] at detected
    cases detected
  rcases checked : xfsCheckSb primarySb with _ | _
  · simp [read, checked, bind, Except.bind] at detected
  rcases allocated : xfsInitAllocAgs fd primarySb with _ | xfs'
  · simp [read, checked, allocated, bind, Except.bind] at detected
  rcases loaded : xfsLoadAgs xfs' 0 xfs'.agCount with _ | ags
  · simp [read, checked, allocated, loaded, bind, Except.bind] at detected
  · simp only [read, checked, allocated, loaded, bind, Except.bind] at detected
    obtain ⟨same, sizeField⟩ := xfsInitAllocAgs_ok allocated
    obtain ⟨size, field, small⟩ := xfsCheckSb_blockSize checked
    rw [sizeField] at field
    rw [← Except.ok.inj detected]
    refine ⟨same, ?_⟩
    simp only
    rw [Except.ok.inj field]
    exact small

/-- The AGF of its AG has no magic, and `xfs_detect` returns 0. -/
theorem xfsDetect_reports_badAgf : ¬ XfsDetectReports xfsBadAgf := by
  have geometry : (match xfsDetect ⟨xfsBadAgf, 0, 0⟩ with
      | .ok xfs => some (xfs.agCount, xfs.agBlocks, xfs.blockSize, xfs.sectorSize)
      | .error _ => none) = some (1, 4, 4096, 512) := by decide +kernel
  rintro (failed | ⟨xfs, detected, right⟩)
  · rw [failed] at geometry
    cases geometry
  · rw [detected] at geometry
    simp only [Option.some.injEq, Prod.mk.injEq] at geometry
    obtain ⟨count, blocks, size, sector⟩ := geometry
    obtain ⟨buf, read, magic⟩ := (right 0 (by omega)).1 1 XFS_AGF_MAGIC rfl
    rw [(xfsDetect_ok detected).1, sector] at read
    have there : fileread ⟨xfsBadAgf, 0, 0 * xfs.agBlocks * xfs.blockSize + 1 * 512⟩ 512 =
        some (List.replicate 512 0#8) := by
      rw [Nat.zero_mul, Nat.zero_mul]
      decide +kernel
    rw [there] at read
    rw [← Option.some.inj read] at magic
    exact absurd magic (by decide +kernel)

end ImgEditor
