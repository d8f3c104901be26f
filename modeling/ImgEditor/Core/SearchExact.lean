import Mathlib.Data.List.Nodup
import ImgEditor.Core.SearchWindow

namespace ImgEditor

open Storage

/-- How far the end of the search moves with every further window. -/
def windowStride : Nat := BUF4M_SZ - 1024

/-- No window end, at `cut` and every stride behind it, lies strictly inside `length` bytes at `pos`. -/
def WholeAfter (cut pos length : Nat) : Prop :=
  ∀ k, ¬ (pos < cut + k * windowStride ∧ cut + k * windowStride < pos + length)

theorem wholeAfter_of_le {cut pos length : Nat} (before : pos + length ≤ cut) :
    WholeAfter cut pos length := by
  intro k straddles
  have further := Nat.le_add_right cut (k * windowStride)
  omega

theorem wholeAfter_step (cut pos length : Nat) :
    WholeAfter cut pos length ↔
      ¬ (pos < cut ∧ cut < pos + length) ∧ WholeAfter (cut + windowStride) pos length := by
  constructor
  · intro whole
    refine ⟨by simpa using whole 0, fun k => ?_⟩
    have next := whole (k + 1)
    rwa [Nat.succ_mul, Nat.add_comm (k * windowStride), ← Nat.add_assoc] at next
  · rintro ⟨here, later⟩ k
    cases k with
    | zero => simpa using here
    | succ k =>
      rw [Nat.succ_mul, Nat.add_comm (k * windowStride), ← Nat.add_assoc]
      exact later k

/-- What the window loop leaves in a slot that is searched from `low` on, when the first window
ends at `cut`. -/
def SearchSlot.Finished (fd : VirtualFile) (low cut : Nat) (old new : SearchSlot) : Prop :=
  new.editor = old.editor ∧
    (old.editor.magic ≠ [] → ∃ found : List Nat,
      new.detected = old.detected ++ detections fd old.editor found ∧ found.Pairwise (· < ·) ∧
      ∀ pos, pos ∈ found ↔ low ≤ pos ∧ fd.file.Holds pos old.editor.magic ∧
        WholeAfter cut pos old.editor.magic.length)

section Windows

variable {fd : VirtualFile}

theorem SearchSlot.Searched.last {start count low cut : Nat} {old new : SearchSlot}
    (searched : old.Searched fd start count new) (fromLow : old.editor.magic ≠ [] → old.searchStart start = low)
    (whole : start + count = fd.file.size) (ends : fd.file.size ≤ cut) : old.Finished fd low cut new := by
  refine ⟨searched.1, fun active => ?_⟩
  obtain ⟨_, detected⟩ := searched.2 active
  rw [fromLow active] at detected
  refine ⟨_, detected, fd.file.occurrences_ordered _ _ _, fun pos => ?_⟩
  rw [fd.file.mem_occurrences active]
  constructor
  · rintro ⟨above, stored, fits⟩
    exact ⟨above, stored, wholeAfter_of_le (by omega)⟩
  · rintro ⟨above, stored, _⟩
    have inside := stored.1
    exact ⟨above, stored, by omega⟩

theorem SearchSlot.Searched.next {start count low : Nat} {old middle new : SearchSlot}
    (searched : old.Searched fd start count middle)
    (fromLow : old.editor.magic ≠ [] → old.searchStart start = low) (low_le : low ≤ start + count)
    (rest : middle.Finished fd (start + count) (start + count + windowStride) new) :
    old.Finished fd low (start + count) new := by
  refine ⟨rest.1.trans searched.1, fun active => ?_⟩
  obtain ⟨_, detected⟩ := searched.2 active
  rw [fromLow active] at detected
  obtain ⟨later, laterDetected, laterOrdered, laterMem⟩ := rest.2 (by rw [searched.1]; exact active)
  rw [searched.1] at laterDetected laterMem
  have nonempty := List.length_pos_iff.mpr active
  refine ⟨fd.file.occurrences old.editor.magic low (start + count) ++ later, ?_, ?_, ?_⟩
  · rw [laterDetected, detected, detections_append, List.append_assoc]
  · rw [List.pairwise_append]
    refine ⟨fd.file.occurrences_ordered _ _ _, laterOrdered, fun before beforeMem after afterMem => ?_⟩
    have fits := ((fd.file.mem_occurrences active _ _ before).mp beforeMem).2.2
    have behind := ((laterMem after).mp afterMem).1
    omega
  · intro pos
    rw [List.mem_append, fd.file.mem_occurrences active, laterMem, wholeAfter_step (start + count)]
    constructor
    · rintro (⟨above, stored, fits⟩ | ⟨behind, stored, whole⟩)
      · exact ⟨above, stored, by omega, wholeAfter_of_le (by omega)⟩
      · exact ⟨by omega, stored, by omega, whole⟩
    · rintro ⟨above, stored, here, whole⟩
      by_cases fits : pos + old.editor.magic.length ≤ start + count
      · exact Or.inl ⟨above, stored, fits⟩
      · exact Or.inr ⟨by omega, stored, whole⟩

theorem searchWindows_finished (offset low : Nat) (slots : List SearchSlot)
    (begun : readBack offset < fd.file.size)
    (low_ge : readBack offset ≤ low)
    (low_le : low ≤ readBack offset + min BUF4M_SZ (fd.file.size - readBack offset))
    (fromLow : ∀ slot ∈ slots, slot.editor.magic ≠ [] → slot.searchStart (readBack offset) = low) :
    List.Forall₂ (SearchSlot.Finished fd low (readBack offset + BUF4M_SZ)) slots
      (searchWindows fd offset slots) := by
  induction remaining : fd.file.size - offset using Nat.strongRecOn generalizing offset low slots with
  | ind _ ih =>
    have size : BUF4M_SZ = 4194304 := by decide
    have stride : windowStride = 4193280 := by decide
    have near : offset ≤ readBack offset + 1024 := by
      unfold readBack
      split <;> omega
    generalize begin : readBack offset = start at *
    have window : Window fd start (min BUF4M_SZ (fd.file.size - start)) :=
      ⟨by omega, by omega, by omega⟩
    have searched := imgeditorSearchBuf_searched window slots fun slot member active => by
      have position := fromLow slot member active
      exact ⟨by omega, by omega⟩
    have known := forall₂_imp_mem searched fun slot member new step =>
      And.intro (fromLow slot member) step
    rw [searchWindows]
    simp only [begin, File.readAt_length]
    rw [if_neg (by omega)]
    change List.Forall₂ _ slots (if _ then searchWindows fd _ (imgeditorSearchBuf fd start
      (fd.file.slice start (min BUF4M_SZ (fd.file.size - start))) slots) else _)
    by_cases full : min BUF4M_SZ (fd.file.size - start) = BUF4M_SZ
    · rw [if_pos full]
      rw [full] at known window low_le ⊢
      have back : readBack (start + BUF4M_SZ) = start + windowStride := by
        unfold readBack
        rw [if_pos (by omega)]
        omega
      have room : start + BUF4M_SZ ≤ fd.file.size := by omega
      have overlap : start + BUF4M_SZ = start + windowStride + 1024 := by omega
      have shown : 1024 ≤ min BUF4M_SZ (fd.file.size - (start + windowStride)) :=
        Nat.le_min.mpr ⟨by omega, by omega⟩
      have behind : offset < start + BUF4M_SZ := by omega
      have shrinks : fd.file.size - (start + BUF4M_SZ) < fd.file.size - offset :=
        Nat.sub_lt_sub_left (behind.trans_le room) behind
      have rest := ih (fd.file.size - (start + BUF4M_SZ)) (by rwa [← remaining]) (start + BUF4M_SZ) (start + BUF4M_SZ)
        (imgeditorSearchBuf fd start (fd.file.slice start BUF4M_SZ) slots) (by omega) (by omega)
        (by rw [back, overlap]; exact Nat.add_le_add_left shown _)
        (by
          intro slot member active
          obtain ⟨old, _, _, step⟩ := forall₂_mem_right known member
          rw [step.1] at active
          exact SearchSlot.searchStart_eq (step.2 active).1 (by omega)) rfl
      have ends : readBack (start + BUF4M_SZ) + BUF4M_SZ = start + BUF4M_SZ + windowStride := by omega
      rw [ends] at rest
      exact forall₂_trans (fun _ _ _ step later => step.2.next step.1 low_le later) known rest
    · rw [if_neg full]
      exact known.imp fun _ _ step => step.2.last step.1 (by omega) (by omega)

end Windows

/-- No end of a window, for a search from byte `offset`, lies strictly inside `length` bytes at `pos`,
and the first window begins at `pos` or before. -/
def InOneWindow (offset pos length : Nat) : Prop :=
  readBack offset ≤ pos ∧ WholeAfter (readBack offset + BUF4M_SZ) pos length

theorem imgeditorSearchForeach_detected (f : File) (editors : List Imgeditor) (i : Nat) (editor : Imgeditor)
    (listed : editors[i]? = some editor) (active : editor.magic ≠ []) (offset : Nat)
    (inside : offset < f.size) :
    ∃ slot, (imgeditorSearchForeach (virtualFileOpen f offset) editors)[i]? = some slot ∧
      slot.editor = editor ∧ slot.detected.Nodup ∧
      ∀ start, start ∈ slot.detected ↔ ∃ pos, f.Holds pos editor.magic ∧
        InOneWindow offset pos editor.magic.length ∧
        pos + offset + editor.headerSize ≤ f.size + editor.magicOffset ∧
        start = (pos : Int) - editor.magicOffset + offset := by
  let fd := virtualFileOpen f offset
  have size : BUF4M_SZ = 4194304 := by decide
  have back : readBack offset ≤ offset := by
    unfold readBack
    split <;> omega
  have finished : List.Forall₂ (SearchSlot.Finished fd (readBack offset) (readBack offset + BUF4M_SZ))
      (editors.map fun editor => ⟨editor, 0, []⟩) (imgeditorSearchForeach fd editors) := by
    have begun : (filestart fd).toNat = offset := by simp [fd, filestart, virtualFileOpen]
    rw [imgeditorSearchForeach, begun]
    apply searchWindows_finished offset (readBack offset)
    · exact back.trans_lt inside
    · exact le_refl _
    · omega
    · intro slot member _
      obtain ⟨_, _, rfl⟩ := List.mem_map.mp member
      rfl
  have atSlot := finished.get
  have old : (editors.map fun editor => (⟨editor, 0, []⟩ : SearchSlot))[i]? = some ⟨editor, 0, []⟩ := by
    simp [listed]
  obtain ⟨bound, oldSlot⟩ := List.getElem?_eq_some_iff.mp old
  have newBound : i < (imgeditorSearchForeach fd editors).length := by
    rw [← finished.length_eq]
    exact bound
  obtain ⟨same, run⟩ := finished.get bound newBound
  simp only [List.get_eq_getElem, oldSlot] at same run
  obtain ⟨found, detected, ordered, mem⟩ := run active
  refine ⟨(imgeditorSearchForeach fd editors)[i], List.getElem?_eq_getElem newBound, same, ?_, ?_⟩
  · rw [detected, List.nil_append, detections]
    apply List.Nodup.map
    · intro a b equal
      simp only [detectStart] at equal
      omega
    · exact (ordered.imp fun below => Nat.ne_of_lt below).filter _
  · intro start
    rw [detected, List.nil_append, detections, List.mem_map]
    simp only [List.mem_filter, mem, decide_eq_true_eq, HeaderFits, detectStart, filelength, fd,
      virtualFileOpen]
    constructor
    · rintro ⟨pos, ⟨⟨low, stored, whole⟩, fits⟩, rfl⟩
      exact ⟨pos, stored, ⟨low, whole⟩, by omega, rfl⟩
    · rintro ⟨pos, stored, ⟨low, whole⟩, fits, rfl⟩
      exact ⟨pos, ⟨⟨low, stored, whole⟩, by omega⟩, rfl⟩

theorem imgeditorSearch_inside (f : File) (editors : List Imgeditor) {offset : Nat} (inside : offset < f.size) :
    imgeditorSearch f offset editors = imgeditorSearchForeach (virtualFileOpen f offset) editors := by
  have positive : ¬ filelength (virtualFileOpen f offset) ≤ 0 := by
    simp only [filelength, virtualFileOpen]
    omega
  exact if_neg positive

/-- An occurrence at `pos` that the search has to try: the image starts at `offset` or later and its
header fits in the file. -/
def Required (f : File) (editor : Imgeditor) (offset pos : Nat) : Prop :=
  f.Holds pos editor.magic ∧ offset + editor.magicOffset ≤ pos ∧
    pos + editor.headerSize ≤ f.size + editor.magicOffset

/-- `detect` is called once on a virtual file at every required position, and never before `offset`. -/
def SearchMeets (f : File) (editors : List Imgeditor) (i offset : Nat) : Prop :=
  ∃ slot, (imgeditorSearchForeach (virtualFileOpen f offset) editors)[i]? = some slot ∧
    (∀ pos, Required f slot.editor offset pos →
      slot.detected.count ((pos : Int) - slot.editor.magicOffset) = 1) ∧
    ∀ start ∈ slot.detected, (offset : Int) ≤ start

/-- The magic of every required occurrence also stands `offset` bytes before it, inside one window,
and no magic that is found lies closer to the start of the file than its magic offset. -/
def SearchSafe (f : File) (editor : Imgeditor) (offset : Nat) : Prop :=
  (∀ pos, Required f editor offset pos →
    f.Holds (pos - offset) editor.magic ∧ InOneWindow offset (pos - offset) editor.magic.length) ∧
  ∀ pos, f.Holds pos editor.magic → InOneWindow offset pos editor.magic.length →
    pos + offset + editor.headerSize ≤ f.size + editor.magicOffset → editor.magicOffset ≤ pos

theorem imgeditorSearchForeach_exact (f : File) (editors : List Imgeditor) (i : Nat) (editor : Imgeditor)
    (listed : editors[i]? = some editor) (active : editor.magic ≠ []) (offset : Nat)
    (inside : offset < f.size) :
    SearchMeets f editors i offset ↔ SearchSafe f editor offset := by
  obtain ⟨slot, result, rfl, once, mem⟩ :=
    imgeditorSearchForeach_detected f editors i editor listed active offset inside
  constructor
  · rintro ⟨_, again, found, notBefore⟩
    obtain rfl := Option.some.inj (result.symm.trans again)
    refine ⟨fun pos required => ?_, fun pos stored whole fits => ?_⟩
    · have present : ((pos : Int) - slot.editor.magicOffset) ∈ slot.detected :=
        List.count_pos_iff.mp (by rw [found pos required]; exact Nat.one_pos)
      obtain ⟨shifted, stored, whole, _, equal⟩ := (mem _).mp present
      have origin : pos - offset = shifted := by omega
      rw [origin]
      exact ⟨stored, whole⟩
    · have later := notBefore _ ((mem _).mpr ⟨pos, stored, whole, fits, rfl⟩)
      omega
  · rintro ⟨shifted, notBefore⟩
    refine ⟨slot, result, fun pos required => ?_, fun start member => ?_⟩
    · obtain ⟨stored, whole⟩ := shifted pos required
      obtain ⟨_, low, fits⟩ := required
      apply List.count_eq_one_of_mem once
      exact (mem _).mpr ⟨pos - offset, stored, whole, by omega, by omega⟩
    · obtain ⟨pos, stored, whole, fits, rfl⟩ := (mem start).mp member
      have inImage := notBefore pos stored whole fits
      omega

def fdtEditor : Imgeditor where
  name := "fdt"
  headerSize := 40
  magic := [0xd0, 0x0d, 0xfe, 0xed]
  magicOffset := 0
  headerSize_int := by decide
  mbr_plain := fun name => absurd name (by decide)

def fdtHeaderFile (before : List Byte) : File :=
  File.ofBytes (before ++ ([0xd0, 0x0d, 0xfe, 0xed] ++ List.replicate 36 0))

theorem imgeditorSearchForeach_exact_wholeFile :
    SearchMeets (fdtHeaderFile []) [fdtEditor] 0 0 := by
  apply (imgeditorSearchForeach_exact (fdtHeaderFile []) [fdtEditor] 0 fdtEditor rfl (by decide) 0
    (by decide)).mpr
  have size : BUF4M_SZ = 4194304 := by decide
  refine ⟨fun pos required => ⟨required.1, ?_⟩, fun pos _ _ _ => Nat.zero_le pos⟩
  have ends : pos + 4 ≤ 40 := required.1.1
  refine ⟨Nat.zero_le pos, wholeAfter_of_le ?_⟩
  show pos + 4 ≤ 0 + BUF4M_SZ
  omega

/-- One byte before the image, and a search from byte 1: the image is tried at byte 2, behind which
its header does not fit. -/
theorem imgeditorSearchForeach_offset :
    Required (fdtHeaderFile [0]) fdtEditor 1 1 ∧ ¬ SearchMeets (fdtHeaderFile [0]) [fdtEditor] 0 1 := by
  have required : Required (fdtHeaderFile [0]) fdtEditor 1 1 := ⟨by decide, by decide, by decide⟩
  refine ⟨required, ?_⟩
  rintro ⟨slot, result, found, _⟩
  obtain ⟨slot', result', same, _, mem⟩ := imgeditorSearchForeach_detected (fdtHeaderFile [0])
    [fdtEditor] 0 fdtEditor rfl (by decide) 1 (by decide)
  obtain rfl := Option.some.inj (result.symm.trans result')
  rw [same] at found
  have present : (((1 : Nat) : Int) - fdtEditor.magicOffset) ∈ slot.detected :=
    List.count_pos_iff.mp (by rw [found 1 required]; exact Nat.one_pos)
  obtain ⟨pos, stored, _, fits, _⟩ := (mem _).mp present
  have first : pos + 1 + 40 ≤ 41 := fits
  obtain rfl : pos = 0 := by omega
  exact absurd stored (by decide)

end ImgEditor
