import Mathlib.Data.List.Forall2
import ImgEditor.Core.Search

namespace ImgEditor

open Storage

theorem forall₂_trans {α : Type} {R S T : α → α → Prop} (compose : ∀ a b c, R a b → S b c → T a c)
    {l₁ l₂ l₃ : List α} (first : List.Forall₂ R l₁ l₂) (second : List.Forall₂ S l₂ l₃) :
    List.Forall₂ T l₁ l₃ := by
  induction first generalizing l₃ with
  | nil =>
    cases second
    exact .nil
  | cons head _ ih =>
    cases second with
    | cons head' tail' => exact .cons (compose _ _ _ head head') (ih tail')

theorem forall₂_mem_right {α : Type} {R : α → α → Prop} {l₁ l₂ : List α} (related : List.Forall₂ R l₁ l₂)
    {new : α} (member : new ∈ l₂) : ∃ old ∈ l₁, R old new := by
  induction related with
  | nil => exact absurd member List.not_mem_nil
  | cons head _ ih =>
    rcases List.mem_cons.mp member with rfl | member
    · exact ⟨_, List.mem_cons_self, head⟩
    · obtain ⟨old, oldMember, relates⟩ := ih member
      exact ⟨old, List.mem_cons_of_mem _ oldMember, relates⟩

theorem forall₂_imp_mem {α : Type} {R S : α → α → Prop} {l₁ l₂ : List α} (related : List.Forall₂ R l₁ l₂)
    (weaken : ∀ old ∈ l₁, ∀ new, R old new → S old new) : List.Forall₂ S l₁ l₂ := by
  induction related with
  | nil => exact .nil
  | cons head _ ih =>
    exact .cons (weaken _ List.mem_cons_self _ head)
      (ih fun old member => weaken old (List.mem_cons_of_mem _ member))

def SearchSlot.searchStart (slot : SearchSlot) (fileOffset : Nat) : Nat :=
  if slot.nextSearchOffset = 0 then fileOffset else slot.nextSearchOffset

theorem SearchSlot.searchStart_eq {slot : SearchSlot} {fileOffset next : Nat}
    (left : slot.nextSearchOffset = next) (positive : 0 < next) : slot.searchStart fileOffset = next := by
  unfold searchStart
  rw [if_neg (by omega), left]

/-- The header check that guards `detect`; `filelength` is the length of the virtual file. -/
def HeaderFits (fd : VirtualFile) (editor : Imgeditor) (pos : Nat) : Prop :=
  (pos : Int) - editor.magicOffset + editor.headerSize ≤ filelength fd

instance (fd : VirtualFile) (editor : Imgeditor) : DecidablePred (HeaderFits fd editor) :=
  fun _ => inferInstanceAs (Decidable (_ ≤ _))

/-- Byte 0 of the virtual file that a magic at `pos` leads to. -/
def detectStart (fd : VirtualFile) (editor : Imgeditor) (pos : Nat) : Int :=
  (pos : Int) - editor.magicOffset + fd.startOffset

def detections (fd : VirtualFile) (editor : Imgeditor) (positions : List Nat) : List Int :=
  (positions.filter fun pos => HeaderFits fd editor pos).map (detectStart fd editor)

theorem detections_append (fd : VirtualFile) (editor : Imgeditor) (before after : List Nat) :
    detections fd editor (before ++ after) = detections fd editor before ++ detections fd editor after := by
  simp [detections]

section Window

variable {fd : VirtualFile} {start count : Nat}

/-- A window of the file as the search reads it. -/
structure Window (fd : VirtualFile) (start count : Nat) : Prop where
  inside : start + count ≤ fd.file.size
  filled : 0 < count
  bounded : count ≤ BUF4M_SZ

/-- A slot whose search goes on inside the window or at its end. -/
def SearchSlot.Inside (slot : SearchSlot) (start count : Nat) : Prop :=
  start ≤ slot.searchStart start ∧ slot.searchStart start ≤ start + count

theorem SearchSlot.Inside.bufferOffset {slot : SearchSlot} (inside : slot.Inside start count)
    (window : Window fd start count) :
    (if slot.nextSearchOffset = 0 then (0 : Int) else toInt32 (slot.nextSearchOffset - start)) =
      (slot.searchStart start - start : Nat) := by
  obtain ⟨above, below⟩ := inside
  have bounded := window.bounded
  have size : BUF4M_SZ = 4194304 := by decide
  unfold searchStart at above below ⊢
  split
  · simp
  · rename_i started
    rw [if_neg started] at above below
    have cast : (slot.nextSearchOffset : Int) - start = (slot.nextSearchOffset - start : Nat) := by omega
    rw [cast, toInt32_of_lt (by omega)]

theorem searchEditor_missing {slot : SearchSlot} (searched : slot.editor.magic ≠ [])
    (inside : slot.Inside start count) (window : Window fd start count)
    (missing : ∀ pos, slot.searchStart start ≤ pos → pos + slot.editor.magic.length ≤ start + count →
      ¬ fd.file.Holds pos slot.editor.magic) :
    searchEditor fd start (fd.file.slice start count) slot =
      ({ slot with nextSearchOffset := start + count }, false) := by
  have filled := window.filled
  have bounded := window.bounded
  have size : BUF4M_SZ = 4194304 := by decide
  have positive := List.length_pos_iff.mpr searched
  have offset := inside.bufferOffset window
  obtain ⟨above, below⟩ := inside
  simp only [searchEditor, offset, File.slice_length]
  rw [if_neg (by omega), toInt32_of_lt (by omega)]
  by_cases ended : slot.searchStart start = start + count
  · rw [if_pos (Or.inr (by omega))]
    have started : slot.nextSearchOffset ≠ 0 := by
      intro zero
      simp only [SearchSlot.searchStart, zero, if_true] at ended
      omega
    simp only [SearchSlot.searchStart, started, if_false] at ended
    rw [← ended]
  · rw [if_neg (by omega)]
    have unfound : memmem ((fd.file.slice start count).drop (slot.searchStart start - start))
        slot.editor.magic = none := by
      cases search : memmem ((fd.file.slice start count).drop (slot.searchStart start - start))
        slot.editor.magic with
      | none => rfl
      | some found =>
        have present := (memmem_some search).1
        rw [List.drop_drop, fd.file.prefix_slice_iff searched window.inside] at present
        exact absurd present.1 (missing _ (by omega) (by omega))
    simp only [Int.toNat_natCast, unfound]

theorem searchEditor_found {slot : SearchSlot} {pos : Nat} (searched : slot.editor.magic ≠ [])
    (inside : slot.Inside start count) (window : Window fd start count)
    (above : slot.searchStart start ≤ pos) (stored : fd.file.Holds pos slot.editor.magic)
    (fits : pos + slot.editor.magic.length ≤ start + count)
    (first : ∀ before, slot.searchStart start ≤ before → before < pos →
      ¬ fd.file.Holds before slot.editor.magic) :
    searchEditor fd start (fd.file.slice start count) slot =
      ({ slot with
          nextSearchOffset := pos + 1
          detected := slot.detected ++ detections fd slot.editor [pos] }, true) := by
  have bounded := window.bounded
  have size : BUF4M_SZ = 4194304 := by decide
  have positive := List.length_pos_iff.mpr searched
  have offset := inside.bufferOffset window
  obtain ⟨from_start, below⟩ := inside
  simp only [searchEditor, offset, File.slice_length]
  rw [if_neg (by omega), toInt32_of_lt (by omega), if_neg (by omega)]
  have present : slot.editor.magic <+: ((fd.file.slice start count).drop (slot.searchStart start - start)).drop
      (pos - slot.searchStart start) := by
    rw [List.drop_drop, fd.file.prefix_slice_iff searched window.inside]
    have same : start + (slot.searchStart start - start + (pos - slot.searchStart start)) = pos := by omega
    rw [same]
    exact ⟨stored, by omega⟩
  have found : memmem ((fd.file.slice start count).drop (slot.searchStart start - start))
      slot.editor.magic = some (pos - slot.searchStart start) := by
    cases search : memmem ((fd.file.slice start count).drop (slot.searchStart start - start))
      slot.editor.magic with
    | none => exact absurd present (memmem_none search _)
    | some found =>
      obtain ⟨here, earliest⟩ := memmem_some search
      rw [List.drop_drop, fd.file.prefix_slice_iff searched window.inside] at here
      have notAfter : ¬ pos - slot.searchStart start < found := fun later => earliest _ later present
      have notBefore : ¬ start + (slot.searchStart start - start + found) < pos := fun earlier =>
        first _ (by omega) earlier here.1
      congr 1
      omega
  have absolute : start + (slot.searchStart start - start + (pos - slot.searchStart start)) = pos := by omega
  have header := toInt32_of_lt slot.editor.headerSize_int
  simp only [Int.toNat_natCast, found, absolute, header]
  by_cases fitsHeader : HeaderFits fd slot.editor pos
  · have guard := fitsHeader
    unfold HeaderFits at guard
    rw [if_neg (by omega)]
    simp [SearchSlot.detectIt, detections, fitsHeader, detectStart, virtualFileDup, filestart]
  · have guard := fitsHeader
    unfold HeaderFits at guard
    rw [if_pos (by omega)]
    simp [detections, fitsHeader]

/-- What a run over one window leaves in a slot: every occurrence from the slot's own start to the end
of the window was tried, and the next search starts behind the window. -/
def SearchSlot.Searched (fd : VirtualFile) (start count : Nat) (old new : SearchSlot) : Prop :=
  new.editor = old.editor ∧
    (old.editor.magic ≠ [] → new.nextSearchOffset = start + count ∧
      new.detected = old.detected ++ detections fd old.editor
        (fd.file.occurrences old.editor.magic (old.searchStart start) (start + count)))

def SearchSlot.Passed (fd : VirtualFile) (start count : Nat) (ready : Bool) (old new : SearchSlot) : Prop :=
  new.editor = old.editor ∧
    (old.editor.magic ≠ [] → new = (searchEditor fd start (fd.file.slice start count) old).1 ∧
      ((searchEditor fd start (fd.file.slice start count) old).2 = true → ready = true))

theorem searchEditor_editor (buf : List Byte) (slot : SearchSlot) :
    (searchEditor fd start buf slot).1.editor = slot.editor := by
  simp only [searchEditor]
  generalize (if slot.nextSearchOffset = 0 then (0 : Int)
    else toInt32 (slot.nextSearchOffset - start)) = offset
  by_cases plain : slot.editor.magic.length = 0
  · rw [if_pos plain]
  rw [if_neg plain]
  by_cases outside : offset < 0 ∨ offset ≥ toInt32 buf.length
  · rw [if_pos outside]
  rw [if_neg outside]
  cases memmem (buf.drop offset.toNat) slot.editor.magic with
  | none => rfl
  | some found =>
    simp only
    split <;> rfl

theorem SearchSlot.Passed.weaken {ready ready' : Bool} {old new : SearchSlot}
    (passed : old.Passed fd start count ready new) (keeps : ready = true → ready' = true) :
    old.Passed fd start count ready' new :=
  ⟨passed.1, fun searched => ⟨(passed.2 searched).1, fun found => keeps ((passed.2 searched).2 found)⟩⟩

theorem searchPass_passed (offset0Searched : Bool) (slots : List SearchSlot) :
    List.Forall₂
      (SearchSlot.Passed fd start count
        (searchPass fd start (fd.file.slice start count) offset0Searched slots).2.1)
      slots (searchPass fd start (fd.file.slice start count) offset0Searched slots).1 := by
  induction slots generalizing offset0Searched with
  | nil => exact .nil
  | cons slot rest ih =>
    unfold searchPass
    split
    · rename_i mbr
      refine .cons ⟨rfl, fun searched => absurd (slot.editor.mbr_plain mbr.2.2) searched⟩ (ih true)
    · refine .cons ⟨searchEditor_editor _ slot, fun _ => ⟨rfl, fun found => ?_⟩⟩ ?_
      · simp [found]
      · exact (ih offset0Searched).imp fun _ _ passed => passed.weaken fun found => by simp [found]

theorem searchPass_ready {offset0Searched : Bool} {slots : List SearchSlot}
    (ready : (searchPass fd start (fd.file.slice start count) offset0Searched slots).2.1 = true) :
    ∃ slot ∈ slots, slot.editor.magic ≠ [] ∧
      (searchEditor fd start (fd.file.slice start count) slot).2 = true := by
  induction slots generalizing offset0Searched with
  | nil => simp [searchPass] at ready
  | cons slot rest ih =>
    unfold searchPass at ready
    split at ready
    · obtain ⟨later, member, found⟩ := ih ready
      exact ⟨later, List.mem_cons_of_mem _ member, found⟩
    · simp only [Bool.or_eq_true] at ready
      rcases ready with ready | ready
      · refine ⟨slot, List.mem_cons_self, fun plain => ?_, ready⟩
        simp [searchEditor, plain] at ready
      · obtain ⟨later, member, found⟩ := ih ready
        exact ⟨later, List.mem_cons_of_mem _ member, found⟩

theorem SearchSlot.Inside.cases {slot : SearchSlot} (inside : slot.Inside start count)
    (window : Window fd start count) (searched : slot.editor.magic ≠ []) :
    (searchEditor fd start (fd.file.slice start count) slot =
        ({ slot with nextSearchOffset := start + count }, false) ∧
      fd.file.occurrences slot.editor.magic (slot.searchStart start) (start + count) = []) ∨
    ∃ pos, slot.searchStart start ≤ pos ∧ pos < start + count ∧
      searchEditor fd start (fd.file.slice start count) slot =
        ({ slot with
            nextSearchOffset := pos + 1
            detected := slot.detected ++ detections fd slot.editor [pos] }, true) ∧
      fd.file.occurrences slot.editor.magic (slot.searchStart start) (start + count) =
        pos :: fd.file.occurrences slot.editor.magic (pos + 1) (start + count) := by
  have positive := List.length_pos_iff.mpr searched
  by_cases occurs : ∃ pos, slot.searchStart start ≤ pos ∧ fd.file.Holds pos slot.editor.magic ∧
      pos + slot.editor.magic.length ≤ start + count
  · right
    obtain ⟨above, stored, fits⟩ := Nat.find_spec occurs
    have first : ∀ before, slot.searchStart start ≤ before → before < Nat.find occurs →
        ¬ fd.file.Holds before slot.editor.magic := fun before low below held =>
      Nat.find_min occurs below ⟨low, held, by omega⟩
    exact ⟨Nat.find occurs, above, by omega,
      searchEditor_found searched inside window above stored fits first,
      fd.file.occurrences_cons searched above stored fits first⟩
  · left
    have missing : ∀ pos, slot.searchStart start ≤ pos →
        pos + slot.editor.magic.length ≤ start + count → ¬ fd.file.Holds pos slot.editor.magic :=
      fun pos above fits held => occurs ⟨pos, above, held, fits⟩
    exact ⟨searchEditor_missing searched inside window missing,
      fd.file.occurrences_eq_nil searched missing⟩

/-- The bound on the passes that are left: a slot that can still find something is that far ahead. -/
def SearchSlot.Ahead (fd : VirtualFile) (start count passes : Nat) (slot : SearchSlot) : Prop :=
  slot.editor.magic ≠ [] → slot.Inside start count ∧
    (fd.file.occurrences slot.editor.magic (slot.searchStart start) (start + count) ≠ [] →
      start + count ≤ slot.searchStart start + passes)

theorem SearchSlot.Passed.ahead {passes : Nat} {ready : Bool} {old new : SearchSlot}
    (window : Window fd start count) (ahead : old.Ahead fd start count (passes + 1))
    (passed : old.Passed fd start count ready new) : new.Ahead fd start count passes := by
  intro searched
  rw [passed.1] at searched ⊢
  obtain ⟨inside, bound⟩ := ahead searched
  obtain ⟨step, _⟩ := passed.2 searched
  have filled := window.filled
  rcases inside.cases window searched with ⟨missing, _⟩ | ⟨pos, above, below, found, occurs⟩
  · rw [missing] at step
    have next : new.searchStart start = start + count := searchStart_eq (by rw [step]) (by omega)
    refine ⟨⟨by omega, by omega⟩, fun _ => by omega⟩
  · rw [found] at step
    have next : new.searchStart start = pos + 1 := searchStart_eq (by rw [step]) (by omega)
    have reached := bound (by rw [occurs]; exact List.cons_ne_nil _ _)
    have low := inside.1
    refine ⟨⟨by omega, by omega⟩, fun _ => by omega⟩

theorem SearchSlot.Passed.searched {passes : Nat} {ready : Bool} {old middle new : SearchSlot}
    (window : Window fd start count) (ahead : old.Ahead fd start count passes)
    (passed : old.Passed fd start count ready middle) (rest : middle.Searched fd start count new) :
    old.Searched fd start count new := by
  refine ⟨rest.1.trans passed.1, fun searched => ?_⟩
  obtain ⟨step, _⟩ := passed.2 searched
  obtain ⟨next, detected⟩ := rest.2 (by rw [passed.1]; exact searched)
  have filled := window.filled
  rw [passed.1] at detected
  refine ⟨next, ?_⟩
  rcases (ahead searched).1.cases window searched with ⟨missing, empty⟩ | ⟨pos, _, _, found, occurs⟩
  · rw [missing] at step
    have from_end : middle.searchStart start = start + count := searchStart_eq (by rw [step]) (by omega)
    have nothing : fd.file.occurrences old.editor.magic (start + count) (start + count) = [] := by
      simp [File.occurrences]
    rw [detected, from_end, nothing, empty, step]
  · rw [found] at step
    have from_pos : middle.searchStart start = pos + 1 := searchStart_eq (by rw [step]) (by omega)
    rw [detected, from_pos, occurs, step, List.append_assoc, ← detections_append]
    rfl

theorem SearchSlot.Passed.finished {passes : Nat} {old new : SearchSlot} (window : Window fd start count)
    (ahead : old.Ahead fd start count passes) (passed : old.Passed fd start count false new) :
    old.Searched fd start count new := by
  refine ⟨passed.1, fun searched => ?_⟩
  obtain ⟨step, unready⟩ := passed.2 searched
  rcases (ahead searched).1.cases window searched with ⟨missing, empty⟩ | ⟨pos, _, _, found, _⟩
  · rw [missing] at step
    rw [step, empty]
    exact ⟨rfl, by simp [detections]⟩
  · rw [found] at unready
    exact absurd (unready rfl) (by decide)

theorem searchPasses_searched (window : Window fd start count) (passes : Nat) (offset0Searched : Bool)
    (slots : List SearchSlot) (ahead : ∀ slot ∈ slots, slot.Ahead fd start count passes) :
    List.Forall₂ (SearchSlot.Searched fd start count) slots
      (searchPasses fd start (fd.file.slice start count) (passes + 1) offset0Searched slots) := by
  induction passes generalizing offset0Searched slots with
  | zero =>
    have passed : List.Forall₂ (SearchSlot.Passed fd start count _) slots _ :=
      searchPass_passed offset0Searched slots
    have unready : (searchPass fd start (fd.file.slice start count) offset0Searched slots).2.1 = false := by
      by_contra ready
      obtain ⟨slot, member, searched, found⟩ := searchPass_ready (Bool.eq_true_of_not_eq_false ready)
      obtain ⟨inside, bound⟩ := ahead slot member searched
      rcases inside.cases window searched with ⟨missing, _⟩ | ⟨pos, above, below, _, occurs⟩
      · simp [missing] at found
      · have reached := bound (by rw [occurs]; exact List.cons_ne_nil _ _)
        omega
    simp only [searchPasses, unready] at passed ⊢
    exact forall₂_imp_mem passed fun old member _ step => step.finished window (ahead old member)
  | succ passes ih =>
    have passed : List.Forall₂ (SearchSlot.Passed fd start count _) slots _ :=
      searchPass_passed offset0Searched slots
    rw [searchPasses]
    generalize searchPass fd start (fd.file.slice start count) offset0Searched slots = result at passed
    obtain ⟨slots', ready, searched⟩ := result
    cases ready with
    | false =>
      exact forall₂_imp_mem passed fun old member _ step => step.finished window (ahead old member)
    | true =>
      have aheadNew : ∀ slot ∈ slots', slot.Ahead fd start count passes := by
        intro new member
        obtain ⟨old, oldMember, step⟩ := forall₂_mem_right passed member
        exact step.ahead window (ahead old oldMember)
      have rest := ih searched slots' aheadNew
      have known := forall₂_imp_mem passed fun old member new step => And.intro (ahead old member) step
      exact forall₂_trans (fun _ _ _ step later => step.2.searched window step.1 later) known rest

theorem imgeditorSearchBuf_searched (window : Window fd start count) (slots : List SearchSlot)
    (inside : ∀ slot ∈ slots, slot.editor.magic ≠ [] → slot.Inside start count) :
    List.Forall₂ (SearchSlot.Searched fd start count) slots
      (imgeditorSearchBuf fd start (fd.file.slice start count) slots) := by
  unfold imgeditorSearchBuf
  rw [File.slice_length]
  apply searchPasses_searched window
  intro slot member searched
  have position := inside slot member searched
  refine ⟨position, fun _ => ?_⟩
  have low := position.1
  omega

end Window

end ImgEditor
