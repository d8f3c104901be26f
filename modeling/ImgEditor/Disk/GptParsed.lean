import ImgEditor.Disk.GptSlots

namespace ImgEditor

open Storage CText

def GptExpr.Taken : GptExpr → Prop
  | .start s | .size s => (toPartitionLbaSize s).isSome
  | .uuidDisk s | .uuid s | .type s => (sscanfUuid .zero s).isSome
  | .name _ | .bootable => True

def TokenTaken (token : CString) : Prop := ∃ expr, gptExpr token = some expr ∧ expr.Taken

theorem gptParseExpr_some_iff (entry : Nat) (st : GptPartState) (expr : GptExpr) :
    (∃ st', gptParseExpr entry st expr = some st') ↔ expr.Taken := by
  rw [← Option.isSome_iff_exists]
  cases expr with
  | uuidDisk s => rw [gptParseExpr, Option.isSome_map, sscanfUuid_any _ .zero, GptExpr.Taken]
  | name s => exact iff_of_true rfl True.intro
  | start s => rw [gptParseExpr, Option.isSome_map, GptExpr.Taken]
  | size s => rw [gptParseExpr, Option.isSome_map, GptExpr.Taken]
  | uuid s => rw [gptParseExpr, Option.isSome_map, sscanfUuid_any _ .zero, GptExpr.Taken]
  | type s => rw [gptParseExpr, Option.isSome_map, sscanfUuid_any _ .zero, GptExpr.Taken]
  | bootable => exact iff_of_true rfl True.intro

theorem gptParseExprs_some_iff (entry : Nat) (tokens : List CString) (st : GptPartState) :
    (∃ st', tokens.foldlM (fun st expr => (gptExpr expr).bind (gptParseExpr entry st)) st = some st') ↔
      ∀ token ∈ tokens, TokenTaken token := by
  induction tokens generalizing st with
  | nil => exact iff_of_true ⟨st, rfl⟩ nofun
  | cons token rest ih =>
    rw [List.forall_mem_cons, List.foldlM_cons]
    constructor
    · rintro ⟨st', run⟩
      obtain ⟨middle, first, others⟩ := Option.bind_eq_some_iff.mp run
      obtain ⟨expr, known, step⟩ := Option.bind_eq_some_iff.mp first
      exact ⟨⟨expr, known, (gptParseExpr_some_iff entry st expr).mp ⟨middle, step⟩⟩, (ih middle).mp ⟨st', others⟩⟩
    · rintro ⟨⟨expr, known, taken⟩, others⟩
      obtain ⟨middle, step⟩ := (gptParseExpr_some_iff entry st expr).mpr taken
      obtain ⟨st', run⟩ := (ih middle).mpr others
      exact ⟨st', Option.bind_eq_some_iff.mpr ⟨middle, Option.bind_eq_some_iff.mpr ⟨expr, known, step⟩, run⟩⟩

def listedTokens (tokens : List CString) : ListedPart := (tokens.filterMap gptExpr).foldl ListedPart.add ListedPart.empty

/-- A part is parsed where all of its options are taken, and a partition has a size. -/
theorem gptParsePart_some_iff {p : GptWriteData} {part : CString} (whole : WholePart part) :
    (∃ p', gptParsePart p part = some p') ↔
      p.activePartitionEntries < p.partitions.length ∧ (∀ token ∈ strtok [44] part, TokenTaken token) ∧
        ((listedPart part).uuidDisk = false → (listedPart part).lbaSize ≠ 0) := by
  have exprs : argvBufferSplitWithDelim (part.take 1023) [44] 32 = strtok [44] part := by
    rw [List.take_of_length_le whole.1, argvBufferSplitWithDelim, if_neg (by decide)]
    exact List.take_of_length_le whole.2
  constructor
  · rintro ⟨p', parsed⟩
    have placed := gptParsePart_parsed whole parsed
    refine ⟨placed.inside, ?_, fun own => (placed.placed own).1⟩
    simp only [gptParsePart, exprs] at parsed
    rw [if_neg (Nat.not_le_of_lt placed.inside)] at parsed
    obtain ⟨st, run, _⟩ := Option.bind_eq_some_iff.mp parsed
    exact (gptParseExprs_some_iff _ _ _).mp ⟨st, run⟩
  · rintro ⟨inside, taken, filled⟩
    obtain ⟨st, run⟩ := (gptParseExprs_some_iff p.activePartitionEntries _ ⟨p, p.nextLba, 0, true, false⟩).mpr taken
    have read : PartRead p (listedPart part) st := gptParseExprs_read run (partRead_empty p)
    simp only [gptParsePart, exprs]
    rw [if_neg (Nat.not_le_of_lt inside)]
    refine Option.isSome_iff_exists.mp ?_
    rw [Option.bind_eq_bind, run, Option.bind_some, gptPlacePart, read.disk]
    cases disk : (listedPart part).uuidDisk with
    | true => rfl
    | false =>
      have size : st.lbaSize ≠ 0 := by
        rw [read.size]
        exact filled disk
      rw [Bool.not_false, if_pos rfl, if_neg size]
      rfl

section Names

/-- Names come from the parser, or the slot is still empty. -/
def NamesMade (entries : List GptEntry) : Prop :=
  ∀ e ∈ entries, ∃ s, e.partitionName = setGptPartitionName (Vector.replicate 36 0) s

theorem NamesMade.modify {entries : List GptEntry} (made : NamesMade entries) (i : Nat) {f : GptEntry → GptEntry}
    (keeps : ∀ e, (∃ s, e.partitionName = setGptPartitionName (Vector.replicate 36 0) s) →
      ∃ s, (f e).partitionName = setGptPartitionName (Vector.replicate 36 0) s) : NamesMade (entries.modify i f) := by
  intro e member
  obtain ⟨j, inside, rfl⟩ := List.mem_iff_getElem.mp member
  rw [List.getElem_modify]
  split
  · exact keeps _ (made _ (List.getElem_mem _))
  · exact made _ (List.getElem_mem _)

theorem gptParseExpr_names {entry : Nat} {st st' : GptPartState} {expr : GptExpr} (made : NamesMade st.p.partitions)
    (step : gptParseExpr entry st expr = some st') : NamesMade st'.p.partitions := by
  cases expr with
  | uuidDisk s =>
    obtain ⟨guid, _, rfl⟩ := Option.map_eq_some_iff.mp step
    exact made
  | name s =>
    obtain rfl := Option.some.inj step
    exact made.modify entry fun e _ => ⟨s, rfl⟩
  | start s =>
    obtain ⟨lba, _, rfl⟩ := Option.map_eq_some_iff.mp step
    exact made
  | size s =>
    obtain ⟨lba, _, rfl⟩ := Option.map_eq_some_iff.mp step
    exact made
  | uuid s =>
    obtain ⟨guid, _, rfl⟩ := Option.map_eq_some_iff.mp step
    exact made.modify entry fun e named => named
  | type s =>
    obtain ⟨guid, _, rfl⟩ := Option.map_eq_some_iff.mp step
    exact made.modify entry fun e named => named
  | bootable =>
    obtain rfl := Option.some.inj step
    exact made.modify entry fun e named => named

theorem gptParseExprs_names {entry : Nat} {tokens : List CString} {st st' : GptPartState} (made : NamesMade st.p.partitions)
    (run : tokens.foldlM (fun st expr => (gptExpr expr).bind (gptParseExpr entry st)) st = some st') :
    NamesMade st'.p.partitions := by
  induction tokens generalizing st with
  | nil =>
    obtain rfl := Option.some.inj run
    exact made
  | cons token rest ih =>
    rw [List.foldlM_cons] at run
    obtain ⟨middle, first, others⟩ := Option.bind_eq_some_iff.mp run
    obtain ⟨expr, _, step⟩ := Option.bind_eq_some_iff.mp first
    exact ih (gptParseExpr_names made step) others

theorem gptPlacePart_names {entry : Nat} {st : GptPartState} {p' : GptWriteData} (made : NamesMade st.p.partitions)
    (placed : gptPlacePart entry st = some p') : NamesMade p'.partitions := by
  unfold gptPlacePart at placed
  split at placed
  · split at placed
    · cases placed
    · obtain rfl := Option.some.inj placed
      apply NamesMade.modify
      · split
        · exact made
        · exact made.modify entry fun e named => named
      · exact fun e named => named
  · obtain rfl := Option.some.inj placed
    exact made

theorem gptParsePart_names {p p' : GptWriteData} {part : CString} (made : NamesMade p.partitions)
    (parsed : gptParsePart p part = some p') : NamesMade p'.partitions := by
  simp only [gptParsePart] at parsed
  split at parsed
  · cases parsed
  · obtain ⟨st, run, placed⟩ := Option.bind_eq_some_iff.mp parsed
    have start : NamesMade (GptPartState.mk p p.nextLba 0 true false).p.partitions := made
    exact gptPlacePart_names (gptParseExprs_names start run) placed

theorem gptParseParts_names {p p' : GptWriteData} {parts : List CString} (made : NamesMade p.partitions)
    (run : parts.foldlM gptParsePart p = some p') : NamesMade p'.partitions := by
  induction parts generalizing p with
  | nil =>
    obtain rfl := Option.some.inj run
    exact made
  | cons part rest ih =>
    rw [List.foldlM_cons] at run
    obtain ⟨middle, first, others⟩ := Option.bind_eq_some_iff.mp run
    exact ih (gptParsePart_names made first) others

end Names

end ImgEditor
