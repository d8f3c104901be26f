import ImgEditor.Disk.GptRelist

namespace ImgEditor

open Storage CText

def NamesSeparate (entries : List GptEntry) : Prop :=
  ∀ e ∈ entries, e.Used → ∀ unit ∈ e.partitionName.text, unit ≠ 44 ∧ unit ≠ 59

/-- The type that the entries get: that of all of them, or zero. -/
def listedType (entries : List GptEntry) : EfiGuid :=
  if gptSameDiskTypeUid entries then (entries.headD .zero).partitionTypeGuid else .zero

def listedFront (entries : List GptEntry) : List GptEntry := entries.takeWhile fun e => e.Used

/-- The used entries stand in front and survive with their names, in a text of which 4048 bytes are behind its first part. -/
structure GptSurvives (hdr : GptHeader) (entries : List GptEntry) : Prop where
  names : ∀ e ∈ entries, e.Used → NameSurvives e.partitionName
  front : ∀ e ∈ entries.dropWhile fun e => e.Used, ¬ e.Used
  listed : ListedSurvive (listedType entries) (gptSameDiskTypeUid entries) 0 hdr.firstUsableLba 4048 (listedFront entries)

theorem plainName_of_survives {e : GptEntry} (survives : NameSurvives e.partitionName)
    (separate : ∀ unit ∈ e.partitionName.text, unit ≠ 44 ∧ unit ≠ 59) : PlainName e := by
  unfold PlainName
  rw [listedName_survives survives]
  intro c member
  obtain ⟨unit, inside, rfl⟩ := List.mem_map.mp member
  have kept := signExtend_low (survives.2 unit inside)
  obtain ⟨comma, semicolon⟩ := separate unit inside
  constructor
  · intro same
    rw [same] at kept
    exact comma kept.symm
  · intro same
    rw [same] at kept
    exact semicolon kept.symm

theorem listedFront_used (entries : List GptEntry) : ∀ e ∈ listedFront entries, e ∈ entries ∧ e.Used := by
  intro e member
  exact ⟨(List.takeWhile_sublist _).subset member, by simpa using List.mem_takeWhile_imp member⟩

def diskPart (hdr : GptHeader) : CString := cstr "uuid_disk=" ++ snprintfUuid hdr.diskGuid

theorem diskPart_unseparated (hdr : GptHeader) : Unseparated (diskPart hdr) := by
  have key : ∀ c ∈ cstr "uuid_disk=", c ≠ 44 ∧ c ≠ 59 := by decide
  refine ⟨List.cons_ne_nil _ _, fun c member => ?_⟩
  rcases List.mem_append.mp member with front | behind
  · exact key c front
  · exact snprintfUuid_plain _ c behind

theorem diskPart_length (hdr : GptHeader) : (diskPart hdr).length = 46 := by
  rw [diskPart, List.length_append, snprintfUuid_length]
  rfl

def relistStart (hdr : GptHeader) (entries : List GptEntry) : GptWriteData :=
  ⟨.zero, List.replicate GPT_MAX_NUM_PARTS.toNat .zero, hdr.firstUsableLba, 0, listedType entries⟩

theorem getD_replicate_zero (count j : Nat) : (List.replicate count GptEntry.zero).getD j .zero = .zero := by
  rw [List.getD_eq_getElem?_getD, List.getElem?_replicate]
  split <;> rfl

theorem gptParsePart_disk (hdr : GptHeader) (entries : List GptEntry) :
    ∃ p, gptParsePart (relistStart hdr entries) (diskPart hdr) = some p ∧ RelistState (listedType entries) 0 hdr.firstUsableLba p := by
  have tokens := strtok_token (diskPart_unseparated hdr).plain.1
  have known : gptExpr (diskPart hdr) = some (.uuidDisk (snprintfUuid hdr.diskGuid)) := rfl
  have size := diskPart_length hdr
  have whole : WholePart (diskPart hdr) := by
    rw [WholePart, tokens, size]
    exact ⟨by decide, Nat.le_add_left _ _⟩
  have listed : listedPart (diskPart hdr) = { ListedPart.empty with uuidDisk := true } := by
    rw [listedPart, tokens, List.filterMap_cons_some known]
    rfl
  have taken : ∀ token ∈ strtok [44] (diskPart hdr), TokenTaken token := by
    rw [tokens]
    intro token member
    rw [List.mem_singleton.mp member]
    refine ⟨_, known, ?_⟩
    rw [GptExpr.Taken, sscanfUuid_snprintfUuid]
    rfl
  have inside : (relistStart hdr entries).activePartitionEntries < (relistStart hdr entries).partitions.length := by
    show 0 < (List.replicate 128 GptEntry.zero).length
    simp
  obtain ⟨p, parsed⟩ := (gptParsePart_some_iff whole).mpr ⟨inside, taken, fun own => by rw [listed] at own; cases own⟩
  obtain ⟨partitions, active, next, type⟩ := (gptParsePart_parsed whole parsed).unlisted (not_not.mpr listed)
  refine ⟨p, parsed, active, fun j _ => ?_, ?_, type, fun later => absurd later (Nat.lt_irrefl 0)⟩
  · rw [partitions]
    exact getD_replicate_zero _ j
  · rw [partitions]
    exact List.length_replicate

theorem entryParts_plain (same : Bool) {entries : List GptEntry} (plain : ∀ e ∈ entries, PlainName e) (i : Nat) (lba : BitVec 64) :
    ∀ part ∈ entryParts same i lba entries, Plain 59 part ∧ 41 ≤ part.length := by
  intro part member
  obtain ⟨e, listed, withStart, rfl⟩ := entryParts_mem member
  refine ⟨entryPart_plain withStart same (plain e listed), ?_⟩
  rw [entryPart_length]
  omega

theorem listedParts_tokens (hdr : GptHeader) {entries : List GptEntry} (plain : ∀ e ∈ listedFront entries, PlainName e) :
    argvBufferSplitWithDelim ((cstr "uuid_disk=" ++ snprintfUuid hdr.diskGuid ++ cstr ";" ++
        gptListEntries (gptSameDiskTypeUid entries) 0 hdr.firstUsableLba entries).take 4095) [59] 128 =
      diskPart hdr :: cutPieces 4048 (entryParts (gptSameDiskTypeUid entries) 0 hdr.firstUsableLba (listedFront entries)) := by
  have parts := entryParts_plain (gptSameDiskTypeUid entries) plain 0 hdr.firstUsableLba
  have size := diskPart_length hdr
  have text : cstr "uuid_disk=" ++ snprintfUuid hdr.diskGuid ++ cstr ";" ++
      gptListEntries (gptSameDiskTypeUid entries) 0 hdr.firstUsableLba entries =
      delimited 59 (diskPart hdr :: entryParts (gptSameDiskTypeUid entries) 0 hdr.firstUsableLba (listedFront entries)) := by
    rw [gptListEntries_eq]
    rfl
  have few := cutPieces_length_le (fun part member => (parts part member).2) 4048
  rw [text, argvBufferSplitWithDelim, if_neg (by decide), strtok_cutPieces, cutPieces, size, if_neg (by decide),
    show 4095 - (46 + 1) = 4048 from rfl]
  · apply List.take_of_length_le
    rw [List.length_cons]
    omega
  · intro part member
    rcases List.mem_cons.mp member with rfl | later
    · exact (diskPart_unseparated hdr).plain.2
    · exact (parts part later).1

theorem exprIsMatch_append (key rest : CString) : exprIsMatch (key ++ rest) key = some rest := by
  have front : key.isPrefixOf (key ++ rest) = true := List.isPrefixOf_iff_prefix.mpr (List.prefix_append key rest)
  rw [exprIsMatch, if_pos front, List.drop_left]

theorem gptReparse_eq (hdr : GptHeader) (entries : List GptEntry) :
    gptReparse (gptListPartitions hdr entries) =
      (argvBufferSplitWithDelim ((cstr "uuid_disk=" ++ snprintfUuid hdr.diskGuid ++ cstr ";" ++
        gptListEntries (gptSameDiskTypeUid entries) 0 hdr.firstUsableLba entries).take 4095) [59] 128).foldlM gptParsePart
          (relistStart hdr entries) := by
  have type : gptDiskTypeUid (gptListPartitions hdr entries).diskTypeUid = some (listedType entries) := by
    unfold gptListPartitions listedType
    dsimp only
    split
    · exact sscanfUuid_snprintfUuid _ _
    · rfl
  have text : (gptListPartitions hdr entries).partitions = cstr "partitions=" ++ (cstr "uuid_disk=" ++ snprintfUuid hdr.diskGuid ++
      cstr ";" ++ gptListEntries (gptSameDiskTypeUid entries) 0 hdr.firstUsableLba entries) := rfl
  rw [gptReparse, type, Option.bind_eq_bind, Option.bind_some, gptParsePartitions, text, exprIsMatch_append]
  rfl

theorem GptRelisted.names {hdr : GptHeader} {entries : List GptEntry} (relisted : GptRelisted hdr entries) :
    ∀ e ∈ entries, e.Used → NameSurvives e.partitionName := by
  obtain ⟨p, parsed, same⟩ := relisted
  intro e member used
  obtain ⟨i, listed⟩ := List.getElem?_of_mem member
  have here := same i e listed used
  rw [gptReparse_eq] at parsed
  have start : NamesMade (relistStart hdr entries).partitions := by
    intro blank inside
    rw [List.eq_of_mem_replicate inside]
    exact ⟨[], by decide⟩
  have made := gptParseParts_names start parsed
  have slot : ∃ s, (p.partitions.getD i .zero).partitionName = setGptPartitionName (Vector.replicate 36 0) s := by
    rw [List.getD_eq_getElem?_getD]
    cases found : p.partitions[i]? with
    | none => exact ⟨[], by decide⟩
    | some e' => exact made e' (List.mem_of_getElem? found)
  obtain ⟨s, name⟩ := slot
  have survives := made_survives s
  rw [NameSurvives, ← name, here.name] at survives
  exact survives

theorem listedFront_append (entries : List GptEntry) :
    listedFront entries ++ (entries.dropWhile fun e => e.Used) = entries := List.takeWhile_append_dropWhile

theorem entry_cases {entries : List GptEntry} {i : Nat} {e : GptEntry} (listed : entries[i]? = some e) :
    (listedFront entries)[i]? = some e ∨ (listedFront entries).length ≤ i ∧ e ∈ entries.dropWhile fun e => e.Used := by
  rw [← listedFront_append entries] at listed
  by_cases inside : i < (listedFront entries).length
  · rw [List.getElem?_append_left inside] at listed
    exact .inl listed
  · have behind := Nat.le_of_not_lt inside
    rw [List.getElem?_append_right behind] at listed
    exact .inr ⟨behind, List.mem_of_getElem? listed⟩

theorem listedFront_get {entries : List GptEntry} {k : Nat} {e : GptEntry} (listed : (listedFront entries)[k]? = some e) :
    entries[k]? = some e := by
  rw [← listedFront_append entries, List.getElem?_append_left (List.getElem?_eq_some_iff.mp listed).1]
  exact listed

/-- An entry behind the first that is not used does not come back. -/
theorem not_listed_behind {hdr : GptHeader} {entries : List GptEntry} (plain : ∀ e ∈ listedFront entries, PlainName e)
    {p p' : GptWriteData} (state : RelistState (listedType entries) 0 hdr.firstUsableLba p)
    (run : (cutPieces 4048 (entryParts (gptSameDiskTypeUid entries) 0 hdr.firstUsableLba (listedFront entries))).foldlM gptParsePart p =
      some p') {i : Nat} (behind : (listedFront entries).length ≤ i) {e : GptEntry} (used : e.Used) :
    ¬ SameListed e (p'.partitions.getD i .zero) := by
  have beyond : p.activePartitionEntries + (listedFront entries).length ≤ i := by
    rw [state.active]
    omega
  rw [entryParts_beyond plain run beyond, state.empty i (Nat.zero_le i)]
  exact zero_not_same used

/-- A run behind the part of the disk, for names without separators. -/
theorem gptRelisted_run {hdr : GptHeader} {entries : List GptEntry} (plain : ∀ e ∈ listedFront entries, PlainName e) :
    GptRelisted hdr entries ↔
      (∀ e ∈ entries.dropWhile fun e => e.Used, ¬ e.Used) ∧
        ListedSurvive (listedType entries) (gptSameDiskTypeUid entries) 0 hdr.firstUsableLba 4048 (listedFront entries) := by
  obtain ⟨p, disk, state⟩ := gptParsePart_disk hdr entries
  have used := fun e member => (listedFront_used entries e member).2
  rw [← relists_iff plain used state (by decide), GptRelisted, gptReparse_eq, listedParts_tokens hdr plain, List.foldlM_cons, disk,
    Option.bind_eq_bind, Option.bind_some]
  constructor
  · rintro ⟨p', run, same⟩
    refine ⟨fun e member usedBehind => ?_, p', run, fun k e listed => ?_⟩
    · obtain ⟨j, at_⟩ := List.getElem?_of_mem member
      have listed : entries[(listedFront entries).length + j]? = some e := by
        rw [← listedFront_append entries, List.getElem?_append_right (by rw [listedFront_append]; exact Nat.le_add_right _ _),
          listedFront_append, Nat.add_sub_cancel_left]
        exact at_
      exact not_listed_behind plain state run (Nat.le_add_right _ j) usedBehind (same _ e listed usedBehind)
    · rw [Nat.zero_add]
      exact same k e (listedFront_get listed) (used e (List.mem_of_getElem? listed))
  · rintro ⟨front, p', run, same⟩
    refine ⟨p', run, fun i e listed usedHere => ?_⟩
    rcases entry_cases listed with inFront | ⟨_, behind⟩
    · have here := same i e inFront
      rwa [Nat.zero_add] at here
    · exact absurd usedHere (front e behind)

def bootName : CString := [98, 111, 111, 116]

/-- A partition with the given last sector behind the first MiB. -/
def bootEntry (endingLba : BitVec 64) : GptEntry :=
  { GptEntry.zero with
    startingLba := 2048
    endingLba := endingLba
    partitionName := setGptPartitionName (Vector.replicate 36 0) bootName }

theorem bootEntry_survives (endingLba : BitVec 64) : NameSurvives (bootEntry endingLba).partitionName :=
  made_survives bootName

theorem bootEntry_separate (endingLba : BitVec 64) : NamesSeparate [bootEntry endingLba] := by
  have name : ∀ unit ∈ (setGptPartitionName (Vector.replicate 36 0) bootName).text, unit ≠ 44 ∧ unit ≠ 59 := by
    rw [setGptPartitionName_text (by decide)]
    simp [bootName]
  intro e member _
  rw [List.mem_singleton.mp member]
  exact name

theorem bootEntry_table (endingLba : BitVec 64) : ∃ fd p, gptDetect fd = some p ∧ p.entries = [bootEntry endingLba] := by
  obtain ⟨fd, accepted⟩ := gptWrittenTable_accepted (gptSample 2) [bootEntry endingLba]
    ⟨by decide, by decide, by decide, by decide⟩ rfl (by decide) (by unfold EntriesApart; decide)
  exact ⟨fd, _, accepted, decodeEntries_encodeEntries _⟩

end ImgEditor
