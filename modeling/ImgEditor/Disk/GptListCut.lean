import ImgEditor.Disk.GptListParts
import ImgEditor.Disk.GptPartsRight

namespace ImgEditor

open Storage CText

/-- What is listed by the options of an entry that are left in front of a cut. -/
def listedEntry (withStart : Bool) (e : GptEntry) (uuid type : Option CString) : ListedPart where
  uuidDisk := false
  names := 1
  name := some (listedName e)
  start := if withStart then some (partitionStringLbaSize e.startingLba) else none
  size := some (partitionStringLbaSize (listedSectors e))
  uuid := uuid
  type := type
  bootable := e.attributes.getLsbD 2

/-- An entry whose numbers and name survive the text, and whose type is the one of all entries. -/
structure EntrySurvives (diskTypeUid : EfiGuid) (withStart : Bool) (e : GptEntry) : Prop where
  start : withStart = true → LbaSurvives e.startingLba
  size : LbaSurvives (listedSectors e)
  name : NameSurvives e.partitionName
  type : e.partitionTypeGuid = diskTypeUid

section Kept

variable {withStart : Bool} {e : GptEntry} {next : BitVec 64} (diskTypeUid : EfiGuid)

theorem placeOptions_listed : listedTokens (placeOptions withStart e) = listedEntry withStart e none none := by
  unfold placeOptions namedOptions listedEntry
  cases withStart <;> cases e.attributes.getLsbD 2 <;> rfl

theorem sized_taken (key : CString) {make : CString → GptExpr} (made : ∀ value, gptExpr (key ++ value) = some (make value))
    (takes : ∀ value, (make value).Taken ↔ (toPartitionLbaSize value).isSome) (lba : BitVec 64) :
    TokenTaken (key ++ partitionStringLbaSize lba) ↔ (toPartitionLbaSize (partitionStringLbaSize lba)).isSome := by
  rw [← takes]
  constructor
  · rintro ⟨expr, known, taken⟩
    rw [made] at known
    rwa [Option.some.inj known]
  · exact fun taken => ⟨_, made _, taken⟩

theorem placeOptions_taken : (∀ token ∈ placeOptions withStart e, TokenTaken token) ↔
    (withStart = true → (toPartitionLbaSize (partitionStringLbaSize e.startingLba)).isSome) ∧
      (toPartitionLbaSize (partitionStringLbaSize (listedSectors e))).isSome := by
  have name : TokenTaken (nameOption e) := ⟨_, gptExpr_name _, True.intro⟩
  have flag : TokenTaken (cstr "bootable") := ⟨_, rfl, True.intro⟩
  have start : TokenTaken (startOption e) ↔ _ := sized_taken _ gptExpr_start (fun _ => Iff.rfl) e.startingLba
  have size : TokenTaken (sizeOption e) ↔ _ := sized_taken _ gptExpr_size (fun _ => Iff.rfl) (listedSectors e)
  rw [← start, ← size, placeOptions, namedOptions]
  cases withStart <;> cases e.attributes.getLsbD 2 <;> simp [name, flag]

theorem ending_iff (start sectors ending : BitVec 64) : start + sectors - 1 = ending ↔ sectors = ending - start + 1 := by
  constructor
  · intro last
    bv_omega
  · intro size
    bv_omega

theorem entry_same_iff (uuid type : Option CString) (continues : withStart = false → next = e.startingLba) :
    ((withStart = true → (toPartitionLbaSize (partitionStringLbaSize e.startingLba)).isSome) ∧
      (toPartitionLbaSize (partitionStringLbaSize (listedSectors e))).isSome ∧
      (listedEntry withStart e uuid type).lbaSize ≠ 0 ∧
      SameListed e ((listedEntry withStart e uuid type).entry diskTypeUid next .zero)) ↔
    EntrySurvives diskTypeUid withStart e ∧ (uuid.bind (sscanfUuid .zero)).getD .zero = e.uniquePartitionGuid := by
  have begins : ((listedEntry withStart e uuid type).entry diskTypeUid next .zero).startingLba =
      (listedEntry withStart e uuid type).startLba next := rfl
  have ends : ((listedEntry withStart e uuid type).entry diskTypeUid next .zero).endingLba =
      (listedEntry withStart e uuid type).startLba next + (listedEntry withStart e uuid type).lbaSize - 1 := rfl
  have size : (listedEntry withStart e uuid type).lbaSize = (toPartitionLbaSize (partitionStringLbaSize (listedSectors e))).getD 0 := rfl
  have start : withStart = true → (listedEntry withStart e uuid type).startLba next =
      (toPartitionLbaSize (partitionStringLbaSize e.startingLba)).getD next := by
    intro given
    rw [given]
    rfl
  constructor
  · rintro ⟨startRead, sizeRead, filled, same⟩
    obtain ⟨sectors, sectorsRead⟩ := Option.isSome_iff_exists.mp sizeRead
    have placed : (listedEntry withStart e uuid type).startLba next = e.startingLba := begins.symm.trans same.start
    have sized : sectors = listedSectors e := by
      have last := ends.symm.trans same.ending
      rw [placed, size, sectorsRead, Option.getD_some] at last
      exact (ending_iff _ _ _).mp last
    refine ⟨⟨fun given => ?_, ?_, (listedName_text e).mp same.name, same.type.symm⟩, same.uuid⟩
    · obtain ⟨first, firstRead⟩ := Option.isSome_iff_exists.mp (startRead given)
      have value := (start given).symm.trans placed
      rw [firstRead, Option.getD_some] at value
      rw [← toPartitionLbaSize_printed, firstRead, value]
    · rw [← toPartitionLbaSize_printed, sectorsRead, sized]
  · rintro ⟨survives, guid⟩
    have sectorsRead := (toPartitionLbaSize_printed _).mpr survives.size
    have placed : (listedEntry withStart e uuid type).startLba next = e.startingLba := by
      cases given : withStart with
      | false => 
        rw [← continues given]
        rfl
      | true =>
        rw [given] at start
        rw [start rfl, (toPartitionLbaSize_printed _).mpr (survives.start given)]
        rfl
    rw [sectorsRead, Option.getD_some] at size
    refine ⟨fun given => ?_, ?_, ?_, ?_⟩
    · rw [(toPartitionLbaSize_printed _).mpr (survives.start given)]
      rfl
    · rw [sectorsRead]
      rfl
    · rw [size]
      intro zero
      have least := survives.size.1
      rw [zero] at least
      exact absurd least (by decide)
    · refine ⟨begins.trans placed, ?_, (listedName_text e).mpr survives.name, guid, survives.type.symm, ?_⟩
      · rw [ends, placed, size]
        exact (ending_iff _ _ _).mpr rfl
      · exact ListedPart.entry_bootable next

end Kept

structure PartTaken (diskTypeUid : EfiGuid) (next : BitVec 64) (e : GptEntry) (tokens : List CString) : Prop where
  taken : ∀ token ∈ tokens, TokenTaken token
  filled : (listedTokens tokens).lbaSize ≠ 0
  same : SameListed e ((listedTokens tokens).entry diskTypeUid next .zero)

/-- The text of an entry is whole, or it is cut behind its GUID, or in front of a GUID that is zero. -/
def TextKept (withStart sameDiskTypeUid : Bool) (e : GptEntry) (room : Nat) : Prop :=
  (entryPart withStart sameDiskTypeUid e).length ≤ room ∨
    sameDiskTypeUid = false ∧ (room = (gptEntryPlace withStart e).length + 41 ∨ room = (gptEntryPlace withStart e).length + 42) ∨
    e.uniquePartitionGuid = .zero ∧ (room + 1 = (gptEntryPlace withStart e).length ∨ room = (gptEntryPlace withStart e).length)

section Cut

variable {diskTypeUid : EfiGuid} {next : BitVec 64} {withStart : Bool} (sameDiskTypeUid : Bool) {e : GptEntry}

theorem Lost.not_taken {tokens : List CString} (lost : Lost e tokens) : ¬ PartTaken diskTypeUid next e tokens := by
  intro part
  rcases lost with ⟨token, member, refused⟩ | empty | ⟨flag, missing⟩
  · exact refused (part.taken token member)
  · exact part.filled empty
  · have same := part.same.bootable
    rw [ListedPart.entry_bootable, missing, flag] at same
    cases same

theorem uuidOption_taken : TokenTaken (uuidOption e) := by
  refine ⟨_, gptExpr_uuid _, ?_⟩
  rw [GptExpr.Taken, sscanfUuid_snprintfUuid]
  rfl

theorem typeOption_taken : TokenTaken (typeOption e) := by
  refine ⟨_, gptExpr_type _, ?_⟩
  rw [GptExpr.Taken, sscanfUuid_snprintfUuid]
  rfl

theorem partTaken_iff {guid : List CString} {uuid type : Option CString} (continues : withStart = false → next = e.startingLba)
    (taken : ∀ token ∈ guid, TokenTaken token)
    (listed : listedTokens (placeOptions withStart e ++ guid) = listedEntry withStart e uuid type) :
    PartTaken diskTypeUid next e (placeOptions withStart e ++ guid) ↔
      EntrySurvives diskTypeUid withStart e ∧ (uuid.bind (sscanfUuid .zero)).getD .zero = e.uniquePartitionGuid := by
  rw [← entry_same_iff diskTypeUid uuid type continues]
  constructor
  · rintro ⟨all, filled, same⟩
    rw [listed] at filled same
    obtain ⟨start, size⟩ := placeOptions_taken.mp fun token member => all token (List.mem_append_left _ member)
    exact ⟨start, size, filled, same⟩
  · rintro ⟨start, size, filled, same⟩
    refine ⟨fun token member => ?_, by rwa [listed], by rwa [listed]⟩
    rcases List.mem_append.mp member with front | behind
    · exact placeOptions_taken.mpr ⟨start, size⟩ token front
    · exact taken token behind

theorem partTaken_place (continues : withStart = false → next = e.startingLba) :
    PartTaken diskTypeUid next e (placeOptions withStart e) ↔
      EntrySurvives diskTypeUid withStart e ∧ e.uniquePartitionGuid = .zero := by
  have listed : listedTokens (placeOptions withStart e ++ []) = listedEntry withStart e none none := by
    rw [List.append_nil, placeOptions_listed]
  have none_ : ∀ token ∈ ([] : List CString), TokenTaken token := nofun
  have whole := @partTaken_iff diskTypeUid _ _ _ _ _ _ continues none_ listed
  rw [List.append_nil] at whole
  rw [whole]
  exact and_congr_right fun _ => eq_comm

/-- With the GUID, whatever is printed behind it is no matter. -/
theorem partTaken_guid (continues : withStart = false → next = e.startingLba) {guid : List CString} {type : Option CString}
    (taken : ∀ token ∈ guid, TokenTaken token)
    (listed : listedTokens (placeOptions withStart e ++ guid) = listedEntry withStart e (some (snprintfUuid e.uniquePartitionGuid)) type) :
    PartTaken diskTypeUid next e (placeOptions withStart e ++ guid) ↔ EntrySurvives diskTypeUid withStart e := by
  rw [partTaken_iff continues taken listed, Option.bind_some, sscanfUuid_snprintfUuid]
  exact and_iff_left rfl

theorem partTaken_uuid (continues : withStart = false → next = e.startingLba) :
    PartTaken diskTypeUid next e (placeOptions withStart e ++ [uuidOption e]) ↔ EntrySurvives diskTypeUid withStart e := by
  apply partTaken_guid continues
  · intro token member
    rw [List.mem_singleton.mp member]
    exact uuidOption_taken
  · rw [listedTokens_append, placeOptions_listed]
    rfl

theorem partTaken_type (continues : withStart = false → next = e.startingLba) :
    PartTaken diskTypeUid next e (placeOptions withStart e ++ [uuidOption e, typeOption e]) ↔ EntrySurvives diskTypeUid withStart e := by
  apply partTaken_guid continues
  · intro token member
    rcases List.mem_cons.mp member with rfl | last
    · exact uuidOption_taken
    · rw [List.mem_singleton.mp last]
      exact typeOption_taken
  · rw [listedTokens_append, placeOptions_listed]
    rfl

theorem uuidOption_length : (uuidOption e).length = 41 := by
  rw [uuidOption, List.length_append, snprintfUuid_length]
  rfl

theorem typeOption_length : (typeOption e).length = 41 := by
  rw [typeOption, List.length_append, snprintfUuid_length]
  rfl

theorem entryPart_length (withStart sameDiskTypeUid : Bool) (e : GptEntry) :
    (entryPart withStart sameDiskTypeUid e).length =
      (gptEntryPlace withStart e).length + 41 + if sameDiskTypeUid then 0 else 42 := by
  have keys : (cstr "uuid=").length = 5 ∧ (cstr ",type=").length = 6 := ⟨rfl, rfl⟩
  unfold entryPart
  cases sameDiskTypeUid <;> simp [snprintfUuid_length, keys]

theorem placeOptions_nonempty : ∀ piece ∈ placeOptions withStart e, piece ≠ [] := by
  intro piece member
  rcases List.mem_append.mp member with front | behind
  · exact namedOptions_nonempty withStart e piece front
  · rcases List.mem_cons.mp behind with rfl | flag
    · exact List.cons_ne_nil _ _
    · split at flag
      · rw [List.mem_singleton.mp flag]
        exact List.cons_ne_nil _ _
      · exact absurd flag List.not_mem_nil

theorem refused_not_taken {tokens : List CString} {token : CString} (member : token ∈ tokens) (refused : ¬ TokenTaken token) :
    ¬ PartTaken diskTypeUid next e tokens := fun part => refused (part.taken token member)

theorem partTaken_cut_guid (continues : withStart = false → next = e.startingLba) {room : Nat}
    (inside : room ≤ 41 + if sameDiskTypeUid then 0 else 42) :
    PartTaken diskTypeUid next e (placeOptions withStart e ++ cutPieces room (guidOptions sameDiskTypeUid e)) ↔
      EntrySurvives diskTypeUid withStart e ∧
        (room = 0 ∧ e.uniquePartitionGuid = .zero ∨ room = 41 ∨ room = 42 ∨ room = 83) := by
  have uuidSize := uuidOption_length (e := e)
  have typeSize := typeOption_length (e := e)
  rw [guidOptions, cutPieces, uuidSize]
  by_cases inUuid : room ≤ 41
  · rw [if_pos inUuid]
    by_cases zero : room = 0
    · rw [if_pos zero, List.append_nil, partTaken_place continues, zero]
      simp
    · rw [if_neg zero]
      by_cases whole : room = 41
      · rw [whole, ← uuidSize, List.take_length, partTaken_uuid continues, uuidSize]
        simp
      · apply iff_of_false
        · exact refused_not_taken (List.mem_append_right _ (List.mem_singleton.mpr rfl)) (uuidOption_cut e (by omega))
        · omega
  · rw [if_neg inUuid]
    cases sameDiskTypeUid with
    | true =>
      rw [if_pos rfl] at inside
      omega
    | false =>
      rw [if_neg (by decide)] at inside
      rw [if_neg (by decide), cutPieces, typeSize, if_pos (by omega)]
      by_cases zero : room - (41 + 1) = 0
      · have here : room = 42 := by omega
        rw [if_pos zero, partTaken_uuid continues, here]
        simp
      · rw [if_neg zero]
        by_cases whole : room = 83
        · rw [List.take_of_length_le (by omega), partTaken_type continues, whole]
          simp
        · apply iff_of_false
          · exact refused_not_taken (List.mem_append_right _ (List.mem_cons_of_mem _ (List.mem_singleton.mpr rfl)))
              (typeOption_cut e (by omega))
          · omega

theorem partTaken_cut (continues : withStart = false → next = e.startingLba) {room : Nat}
    (inside : room ≤ (entryPart withStart sameDiskTypeUid e).length) :
    PartTaken diskTypeUid next e (cutPieces room (placeOptions withStart e ++ guidOptions sameDiskTypeUid e)) ↔
      EntrySurvives diskTypeUid withStart e ∧ TextKept withStart sameDiskTypeUid e room := by
  have size := entryPart_length withStart sameDiskTypeUid e
  rw [size] at inside
  rw [TextKept, size, cutPieces_append 44, ← gptEntryPlace_eq]
  by_cases inPlace : room < (gptEntryPlace withStart e).length
  · rw [if_pos inPlace]
    by_cases short : room + 1 < (gptEntryPlace withStart e).length
    · apply iff_of_false
      · apply Lost.not_taken
        apply placeOptions_cut
        rwa [← gptEntryPlace_eq]
      · rintro ⟨_, whole | cut | front⟩ <;> omega
    · rw [cutPieces_whole 44 placeOptions_nonempty (by rw [← gptEntryPlace_eq]; omega), partTaken_place continues]
      apply and_congr_right
      intro _
      by_cases zero : e.uniquePartitionGuid = .zero
      · rw [eq_true zero]
        simp
        omega
      · rw [eq_false zero]
        simp
        omega
  · rw [if_neg inPlace, partTaken_cut_guid sameDiskTypeUid continues (by omega)]
    apply and_congr_right
    intro _
    by_cases zero : e.uniquePartitionGuid = .zero
    · rw [eq_true zero]
      cases sameDiskTypeUid <;> simp at inside ⊢ <;> omega
    · rw [eq_false zero]
      cases sameDiskTypeUid <;> simp at inside ⊢ <;> omega

end Cut

end ImgEditor
