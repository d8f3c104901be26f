import ImgEditor.Disk.GptListCut

namespace ImgEditor

open Storage CText

section Slots

theorem getD_modify_self {entries : List GptEntry} {i : Nat} (inside : i < entries.length) (f : GptEntry → GptEntry) :
    (entries.modify i f).getD i .zero = f (entries.getD i .zero) := by
  simp [List.getD_eq_getElem?_getD, inside]

theorem getD_modify_ne {entries : List GptEntry} {i j : Nat} (other : i ≠ j) (f : GptEntry → GptEntry) :
    (entries.modify i f).getD j .zero = entries.getD j .zero := by
  simp [List.getD_eq_getElem?_getD, other]

theorem PartParsed.keeps {p p' : GptWriteData} {l : ListedPart} (parsed : PartParsed p l p') {j : Nat}
    (other : p.activePartitionEntries ≠ j) : p'.partitions.getD j .zero = p.partitions.getD j .zero := by
  cases disk : l.uuidDisk with
  | true => rw [(parsed.other disk).1, getD_modify_ne other]
  | false => rw [(parsed.placed disk).2.1, getD_modify_ne other]

theorem PartParsed.length {p p' : GptWriteData} {l : ListedPart} (parsed : PartParsed p l p') :
    p'.partitions.length = p.partitions.length := by
  cases disk : l.uuidDisk with
  | true => rw [(parsed.other disk).1, List.length_modify]
  | false => rw [(parsed.placed disk).2.1, List.length_modify]

theorem gptParseParts_keeps {p p' : GptWriteData} {parts : List CString} (whole : ∀ part ∈ parts, WholePart part)
    (run : parts.foldlM gptParsePart p = some p') {j : Nat} (before : j < p.activePartitionEntries) :
    p'.partitions.getD j .zero = p.partitions.getD j .zero := by
  induction parts generalizing p with
  | nil =>
    obtain rfl := Option.some.inj run
    rfl
  | cons part rest ih =>
    rw [List.foldlM_cons] at run
    obtain ⟨middle, first, others⟩ := Option.bind_eq_some_iff.mp run
    have parsed := gptParsePart_parsed (whole part List.mem_cons_self) first
    have later : j < middle.activePartitionEntries := by
      rw [parsed.active]
      omega
    rw [ih (fun part member => whole part (List.mem_cons_of_mem _ member)) others later, parsed.keeps (by omega)]

end Slots

section Part

variable (withStart sameDiskTypeUid : Bool) {e : GptEntry}

def PlainName (e : GptEntry) : Prop := ∀ c ∈ listedName e, c ≠ 44 ∧ c ≠ 59

def Unseparated (token : CString) : Prop := token ≠ [] ∧ ∀ c ∈ token, c ≠ 44 ∧ c ≠ 59

theorem Unseparated.plain {token : CString} (clear : Unseparated token) : Plain 44 token ∧ Plain 59 token :=
  ⟨⟨clear.1, fun member => (clear.2 44 member).1 rfl⟩, ⟨clear.1, fun member => (clear.2 59 member).2 rfl⟩⟩

theorem option_unseparated {key value : CString} (known : key ∈ optionKeys) (clear : ∀ c ∈ value, c ≠ 44 ∧ c ≠ 59) :
    Unseparated (key ++ value) := by
  have keys : ∀ key ∈ optionKeys, key ≠ [] ∧ ∀ c ∈ key, c ≠ 44 ∧ c ≠ 59 := by simp [optionKeys, cstr]
  obtain ⟨nonempty, letters⟩ := keys key known
  refine ⟨by simp [nonempty], fun c member => ?_⟩
  rcases List.mem_append.mp member with front | behind
  · exact letters c front
  · exact clear c behind

theorem options_unseparated (plain : PlainName e) :
    ∀ token ∈ placeOptions withStart e ++ guidOptions sameDiskTypeUid e, Unseparated token := by
  have name : Unseparated (nameOption e) := option_unseparated (by decide) plain
  have start : Unseparated (startOption e) := option_unseparated (by decide) (partitionStringLbaSize_plain _)
  have size : Unseparated (sizeOption e) := option_unseparated (by decide) (partitionStringLbaSize_plain _)
  have flag : Unseparated (cstr "bootable") := by simp [Unseparated, cstr]
  have uuid : Unseparated (uuidOption e) := option_unseparated (by decide) (snprintfUuid_plain _)
  have type : Unseparated (typeOption e) := option_unseparated (by decide) (snprintfUuid_plain _)
  unfold placeOptions namedOptions guidOptions
  cases withStart <;> cases sameDiskTypeUid <;> cases e.attributes.getLsbD 2 <;> simp [name, start, size, flag, uuid, type]

theorem entryPart_take_tokens (plain : PlainName e) (room : Nat) :
    strtok [44] ((entryPart withStart sameDiskTypeUid e).take room) =
      cutPieces (min room (entryPart withStart sameDiskTypeUid e).length) (placeOptions withStart e ++ guidOptions sameDiskTypeUid e) := by
  have cut : (entryPart withStart sameDiskTypeUid e).take room =
      (delimited 44 (placeOptions withStart e ++ guidOptions sameDiskTypeUid e)).take
        (min room (entryPart withStart sameDiskTypeUid e).length) := by
    rw [← entryPart_eq, List.take_append_of_le_length (Nat.min_le_right _ _), ← List.take_eq_take_min]
  rw [cut, strtok_cutPieces fun token member => ((options_unseparated _ _ plain) token member).plain.1]

theorem gptEntryPlace_length : 12 ≤ (gptEntryPlace withStart e).length ∧ (gptEntryPlace withStart e).length ≤ 106 := by
  have name := listedName_length e
  have start := partitionStringLbaSize_length e.startingLba
  have size := partitionStringLbaSize_length (listedSectors e)
  have keys : (cstr "name=").length = 5 ∧ (cstr "start=").length = 6 ∧ (cstr "size=").length = 5 ∧ (cstr "bootable").length = 8 :=
    ⟨rfl, rfl, rfl, rfl⟩
  rw [gptEntryPlace_eq]
  unfold placeOptions namedOptions delimited nameOption startOption sizeOption
  cases withStart <;> cases e.attributes.getLsbD 2 <;> simp [keys] <;> omega

theorem entryPart_plain (plain : PlainName e) : Plain 59 (entryPart withStart sameDiskTypeUid e) := by
  have size := entryPart_length withStart sameDiskTypeUid e
  constructor
  · intro empty
    rw [empty, List.length_nil] at size
    omega
  · intro member
    have listed : 59 ∈ delimited 44 (placeOptions withStart e ++ guidOptions sameDiskTypeUid e) := by
      rw [← entryPart_eq]
      exact List.mem_append_left _ member
    obtain ⟨token, inside, at_⟩ := List.mem_flatMap.mp listed
    rcases List.mem_append.mp at_ with letter | delim
    · exact (options_unseparated _ _ plain token inside).plain.2.2 letter
    · exact absurd (List.mem_singleton.mp delim) (by decide)

theorem entryPart_whole (plain : PlainName e) (room : Nat) : WholePart ((entryPart withStart sameDiskTypeUid e).take room) := by
  have size := entryPart_length withStart sameDiskTypeUid e
  have front := (gptEntryPlace_length withStart (e := e)).2
  constructor
  · rw [List.length_take, size]
    split <;> omega
  · rw [entryPart_take_tokens _ _ plain]
    refine Nat.le_trans (cutPieces_length _ _) ?_
    unfold placeOptions namedOptions guidOptions
    cases withStart <;> cases sameDiskTypeUid <;> cases e.attributes.getLsbD 2 <;> simp

variable {diskTypeUid : EfiGuid} {i : Nat} {lba : BitVec 64} {p : GptWriteData}

/-- The state of the parser in front of entry `i`, which `lba` is the sector behind the one before of. -/
structure RelistState (diskTypeUid : EfiGuid) (i : Nat) (lba : BitVec 64) (p : GptWriteData) : Prop where
  active : p.activePartitionEntries = i
  empty : ∀ j, i ≤ j → p.partitions.getD j .zero = .zero
  length : p.partitions.length = 128
  type : p.diskTypeUid = diskTypeUid
  next : 0 < i → p.nextLba = lba

theorem take_uuidDisk {key value : CString} {make : CString → GptExpr} (known : key ∈ optionKeys)
    (made : ∀ value, gptExpr (key ++ value) = some (make value)) (other : ∀ value s, make value ≠ .uuidDisk s) {count : Nat}
    {expr : GptExpr} (taken : gptExpr ((key ++ value).take count) = some expr) (s : CString) : expr ≠ .uuidDisk s := by
  obtain ⟨cut, same⟩ := gptExpr_take known taken
  rw [made] at same
  rw [← Option.some.inj same]
  exact other _ s

theorem listedTokens_part (room : Nat) :
    (listedTokens (cutPieces room (placeOptions withStart e ++ guidOptions sameDiskTypeUid e))).uuidDisk = false := by
  apply foldl_add_keeps ListedPart.uuidDisk
  intro expr member l
  have other : ∀ s, expr ≠ .uuidDisk s := by
    obtain ⟨token, inside, taken⟩ := List.mem_filterMap.mp member
    obtain ⟨piece, listed, count, rfl⟩ := mem_cutPieces inside
    have options : piece ∈ [nameOption e, startOption e, sizeOption e, cstr "bootable" ++ [], uuidOption e, typeOption e] := by
      revert listed
      unfold placeOptions namedOptions guidOptions
      cases withStart <;> cases sameDiskTypeUid <;> cases e.attributes.getLsbD 2 <;> simp <;> grind
    have flagged (value : CString) : gptExpr (cstr "bootable" ++ value) = some .bootable := rfl
    simp only [List.mem_cons, List.not_mem_nil, or_false] at options
    rcases options with rfl | rfl | rfl | rfl | rfl | rfl
    · exact take_uuidDisk (by decide) gptExpr_name nofun taken
    · exact take_uuidDisk (by decide) gptExpr_start nofun taken
    · exact take_uuidDisk (by decide) gptExpr_size nofun taken
    · exact take_uuidDisk (by decide) flagged nofun taken
    · exact take_uuidDisk (by decide) gptExpr_uuid nofun taken
    · exact take_uuidDisk (by decide) gptExpr_type nofun taken
  cases expr with
  | uuidDisk s => exact absurd rfl (other s)
  | _ => rfl

theorem gptParsePart_entry_iff (state : RelistState diskTypeUid i lba p) (small : i < 128) (plain : PlainName e) (room : Nat) :
    (∃ p', gptParsePart p ((entryPart withStart sameDiskTypeUid e).take room) = some p' ∧
        SameListed e (p'.partitions.getD i .zero)) ↔
      PartTaken diskTypeUid p.nextLba e (cutPieces (min room (entryPart withStart sameDiskTypeUid e).length)
        (placeOptions withStart e ++ guidOptions sameDiskTypeUid e)) := by
  have whole := entryPart_whole withStart sameDiskTypeUid plain room
  have tokens := entryPart_take_tokens withStart sameDiskTypeUid plain room
  have inside : p.activePartitionEntries < p.partitions.length := by
    rw [state.active, state.length]
    exact small
  have own := listedTokens_part withStart sameDiskTypeUid (e := e) (min room (entryPart withStart sameDiskTypeUid e).length)
  have listed : listedPart ((entryPart withStart sameDiskTypeUid e).take room) = listedTokens (strtok [44] ((entryPart withStart sameDiskTypeUid e).take room)) := rfl
  rw [tokens] at listed
  have slot {p' : GptWriteData} (parsed : gptParsePart p ((entryPart withStart sameDiskTypeUid e).take room) = some p') :
      p'.partitions.getD i .zero = (listedTokens (cutPieces (min room (entryPart withStart sameDiskTypeUid e).length)
        (placeOptions withStart e ++ guidOptions sameDiskTypeUid e))).entry diskTypeUid p.nextLba .zero := by
    have placed := gptParsePart_parsed whole parsed
    rw [listed] at placed
    rw [(placed.placed own).2.1, state.active, getD_modify_self (by rw [state.length]; exact small), state.empty i (Nat.le_refl i),
      state.type]
  constructor
  · rintro ⟨p', parsed, same⟩
    obtain ⟨_, taken, filled⟩ := (gptParsePart_some_iff whole).mp ⟨p', parsed⟩
    rw [tokens] at taken
    rw [listed] at filled
    rw [slot parsed] at same
    exact ⟨taken, filled own, same⟩
  · rintro ⟨taken, filled, same⟩
    obtain ⟨p', parsed⟩ := (gptParsePart_some_iff whole).mpr ⟨inside, by rwa [tokens], fun _ => by rwa [listed]⟩
    refine ⟨p', parsed, ?_⟩
    rwa [slot parsed]

theorem options_whole (plain : PlainName e) :
    cutPieces (entryPart withStart sameDiskTypeUid e).length (placeOptions withStart e ++ guidOptions sameDiskTypeUid e) =
      placeOptions withStart e ++ guidOptions sameDiskTypeUid e := by
  apply cutPieces_whole 44
  · exact fun token member => (options_unseparated _ _ plain token member).1
  · rw [← entryPart_eq, List.length_append, List.length_singleton]

theorem options_names : (listedTokens (placeOptions withStart e ++ guidOptions sameDiskTypeUid e)).names = 1 := by
  rw [listedTokens_append, placeOptions_listed]
  cases sameDiskTypeUid <;> rfl

theorem gptParsePart_whole (plain : PlainName e) {p' : GptWriteData}
    (parsed : gptParsePart p (entryPart withStart sameDiskTypeUid e) = some p') :
    ∃ l : ListedPart, PartParsed p l p' ∧ l.uuidDisk = false ∧ l.names = 1 := by
  have whole := entryPart_whole withStart sameDiskTypeUid plain (entryPart withStart sameDiskTypeUid e).length
  have tokens := entryPart_take_tokens withStart sameDiskTypeUid plain (entryPart withStart sameDiskTypeUid e).length
  have own := listedTokens_part withStart sameDiskTypeUid (e := e) (entryPart withStart sameDiskTypeUid e).length
  rw [options_whole withStart sameDiskTypeUid plain] at own
  rw [List.take_length] at whole tokens
  rw [Nat.min_self, options_whole withStart sameDiskTypeUid plain] at tokens
  have placed := gptParsePart_parsed whole parsed
  rw [listedPart, tokens, ← listedTokens] at placed
  exact ⟨_, placed, own, options_names withStart sameDiskTypeUid⟩

/-- A whole part that gives its entry leaves the parser in front of the next one. -/
theorem gptParsePart_state (state : RelistState diskTypeUid i lba p) (plain : PlainName e) {p' : GptWriteData}
    (parsed : gptParsePart p (entryPart withStart sameDiskTypeUid e) = some p') (same : SameListed e (p'.partitions.getD i .zero)) :
    RelistState diskTypeUid (i + 1) (e.endingLba + 1) p' := by
  obtain ⟨l, placed, own, named⟩ := gptParsePart_whole withStart sameDiskTypeUid plain parsed
  obtain ⟨filled, partitions, next⟩ := placed.placed own
  constructor
  · rw [placed.active, state.active, named]
  · intro j behind
    rw [placed.keeps (by rw [state.active]; omega), state.empty j (by omega)]
  · rw [placed.length, state.length]
  · rw [placed.type, state.type]
  · intro _
    have inside : i < p.partitions.length := by
      rw [← state.active]
      exact placed.inside
    have ending := same.ending
    rw [partitions, state.active, getD_modify_self inside] at ending
    rw [next, ← ending]
    exact (BitVec.sub_add_cancel _ _).symm

end Part

/-- The used entries in front survive, and of the text, of which `room` bytes are left, so do their parts. -/
def ListedSurvive (diskTypeUid : EfiGuid) (sameDiskTypeUid : Bool) : Nat → BitVec 64 → Nat → List GptEntry → Prop
  | _, _, _, [] => True
  | i, lba, room, e :: rest =>
    EntrySurvives diskTypeUid (i = 0 ∨ lba ≠ e.startingLba) e ∧
      (rest = [] → TextKept (i = 0 ∨ lba ≠ e.startingLba) sameDiskTypeUid e room) ∧
      (rest ≠ [] → (entryPart (i = 0 ∨ lba ≠ e.startingLba) sameDiskTypeUid e).length < room) ∧
      ListedSurvive diskTypeUid sameDiskTypeUid (i + 1) (e.endingLba + 1)
        (room - ((entryPart (i = 0 ∨ lba ≠ e.startingLba) sameDiskTypeUid e).length + 1)) rest

section Run

variable {diskTypeUid : EfiGuid} {sameDiskTypeUid : Bool}

theorem entryParts_mem {entries : List GptEntry} {i : Nat} {lba : BitVec 64} {part : CString}
    (member : part ∈ entryParts sameDiskTypeUid i lba entries) : ∃ e ∈ entries, ∃ withStart, part = entryPart withStart sameDiskTypeUid e := by
  induction entries generalizing i lba with
  | nil => exact absurd member List.not_mem_nil
  | cons e rest ih =>
    rcases List.mem_cons.mp member with rfl | later
    · exact ⟨e, List.mem_cons_self, _, rfl⟩
    · obtain ⟨found, inside, shape⟩ := ih later
      exact ⟨found, List.mem_cons_of_mem e inside, shape⟩

theorem entryParts_whole {entries : List GptEntry} (plain : ∀ e ∈ entries, PlainName e) {i : Nat} {lba : BitVec 64} {room : Nat} :
    ∀ part ∈ cutPieces room (entryParts sameDiskTypeUid i lba entries), WholePart part := by
  intro part member
  obtain ⟨piece, inside, count, rfl⟩ := mem_cutPieces member
  obtain ⟨e, listed, withStart, rfl⟩ := entryParts_mem inside
  exact entryPart_whole withStart sameDiskTypeUid (plain e listed) count

theorem zero_not_same {e : GptEntry} (used : e.Used) : ¬ SameListed e .zero := by
  intro same
  exact used.1 same.start.symm

theorem singleton_foldlM (p : GptWriteData) (part : CString) : [part].foldlM gptParsePart p = gptParsePart p part := by
  simp

theorem relist_last {e : GptEntry} (plain : PlainName e) (used : e.Used) {i : Nat} {lba : BitVec 64} {room : Nat} {p : GptWriteData}
    (state : RelistState diskTypeUid i lba p) (small : i < 128) (withStart : Bool) (continues : withStart = false → p.nextLba = e.startingLba)
    (short : room ≤ (entryPart withStart sameDiskTypeUid e).length) :
    (∃ p', (if room = 0 then [] else [(entryPart withStart sameDiskTypeUid e).take room]).foldlM gptParsePart p = some p' ∧
        SameListed e (p'.partitions.getD i .zero)) ↔
      EntrySurvives diskTypeUid withStart e ∧ TextKept withStart sameDiskTypeUid e room := by
  by_cases zero : room = 0
  · have size := entryPart_length withStart sameDiskTypeUid e
    have front := (gptEntryPlace_length withStart (e := e)).1
    rw [if_pos zero]
    apply iff_of_false
    · rintro ⟨p', run, same⟩
      obtain rfl := Option.some.inj run
      rw [state.empty i (Nat.le_refl i)] at same
      exact zero_not_same used same
    · rintro ⟨_, whole | cut | bare⟩ <;> omega
  · rw [if_neg zero, ← partTaken_cut sameDiskTypeUid continues short]
    have parsed := gptParsePart_entry_iff withStart sameDiskTypeUid state small plain room
    rw [Nat.min_eq_left short] at parsed
    simp only [singleton_foldlM]
    exact parsed

/-- The entries from slot `i` on are listed again by a run. -/
def Relists (parts : List CString) (p : GptWriteData) (i : Nat) (entries : List GptEntry) : Prop :=
  ∃ p', parts.foldlM gptParsePart p = some p' ∧
    ∀ (k : Nat) (e : GptEntry), entries[k]? = some e → SameListed e (p'.partitions.getD (i + k) .zero)

theorem entryPart_iff {e : GptEntry} (plain : PlainName e) {i : Nat} {lba : BitVec 64} {p : GptWriteData}
    (state : RelistState diskTypeUid i lba p) (small : i < 128) (withStart : Bool)
    (continues : withStart = false → p.nextLba = e.startingLba) :
    (∃ middle, gptParsePart p (entryPart withStart sameDiskTypeUid e) = some middle ∧ SameListed e (middle.partitions.getD i .zero)) ↔
      EntrySurvives diskTypeUid withStart e := by
  have parsed := gptParsePart_entry_iff withStart sameDiskTypeUid state small plain (entryPart withStart sameDiskTypeUid e).length
  rw [List.take_length, Nat.min_self, partTaken_cut sameDiskTypeUid continues (Nat.le_refl _)] at parsed
  exact parsed.trans (and_iff_left (Or.inl (Nat.le_refl _)))

theorem relists_cons {e : GptEntry} {rest : List GptEntry} {parts : List CString} (plain : PlainName e)
    (whole : ∀ part ∈ parts, WholePart part) {i : Nat} {lba : BitVec 64} {p : GptWriteData}
    (state : RelistState diskTypeUid i lba p) (small : i < 128) (withStart : Bool)
    (continues : withStart = false → p.nextLba = e.startingLba) :
    Relists (entryPart withStart sameDiskTypeUid e :: parts) p i (e :: rest) ↔
      EntrySurvives diskTypeUid withStart e ∧ ∃ middle, gptParsePart p (entryPart withStart sameDiskTypeUid e) = some middle ∧
        RelistState diskTypeUid (i + 1) (e.endingLba + 1) middle ∧ Relists parts middle (i + 1) rest := by
  have kept {middle p' : GptWriteData} (first : gptParsePart p (entryPart withStart sameDiskTypeUid e) = some middle)
      (run : parts.foldlM gptParsePart middle = some p') : p'.partitions.getD i .zero = middle.partitions.getD i .zero := by
    obtain ⟨l, placed, _, named⟩ := gptParsePart_whole withStart sameDiskTypeUid plain first
    apply gptParseParts_keeps whole run
    rw [placed.active, state.active, named]
    exact Nat.lt_succ_self i
  constructor
  · rintro ⟨p', run, same⟩
    rw [List.foldlM_cons] at run
    obtain ⟨middle, first, others⟩ := Option.bind_eq_some_iff.mp run
    have here := same 0 e rfl
    rw [Nat.add_zero, kept first others] at here
    refine ⟨(entryPart_iff plain state small withStart continues).mp ⟨middle, first, here⟩, middle, first,
      gptParsePart_state withStart sameDiskTypeUid state plain first here, p', others, fun k e' listed => ?_⟩
    have later := same (k + 1) e' listed
    rwa [← Nat.add_assoc, Nat.add_right_comm] at later
  · rintro ⟨survives, middle, first, _, p', others, same⟩
    obtain ⟨middle', first', here⟩ := (entryPart_iff plain state small withStart continues).mpr survives
    obtain rfl := Option.some.inj (first.symm.trans first')
    refine ⟨p', by rw [List.foldlM_cons]; exact Option.bind_eq_some_iff.mpr ⟨middle, first, others⟩, fun k e' listed => ?_⟩
    cases k with
    | zero =>
      obtain rfl := Option.some.inj listed
      rw [Nat.add_zero, kept first others]
      exact here
    | succ k =>
      have later := same k e' listed
      rwa [← Nat.add_assoc, Nat.add_right_comm]

/-- The text ends in front of the next entry. -/
theorem not_relists {e next : GptEntry} {rest : List GptEntry} (plain : PlainName e) (used : next.Used) {i : Nat} {lba : BitVec 64}
    {room : Nat} {p : GptWriteData} (state : RelistState diskTypeUid i lba p) (withStart : Bool) :
    ¬ Relists (if room = 0 then [] else [(entryPart withStart sameDiskTypeUid e).take room]) p i (e :: next :: rest) := by
  rintro ⟨p', run, same⟩
  have behind := same 1 next rfl
  have empty := state.empty (i + 1) (Nat.le_succ i)
  split at run
  · obtain rfl := Option.some.inj run
    rw [empty] at behind
    exact zero_not_same used behind
  · rw [singleton_foldlM] at run
    have parsed := gptParsePart_parsed (entryPart_whole withStart sameDiskTypeUid plain room) run
    rw [parsed.keeps (by rw [state.active]; omega), empty] at behind
    exact zero_not_same used behind

theorem relists_single (parts : List CString) (p : GptWriteData) (i : Nat) (e : GptEntry) :
    Relists parts p i [e] ↔ ∃ p', parts.foldlM gptParsePart p = some p' ∧ SameListed e (p'.partitions.getD i .zero) := by
  apply exists_congr
  intro p'
  apply and_congr_right
  intro _
  constructor
  · exact fun same => same 0 e rfl
  · intro same k e' listed
    cases k with
    | zero =>
      obtain rfl := Option.some.inj listed
      exact same
    | succ k => cases listed

theorem relists_iff {entries : List GptEntry} (plain : ∀ e ∈ entries, PlainName e) (used : ∀ e ∈ entries, e.Used) {i : Nat}
    {lba : BitVec 64} {room : Nat} {p : GptWriteData} (state : RelistState diskTypeUid i lba p) (bound : 42 * i + room ≤ 4095) :
    Relists (cutPieces room (entryParts sameDiskTypeUid i lba entries)) p i entries ↔
      ListedSurvive diskTypeUid sameDiskTypeUid i lba room entries := by
  induction entries generalizing i lba room p with
  | nil => exact iff_of_true ⟨p, rfl, nofun⟩ True.intro
  | cons e rest ih =>
    have first := plain e List.mem_cons_self
    have behind := fun e' member => plain e' (List.mem_cons_of_mem e member)
    have small : i < 128 := by omega
    have size := entryPart_length (decide (i = 0 ∨ lba ≠ e.startingLba)) sameDiskTypeUid e
    have continues : decide (i = 0 ∨ lba ≠ e.startingLba) = false → p.nextLba = e.startingLba := by
      intro left_out
      obtain ⟨later, same⟩ := not_or.mp (of_decide_eq_false left_out)
      rw [state.next (Nat.pos_of_ne_zero later)]
      exact not_not.mp same
    rw [entryParts, cutPieces, ListedSurvive]
    by_cases short : room ≤ (entryPart (decide (i = 0 ∨ lba ≠ e.startingLba)) sameDiskTypeUid e).length
    · rw [if_pos short]
      cases rest with
      | nil =>
        rw [relists_single, relist_last first (used e List.mem_cons_self) state small _ continues short, ListedSurvive]
        simp
      | cons next rest =>
        apply iff_of_false
        · exact not_relists first (used next (by simp)) state _
        · rintro ⟨_, _, long, _⟩
          have inside := long (List.cons_ne_nil next rest)
          omega
    · rw [if_neg short, relists_cons first (entryParts_whole behind) state small _ continues]
      generalize left : room - ((entryPart (decide (i = 0 ∨ lba ≠ e.startingLba)) sameDiskTypeUid e).length + 1) = room'
      have bound' : 42 * (i + 1) + room' ≤ 4095 := by omega
      have later {middle : GptWriteData} (state' : RelistState diskTypeUid (i + 1) (e.endingLba + 1) middle) :=
        ih behind (fun e' member => used e' (List.mem_cons_of_mem e member)) state' bound'
      constructor
      · rintro ⟨survives, middle, _, state', relists⟩
        exact ⟨survives, fun _ => .inl (by omega), fun _ => by omega, (later state').mp relists⟩
      · rintro ⟨survives, _, _, others⟩
        obtain ⟨middle, parsed, here⟩ := (entryPart_iff first state small _ continues).mpr survives
        have state' := gptParsePart_state _ sameDiskTypeUid state first parsed here
        exact ⟨survives, middle, parsed, state', (later state').mpr others⟩

/-- Every part fills one slot at most. -/
theorem entryParts_beyond {entries : List GptEntry} (plain : ∀ e ∈ entries, PlainName e) {i : Nat} {lba : BitVec 64} {room : Nat}
    {p p' : GptWriteData} (run : (cutPieces room (entryParts sameDiskTypeUid i lba entries)).foldlM gptParsePart p = some p') {j : Nat}
    (beyond : p.activePartitionEntries + entries.length ≤ j) : p'.partitions.getD j .zero = p.partitions.getD j .zero := by
  induction entries generalizing i lba room p with
  | nil =>
    obtain rfl := Option.some.inj run
    rfl
  | cons e rest ih =>
    have first := plain e List.mem_cons_self
    rw [List.length_cons] at beyond
    rw [entryParts, cutPieces] at run
    split at run
    · split at run
      · obtain rfl := Option.some.inj run
        rfl
      · rw [singleton_foldlM] at run
        exact (gptParsePart_parsed (entryPart_whole _ sameDiskTypeUid first room) run).keeps (by omega)
    · rw [List.foldlM_cons] at run
      obtain ⟨middle, parsed, others⟩ := Option.bind_eq_some_iff.mp run
      obtain ⟨l, placed, _, named⟩ := gptParsePart_whole _ sameDiskTypeUid first parsed
      have active := placed.active
      rw [ih (fun e' member => plain e' (List.mem_cons_of_mem e member)) others (by omega), placed.keeps (by omega)]

end Run

end ImgEditor
