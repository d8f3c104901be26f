import ImgEditor.Core.CutTokens
import ImgEditor.Disk.GptListLba
import ImgEditor.Disk.GptParsed

namespace ImgEditor

open Storage CText

/-! The options that are printed for an entry, one by one. -/

section Options

variable (withStart sameDiskTypeUid : Bool) (e : GptEntry)

def listedName : CString := gptPartitionNameToChar e.partitionName 128

def listedSectors : BitVec 64 := e.endingLba - e.startingLba + 1

def nameOption : CString := cstr "name=" ++ listedName e
def startOption : CString := cstr "start=" ++ partitionStringLbaSize e.startingLba
def sizeOption : CString := cstr "size=" ++ partitionStringLbaSize (listedSectors e)
def uuidOption : CString := cstr "uuid=" ++ snprintfUuid e.uniquePartitionGuid
def typeOption : CString := cstr "type=" ++ snprintfUuid e.uniquePartitionGuid

def namedOptions : List CString := nameOption e :: if withStart then [startOption e] else []

def placeOptions : List CString :=
  namedOptions withStart e ++ sizeOption e :: if e.attributes.getLsbD 2 then [cstr "bootable"] else []

def guidOptions : List CString := uuidOption e :: if sameDiskTypeUid then [] else [typeOption e]

def entryPart : CString :=
  gptEntryPlace withStart e ++ cstr "uuid=" ++ snprintfUuid e.uniquePartitionGuid ++
    if sameDiskTypeUid then [] else cstr ",type=" ++ snprintfUuid e.uniquePartitionGuid

theorem gptEntryDesc_eq : gptEntryDesc withStart sameDiskTypeUid e = entryPart withStart sameDiskTypeUid e ++ [59] := by
  rw [gptEntryDesc, entryPart]
  rfl

theorem gptEntryPlace_eq : gptEntryPlace withStart e = delimited 44 (placeOptions withStart e) := by
  have comma : cstr "," = [44] := rfl
  have flag : cstr "bootable," = cstr "bootable" ++ [44] := rfl
  unfold gptEntryPlace placeOptions namedOptions delimited
  rw [comma, flag]
  cases withStart <;> cases e.attributes.getLsbD 2 <;>
    simp [nameOption, startOption, sizeOption, listedName, listedSectors]

theorem entryPart_eq :
    entryPart withStart sameDiskTypeUid e ++ [44] =
      delimited 44 (placeOptions withStart e ++ guidOptions sameDiskTypeUid e) := by
  have comma : cstr ",type=" = 44 :: cstr "type=" := rfl
  unfold entryPart
  rw [gptEntryPlace_eq, delimited, delimited, List.flatMap_append, guidOptions, comma]
  cases sameDiskTypeUid <;> simp [uuidOption, typeOption]

end Options

/-- The parts that are printed for the used entries in front, as `gptListEntries` goes through them. -/
def entryParts (sameDiskTypeUid : Bool) : Nat → BitVec 64 → List GptEntry → List CString
  | _, _, [] => []
  | i, lba, e :: rest =>
    entryPart (i = 0 ∨ lba ≠ e.startingLba) sameDiskTypeUid e :: entryParts sameDiskTypeUid (i + 1) (e.endingLba + 1) rest

theorem gptListEntries_eq (sameDiskTypeUid : Bool) (i : Nat) (lba : BitVec 64) (entries : List GptEntry) :
    gptListEntries sameDiskTypeUid i lba entries =
      delimited 59 (entryParts sameDiskTypeUid i lba (entries.takeWhile fun e => e.Used)) := by
  induction entries generalizing i lba with
  | nil => rfl
  | cons e rest ih =>
    rw [gptListEntries]
    by_cases used : e.Used
    · have go : ¬ (e.startingLba = 0 ∨ e.endingLba = 0) := not_or.mpr used
      rw [if_neg go, ih, List.takeWhile_cons_of_pos (by simpa using used), entryParts, gptEntryDesc_eq, delimited, delimited,
        List.flatMap_cons]
    · have stop : e.startingLba = 0 ∨ e.endingLba = 0 := by
        by_contra other
        exact used (not_or.mp other)
      rw [if_pos stop, List.takeWhile_cons_of_neg (by simpa using used), entryParts]
      rfl

section Exprs

variable (value : CString)

theorem gptExpr_name : gptExpr (cstr "name=" ++ value) = some (.name value) := rfl
theorem gptExpr_start : gptExpr (cstr "start=" ++ value) = some (.start value) := rfl
theorem gptExpr_size : gptExpr (cstr "size=" ++ value) = some (.size value) := rfl
theorem gptExpr_uuid : gptExpr (cstr "uuid=" ++ value) = some (.uuid value) := rfl
theorem gptExpr_type : gptExpr (cstr "type=" ++ value) = some (.type value) := rfl

end Exprs

/-! Options that are cut short. -/

section Cut

/-- The keys of the options, which are not known when they are cut short. -/
def optionKeys : List CString := [cstr "name=", cstr "start=", cstr "size=", cstr "uuid=", cstr "type=", cstr "bootable"]

theorem gptExpr_key : ∀ key ∈ optionKeys, ∀ count < key.length, gptExpr (key.take count) = none := by decide

theorem take_option (key value : CString) (count : Nat) :
    (key ++ value).take count = if count < key.length then key.take count else key ++ value.take (count - key.length) := by
  split
  · rw [List.take_append_of_le_length (by omega)]
  · rw [List.take_append, List.take_of_length_le (by omega)]

theorem gptExpr_take {key value : CString} (known : key ∈ optionKeys) {count : Nat} {expr : GptExpr}
    (taken : gptExpr ((key ++ value).take count) = some expr) : ∃ cut, gptExpr (key ++ value.take cut) = some expr := by
  rw [take_option] at taken
  split at taken
  · rw [gptExpr_key key known count ‹_›] at taken
    cases taken
  · exact ⟨_, taken⟩

theorem option_cut {key value : CString} (known : key ∈ optionKeys)
    (refused : ∀ count < value.length, ¬ TokenTaken (key ++ value.take count)) {count : Nat}
    (short : count < (key ++ value).length) : ¬ TokenTaken ((key ++ value).take count) := by
  rw [take_option]
  split
  · rintro ⟨expr, other, _⟩
    rw [gptExpr_key key known count ‹_›] at other
    cases other
  · apply refused
    rw [List.length_append] at short
    omega

variable (e : GptEntry) {count : Nat}

theorem sizeOption_cut (short : count < (sizeOption e).length) : ¬ TokenTaken ((sizeOption e).take count) := by
  refine option_cut (by decide) ?_ short
  rintro cut inside ⟨expr, known, taken⟩
  rw [gptExpr_size] at known
  rw [← Option.some.inj known, GptExpr.Taken, toPartitionLbaSize_take inside] at taken
  cases taken

theorem guidOption_cut {key : CString} {make : CString → GptExpr} (known : key ∈ optionKeys)
    (made : ∀ value, gptExpr (key ++ value) = some (make value))
    (reads : ∀ value, (make value).Taken → (sscanfUuid .zero value).isSome) (guid : EfiGuid)
    (short : count < (key ++ snprintfUuid guid).length) : ¬ TokenTaken ((key ++ snprintfUuid guid).take count) := by
  refine option_cut known ?_ short
  rintro cut inside ⟨expr, same, taken⟩
  rw [snprintfUuid_length] at inside
  rw [made] at same
  rw [← Option.some.inj same] at taken
  have read := reads _ taken
  rw [sscanfUuid_take _ inside] at read
  cases read

theorem bootable_cut (short : count < (cstr "bootable").length) : ¬ TokenTaken ((cstr "bootable").take count) := by
  rintro ⟨expr, known, _⟩
  rw [gptExpr_key _ (by decide) count short] at known
  cases known

theorem uuidOption_cut (short : count < (uuidOption e).length) : ¬ TokenTaken ((uuidOption e).take count) :=
  guidOption_cut (by decide) gptExpr_uuid (fun _ taken => taken) _ short

theorem typeOption_cut (short : count < (typeOption e).length) : ¬ TokenTaken ((typeOption e).take count) :=
  guidOption_cut (by decide) gptExpr_type (fun _ taken => taken) _ short

end Cut

/-! What is listed by the options of an entry, whole or cut. -/

section Listed

theorem foldl_add_keeps {α : Type} (field : ListedPart → α) {exprs : List GptExpr}
    (keeps : ∀ expr ∈ exprs, ∀ l : ListedPart, field (l.add expr) = field l) (l : ListedPart) :
    field (exprs.foldl ListedPart.add l) = field l := by
  induction exprs generalizing l with
  | nil => rfl
  | cons expr rest ih =>
    rw [List.foldl_cons, ih fun expr member => keeps expr (List.mem_cons_of_mem _ member)]
    exact keeps expr List.mem_cons_self l

variable (withStart sameDiskTypeUid : Bool) (e : GptEntry)

theorem namedOptions_exprs {room : Nat} {expr : GptExpr} (member : expr ∈ (cutPieces room (namedOptions withStart e)).filterMap gptExpr) :
    (∃ s, expr = .name s) ∨ ∃ s, expr = .start s := by
  obtain ⟨token, inside, known⟩ := List.mem_filterMap.mp member
  obtain ⟨piece, listed, count, rfl⟩ := mem_cutPieces inside
  rcases List.mem_cons.mp listed with rfl | more
  · obtain ⟨cut, same⟩ := gptExpr_take (by decide) known
    rw [gptExpr_name] at same
    exact .inl ⟨_, (Option.some.inj same).symm⟩
  · cases withStart with
    | false => exact absurd more List.not_mem_nil
    | true =>
      rw [List.mem_singleton.mp more] at known
      obtain ⟨cut, same⟩ := gptExpr_take (by decide) known
      rw [gptExpr_start] at same
      exact .inr ⟨_, (Option.some.inj same).symm⟩

theorem listedTokens_append (front behind : List CString) :
    listedTokens (front ++ behind) = (behind.filterMap gptExpr).foldl ListedPart.add (listedTokens front) := by
  rw [listedTokens, List.filterMap_append, List.foldl_append]
  rfl

theorem namedOptions_listed (room : Nat) :
    (listedTokens (cutPieces room (namedOptions withStart e))).size = none ∧
      (listedTokens (cutPieces room (namedOptions withStart e))).bootable = false := by
  constructor
  · apply foldl_add_keeps ListedPart.size
    intro expr member l
    rcases namedOptions_exprs withStart e member with ⟨s, rfl⟩ | ⟨s, rfl⟩ <;> rfl
  · apply foldl_add_keeps ListedPart.bootable
    intro expr member l
    rcases namedOptions_exprs withStart e member with ⟨s, rfl⟩ | ⟨s, rfl⟩ <;> rfl

theorem namedOptions_nonempty : ∀ piece ∈ namedOptions withStart e, piece ≠ [] := by
  intro piece member
  rcases List.mem_cons.mp member with rfl | more
  · exact List.cons_ne_nil _ _
  · cases withStart with
    | false => exact absurd more List.not_mem_nil
    | true =>
      rw [List.mem_singleton.mp more]
      exact List.cons_ne_nil _ _

theorem namedOptions_whole : (listedTokens (namedOptions withStart e)).size = none ∧
    (listedTokens (namedOptions withStart e)).bootable = false := by
  have whole := cutPieces_whole 44 (namedOptions_nonempty withStart e) (Nat.le_succ (delimited 44 (namedOptions withStart e)).length)
  have listed := namedOptions_listed withStart e (delimited 44 (namedOptions withStart e)).length
  rwa [whole] at listed

theorem sizedOptions_bootable : (listedTokens (namedOptions withStart e ++ [sizeOption e])).bootable = false := by
  rw [listedTokens_append]
  exact (namedOptions_whole withStart e).2

/-- The tokens of a part do not give the entry: one is refused, or the size or the flag is missing. -/
def Lost (tokens : List CString) : Prop :=
  (∃ token ∈ tokens, ¬ TokenTaken token) ∨ (listedTokens tokens).lbaSize = 0 ∨
    e.attributes.getLsbD 2 = true ∧ (listedTokens tokens).bootable = false

/-- The tokens behind the name and the start, when they end before the last of them does. -/
theorem sizedOptions_cut {room : Nat}
    (short : room + 1 < (delimited 44 (sizeOption e :: if e.attributes.getLsbD 2 then [cstr "bootable"] else [])).length) :
    Lost e (namedOptions withStart e ++ cutPieces room (sizeOption e :: if e.attributes.getLsbD 2 then [cstr "bootable"] else [])) := by
  have named := namedOptions_whole withStart e
  have sized := sizedOptions_bootable withStart e
  have size : (delimited 44 (sizeOption e :: if e.attributes.getLsbD 2 then [cstr "bootable"] else [])).length =
      (sizeOption e).length + 1 + if e.attributes.getLsbD 2 then 9 else 0 := by
    cases e.attributes.getLsbD 2
    · simp [delimited]
    · simp [delimited]
      rfl
  rw [cutPieces]
  rw [size] at short
  by_cases inSize : room ≤ (sizeOption e).length
  · rw [if_pos inSize]
    by_cases zero : room = 0
    · rw [if_pos zero, List.append_nil]
      refine .inr (.inl ?_)
      rw [ListedPart.lbaSize, named.1]
      rfl
    · rw [if_neg zero]
      by_cases whole : room = (sizeOption e).length
      · cases flag : e.attributes.getLsbD 2 with
        | false =>
          rw [flag, if_neg (by decide)] at short
          omega
        | true =>
          rw [whole, List.take_length]
          exact .inr (.inr ⟨flag, sized⟩)
      · exact .inl ⟨(sizeOption e).take room, by simp, sizeOption_cut e (by omega)⟩
  · rw [if_neg inSize]
    cases flag : e.attributes.getLsbD 2 with
    | false =>
      rw [flag, if_neg (by decide)] at short
      omega
    | true =>
      rw [flag, if_pos rfl] at short
      have inFlag : room - ((sizeOption e).length + 1) < (cstr "bootable").length := by
        have eight : (cstr "bootable").length = 8 := rfl
        omega
      rw [if_pos rfl, cutPieces, if_pos (Nat.le_of_lt inFlag)]
      by_cases zero : room - ((sizeOption e).length + 1) = 0
      · rw [if_pos zero]
        exact .inr (.inr ⟨flag, sized⟩)
      · rw [if_neg zero]
        exact .inl ⟨_, by simp, bootable_cut inFlag⟩

theorem placeOptions_cut {room : Nat} (short : room + 1 < (delimited 44 (placeOptions withStart e)).length) :
    Lost e (cutPieces room (placeOptions withStart e)) := by
  rw [placeOptions, cutPieces_append 44]
  rw [placeOptions, delimited, List.flatMap_append, List.length_append, ← delimited, ← delimited] at short
  by_cases inside : room < (delimited 44 (namedOptions withStart e)).length
  · rw [if_pos inside]
    refine .inr (.inl ?_)
    rw [ListedPart.lbaSize, (namedOptions_listed withStart e room).1]
    rfl
  · rw [if_neg inside]
    exact sizedOptions_cut withStart e (by omega)

end Listed

/-! Names, of which the listing keeps the low bytes. -/

section Names

/-- The units are bytes with their sign, and the loop of the parser reaches all of them. -/
def NameSurvives (ws : PartitionName) : Prop :=
  ws.text.length ≤ 35 ∧ ∀ unit ∈ ws.text, unit.toNat < 0x80 ∨ 0xff80 ≤ unit.toNat

theorem signExtend_range (c : Byte) : (c.signExtend 16).toNat < 0x80 ∨ 0xff80 ≤ (c.signExtend 16).toNat := by
  revert c
  decide

theorem signExtend_low {unit : BitVec 16} (range : unit.toNat < 0x80 ∨ 0xff80 ≤ unit.toNat) :
    (unit.truncate 8 : Byte).signExtend 16 = unit := by
  have all : ∀ c : Byte, (c.signExtend 16).toNat = if c.toNat < 0x80 then c.toNat else 0xff00 + c.toNat := by decide
  have small := unit.isLt
  apply BitVec.eq_of_toNat_eq
  rw [all, BitVec.truncate_eq_setWidth, BitVec.toNat_setWidth]
  split <;> omega

theorem made_survives (s : CString) : NameSurvives (setGptPartitionName (Vector.replicate 36 0) s) := by
  rw [NameSurvives, setGptPartitionName_takeWhile]
  constructor
  · have shorter := (List.takeWhile_sublist (l := (s.take 35).map (BitVec.signExtend 16)) (· ≠ 0#16)).length_le
    rw [List.length_map, List.length_take] at shorter
    exact Nat.le_trans shorter (Nat.min_le_left _ _)
  · intro unit member
    obtain ⟨c, _, rfl⟩ := List.mem_map.mp ((List.takeWhile_sublist _).subset member)
    exact signExtend_range c

/-- The 127 bytes that the buffer has for the name hold all 36 units. -/
theorem listedName_eq (e : GptEntry) :
    listedName e = (e.partitionName.text.map (BitVec.truncate 8)).takeWhile (· ≠ 0) := by
  have whole : e.partitionName.toList.take (128 - 1) = e.partitionName.toList := by
    apply List.take_of_length_le
    rw [Vector.length_toList]
    decide
  rw [listedName, gptPartitionNameToChar, whole]
  rfl

theorem listedName_nonzero (e : GptEntry) : ∀ c ∈ listedName e, c ≠ 0 := by
  intro c member
  simpa using List.mem_takeWhile_imp member

theorem text_length (ws : PartitionName) : ws.text.length ≤ 36 := by
  have whole := (List.takeWhile_sublist (l := ws.toList) (· ≠ 0)).length_le
  rw [Vector.length_toList] at whole
  exact whole

theorem listedName_length (e : GptEntry) : (listedName e).length ≤ 36 := by
  have whole := (List.takeWhile_sublist (l := e.partitionName.text.map (BitVec.truncate 8)) (· ≠ (0 : Byte))).length_le
  rw [List.length_map] at whole
  rw [listedName_eq]
  exact Nat.le_trans whole (text_length e.partitionName)

theorem listedName_survives {e : GptEntry} (survives : NameSurvives e.partitionName) :
    listedName e = e.partitionName.text.map fun unit => unit.truncate 8 := by
  rw [listedName_eq]
  apply List.takeWhile_eq_self_iff.mpr
  intro c member
  obtain ⟨unit, inside, rfl⟩ := List.mem_map.mp member
  have nonzero : unit ≠ 0 := by simpa using List.mem_takeWhile_imp inside
  have kept := signExtend_low (survives.2 unit inside)
  simp only [ne_eq, decide_not, Bool.not_eq_true', decide_eq_false_iff_not]
  intro zero
  rw [zero] at kept
  exact nonzero kept.symm

theorem listedName_text (e : GptEntry) :
    (setGptPartitionName (Vector.replicate 36 0) (listedName e)).text = e.partitionName.text ↔ NameSurvives e.partitionName := by
  constructor
  · intro same
    have made := made_survives (listedName e)
    rw [NameSurvives, same] at made
    exact made
  · intro survives
    have short : (listedName e).length ≤ 35 := by
      rw [listedName_survives survives, List.length_map]
      exact survives.1
    rw [setGptPartitionName_text (listedName_nonzero e),
      List.take_of_length_le short, listedName_survives survives, List.map_map]
    refine (List.map_congr_left fun unit inside => ?_).trans (List.map_id _)
    exact signExtend_low (survives.2 unit inside)

end Names

end ImgEditor
