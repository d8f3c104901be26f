import ImgEditor.Disk.GptPartsRight

namespace ImgEditor

open Storage CText

theorem default_twice {w : Nat} (x : BitVec w) {d : BitVec w} (nonzero : d ≠ 0) :
    (if (if x = 0 then d else x) = 0 then d else if x = 0 then d else x) = if x = 0 then d else x := by
  by_cases zero : x = 0
  · rw [if_pos zero, if_neg nonzero]
  · rw [if_neg zero, if_neg zero]

theorem gptWriteDefaults_twice (hdr : GptHeader) : gptWriteDefaults (gptWriteDefaults hdr) = gptWriteDefaults hdr := by
  simp only [gptWriteDefaults, GptHeader.mk.injEq, true_and, and_true]
  exact ⟨default_twice _ (by decide), default_twice _ (by decide), default_twice _ (by decide),
    default_twice _ (by decide)⟩

theorem gptWrite_defaults (hdr : GptHeader) (partitions : List Byte) (fd : Fd) :
    gptWrite (gptWriteDefaults hdr) partitions fd = gptWrite hdr partitions fd := by
  unfold gptWrite gptWriteOffset
  rw [gptWriteDefaults_twice]

theorem encodeEntries_take (entries : List GptEntry) {count : Nat} (inside : count ≤ entries.length) :
    encodeEntries (entries.take count) = (encodeEntries entries).take (128 * count) := by
  have parts : encodeEntries entries = encodeEntries (entries.take count) ++ encodeEntries (entries.drop count) := by
    rw [encodeEntries, encodeEntries, encodeEntries, ← List.flatMap_append, List.take_append_drop]
  have length : (encodeEntries (entries.take count)).length = 128 * count := by
    rw [encodeEntries_length, List.length_take, Nat.min_eq_left inside]
  rw [parts, List.take_left' length]

/-- The loop looks at no entry behind those that it writes. -/
theorem gptWriteEntries_take {partitions : List Byte} {stride count i offset bytes : Nat} {fd : Fd}
    (inside : 128 * (i + count) ≤ bytes) (room : bytes ≤ partitions.length) :
    gptWriteEntries (partitions.take bytes) stride count i offset fd =
      gptWriteEntries partitions stride count i offset fd := by
  induction count generalizing i offset fd with
  | zero => rfl
  | succ count ih =>
    have here : 128 * (i + 1) ≤ partitions.length := by omega
    have kept : 128 * (i + 1) ≤ (partitions.take bytes).length := by
      rw [List.length_take]
      omega
    have entry : ((partitions.take bytes).drop (128 * i)).take 128 = (partitions.drop (128 * i)).take 128 := by
      rw [List.drop_take, List.take_take, Nat.min_eq_left (by omega)]
    rw [gptWriteEntries, gptWriteEntries, if_pos here, if_pos kept, entry, ih (by omega)]

section Written

variable {hdr : GptHeader} {entries : List GptEntry} {image : Fd}

theorem gptWrite_inside (lba : hdr.myLba = 0 ∨ hdr.myLba = 1)
    (written : gptWrite hdr (encodeEntries entries) Fd.created = some image) :
    (gptWriteDefaults hdr).numPartitionEntries.toNat ≤ entries.length := by
  obtain ⟨fd, run, _⟩ := (gptWrite_some lba).mp written
  by_cases nonempty : (gptWriteDefaults hdr).numPartitionEntries.toNat = 0
  · omega
  · have inside := gptWriteEntries_inside run nonempty
    rw [encodeEntries_length] at inside
    omega

theorem gptWrite_table (blank : hdr.myLba = 0) (packed : hdr.sizeofPartitionEntry = 0)
    (near : hdr.partitionEntryLba.toNat < 2 ^ 23) (apart : hdr.partitionEntryLba ≠ 1) (room : entries.length ≤ 128)
    (written : gptWrite hdr (encodeEntries entries) Fd.created = some image) :
    ∃ table, gptDetect ⟨image.file, 0, 0⟩ = some table ∧
      table.entries = entries.take (gptWriteDefaults hdr).numPartitionEntries.toNat := by
  have inside := gptWrite_inside (.inl blank) written
  have length : (entries.take (gptWriteDefaults hdr).numPartitionEntries.toNat).length =
      (gptWriteDefaults hdr).numPartitionEntries.toNat := by
    rw [List.length_take, Nat.min_eq_left inside]
  have stride : (gptWriteDefaults hdr).sizeofPartitionEntry = 128 := by rw [gptWriteDefaults, packed]; rfl
  have filled : (gptWriteDefaults hdr).numPartitionEntries ≠ 0 := by
    simp only [gptWriteDefaults]
    split
    · decide
    · assumption
  have first : (gptWriteDefaults hdr).partitionEntryLba.toNat < 2 ^ 23 ∧
      2 ≤ (gptWriteDefaults hdr).partitionEntryLba.toNat := by
    simp only [gptWriteDefaults]
    split
    · decide
    · rename_i nonzero
      have zero : hdr.partitionEntryLba.toNat ≠ 0 := fun same => nonzero (BitVec.eq_of_toNat_eq same)
      have one : hdr.partitionEntryLba.toNat ≠ 1 := fun same => apart (BitVec.eq_of_toNat_eq same)
      omega
  have safe : GptWriteSafe (gptWriteDefaults hdr) := by
    refine ⟨?_, filled, stride, by omega⟩
    rw [gptWriteDefaults_twice]
    exact first.1
  have behind : EntriesApart (gptWriteDefaults hdr) := by
    refine .inr (.inl ?_)
    rw [gptWriteDefaults_twice]
    omega
  obtain ⟨again, same, _, detected⟩ := safe.loaded length.symm (.inr (gptWriteDefaults_myLba (.inl blank))) behind
  have image_ : again = image := by
    rw [gptWrite_defaults] at same
    obtain ⟨fd, run, _, rfl⟩ := (gptWrite_some (.inl blank)).mp written
    obtain ⟨fd', run', _, rfl⟩ := (gptWrite_some (.inl blank)).mp same
    have bytes : 128 * (gptWriteDefaults hdr).numPartitionEntries.toNat ≤ (encodeEntries entries).length := by
      rw [encodeEntries_length]
      omega
    rw [encodeEntries_take entries inside, gptWriteEntries_take (by omega) bytes, run] at run'
    obtain rfl := Option.some.inj run'
    have product : ((gptWriteDefaults hdr).numPartitionEntries * (gptWriteDefaults hdr).sizeofPartitionEntry).toNat =
        128 * (gptWriteDefaults hdr).numPartitionEntries.toNat := by
      have size : (128 : BitVec 32).toNat = 128 := rfl
      rw [stride, BitVec.toNat_mul, size]
      omega
    have header : gptWrittenHeader hdr (encodeEntries
        (entries.take (gptWriteDefaults hdr).numPartitionEntries.toNat)) = gptWrittenHeader hdr (encodeEntries entries) := by
      simp only [gptWrittenHeader, product]
      rw [encodeEntries_take entries inside, List.take_take, Nat.min_self]
    rw [header]
  rw [image_] at detected
  exact ⟨_, detected, decodeEntries_encodeEntries _⟩

end Written

def WholeText (partitions : CString) : Prop :=
  (partitionsText partitions).length ≤ 4095 ∧ (strtok [59] (partitionsText partitions)).length ≤ 127 ∧
    ∀ part ∈ strtok [59] (partitionsText partitions), WholePart part

/-- The entries are not in sector 1 and lie below 4 GiB. -/
def EntriesPlaced (arg : WritePartitionsArg) : Prop := arg.partEntryLba.toNat < 2 ^ 23 ∧ arg.partEntryLba ≠ 1

def tableSlots (arg : WritePartitionsArg) : Nat := if arg.numParts = 0 then 128 else arg.numParts.toNat

def defaultType (arg : WritePartitionsArg) : EfiGuid := (gptDiskTypeUid arg.diskTypeUid).getD .zero

/-- The file holds a table whose used entries are those that the text lists. -/
def PartitionsRight (arg : WritePartitionsArg) (fd : Fd) : Prop :=
  ∃ table, gptDetect ⟨fd.file, 0, 0⟩ = some table ∧
    EntriesRight arg.firstLba.toNat (listedParts arg.partitions) (usedOf table.entries)

/-- Each part has a slot of its own in the table, and its values are ones that the table can hold. -/
structure PartitionsFit (arg : WritePartitionsArg) : Prop where
  whole : WholeText arg.partitions
  placed : EntriesPlaced arg
  spread : Spread (listedParts arg.partitions)
  parts : PartsFit (defaultType arg) (tableSlots arg) arg.firstLba.toNat (listedParts arg.partitions)

theorem gptParsePartitions_parsed {p p' : GptWriteData} {partitions : CString} (whole : WholeText partitions)
    (parsed : gptParsePartitions p partitions = some p') : PartsParsed p (listedParts partitions) p' := by
  obtain ⟨short, few, parts⟩ := whole
  have text : argvBufferSplitWithDelim ((partitionsText partitions).take 4095) [59] 128 =
      strtok [59] (partitionsText partitions) := by
    rw [List.take_of_length_le short, argvBufferSplitWithDelim, if_neg (by decide)]
    exact List.take_of_length_le few
  have run : (strtok [59] (partitionsText partitions)).foldlM gptParsePart p = some p' := by
    rw [← text]
    exact parsed
  exact gptParseParts_parsed parts run

theorem writePartitionsArgAutofix_same (arg : WritePartitionsArg) :
    (writePartitionsArgAutofix arg).partitions = arg.partitions ∧ (writePartitionsArgAutofix arg).firstLba = arg.firstLba ∧
      (writePartitionsArgAutofix arg).partEntryLba = arg.partEntryLba ∧
      (writePartitionsArgAutofix arg).numParts = arg.numParts := by
  unfold writePartitionsArgAutofix
  split <;> exact ⟨rfl, rfl, rfl, rfl⟩

/-- What a run that is not refused has parsed and written. -/
theorem gptWritePartitions_some {arg : WritePartitionsArg} {fd : Fd} (accepted : gptWritePartitions arg = some fd) :
    ∃ p hdr, gptParsePartitions ⟨.zero, List.replicate 128 .zero, arg.firstLba, 0, defaultType arg⟩ arg.partitions = some p ∧
      gptWrite hdr (encodeEntries p.partitions) Fd.created = some fd ∧ hdr.myLba = 0 ∧ hdr.sizeofPartitionEntry = 0 ∧
      hdr.partitionEntryLba = arg.partEntryLba ∧ hdr.numPartitionEntries = arg.numParts := by
  unfold gptWritePartitions at accepted
  split at accepted
  · cases accepted
  · obtain ⟨type, given, accepted⟩ := Option.bind_eq_some_iff.mp accepted
    have same : type = defaultType arg := by rw [defaultType, given, Option.getD_some]
    split at accepted
    · cases accepted
    · obtain ⟨p, parsed, written⟩ := Option.bind_eq_some_iff.mp accepted
      obtain ⟨text, first, place, count⟩ := writePartitionsArgAutofix_same arg
      rw [text, first, same] at parsed
      exact ⟨p, _, parsed, written, rfl, rfl, place, count⟩

theorem tableSlots_eq {hdr : GptHeader} {arg : WritePartitionsArg} (same : hdr.numPartitionEntries = arg.numParts) :
    (gptWriteDefaults hdr).numPartitionEntries.toNat = tableSlots arg := by
  simp only [gptWriteDefaults, same, tableSlots]
  split <;> rfl

section Right

variable {arg : WritePartitionsArg} {fd : Fd} {p : GptWriteData} {hdr : GptHeader}

theorem PartsParsed.table {parts : List ListedPart} {type : EfiGuid} {next : BitVec 64}
    (parsed : PartsParsed ⟨.zero, List.replicate 128 .zero, next, 0, type⟩ parts p) (spread : Spread parts) {slots : Nat}
    (inside : slots ≤ 128) :
    EntriesRight next.toNat parts (usedOf (p.partitions.take slots)) ↔ PartsFit type slots next.toNat parts := by
  have array := parsed.slots spread filledSlots_nil.symm rfl
  rw [List.nil_append] at array
  have start : BitVec.ofNat 64 next.toNat = next := by simp
  rw [array, filledSlots_take inside, ← entriesRight_iff slots next.toNat parts (Nat.le_of_lt next.isLt)
    (parsed.readable spread), start]

theorem PartsParsed.spread_of_right {parts : List ListedPart} {type : EfiGuid} {next : BitVec 64} {first slots : Nat}
    (parsed : PartsParsed ⟨.zero, List.replicate 128 .zero, next, 0, type⟩ parts p)
    (right : EntriesRight first parts (usedOf (p.partitions.take slots))) : Spread parts := by
  obtain ⟨most, own⟩ := parsed.spread
  have blank : usedEntries (List.replicate 128 GptEntry.zero) = 0 := by
    rw [usedEntries, List.countP_replicate, zero_unused]
    rfl
  have length := entriesRight_length right
  have fewer : (usedOf (p.partitions.take slots)).length ≤ usedEntries p.partitions := by
    rw [usedOf, ← List.countP_eq_length_filter]
    exact (List.take_sublist slots p.partitions).countP_le
  rw [blank] at most own
  exact (own (by omega)).1

theorem partitionsRight_table (placed : EntriesPlaced arg) (room : p.partitions.length ≤ 128)
    (written : gptWrite hdr (encodeEntries p.partitions) Fd.created = some fd) (blank : hdr.myLba = 0)
    (packed : hdr.sizeofPartitionEntry = 0) (place : hdr.partitionEntryLba = arg.partEntryLba)
    (count : hdr.numPartitionEntries = arg.numParts) :
    tableSlots arg ≤ p.partitions.length ∧ (PartitionsRight arg fd ↔
      EntriesRight arg.firstLba.toNat (listedParts arg.partitions) (usedOf (p.partitions.take (tableSlots arg)))) := by
  have inside := gptWrite_inside (.inl blank) written
  obtain ⟨table, detected, entries⟩ := gptWrite_table blank packed (place ▸ placed.1) (place ▸ placed.2) room written
  rw [tableSlots_eq count] at inside entries
  refine ⟨inside, ?_⟩
  rw [← entries]
  constructor
  · intro right
    obtain ⟨again, same, right⟩ := right
    rw [detected] at same
    obtain rfl := Option.some.inj same
    exact right
  · exact fun right => ⟨table, detected, right⟩

theorem PartsParsed.length {p p' : GptWriteData} {parts : List ListedPart} (parsed : PartsParsed p parts p') :
    p'.partitions.length = p.partitions.length := by
  induction parsed with
  | nil same => rw [same]
  | @cons p p₁ p' l rest first _ ih =>
    rw [ih]
    cases disk : l.uuidDisk with
    | true => rw [(first.other disk).1, List.length_modify]
    | false => rw [(first.placed disk).2.1, List.length_modify]

theorem PartitionsFit.iff_right {arg : WritePartitionsArg} {fd : Fd} (accepted : gptWritePartitions arg = some fd)
    (whole : WholeText arg.partitions) (placed : EntriesPlaced arg) : PartitionsRight arg fd ↔ PartitionsFit arg := by
  obtain ⟨p, hdr, parsed, written, blank, packed, place, count⟩ := gptWritePartitions_some accepted
  have parts := gptParsePartitions_parsed whole parsed
  have length : p.partitions.length = 128 := parts.length.trans List.length_replicate
  obtain ⟨inside, right⟩ := partitionsRight_table placed (by omega) written blank packed place count
  rw [right]
  constructor
  · intro entries
    have spread := parts.spread_of_right entries
    exact ⟨whole, placed, spread, (parts.table spread (by omega)).mp entries⟩
  · intro fits
    exact (parts.table fits.spread (by omega)).mpr fits.parts

/-- The written table has the listed entries when each part has a slot of its own and values that the table can hold,
with the default type; a text that is read as a whole into a table below 4 GiB gives them only then. -/
theorem gptWritePartitions_right_iff (arg : WritePartitionsArg) (fd : Fd) (accepted : gptWritePartitions arg = some fd) :
    (PartitionsFit arg → PartitionsRight arg fd) ∧
      (WholeText arg.partitions → EntriesPlaced arg → PartitionsRight arg fd → PartitionsFit arg) := by
  constructor
  · intro fits
    exact (PartitionsFit.iff_right accepted fits.whole fits.placed).mpr fits
  · intro whole placed right
    exact (PartitionsFit.iff_right accepted whole placed).mp right

end Right

def partitionsSample (text : CString) : WritePartitionsArg where
  lastLba := 204766
  altLba := 204799
  partitions := text

theorem gptWrite_accepts {hdr : GptHeader} {entries : List GptEntry} (blank : hdr.myLba = 0)
    (packed : hdr.sizeofPartitionEntry = 0)
    (inside : (gptWriteDefaults hdr).numPartitionEntries.toNat ≤ entries.length) (room : entries.length ≤ 128) :
    ∃ image, gptWrite hdr (encodeEntries entries) Fd.created = some image := by
  have stride : (gptWriteDefaults hdr).sizeofPartitionEntry = 128 := by rw [gptWriteDefaults, packed]; rfl
  have size : (128 : BitVec 32).toNat = 128 := rfl
  have offset := gptWriteOffset_eq hdr
  obtain ⟨fd, run, _⟩ := gptWriteEntries_packed (encodeEntries entries) (gptWriteDefaults hdr).numPartitionEntries.toNat
    0 (gptWriteOffset hdr) (gptWriteMbr Fd.created) (by rw [encodeEntries_length]; omega) (by omega)
  refine ⟨_, (gptWrite_some (.inl blank)).mpr ⟨fd, ?_, ?_, rfl⟩⟩
  · rw [stride, size]
    exact run
  · rw [stride, BitVec.toNat_mul, size, encodeEntries_length]
    omega

theorem partitionsSample_accepted {text : CString} (whole : WholeText text)
    (parsed : (gptParsePartitions ⟨.zero, List.replicate 128 .zero, 34, 0, .zero⟩ text).isSome) :
    ∃ fd, gptWritePartitions (partitionsSample text) = some fd := by
  obtain ⟨p, parts⟩ := Option.isSome_iff_exists.mp parsed
  have length : p.partitions.length = 128 :=
    (gptParsePartitions_parsed whole parts).length.trans List.length_replicate
  have accepts (hdr : GptHeader) (blank : hdr.myLba = 0) (packed : hdr.sizeofPartitionEntry = 0)
      (count : hdr.numPartitionEntries = 56) : ∃ fd, gptWrite hdr (encodeEntries p.partitions) Fd.created = some fd := by
    refine gptWrite_accepts blank packed ?_ (by omega)
    rw [length]
    simp only [gptWriteDefaults, count]
    decide
  obtain ⟨fd, written⟩ := accepts { GptHeader.zero with
    diskGuid := p.diskGuid
    partitionEntryLba := 2
    numPartitionEntries := 56
    firstUsableLba := 34
    lastUsableLba := 204766
    alternateLba := 204799 } rfl rfl rfl
  refine ⟨fd, ?_⟩
  rw [← written]
  show (gptParsePartitions ⟨.zero, List.replicate 128 .zero, 34, 0, .zero⟩ text).bind _ = _
  rw [parts]
  rfl

def namedText : CString := cstr "name=boot,size=1M"

def typedText : CString := cstr "name=boot,size=1M,type=ebd0a0a2-b9e5-4433-87c0-68b6b72699c7"

theorem wholeText_named : WholeText namedText := by
  unfold WholeText WholePart
  decide

theorem wholeText_typed : WholeText typedText := by
  unfold WholeText WholePart
  decide

theorem partitionsFit_named : PartitionsFit (partitionsSample namedText) := by
  have listed : listedParts namedText =
      [{ ListedPart.empty with names := 1, name := some (cstr "boot"), size := some (cstr "1M") }] := by decide +kernel
  have sectors : lbaGiven (cstr "1M") = some 2048 := by decide
  refine ⟨wholeText_named, by unfold EntriesPlaced; decide, ?_, ?_⟩
  · show Spread (listedParts namedText)
    rw [listed]
    decide
  · show PartsFit _ _ _ (listedParts namedText)
    rw [listed]
    refine ⟨by decide, ⟨nofun, ?_, by decide, ?_, ?_, nofun⟩, trivial⟩
    · intro s given
      obtain rfl := Option.some.inj given
      exact ⟨2048, by decide, sectors⟩
    · decide
    · intro s named
      obtain rfl := Option.some.inj named
      unfold GptNameFits
      decide

theorem gptWritePartitions_right_iff_named : ∃ fd, gptWritePartitions (partitionsSample namedText) = some fd ∧
    PartitionsRight (partitionsSample namedText) fd := by
  obtain ⟨fd, accepted⟩ := partitionsSample_accepted wholeText_named (by decide +kernel)
  exact ⟨fd, accepted, (gptWritePartitions_right_iff _ fd accepted).1 partitionsFit_named⟩

/-- A given type is replaced by the default one. -/
theorem gptWritePartitions_type : ∃ fd, gptWritePartitions (partitionsSample typedText) = some fd ∧
    ¬ PartitionsRight (partitionsSample typedText) fd := by
  have listed : ∃ l rest, listedParts typedText = l :: rest ∧
      l.type = some (cstr "ebd0a0a2-b9e5-4433-87c0-68b6b72699c7") := by
    refine ⟨{ ListedPart.empty with
      names := 1
      name := some (cstr "boot")
      size := some (cstr "1M")
      type := some (cstr "ebd0a0a2-b9e5-4433-87c0-68b6b72699c7") }, [], ?_, rfl⟩
    decide +kernel
  obtain ⟨fd, accepted⟩ := partitionsSample_accepted wholeText_typed (by decide +kernel)
  have placed : EntriesPlaced (partitionsSample typedText) := by
    unfold EntriesPlaced
    decide
  refine ⟨fd, accepted, fun right => ?_⟩
  have fits := ((PartitionsFit.iff_right accepted wholeText_typed placed).mp right).parts
  obtain ⟨l, rest, shape, type⟩ := listed
  rw [show (partitionsSample typedText).partitions = typedText from rfl, shape] at fits
  have default_ := fits.2.1.type _ type
  have other : sscanfUuid .zero (cstr "ebd0a0a2-b9e5-4433-87c0-68b6b72699c7") ≠
      some (defaultType (partitionsSample typedText)) := by decide +kernel
  exact other default_

end ImgEditor
