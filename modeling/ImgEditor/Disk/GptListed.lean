import ImgEditor.Disk.GptPartitions

namespace ImgEditor

open Storage CText

theorem sscanfUuid_any (old new : EfiGuid) (s : CString) : sscanfUuid old s = sscanfUuid new s := by
  have same : ∀ k : Fin 16, ((List.finRange 16).foldl (fun b (i : Fin 16) => b.set guidCharOrder[i].val
      ((xstring 17 s).getD i.val 0) guidCharOrder[i].isLt) old.b)[k] =
        ((List.finRange 16).foldl (fun b (i : Fin 16) => b.set guidCharOrder[i].val
          ((xstring 17 s).getD i.val 0) guidCharOrder[i].isLt) new.b)[k] := by
    intro k
    obtain ⟨j, rfl⟩ := guidCharOrder_involutive.surjective k
    have place := fun init => foldl_set_getElem (fun i : Fin 16 => guidCharOrder[i]) guidCharOrder_involutive.injective
      (fun i => (xstring 17 s).getD i.val 0) (List.finRange 16) (List.nodup_finRange 16) init j
    simp only [List.mem_finRange, if_true] at place
    exact (place old.b).trans (place new.b).symm
  simp only [sscanfUuid]
  split
  · rfl
  · simp only [Option.some.injEq, EfiGuid.mk.injEq]
    ext1 k inside
    exact same ⟨k, inside⟩

/-- What the options of a part give; of a key that is given twice the last one counts. -/
structure ListedPart where
  uuidDisk : Bool
  names : Nat
  name : Option CString
  start : Option CString
  size : Option CString
  uuid : Option CString
  type : Option CString
  bootable : Bool
deriving DecidableEq

namespace ListedPart

def empty : ListedPart := ⟨false, 0, none, none, none, none, none, false⟩

def add (l : ListedPart) : GptExpr → ListedPart
  | .uuidDisk _ => { l with uuidDisk := true }
  | .name s => { l with names := l.names + 1, name := some s }
  | .start s => { l with start := some s }
  | .size s => { l with size := some s }
  | .uuid s => { l with uuid := some s }
  | .type s => { l with type := some s }
  | .bootable => { l with bootable := true }

/-- The GUID of the disk alone is no partition. -/
def Partition (l : ListedPart) : Prop := l ≠ { empty with uuidDisk := true }

instance (l : ListedPart) : Decidable l.Partition := inferInstanceAs (Decidable (_ ≠ _))

def given (l : ListedPart) (e : GptEntry) : GptEntry :=
  { e with
    partitionTypeGuid := (l.type.bind (sscanfUuid .zero)).getD e.partitionTypeGuid
    uniquePartitionGuid := (l.uuid.bind (sscanfUuid .zero)).getD e.uniquePartitionGuid
    attributes := if l.bootable then gptBootable else e.attributes
    partitionName := (l.name.map (setGptPartitionName (Vector.replicate 36 0))).getD e.partitionName }

def startLba (l : ListedPart) (next : BitVec 64) : BitVec 64 := (l.start.bind toPartitionLbaSize).getD next

def lbaSize (l : ListedPart) : BitVec 64 := (l.size.bind toPartitionLbaSize).getD 0

def entry (l : ListedPart) (diskTypeUid : EfiGuid) (next : BitVec 64) (e : GptEntry) : GptEntry :=
  { l.given e with
    partitionTypeGuid := diskTypeUid
    startingLba := l.startLba next
    endingLba := l.startLba next + l.lbaSize - 1 }

structure Readable (l : ListedPart) : Prop where
  start : ∀ s, l.start = some s → toPartitionLbaSize s = some (l.startLba 0)
  size : ∀ s, l.size = some s → toPartitionLbaSize s = some l.lbaSize
  uuid : ∀ s, l.uuid = some s → (sscanfUuid .zero s).isSome

end ListedPart

def listedPart (part : CString) : ListedPart :=
  ((strtok [44] part).filterMap gptExpr).foldl ListedPart.add ListedPart.empty

def partitionsText (partitions : CString) : CString := (exprIsMatch partitions (cstr "partitions=")).getD partitions

def listedParts (partitions : CString) : List ListedPart :=
  ((strtok [59] (partitionsText partitions)).map listedPart).filter fun l => l.Partition

/-- A part that fits in the buffer and the array of `gpt_parse_part`. -/
def WholePart (part : CString) : Prop := part.length ≤ 1023 ∧ (strtok [44] part).length ≤ 31

structure PartRead (p : GptWriteData) (l : ListedPart) (st : GptPartState) : Prop where
  partitions : st.p.partitions = p.partitions.modify p.activePartitionEntries l.given
  active : st.p.activePartitionEntries = p.activePartitionEntries + l.names
  next : st.p.nextLba = p.nextLba
  type : st.p.diskTypeUid = p.diskTypeUid
  disk : st.isDiskpart = !l.uuidDisk
  plain : st.withType = false
  start : st.lbaStart = l.startLba p.nextLba
  size : st.lbaSize = l.lbaSize
  readable : l.Readable

theorem partRead_empty (p : GptWriteData) : PartRead p ListedPart.empty ⟨p, p.nextLba, 0, true, false⟩ where
  partitions := (List.modify_id _ _).symm
  active := rfl
  next := rfl
  type := rfl
  disk := rfl
  plain := rfl
  start := rfl
  size := rfl
  readable := ⟨nofun, nofun, nofun⟩

theorem PartRead.update {p : GptWriteData} {l l' : ListedPart} {st : GptPartState} (read : PartRead p l st)
    {f : GptEntry → GptEntry} (same : f ∘ l.given = l'.given) :
    (st.p.update p.activePartitionEntries f).partitions = p.partitions.modify p.activePartitionEntries l'.given := by
  rw [GptWriteData.update, read.partitions, List.modify_modify_eq, same]

theorem gptParseExpr_read {p : GptWriteData} {l : ListedPart} {st st' : GptPartState} {expr : GptExpr}
    (step : gptParseExpr p.activePartitionEntries st expr = some st') (read : PartRead p l st) :
    PartRead p (l.add expr) st' := by
  cases expr with
  | uuidDisk s =>
    obtain ⟨guid, _, rfl⟩ := Option.map_eq_some_iff.mp step
    exact { read with disk := rfl, readable := ⟨read.readable.start, read.readable.size, read.readable.uuid⟩ }
  | name s =>
    obtain rfl := Option.some.inj step
    have active : st.p.activePartitionEntries + 1 = p.activePartitionEntries + (l.names + 1) := by
      rw [read.active]
      rfl
    exact { read with
      partitions := read.update rfl
      active := active
      readable := ⟨read.readable.start, read.readable.size, read.readable.uuid⟩ }
  | start s =>
    obtain ⟨lba, value, rfl⟩ := Option.map_eq_some_iff.mp step
    have start (next : BitVec 64) : (l.add (.start s)).startLba next = lba := by
      simp [ListedPart.startLba, ListedPart.add, value]
    refine { read with start := (start _).symm, readable := ⟨?_, read.readable.size, read.readable.uuid⟩ }
    intro t same
    obtain rfl := Option.some.inj same
    rw [start, value]
  | size s =>
    obtain ⟨lba, value, rfl⟩ := Option.map_eq_some_iff.mp step
    have size : (l.add (.size s)).lbaSize = lba := by simp [ListedPart.lbaSize, ListedPart.add, value]
    refine { read with size := size.symm, readable := ⟨read.readable.start, ?_, read.readable.uuid⟩ }
    intro t same
    obtain rfl := Option.some.inj same
    rw [size, value]
  | uuid s =>
    obtain ⟨guid, value, rfl⟩ := Option.map_eq_some_iff.mp step
    rw [sscanfUuid_any _ .zero] at value
    refine { read with partitions := read.update ?_, readable := ⟨read.readable.start, read.readable.size, ?_⟩ }
    · funext e
      simp only [Function.comp, ListedPart.given, ListedPart.add, Option.bind_some, value, Option.getD_some]
      rfl
    · intro t same
      obtain rfl := Option.some.inj same
      rw [value]
      rfl
  | type s =>
    obtain ⟨guid, value, rfl⟩ := Option.map_eq_some_iff.mp step
    rw [sscanfUuid_any _ .zero] at value
    refine { read with
      partitions := read.update ?_
      readable := ⟨read.readable.start, read.readable.size, read.readable.uuid⟩ }
    funext e
    simp only [Function.comp, ListedPart.given, ListedPart.add, Option.bind_some, value, Option.getD_some]
    rfl
  | bootable =>
    obtain rfl := Option.some.inj step
    exact { read with
      partitions := read.update rfl
      readable := ⟨read.readable.start, read.readable.size, read.readable.uuid⟩ }

theorem gptParseExprs_read {p : GptWriteData} {l : ListedPart} {st st' : GptPartState} {exprs : List CString}
    (run : exprs.foldlM (fun st expr => (gptExpr expr).bind (gptParseExpr p.activePartitionEntries st)) st = some st')
    (read : PartRead p l st) : PartRead p ((exprs.filterMap gptExpr).foldl ListedPart.add l) st' := by
  induction exprs generalizing st l with
  | nil =>
    obtain rfl := Option.some.inj run
    exact read
  | cons expr rest ih =>
    rw [List.foldlM_cons] at run
    obtain ⟨middle, first, others⟩ := Option.bind_eq_some_iff.mp run
    obtain ⟨known, option, step⟩ := Option.bind_eq_some_iff.mp first
    rw [List.filterMap_cons_some option]
    exact ih others (gptParseExpr_read step read)

/-- What `gpt_parse_part` does for a part that fits in its buffers. -/
structure PartParsed (p : GptWriteData) (l : ListedPart) (p' : GptWriteData) : Prop where
  inside : p.activePartitionEntries < p.partitions.length
  active : p'.activePartitionEntries = p.activePartitionEntries + l.names
  type : p'.diskTypeUid = p.diskTypeUid
  readable : l.Readable
  other : l.uuidDisk = true →
    p'.partitions = p.partitions.modify p.activePartitionEntries l.given ∧ p'.nextLba = p.nextLba
  placed : l.uuidDisk = false → l.lbaSize ≠ 0 ∧
    p'.partitions = p.partitions.modify p.activePartitionEntries (l.entry p.diskTypeUid p.nextLba) ∧
    p'.nextLba = l.startLba p.nextLba + l.lbaSize

theorem gptPlacePart_parsed {p p' : GptWriteData} {l : ListedPart} {st : GptPartState}
    (inside : p.activePartitionEntries < p.partitions.length) (read : PartRead p l st)
    (placed : gptPlacePart p.activePartitionEntries st = some p') : PartParsed p l p' := by
  cases disk : l.uuidDisk with
  | true =>
    have other : st.isDiskpart = false := by rw [read.disk, disk]; rfl
    rw [gptPlacePart, other] at placed
    obtain rfl := Option.some.inj placed
    exact ⟨inside, read.active, read.type, read.readable, fun _ => ⟨read.partitions, read.next⟩,
      fun without => absurd (disk.symm.trans without) (by decide)⟩
  | false =>
    have own : st.isDiskpart = true := by rw [read.disk, disk]; rfl
    rw [gptPlacePart, own, if_pos rfl] at placed
    split at placed
    · cases placed
    · rename_i filled
      simp only [read.plain] at placed
      obtain rfl := Option.some.inj placed
      refine ⟨inside, read.active, read.type, read.readable,
        fun given => absurd (disk.symm.trans given) (by decide), fun _ => ⟨?_, ?_, ?_⟩⟩
      · rw [← read.size]
        exact filled
      · show ((st.p.partitions.modify _ _).modify _ _) = _
        rw [List.modify_modify_eq, read.partitions, List.modify_modify_eq, read.type, read.start, read.size]
        rfl
      · show st.lbaStart + st.lbaSize = _
        rw [read.start, read.size]

theorem gptParsePart_parsed {p p' : GptWriteData} {part : CString} (whole : WholePart part)
    (parsed : gptParsePart p part = some p') : PartParsed p (listedPart part) p' := by
  have exprs : argvBufferSplitWithDelim (part.take 1023) [44] 32 = strtok [44] part := by
    rw [List.take_of_length_le whole.1, argvBufferSplitWithDelim, if_neg (by decide)]
    exact List.take_of_length_le whole.2
  simp only [gptParsePart, exprs] at parsed
  split at parsed
  · cases parsed
  · rename_i inside
    obtain ⟨st, run, placed⟩ := Option.bind_eq_some_iff.mp parsed
    exact gptPlacePart_parsed (Nat.lt_of_not_le inside) (gptParseExprs_read run (partRead_empty p)) placed

theorem ListedPart.size_given {l : ListedPart} (filled : l.lbaSize ≠ 0) : ∃ s, l.size = some s := by
  cases size : l.size with
  | none => exact absurd (by simp [lbaSize, size]) filled
  | some s => exact ⟨s, rfl⟩

/-- The GUID of the disk leaves the entries as they are. -/
theorem PartParsed.unlisted {p p' : GptWriteData} {l : ListedPart} (parsed : PartParsed p l p') (alone : ¬ l.Partition) :
    p'.partitions = p.partitions ∧ p'.activePartitionEntries = p.activePartitionEntries ∧
      p'.nextLba = p.nextLba ∧ p'.diskTypeUid = p.diskTypeUid := by
  obtain rfl := not_not.mp alone
  obtain ⟨entries, next⟩ := parsed.other rfl
  exact ⟨entries.trans (List.modify_id _ _), parsed.active, next, parsed.type⟩

end ImgEditor
