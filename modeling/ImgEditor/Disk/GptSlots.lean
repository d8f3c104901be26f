import ImgEditor.Disk.GptListed
import ImgEditor.Storage.Slots

namespace ImgEditor

open Storage CText

/-- The parts of a text one after the other, without those that are no partition. -/
inductive PartsParsed : GptWriteData → List ListedPart → GptWriteData → Prop
  | nil {p p' : GptWriteData} : p'.partitions = p.partitions → PartsParsed p [] p'
  | cons {p p₁ p' : GptWriteData} {l : ListedPart} {rest : List ListedPart} :
      PartParsed p l p₁ → PartsParsed p₁ rest p' → PartsParsed p (l :: rest) p'

theorem PartParsed.same {p q p' : GptWriteData} {l : ListedPart} (parsed : PartParsed q l p')
    (partitions : q.partitions = p.partitions) (active : q.activePartitionEntries = p.activePartitionEntries)
    (next : q.nextLba = p.nextLba) (type : q.diskTypeUid = p.diskTypeUid) : PartParsed p l p' := by
  obtain ⟨inside, moved, kept, readable, other, placed⟩ := parsed
  rw [partitions, active, next] at other
  rw [partitions, active, next, type] at placed
  rw [partitions, active] at inside
  exact ⟨inside, by rw [moved, active], kept.trans type, readable, other, placed⟩

theorem PartsParsed.same {p q p' : GptWriteData} {parts : List ListedPart} (parsed : PartsParsed q parts p')
    (partitions : q.partitions = p.partitions) (active : q.activePartitionEntries = p.activePartitionEntries)
    (next : q.nextLba = p.nextLba) (type : q.diskTypeUid = p.diskTypeUid) : PartsParsed p parts p' := by
  cases parsed with
  | nil same => exact .nil (same.trans partitions)
  | cons first behind => exact .cons (first.same partitions active next type) behind

theorem gptParseParts_parsed {p p' : GptWriteData} {parts : List CString} (whole : ∀ part ∈ parts, WholePart part)
    (run : parts.foldlM gptParsePart p = some p') :
    PartsParsed p ((parts.map listedPart).filter fun l => l.Partition) p' := by
  induction parts generalizing p with
  | nil =>
    obtain rfl := Option.some.inj run
    exact .nil rfl
  | cons part rest ih =>
    rw [List.foldlM_cons] at run
    obtain ⟨middle, first, others⟩ := Option.bind_eq_some_iff.mp run
    have parsed := gptParsePart_parsed (whole part List.mem_cons_self) first
    have behind := ih (fun part member => whole part (List.mem_cons_of_mem _ member)) others
    rw [List.map_cons]
    by_cases listed : (listedPart part).Partition
    · rw [List.filter_cons_of_pos (by simpa using listed)]
      exact .cons parsed behind
    · rw [List.filter_cons_of_neg (by simpa using listed)]
      obtain ⟨partitions, active, next, type⟩ := parsed.unlisted listed
      exact behind.same partitions active next type

/-- Every part has a slot of its own: none gives the GUID of the disk, and all but the last have a name. -/
def Spread : List ListedPart → Prop
  | [] => True
  | l :: rest => l.uuidDisk = false ∧ (rest ≠ [] → 0 < l.names) ∧ Spread rest

instance Spread.decidable : (parts : List ListedPart) → Decidable (Spread parts)
  | [] => inferInstanceAs (Decidable True)
  | _ :: rest => @instDecidableAnd _ _ _ (@instDecidableAnd _ _ _ (Spread.decidable rest))

def usedEntries (entries : List GptEntry) : Nat := entries.countP fun e => e.Used

def SlotFree (p : GptWriteData) : Prop := ¬ (p.partitions.getD p.activePartitionEntries .zero).Used

/-- A part makes at most one more entry used, and only where its slot is free. -/
theorem PartParsed.used {p p' : GptWriteData} {l : ListedPart} (parsed : PartParsed p l p') :
    usedEntries p'.partitions ≤ usedEntries p.partitions + 1 ∧
      (usedEntries p'.partitions = usedEntries p.partitions + 1 →
        l.uuidDisk = false ∧ SlotFree p ∧ (l.names = 0 → ¬ SlotFree p')) := by
  have inside := parsed.inside
  have own : p.partitions.getD p.activePartitionEntries .zero = p.partitions[p.activePartitionEntries] :=
    List.getElem_eq_getD _ |>.symm
  cases disk : l.uuidDisk with
  | true =>
    obtain ⟨partitions, _⟩ := parsed.other disk
    obtain ⟨most, exact_⟩ := countP_modify_le (p := fun e : GptEntry => e.Used) inside l.given
    rw [usedEntries, usedEntries, partitions]
    refine ⟨most, fun more => ?_⟩
    obtain ⟨unused, used⟩ := exact_ more
    -- the given fields are not those that make an entry used
    exact absurd (of_decide_eq_true used) (of_decide_eq_false unused)
  | false =>
    obtain ⟨_, partitions, _⟩ := parsed.placed disk
    obtain ⟨most, exact_⟩ := countP_modify_le (p := fun e : GptEntry => e.Used) inside (l.entry p.diskTypeUid p.nextLba)
    rw [usedEntries, usedEntries, partitions]
    refine ⟨most, fun more => ?_⟩
    obtain ⟨unused, used⟩ := exact_ more
    refine ⟨rfl, ?_, fun unnamed => ?_⟩
    · rw [SlotFree, own]
      exact of_decide_eq_false unused
    · have still : p'.activePartitionEntries = p.activePartitionEntries := by rw [parsed.active, unnamed, Nat.add_zero]
      rw [SlotFree, still, partitions, List.getD_eq_getElem?_getD, List.getElem?_modify_eq,
        List.getElem?_eq_getElem inside]
      exact not_not.mpr (of_decide_eq_true used)

/-- As many used entries as parts are only possible where every part has its own slot. -/
theorem PartsParsed.spread {p p' : GptWriteData} {parts : List ListedPart} (parsed : PartsParsed p parts p') :
    usedEntries p'.partitions ≤ usedEntries p.partitions + parts.length ∧
      (usedEntries p'.partitions = usedEntries p.partitions + parts.length →
        Spread parts ∧ (parts ≠ [] → SlotFree p)) := by
  induction parsed with
  | nil same =>
    rw [same]
    exact ⟨Nat.le_refl _, fun _ => ⟨trivial, fun nonempty => absurd rfl nonempty⟩⟩
  | @cons p p₁ p' l rest first _ ih =>
    obtain ⟨most, own⟩ := first.used
    obtain ⟨restMost, restOwn⟩ := ih
    rw [List.length_cons]
    refine ⟨by omega, fun all => ?_⟩
    obtain ⟨disk, free, unnamed⟩ := own (by omega)
    obtain ⟨spread, restFree⟩ := restOwn (by omega)
    refine ⟨⟨disk, fun more => ?_, spread⟩, fun _ => free⟩
    exact Nat.pos_of_ne_zero fun zero => unnamed zero (restFree more)

/-- The entries of the parts, each with the slots that further names of the part skip. -/
def slotBlocks (type : EfiGuid) : BitVec 64 → List ListedPart → List GptEntry
  | _, [] => []
  | next, l :: rest =>
    l.entry type next .zero :: (List.replicate (l.names - 1) .zero ++ slotBlocks type (l.startLba next + l.lbaSize) rest)

theorem PartsParsed.slots {p p' : GptWriteData} {parts : List ListedPart} {n : Nat} {before : List GptEntry}
    (parsed : PartsParsed p parts p') (spread : Spread parts) (array : p.partitions = filledSlots .zero n before)
    (place : before.length = p.activePartitionEntries) :
    p'.partitions = filledSlots .zero n (before ++ slotBlocks p.diskTypeUid p.nextLba parts) := by
  induction parsed generalizing before with
  | nil same => rw [same, array, slotBlocks, List.append_nil]
  | @cons p p₁ p' l rest first others ih =>
    obtain ⟨disk, named, spreadRest⟩ := spread
    obtain ⟨_, partitions, next⟩ := first.placed disk
    have inside : before.length < n := by
      have room := first.inside
      rw [array, filledSlots_length] at room
      rwa [place]
    rw [array, ← place, filledSlots_modify inside] at partitions
    have filled : p₁.partitions = filledSlots .zero n
        (before ++ l.entry p.diskTypeUid p.nextLba .zero :: List.replicate (l.names - 1) .zero) := by
      rw [partitions, ← filledSlots_blank (l.names - 1), List.append_assoc, List.singleton_append]
    cases rest with
    | nil =>
      cases others with
      | nil same => rw [same, filled, slotBlocks, slotBlocks, List.append_nil]
    | cons second more =>
      have positive := named (List.cons_ne_nil _ _)
      have moved : (before ++ l.entry p.diskTypeUid p.nextLba .zero :: List.replicate (l.names - 1) .zero).length =
          p₁.activePartitionEntries := by
        rw [first.active, List.length_append, List.length_cons, List.length_replicate]
        omega
      rw [ih spreadRest filled moved, first.type, next, List.append_assoc, List.cons_append]
      rfl

theorem PartsParsed.readable {p p' : GptWriteData} {parts : List ListedPart} (parsed : PartsParsed p parts p')
    (spread : Spread parts) : ∀ l ∈ parts, l.Readable ∧ l.lbaSize ≠ 0 := by
  induction parsed with
  | nil _ => exact fun l member => absurd member List.not_mem_nil
  | cons first _ ih =>
    intro l member
    rcases List.mem_cons.mp member with rfl | later
    · exact ⟨first.readable, (first.placed spread.1).1⟩
    · exact ih spread.2.2 l later

end ImgEditor
