import ImgEditor.Core.Structure
import ImgEditor.Disk.Mbr
import ImgEditor.Disk.Partition

namespace ImgEditor

open Storage CText

def MAX_EXT_PARTS : Nat := 256
def DOS_PART_TYPE_EFI : Byte := 0xee

/-- `mbr_save_logic_cb`, whose store goes to `logic[logic_counts]`; none for its error. -/
def mbrSaveLogicCb (logic : List DosPartition) (call : MbrCall) : Option (List DosPartition) :=
  if logic.length > MAX_EXT_PARTS then none
  else if isExtended call.part.sysInd then some logic
  else some (logic ++ [{ call.part with start := (call.part.start + call.partStart + call.extendStart) % 2 ^ 32 }])

def mbrSaved (calls : List MbrCall) : Option (List DosPartition) := calls.foldlM mbrSaveLogicCb []

def mbrSaves (calls : List MbrCall) : Bool := (mbrSaved calls).isSome

def MbrState.calls : MbrState → List MbrCall
  | .sector _ calls => calls
  | .done calls => calls

/-- `mbr_foreach_extended` returns: with the logical partitions, or none for a negative value. -/
def MbrReturns (fd : Fd) (extendStart : Nat) (logic : Option (List DosPartition)) : Prop :=
  ∃ partStart calls made, Visits (mbrForeachExtended fd mbrSaves extendStart) (.sector 0 []) (.sector partStart calls) ∧
    mbrForeachExtended fd mbrSaves extendStart (.sector partStart calls) = some (.done made) ∧
    logic = if (ebrBuffer fd extendStart partStart).isSome then mbrSaved made else none

/-- The boot record; what the file does not have stays as it was on the stack. -/
def mbrBuffer (junk : Nat → Byte) (fd : Fd) : List Byte :=
  let bytes := (fd.read SECTOR_SIZE).1
  bytes ++ (List.range (SECTOR_SIZE - bytes.length)).map fun i => junk (bytes.length + i)

def mbrPrimary (junk : Nat → Byte) (forceType : Bool) (fd : Fd) : Option (List DosPartition) :=
  let buf := mbrBuffer junk fd
  if EbrRefused buf then none
  else if (dosPartition buf 0).sysInd = DOS_PART_TYPE_EFI ∧ forceType = false then none
  else some (dosPartitions buf)

/-- The loop that counts: the number so far, and the extended entry that it stops at. -/
def mbrCountPrimary : List DosPartition → Nat × Option DosPartition
  | [] => (0, none)
  | primary :: rest =>
    if primary.sysInd = 0 then mbrCountPrimary rest
    else if isExtended primary.sysInd then (0, some primary)
    else ((mbrCountPrimary rest).1 + 1, (mbrCountPrimary rest).2)

/-- The logical partitions that are there when the partitions are allocated. -/
def MbrLogic (fd : Fd) (primary : List DosPartition) (logic : Option (List DosPartition)) : Prop :=
  match (mbrCountPrimary primary).2 with
  | none => logic = some []
  | some extended => MbrReturns fd extended.start logic

def sdaName (sdax : Nat) : CString := cstr "sda" ++ decimal sdax

def mbrAddresses (part : DosPartition) (diskp : DiskPartition) : DiskPartition :=
  { diskp with
    startAddr := BitVec.ofNat 64 part.start * 512
    endAddr := (BitVec.ofNat 64 part.start + BitVec.ofNat 64 part.size) * 512 - 1 }

def mbrSkips (i : Nat) (part : DosPartition) : Bool :=
  i < DOS_PRIMARY_PARTITIONS && (part.sysInd = 0 || isExtended part.sysInd)

/-- The loop that fills `disk_parts->parts`; none when it writes outside of the array. -/
def mbrFill : List (DosPartition × Nat) → Nat → List DiskPartition → Option (List DiskPartition)
  | [], _, parts => some parts
  | (part, i) :: rest, diskpIndex, parts =>
    if diskpIndex < parts.length then
      let parts := parts.modify diskpIndex fun diskp => { diskp with name := sdaName (i + 1) }
      if mbrSkips i part then mbrFill rest diskpIndex parts
      else mbrFill rest (diskpIndex + 1) (parts.modify diskpIndex (mbrAddresses part))
    else none

/-- `mbr_detect` from `alloc_disk_partitions` on. -/
def mbrRegister (primary logic : List DosPartition) (gd : List DiskPartitions) : Option (List DiskPartitions) :=
  let parts := List.replicate ((mbrCountPrimary primary).1 + logic.length) ⟨[], 0, 0⟩
  (mbrFill (primary ++ logic).zipIdx 0 parts).map fun parts => registerWeakDiskPartitions gd ⟨cstr "MBR", 0, parts⟩

/-! ## What is meant -/

def DosPartition.Plain (part : DosPartition) : Prop := part.sysInd ≠ 0 ∧ isExtended part.sysInd = false

instance (part : DosPartition) : Decidable part.Plain := inferInstanceAs (Decidable (_ ∧ _))

def LogicSafe (calls : List MbrCall) : Prop :=
  ∀ n logic, mbrSaved (calls.take n) = some logic → logic.length ≤ MAX_EXT_PARTS

def mbrPartition (part : DosPartition × Nat) : DiskPartition := mbrAddresses part.1 ⟨sdaName (part.2 + 1), 0, 0⟩

/-- One partition for each plain primary entry and for each logical one. -/
def mbrListed (primary logic : List DosPartition) : List DiskPartition :=
  ((primary.zipIdx.filter fun part => part.1.Plain) ++ logic.zipIdx primary.length).map mbrPartition

structure MbrDetectRight (junk : Nat → Byte) (forceType : Bool) (fd : Fd) (gd : List DiskPartitions) : Prop where
  stores : ∀ primary extended, mbrPrimary junk forceType fd = some primary → (mbrCountPrimary primary).2 = some extended →
    ∀ s, Visits (mbrForeachExtended fd mbrSaves extended.start) (.sector 0 []) s → LogicSafe s.calls
  registers : ∀ primary logic, mbrPrimary junk forceType fd = some primary → MbrLogic fd primary (some logic) →
    mbrRegister primary logic gd = some (gd ++ [⟨cstr "MBR", DISK_PARTITIONS_SCORE_WEAK, mbrListed primary logic⟩])

/-- The calls for entries that are not extended. -/
def mbrLogical (calls : List MbrCall) : List MbrCall := calls.filter fun call => isExtended call.part.sysInd = false

/-- No plain entry stands behind an extended one. -/
def PlainFirst : List DosPartition → Prop
  | [] => True
  | part :: rest => (isExtended part.sysInd = true → ∀ other ∈ rest, ¬ other.Plain) ∧ PlainFirst rest

/-- The chain has at most 256 logical partitions; no plain entry stands behind the extended one, the last of all entries
is filled in, and there is a place for the table. -/
structure MbrDetectFits (junk : Nat → Byte) (forceType : Bool) (fd : Fd) (gd : List DiskPartitions) : Prop where
  few : ∀ primary extended, mbrPrimary junk forceType fd = some primary → (mbrCountPrimary primary).2 = some extended →
    ∀ s, Visits (mbrForeachExtended fd (fun _ => true) extended.start) (.sector 0 []) s →
      (mbrLogical s.calls).length ≤ MAX_EXT_PARTS
  order : ∀ primary logic, mbrPrimary junk forceType fd = some primary → MbrLogic fd primary (some logic) →
    PlainFirst primary ∧ (logic ≠ [] ∨ ∃ last ∈ primary.getLast?, last.Plain) ∧ gd.length < GD_MAX_PARTITIONS

section Calls

theorem mbrSaved_snoc (calls : List MbrCall) (call : MbrCall) :
    mbrSaved (calls ++ [call]) = (mbrSaved calls).bind fun logic => mbrSaveLogicCb logic call := by
  rw [mbrSaved, List.foldlM_append]
  show (mbrSaved calls).bind _ = _
  congr 1
  funext logic
  show (mbrSaveLogicCb logic call).bind some = _
  cases mbrSaveLogicCb logic call <;> rfl

theorem mbrLogical_snoc (calls : List MbrCall) (call : MbrCall) : (mbrLogical (calls ++ [call])).length =
    (mbrLogical calls).length + if isExtended call.part.sysInd then 0 else 1 := by
  rw [mbrLogical, List.filter_append, List.length_append, ← mbrLogical]
  cases extended : isExtended call.part.sysInd <;> simp [extended]

theorem mbrSaved_length {calls : List MbrCall} {logic : List DosPartition} (saved : mbrSaved calls = some logic) :
    logic.length = (mbrLogical calls).length := by
  induction calls using List.reverseRecOn generalizing logic with
  | nil =>
    obtain rfl := Option.some.inj saved
    rfl
  | append_singleton calls call ih =>
    rw [mbrSaved_snoc] at saved
    obtain ⟨before, first, last⟩ := Option.bind_eq_some_iff.mp saved
    rw [mbrLogical_snoc, ← ih first]
    unfold mbrSaveLogicCb at last
    split at last
    · cases last
    · split at last
      · rename_i extended
        obtain rfl := Option.some.inj last
        rw [if_pos extended, Nat.add_zero]
      · rename_i plain
        obtain rfl := Option.some.inj last
        rw [if_neg plain, List.length_append, List.length_singleton]

/-- The calls succeed as long as there are few enough logical partitions before the last one. -/
theorem mbrSaved_some {calls : List MbrCall} (few : (mbrLogical calls).length ≤ MAX_EXT_PARTS) :
    ∃ logic, mbrSaved calls = some logic := by
  induction calls using List.reverseRecOn with
  | nil => exact ⟨[], rfl⟩
  | append_singleton calls call ih =>
    have count := mbrLogical_snoc calls call
    obtain ⟨logic, saved⟩ := ih (by omega)
    have length := mbrSaved_length saved
    rw [mbrSaved_snoc, saved, Option.bind_some, mbrSaveLogicCb, if_neg (by omega)]
    split
    · exact ⟨_, rfl⟩
    · exact ⟨_, rfl⟩

theorem mbrLogical_take (calls : List MbrCall) (n : Nat) :
    (mbrLogical (calls.take n)).length ≤ (mbrLogical calls).length :=
  ((List.take_sublist n calls).filter _).length_le

theorem logicSafe_iff (calls : List MbrCall) : LogicSafe calls ↔ (mbrLogical calls).length ≤ MAX_EXT_PARTS := by
  constructor
  · intro safe
    induction calls using List.reverseRecOn with
    | nil => exact Nat.zero_le _
    | append_singleton calls call ih =>
      have before : LogicSafe calls := by
        intro n logic saved
        by_cases inside : n ≤ calls.length
        · exact safe n logic (by rw [List.take_append_of_le_length inside]; exact saved)
        · rw [List.take_of_length_le (Nat.le_of_not_le inside)] at saved
          exact safe calls.length logic (by rw [List.take_left]; exact saved)
      obtain ⟨logic, saved⟩ := mbrSaved_some (ih before)
      have low : logic.length ≤ MAX_EXT_PARTS := by
        rw [mbrSaved_length saved]
        exact ih before
      -- the call passes the check, so its own store counts
      obtain ⟨stored, last⟩ : ∃ stored, mbrSaved (calls ++ [call]) = some stored := by
        rw [mbrSaved_snoc, saved, Option.bind_some, mbrSaveLogicCb, if_neg (by omega)]
        split
        · exact ⟨_, rfl⟩
        · exact ⟨_, rfl⟩
      rw [← mbrSaved_length last]
      exact safe (calls ++ [call]).length stored (by rw [List.take_length]; exact last)
  · intro few n logic saved
    rw [mbrSaved_length saved]
    exact Nat.le_trans (mbrLogical_take calls n) few

end Calls

section Walk

variable {fd : Fd} {extendStart partStart : Nat}

theorem ebrParts_prefix {cb : List MbrCall → Bool} (parts : List DosPartition) (calls : List MbrCall) :
    calls <+: (ebrParts cb extendStart partStart parts calls).calls := by
  induction parts generalizing calls with
  | nil => exact List.prefix_refl calls
  | cons part rest ih =>
    rw [ebrParts]
    split
    · exact ih calls
    · dsimp only
      split
      · exact List.prefix_append _ _
      · split
        · exact List.prefix_append _ _
        · exact (List.prefix_append _ _).trans (ih _)

theorem mbrLogical_front {calls more : List MbrCall} (front : calls <+: more) :
    (mbrLogical calls).length ≤ (mbrLogical more).length := (front.sublist.filter _).length_le

section Part

variable {cb : List MbrCall → Bool} {part : DosPartition} {rest : List DosPartition} {calls : List MbrCall}

theorem ebrParts_front (used : part.sysInd ≠ 0#8) :
    calls ++ [⟨part, extendStart, partStart⟩] <+: (ebrParts cb extendStart partStart (part :: rest) calls).calls := by
  rw [ebrParts, if_neg used]
  dsimp only
  split
  · exact List.prefix_refl _
  · split
    · exact List.prefix_refl _
    · exact ebrParts_prefix rest _

theorem ebrParts_pass (used : part.sysInd ≠ 0#8) (passes : cb (calls ++ [⟨part, extendStart, partStart⟩]) = true) :
    ebrParts cb extendStart partStart (part :: rest) calls =
      if isExtended part.sysInd then .sector part.start (calls ++ [⟨part, extendStart, partStart⟩])
      else ebrParts cb extendStart partStart rest (calls ++ [⟨part, extendStart, partStart⟩]) := by
  rw [ebrParts, if_neg used]
  dsimp only
  rw [passes, if_neg (not_not.mpr rfl)]

end Part

/-- The limit of the callback does not show while there are few enough logical partitions. -/
theorem ebrParts_few (parts : List DosPartition) (calls : List MbrCall)
    (few : (mbrLogical (ebrParts mbrSaves extendStart partStart parts calls).calls).length ≤ MAX_EXT_PARTS ∨
      (mbrLogical (ebrParts (fun _ => true) extendStart partStart parts calls).calls).length ≤ MAX_EXT_PARTS) :
    ebrParts mbrSaves extendStart partStart parts calls = ebrParts (fun _ => true) extendStart partStart parts calls := by
  induction parts generalizing calls with
  | nil => rfl
  | cons part rest ih =>
    by_cases empty : part.sysInd = 0#8
    · rw [ebrParts, ebrParts, if_pos empty, if_pos empty] at few ⊢
      exact ih calls few
    · have here : (mbrLogical (calls ++ [⟨part, extendStart, partStart⟩])).length ≤ MAX_EXT_PARTS := by
        rcases few with limited | unlimited
        · exact Nat.le_trans (mbrLogical_front (ebrParts_front empty)) limited
        · exact Nat.le_trans (mbrLogical_front (ebrParts_front empty)) unlimited
      have passes : mbrSaves (calls ++ [⟨part, extendStart, partStart⟩]) = true :=
        Option.isSome_iff_exists.mpr (mbrSaved_some here)
      rw [ebrParts_pass empty passes, ebrParts_pass empty rfl] at few ⊢
      split
      · rfl
      · rename_i plain
        rw [if_neg plain, if_neg plain] at few
        exact ih _ few

theorem mbrForeachExtended_few {s : MbrState}
    (few : (∀ t, mbrForeachExtended fd mbrSaves extendStart s = some t → (mbrLogical t.calls).length ≤ MAX_EXT_PARTS) ∨
      ∀ t, mbrForeachExtended fd (fun _ => true) extendStart s = some t → (mbrLogical t.calls).length ≤ MAX_EXT_PARTS) :
    mbrForeachExtended fd mbrSaves extendStart s = mbrForeachExtended fd (fun _ => true) extendStart s := by
  cases s with
  | done _ => rfl
  | sector partStart calls =>
    rw [mbrForeachExtended, mbrForeachExtended] at few ⊢
    cases read : ebrBuffer fd extendStart partStart with
    | none => rfl
    | some buf =>
      rw [read] at few
      dsimp only at few ⊢
      split
      · rfl
      · rename_i accepted
        rw [if_neg accepted, if_neg accepted] at few
        refine congrArg some (ebrParts_few _ _ ?_)
        rcases few with limited | unlimited
        · exact .inl (limited _ rfl)
        · exact .inr (unlimited _ rfl)

/-- The stores stay inside the array exactly if the whole chain has few enough logical partitions. -/
theorem mbrStores_iff (fd : Fd) (extendStart : Nat) :
    (∀ s, Visits (mbrForeachExtended fd mbrSaves extendStart) (.sector 0 []) s → LogicSafe s.calls) ↔
      ∀ s, Visits (mbrForeachExtended fd (fun _ => true) extendStart) (.sector 0 []) s →
        (mbrLogical s.calls).length ≤ MAX_EXT_PARTS := by
  constructor
  · intro safe
    have same := visits_congr fun s (visited : Visits (mbrForeachExtended fd mbrSaves extendStart) (.sector 0 []) s) =>
      mbrForeachExtended_few (.inl fun t more => (logicSafe_iff _).mp (safe t (visited.step more)))
    intro s visited
    exact (logicSafe_iff _).mp (safe s ((same s).mpr visited))
  · intro few
    have same := visits_congr fun s (visited : Visits (mbrForeachExtended fd (fun _ => true) extendStart) (.sector 0 []) s) =>
      (mbrForeachExtended_few (.inr fun t more => few t (visited.step more))).symm
    intro s visited
    exact (logicSafe_iff _).mpr (few s ((same s).mpr visited))

end Walk

section Fill

def mbrKept (entries : List (DosPartition × Nat)) : List (DosPartition × Nat) :=
  entries.filter fun part => mbrSkips part.2 part.1 = false

/-- The last entry is written behind the others even if it is skipped. -/
def mbrTail (entries : List (DosPartition × Nat)) : Nat :=
  match entries.getLast? with
  | none => 0
  | some (part, i) => if mbrSkips i part then 1 else 0

theorem mbrTail_cons (part next : DosPartition × Nat) (rest : List (DosPartition × Nat)) :
    mbrTail (part :: next :: rest) = mbrTail (next :: rest) := by rw [mbrTail, mbrTail, List.getLast?_cons_cons]

theorem mbrTail_single (part : DosPartition) (i : Nat) : mbrTail [(part, i)] = if mbrSkips i part then 1 else 0 := rfl

theorem mbrKept_cons (part : DosPartition × Nat) (rest : List (DosPartition × Nat)) :
    mbrKept (part :: rest) = if mbrSkips part.2 part.1 then mbrKept rest else part :: mbrKept rest := by
  rw [mbrKept, List.filter_cons]
  cases mbrSkips part.2 part.1 <;> rfl

theorem mbrKept_or_tail (part : DosPartition × Nat) (rest : List (DosPartition × Nat)) :
    0 < (mbrKept (part :: rest)).length + mbrTail (part :: rest) := by
  induction rest generalizing part with
  | nil =>
    rw [mbrKept_cons]
    show 0 < _ + if mbrSkips part.2 part.1 then 1 else 0
    cases mbrSkips part.2 part.1 <;> simp
  | cons next rest ih =>
    have later := ih next
    rw [mbrTail_cons, mbrKept_cons]
    split
    · exact later
    · rw [List.length_cons]
      omega

/-- The loop stays inside the array exactly if there is room for all that is filled in, and for the name of an entry that
is skipped at the end. -/
theorem mbrFill_isSome (entries : List (DosPartition × Nat)) (diskpIndex : Nat) (parts : List DiskPartition)
    (room : diskpIndex ≤ parts.length) : (mbrFill entries diskpIndex parts).isSome ↔
      diskpIndex + (mbrKept entries).length + mbrTail entries ≤ parts.length := by
  induction entries generalizing diskpIndex parts with
  | nil => simpa [mbrFill, mbrKept, mbrTail] using room
  | cons entry rest ih =>
    obtain ⟨part, i⟩ := entry
    rw [mbrFill]
    by_cases inside : diskpIndex < parts.length
    · rw [if_pos inside]
      dsimp only
      cases skipped : mbrSkips i part with
      | true =>
        rw [if_pos rfl, ih _ _ (by rw [List.length_modify]; exact room), List.length_modify, mbrKept_cons, skipped, if_pos rfl]
        cases rest with
        | nil =>
          rw [mbrTail_single, skipped, if_pos rfl]
          simp [mbrKept, mbrTail]
          omega
        | cons next rest => rw [mbrTail_cons]
      | false =>
        rw [if_neg (by decide), ih _ _ (by rw [List.length_modify, List.length_modify]; exact inside), List.length_modify,
          List.length_modify, mbrKept_cons, skipped, if_neg (by decide), List.length_cons]
        cases rest with
        | nil =>
          rw [mbrTail_single, skipped, if_neg (by decide)]
          simp [mbrKept, mbrTail]
        | cons next rest =>
          rw [mbrTail_cons]
          omega
    · rw [if_neg inside]
      have some_ := mbrKept_or_tail (part, i) rest
      refine iff_of_false (by decide) ?_
      omega

theorem modify_take (parts : List DiskPartition) {i : Nat} (inside : i < parts.length) (f : DiskPartition → DiskPartition) :
    (parts.modify i f).take (i + 1) = parts.take i ++ [f parts[i]] := by
  rw [List.modify_eq_take_cons_drop inside, List.take_append, List.length_take, Nat.min_eq_left (Nat.le_of_lt inside),
    Nat.add_sub_cancel_left, List.take_of_length_le (by rw [List.length_take]; omega)]
  rfl

theorem mbrFill_content {entries : List (DosPartition × Nat)} {diskpIndex : Nat} {parts out : List DiskPartition}
    (filled : mbrFill entries diskpIndex parts = some out) (full : diskpIndex + (mbrKept entries).length = parts.length) :
    out = parts.take diskpIndex ++ (mbrKept entries).map mbrPartition := by
  induction entries generalizing diskpIndex parts with
  | nil =>
    have whole : diskpIndex = parts.length := full
    rw [whole, List.take_length]
    exact (Option.some.inj filled).symm.trans (List.append_nil _).symm
  | cons entry rest ih =>
    obtain ⟨part, i⟩ := entry
    rw [mbrFill] at filled
    split at filled
    · rename_i inside
      dsimp only at filled
      rw [mbrKept_cons] at full ⊢
      cases skipped : mbrSkips i part with
      | true =>
        rw [skipped, if_pos rfl] at filled full
        rw [if_pos rfl, ih filled (by rw [List.length_modify]; exact full), List.take_modify,
          List.modify_eq_self (by rw [List.length_take]; exact Nat.min_le_left _ _)]
      | false =>
        rw [skipped, if_neg (by decide)] at filled full
        rw [List.length_cons] at full
        rw [if_neg (by decide), ih filled (by rw [List.length_modify, List.length_modify]; omega), List.modify_modify_eq,
          modify_take parts inside, List.append_assoc]
        rfl
    · cases filled

theorem mbrCountPrimary_le (primary : List DosPartition) :
    (mbrCountPrimary primary).1 ≤ (primary.filter fun part => part.Plain).length ∧
      ((mbrCountPrimary primary).1 = (primary.filter fun part => part.Plain).length ↔ PlainFirst primary) := by
  induction primary with
  | nil => exact ⟨Nat.le_refl _, iff_of_true rfl trivial⟩
  | cons part rest ih =>
    obtain ⟨most, equal⟩ := ih
    rw [mbrCountPrimary, PlainFirst, List.filter_cons]
    by_cases empty : part.sysInd = 0
    · have other : ¬ part.Plain := fun plain => plain.1 empty
      have single : isExtended part.sysInd = false := by rw [empty]; rfl
      rw [if_pos empty, if_neg (by simpa using other), single]
      exact ⟨most, equal.trans ⟨fun first => ⟨nofun, first⟩, fun first => first.2⟩⟩
    · rw [if_neg empty]
      cases extended : isExtended part.sysInd with
      | true =>
        have other : ¬ part.Plain := fun plain => absurd (extended.symm.trans plain.2) (by decide)
        rw [if_pos rfl, if_neg (by simpa using other)]
        refine ⟨Nat.zero_le _, ?_⟩
        constructor
        · intro none
          have blank := List.filter_eq_nil_iff.mp (List.eq_nil_of_length_eq_zero none.symm)
          have plain : ∀ other ∈ rest, ¬ other.Plain := fun other member => by simpa using blank other member
          refine ⟨fun _ => plain, equal.mp ?_⟩
          rw [List.eq_nil_of_length_eq_zero none.symm] at most ⊢
          exact Nat.le_zero.mp most
        · rintro ⟨plain, _⟩
          rw [List.filter_eq_nil_iff.mpr fun other member => by simpa using plain rfl other member]
          rfl
      | false =>
        have own : part.Plain := ⟨empty, extended⟩
        rw [if_neg (by decide), if_pos (by simpa using own), List.length_cons]
        refine ⟨Nat.succ_le_succ most, ?_⟩
        rw [Nat.add_right_cancel_iff, equal]
        exact ⟨fun first => ⟨nofun, first⟩, fun first => first.2⟩

variable {primary logic : List DosPartition}

theorem mbrSkips_primary {i : Nat} (low : i < 4) (part : DosPartition) : mbrSkips i part = false ↔ part.Plain := by
  have here : decide (i < DOS_PRIMARY_PARTITIONS) = true := decide_eq_true low
  rw [mbrSkips, here, Bool.true_and, Bool.or_eq_false_iff, decide_eq_false_iff_not]
  exact Iff.rfl

theorem mbrSkips_logic {i : Nat} (high : 4 ≤ i) (part : DosPartition) : mbrSkips i part = false := by
  have beyond : decide (i < DOS_PRIMARY_PARTITIONS) = false := decide_eq_false (Nat.not_lt.mpr high)
  rw [mbrSkips, beyond, Bool.false_and]

theorem mbrKept_all (four : primary.length = 4) : mbrKept (primary ++ logic).zipIdx =
    (primary.zipIdx.filter fun part => part.1.Plain) ++ logic.zipIdx primary.length := by
  rw [mbrKept, List.zipIdx_append, List.filter_append, Nat.zero_add]
  congr 1
  · apply List.filter_congr
    intro part member
    have bounds := List.snd_lt_of_mem_zipIdx member
    have same := mbrSkips_primary (by omega) part.1 (i := part.2)
    simp only [same]
  · apply List.filter_eq_self.mpr
    intro part member
    have bounds := List.le_snd_of_mem_zipIdx member
    rw [mbrSkips_logic (by omega)]
    rfl

theorem mbrKept_length (four : primary.length = 4) : (mbrKept (primary ++ logic).zipIdx).length =
    (primary.filter fun part => part.Plain).length + logic.length := by
  rw [mbrKept_all four, List.length_append, List.length_zipIdx, Nat.add_right_cancel_iff]
  have names := congrArg List.length (List.filter_map (f := Prod.fst) (p := fun part : DosPartition => part.Plain)
    (l := primary.zipIdx))
  rw [List.zipIdx_map_fst, List.length_map] at names
  exact names.symm

theorem mbrTail_snoc (front : List DosPartition) (last : DosPartition) :
    mbrTail (front ++ [last]).zipIdx = 0 ↔ mbrSkips front.length last = false := by
  rw [mbrTail, List.zipIdx_append, List.zipIdx_singleton, List.getLast?_concat, Nat.zero_add]
  show (if mbrSkips front.length last then 1 else 0) = 0 ↔ _
  cases mbrSkips front.length last <;> decide

theorem mbrTail_all (four : primary.length = 4) : mbrTail (primary ++ logic).zipIdx = 0 ↔
    logic ≠ [] ∨ ∃ last ∈ primary.getLast?, last.Plain := by
  rcases List.eq_nil_or_concat' logic with rfl | ⟨front, last, rfl⟩
  · rcases List.eq_nil_or_concat' primary with rfl | ⟨front, last, rfl⟩
    · exact absurd four (by decide)
    · rw [List.length_append, List.length_singleton] at four
      rw [List.append_nil, mbrTail_snoc, mbrSkips_primary (by omega), List.getLast?_concat]
      simp
  · rw [← List.append_assoc, mbrTail_snoc]
    exact iff_of_true (mbrSkips_logic (by rw [List.length_append]; omega) last) (.inl (by simp))

end Fill

section Register

variable {primary logic : List DosPartition} {gd : List DiskPartitions}

/-- The table is registered as it is meant if the two loops agree, no name is written behind the last partition, and
there is a place for the table. -/
theorem mbrRegister_iff (four : primary.length = 4) :
    mbrRegister primary logic gd = some (gd ++ [⟨cstr "MBR", DISK_PARTITIONS_SCORE_WEAK, mbrListed primary logic⟩]) ↔
      PlainFirst primary ∧ (logic ≠ [] ∨ ∃ last ∈ primary.getLast?, last.Plain) ∧ gd.length < GD_MAX_PARTITIONS := by
  obtain ⟨most, equal⟩ := mbrCountPrimary_le primary
  have filled := mbrFill_isSome (primary ++ logic).zipIdx 0
    (List.replicate ((mbrCountPrimary primary).1 + logic.length) ⟨[], 0, 0⟩) (Nat.zero_le _)
  rw [List.length_replicate, mbrKept_length four] at filled
  rw [mbrRegister, ← equal, ← mbrTail_all four]
  constructor
  · intro registered
    obtain ⟨parts, out, whole⟩ := Option.map_eq_some_iff.mp registered
    have room := filled.mp (Option.isSome_iff_exists.mpr ⟨parts, out⟩)
    refine ⟨by omega, by omega, ?_⟩
    rw [registerWeakDiskPartitions, registerDiskPartitions] at whole
    split at whole
    · rename_i place
      exact place
    · have longer := congrArg List.length whole
      rw [List.length_append, List.length_singleton] at longer
      omega
  · rintro ⟨same, tail, place⟩
    obtain ⟨parts, out⟩ := Option.isSome_iff_exists.mp (filled.mpr (by omega))
    have content := mbrFill_content out (by rw [List.length_replicate, mbrKept_length four]; omega)
    rw [List.take_zero, List.nil_append, mbrKept_all four] at content
    rw [out, Option.map_some, registerWeakDiskPartitions, registerDiskPartitions, if_pos place, content]
    rfl

end Register

theorem mbrPrimary_length {junk : Nat → Byte} {forceType : Bool} {fd : Fd} {primary : List DosPartition}
    (accepted : mbrPrimary junk forceType fd = some primary) : primary.length = 4 := by
  unfold mbrPrimary at accepted
  dsimp only at accepted
  split at accepted
  · cases accepted
  · split at accepted
    · cases accepted
    · rw [← Option.some.inj accepted, dosPartitions, List.length_map, List.length_range]
      rfl

/-- One entry too many is stored, an entry behind the extended one is not counted, and the name of an entry is written
before the loop decides to skip it. -/
theorem mbrDetect_right_iff (junk : Nat → Byte) (forceType : Bool) (fd : Fd) (gd : List DiskPartitions) :
    MbrDetectRight junk forceType fd gd ↔ MbrDetectFits junk forceType fd gd := by
  constructor
  · intro right
    constructor
    case few =>
      intro primary extended accepted link
      exact (mbrStores_iff fd extended.start).mp (right.stores primary extended accepted link)
    case order =>
      intro primary logic accepted saved
      exact (mbrRegister_iff (mbrPrimary_length accepted)).mp (right.registers primary logic accepted saved)
  · intro fits
    constructor
    case stores =>
      intro primary extended accepted link
      exact (mbrStores_iff fd extended.start).mpr (fits.few primary extended accepted link)
    case registers =>
      intro primary logic accepted saved
      exact (mbrRegister_iff (mbrPrimary_length accepted)).mpr (fits.order primary logic accepted saved)

def singleMbr : List Byte :=
  List.replicate DOS_PART_TBL_OFFSET 0 ++ [0, 0, 0, 0, 0x83, 0, 0, 0, 1, 0, 0, 0, 1, 0, 0, 0] ++ List.replicate 48 0 ++ [0x55, 0xaa]

def singleMbrDisk : Fd := ⟨File.ofBytes singleMbr, 0, 0⟩

theorem mbrDetect_single : ¬ MbrDetectRight (fun _ => 0) false singleMbrDisk [] := by
  intro right
  obtain ⟨primary, accepted, plain, last⟩ : ∃ primary, mbrPrimary (fun _ => 0) false singleMbrDisk = some primary ∧
      (mbrCountPrimary primary).2 = none ∧ ¬ ∃ last ∈ primary.getLast?, last.Plain :=
    ⟨(mbrPrimary (fun _ => 0) false singleMbrDisk).get (by decide +kernel), (Option.some_get _).symm, by decide +kernel,
      by decide +kernel⟩
  have alone : MbrLogic singleMbrDisk primary (some []) := by
    rw [MbrLogic, plain]
  obtain ⟨_, filled, _⟩ := (mbrRegister_iff (mbrPrimary_length accepted)).mp (right.registers primary [] accepted alone)
  rcases filled with logic | filled
  · exact logic rfl
  · exact last filled

end ImgEditor
