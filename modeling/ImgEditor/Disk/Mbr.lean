import ImgEditor.Core.Memory
import ImgEditor.Disk.Gpt
import ImgEditor.Storage.Acyclic
import ImgEditor.Storage.Calls
import ImgEditor.Storage.Walk

namespace ImgEditor

open Storage

def SECTOR_SIZE : Nat := 512
def DOS_PRIMARY_PARTITIONS : Nat := 4

structure DosPartition where
  bootInd : Byte
  head : Byte
  sector : Byte
  cyl : Byte
  sysInd : Byte
  endHead : Byte
  endSector : Byte
  endCyl : Byte
  start : Nat
  size : Nat
deriving DecidableEq

def isExtended (partType : Byte) : Bool := partType = 0x05#8 || partType = 0x0f#8 || partType = 0x85#8

def dosPartition (buf : List Byte) (i : Nat) : DosPartition :=
  let offset := DOS_PART_TBL_OFFSET + 16 * i
  let byte := fun j => buf.getD (offset + j) 0#8
  ⟨byte 0, byte 1, byte 2, byte 3, byte 4, byte 5, byte 6, byte 7, leField buf (offset + 8) 4, leField buf (offset + 12) 4⟩

def dosPartitions (buf : List Byte) : List DosPartition := (List.range DOS_PRIMARY_PARTITIONS).map (dosPartition buf)

structure MbrCall where
  part : DosPartition
  extendStart : Nat
  partStart : Nat
deriving DecidableEq

/-- In front of a sector, or at the end; with the calls so far. -/
inductive MbrState where
  | sector (partStart : Nat) (calls : List MbrCall)
  | done (calls : List MbrCall)
deriving DecidableEq

def ebrAddress (extendStart partStart : Nat) : Nat := (extendStart + partStart) % 2^32 * SECTOR_SIZE % 2^32

def ebrBuffer (fd : Fd) (extendStart partStart : Nat) : Option (List Byte) :=
  fileread (fd.fileseek (ebrAddress extendStart partStart)) SECTOR_SIZE

def EbrRefused (buf : List Byte) : Prop :=
  buf.getD DOS_PART_MAGIC_OFFSET 0#8 ≠ 0x55#8 ∧ buf.getD (DOS_PART_MAGIC_OFFSET + 1) 0#8 ≠ 0xaa#8

instance (buf : List Byte) : Decidable (EbrRefused buf) := inferInstanceAs (Decidable (_ ∧ _))

/-- The loop over the entries of a sector. `cb` tells of the calls so far whether the last one succeeds. -/
def ebrParts (cb : List MbrCall → Bool) (extendStart partStart : Nat) : List DosPartition → List MbrCall → MbrState
  | [], calls => .done calls
  | part :: rest, calls =>
    if part.sysInd = 0#8 then ebrParts cb extendStart partStart rest calls
    else
      let calls := calls ++ [⟨part, extendStart, partStart⟩]
      if ¬ cb calls then .done calls
      else if isExtended part.sysInd then .sector part.start calls
      else ebrParts cb extendStart partStart rest calls

/-- One call of `mbr_foreach_extended`, whose recursion is a tail call. -/
def mbrForeachExtended (fd : Fd) (cb : List MbrCall → Bool) (extendStart : Nat) : MbrState → Option MbrState
  | .done _ => none
  | .sector partStart calls =>
    match ebrBuffer fd extendStart partStart with
    | none => some (.done calls)
    | some buf =>
      if EbrRefused buf then some (.done calls) else some (ebrParts cb extendStart partStart (dosPartitions buf) calls)

/-! ## The chain as it is meant -/

def EbrSigned (buf : List Byte) : Prop :=
  buf.getD DOS_PART_MAGIC_OFFSET 0#8 = 0x55#8 ∧ buf.getD (DOS_PART_MAGIC_OFFSET + 1) 0#8 = 0xaa#8

instance (buf : List Byte) : Decidable (EbrSigned buf) := inferInstanceAs (Decidable (_ ∧ _))

/-- The entries in use, up to and including the first extended link. -/
def ebrUsed (parts : List DosPartition) : List DosPartition :=
  let used := parts.filter fun part => part.sysInd ≠ 0#8
  used.take (used.findIdx (fun part => isExtended part.sysInd) + 1)

def ebrLink (parts : List DosPartition) : Option Nat := (parts.find? fun part => isExtended part.sysInd).map (·.start)

def ebrHandled (cb : List MbrCall → Bool) (extendStart partStart : Nat) (parts : List DosPartition) (calls : List MbrCall) : MbrState :=
  match callAll cb calls ((ebrUsed parts).map fun part => ⟨part, extendStart, partStart⟩), ebrLink parts with
  | (calls, true), some link => .sector link calls
  | (calls, _), _ => .done calls

def ebrSector (fd : Fd) (extendStart partStart : Nat) : Option (List Byte) :=
  fileread (fd.fileseek ((extendStart + partStart) * SECTOR_SIZE)) SECTOR_SIZE

/-- The entries of a sector with the full signature. -/
def ebrListed (fd : Fd) (extendStart partStart : Nat) : Option (List DosPartition) :=
  match ebrSector fd extendStart partStart with
  | none => none
  | some buf => if EbrSigned buf then some (dosPartitions buf) else none

/-- The entries of a sector, and then the sector of its link. -/
def ebrChain (fd : Fd) (cb : List MbrCall → Bool) (extendStart : Nat) : MbrState → Option MbrState
  | .done _ => none
  | .sector partStart calls =>
    match ebrListed fd extendStart partStart with
    | none => some (.done calls)
    | some parts => some (ebrHandled cb extendStart partStart parts calls)

def EbrVisits (fd : Fd) (cb : List MbrCall → Bool) (extendStart : Nat) : MbrState → Prop :=
  Visits (ebrChain fd cb extendStart) (.sector 0 [])

/-- The walk ends, reads each sector at its byte, and makes the calls of the chain. -/
structure MbrRight (fd : Fd) (cb : List MbrCall → Bool) (extendStart : Nat) : Prop where
  ends : Ends (mbrForeachExtended fd cb extendStart) (.sector 0 [])
  address : ∀ partStart calls, Visits (mbrForeachExtended fd cb extendStart) (.sector 0 []) (.sector partStart calls) →
    ebrAddress extendStart partStart = (extendStart + partStart) * SECTOR_SIZE
  chain : ∀ s, Visits (mbrForeachExtended fd cb extendStart) (.sector 0 []) s →
    mbrForeachExtended fd cb extendStart s = ebrChain fd cb extendStart s

section Parts

variable {cb : List MbrCall → Bool} {extendStart partStart : Nat}

theorem isExtended_used {part : DosPartition} (extended : isExtended part.sysInd = true) : part.sysInd ≠ 0#8 := by
  intro zero
  rw [zero] at extended
  exact absurd extended (by decide)

theorem ebrUsed_cons (part : DosPartition) (rest : List DosPartition) :
    ebrUsed (part :: rest) = if part.sysInd = 0#8 then ebrUsed rest
      else if isExtended part.sysInd then [part] else part :: ebrUsed rest := by
  unfold ebrUsed
  by_cases empty : part.sysInd = 0#8
  · simp [empty]
  · cases extended : isExtended part.sysInd with
    | true => simp [empty, extended, List.findIdx_cons]
    | false => simp [empty, extended, List.findIdx_cons]

theorem ebrLink_cons (part : DosPartition) (rest : List DosPartition) :
    ebrLink (part :: rest) = if isExtended part.sysInd then some part.start else ebrLink rest := by
  unfold ebrLink
  cases extended : isExtended part.sysInd with
  | true => simp [extended]
  | false => simp [extended]

/-- The loop calls for the entries in use up to the first link, and goes on with that one. -/
theorem ebrParts_eq (parts : List DosPartition) (calls : List MbrCall) :
    ebrParts cb extendStart partStart parts calls = ebrHandled cb extendStart partStart parts calls := by
  induction parts generalizing calls with
  | nil => rfl
  | cons part rest ih =>
    rw [ebrParts, ebrHandled, ebrUsed_cons, ebrLink_cons]
    by_cases empty : part.sysInd = 0#8
    · have other : isExtended part.sysInd ≠ true := fun extended => isExtended_used extended empty
      rw [if_pos empty, if_pos empty, if_neg other]
      exact ih calls
    · rw [if_neg empty, if_neg empty]
      dsimp only
      cases extended : isExtended part.sysInd with
      | true =>
        cases passed : cb (calls ++ [⟨part, extendStart, partStart⟩]) <;> simp [callAll, passed]
      | false =>
        cases passed : cb (calls ++ [⟨part, extendStart, partStart⟩]) with
        | true =>
          have later := ih (calls ++ [⟨part, extendStart, partStart⟩])
          simpa [callAll, passed, ebrHandled] using later
        | false => simp [callAll, passed]

theorem ebrParts_grows {parts : List DosPartition} {calls made : List MbrCall}
    (done : ebrParts cb extendStart partStart parts calls = .done made) : calls.length ≤ made.length := by
  induction parts generalizing calls with
  | nil =>
    rw [← MbrState.done.inj done]
  | cons part rest ih =>
    rw [ebrParts] at done
    split at done
    · exact ih done
    dsimp only at done
    split at done
    · rw [← MbrState.done.inj done, List.length_append]
      exact Nat.le_add_right _ _
    split at done
    · cases done
    · have later := ih done
      rw [List.length_append] at later
      exact Nat.le_of_add_right_le later

/-- Only a sector without an entry in use is passed over without a trace. -/
theorem ebrParts_done_iff (parts : List DosPartition) (calls : List MbrCall) :
    ebrParts cb extendStart partStart parts calls = .done calls ↔ ∀ part ∈ parts, part.sysInd = 0#8 := by
  induction parts with
  | nil => exact iff_of_true rfl nofun
  | cons part rest ih =>
    rw [ebrParts, List.forall_mem_cons]
    by_cases empty : part.sysInd = 0#8
    · rw [if_pos empty, ih]
      exact ⟨fun others => ⟨empty, others⟩, fun all => all.2⟩
    · rw [if_neg empty]
      refine iff_of_false ?_ fun all => empty all.1
      intro done
      dsimp only at done
      split at done
      · have same := congrArg List.length (MbrState.done.inj done)
        rw [List.length_append] at same
        exact absurd same (Nat.succ_ne_self _)
      split at done
      · cases done
      · have grows := ebrParts_grows done
        rw [List.length_append] at grows
        exact absurd grows (Nat.not_succ_le_self _)

end Parts

/-! ## When the walk is right -/

def EbrLink (fd : Fd) (extendStart partStart link : Nat) : Prop :=
  ∃ parts, ebrListed fd extendStart partStart = some parts ∧ ebrLink parts = some link

def ebrCalls (extendStart partStart : Nat) (parts : List DosPartition) : List MbrCall :=
  (ebrUsed parts).map fun part => ⟨part, extendStart, partStart⟩

def CallbackFails (fd : Fd) (cb : List MbrCall → Bool) (extendStart : Nat) : Prop :=
  ∃ partStart calls parts, EbrVisits fd cb extendStart (.sector partStart calls) ∧
    ebrListed fd extendStart partStart = some parts ∧ (callAll cb calls (ebrCalls extendStart partStart parts)).2 = false

/-- The byte of the sector fits into 32 bits, and with one right byte of the signature only, no entry is in use. -/
structure EbrFits (fd : Fd) (extendStart partStart : Nat) : Prop where
  near : (extendStart + partStart) * SECTOR_SIZE < 2^32
  signature : ∀ buf, ebrSector fd extendStart partStart = some buf → ¬ EbrRefused buf → ¬ EbrSigned buf →
    ∀ part ∈ dosPartitions buf, part.sysInd = 0#8

structure MbrFits (fd : Fd) (cb : List MbrCall → Bool) (extendStart : Nat) : Prop where
  sectors : ∀ partStart calls, EbrVisits fd cb extendStart (.sector partStart calls) → EbrFits fd extendStart partStart
  links : ¬ Loops (EbrLink fd extendStart) 0 ∨ CallbackFails fd cb extendStart

section Sectors

variable {fd : Fd} {cb : List MbrCall → Bool} {extendStart partStart : Nat}

theorem ebrAddress_eq_iff (extendStart partStart : Nat) :
    ebrAddress extendStart partStart = (extendStart + partStart) * SECTOR_SIZE ↔
      (extendStart + partStart) * SECTOR_SIZE < 2^32 := by
  unfold ebrAddress SECTOR_SIZE
  omega

theorem not_refused_of_signed {buf : List Byte} (signed : EbrSigned buf) : ¬ EbrRefused buf :=
  fun refused => refused.1 signed.1

/-- A sector that can be addressed is handled as on the chain unless half a signature stands for a whole one. -/
theorem mbrForeachExtended_chain_iff (near : (extendStart + partStart) * SECTOR_SIZE < 2^32) (calls : List MbrCall) :
    mbrForeachExtended fd cb extendStart (.sector partStart calls) = ebrChain fd cb extendStart (.sector partStart calls) ↔
      EbrFits fd extendStart partStart := by
  have buffer : ebrBuffer fd extendStart partStart = ebrSector fd extendStart partStart := by
    rw [ebrBuffer, (ebrAddress_eq_iff extendStart partStart).mpr near, ebrSector]
  rw [mbrForeachExtended, ebrChain, ebrListed, buffer]
  cases read : ebrSector fd extendStart partStart with
  | none => exact iff_of_true rfl ⟨near, fun _ some => nomatch read.symm.trans some⟩
  | some buf =>
    dsimp only
    by_cases signed : EbrSigned buf
    · rw [if_neg (not_refused_of_signed signed), if_pos signed, ebrParts_eq]
      refine iff_of_true rfl ⟨near, fun other same _ unsigned => ?_⟩
      rw [← Option.some.inj (read.symm.trans same)] at unsigned
      exact absurd signed unsigned
    rw [if_neg signed]
    dsimp only
    by_cases refused : EbrRefused buf
    · rw [if_pos refused]
      refine iff_of_true rfl ⟨near, fun other same accepted _ => ?_⟩
      rw [← Option.some.inj (read.symm.trans same)] at accepted
      exact absurd refused accepted
    rw [if_neg refused, Option.some_inj, ebrParts_done_iff]
    constructor
    · intro unused
      refine ⟨near, fun other same _ _ => ?_⟩
      rw [← Option.some.inj (read.symm.trans same)]
      exact unused
    · intro fits
      exact fits.signature buf read refused signed

theorem ebrChain_listed {parts : List DosPartition} (calls : List MbrCall)
    (listed : ebrListed fd extendStart partStart = some parts) :
    ebrChain fd cb extendStart (.sector partStart calls) = some (ebrHandled cb extendStart partStart parts calls) := by
  rw [ebrChain, listed]

theorem ebrChain_unlisted (calls : List MbrCall) (unlisted : ebrListed fd extendStart partStart = none) :
    ebrChain fd cb extendStart (.sector partStart calls) = some (.done calls) := by
  rw [ebrChain, unlisted]

/-- The chain ends with a sector or goes on along its link. -/
theorem ebrChain_cases (fd : Fd) (cb : List MbrCall → Bool) (extendStart partStart : Nat) (calls : List MbrCall) :
    (∃ made, ebrChain fd cb extendStart (.sector partStart calls) = some (.done made)) ∨
      ∃ link made, EbrLink fd extendStart partStart link ∧
        ebrChain fd cb extendStart (.sector partStart calls) = some (.sector link made) := by
  cases listed : ebrListed fd extendStart partStart with
  | none => exact .inl ⟨calls, ebrChain_unlisted calls listed⟩
  | some parts =>
    rw [ebrChain_listed calls listed]
    unfold ebrHandled
    split
    · rename_i made link _ linked
      exact .inr ⟨link, made, ⟨parts, listed, linked⟩, rfl⟩
    · exact .inl ⟨_, rfl⟩

theorem EbrLink.unique {link other : Nat} (first : EbrLink fd extendStart partStart link)
    (second : EbrLink fd extendStart partStart other) : link = other := by
  rcases first with ⟨parts, listed, linked⟩
  rcases second with ⟨others, again, elsewhere⟩
  rw [← Option.some.inj (listed.symm.trans again), linked] at elsewhere
  exact Option.some.inj elsewhere

theorem EbrLink.lt {link : Nat} (linked : EbrLink fd extendStart partStart link) : link < 2^32 := by
  rcases linked with ⟨parts, listed, found⟩
  unfold ebrListed at listed
  split at listed
  · cases listed
  split at listed
  · rw [← Option.some.inj listed] at found
    rcases Option.map_eq_some_iff.mp found with ⟨part, first, start⟩
    rcases List.mem_map.mp (List.mem_of_find?_eq_some first) with ⟨i, _, entry⟩
    rw [← start, ← entry]
    exact leField_lt _ _ 4
  · cases listed

end Sectors

section Ends

variable {fd : Fd} {cb : List MbrCall → Bool} {extendStart : Nat}

/-- A state of the chain that can still come back to where it was. -/
def EbrLooping (fd : Fd) (cb : List MbrCall → Bool) (extendStart : Nat) : MbrState → Prop
  | .done _ => False
  | .sector partStart calls =>
    EbrVisits fd cb extendStart (.sector partStart calls) ∧ Loops (EbrLink fd extendStart) partStart

/-- The one way on from a node that leads into a loop does so too. -/
theorem ebrLoops_link {partStart : Nat} (loops : Loops (EbrLink fd extendStart) partStart) :
    ∃ link, EbrLink fd extendStart partStart link ∧ Loops (EbrLink fd extendStart) link := by
  rcases loops with ⟨c, reached, back⟩
  rcases Relation.ReflTransGen.cases_head reached with rfl | ⟨link, linked, rest⟩
  · rcases Relation.TransGen.head'_iff.mp back with ⟨link, linked, rest⟩
    exact ⟨link, linked, partStart, rest, back⟩
  · exact ⟨link, linked, c, rest, back⟩

theorem ebrChain_looping (succeeds : ¬ CallbackFails fd cb extendStart) (s : MbrState)
    (looping : EbrLooping fd cb extendStart s) :
    ∃ t, ebrChain fd cb extendStart s = some t ∧ EbrLooping fd cb extendStart t := by
  cases s with
  | done => exact looping.elim
  | sector partStart calls =>
    rcases looping with ⟨visited, loops⟩
    rcases ebrLoops_link loops with ⟨link, ⟨parts, listed, linked⟩, later⟩
    have passed : (callAll cb calls (ebrCalls extendStart partStart parts)).2 = true := by
      by_contra failed
      exact succeeds ⟨partStart, calls, parts, visited, listed, Bool.eq_false_iff.mpr failed⟩
    have handled : ebrHandled cb extendStart partStart parts calls =
        .sector link (callAll cb calls (ebrCalls extendStart partStart parts)).1 := by
      unfold ebrHandled
      rw [← ebrCalls, linked, ← Prod.eta (callAll cb calls (ebrCalls extendStart partStart parts)), passed]
    have more : ebrChain fd cb extendStart (.sector partStart calls) = _ := ebrChain_listed calls listed
    rw [handled] at more
    exact ⟨_, more, visited.step more, later⟩

theorem ebrChain_ends_of_acc {partStart : Nat} (acc : Acc (fun link partStart => EbrLink fd extendStart partStart link) partStart)
    (calls : List MbrCall) : Ends (ebrChain fd cb extendStart) (.sector partStart calls) := by
  induction acc generalizing calls with
  | intro partStart _ ih =>
    rcases ebrChain_cases fd cb extendStart partStart calls with ⟨made, more⟩ | ⟨link, made, linked, more⟩
    · exact (Visits.of_next more).ends_iff.mpr (ends_of_none rfl)
    · exact (Visits.of_next more).ends_iff.mpr (ih link linked made)

theorem ebrChain_ends_of_fails (fails : CallbackFails fd cb extendStart) :
    Ends (ebrChain fd cb extendStart) (.sector 0 []) := by
  rcases fails with ⟨partStart, calls, parts, visited, listed, failed⟩
  apply visited.ends_iff.mpr
  have more : ebrChain fd cb extendStart (.sector partStart calls) = _ := ebrChain_listed calls listed
  unfold ebrHandled at more
  rw [← ebrCalls, ← Prod.eta (callAll cb calls (ebrCalls extendStart partStart parts)), failed] at more
  exact (Visits.of_next more).ends_iff.mpr (ends_of_none rfl)

/-- The chain ends exactly if its links do not loop or a callback stops it. -/
theorem ebrChain_ends_iff (fd : Fd) (cb : List MbrCall → Bool) (extendStart : Nat) :
    Ends (ebrChain fd cb extendStart) (.sector 0 []) ↔
      ¬ Loops (EbrLink fd extendStart) 0 ∨ CallbackFails fd cb extendStart := by
  constructor
  · intro ends
    by_contra neither
    rcases not_or.mp neither with ⟨looping, succeeds⟩
    have first : EbrLooping fd cb extendStart (.sector 0 []) := ⟨.start, not_not.mp looping⟩
    exact not_ends first (ebrChain_looping succeeds) ends
  · rintro (straight | fails)
    · exact ebrChain_ends_of_acc ((acc_iff_acyclic_of_lt (fun _ _ linked => EbrLink.lt linked) 0).mpr straight) []
    · exact ebrChain_ends_of_fails fails

end Ends

/-- The walk is right exactly if every sector of the chain fits and the chain ends. -/
theorem mbrForeachExtended_right_iff (fd : Fd) (cb : List MbrCall → Bool) (extendStart : Nat) :
    MbrRight fd cb extendStart ↔ MbrFits fd cb extendStart := by
  constructor
  · intro right
    have same := visits_congr right.chain
    refine ⟨fun partStart calls visited => ?_, ?_⟩
    · have walked := (same (.sector partStart calls)).mpr visited
      have near := (ebrAddress_eq_iff extendStart partStart).mp (right.address partStart calls walked)
      exact (mbrForeachExtended_chain_iff near calls).mp (right.chain _ walked)
    · exact (ebrChain_ends_iff fd cb extendStart).mp ((ends_congr right.chain).mp right.ends)
  · intro fits
    have agrees : ∀ s, EbrVisits fd cb extendStart s →
        ebrChain fd cb extendStart s = mbrForeachExtended fd cb extendStart s := by
      intro s visited
      cases s with
      | done => rfl
      | sector partStart calls =>
        have fitting := fits.sectors partStart calls visited
        exact ((mbrForeachExtended_chain_iff fitting.near calls).mpr fitting).symm
    have same := visits_congr agrees
    refine ⟨?_, fun partStart calls walked => ?_, fun s walked => ?_⟩
    · exact (ends_congr agrees).mp ((ebrChain_ends_iff fd cb extendStart).mpr fits.links)
    · have fitting := fits.sectors partStart calls ((same _).mpr walked)
      exact (ebrAddress_eq_iff extendStart partStart).mpr fitting.near
    · exact (agrees s ((same s).mpr walked)).symm

/-- A boot record whose extended partition starts at sector 2^23, which is byte 2^32. -/
def farMbr : List Byte :=
  List.replicate 446 0#8 ++ [0#8, 0#8, 0#8, 0#8, 0x05#8, 0#8, 0#8, 0#8, 0#8, 0#8, 0x80#8, 0#8, 1#8, 0#8, 0#8, 0#8] ++
    List.replicate 48 0#8 ++ [0x55#8, 0xaa#8]

/-- The byte wraps to zero, so the boot record itself is taken for the first sector of the chain. -/
theorem mbrForeachExtended_far : (dosPartition farMbr 0).start = 2^23 ∧
    ¬ MbrRight ⟨File.ofBytes farMbr, 0, 512⟩ (fun _ => true) (2^23) := by
  refine ⟨by decide +kernel, fun right => ?_⟩
  have near := (ebrAddress_eq_iff _ _).mp (right.address 0 [] .start)
  exact absurd near (by decide)

end ImgEditor
