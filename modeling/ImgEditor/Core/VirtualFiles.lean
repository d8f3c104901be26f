import ImgEditor.Storage.Bytes
import Mathlib.Data.Fintype.Basic

namespace ImgEditor

def MAX_VIRTUAL_FILE : Nat := 32

/-- An element of `vfps`. -/
structure VirtualSlot where
  fd : Int
  startOffset : Int
  totalLength : Int
  used : Bool

/-- The descriptors of the process, each with its file, and the lengths of the files. -/
structure Kernel where
  files : List (Option Nat)
  length : Nat → Nat

namespace Kernel

def file (k : Kernel) (fd : Int) : Option Nat := if 0 ≤ fd then k.files.getD fd.toNat none else none

def unused (k : Kernel) : Nat := k.files.findIdx Option.isNone

def add (k : Kernel) (file : Nat) : Kernel :=
  { k with files := if k.unused < k.files.length then k.files.set k.unused (some file) else k.files ++ [some file] }

def truncate (k : Kernel) (file : Nat) : Kernel := { k with length := Function.update k.length file 0 }

/-- open(2), which can fail for many reasons. -/
def openFile (k : Kernel) (file : Nat) (truncates opens : Bool) : Option (Int × Kernel) :=
  let k := if truncates then k.truncate file else k
  if opens then some (k.unused, k.add file) else none

/-- dup(2), which can fail for a descriptor that is open too. -/
def dup (k : Kernel) (fd : Int) (dups : Bool) : Option (Int × Kernel) :=
  match k.file fd with
  | none => none
  | some file => if dups then some (k.unused, k.add file) else none

def close (k : Kernel) (fd : Int) : Kernel := { k with files := k.files.set fd.toNat none }

/-- lseek(2) to the end. -/
def seekEnd (k : Kernel) (fd : Int) : Int :=
  match k.file fd with
  | none => -1
  | some file => k.length file

end Kernel

structure VirtualFiles where
  vfps : Fin MAX_VIRTUAL_FILE → VirtualSlot
  kernel : Kernel

/-- A sum of `off64_t` values; behind the range the program has no meaning. -/
def off64 (n : Int) : Option Int := if -2 ^ 63 ≤ n ∧ n < 2 ^ 63 then some n else none

namespace VirtualFiles

variable (s : VirtualFiles)

def virtualFileGet (fd : Int) : Option (Fin MAX_VIRTUAL_FILE) :=
  (List.finRange MAX_VIRTUAL_FILE).find? fun i => (s.vfps i).used ∧ (s.vfps i).fd = fd

def filelength (fd : Int) : Int :=
  match s.virtualFileGet fd with
  | some i => (s.vfps i).totalLength
  | none => s.kernel.seekEnd fd

def filestart (fd : Int) : Int :=
  match s.virtualFileGet fd with
  | some i => (s.vfps i).startOffset
  | none => 0

def setSlot (i : Fin MAX_VIRTUAL_FILE) (slot : VirtualSlot) : VirtualFiles :=
  { s with vfps := Function.update s.vfps i slot }

def virtualFileGetUnused : Option (Fin MAX_VIRTUAL_FILE × VirtualFiles) :=
  ((List.finRange MAX_VIRTUAL_FILE).find? fun i => ¬ (s.vfps i).used).map fun i =>
    (i, s.setSlot i { s.vfps i with used := true })

/-- `virtual_file_dup`: the result and what is left. Without an unused slot it writes through a null pointer, which is
`none`. -/
def virtualFileDup (refFd offset : Int) (dups : Bool) : Option (Int × VirtualFiles) := do
  let (i, s) ← s.virtualFileGetUnused
  match s.kernel.dup refFd dups with
  | none => some (-1, s.setSlot i { s.vfps i with fd := -1, used := false })
  | some (fd, kernel) =>
    let s := { s.setSlot i { s.vfps i with fd := fd } with kernel := kernel }
    let startOffset ← off64 (offset + s.filestart refFd)
    let totalLength ← off64 (s.kernel.seekEnd refFd - startOffset)
    some (fd, s.setSlot i { s.vfps i with startOffset := startOffset, totalLength := totalLength })

def virtualFileOpen (file : Nat) (truncates opens : Bool) (offset : Int) : Option (Int × VirtualFiles) :=
  match s.kernel.openFile file truncates opens with
  | none => some (-1, s)
  | some (fd, kernel) =>
    match { s with kernel := kernel }.virtualFileGetUnused with
    | none => some (-1, { s with kernel := kernel.close fd })
    | some (i, s) => do
      let totalLength ← off64 (s.kernel.seekEnd fd - offset)
      some (fd, s.setSlot i { s.vfps i with fd := fd, startOffset := offset, totalLength := totalLength })

def virtualFileClose (fd : Int) : Int × VirtualFiles :=
  match s.virtualFileGet fd with
  | none => (-1, s)
  | some i => (0, { s.setSlot i ⟨-1, 0, 0, false⟩ with kernel := s.kernel.close (s.vfps i).fd })

end VirtualFiles

/-- A call, with what its arguments and the state of the system make of open(2) and dup(2). -/
inductive VirtualCall where
  | openFile (file : Nat) (truncates opens : Bool) (offset : Int)
  | dup (refFd offset : Int) (dups : Bool)
  | close (fd : Int)

def VirtualFiles.call (s : VirtualFiles) : VirtualCall → Option (Int × VirtualFiles)
  | .openFile file truncates opens offset => s.virtualFileOpen file truncates opens offset
  | .dup refFd offset dups => s.virtualFileDup refFd offset dups
  | .close fd => some (s.virtualFileClose fd)

/-- The open virtual descriptors, each with the offsets along the calls that made it. -/
abbrev Chains := Int → Option (List Int)

def VirtualCall.chains (call : VirtualCall) (ret : Int) (chains : Chains) : Chains :=
  if ret < 0 then chains
  else
    match call with
    | .openFile _ _ _ offset => Function.update chains ret (some [offset])
    | .dup refFd offset _ => Function.update chains ret (some (offset :: (chains refFd).getD []))
    | .close fd => Function.update chains fd none

namespace VirtualFiles

/-- What the slots in use hold. -/
def view (s : VirtualFiles) (i : Fin MAX_VIRTUAL_FILE) : Option (Int × Int × Int) :=
  if (s.vfps i).used then some ((s.vfps i).fd, (s.vfps i).startOffset, (s.vfps i).totalLength) else none

structure TableRight (s : VirtualFiles) (chains : Chains) : Prop where
  used : ∀ i, (s.vfps i).used = true → ∃ offsets, chains (s.vfps i).fd = some offsets
  slot : ∀ fd offsets, chains fd = some offsets → ∃! i, (s.vfps i).used = true ∧ (s.vfps i).fd = fd
  start : ∀ fd offsets, chains fd = some offsets → s.filestart fd = offsets.sum
  length : ∀ fd offsets, chains fd = some offsets →
    ∃ file, s.kernel.file fd = some file ∧ s.filelength fd = s.kernel.length file - s.filestart fd

/-- The calls one after the other: what is right of the table before each of them and at the end, and of each call. -/
def RunRight (s : VirtualFiles) (chains : Chains) : List VirtualCall → Prop
  | [] => s.TableRight chains
  | call :: rest => s.TableRight chains ∧ ∃ ret s', s.call call = some (ret, s') ∧ (0 ≤ ret ∨ s'.view = s.view) ∧
    s'.RunRight (call.chains ret chains) rest

/-- There is a slot for a dup, the sums have 64 bits, and no open takes bytes from a file that is open already. -/
def Fits (s : VirtualFiles) : VirtualCall → Prop
  | .openFile file truncates opens offset => opens = true →
    (truncates = true → ∀ i, (s.vfps i).used = true → s.kernel.file (s.vfps i).fd = some file → s.kernel.length file = 0) ∧
      ((∃ i, (s.vfps i).used = false) → off64 ((if truncates then 0 else s.kernel.length file) - offset) ≠ none)
  | .dup refFd offset dups => (∃ i, (s.vfps i).used = false) ∧
    ∀ file, s.kernel.file refFd = some file → dups = true → off64 (offset + s.filestart refFd) ≠ none ∧
      off64 (s.kernel.length file - (offset + s.filestart refFd)) ≠ none
  | .close _ => True

def RunFits (s : VirtualFiles) : List VirtualCall → Prop
  | [] => True
  | call :: rest => s.Fits call ∧ ∀ ret s', s.call call = some (ret, s') → s'.RunFits rest

end VirtualFiles

namespace Kernel

variable {k : Kernel}

theorem file_ofNat (k : Kernel) (n : Nat) : k.file n = k.files.getD n none := by
  rw [file, if_pos (Int.natCast_nonneg n), Int.toNat_natCast]

theorem file_unused (k : Kernel) : k.file k.unused = none := by
  rw [file_ofNat]
  by_cases inside : k.unused < k.files.length
  · have free := List.findIdx_getElem (w := inside)
    rw [List.getD_eq_getElem _ _ inside]
    exact Option.isNone_iff_eq_none.mp free
  · exact List.getD_eq_default _ _ (by omega)

theorem file_negative {fd : Int} (negative : ¬ 0 ≤ fd) : k.file fd = none := if_neg negative

theorem file_add (k : Kernel) (file : Nat) (fd : Int) :
    (k.add file).file fd = if fd = k.unused then some file else k.file fd := by
  have bound : k.unused ≤ k.files.length := List.findIdx_le_length
  by_cases positive : 0 ≤ fd
  · obtain ⟨n, rfl⟩ := Int.eq_ofNat_of_zero_le positive
    rw [file_ofNat, file_ofNat, List.getD_eq_getElem?_getD, List.getD_eq_getElem?_getD, add]
    simp only [Int.natCast_inj]
    by_cases inside : k.unused < k.files.length
    · rw [if_pos inside, List.getElem?_set]
      by_cases same : k.unused = n
      · rw [if_pos same, if_pos (same ▸ inside), if_pos same.symm, Option.getD_some]
      · rw [if_neg same, if_neg (Ne.symm same)]
    · rw [if_neg inside, List.getElem?_append]
      by_cases below : n < k.files.length
      · rw [if_pos below, if_neg (by omega)]
      · rw [if_neg below]
        by_cases same : n = k.unused
        · rw [if_pos same, show n - k.files.length = 0 by omega]
          rfl
        · rw [if_neg same, List.getElem?_eq_none (by simp; omega), List.getElem?_eq_none (by omega)]
  · rw [file_negative positive, file_negative positive, if_neg (by omega)]

theorem file_close (k : Kernel) {fd : Int} (positive : 0 ≤ fd) (other : Int) :
    (k.close fd).file other = if other = fd then none else k.file other := by
  obtain ⟨n, rfl⟩ := Int.eq_ofNat_of_zero_le positive
  by_cases positive' : 0 ≤ other
  · obtain ⟨m, rfl⟩ := Int.eq_ofNat_of_zero_le positive'
    rw [file_ofNat, file_ofNat, List.getD_eq_getElem?_getD, List.getD_eq_getElem?_getD, close, Int.toNat_natCast,
      List.getElem?_set]
    simp only [Int.natCast_inj]
    by_cases same : n = m
    · rw [if_pos same, if_pos same.symm]
      split <;> rfl
    · rw [if_neg same, if_neg (Ne.symm same)]
  · rw [file_negative positive', file_negative positive', ite_self]

theorem file_some {fd : Int} {file : Nat} (opened : k.file fd = some file) : 0 ≤ fd := by
  by_contra negative
  rw [file_negative negative] at opened
  cases opened

end Kernel

namespace VirtualFiles

variable {s s' : VirtualFiles} {chains : Chains} {i : Fin MAX_VIRTUAL_FILE} {fd : Int}

@[simp] theorem setSlot_self (slot : VirtualSlot) : (s.setSlot i slot).vfps i = slot := Function.update_self _ _ _

theorem setSlot_other {j : Fin MAX_VIRTUAL_FILE} (other : j ≠ i) (slot : VirtualSlot) :
    (s.setSlot i slot).vfps j = s.vfps j := Function.update_of_ne other _ _

/-- `TableRight` by the slots themselves. -/
structure Holds (s : VirtualFiles) (chains : Chains) : Prop where
  unique : ∀ i j, (s.vfps i).used = true → (s.vfps j).used = true → (s.vfps i).fd = (s.vfps j).fd → i = j
  used : ∀ i, (s.vfps i).used = true → ∃ offsets, chains (s.vfps i).fd = some offsets
  opened : ∀ fd offsets, chains fd = some offsets → ∃ i file, (s.vfps i).used = true ∧ (s.vfps i).fd = fd ∧
    s.kernel.file fd = some file ∧ (s.vfps i).startOffset = offsets.sum ∧
    (s.vfps i).totalLength = s.kernel.length file - offsets.sum

theorem virtualFileGet_some (found : s.virtualFileGet fd = some i) : (s.vfps i).used = true ∧ (s.vfps i).fd = fd := by
  simpa using List.find?_some found

theorem virtualFileGet_none (missing : s.virtualFileGet fd = none) (i : Fin MAX_VIRTUAL_FILE) :
    ¬ ((s.vfps i).used = true ∧ (s.vfps i).fd = fd) := by
  have none := List.find?_eq_none.mp missing i (List.mem_finRange i)
  simpa using none

theorem virtualFileGet_slot (unique : ∀ j, (s.vfps j).used = true → (s.vfps j).fd = fd → j = i)
    (used : (s.vfps i).used = true) (same : (s.vfps i).fd = fd) : s.virtualFileGet fd = some i := by
  cases found : s.virtualFileGet fd with
  | none => exact absurd ⟨used, same⟩ (virtualFileGet_none found i)
  | some j =>
    have ⟨used, same⟩ := virtualFileGet_some found
    rw [unique j used same]

theorem Holds.get (held : s.Holds chains) (used : (s.vfps i).used = true) :
    s.virtualFileGet (s.vfps i).fd = some i :=
  virtualFileGet_slot (fun j other same => held.unique j i other used same) used rfl

theorem tableRight_iff : s.TableRight chains ↔ s.Holds chains := by
  constructor
  · intro right
    refine ⟨fun i j used other same => ?_, right.used, fun fd offsets opened => ?_⟩
    · obtain ⟨offsets, opened⟩ := right.used j other
      exact (right.slot _ offsets opened).unique ⟨used, same⟩ ⟨other, rfl⟩
    · obtain ⟨i, ⟨used, same⟩, unique⟩ := right.slot fd offsets opened
      obtain ⟨file, held, length⟩ := right.length fd offsets opened
      have start := right.start fd offsets opened
      have get := virtualFileGet_slot (fun j used same => unique j ⟨used, same⟩) used same
      rw [start] at length
      rw [filestart, get] at start
      rw [filelength, get] at length
      exact ⟨i, file, used, same, held, start, length⟩
  · intro held
    have get {fd : Int} {offsets : List Int} (opened : chains fd = some offsets) :
        ∃ i file, (s.vfps i).used = true ∧ (s.vfps i).fd = fd ∧ s.kernel.file fd = some file ∧
          s.filestart fd = offsets.sum ∧ s.filelength fd = s.kernel.length file - offsets.sum := by
      obtain ⟨i, file, used, rfl, kernel, start, length⟩ := held.opened fd offsets opened
      refine ⟨i, file, used, rfl, kernel, ?_, ?_⟩
      · rw [filestart, held.get used]
        exact start
      · rw [filelength, held.get used]
        exact length
    refine ⟨held.used, fun fd offsets opened => ?_, fun fd offsets opened => ?_, fun fd offsets opened => ?_⟩
    · obtain ⟨i, _, used, same, _⟩ := get opened
      exact ⟨i, ⟨used, same⟩, fun j other => held.unique j i other.1 used (other.2.trans same.symm)⟩
    · obtain ⟨i, _, _, _, _, start, _⟩ := get opened
      exact start
    · obtain ⟨i, file, _, _, kernel, start, length⟩ := get opened
      exact ⟨file, kernel, by rw [start, length]⟩

theorem virtualFileGetUnused_none (full : ∀ i, (s.vfps i).used = true) : s.virtualFileGetUnused = none := by
  rw [virtualFileGetUnused, Option.map_eq_none_iff, List.find?_eq_none]
  intro i _
  simp [full i]

theorem virtualFileGetUnused_some (free : ∃ i, (s.vfps i).used = false) : ∃ i, (s.vfps i).used = false ∧
    s.virtualFileGetUnused = some (i, s.setSlot i { s.vfps i with used := true }) := by
  rw [virtualFileGetUnused]
  cases found : (List.finRange MAX_VIRTUAL_FILE).find? fun i => ¬ (s.vfps i).used with
  | none =>
    obtain ⟨i, unused⟩ := free
    have used := List.find?_eq_none.mp found i (List.mem_finRange i)
    simp [unused] at used
  | some i => exact ⟨i, by simpa using List.find?_some found, rfl⟩

theorem Holds.closed (held : s.Holds chains) (fresh : s.kernel.file fd = none) : chains fd = none := by
  cases opened : chains fd with
  | none => rfl
  | some offsets =>
    obtain ⟨_, _, _, _, kernel, _⟩ := held.opened fd offsets opened
    cases fresh.symm.trans kernel

theorem Holds.apart (held : s.Holds chains) (fresh : s.kernel.file fd = none) (used : (s.vfps i).used = true) :
    (s.vfps i).fd ≠ fd := by
  intro same
  obtain ⟨offsets, opened⟩ := held.used i used
  rw [same, held.closed fresh] at opened
  cases opened

/-- A new descriptor in a slot that was not used. -/
theorem Holds.add {offsets : List Int} {file : Nat} (held : s.Holds chains) (free : (s.vfps i).used = false)
    (fresh : s.kernel.file fd = none)
    (slots : s'.vfps = Function.update s.vfps i ⟨fd, offsets.sum, s'.kernel.length file - offsets.sum, true⟩)
    (files : ∀ other, s'.kernel.file other = if other = fd then some file else s.kernel.file other)
    (lengths : ∀ j, (s.vfps j).used = true → ∀ f, s.kernel.file (s.vfps j).fd = some f →
      s'.kernel.length f = s.kernel.length f) : s'.Holds (Function.update chains fd (some offsets)) := by
  have here : s'.vfps i = ⟨fd, offsets.sum, s'.kernel.length file - offsets.sum, true⟩ := by
    rw [slots, Function.update_self]
  have there {j : Fin MAX_VIRTUAL_FILE} (other : j ≠ i) : s'.vfps j = s.vfps j := by
    rw [slots, Function.update_of_ne other]
  refine ⟨fun j k used used' same => ?_, fun j used => ?_, fun other offsets' opened => ?_⟩
  · by_cases first : j = i
    · by_cases second : k = i
      · rw [first, second]
      · rw [there second] at used' same
        rw [first, here] at same
        exact absurd same.symm (held.apart fresh used')
    · rw [there first] at used same
      by_cases second : k = i
      · rw [second, here] at same
        exact absurd same (held.apart fresh used)
      · rw [there second] at used' same
        exact held.unique j k used used' same
  · by_cases first : j = i
    · rw [first, here, Function.update_self]
      exact ⟨offsets, rfl⟩
    · rw [there first] at used ⊢
      rw [Function.update_of_ne (held.apart fresh used)]
      exact held.used j used
  · by_cases new : other = fd
    · subst new
      rw [Function.update_self] at opened
      obtain rfl := Option.some.inj opened
      exact ⟨i, file, by rw [here], by rw [here], by rw [files, if_pos rfl], by rw [here], by rw [here]⟩
    · rw [Function.update_of_ne new] at opened
      obtain ⟨j, f, used, rfl, kernel, start, length⟩ := held.opened other offsets' opened
      have different : j ≠ i := by
        rintro rfl
        rw [free] at used
        cases used
      rw [← there different] at used start length new
      refine ⟨j, f, used, by rw [there different], ?_, start, ?_⟩
      · rw [files, if_neg (by rwa [there different] at new)]
        exact kernel
      · rw [lengths j (by rwa [there different] at used) f kernel]
        exact length

/-- The same slots in use, and the same files of their descriptors. -/
theorem Holds.keep (held : s.Holds chains) (used : ∀ j, (s'.vfps j).used = (s.vfps j).used)
    (slots : ∀ j, (s.vfps j).used = true → s'.vfps j = s.vfps j)
    (files : ∀ j, (s.vfps j).used = true → s'.kernel.file (s.vfps j).fd = s.kernel.file (s.vfps j).fd)
    (lengths : ∀ j, (s.vfps j).used = true → ∀ f, s.kernel.file (s.vfps j).fd = some f →
      s'.kernel.length f = s.kernel.length f) : s'.Holds chains := by
  refine ⟨fun j k one two same => ?_, fun j one => ?_, fun fd offsets opened => ?_⟩
  · rw [used] at one two
    rw [slots j one, slots k two] at same
    exact held.unique j k one two same
  · rw [used] at one
    rw [slots j one]
    exact held.used j one
  · obtain ⟨j, f, one, rfl, kernel, start, length⟩ := held.opened fd offsets opened
    rw [← slots j one] at start length
    refine ⟨j, f, by rw [used, one], by rw [slots j one], (files j one).trans kernel, start, ?_⟩
    rw [lengths j one f kernel]
    exact length

theorem Holds.remove (held : s.Holds chains) (inUse : (s.vfps i).used = true)
    (slots : s'.vfps = Function.update s.vfps i ⟨-1, 0, 0, false⟩) (kernel : s'.kernel = s.kernel.close (s.vfps i).fd) :
    s'.Holds (Function.update chains (s.vfps i).fd none) := by
  have there {j : Fin MAX_VIRTUAL_FILE} (used : (s'.vfps j).used = true) : j ≠ i ∧ s'.vfps j = s.vfps j := by
    by_cases first : j = i
    · rw [slots, first, Function.update_self] at used
      cases used
    · exact ⟨first, by rw [slots, Function.update_of_ne first]⟩
  have apart {j : Fin MAX_VIRTUAL_FILE} (other : j ≠ i) (used : (s.vfps j).used = true) : (s.vfps j).fd ≠ (s.vfps i).fd :=
    fun same => other (held.unique j i used inUse same)
  refine ⟨fun j k one two same => ?_, fun j one => ?_, fun fd offsets opened => ?_⟩
  · have left := (there one).2
    have right := (there two).2
    rw [left] at one same
    rw [right] at two same
    exact held.unique j k one two same
  · have ⟨other, keeps⟩ := there one
    rw [keeps] at one ⊢
    rw [Function.update_of_ne (apart other one)]
    exact held.used j one
  · have open_ : fd ≠ (s.vfps i).fd := by
      rintro rfl
      rw [Function.update_self] at opened
      cases opened
    rw [Function.update_of_ne open_] at opened
    obtain ⟨j, f, used, rfl, file, start, length⟩ := held.opened fd offsets opened
    have other : j ≠ i := by
      rintro rfl
      exact open_ rfl
    have keeps : s'.vfps j = s.vfps j := by rw [slots, Function.update_of_ne other]
    obtain ⟨offsets', here⟩ := held.used i inUse
    obtain ⟨_, _, _, _, closing, _⟩ := held.opened _ _ here
    refine ⟨j, f, by rw [keeps, used], by rw [keeps], ?_, by rw [keeps, start], by rw [keeps, length, kernel]; rfl⟩
    rw [kernel, Kernel.file_close _ (Kernel.file_some closing), if_neg open_]
    exact file

/-- A slot that was not used does not matter for another descriptor. -/
theorem filestart_update {slot : VirtualSlot} (free : (s.vfps i).used = false)
    (slots : s'.vfps = Function.update s.vfps i slot) (other : slot.fd ≠ fd) : s'.filestart fd = s.filestart fd := by
  have there {j : Fin MAX_VIRTUAL_FILE} (different : j ≠ i) : s'.vfps j = s.vfps j := by
    rw [slots, Function.update_of_ne different]
  have same : s'.virtualFileGet fd = s.virtualFileGet fd := by
    rw [virtualFileGet, virtualFileGet]
    congr 1
    funext j
    by_cases here : j = i
    · rw [here, slots, Function.update_self, free]
      simp [other]
    · rw [there here]
  rw [filestart, filestart, same]
  cases found : s.virtualFileGet fd with
  | none => rfl
  | some j =>
    have different : j ≠ i := by
      rintro rfl
      cases free.symm.trans (virtualFileGet_some found).1
    simp only [there different]

section Calls

theorem virtualFileDup_full (full : ∀ i, (s.vfps i).used = true) (refFd offset : Int) (dups : Bool) :
    s.virtualFileDup refFd offset dups = none := by
  rw [virtualFileDup, virtualFileGetUnused_none full]
  rfl

/-- What a dup does, with an unused slot. -/
theorem virtualFileDup_free (free : ∃ i, (s.vfps i).used = false) (refFd offset : Int) (dups : Bool) :
    ∃ i, (s.vfps i).used = false ∧ s.virtualFileDup refFd offset dups =
      match s.kernel.file refFd, dups with
      | some file, true => do
        let startOffset ← off64 (offset + s.filestart refFd)
        let totalLength ← off64 (s.kernel.length file - startOffset)
        some ((s.kernel.unused : Int), ⟨Function.update s.vfps i ⟨s.kernel.unused, startOffset, totalLength, true⟩,
          s.kernel.add file⟩)
      | _, _ => some (-1, s.setSlot i { s.vfps i with fd := -1, used := false }) := by
  obtain ⟨i, unused, get⟩ := virtualFileGetUnused_some free
  refine ⟨i, unused, ?_⟩
  rw [virtualFileDup, get]
  cases opened : s.kernel.file refFd with
  | none => simp [setSlot, Kernel.dup, opened]
  | some file =>
    cases dups with
    | false => simp [setSlot, Kernel.dup, opened]
    | true =>
      have other : (s.kernel.unused : Int) ≠ refFd := by
        intro same
        rw [← same, Kernel.file_unused] at opened
        cases opened
      have seek : (s.kernel.add file).seekEnd refFd = s.kernel.length file := by
        rw [Kernel.seekEnd, Kernel.file_add, if_neg (Ne.symm other), opened]
        rfl
      have start := @filestart_update s ⟨Function.update s.vfps i ⟨s.kernel.unused, (s.vfps i).startOffset,
        (s.vfps i).totalLength, true⟩, s.kernel.add file⟩ i refFd _ unused rfl other
      simp [setSlot, Kernel.dup, opened, seek, start]

def opening (s : VirtualFiles) (file : Nat) (truncates : Bool) : Kernel :=
  if truncates then s.kernel.truncate file else s.kernel

theorem opening_unused (file : Nat) (truncates : Bool) : (s.opening file truncates).unused = s.kernel.unused := by
  cases truncates <;> rfl

theorem openFile_true (file : Nat) (truncates : Bool) : s.kernel.openFile file truncates true =
    some ((s.kernel.unused : Int), (s.opening file truncates).add file) := by
  cases truncates <;> rfl

theorem virtualFileOpen_full (full : ∀ i, (s.vfps i).used = true) (file : Nat) (truncates : Bool) (offset : Int) :
    s.virtualFileOpen file truncates true offset =
      some (-1, ⟨s.vfps, ((s.opening file truncates).add file).close s.kernel.unused⟩) := by
  have none := @virtualFileGetUnused_none ⟨s.vfps, (s.opening file truncates).add file⟩ full
  simp only [virtualFileOpen, openFile_true, none]

theorem virtualFileOpen_free (free : ∃ i, (s.vfps i).used = false) (file : Nat) (truncates : Bool) (offset : Int) :
    ∃ i, (s.vfps i).used = false ∧ s.virtualFileOpen file truncates true offset =
      (off64 ((s.opening file truncates).length file - offset)).bind fun totalLength =>
        some ((s.kernel.unused : Int), ⟨Function.update s.vfps i ⟨s.kernel.unused, offset, totalLength, true⟩,
          (s.opening file truncates).add file⟩) := by
  obtain ⟨i, unused, get⟩ :=
    @virtualFileGetUnused_some ⟨s.vfps, (s.opening file truncates).add file⟩ free
  have seek : ((s.opening file truncates).add file).seekEnd s.kernel.unused = (s.opening file truncates).length file := by
    rw [Kernel.seekEnd, Kernel.file_add, opening_unused, if_pos rfl]
    rfl
  refine ⟨i, unused, ?_⟩
  simp [virtualFileOpen, openFile_true, get, seek, setSlot]

end Calls

section Steps

theorem Holds.total {file : Nat} (held : s.Holds chains) (used : (s.vfps i).used = true)
    (opened : s.kernel.file (s.vfps i).fd = some file) :
    (s.vfps i).startOffset + (s.vfps i).totalLength = s.kernel.length file := by
  obtain ⟨offsets, chain⟩ := held.used i used
  obtain ⟨j, other, used', same, kernel, start, length⟩ := held.opened _ offsets chain
  obtain rfl := held.unique j i used' used same
  rw [Option.some.inj (opened.symm.trans kernel), start, length]
  omega

theorem off64_some {n m : Int} (fits : off64 n = some m) : m = n := by
  unfold off64 at fits
  split at fits
  · exact (Option.some.inj fits).symm
  · cases fits

theorem chains_made (call : VirtualCall) (n : Nat) (chains : Chains) : call.chains n chains =
    match call with
    | .openFile _ _ _ offset => Function.update chains n (some [offset])
    | .dup refFd offset _ => Function.update chains n (some (offset :: (chains refFd).getD []))
    | .close fd => Function.update chains fd none := if_neg (by omega)

theorem chains_failed (call : VirtualCall) (chains : Chains) : call.chains (-1) chains = chains := if_pos (by decide)

/-- The offset that a dup adds to is the sum of its descriptor's chain. -/
theorem Holds.filestart (held : s.Holds chains) (fd : Int) : s.filestart fd = ((chains fd).getD []).sum := by
  cases opened : chains fd with
  | some offsets => exact (tableRight_iff.mpr held).start fd offsets opened
  | none =>
    rw [VirtualFiles.filestart]
    cases found : s.virtualFileGet fd with
    | none => rfl
    | some i =>
      have ⟨used, same⟩ := virtualFileGet_some found
      obtain ⟨offsets, chain⟩ := held.used i used
      rw [same, opened] at chain
      cases chain

theorem virtualFileClose_right (held : s.Holds chains) (fd : Int) :
    (0 ≤ (s.virtualFileClose fd).1 ∨ (s.virtualFileClose fd).2.view = s.view) ∧
      (s.virtualFileClose fd).2.Holds ((VirtualCall.close fd).chains (s.virtualFileClose fd).1 chains) := by
  rw [virtualFileClose]
  cases found : s.virtualFileGet fd with
  | none => exact ⟨.inr rfl, by rwa [chains_failed]⟩
  | some i =>
    obtain ⟨used, rfl⟩ := virtualFileGet_some found
    exact ⟨.inl (le_refl 0), held.remove used rfl rfl⟩

/-- A slot that is given back leaves the table as it was. -/
theorem Holds.release (held : s.Holds chains) (unused : (s.vfps i).used = false) :
    (s.setSlot i { s.vfps i with fd := -1, used := false }).view = s.view ∧
      (s.setSlot i { s.vfps i with fd := -1, used := false }).Holds chains := by
  have used (j : Fin MAX_VIRTUAL_FILE) :
      ((s.setSlot i { s.vfps i with fd := -1, used := false }).vfps j).used = (s.vfps j).used := by
    by_cases here : j = i
    · rw [here, setSlot_self, unused]
    · rw [setSlot_other here]
  have slots (j : Fin MAX_VIRTUAL_FILE) (inUse : (s.vfps j).used = true) :
      (s.setSlot i { s.vfps i with fd := -1, used := false }).vfps j = s.vfps j := by
    apply setSlot_other
    intro same
    rw [same, unused] at inUse
    cases inUse
  constructor
  · funext j
    rw [view, view, used]
    split
    · rename_i inUse
      rw [slots j inUse]
    · rfl
  · exact held.keep used slots (fun _ _ => rfl) fun _ _ _ _ => rfl

theorem virtualFileDup_right (held : s.Holds chains) {refFd offset : Int} {dups : Bool}
    (fits : s.Fits (.dup refFd offset dups)) : ∃ ret s', s.virtualFileDup refFd offset dups = some (ret, s') ∧
      (0 ≤ ret ∨ s'.view = s.view) ∧ s'.Holds ((VirtualCall.dup refFd offset dups).chains ret chains) := by
  obtain ⟨i, unused, result⟩ := virtualFileDup_free fits.1 refFd offset dups
  have failed : s.virtualFileDup refFd offset dups = some (-1, s.setSlot i { s.vfps i with fd := -1, used := false }) →
      ∃ ret s', s.virtualFileDup refFd offset dups = some (ret, s') ∧
        (0 ≤ ret ∨ s'.view = s.view) ∧ s'.Holds ((VirtualCall.dup refFd offset dups).chains ret chains) := by
    intro same
    have ⟨shown, kept⟩ := held.release unused
    exact ⟨_, _, same, .inr shown, by rwa [chains_failed]⟩
  cases opened : s.kernel.file refFd with
  | none =>
    rw [opened] at result
    exact failed result
  | some file =>
    cases dups with
    | false =>
      rw [opened] at result
      exact failed result
    | true =>
      have ⟨starts, lengths⟩ := fits.2 file opened rfl
      obtain ⟨start, sum⟩ := Option.ne_none_iff_exists'.mp starts
      obtain rfl := off64_some sum
      obtain ⟨total, rest⟩ := Option.ne_none_iff_exists'.mp lengths
      simp only [opened, sum, rest, Option.bind_eq_bind, Option.bind_some] at result
      obtain rfl := off64_some rest
      refine ⟨_, _, result, .inl (Int.natCast_nonneg _), ?_⟩
      rw [chains_made]
      refine held.add unused (Kernel.file_unused _) ?_ (Kernel.file_add _ _) fun _ _ _ _ => rfl
      simp only [List.sum_cons, ← held.filestart]
      rfl

theorem opening_file (file : Nat) (truncates : Bool) (fd : Int) : (s.opening file truncates).file fd = s.kernel.file fd := by
  cases truncates <;> rfl

theorem opening_length (file : Nat) (truncates : Bool) :
    (s.opening file truncates).length file = if truncates then 0 else s.kernel.length file := by
  cases truncates with
  | false => rfl
  | true => exact Function.update_self _ _ _

/-- An open keeps the lengths that the slots rely on. -/
theorem opening_keeps {file : Nat} {truncates : Bool} (kept : truncates = true → ∀ i, (s.vfps i).used = true →
    s.kernel.file (s.vfps i).fd = some file → s.kernel.length file = 0) (j : Fin MAX_VIRTUAL_FILE)
    (used : (s.vfps j).used = true) (f : Nat) (opened : s.kernel.file (s.vfps j).fd = some f) :
    (s.opening file truncates).length f = s.kernel.length f := by
  cases truncates with
  | false => rfl
  | true =>
    by_cases same : f = file
    · subst same
      rw [opening_length, if_pos rfl, kept rfl j used opened]
    · exact Function.update_of_ne same _ _

theorem virtualFileOpen_right (held : s.Holds chains) {file : Nat} {truncates opens : Bool} {offset : Int}
    (fits : s.Fits (.openFile file truncates opens offset)) :
    ∃ ret s', s.virtualFileOpen file truncates opens offset = some (ret, s') ∧ (0 ≤ ret ∨ s'.view = s.view) ∧
      s'.Holds ((VirtualCall.openFile file truncates opens offset).chains ret chains) := by
  cases opens with
  | false => exact ⟨-1, s, rfl, .inr rfl, by rwa [chains_failed]⟩
  | true =>
    have ⟨kept, sums⟩ := fits rfl
    have files (fd : Int) : ((s.opening file truncates).add file).file fd =
        if fd = s.kernel.unused then some file else s.kernel.file fd := by
      rw [Kernel.file_add, opening_unused, opening_file]
    by_cases full : ∀ i, (s.vfps i).used = true
    · refine ⟨_, _, virtualFileOpen_full full file truncates offset, .inr rfl, ?_⟩
      rw [chains_failed]
      refine held.keep (fun _ => rfl) (fun _ _ => rfl) (fun j used => ?_) (opening_keeps kept)
      have other : (s.vfps j).fd ≠ s.kernel.unused := by
        intro same
        obtain ⟨offsets, opened⟩ := held.used j used
        obtain ⟨_, _, _, _, kernel, _⟩ := held.opened _ offsets opened
        rw [same, Kernel.file_unused] at kernel
        cases kernel
      rw [Kernel.file_close _ (Int.natCast_nonneg _), if_neg other, files, if_neg other]
    · have free : ∃ i, (s.vfps i).used = false := by simpa using full
      obtain ⟨i, unused, result⟩ := virtualFileOpen_free free file truncates offset
      obtain ⟨total, sum⟩ := Option.ne_none_iff_exists'.mp (sums free)
      rw [opening_length, sum, Option.bind_some] at result
      obtain rfl := off64_some sum
      refine ⟨_, _, result, .inl (Int.natCast_nonneg _), ?_⟩
      rw [chains_made]
      refine held.add unused (Kernel.file_unused _) ?_ files (opening_keeps kept)
      have length : ((s.opening file truncates).add file).length file = if truncates then 0 else s.kernel.length file :=
        opening_length file truncates
      simp only [List.sum_singleton, length]

theorem virtualFileDup_wrong {refFd offset : Int} {dups : Bool} (wrong : ¬ s.Fits (.dup refFd offset dups)) :
    s.virtualFileDup refFd offset dups = none := by
  by_cases full : ∀ i, (s.vfps i).used = true
  · exact virtualFileDup_full full refFd offset dups
  · have free : ∃ i, (s.vfps i).used = false := by simpa using full
    obtain ⟨i, unused, result⟩ := virtualFileDup_free free refFd offset dups
    have sums := not_and.mp wrong free
    push Not at sums
    obtain ⟨file, opened, rfl, sums⟩ := sums
    simp only [opened] at result
    cases start : off64 (offset + s.filestart refFd) with
    | none => rw [result, start]; rfl
    | some start' =>
      have total := sums (by rw [start]; exact Option.some_ne_none _)
      rw [← off64_some start] at total
      simp [result, start, total]

theorem virtualFileOpen_wrong (held : s.Holds chains) {file : Nat} {truncates opens : Bool} {offset ret : Int}
    (wrong : ¬ s.Fits (.openFile file truncates opens offset))
    (ends : s.virtualFileOpen file truncates opens offset = some (ret, s')) (chains' : Chains) : ¬ s'.Holds chains' := by
  cases opens with
  | false => exact absurd (fun opens => nomatch opens) wrong
  | true =>
    have files (fd : Int) : ((s.opening file truncates).add file).file fd =
        if fd = s.kernel.unused then some file else s.kernel.file fd := by
      rw [Kernel.file_add, opening_unused, opening_file]
    by_cases kept : truncates = true → ∀ i, (s.vfps i).used = true → s.kernel.file (s.vfps i).fd = some file →
        s.kernel.length file = 0
    · have sums := not_and.mp (fun fits => wrong fun _ => fits) kept
      push Not at sums
      obtain ⟨free, sum⟩ := sums
      obtain ⟨i, unused, result⟩ := virtualFileOpen_free free file truncates offset
      rw [opening_length, sum] at result
      cases result.symm.trans ends
    · push Not at kept
      obtain ⟨rfl, i, used, opened, length⟩ := kept
      have other : (s.vfps i).fd ≠ s.kernel.unused := by
        intro same
        rw [same, Kernel.file_unused] at opened
        cases opened
      have after : s'.vfps i = s.vfps i ∧ s'.kernel.file (s.vfps i).fd = some file ∧ s'.kernel.length file = 0 := by
        by_cases full : ∀ i, (s.vfps i).used = true
        · have result := virtualFileOpen_full full file true offset
          cases result.symm.trans ends
          refine ⟨rfl, ?_, opening_length file true⟩
          rw [Kernel.file_close _ (Int.natCast_nonneg _), if_neg other, files, if_neg other, opened]
        · have free : ∃ i, (s.vfps i).used = false := by simpa using full
          obtain ⟨j, unused, result⟩ := virtualFileOpen_free free file true offset
          have different : i ≠ j := by
            rintro rfl
            cases unused.symm.trans used
          obtain ⟨total, _, made⟩ := Option.bind_eq_some_iff.mp (result.symm.trans ends)
          cases made
          refine ⟨Function.update_of_ne different _ _, ?_, opening_length file true⟩
          rw [files, if_neg other, opened]
      intro held'
      have before := held.total used opened
      have later := @Holds.total s' chains' i file held' (by rw [after.1, used]) (by rw [after.1, after.2.1])
      rw [after.1, before, after.2.2] at later
      exact length (by exact_mod_cast later)

end Steps

/-- A call that fits is right and keeps the table right. -/
theorem call_right (held : s.Holds chains) {call : VirtualCall} (fits : s.Fits call) : ∃ ret s',
    s.call call = some (ret, s') ∧ (0 ≤ ret ∨ s'.view = s.view) ∧ s'.Holds (call.chains ret chains) := by
  cases call with
  | openFile file truncates opens offset => exact virtualFileOpen_right held fits
  | dup refFd offset dups => exact virtualFileDup_right held fits
  | close fd => exact ⟨_, _, rfl, virtualFileClose_right held fd⟩

/-- After another call, if there is an after, the table is wrong. -/
theorem call_wrong (held : s.Holds chains) {call : VirtualCall} {ret : Int} (wrong : ¬ s.Fits call)
    (ends : s.call call = some (ret, s')) (chains' : Chains) : ¬ s'.Holds chains' := by
  cases call with
  | openFile file truncates opens offset => exact virtualFileOpen_wrong held wrong ends chains'
  | dup refFd offset dups => exact nomatch (virtualFileDup_wrong wrong).symm.trans ends
  | close fd => exact absurd trivial wrong

theorem RunRight.start {calls : List VirtualCall} (right : s.RunRight chains calls) : s.TableRight chains := by
  cases calls with
  | nil => exact right
  | cons call rest => exact right.1

theorem runRight_iff (held : s.Holds chains) (calls : List VirtualCall) : s.RunRight chains calls ↔ s.RunFits calls := by
  induction calls generalizing s chains with
  | nil => exact iff_of_true (tableRight_iff.mpr held) trivial
  | cons call rest ih =>
    rw [RunRight, RunFits, and_iff_right (tableRight_iff.mpr held)]
    constructor
    · intro ⟨ret, s', result, _, right⟩
      have fits : s.Fits call := by
        by_contra wrong
        exact call_wrong held wrong result _ (tableRight_iff.mp right.start)
      obtain ⟨ret', s'', result', _, held'⟩ := call_right held fits
      cases result.symm.trans result'
      refine ⟨fits, fun other s'' same => ?_⟩
      cases result.symm.trans same
      exact (ih held').mp right
    · intro ⟨fits, after⟩
      obtain ⟨ret, s', result, done, held'⟩ := call_right held fits
      exact ⟨ret, s', result, done, (ih held').mpr (after ret s' result)⟩

/-- From an empty table, the calls and the table are right in a run exactly if every call fits. -/
theorem virtualRun_right_iff (empty : ∀ i, (s.vfps i).used = false) (calls : List VirtualCall) :
    s.RunRight (fun _ => none) calls ↔ s.RunFits calls := by
  apply runRight_iff
  refine ⟨fun i j used => ?_, fun i used => ?_, fun fd offsets opened => nomatch opened⟩
  · exact nomatch (empty i).symm.trans used
  · exact nomatch (empty i).symm.trans used

/-- The zeroed table of a process with one descriptor, open on a file of 100 bytes. -/
def single : VirtualFiles := ⟨fun _ => ⟨0, 0, 0, false⟩, ⟨[some 0], fun _ => 100⟩⟩

theorem virtualRun_right_dup : single.RunRight (fun _ => none) [.dup 0 16 true] := by
  refine (virtualRun_right_iff (fun _ => rfl) _).mpr ⟨⟨⟨⟨0, by decide⟩, rfl⟩, fun file opened _ => ?_⟩, fun _ _ _ => trivial⟩
  cases opened
  decide

def runCalls (s : VirtualFiles) (calls : List VirtualCall) : Option VirtualFiles :=
  calls.foldlM (fun s call => (s.call call).map Prod.snd) s

theorem RunRight.runs {calls : List VirtualCall} (right : s.RunRight chains calls) : s.runCalls calls ≠ none := by
  induction calls generalizing s chains with
  | nil => exact Option.some_ne_none s
  | cons call rest ih =>
    obtain ⟨ret, s', result, _, right⟩ := right.2
    rw [runCalls, List.foldlM_cons, result]
    exact ih right

/-- The 33rd dup finds no slot. -/
theorem virtualRun_full : ¬ single.RunRight (fun _ => none) (List.replicate 33 (.dup 0 0 true)) := by
  intro right
  have stops : (single.runCalls (List.replicate 33 (.dup 0 0 true))).isNone = true := by decide
  exact right.runs (Option.isNone_iff_eq_none.mp stops)

end VirtualFiles

end ImgEditor
