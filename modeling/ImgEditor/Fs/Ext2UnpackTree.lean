import ImgEditor.Fs.Ext2References
import ImgEditor.Fs.Ext2UnpackDirent
import ImgEditor.Fs.Ext2UnpackFile
import ImgEditor.Storage.HostTree
import Mathlib.Data.List.DropRight

namespace ImgEditor

open Storage

/-! ## Paths as the system reads them -/

abbrev FileName := List Byte

def splitPath : List Byte → List FileName
  | [] => [[]]
  | c :: rest => if c = 0x2f#8 then [] :: splitPath rest else (c :: (splitPath rest).headD []) :: (splitPath rest).tail

def pathStep (name : FileName) : PathStep FileName :=
  if name = [] ∨ name = [0x2e#8] then .here else if name = [0x2e#8, 0x2e#8] then .up else .name name

/-- Whether a path starts at the root, and its steps. -/
def pathSteps (path : List Byte) : Bool × List (PathStep FileName) := (path.head? = some 0x2f#8, (splitPath path).map pathStep)

abbrev FileHost := Host FileName File (List Byte)

/-- As many links as a path may go through. -/
def MAXSYMLINKS : Nat := 40

def pathStart (cwd : List FileName) (path : List Byte) : List FileName := if (pathSteps path).1 then [] else cwd

section Calls

variable (cwd : List FileName) (host : FileHost)

/-- `mkdir(2)` takes slashes at the end. -/
def mkdirPath (path : List Byte) : Bool × FileHost :=
  let path := path.rdropWhile (· = 0x2f#8)
  mkdirHost pathSteps MAXSYMLINKS host (pathStart cwd path) (pathSteps path).2

def createPath (path : List Byte) (data : File) : Option FileHost :=
  createHost pathSteps MAXSYMLINKS host (pathStart cwd path) (pathSteps path).2 data

def unlinkPath (path : List Byte) : FileHost := unlinkHost pathSteps MAXSYMLINKS host (pathStart cwd path) (pathSteps path).2

def symlinkPath (target path : List Byte) : Option FileHost :=
  if target = [] then none else symlinkHost pathSteps MAXSYMLINKS host (pathStart cwd path) (pathSteps path).2 target

end Calls

/-! ## Unpacking -/

def SYMLINK_TARGET_SIZE : Nat := 4096

/-- The text of a short target goes on to the first zero byte of the inode. -/
def symlinkInodeGetTarget (p : Ext2Editor) (inode : List Byte) : Option (List Byte) :=
  let targetSz := inodeSizeLow inode
  if inodeMode inode &&& INODE_MODE_S_MASK ≠ INODE_MODE_S_IFLINK then none
  else if p.blockSize < targetSz ∨ SYMLINK_TARGET_SIZE - 1 ≤ targetSz then none
  else if targetSz < sizeofSymlink then some ((inode.drop 40).takeWhile (· ≠ 0#8))
  else
    let blkno := if inodeFlags inode &&& EXT4_EXTENTS_FL = 0 then leField inode 40 4 else leField inode 60 4
    (ext2ReadBlocks p blkno 1 targetSz).map fun target => target.takeWhile (· ≠ 0#8)

structure Ext2Entry where
  filetype : Nat
  ino : Nat
  name : FileName
deriving DecidableEq

def direntNameBytes (m : Memory) (dir : Nat) : FileName := (List.range (direntNamelen m dir)).map (direntName m dir)

/-- The entries that the loop of `unpack_dirent` comes to, and whether it comes to the end behind them. -/
def unpackDirentEntries (m : Memory) (direntSize : Nat) : Nat → Nat → List Ext2Entry × Bool
  | 0, _ => ([], true)
  | fuel + 1, offset =>
    if direntSize ≤ offset then ([], true)
    else if direntSize < offset + direntlen m offset then ([], true)
    else if direntlen m offset ≤ sizeofExt2Dirent then ([], false)
    else
      let rest := unpackDirentEntries m direntSize fuel (offset + direntlen m offset)
      if direntInode m offset = 0 then rest
      else (⟨direntFiletype m offset, direntInode m offset, direntNameBytes m offset⟩ :: rest.1, rest.2)

def CHILD_NAME_SIZE : Nat := 1024

def childName (parentDir : List Byte) (name : FileName) : List Byte :=
  (parentDir ++ 0x2f#8 :: name.takeWhile (· ≠ 0#8)).take (CHILD_NAME_SIZE - 1)

def isDotName (name : FileName) : Prop := name = [0x2e#8] ∨ name = [0x2e#8, 0x2e#8]

instance (name : FileName) : Decidable (isDotName name) := inferInstanceAs (Decidable (_ ∨ _))

section Unpack

variable (heap : Nat → Memory) (junk : Nat → Byte) (p : Ext2Editor) (cwd : List FileName)

/-- `unpack_file` at a path: the file is there once it is opened, also where the copy fails. -/
def unpackFilePath (ino : Nat) (path : List Byte) (host : FileHost) : Bool × FileHost :=
  match unpackFile heap junk p ino with
  | (_, none) => (false, host)
  | (ret, some fd) =>
    match createPath cwd host path fd.file with
    | none => (false, host)
    | some host => (decide (0 ≤ ret), host)

def unpackSymlinkPath (ino : Nat) (path : List Byte) (host : FileHost) : Bool × FileHost :=
  match ext2ReadInode p ino with
  | none => (false, host)
  | some inode =>
    if inodeMode inode &&& INODE_MODE_S_IFLINK = 0 then (false, host)
    else
      match symlinkInodeGetTarget p inode with
      | none => (false, host)
      | some target =>
        match symlinkPath cwd (unlinkPath cwd host path) target path with
        | none => (false, unlinkPath cwd host path)
        | some host => (true, host)

/-- The body of the loop; `enter` is the recursive call. -/
def unpackEntry (enter : Nat → List Byte → FileHost → Option (Bool × FileHost)) (parentDir : List Byte) (e : Ext2Entry)
    (host : FileHost) : Option (Bool × FileHost) :=
  if e.filetype = EXT4_FT_REG_FILE then some (unpackFilePath heap junk p cwd e.ino (childName parentDir e.name) host)
  else if e.filetype = EXT4_FT_DIR then
    if isDotName e.name then some (true, host) else enter e.ino (childName parentDir e.name) host
  else if e.filetype = EXT4_FT_SYMLINK then some (unpackSymlinkPath p cwd e.ino (childName parentDir e.name) host)
  else some (decide (EXT4_FT_CHRDEV ≤ e.filetype ∧ e.filetype ≤ EXT4_FT_SOCK), host)

def unpackEntries (enter : Nat → List Byte → FileHost → Option (Bool × FileHost)) (parentDir : List Byte) (ends : Bool) :
    List Ext2Entry → FileHost → Option (Bool × FileHost)
  | [], host => some (ends, host)
  | e :: rest, host =>
    match unpackEntry heap junk p cwd enter parentDir e host with
    | some (true, host) => unpackEntries enter parentDir ends rest host
    | stop => stop

/-- `unpack_dirent`, with the fuel for its recursion. -/
def unpackDirentTree : Nat → Nat → List Byte → FileHost → Option (Bool × FileHost)
  | 0, _, _, _ => none
  | fuel + 1, ino, parentDir, host =>
    match direntIteratorInit heap p ino with
    | .error _ => some (false, host)
    | .ok it =>
      let made := if ino = EXT2_ROOT_INO then (true, host) else mkdirPath cwd host parentDir
      if made.1 = false then some made
      else
        let entries := unpackDirentEntries (direntMemory junk it) it.direntSize it.direntSize 0
        unpackEntries heap junk p cwd (unpackDirentTree fuel) parentDir entries.2 entries.1 made.2

def ext2Unpack (fuel : Nat) (dirout : List Byte) (host : FileHost) : Option (Bool × FileHost) :=
  unpackDirentTree heap junk p cwd fuel EXT2_ROOT_INO dirout host

/-! ## The tree of an image -/

def ext2Entries (ino : Nat) : List Ext2Entry :=
  match direntIteratorInit heap p ino with
  | .error _ => []
  | .ok it => (unpackDirentEntries (direntMemory junk it) it.direntSize it.direntSize 0).1

def ext2FileContent (ino : Nat) : File := ((unpackFile heap junk p ino).2.map Fd.file).getD File.empty

def ext2LinkTarget (ino : Nat) : List Byte := ((ext2ReadInode p ino).bind (symlinkInodeGetTarget p)).getD []

/-- What the image alone decides of the calls, in a directory that takes all names. -/
def imageCalls : UnpackCalls where
  mkdir _ := true
  unpackFile ino := (unpackFile heap junk p ino).2.isSome && decide (0 ≤ (unpackFile heap junk p ino).1)
  unpackSymlink ino := decide (ext2LinkTarget p ino ≠ [])

/-- What an entry stands for; the two dots, devices, pipes and sockets are not unpacked. -/
def ext2Item (e : Ext2Entry) : Option (FileName × TreeItem Nat File (List Byte)) :=
  if e.filetype = EXT4_FT_REG_FILE then some (e.name, .leaf (.file (ext2FileContent heap junk p e.ino)))
  else if e.filetype = EXT4_FT_DIR then if isDotName e.name then none else some (e.name, .sub e.ino)
  else if e.filetype = EXT4_FT_SYMLINK then some (e.name, .leaf (.link (ext2LinkTarget p e.ino)))
  else none

def ext2Items (ino : Nat) : List (FileName × TreeItem Nat File (List Byte)) :=
  (ext2Entries heap junk p ino).filterMap (ext2Item heap junk p)

/-- The directories of an image with their paths below `dirout`. -/
inductive Ext2Directory (dirout : List Byte) : Nat → List Byte → Prop where
  | root : Ext2Directory dirout EXT2_ROOT_INO dirout
  | sub {ino child : Nat} {path : List Byte} {name : FileName} (parent : Ext2Directory dirout ino path)
      (entry : (name, .sub child) ∈ ext2Items heap junk p ino) : Ext2Directory dirout child (path ++ 0x2f#8 :: name)

structure PlainFileName (name : FileName) : Prop where
  filled : name ≠ []
  noDots : ¬ isDotName name
  noSlash : 0x2f#8 ∉ name
  noZero : 0#8 ∉ name

/-- A directory with different names, none of which changes the way of a path that has room for it. -/
structure PlainDirectory (ino : Nat) (path : List Byte) : Prop where
  names : ((ext2Items heap junk p ino).map Prod.fst).Nodup
  plain : ∀ item ∈ ext2Items heap junk p ino, PlainFileName item.1
  room : ∀ item ∈ ext2Items heap junk p ino, path.length + 1 + item.1.length < CHILD_NAME_SIZE
  below : ∀ name child, (name, .sub child) ∈ ext2Items heap junk p ino → child ≠ EXT2_ROOT_INO

end Unpack

section Paths

variable {cwd place : List FileName} {host : FileHost} {path : List Byte} {name : FileName}

theorem splitPath_name (plain : 0x2f#8 ∉ name) : splitPath name = [name] := by
  induction name with
  | nil => rfl
  | cons c name ih =>
    rw [List.mem_cons, not_or] at plain
    rw [splitPath, if_neg (Ne.symm plain.1), ih plain.2]
    rfl

theorem splitPath_ne_nil (path : List Byte) : splitPath path ≠ [] := by
  cases path with
  | nil => exact List.cons_ne_nil _ _
  | cons c rest =>
    rw [splitPath]
    split
    · exact List.cons_ne_nil _ _
    · exact List.cons_ne_nil _ _

theorem splitPath_append (path name : List Byte) : splitPath (path ++ 0x2f#8 :: name) = splitPath path ++ splitPath name := by
  induction path with
  | nil =>
    rw [List.nil_append, splitPath, splitPath, if_pos rfl]
    rfl
  | cons c path ih =>
    rw [List.cons_append, splitPath, splitPath, ih]
    split
    · rfl
    · rw [List.tail_append_of_ne_nil (splitPath_ne_nil path), List.cons_append]
      cases first : splitPath path with
      | nil => exact absurd first (splitPath_ne_nil path)
      | cons piece pieces => rfl

theorem childName_plain (plain : PlainFileName name) (room : path.length + 1 + name.length < CHILD_NAME_SIZE) :
    childName path name = path ++ 0x2f#8 :: name := by
  have whole : name.takeWhile (· ≠ 0#8) = name := by
    rw [List.takeWhile_eq_self_iff]
    intro byte member
    exact decide_eq_true fun zero => plain.noZero (zero ▸ member)
  rw [childName, whole, List.take_of_length_le]
  rw [List.length_append, List.length_cons]
  unfold CHILD_NAME_SIZE at room ⊢
  omega

theorem pathSteps_child (given : path ≠ []) (plain : PlainFileName name) :
    pathSteps (path ++ 0x2f#8 :: name) = ((pathSteps path).1, (pathSteps path).2 ++ [.name name]) := by
  have step : pathStep name = .name name := by
    rw [pathStep, if_neg (not_or.mpr ⟨plain.filled, fun dot => plain.noDots (Or.inl dot)⟩),
      if_neg fun dots => plain.noDots (Or.inr dots)]
  have head : (path ++ 0x2f#8 :: name).head? = path.head? := List.head?_append_of_ne_nil path given
  rw [pathSteps, pathSteps, head, splitPath_append, splitPath_name plain.noSlash, List.map_append, List.map_singleton, step]

theorem pathStart_child (given : path ≠ []) (plain : PlainFileName name) :
    pathStart cwd (path ++ 0x2f#8 :: name) = pathStart cwd path := by
  rw [pathStart, pathSteps_child given plain, pathStart]

theorem child_whole (plain : PlainFileName name) : (path ++ 0x2f#8 :: name).rdropWhile (· = 0x2f#8) = path ++ 0x2f#8 :: name := by
  rw [List.rdropWhile_eq_self_iff]
  intro filled
  rw [decide_eq_true_eq]
  intro slash
  rw [List.getLast_append_of_ne_nil _ (List.cons_ne_nil _ _), List.getLast_cons plain.filled] at slash
  exact plain.noSlash (slash ▸ List.getLast_mem plain.filled)

/-- A path leads to a place. -/
def PathTo (cwd : List FileName) (host : FileHost) (path : List Byte) (place : List FileName) : Prop :=
  walkPath pathSteps host MAXSYMLINKS (pathStart cwd path) (pathSteps path).2 = some place

theorem PathTo.extends {host' : FileHost} (leads : PathTo cwd host path place) (more : host.Extends host') :
    PathTo cwd host' path place := walkPath_extends more leads

theorem PathTo.child (leads : PathTo cwd host path place) (given : path ≠ []) (plain : PlainFileName name)
    (there : host (place ++ [name]) = some .dir) : PathTo cwd host (path ++ 0x2f#8 :: name) (place ++ [name]) := by
  rw [PathTo, pathStart_child given plain, pathSteps_child given plain]
  exact walkPath_name leads there

variable (leads : PathTo cwd host path place) (given : path ≠ []) (plain : PlainFileName name) (free : host (place ++ [name]) = none)
include leads given plain free

theorem mkdirPath_fresh :
    mkdirPath cwd host (path ++ 0x2f#8 :: name) = (true, Function.update host (place ++ [name]) (some .dir)) := by
  rw [mkdirPath, child_whole plain, pathStart_child given plain, pathSteps_child given plain]
  exact mkdirHost_fresh leads free

theorem createPath_fresh (data : File) :
    createPath cwd host (path ++ 0x2f#8 :: name) data = some (Function.update host (place ++ [name]) (some (.file data))) := by
  rw [createPath, pathStart_child given plain, pathSteps_child given plain]
  exact createHost_fresh leads free data

theorem unlinkPath_fresh : unlinkPath cwd host (path ++ 0x2f#8 :: name) = host := by
  rw [unlinkPath, pathStart_child given plain, pathSteps_child given plain]
  exact unlinkHost_fresh leads free

theorem symlinkPath_fresh {target : List Byte} (filled : target ≠ []) : symlinkPath cwd host target (path ++ 0x2f#8 :: name) =
    some (Function.update host (place ++ [name]) (some (.link target))) := by
  rw [symlinkPath, if_neg filled, pathStart_child given plain, pathSteps_child given plain]
  exact symlinkHost_fresh leads free target

end Paths

section Steps

variable {calls : UnpackCalls} {m : Memory}

def entryStep (calls : UnpackCalls) (e : Ext2Entry) : WalkStep Nat :=
  if e.filetype = EXT4_FT_REG_FILE then .leaf (calls.unpackFile e.ino)
  else if e.filetype = EXT4_FT_DIR then if isDotName e.name then .leaf true else .into e.ino
  else if e.filetype = EXT4_FT_SYMLINK then .leaf (calls.unpackSymlink e.ino)
  else .leaf (decide (EXT4_FT_CHRDEV ≤ e.filetype ∧ e.filetype ≤ EXT4_FT_SOCK))

/-- The steps of a directory with these entries. -/
def entrySteps (calls : UnpackCalls) (entries : List Ext2Entry) (ends : Bool) : List (WalkStep Nat) :=
  entries.map (entryStep calls) ++ if ends then [] else [.leaf false]

theorem map_range_cons {α : Type} (f : Nat → α) (n : Nat) (a : α) (l : List α) :
    (List.range n).map f = a :: l ↔ ∃ k, n = k + 1 ∧ f 0 = a ∧ (List.range k).map (fun i => f (i + 1)) = l := by
  cases n with
  | zero =>
    apply iff_of_false (List.cons_ne_nil a l).symm
    intro some
    obtain ⟨k, same, _⟩ := some
    exact absurd same (Nat.succ_ne_zero k).symm
  | succ n =>
    rw [List.range_succ_eq_map, List.map_cons, List.map_map, List.cons.injEq]
    constructor
    · intro both
      exact ⟨n, rfl, both.1, both.2⟩
    · intro some
      obtain ⟨k, same, first, rest⟩ := some
      rw [Nat.succ.inj same]
      exact ⟨first, rest⟩

theorem isDotName_iff (m : Memory) (dir : Nat) : isDotName (direntNameBytes m dir) ↔ IsDot m dir ∨ IsDotDot m dir := by
  have ends (f : Nat → Byte) (k : Nat) : (List.range k).map f = [] ↔ k = 0 := by
    rw [List.map_eq_nil_iff, List.range_eq_nil]
  rw [isDotName, direntNameBytes, map_range_cons, map_range_cons]
  apply or_congr
  · simp only [ends, IsDot]
    grind
  · simp only [map_range_cons, ends, IsDotDot]
    grind

theorem unpackDirentStep_entry (dir : Nat) : unpackDirentStep calls m dir =
    entryStep calls ⟨direntFiletype m dir, direntInode m dir, direntNameBytes m dir⟩ := by
  rw [unpackDirentStep, entryStep]
  simp only [isDotName_iff]

theorem unpackDirentSteps_entries (size fuel offset : Nat) : unpackDirentSteps calls m size fuel offset =
    entrySteps calls (unpackDirentEntries m size fuel offset).1 (unpackDirentEntries m size fuel offset).2 := by
  induction fuel generalizing offset with
  | zero => rfl
  | succ fuel ih =>
    rw [unpackDirentSteps, unpackDirentEntries]
    by_cases behind : size ≤ offset
    · rw [if_pos behind, if_pos behind]
      rfl
    · rw [if_neg behind, if_neg behind]
      by_cases long : size < offset + direntlen m offset
      · rw [if_pos long, if_pos long]
        rfl
      · rw [if_neg long, if_neg long]
        by_cases short : direntlen m offset ≤ sizeofExt2Dirent
        · rw [if_pos short, if_pos short]
          rfl
        · rw [if_neg short, if_neg short]
          dsimp only
          by_cases unused : direntInode m offset = 0
          · rw [if_pos unused, if_pos unused, ih]
          · rw [if_neg unused, if_neg unused, ih, unpackDirentStep_entry]
            rfl

end Steps

section Refinement

variable {heap : Nat → Memory} {junk : Nat → Byte} {p : Ext2Editor} {cwd place : List FileName} {dirout path : List Byte}
  {host between : FileHost} {name : FileName}

/-- A file that is unpacked where nothing stands. -/
theorem unpackFilePath_fresh {ino : Nat} (leads : PathTo cwd host path place) (given : path ≠ []) (plain : PlainFileName name)
    (free : host (place ++ [name]) = none)
    (ran : unpackFilePath heap junk p cwd ino (path ++ 0x2f#8 :: name) host = (true, between)) :
    between = Function.update host (place ++ [name]) (some (.file (ext2FileContent heap junk p ino))) := by
  rw [unpackFilePath] at ran
  cases file : unpackFile heap junk p ino with
  | mk ret output =>
    rw [file] at ran
    cases output with
    | none => exact absurd (Prod.mk.inj ran).1 Bool.false_ne_true
    | some fd =>
      dsimp only at ran
      rw [createPath_fresh leads given plain free] at ran
      rw [← (Prod.mk.inj ran).2, ext2FileContent, file]
      rfl

/-- A link that is unpacked where nothing stands. -/
theorem unpackSymlinkPath_fresh {ino : Nat} (leads : PathTo cwd host path place) (given : path ≠ []) (plain : PlainFileName name)
    (free : host (place ++ [name]) = none)
    (ran : unpackSymlinkPath p cwd ino (path ++ 0x2f#8 :: name) host = (true, between)) :
    between = Function.update host (place ++ [name]) (some (.link (ext2LinkTarget p ino))) := by
  rw [unpackSymlinkPath] at ran
  cases read : ext2ReadInode p ino with
  | none =>
    rw [read] at ran
    exact absurd (Prod.mk.inj ran).1 Bool.false_ne_true
  | some inode =>
    rw [read] at ran
    dsimp only at ran
    split at ran
    · exact absurd (Prod.mk.inj ran).1 Bool.false_ne_true
    · cases text : symlinkInodeGetTarget p inode with
      | none =>
        rw [text] at ran
        exact absurd (Prod.mk.inj ran).1 Bool.false_ne_true
      | some target =>
        rw [text] at ran
        dsimp only at ran
        rw [unlinkPath_fresh leads given plain free] at ran
        by_cases empty : target = []
        · rw [symlinkPath, if_pos empty] at ran
          exact absurd (Prod.mk.inj ran).1 Bool.false_ne_true
        · rw [symlinkPath_fresh leads given plain free empty] at ran
          rw [← (Prod.mk.inj ran).2, ext2LinkTarget, read, Option.bind_some, text, Option.getD_some]

theorem filterMap_toList {α β : Type} (f : α → Option β) (a : α) (l : List α) :
    (a :: l).filterMap f = (f a).toList ++ l.filterMap f := by
  rw [List.filterMap_cons]
  cases f a with
  | none => rfl
  | some b => rfl

/-- What an entry asks for: its item, the body of the loop and the step of the walk. -/
inductive EntryKind (heap : Nat → Memory) (junk : Nat → Byte) (p : Ext2Editor) (cwd : List FileName) (e : Ext2Entry) : Prop where
  | file (item : ext2Item heap junk p e = some (e.name, .leaf (.file (ext2FileContent heap junk p e.ino))))
      (body : ∀ enter path host, unpackEntry heap junk p cwd enter path e host =
        some (unpackFilePath heap junk p cwd e.ino (childName path e.name) host))
      (step : ∀ calls : UnpackCalls, entryStep calls e = .leaf (calls.unpackFile e.ino))
  | sub (item : ext2Item heap junk p e = some (e.name, .sub e.ino))
      (body : ∀ enter path host, unpackEntry heap junk p cwd enter path e host = enter e.ino (childName path e.name) host)
      (step : ∀ calls : UnpackCalls, entryStep calls e = .into e.ino)
  | link (item : ext2Item heap junk p e = some (e.name, .leaf (.link (ext2LinkTarget p e.ino))))
      (body : ∀ enter path host, unpackEntry heap junk p cwd enter path e host =
        some (unpackSymlinkPath p cwd e.ino (childName path e.name) host))
      (step : ∀ calls : UnpackCalls, entryStep calls e = .leaf (calls.unpackSymlink e.ino))
  | skip (passes : Bool) (item : ext2Item heap junk p e = none)
      (body : ∀ enter path host, unpackEntry heap junk p cwd enter path e host = some (passes, host))
      (step : ∀ calls : UnpackCalls, entryStep calls e = .leaf passes)

theorem entryKind (heap : Nat → Memory) (junk : Nat → Byte) (p : Ext2Editor) (cwd : List FileName) (e : Ext2Entry) :
    EntryKind heap junk p cwd e := by
  by_cases regular : e.filetype = EXT4_FT_REG_FILE
  · apply EntryKind.file
    · rw [ext2Item, if_pos regular]
    · exact fun enter path host => by rw [unpackEntry, if_pos regular]
    · exact fun calls => by rw [entryStep, if_pos regular]
  · by_cases dir : e.filetype = EXT4_FT_DIR
    · by_cases dots : isDotName e.name
      · apply EntryKind.skip true
        · rw [ext2Item, if_neg regular, if_pos dir, if_pos dots]
        · exact fun enter path host => by rw [unpackEntry, if_neg regular, if_pos dir, if_pos dots]
        · exact fun calls => by rw [entryStep, if_neg regular, if_pos dir, if_pos dots]
      · apply EntryKind.sub
        · rw [ext2Item, if_neg regular, if_pos dir, if_neg dots]
        · exact fun enter path host => by rw [unpackEntry, if_neg regular, if_pos dir, if_neg dots]
        · exact fun calls => by rw [entryStep, if_neg regular, if_pos dir, if_neg dots]
    · by_cases link : e.filetype = EXT4_FT_SYMLINK
      · apply EntryKind.link
        · rw [ext2Item, if_neg regular, if_neg dir, if_pos link]
        · exact fun enter path host => by rw [unpackEntry, if_neg regular, if_neg dir, if_pos link]
        · exact fun calls => by rw [entryStep, if_neg regular, if_neg dir, if_pos link]
      · apply EntryKind.skip (decide (EXT4_FT_CHRDEV ≤ e.filetype ∧ e.filetype ≤ EXT4_FT_SOCK))
        · rw [ext2Item, if_neg regular, if_neg dir, if_neg link]
        · exact fun enter path host => by rw [unpackEntry, if_neg regular, if_neg dir, if_neg link]
        · exact fun calls => by rw [entryStep, if_neg regular, if_neg dir, if_neg link]

theorem ext2_namesApart (plain : ∀ ino path, Ext2Directory heap junk p dirout ino path → PlainDirectory heap junk p ino path) :
    TreeNamesApart (ext2Items heap junk p) fun ino => ∃ path, Ext2Directory heap junk p dirout ino path where
  names := by
    intro ino own
    cases own with
    | intro path own => exact (plain ino path own).names
  closed := by
    intro ino own a child member
    cases own with
    | intro path own => exact ⟨_, own.sub member⟩

/-- What the call for a subdirectory makes. -/
def SubdirectoryBuilt (heap : Nat → Memory) (junk : Nat → Byte) (p : Ext2Editor) (cwd : List FileName) (dirout : List Byte)
    (fuel : Nat) : Prop :=
  ∀ child path place name host between, Ext2Directory heap junk p dirout child (path ++ 0x2f#8 :: name) →
    child ≠ EXT2_ROOT_INO → path ≠ [] → PlainFileName name → PathTo cwd host path place → (∀ more, host (place ++ name :: more) = none) →
    unpackDirentTree heap junk p cwd fuel child (path ++ 0x2f#8 :: name) host = some (true, between) →
    buildTree (ext2Items heap junk p) fuel child (place ++ [name]) (Function.update host (place ++ [name]) (some .dir)) =
      some between

/-- One entry makes its item, and nothing elsewhere. -/
structure EntryBuilt (heap : Nat → Memory) (junk : Nat → Byte) (p : Ext2Editor) (fuel : Nat) (place : List FileName)
    (e : Ext2Entry) (host between : FileHost) : Prop where
  built : ∀ rest, buildItems (buildTree (ext2Items heap junk p) fuel) place ((ext2Item heap junk p e).toList ++ rest) host =
    buildItems (buildTree (ext2Items heap junk p) fuel) place rest between
  kept : ∀ q, (∀ a ∈ (ext2Item heap junk p e).toList.map Prod.fst, ∀ more, q ≠ place ++ a :: more) → between q = host q

theorem EntryBuilt.skip {fuel : Nat} {e : Ext2Entry} (none : ext2Item heap junk p e = none) :
    EntryBuilt heap junk p fuel place e host host where
  built rest := by rw [none, Option.toList_none, List.nil_append]
  kept q _ := rfl

theorem EntryBuilt.leaf {fuel : Nat} {e : Ext2Entry} {entry : HostEntry File (List Byte)}
    (item : ext2Item heap junk p e = some (name, .leaf entry)) :
    EntryBuilt heap junk p fuel place e host (Function.update host (place ++ [name]) (some entry)) where
  built rest := by rw [item, Option.toList_some, List.singleton_append, buildItems]
  kept q outside := by
    rw [item, Option.toList_some, List.map_singleton, List.forall_mem_singleton] at outside
    exact Function.update_of_ne (outside []) _ _

variable (plain : ∀ ino path, Ext2Directory heap junk p dirout ino path → PlainDirectory heap junk p ino path)
include plain

theorem EntryBuilt.sub {fuel child : Nat} {e : Ext2Entry} (item : ext2Item heap junk p e = some (name, .sub child))
    (own : Ext2Directory heap junk p dirout child path) (free : ∀ more, host (place ++ name :: more) = none)
    (built : buildTree (ext2Items heap junk p) fuel child (place ++ [name])
      (Function.update host (place ++ [name]) (some .dir)) = some between) :
    EntryBuilt heap junk p fuel place e host between where
  built rest := by rw [item, Option.toList_some, List.singleton_append, buildItems, built]
  kept q outside := by
    rw [item, Option.toList_some, List.map_singleton, List.forall_mem_singleton] at outside
    exact sub_kept (buildTree_made (ext2_namesApart plain) ⟨path, own⟩ (sub_free free _) built) outside

/-- The name of an item that is free at the place. -/
structure ItemReady (heap : Nat → Memory) (junk : Nat → Byte) (p : Ext2Editor) (ino : Nat) (path : List Byte)
    (place : List FileName) (host : FileHost) (item : FileName × TreeItem Nat File (List Byte)) : Prop where
  listed : item ∈ ext2Items heap junk p ino
  plain : PlainFileName item.1
  text : childName path item.1 = path ++ 0x2f#8 :: item.1
  free : ∀ more, host (place ++ item.1 :: more) = none

theorem itemReady {ino : Nat} {e : Ext2Entry} (own : Ext2Directory heap junk p dirout ino path)
    (member : e ∈ ext2Entries heap junk p ino)
    (free : ∀ a ∈ (ext2Item heap junk p e).toList.map Prod.fst, ∀ more, host (place ++ a :: more) = none)
    {item : FileName × TreeItem Nat File (List Byte)} (same : ext2Item heap junk p e = some item) :
    ItemReady heap junk p ino path place host item := by
  have listed : item ∈ ext2Items heap junk p ino := List.mem_filterMap.mpr ⟨e, member, same⟩
  have named := (plain ino path own).plain item listed
  rw [same, Option.toList_some, List.map_singleton, List.forall_mem_singleton] at free
  exact ⟨listed, named, childName_plain named ((plain ino path own).room item listed), free⟩

theorem unpackEntry_builds {fuel ino : Nat} {e : Ext2Entry} (entered : SubdirectoryBuilt heap junk p cwd dirout fuel)
    (own : Ext2Directory heap junk p dirout ino path) (given : path ≠ []) (member : e ∈ ext2Entries heap junk p ino)
    (leads : PathTo cwd host path place)
    (free : ∀ a ∈ (ext2Item heap junk p e).toList.map Prod.fst, ∀ more, host (place ++ a :: more) = none)
    (ran : unpackEntry heap junk p cwd (unpackDirentTree heap junk p cwd fuel) path e host = some (true, between)) :
    EntryBuilt heap junk p fuel place e host between := by
  cases entryKind heap junk p cwd e with
  | file item body _ =>
    have ready := itemReady plain own member free item
    rw [body, ready.text, Option.some_inj] at ran
    rw [unpackFilePath_fresh leads given ready.plain (ready.free []) ran]
    exact .leaf item
  | sub item body _ =>
    have ready := itemReady plain own member free item
    have child := own.sub ready.listed
    rw [body, ready.text] at ran
    have built := entered e.ino path place e.name host between child ((plain ino path own).below _ _ ready.listed) given
      ready.plain leads ready.free ran
    exact .sub plain item child ready.free built
  | link item body _ =>
    have ready := itemReady plain own member free item
    rw [body, ready.text, Option.some_inj] at ran
    rw [unpackSymlinkPath_fresh leads given ready.plain (ready.free []) ran]
    exact .leaf item
  | skip passes item body _ =>
    rw [body, Option.some_inj] at ran
    rw [← (Prod.mk.inj ran).2]
    exact .skip item

omit plain in
/-- What is made of an entry keeps the way to the directory and the places of the other items. -/
theorem EntryBuilt.goesOn {fuel : Nat} {e : Ext2Entry} {others : List FileName}
    (made : EntryBuilt heap junk p fuel place e host between) (leads : PathTo cwd host path place)
    (apart : ∀ a ∈ (ext2Item heap junk p e).toList.map Prod.fst, ∀ b ∈ others, a ≠ b)
    (own : ∀ a ∈ (ext2Item heap junk p e).toList.map Prod.fst, ∀ more, host (place ++ a :: more) = none)
    (free : ∀ a ∈ others, ∀ more, host (place ++ a :: more) = none) :
    PathTo cwd between path place ∧ ∀ a ∈ others, ∀ more, between (place ++ a :: more) = none := by
  have more : host.Extends between := by
    intro q old same
    rw [made.kept q, same]
    intro a member path' equal
    rw [equal, own a member] at same
    exact Option.some_ne_none old same.symm
  refine ⟨leads.extends more, ?_⟩
  intro a member path'
  rw [made.kept, free a member]
  intro b there path''
  exact below_apart (apart b there a member).symm _ _ _

/-- The loop makes the items of its entries, one after the other. -/
theorem unpackEntries_builds {fuel ino : Nat} {ends : Bool} (entered : SubdirectoryBuilt heap junk p cwd dirout fuel)
    (own : Ext2Directory heap junk p dirout ino path) (given : path ≠ []) {l : List Ext2Entry}
    (part : ∀ e ∈ l, e ∈ ext2Entries heap junk p ino) (names : ((l.filterMap (ext2Item heap junk p)).map Prod.fst).Nodup)
    (leads : PathTo cwd host path place)
    (free : ∀ a ∈ (l.filterMap (ext2Item heap junk p)).map Prod.fst, ∀ more, host (place ++ a :: more) = none)
    (ran : unpackEntries heap junk p cwd (unpackDirentTree heap junk p cwd fuel) path ends l host = some (true, between)) :
    buildItems (buildTree (ext2Items heap junk p) fuel) place (l.filterMap (ext2Item heap junk p)) host = some between := by
  induction l generalizing host with
  | nil =>
    rw [unpackEntries, Option.some_inj] at ran
    rw [List.filterMap_nil, buildItems, (Prod.mk.inj ran).2]
  | cons e rest ih =>
    have split := filterMap_toList (ext2Item heap junk p) e rest
    rw [split, List.map_append, List.nodup_append] at names
    rw [split, List.map_append] at free
    have first := List.forall_mem_cons.mp part
    rw [unpackEntries] at ran
    cases entry : unpackEntry heap junk p cwd (unpackDirentTree heap junk p cwd fuel) path e host with
    | none =>
      rw [entry] at ran
      cases ran
    | some result =>
      cases result with
      | mk passed next =>
        rw [entry] at ran
        cases passed with
        | false =>
          dsimp only at ran
          exact absurd (Prod.mk.inj (Option.some.inj ran)).1 Bool.false_ne_true
        | true =>
          have made := unpackEntry_builds plain entered own given first.1 leads
            (fun a member => free a (List.mem_append_left _ member)) entry
          have next := made.goesOn leads names.2.2 (fun a member => free a (List.mem_append_left _ member))
            (fun a member => free a (List.mem_append_right _ member))
          rw [split, made.built]
          exact ih first.2 names.2.1 next.1 next.2 ran

/-- The call for a directory makes its items, once the directory is there. -/
theorem unpackDirentTree_builds {fuel ino : Nat} (entered : SubdirectoryBuilt heap junk p cwd dirout fuel)
    (own : Ext2Directory heap junk p dirout ino path) (given : path ≠ []) (leads : PathTo cwd host path place)
    (free : FreeBelow host place) {it : DirentIterator} (init : direntIteratorInit heap p ino = .ok it)
    (ran : unpackEntries heap junk p cwd (unpackDirentTree heap junk p cwd fuel) path
      (unpackDirentEntries (direntMemory junk it) it.direntSize it.direntSize 0).2
      (unpackDirentEntries (direntMemory junk it) it.direntSize it.direntSize 0).1 host = some (true, between)) :
    buildTree (ext2Items heap junk p) (fuel + 1) ino place host = some between := by
  have entries : ext2Entries heap junk p ino = (unpackDirentEntries (direntMemory junk it) it.direntSize it.direntSize 0).1 := by
    rw [ext2Entries, init]
  rw [← entries] at ran
  exact unpackEntries_builds plain entered own given (fun e member => member) (plain ino path own).names leads
    (fun a _ => free a) ran

theorem subdirectoryBuilt (fuel : Nat) : SubdirectoryBuilt heap junk p cwd dirout fuel := by
  induction fuel with
  | zero =>
    intro child path place name host between _ _ _ _ _ _ ran
    cases ran
  | succ fuel ih =>
    intro child path place name host between own notRoot given named leads free ran
    rw [unpackDirentTree] at ran
    cases init : direntIteratorInit heap p child with
    | error _ =>
      rw [init] at ran
      exact absurd (Prod.mk.inj (Option.some.inj ran)).1 Bool.false_ne_true
    | ok it =>
      rw [init] at ran
      dsimp only at ran
      rw [if_neg notRoot, mkdirPath_fresh leads given named (free []), if_neg (Ne.symm Bool.false_ne_true)] at ran
      have there : Function.update host (place ++ [name]) (some .dir) (place ++ [name]) = some .dir := Function.update_self ..
      have within := (leads.extends (Host.Extends.update (free []) (some .dir))).child given named there
      have filled : path ++ 0x2f#8 :: name ≠ [] := List.append_ne_nil_of_right_ne_nil _ (List.cons_ne_nil _ _)
      exact unpackDirentTree_builds plain ih own filled within (sub_free free .dir) init ran

/-! ### What it returns -/

omit plain in
theorem unpackFilePath_passes {ino : Nat} (leads : PathTo cwd host path place) (given : path ≠ []) (named : PlainFileName name)
    (free : host (place ++ [name]) = none) :
    (unpackFilePath heap junk p cwd ino (path ++ 0x2f#8 :: name) host).1 = (imageCalls heap junk p).unpackFile ino := by
  have calls : (imageCalls heap junk p).unpackFile ino =
      ((unpackFile heap junk p ino).2.isSome && decide (0 ≤ (unpackFile heap junk p ino).1)) := rfl
  rw [unpackFilePath, calls]
  cases unpackFile heap junk p ino with
  | mk ret output =>
    cases output with
    | none => rfl
    | some fd =>
      dsimp only
      rw [createPath_fresh leads given named free, Option.isSome_some, Bool.true_and]

omit plain in
theorem unpackSymlinkPath_passes {ino : Nat} (leads : PathTo cwd host path place) (given : path ≠ [])
    (named : PlainFileName name) (free : host (place ++ [name]) = none) :
    (unpackSymlinkPath p cwd ino (path ++ 0x2f#8 :: name) host).1 = (imageCalls heap junk p).unpackSymlink ino := by
  have calls : (imageCalls heap junk p).unpackSymlink ino =
      decide (((ext2ReadInode p ino).bind (symlinkInodeGetTarget p)).getD [] ≠ []) := rfl
  rw [unpackSymlinkPath, calls]
  cases ext2ReadInode p ino with
  | none => rfl
  | some inode =>
    rw [Option.bind_some]
    dsimp only
    rw [unlinkPath_fresh leads given named free]
    by_cases link : inodeMode inode &&& INODE_MODE_S_MASK = INODE_MODE_S_IFLINK
    · have masked : inodeMode inode &&& INODE_MODE_S_IFLINK ≠ 0 := by
        have mask : INODE_MODE_S_MASK &&& INODE_MODE_S_IFLINK = INODE_MODE_S_IFLINK := by decide
        rw [← mask, ← Nat.and_assoc, link]
        decide
      rw [if_neg masked]
      cases symlinkInodeGetTarget p inode with
      | none => rfl
      | some target =>
        dsimp only
        rw [Option.getD_some]
        by_cases empty : target = []
        · rw [symlinkPath, if_pos empty, decide_eq_false (not_not_intro empty)]
        · rw [symlinkPath_fresh leads given named free empty, decide_eq_true empty]
    · rw [symlinkInodeGetTarget, if_pos link]
      dsimp only
      split
      · rfl
      · rfl

/-- What the call for a subdirectory returns is decided by the image. -/
def SubdirectoryReturns (heap : Nat → Memory) (junk : Nat → Byte) (p : Ext2Editor) (cwd : List FileName) (dirout : List Byte)
    (fuel : Nat) : Prop :=
  ∀ child path place name host, Ext2Directory heap junk p dirout child (path ++ 0x2f#8 :: name) → child ≠ EXT2_ROOT_INO →
    path ≠ [] → PlainFileName name → PathTo cwd host path place → (∀ more, host (place ++ name :: more) = none) →
    (unpackDirentTree heap junk p cwd fuel child (path ++ 0x2f#8 :: name) host).map Prod.fst =
      treeWalk (unpackDirent heap junk (imageCalls heap junk p) p) fuel child

theorem unpackEntry_returns {fuel ino : Nat} {e : Ext2Entry} (entered : SubdirectoryReturns heap junk p cwd dirout fuel)
    (own : Ext2Directory heap junk p dirout ino path) (given : path ≠ []) (member : e ∈ ext2Entries heap junk p ino)
    (leads : PathTo cwd host path place)
    (free : ∀ a ∈ (ext2Item heap junk p e).toList.map Prod.fst, ∀ more, host (place ++ a :: more) = none) :
    (unpackEntry heap junk p cwd (unpackDirentTree heap junk p cwd fuel) path e host).map Prod.fst =
      runSteps (treeWalk (unpackDirent heap junk (imageCalls heap junk p) p) fuel) [entryStep (imageCalls heap junk p) e] := by
  cases entryKind heap junk p cwd e with
  | file item body step =>
    have ready := itemReady plain own member free item
    rw [body, step, runSteps_leaf, ready.text, Option.map_some, unpackFilePath_passes leads given ready.plain (ready.free [])]
  | sub item body step =>
    have ready := itemReady plain own member free item
    have returned := entered e.ino path place e.name host (own.sub ready.listed)
      ((plain ino path own).below _ _ ready.listed) given ready.plain leads ready.free
    rw [body, step, runSteps_into, ready.text, returned]
  | link item body step =>
    have ready := itemReady plain own member free item
    rw [body, step, runSteps_leaf, ready.text, Option.map_some,
      unpackSymlinkPath_passes leads given ready.plain (ready.free [])]
  | skip passes item body step => rw [body, step, runSteps_leaf, Option.map_some]

theorem unpackEntries_returns {fuel ino : Nat} {ends : Bool} (entered : SubdirectoryReturns heap junk p cwd dirout fuel)
    (own : Ext2Directory heap junk p dirout ino path) (given : path ≠ []) {l : List Ext2Entry}
    (part : ∀ e ∈ l, e ∈ ext2Entries heap junk p ino) (names : ((l.filterMap (ext2Item heap junk p)).map Prod.fst).Nodup)
    (leads : PathTo cwd host path place)
    (free : ∀ a ∈ (l.filterMap (ext2Item heap junk p)).map Prod.fst, ∀ more, host (place ++ a :: more) = none) :
    (unpackEntries heap junk p cwd (unpackDirentTree heap junk p cwd fuel) path ends l host).map Prod.fst =
      runSteps (treeWalk (unpackDirent heap junk (imageCalls heap junk p) p) fuel)
        (entrySteps (imageCalls heap junk p) l ends) := by
  induction l generalizing host with
  | nil =>
    cases ends with
    | true => rfl
    | false => rfl
  | cons e rest ih =>
    rw [filterMap_toList, List.map_append, List.nodup_append] at names
    rw [filterMap_toList, List.map_append] at free
    have first := List.forall_mem_cons.mp part
    have ownFree := fun a member => free a (List.mem_append_left _ member)
    have returned := unpackEntry_returns plain entered own given first.1 leads ownFree
    have steps : entrySteps (imageCalls heap junk p) (e :: rest) ends =
        entryStep (imageCalls heap junk p) e :: entrySteps (imageCalls heap junk p) rest ends := rfl
    rw [steps, runSteps_cons, ← returned, unpackEntries]
    cases entry : unpackEntry heap junk p cwd (unpackDirentTree heap junk p cwd fuel) path e host with
    | none => rfl
    | some result =>
      cases result with
      | mk passed next =>
        cases passed with
        | false => rfl
        | true =>
          have made := unpackEntry_builds plain (subdirectoryBuilt plain fuel) own given first.1 leads ownFree entry
          have goesOn := made.goesOn leads names.2.2 ownFree fun a member => free a (List.mem_append_right _ member)
          exact ih first.2 names.2.1 goesOn.1 goesOn.2

theorem subdirectoryReturns (fuel : Nat) : SubdirectoryReturns heap junk p cwd dirout fuel := by
  induction fuel with
  | zero =>
    intro child path place name host _ _ _ _ _ _
    rfl
  | succ fuel ih =>
    intro child path place name host own notRoot given named leads free
    rw [unpackDirentTree, treeWalk, unpackDirent]
    cases init : direntIteratorInit heap p child with
    | error _ => rfl
    | ok it =>
      have entries : ext2Entries heap junk p child =
          (unpackDirentEntries (direntMemory junk it) it.direntSize it.direntSize 0).1 := by rw [ext2Entries, init]
      have made : (imageCalls heap junk p).mkdir child = true := rfl
      dsimp only
      rw [if_neg notRoot, if_pos notRoot, mkdirPath_fresh leads given named (free []), if_neg (Ne.symm Bool.false_ne_true),
        unpackDirentSteps_entries, runSteps, made, if_pos rfl, ← entries]
      have there : Function.update host (place ++ [name]) (some .dir) (place ++ [name]) = some .dir := Function.update_self ..
      have within := (leads.extends (Host.Extends.update (free []) (some .dir))).child given named there
      have filled : path ++ 0x2f#8 :: name ≠ [] := List.append_ne_nil_of_right_ne_nil _ (List.cons_ne_nil _ _)
      exact unpackEntries_returns plain ih own filled (fun e member => member) (plain child _ own).names within
        (fun a _ => sub_free free .dir a)

section Whole

variable (filled : dirout ≠ []) (leads : PathTo cwd host dirout place) (free : FreeBelow host place)
include filled leads free

theorem ext2Unpack_returns (fuel : Nat) : (ext2Unpack heap junk p cwd fuel dirout host).map Prod.fst =
    treeWalk (unpackDirent heap junk (imageCalls heap junk p) p) fuel EXT2_ROOT_INO := by
  cases fuel with
  | zero => rfl
  | succ fuel =>
    rw [ext2Unpack, unpackDirentTree, treeWalk, unpackDirent]
    cases init : direntIteratorInit heap p EXT2_ROOT_INO with
    | error _ => rfl
    | ok it =>
      have entries : ext2Entries heap junk p EXT2_ROOT_INO =
          (unpackDirentEntries (direntMemory junk it) it.direntSize it.direntSize 0).1 := by rw [ext2Entries, init]
      have top : Ext2Directory heap junk p dirout EXT2_ROOT_INO dirout := .root
      dsimp only
      rw [if_pos rfl, if_neg (Ne.symm Bool.false_ne_true), if_neg (not_not_intro rfl), unpackDirentSteps_entries, ← entries]
      exact unpackEntries_returns plain (subdirectoryReturns plain fuel) top filled (fun e member => member)
        (plain _ _ top).names leads fun a _ => free a

theorem ext2Unpack_made {fuel : Nat} (ran : ext2Unpack heap junk p cwd fuel dirout host = some (true, between)) :
    TreeMade (ext2Items heap junk p) EXT2_ROOT_INO place host between := by
  cases fuel with
  | zero => cases ran
  | succ fuel =>
    rw [ext2Unpack, unpackDirentTree] at ran
    cases init : direntIteratorInit heap p EXT2_ROOT_INO with
    | error _ =>
      rw [init] at ran
      exact absurd (Prod.mk.inj (Option.some.inj ran)).1 Bool.false_ne_true
    | ok it =>
      rw [init] at ran
      dsimp only at ran
      rw [if_pos rfl, if_neg (Ne.symm Bool.false_ne_true)] at ran
      have built := unpackDirentTree_builds plain (subdirectoryBuilt plain fuel) .root filled leads free init ran
      exact buildTree_made (ext2_namesApart plain) ⟨dirout, .root⟩ free built

end Whole

end Refinement

/-- An image whose root directory has an empty file `a` and a link `l` to it. -/
def fileAndLinkImage : File :=
  let f := File.empty.writeAt 5248 (leBytes 2 0x41ed ++ leBytes 2 0 ++ leBytes 4 1024)
  let f := f.writeAt (5248 + 40) [6]
  let f := f.writeAt 5376 (leBytes 2 0x81a4)
  let f := f.writeAt 5504 (leBytes 2 0xa1ff ++ leBytes 2 0 ++ leBytes 4 1)
  let f := f.writeAt (5504 + 40) [0x61]
  let f := f.writeAt 6144 (leBytes 4 3 ++ leBytes 2 12 ++ [1, 1, 0x61])
  let f := f.writeAt 6156 (leBytes 4 4 ++ leBytes 2 1012 ++ [1, 7, 0x6c])
  f.writeAt 8191 [0]

def fileAndLinkEditor : Ext2Editor := ⟨⟨fileAndLinkImage, 0, 0⟩, 1024, 128, 1, 16, [5]⟩

def emptyDirectoryHost : FileHost := fun place => if place = [[0x6f#8]] then some .dir else none

theorem fileAndLink_entries : ext2Entries (fun _ _ => 0#8) (fun _ => 0#8) fileAndLinkEditor EXT2_ROOT_INO =
    [⟨1, 3, [0x61#8]⟩, ⟨7, 4, [0x6c#8]⟩] := by decide +kernel

theorem fileAndLink_ran : (ext2Unpack (fun _ _ => 0#8) (fun _ => 0#8) fileAndLinkEditor [] 1 [0x6f#8] emptyDirectoryHost).map
    Prod.fst = some true := by decide +kernel

theorem fileAndLink_items : ∃ file link, ext2Items (fun _ _ => 0#8) (fun _ => 0#8) fileAndLinkEditor EXT2_ROOT_INO =
    [([0x61#8], .leaf file), ([0x6c#8], .leaf link)] := by
  rw [ext2Items, fileAndLink_entries]
  exact ⟨_, _, rfl⟩

theorem fileAndLink_directories {ino : Nat} {path : List Byte}
    (directory : Ext2Directory (fun _ _ => 0#8) (fun _ => 0#8) fileAndLinkEditor [0x6f#8] ino path) :
    ino = EXT2_ROOT_INO ∧ path = [0x6f#8] := by
  induction directory with
  | root => exact ⟨rfl, rfl⟩
  | sub parent entry ih =>
    obtain ⟨file, link, items⟩ := fileAndLink_items
    rw [ih.1, items, List.mem_cons, List.mem_singleton] at entry
    cases entry with
    | inl first => cases first
    | inr second => cases second

theorem fileAndLink_plain (ino : Nat) (path : List Byte)
    (directory : Ext2Directory (fun _ _ => 0#8) (fun _ => 0#8) fileAndLinkEditor [0x6f#8] ino path) :
    PlainDirectory (fun _ _ => 0#8) (fun _ => 0#8) fileAndLinkEditor ino path := by
  obtain ⟨file, link, items⟩ := fileAndLink_items
  obtain ⟨root, top⟩ := fileAndLink_directories directory
  rw [root, top]
  exact {
    names := by
      rw [items]
      exact (by decide : [[0x61#8], [0x6c#8]].Nodup)
    plain := by
      have first : PlainFileName [0x61#8] := ⟨by decide, by decide, by decide, by decide⟩
      have second : PlainFileName [0x6c#8] := ⟨by decide, by decide, by decide, by decide⟩
      rw [items, List.forall_mem_cons, List.forall_mem_singleton]
      exact ⟨first, second⟩
    room := by
      have short : 1 + 1 + 1 < CHILD_NAME_SIZE := by decide
      rw [items, List.forall_mem_cons, List.forall_mem_singleton]
      exact ⟨short, short⟩
    below := by
      intro name child member
      rw [items, List.mem_cons, List.mem_singleton] at member
      cases member with
      | inl first => cases first
      | inr second => cases second }

end ImgEditor
