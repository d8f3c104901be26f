import ImgEditor.Core.Memory
import ImgEditor.Fs.UbiIndex
import ImgEditor.Fs.UbiPeb
import ImgEditor.Storage.Walk

namespace ImgEditor

open Storage

/-! Fields of a `struct ubifs_ch` in the memory from the start of a LEB on, which goes on behind the LEB. -/

def chMagic (m : Memory) (ch : Nat) : Nat := memField m ch 4
def chCrc (m : Memory) (ch : Nat) : Nat := memField m (ch + 4) 4
def chLen (m : Memory) (ch : Nat) : Nat := memField m (ch + 16) 4
def chType (m : Memory) (ch : Nat) : Nat := memField m (ch + 20) 1
def sizeofUbifsCh : Nat := 24

/-- `ch->len - 8` is a `uint32_t`. -/
def chCrcLength (m : Memory) (ch : Nat) : Nat := (chLen m ch + (2^32 - 8)) % 2^32

def chCrcBytes (m : Memory) (ch : Nat) : List Byte := (List.range (chCrcLength m ch)).map fun i => m (ch + 8 + i)

/-- `ubifs_ch_is_good`, which does not know where in the LEB the header is. -/
structure UbifsChIsGood (m : Memory) (lebSize ch : Nat) : Prop where
  magic : chMagic m ch = UBIFS_NODE_MAGIC
  length : chLen m ch + sizeofUbifsCh ≤ lebSize
  crc : BitVec.ofNat 32 (chCrc m ch) = ubiCrc32 (chCrcBytes m ch)

instance (m : Memory) (lebSize ch : Nat) : Decidable (UbifsChIsGood m lebSize ch) :=
  decidable_of_iff (chMagic m ch = UBIFS_NODE_MAGIC ∧ chLen m ch + sizeofUbifsCh ≤ lebSize ∧
      BitVec.ofNat 32 (chCrc m ch) = ubiCrc32 (chCrcBytes m ch))
    ⟨fun all => ⟨all.1, all.2.1, all.2.2⟩, fun good => ⟨good.magic, good.length, good.crc⟩⟩

/-! ## The index nodes that are loaded -/

def idxChildCnt (m : Memory) (node : Nat) : Nat := memField m (node + 24) 2

def idxEnd (m : Memory) (node : Nat) : Nat := node + 28 + 20 * idxChildCnt m node

def memBranchAt (m : Memory) (offset : Nat) : UbiLeafNode where
  selfLnum := BitVec.ofNat 32 (memField m offset 4)
  selfOffs := BitVec.ofNat 32 (memField m (offset + 4) 4)
  key0 := BitVec.ofNat 32 (memField m (offset + 12) 4)
  key1 := BitVec.ofNat 32 (memField m (offset + 16) 4)

/-- `ubi_bptree_load_index_node` after the LEB was read. The check of the header is one of the start of the LEB. -/
def loadIndexNodeAt (m : Memory) (lebSize fanout offs : Nat) : Option IndexNode :=
  if ¬ UbifsChIsGood m lebSize 0 then none
  else if chMagic m offs ≠ UBIFS_NODE_MAGIC ∨ chType m offs ≠ UBIFS_IDX_NODE then none
  else if fanout < idxChildCnt m offs then none
  else some {
    level := BitVec.ofNat 16 (memField m (offs + 26) 2)
    childLeafs := (List.range (idxChildCnt m offs)).map fun i => memBranchAt m (offs + 28 + 20 * i) }

structure IndexNodeAccepted (m : Memory) (lebSize fanout offs : Nat) : Prop where
  leb : UbifsChIsGood m lebSize 0
  magic : chMagic m offs = UBIFS_NODE_MAGIC
  type : chType m offs = UBIFS_IDX_NODE
  childs : idxChildCnt m offs ≤ fanout

theorem loadIndexNodeAt_isSome {m : Memory} {lebSize fanout offs : Nat} :
    (loadIndexNodeAt m lebSize fanout offs).isSome ↔ IndexNodeAccepted m lebSize fanout offs := by
  unfold loadIndexNodeAt
  constructor
  · intro loaded
    split at loaded
    · cases loaded
    split at loaded
    · cases loaded
    split at loaded
    · cases loaded
    rename_i leb node childs
    rcases not_or.mp node with ⟨magic, type⟩
    exact ⟨not_not.mp leb, not_not.mp magic, not_not.mp type, Nat.not_lt.mp childs⟩
  · intro accepted
    rw [if_neg (not_not.mpr accepted.leb),
      if_neg (not_or.mpr ⟨not_not.mpr accepted.magic, not_not.mpr accepted.type⟩), if_neg (Nat.not_lt.mpr accepted.childs)]
    rfl

structure IndexNodeGood (m : Memory) (lebSize offs : Nat) : Prop where
  magic : chMagic m offs = UBIFS_NODE_MAGIC
  type : chType m offs = UBIFS_IDX_NODE
  length : 8 ≤ chLen m offs
  crc : BitVec.ofNat 32 (chCrc m offs) = ubiCrc32 (chCrcBytes m offs)
  node : offs + chLen m offs ≤ lebSize
  branches : idxEnd m offs ≤ lebSize

/-- What is not checked: the CRC of a node that is not the first one of its LEB, and where a node and its branches end. -/
structure IndexNodeFits (m : Memory) (lebSize offs : Nat) : Prop where
  length : 8 ≤ chLen m offs
  crc : offs ≠ 0 → BitVec.ofNat 32 (chCrc m offs) = ubiCrc32 (chCrcBytes m offs)
  node : offs ≠ 0 → offs + chLen m offs ≤ lebSize
  branches : idxEnd m offs ≤ lebSize

theorem IndexNodeAccepted.good_iff {m : Memory} {lebSize fanout offs : Nat}
    (accepted : IndexNodeAccepted m lebSize fanout offs) : IndexNodeGood m lebSize offs ↔ IndexNodeFits m lebSize offs := by
  constructor
  · intro good
    exact ⟨good.length, fun _ => good.crc, fun _ => good.node, good.branches⟩
  · intro fits
    by_cases first : offs = 0
    · rw [first] at fits ⊢
      have length := accepted.leb.length
      refine ⟨accepted.leb.magic, ?_, fits.length, accepted.leb.crc, by omega, fits.branches⟩
      rw [← first]
      exact accepted.type
    · exact ⟨accepted.magic, accepted.type, fits.length, fits.crc first, fits.node first, fits.branches⟩

/-- All index nodes that a LEB gives are good exactly if what is not checked holds of them. -/
theorem loadIndexNode_good_iff (m : Memory) (lebSize fanout : Nat) :
    (∀ offs, (loadIndexNodeAt m lebSize fanout offs).isSome → IndexNodeGood m lebSize offs) ↔
      ∀ offs, (loadIndexNodeAt m lebSize fanout offs).isSome → IndexNodeFits m lebSize offs :=
  forall₂_congr fun _ loaded => (loadIndexNodeAt_isSome.mp loaded).good_iff

/-- A padding node without padding, and at 32 an index node with a CRC of 0. -/
def uncheckedIndexLeb : List Byte :=
  let pad := List.replicate 8 0#8 ++ leBytes 4 28 ++ [5#8] ++ List.replicate 7 0#8
  leBytes 4 UBIFS_NODE_MAGIC ++ leBytes 4 (ubiCrc32 pad).toNat ++ pad ++ List.replicate 4 0#8 ++
    leBytes 4 UBIFS_NODE_MAGIC ++ List.replicate 12 0#8 ++ leBytes 4 28 ++ [9#8] ++ List.replicate 7 0#8

theorem loadIndexNode_unchecked :
    ¬ ∀ offs, (loadIndexNodeAt (bufferMemory (fun _ => 0#8) uncheckedIndexLeb) 64 8 offs).isSome →
      IndexNodeGood (bufferMemory (fun _ => 0#8) uncheckedIndexLeb) 64 offs := by
  intro good
  exact absurd (good 32 (by decide +kernel)).crc (by decide +kernel)

/-! ## The walk over the nodes of a LEB -/

/-- Behind one pass of the loop of `_ubi_do_node`; `printed` tells where the printing succeeds. -/
def doNodeNext (m : Memory) (lebSize : Nat) (printed : Nat → Bool) (node : Nat) : Option Nat :=
  if chMagic m node ≠ UBIFS_NODE_MAGIC then none
  else if ¬ UbifsChIsGood m lebSize node then none
  else if ¬ printed node then none
  else some (node + alignedLength32 (chLen m node) 8)

/-- Byte `i` is read in a pass: the magic, for a right one the length, for a length that is accepted the CRC and the
bytes it is taken of, and of a good node the header. The check in front of the loop reads the same of the first node. -/
def DoNodeReads (m : Memory) (lebSize node i : Nat) : Prop :=
  (node ≤ i ∧ i < node + 4) ∨ chMagic m node = UBIFS_NODE_MAGIC ∧
    ((node + 16 ≤ i ∧ i < node + 20) ∨ chLen m node + sizeofUbifsCh ≤ lebSize ∧
      ((node + 4 ≤ i ∧ i < node + 8) ∨ (node + 8 ≤ i ∧ i < node + 8 + chCrcLength m node) ∨
        UbifsChIsGood m lebSize node ∧ node ≤ i ∧ i < node + sizeofUbifsCh))

structure DoNodeSafe (m : Memory) (lebSize : Nat) (printed : Nat → Bool) : Prop where
  ends : Ends (doNodeNext m lebSize printed) 0
  inside : ∀ node i, Visits (doNodeNext m lebSize printed) 0 node → DoNodeReads m lebSize node i → i < lebSize

/-- What has to hold where the walk comes to: room for a magic, and for a right one for the length; for a length that is
accepted room for the bytes of the CRC; a good node has room for its header and, if it is printed, a length. -/
structure DoNodeFits (m : Memory) (lebSize : Nat) (printed : Nat → Bool) (node : Nat) : Prop where
  magic : node + 4 ≤ lebSize
  length : chMagic m node = UBIFS_NODE_MAGIC → node + 20 ≤ lebSize
  crc : chMagic m node = UBIFS_NODE_MAGIC → chLen m node + sizeofUbifsCh ≤ lebSize →
    node + 8 + chCrcLength m node ≤ lebSize
  header : UbifsChIsGood m lebSize node → node + sizeofUbifsCh ≤ lebSize
  moves : UbifsChIsGood m lebSize node → printed node → alignedLength32 (chLen m node) 8 ≠ 0

section Walk

variable {m : Memory} {lebSize : Nat} {printed : Nat → Bool}

theorem doNodeNext_some {node behind : Nat} :
    doNodeNext m lebSize printed node = some behind ↔
      UbifsChIsGood m lebSize node ∧ printed node = true ∧ behind = node + alignedLength32 (chLen m node) 8 := by
  unfold doNodeNext
  constructor
  · intro more
    split at more
    · cases more
    split at more
    · cases more
    split at more
    · cases more
    rename_i good yes
    exact ⟨not_not.mp good, not_not.mp yes, (Option.some.inj more).symm⟩
  · rintro ⟨good, yes, rfl⟩
    rw [if_neg (not_not.mpr good.magic), if_neg (not_not.mpr good), if_neg (not_not.mpr yes)]

theorem DoNodeFits.inside {node i : Nat} (fits : DoNodeFits m lebSize printed node) (read : DoNodeReads m lebSize node i) :
    i < lebSize := by
  have first := fits.magic
  rcases read with _ | ⟨magic, _ | ⟨short, _ | _ | ⟨good, _⟩⟩⟩
  · omega
  · have room := fits.length magic
    omega
  · have room := fits.length magic
    omega
  · have room := fits.crc magic short
    omega
  · have room := fits.header good
    omega

theorem DoNodeSafe.fits (safe : DoNodeSafe m lebSize printed) {node : Nat}
    (visited : Visits (doNodeNext m lebSize printed) 0 node) : DoNodeFits m lebSize printed node := by
  have inside := fun i => safe.inside node i visited
  have first : node + 3 < lebSize := inside _ (.inl (by omega))
  have length : chMagic m node = UBIFS_NODE_MAGIC → node + 19 < lebSize := fun magic =>
    inside _ (.inr ⟨magic, .inl (by omega)⟩)
  refine ⟨first, length, fun magic short => ?_, fun good => ?_, fun good yes stays => ?_⟩
  · have room := length magic
    by_cases none : chCrcLength m node = 0
    · omega
    · have last := inside (node + 8 + chCrcLength m node - 1) (.inr ⟨magic, .inr ⟨short, .inr (.inl (by omega))⟩⟩)
      omega
  · have last := inside (node + 23) (.inr ⟨good.magic, .inr ⟨good.length, .inr (.inr ⟨good, by unfold sizeofUbifsCh; omega⟩)⟩⟩)
    exact last
  · refine absurd (safe.ends.visited visited) ?_
    apply not_ends (I := fun n => n = node) rfl
    rintro n rfl
    exact ⟨n, doNodeNext_some.mpr ⟨good, yes, by rw [stays]; rfl⟩, rfl⟩

end Walk

theorem doNode_safe_iff (m : Memory) (lebSize : Nat) (printed : Nat → Bool) :
    DoNodeSafe m lebSize printed ↔
      ∀ node, Visits (doNodeNext m lebSize printed) 0 node → DoNodeFits m lebSize printed node := by
  constructor
  · exact fun safe node visited => safe.fits visited
  · intro fits
    refine ⟨?_, fun node i visited read => (fits node visited).inside read⟩
    apply Ends.of_measure (I := Visits (doNodeNext m lebSize printed) 0) (fun node => lebSize - node) .start
    intro node behind visited more
    have later := visited.step more
    rcases doNodeNext_some.mp more with ⟨good, yes, rfl⟩
    have moves := (fits node visited).moves good yes
    have room := (fits node visited).magic
    exact ⟨later, by omega⟩

/-- A magic, and a length of 0. -/
theorem doNode_unsafe : ¬ DoNodeSafe (bufferMemory (fun _ => 0#8) (leBytes 4 UBIFS_NODE_MAGIC)) 126976 (fun _ => true) := by
  intro safe
  have read : DoNodeReads (bufferMemory (fun _ => 0#8) (leBytes 4 UBIFS_NODE_MAGIC)) 126976 0 126976 :=
    .inr ⟨by decide +kernel, .inr ⟨by decide +kernel, .inr (.inl ⟨by decide, by decide +kernel⟩)⟩⟩
  exact absurd (safe.inside 0 126976 .start read) (Nat.lt_irrefl _)

end ImgEditor
