import ImgEditor.Core.Crc32
import ImgEditor.Core.CrcSerial
import Mathlib.Tactic.IntervalCases

namespace ImgEditor

open Storage Crc

variable {w : Nat}

structure LibcrcPrivateData (w : Nat) where
  crcTableGenerated : Bool
  next : BitVec w
  crcTable : Vector (BitVec w) 256
deriving DecidableEq

/-- `struct libcrc32` and `struct libcrc16`, which differ in the width of their words only. -/
structure Libcrc (w : Nat) where
  poly : BitVec w
  seed : BitVec w
  xorResult : BitVec w
  refin : Bool
  refout : Bool
  privateData : LibcrcPrivateData w
deriving DecidableEq

namespace Libcrc

/-- A configuration in zeroed memory, as the predefined ones. -/
def defineLibcrcAlgo (poly seed xorResult : BitVec w) (refin refout : Bool) : Libcrc w :=
  ⟨poly, seed, xorResult, refin, refout, ⟨false, 0, Vector.replicate 256 0⟩⟩

def reverse16 (x : BitVec 16) : BitVec 16 :=
  let x := ((x &&& 0xaaaa) >>> 1) ||| ((x &&& 0x5555) <<< 1)
  let x := ((x &&& 0xcccc) >>> 2) ||| ((x &&& 0x3333) <<< 2)
  let x := ((x &&& 0xf0f0) >>> 4) ||| ((x &&& 0x0f0f) <<< 4)
  ((x &&& 0xff00) >>> 8) ||| ((x &&& 0x00ff) <<< 8)

def libcrcTableBit (poly curByte : BitVec w) : BitVec w :=
  if curByte.msb then (curByte <<< 1) ^^^ poly else curByte <<< 1

def libcrcTableEntry (reverse : BitVec w → BitVec w) (crc : Libcrc w) (i : Nat) : BitVec w :=
  let curByte := if crc.refin then reverse (BitVec.ofNat w i) >>> (w - 8) else BitVec.ofNat w i
  let curByte := (libcrcTableBit crc.poly)^[w] curByte
  if crc.refout then reverse curByte else curByte

def libcrcGenerateTable (reverse : BitVec w → BitVec w) (crc : Libcrc w) : Libcrc w :=
  { crc with privateData.crcTable := Vector.ofFn fun i => libcrcTableEntry reverse crc i }

def libcrcInitSeed (reverse : BitVec w → BitVec w) (crc : Libcrc w) (seed : BitVec w) : Libcrc w :=
  let crc := if crc.privateData.crcTableGenerated then crc
    else libcrcGenerateTable reverse { crc with privateData.crcTableGenerated := true }
  { crc with privateData.next := seed }

def tableIndex (i : BitVec 8) : Fin 256 := i.toFin

@[simp] theorem tableIndex_val (i : BitVec 8) : (tableIndex i).val = i.toNat := rfl

def libcrcUpdateByte (crc : Libcrc w) (next : BitVec w) (data : Byte) : BitVec w :=
  if crc.refout then
    (next >>> 8) ^^^ crc.privateData.crcTable[tableIndex ((next ^^^ data.setWidth w).setWidth 8)]
  else
    (next <<< 8) ^^^ crc.privateData.crcTable[tableIndex (((next >>> (w - 8)) ^^^ data.setWidth w).setWidth 8)]

def libcrcUpdate (crc : Libcrc w) (data : List Byte) : Libcrc w :=
  { crc with privateData.next := data.foldl (libcrcUpdateByte crc) crc.privateData.next }

def libcrcFinish (crc : Libcrc w) : BitVec w :=
  crc.privateData.next ^^^ crc.xorResult

def libcrc32InitSeed (crc : Libcrc 32) (seed : BitVec 32) : Libcrc 32 := libcrcInitSeed reverse32 crc seed
def libcrc32Init (crc : Libcrc 32) : Libcrc 32 := libcrc32InitSeed crc crc.seed
def libcrc32Update (crc : Libcrc 32) (data : List Byte) : Libcrc 32 := libcrcUpdate crc data
def libcrc32Finish (crc : Libcrc 32) : BitVec 32 := libcrcFinish crc

def libcrc16InitSeed (crc : Libcrc 16) (seed : BitVec 16) : Libcrc 16 := libcrcInitSeed reverse16 crc seed
def libcrc16Init (crc : Libcrc 16) : Libcrc 16 := libcrc16InitSeed crc crc.seed
def libcrc16Update (crc : Libcrc 16) (data : List Byte) : Libcrc 16 := libcrcUpdate crc data
def libcrc16Finish (crc : Libcrc 16) : BitVec 16 := libcrcFinish crc

/-- `available_crc32_algos[LIBCRC32_CRC32]` before its first use. -/
def availableCrc32 : Libcrc 32 := defineLibcrcAlgo 0x04C11DB7 0xFFFFFFFF 0xFFFFFFFF true true

/-- The call of `crc32` with the shared configuration as its last caller left it. -/
def crc32Call (algo : Libcrc 32) (crc : BitVec 32) (bytes : List Byte) : BitVec 32 × Libcrc 32 :=
  let algo := libcrc32Update (libcrc32InitSeed algo (crc ^^^ 0xffffffff)) bytes
  (libcrc32Finish algo, algo)

theorem reverse32_eq (x : BitVec 32) : reverse32 x = x.reverse := by
  apply BitVec.eq_of_getLsbD_eq
  intro i inside
  rw [BitVec.getLsbD_reverse, BitVec.getMsbD_eq_getLsbD]
  interval_cases i <;> simp [reverse32]

theorem reverse16_eq (x : BitVec 16) : reverse16 x = x.reverse := by
  apply BitVec.eq_of_getLsbD_eq
  intro i inside
  rw [BitVec.getLsbD_reverse, BitVec.getMsbD_eq_getLsbD]
  interval_cases i <;> simp [reverse16]

theorem libcrcTableBit_eq (poly : BitVec w) : libcrcTableBit poly = shift poly := rfl

def Tabled (reverse : BitVec w → BitVec w) (crc : Libcrc w) : Prop :=
  crc.privateData.crcTable = Vector.ofFn fun i => libcrcTableEntry reverse crc i

def TableReady (reverse : BitVec w → BitVec w) (crc : Libcrc w) : Prop :=
  crc.privateData.crcTableGenerated = true → Tabled reverse crc

section Table

variable {reverse : BitVec w → BitVec w} {crc : Libcrc w}

theorem libcrcInitSeed_fields (reverse : BitVec w → BitVec w) (crc : Libcrc w) (seed : BitVec w) :
    ∃ generated table, libcrcInitSeed reverse crc seed = { crc with privateData := ⟨generated, seed, table⟩ } := by
  unfold libcrcInitSeed
  rcases crc.privateData.crcTableGenerated
  · exact ⟨_, _, rfl⟩
  · exact ⟨_, _, rfl⟩

theorem libcrcInitSeed_tabled (ready : TableReady reverse crc) (seed : BitVec w) :
    Tabled reverse (libcrcInitSeed reverse crc seed) := by
  unfold libcrcInitSeed
  rcases generated : crc.privateData.crcTableGenerated
  · rfl
  · exact ready generated

theorem libcrcUpdate_tabled (tabled : Tabled reverse crc) (data : List Byte) :
    Tabled reverse (libcrcUpdate crc data) := tabled

end Table

theorem libcrcUpdate_append (crc : Libcrc w) (front rest : List Byte) :
    libcrcUpdate (libcrcUpdate crc front) rest = libcrcUpdate crc (front ++ rest) := by
  have same : libcrcUpdateByte (libcrcUpdate crc front) = libcrcUpdateByte crc := rfl
  rw [libcrcUpdate, same]
  simp [libcrcUpdate, List.foldl_append]

theorem libcrcUpdate_pieces (crc : Libcrc w) (pieces : List (List Byte)) :
    pieces.foldl libcrcUpdate crc = libcrcUpdate crc pieces.flatten := by
  induction pieces generalizing crc with
  | nil => rfl
  | cons piece rest ih => rw [List.foldl_cons, ih, libcrcUpdate_append, List.flatten_cons]

theorem reverse_xor (x y : BitVec w) : (x ^^^ y).reverse = x.reverse ^^^ y.reverse := by
  apply BitVec.eq_of_getMsbD_eq
  intro i _
  simp [BitVec.getMsbD_reverse]

theorem reverse_shift (x : BitVec w) (n : Nat) : (x >>> n).reverse = x.reverse <<< n := by
  apply BitVec.eq_of_getMsbD_eq
  intro i _
  simp [BitVec.getMsbD_reverse, Nat.add_comm]

theorem reverse_low_byte (x : BitVec w) (wide : 8 ≤ w) :
    (x.setWidth 8).reverse.setWidth w = x.reverse >>> (w - 8) := by
  apply BitVec.eq_of_getLsbD_eq
  intro i inside
  rw [BitVec.getLsbD_setWidth, BitVec.getLsbD_reverse, BitVec.getLsbD_ushiftRight, BitVec.getLsbD_reverse]
  by_cases low : i < 8
  · rw [BitVec.getMsbD_eq_getLsbD, BitVec.getMsbD_eq_getLsbD, BitVec.getLsbD_setWidth,
      show w - 1 - (w - 8 + i) = 8 - 1 - i by omega]
    simp [inside, low, show w - 8 + i < w by omega]
    omega
  · rw [BitVec.getMsbD_of_ge _ _ (by omega), BitVec.getMsbD_of_ge _ _ (by omega)]
    simp

theorem first_byte {x : BitVec w} {data : Byte} (wide : 8 ≤ w) :
    (((x >>> (w - 8)) ^^^ data.setWidth w).setWidth 8).setWidth w = (x >>> (w - 8)) ^^^ data.setWidth w := by
  apply BitVec.eq_of_getLsbD_eq
  intro i inside
  by_cases low : i < 8
  · simp [inside, low]
  · have clear : data.getLsbD i = false := BitVec.getLsbD_of_ge _ _ (by omega)
    simp [inside, low, clear, BitVec.getLsbD_of_ge x (w - 8 + i) (by omega)]

section Reference

variable {reverse : BitVec w → BitVec w} {crc : Libcrc w}

theorem libcrcTableEntry_plain (wide : 8 ≤ w) (refin : crc.refin = false) (refout : crc.refout = false) (i : BitVec 8) :
    libcrcTableEntry reverse crc i.toNat = (shift crc.poly)^[8] (i.setWidth w <<< (w - 8)) := by
  have index : BitVec.ofNat w i.toNat = i.setWidth w := by simp
  simp only [libcrcTableEntry, refin, refout, Bool.false_eq_true, if_false, index, libcrcTableBit_eq]
  exact shift_index crc.poly i wide

theorem libcrcTableEntry_reflected (reverses : ∀ x, reverse x = x.reverse) (wide : 8 ≤ w) (refin : crc.refin = true)
    (refout : crc.refout = true) (i : BitVec 8) :
    (libcrcTableEntry reverse crc i.toNat).reverse = (shift crc.poly)^[8] (i.reverse.setWidth w <<< (w - 8)) := by
  have index : (BitVec.ofNat w i.toNat).reverse >>> (w - 8) = i.reverse.setWidth w := by
    rw [show BitVec.ofNat w i.toNat = i.setWidth w by simp, ← reverse_low_byte _ wide, BitVec.setWidth_setWidth_of_le _ wide,
      BitVec.setWidth_eq]
  simp only [libcrcTableEntry, refin, refout, if_true, reverses, index, libcrcTableBit_eq, BitVec.reverse_reverse_eq]
  exact shift_index crc.poly i.reverse wide

/-- The register of the reference division that `next` stands for. -/
def libcrcRegister (crc : Libcrc w) (next : BitVec w) : BitVec w :=
  if crc.refout then next.reverse else next

theorem Tabled.get (tabled : Tabled reverse crc) (i : BitVec 8) :
    crc.privateData.crcTable[tableIndex i] = libcrcTableEntry reverse crc i.toNat := by
  rw [tabled]
  simp

theorem libcrcUpdateByte_register (reverses : ∀ x, reverse x = x.reverse) (wide : 8 ≤ w) (tabled : Tabled reverse crc)
    (same : crc.refin = crc.refout) (next : BitVec w) (data : Byte) :
    libcrcRegister crc (libcrcUpdateByte crc next data) =
      serial crc.poly (libcrcRegister crc next) ((if crc.refin then lsbFirst else msbFirst) data) := by
  rcases refout : crc.refout
  · rw [libcrcRegister, libcrcUpdateByte, libcrcRegister, refout, same, refout]
    simp only [Bool.false_eq_true, if_false]
    rw [tabled.get, libcrcTableEntry_plain wide (same.trans refout) refout, serial_byte _ _ _ wide, first_byte wide]
  · rw [libcrcRegister, libcrcUpdateByte, libcrcRegister, refout, same, refout]
    simp only [if_true]
    rw [tabled.get, reverse_xor, libcrcTableEntry_reflected reverses wide (same.trans refout) refout, reverse_shift,
      ← msbFirst_reverse, serial_byte _ _ _ wide, reverse_low_byte _ wide, reverse_xor,
      BitVec.ushiftRight_xor_distrib, ← reverse_low_byte (data.setWidth w) wide, BitVec.setWidth_setWidth_of_le _ wide,
      BitVec.setWidth_eq]

theorem libcrcUpdate_register (reverses : ∀ x, reverse x = x.reverse) (wide : 8 ≤ w) (tabled : Tabled reverse crc)
    (same : crc.refin = crc.refout) (data : List Byte) (next : BitVec w) :
    libcrcRegister crc (data.foldl (libcrcUpdateByte crc) next) =
      serial crc.poly (libcrcRegister crc next) (data.flatMap (if crc.refin then lsbFirst else msbFirst)) := by
  induction data generalizing next with
  | nil => rfl
  | cons byte rest ih =>
    rw [List.foldl_cons, ih, List.flatMap_cons, serial_append, libcrcUpdateByte_register reverses wide tabled same]

theorem libcrcFinish_reference (reverses : ∀ x, reverse x = x.reverse) (wide : 8 ≤ w) (tabled : Tabled reverse crc)
    (same : crc.refin = crc.refout) (data : List Byte) :
    libcrcFinish (libcrcUpdate crc data) =
      reference crc.poly crc.privateData.next crc.xorResult crc.refin crc.refout data := by
  have register := libcrcUpdate_register reverses wide tabled same data crc.privateData.next
  have finish : libcrcFinish (libcrcUpdate crc data) =
      libcrcRegister crc (libcrcRegister crc (data.foldl (libcrcUpdateByte crc) crc.privateData.next)) ^^^ crc.xorResult := by
    rcases refout : crc.refout <;> simp [libcrcRegister, refout, libcrcFinish, libcrcUpdate]
  rw [finish, register]
  rfl

theorem libcrc_pieces (reverses : ∀ x, reverse x = x.reverse) (wide : 8 ≤ w) (ready : TableReady reverse crc)
    (same : crc.refin = crc.refout) (seed : BitVec w) (pieces : List (List Byte)) :
    libcrcFinish (pieces.foldl libcrcUpdate (libcrcInitSeed reverse crc seed)) =
      reference crc.poly seed crc.xorResult crc.refin crc.refout pieces.flatten := by
  have tabled := libcrcInitSeed_tabled ready seed
  obtain ⟨generated, table, fields⟩ := libcrcInitSeed_fields reverse crc seed
  rw [fields] at tabled ⊢
  rw [libcrcUpdate_pieces]
  exact libcrcFinish_reference reverses wide tabled same pieces.flatten

end Reference

theorem defineLibcrcAlgo_ready (reverse : BitVec w → BitVec w) (poly seed xorResult : BitVec w) (refin refout : Bool) :
    TableReady reverse (defineLibcrcAlgo poly seed xorResult refin refout) := fun generated => nomatch generated

/-- What every caller of `crc32` finds: the configuration of `LIBCRC32_CRC32`, used or not. -/
def IsCrc32 (algo : Libcrc 32) : Prop :=
  TableReady reverse32 algo ∧ algo.poly = 0x04C11DB7 ∧ algo.xorResult = 0xffffffff ∧ algo.refin = true ∧
    algo.refout = true

theorem availableCrc32_isCrc32 : IsCrc32 availableCrc32 :=
  ⟨defineLibcrcAlgo_ready reverse32 _ _ _ _ _, rfl, rfl, rfl, rfl⟩

theorem crc32Call_isCrc32 {algo : Libcrc 32} (is : IsCrc32 algo) (crc : BitVec 32) (bytes : List Byte) :
    IsCrc32 (crc32Call algo crc bytes).2 := by
  obtain ⟨ready, poly, xorResult, refin, refout⟩ := is
  have tabled := libcrcUpdate_tabled (libcrcInitSeed_tabled ready (crc ^^^ 0xffffffff)) bytes
  obtain ⟨generated, table, fields⟩ := libcrcInitSeed_fields reverse32 algo (crc ^^^ 0xffffffff)
  refine ⟨fun _ => tabled, ?_⟩
  rw [crc32Call, libcrc32InitSeed, fields]
  exact ⟨poly, xorResult, refin, refout⟩

theorem crc32Call_reference {algo : Libcrc 32} (is : IsCrc32 algo) (crc : BitVec 32) (bytes : List Byte) :
    (crc32Call algo crc bytes).1 = reference 0x04C11DB7 (crc ^^^ 0xffffffff) 0xffffffff true true bytes := by
  obtain ⟨ready, poly, xorResult, refin, refout⟩ := is
  have whole := libcrc_pieces reverse32_eq (by decide) ready (refin.trans refout.symm) (crc ^^^ 0xffffffff) [bytes]
  rw [poly, xorResult, refin, refout] at whole
  simp only [List.flatten_cons, List.flatten_nil, List.append_nil] at whole
  exact whole

theorem reference_append (poly seed xorResult : BitVec w) (refl : Bool) (front rest : List Byte) :
    reference poly (reference poly seed xorResult refl refl front ^^^ xorResult) xorResult refl refl rest =
      reference poly seed xorResult refl refl (front ++ rest) := by
  rcases refl
  · simp [reference, BitVec.xor_assoc, serial_append]
  · simp [reference, BitVec.xor_assoc, serial_append]

theorem msb_mask (x : BitVec 32) : x &&& 0x80000000 ≠ 0 ↔ x.msb = true := by
  rw [show (0x80000000 : BitVec 32) = BitVec.twoPow 32 31 from rfl, BitVec.and_twoPow, BitVec.msb_eq_getLsbD_last]
  rcases x.getLsbD (32 - 1) <;> simp

theorem crcTable_entry {algo : Libcrc 32} (is : IsCrc32 algo) (i : BitVec 8) :
    crcTable i = libcrcTableEntry reverse32 algo i.toNat := by
  obtain ⟨_, poly, _, refin, refout⟩ := is
  have step : (fun curByte : BitVec 32 => if curByte &&& 0x80000000 ≠ 0 then (curByte <<< 1) ^^^ 0x04C11DB7
      else curByte <<< 1) = libcrcTableBit algo.poly := by
    funext curByte
    simp only [libcrcTableBit, poly, msb_mask]
  have index : BitVec.ofNat 32 i.toNat = i.zeroExtend 32 := by simp
  rw [libcrcTableEntry, refin, refout, index, ← step]
  rfl

theorem crc32Call_eq {algo : Libcrc 32} (is : IsCrc32 algo) (crc : BitVec 32) (bytes : List Byte) :
    (crc32Call algo crc bytes).1 = crc32 crc bytes := by
  have tabled := libcrcInitSeed_tabled is.1 (crc ^^^ 0xffffffff)
  have entry := crcTable_entry is
  obtain ⟨ready, poly, xorResult, refin, refout⟩ := is
  obtain ⟨generated, table, fields⟩ := libcrcInitSeed_fields reverse32 algo (crc ^^^ 0xffffffff)
  rw [fields] at tabled
  have update : ∀ (data : List Byte) (next : BitVec 32),
      data.foldl (libcrcUpdateByte { algo with privateData := ⟨generated, crc ^^^ 0xffffffff, table⟩ }) next =
        ImgEditor.libcrc32Update next data := by
    intro data
    induction data with
    | nil => exact fun _ => rfl
    | cons byte rest ih =>
      intro next
      rw [List.foldl_cons, ih, ImgEditor.libcrc32Update, libcrcUpdateByte, if_pos refout, tabled.get, entry]
      rfl
  rw [crc32Call, libcrc32InitSeed, fields, crc32, ← update, ← xorResult]
  rfl

end Libcrc

/-- However the message is split over the calls, `libcrc32` and `libcrc16` give its bit-serial CRC, and a call of
`crc32` goes on from the value of another. -/
theorem libcrc_reference :
    (∀ crc : Libcrc 32, Libcrc.TableReady reverse32 crc → crc.refin = crc.refout → ∀ pieces : List (List Byte),
      Libcrc.libcrc32Finish (pieces.foldl Libcrc.libcrc32Update (Libcrc.libcrc32Init crc)) =
        reference crc.poly crc.seed crc.xorResult crc.refin crc.refout pieces.flatten) ∧
    (∀ crc : Libcrc 16, Libcrc.TableReady Libcrc.reverse16 crc → crc.refin = crc.refout → ∀ pieces : List (List Byte),
      Libcrc.libcrc16Finish (pieces.foldl Libcrc.libcrc16Update (Libcrc.libcrc16Init crc)) =
        reference crc.poly crc.seed crc.xorResult crc.refin crc.refout pieces.flatten) ∧
    (∀ algo : Libcrc 32, Libcrc.IsCrc32 algo → ∀ (c : BitVec 32) (a b : List Byte),
      let first := Libcrc.crc32Call algo c a
      (Libcrc.crc32Call first.2 first.1 b).1 = (Libcrc.crc32Call algo c (a ++ b)).1) := by
  refine ⟨fun crc ready same pieces => ?_, fun crc ready same pieces => ?_, fun algo is c a b => ?_⟩
  · exact Libcrc.libcrc_pieces Libcrc.reverse32_eq (by decide) ready same crc.seed pieces
  · exact Libcrc.libcrc_pieces Libcrc.reverse16_eq (by decide) ready same crc.seed pieces
  · intro first
    have chained := Libcrc.reference_append 0x04C11DB7 (c ^^^ 0xffffffff) 0xffffffff true a b
    rw [Libcrc.crc32Call_reference (Libcrc.crc32Call_isCrc32 is c a), Libcrc.crc32Call_reference is,
      Libcrc.crc32Call_reference is]
    exact chained

theorem libcrc_reference_bytes :
    Libcrc.libcrc32Finish ([[1], [2], [3]].foldl Libcrc.libcrc32Update (Libcrc.libcrc32Init Libcrc.availableCrc32)) =
      0x55BC801D ∧
    Libcrc.libcrc16Finish ([[1], [2], [3]].foldl Libcrc.libcrc16Update
      (Libcrc.libcrc16Init (Libcrc.defineLibcrcAlgo 0x1021 0xffff 0xffff true true))) = 0x9D3B ∧
    let first := Libcrc.crc32Call Libcrc.availableCrc32 0 [1]
    (Libcrc.crc32Call first.2 first.1 [2, 3]).1 = (Libcrc.crc32Call Libcrc.availableCrc32 0 [1, 2, 3]).1 := by
  constructor
  · have whole := libcrc_reference.1 Libcrc.availableCrc32 (Libcrc.defineLibcrcAlgo_ready reverse32 _ _ _ _ _) rfl
      [[1], [2], [3]]
    rw [whole]
    decide +kernel
  constructor
  · have whole := libcrc_reference.2.1 (Libcrc.defineLibcrcAlgo 0x1021 0xffff 0xffff true true)
      (Libcrc.defineLibcrcAlgo_ready Libcrc.reverse16 _ _ _ _ _) rfl [[1], [2], [3]]
    rw [whole]
    decide +kernel
  · exact libcrc_reference.2.2 Libcrc.availableCrc32 Libcrc.availableCrc32_isCrc32 0 [1] [2, 3]

end ImgEditor
