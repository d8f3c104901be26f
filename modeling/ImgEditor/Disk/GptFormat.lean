import ImgEditor.Core.Crc32

namespace ImgEditor

open Storage

/-- The GUID bytes as they are stored. -/
structure EfiGuid where
  b : Vector Byte 16
deriving DecidableEq

def EfiGuid.zero : EfiGuid := ⟨Vector.replicate 16 0⟩

def EfiGuid.encode (guid : EfiGuid) : List Byte := guid.b.toList

def EfiGuid.decode (bytes : List Byte) : EfiGuid := ⟨Vector.ofFn fun i => bytes.getD i 0⟩

@[simp] theorem EfiGuid.encode_length (guid : EfiGuid) : guid.encode.length = 16 := by
  simp [EfiGuid.encode]

structure GptHeader where
  signature : BitVec 64
  revision : BitVec 32
  headerSize : BitVec 32
  headerCrc32 : BitVec 32
  reserved1 : BitVec 32
  myLba : BitVec 64
  alternateLba : BitVec 64
  firstUsableLba : BitVec 64
  lastUsableLba : BitVec 64
  diskGuid : EfiGuid
  partitionEntryLba : BitVec 64
  numPartitionEntries : BitVec 32
  sizeofPartitionEntry : BitVec 32
  partitionEntryArrayCrc32 : BitVec 32
deriving DecidableEq

def GptHeader.encode (h : GptHeader) : List Byte :=
  leBytes 8 h.signature.toNat ++ (leBytes 4 h.revision.toNat ++ (leBytes 4 h.headerSize.toNat ++
    (leBytes 4 h.headerCrc32.toNat ++ (leBytes 4 h.reserved1.toNat ++ (leBytes 8 h.myLba.toNat ++
      (leBytes 8 h.alternateLba.toNat ++ (leBytes 8 h.firstUsableLba.toNat ++
        (leBytes 8 h.lastUsableLba.toNat ++ (h.diskGuid.encode ++ (leBytes 8 h.partitionEntryLba.toNat ++
          (leBytes 4 h.numPartitionEntries.toNat ++ (leBytes 4 h.sizeofPartitionEntry.toNat ++
            leBytes 4 h.partitionEntryArrayCrc32.toNat))))))))))))

def GptHeader.decode (bytes : List Byte) : GptHeader where
  signature := BitVec.ofNat 64 (leField bytes 0 8)
  revision := BitVec.ofNat 32 (leField bytes 8 4)
  headerSize := BitVec.ofNat 32 (leField bytes 12 4)
  headerCrc32 := BitVec.ofNat 32 (leField bytes 16 4)
  reserved1 := BitVec.ofNat 32 (leField bytes 20 4)
  myLba := BitVec.ofNat 64 (leField bytes 24 8)
  alternateLba := BitVec.ofNat 64 (leField bytes 32 8)
  firstUsableLba := BitVec.ofNat 64 (leField bytes 40 8)
  lastUsableLba := BitVec.ofNat 64 (leField bytes 48 8)
  diskGuid := EfiGuid.decode (bytes.drop 56)
  partitionEntryLba := BitVec.ofNat 64 (leField bytes 72 8)
  numPartitionEntries := BitVec.ofNat 32 (leField bytes 80 4)
  sizeofPartitionEntry := BitVec.ofNat 32 (leField bytes 84 4)
  partitionEntryArrayCrc32 := BitVec.ofNat 32 (leField bytes 88 4)

def GptHeader.zero : GptHeader := GptHeader.decode []

@[simp] theorem GptHeader.encode_length (h : GptHeader) : h.encode.length = 92 := by
  simp [GptHeader.encode]

@[simp] theorem EfiGuid.decode_encode (guid : EfiGuid) (more : List Byte) :
    EfiGuid.decode (guid.encode ++ more) = guid := by
  obtain ⟨b⟩ := guid
  simp only [EfiGuid.decode, EfiGuid.encode, EfiGuid.mk.injEq]
  ext i inside
  simp [List.getD_eq_getElem?_getD, List.getElem?_append_left]

theorem EfiGuid.encode_drop_beyond (guid : EfiGuid) {skip : Nat} (beyond : 16 ≤ skip) :
    guid.encode.drop skip = [] :=
  List.drop_eq_nil_of_le (by simpa using beyond)

theorem leBytes_drop_beyond {width skip : Nat} (n : Nat) (beyond : width ≤ skip) :
    (leBytes width n).drop skip = [] :=
  List.drop_eq_nil_of_le (by simpa using beyond)

theorem GptHeader.decode_encode (h : GptHeader) : GptHeader.decode h.encode = h := by
  have word (x : BitVec 32) : BitVec.ofNat 32 (x.toNat % 4294967296) = x := by
    rw [Nat.mod_eq_of_lt x.isLt, BitVec.ofNat_toNat, BitVec.setWidth_eq]
  have long (x : BitVec 64) : BitVec.ofNat 64 (x.toNat % 18446744073709551616) = x := by
    rw [Nat.mod_eq_of_lt x.isLt, BitVec.ofNat_toNat, BitVec.setWidth_eq]
  have guid : EfiGuid.decode (h.encode.drop 56) = h.diskGuid := by
    simp [encode, List.drop_append, leBytes_drop_beyond]
  simp only [decode, guid]
  simp [encode, word, long]

abbrev PartitionName := Vector (BitVec 16) 36

structure GptEntry where
  partitionTypeGuid : EfiGuid
  uniquePartitionGuid : EfiGuid
  startingLba : BitVec 64
  endingLba : BitVec 64
  attributes : BitVec 64
  partitionName : PartitionName
deriving DecidableEq

def encodeUnits (units : List (BitVec 16)) : List Byte := units.flatMap fun unit => leBytes 2 unit.toNat

def GptEntry.encode (e : GptEntry) : List Byte :=
  e.partitionTypeGuid.encode ++ (e.uniquePartitionGuid.encode ++ (leBytes 8 e.startingLba.toNat ++
    (leBytes 8 e.endingLba.toNat ++ (leBytes 8 e.attributes.toNat ++ encodeUnits e.partitionName.toList))))

def GptEntry.decode (bytes : List Byte) : GptEntry where
  partitionTypeGuid := EfiGuid.decode bytes
  uniquePartitionGuid := EfiGuid.decode (bytes.drop 16)
  startingLba := BitVec.ofNat 64 (leField bytes 32 8)
  endingLba := BitVec.ofNat 64 (leField bytes 40 8)
  attributes := BitVec.ofNat 64 (leField bytes 48 8)
  partitionName := Vector.ofFn fun i => BitVec.ofNat 16 (leField (bytes.drop 56) (2 * i) 2)

def GptEntry.zero : GptEntry := ⟨.zero, .zero, 0, 0, 0, Vector.replicate 36 0⟩

@[simp] theorem encodeUnits_length (units : List (BitVec 16)) : (encodeUnits units).length = 2 * units.length := by
  induction units with
  | nil => rfl
  | cons unit rest ih =>
    simp only [encodeUnits, List.flatMap_cons, List.length_append, leBytes_length, List.length_cons] at ih ⊢
    omega

theorem leField_encodeUnits (units : List (BitVec 16)) (i : Nat) (inside : i < units.length) :
    BitVec.ofNat 16 (leField (encodeUnits units) (2 * i) 2) = units[i] := by
  induction units generalizing i with
  | nil => exact absurd inside (Nat.not_lt_zero i)
  | cons unit rest ih =>
    have shape : encodeUnits (unit :: rest) = leBytes 2 unit.toNat ++ encodeUnits rest := rfl
    rw [shape]
    cases i with
    | zero =>
      rw [Nat.mul_zero, leField_append_left _ _ 0 2 (by simp), leField_leBytes]
      have bound : unit.toNat < 256 ^ 2 := unit.isLt
      rw [Nat.mod_eq_of_lt bound, BitVec.ofNat_toNat, BitVec.setWidth_eq]
      rfl
    | succ i =>
      rw [leField_append_right _ _ _ 2 (by simp), leBytes_length, Nat.mul_succ, Nat.add_sub_cancel]
      exact ih i (by simpa using inside)

@[simp] theorem GptEntry.encode_length (e : GptEntry) : e.encode.length = 128 := by
  simp [encode]

theorem GptEntry.decode_encode (e : GptEntry) : GptEntry.decode e.encode = e := by
  have long (x : BitVec 64) : BitVec.ofNat 64 (x.toNat % 18446744073709551616) = x := by
    rw [Nat.mod_eq_of_lt x.isLt, BitVec.ofNat_toNat, BitVec.setWidth_eq]
  have rest : e.encode.drop 16 = e.uniquePartitionGuid.encode ++ (leBytes 8 e.startingLba.toNat ++
      (leBytes 8 e.endingLba.toNat ++ (leBytes 8 e.attributes.toNat ++ encodeUnits e.partitionName.toList))) := by
    simp [encode]
  have name : e.encode.drop 56 = encodeUnits e.partitionName.toList := by
    simp [encode, List.drop_append, leBytes_drop_beyond, EfiGuid.encode_drop_beyond]
  have units : (Vector.ofFn fun i : Fin 36 =>
      BitVec.ofNat 16 (leField (encodeUnits e.partitionName.toList) (2 * i) 2)) = e.partitionName := by
    ext1 i inside
    rw [Vector.getElem_ofFn, leField_encodeUnits _ i (by simpa using inside)]
    simp
  simp only [decode, rest, name, units]
  simp [encode, long]

/-- The entry array in memory, which holds packed entries. -/
def encodeEntries (entries : List GptEntry) : List Byte := entries.flatMap GptEntry.encode

def entryAt (memory : List Byte) (i : Nat) : GptEntry := GptEntry.decode ((memory.drop (128 * i)).take 128)

def decodeEntries (count : Nat) (memory : List Byte) : List GptEntry := (List.range count).map (entryAt memory)

@[simp] theorem encodeEntries_length (entries : List GptEntry) :
    (encodeEntries entries).length = 128 * entries.length := by
  induction entries with
  | nil => rfl
  | cons entry rest ih =>
    simp only [encodeEntries, List.flatMap_cons, List.length_append, GptEntry.encode_length,
      List.length_cons] at ih ⊢
    omega

theorem encodeEntries_slice (entries : List GptEntry) (i : Nat) (inside : i < entries.length) :
    ((encodeEntries entries).drop (128 * i)).take 128 = entries[i].encode := by
  induction entries generalizing i with
  | nil => exact absurd inside (Nat.not_lt_zero i)
  | cons entry rest ih =>
    have shape : encodeEntries (entry :: rest) = entry.encode ++ encodeEntries rest := rfl
    rw [shape]
    cases i with
    | zero => simp
    | succ i =>
      rw [List.drop_append, List.drop_eq_nil_of_le (by simp), List.nil_append, GptEntry.encode_length,
        Nat.mul_succ, Nat.add_sub_cancel]
      exact ih i (by simpa using inside)

theorem decodeEntries_encodeEntries (entries : List GptEntry) :
    decodeEntries entries.length (encodeEntries entries) = entries := by
  apply List.ext_getElem
  · simp [decodeEntries]
  · intro i _ inside
    simp [decodeEntries, entryAt, encodeEntries_slice entries i inside, GptEntry.decode_encode]

end ImgEditor
