import ImgEditor.Core.BigEndian
import ImgEditor.Core.CInt
import ImgEditor.Core.Crc32
import ImgEditor.Storage.File

namespace ImgEditor

open Storage

def UBI_EC_HDR_MAGIC : BitVec 32 := 0x55424923
def UBI_CRC32_INIT : BitVec 32 := 0xFFFFFFFF
def UBI_EDITOR_CACHE_PEB_NUMBERS : Nat := 8

def ubiCrc32 (bytes : List Byte) : BitVec 32 :=
  crc32 (UBI_CRC32_INIT ^^^ 0xffffffff) bytes ^^^ 0xffffffff

def ubiEcHdrIsGood (hdr : List Byte) : Bool :=
  decide (be32 hdr 0 = UBI_EC_HDR_MAGIC) && decide (ubiCrc32 (hdr.take 60) = be32 hdr 60)

def ubiPebIsEmpty (peb : List Byte) : Bool := peb.all fun byte => decide (byte = 0xff#8)

def vidLnum (peb : List Byte) : BitVec 32 := be32 peb ((be32 peb 16).toNat + 12)

structure CachePeb where
  hit : Int
  lnum : BitVec 32
  pnum : BitVec 32
  peb : List Byte
deriving DecidableEq, Repr

structure UbiCaches where
  slots : List CachePeb
  full : slots.length = UBI_EDITOR_CACHE_PEB_NUMBERS

/-- The fields of `ubi_editor_private_data` that the PEB reader uses. -/
structure UbiEditor where
  fd : File
  pebSize : Nat
  vidHdrOffset : Nat
  pebSize_int : pebSize < 2^31

namespace UbiCaches

def empty : UbiCaches := ⟨List.replicate UBI_EDITOR_CACHE_PEB_NUMBERS ⟨0, 0, 0, []⟩, rfl⟩

def modify (caches : UbiCaches) (i : Nat) (change : CachePeb → CachePeb) : UbiCaches :=
  ⟨caches.slots.modify i change, by rw [List.length_modify, caches.full]⟩

end UbiCaches

def ubiPebCachesFindByLnum (caches : UbiCaches) (lnum : BitVec 32) : Option CachePeb :=
  caches.slots.find? fun cache => decide (0 < cache.hit ∧ cache.lnum = lnum)

/-- The index of the slot, which the caller changes. -/
def ubiPebCachesFindByPnum (caches : UbiCaches) (pnum : BitVec 32) : Option Nat :=
  caches.slots.findIdx? fun cache => decide (0 < cache.hit ∧ cache.pnum = pnum)

/-- The loop over `arrays[i]` with the least hit number seen so far, which is that of `least`. -/
def minHitLoop (least i : Nat) (hit : Int) : List CachePeb → Nat
  | [] => least
  | cache :: rest =>
    if cache.hit < hit then minHitLoop i (i + 1) cache.hit rest else minHitLoop least (i + 1) hit rest

def ubiPebCachesFindMinHit (caches : UbiCaches) : Nat :=
  match caches.slots with
  | [] => 0
  | cache :: rest => minHitLoop 0 1 cache.hit rest

inductive ReadPebError where
  | failed
  | incomplete
  | ff
  | badEchdr
deriving DecidableEq, Repr

def UbiEditor.pebBytes (p : UbiEditor) (peb : BitVec 32) : List Byte :=
  p.fd.readAt (peb.toNat * p.pebSize) p.pebSize

/-- The caches after the call, and its return code with the bytes it copied to `buf`. -/
def ubiReadPeb (p : UbiEditor) (caches : UbiCaches) (peb : BitVec 32) (bufsz : Nat) :
    UbiCaches × Except ReadPebError (List Byte) :=
  match ubiPebCachesFindByPnum caches peb with
  | some i =>
    let caches := caches.modify i fun cache => { cache with hit := toInt32 (cache.hit + 1) }
    (caches, .ok (((caches.slots[i]?).elim [] CachePeb.peb).take bufsz))
  | none =>
    let i := ubiPebCachesFindMinHit caches
    let bytes := p.pebBytes peb
    let clean := caches.modify i fun cache => { cache with hit := 0, peb := bytes ++ cache.peb.drop bytes.length }
    if bytes.length ≠ p.pebSize then (clean, .error .incomplete)
    else if ubiPebIsEmpty bytes then (clean, .error .ff)
    else if ¬ ubiEcHdrIsGood bytes then (clean, .error .badEchdr)
    else
      (caches.modify i fun _ => ⟨1, be32 bytes (p.vidHdrOffset + 12), peb, bytes⟩, .ok (bytes.take bufsz))

inductive LebRead where
  | found (retPeb : BitVec 32) (buf : List Byte)
  | notFound
  | endless
deriving DecidableEq, Repr

/-- The scan of `ubi_read_leb` from `peb` on. The fuel is one lap over the 32 bit PEB numbers: a scan
that gets around reads the same PEBs again and does not end. -/
def ubiReadLebScan (p : UbiEditor) (lnum : BitVec 32) : Nat → BitVec 32 → UbiCaches → UbiCaches × LebRead
  | 0, _, caches => (caches, .endless)
  | fuel + 1, peb, caches =>
    match ubiReadPeb p caches peb 64 with
    | (caches, .error .failed) => (caches, .notFound)
    | (caches, .error .incomplete) => (caches, .notFound)
    | (caches, .error .ff) => ubiReadLebScan p lnum fuel (peb + 1) caches
    | (caches, .error .badEchdr) => ubiReadLebScan p lnum fuel (peb + 1) caches
    | (caches, .ok _) =>
      match ubiReadPeb p caches peb p.pebSize with
      | (caches, .error _) => (caches, .notFound)
      | (caches, .ok buf) =>
        if vidLnum buf = lnum then (caches, .found peb buf)
        else ubiReadLebScan p lnum fuel (peb + 1) caches

/-- Every caller passes a buffer of `peb_size` bytes. -/
def ubiReadLeb (p : UbiEditor) (caches : UbiCaches) (lnum : BitVec 32) : UbiCaches × LebRead :=
  match ubiPebCachesFindByLnum caches lnum with
  | some cache => (caches, .found cache.pnum (cache.peb.take p.pebSize))
  | none => ubiReadLebScan p lnum (2^32) 2 caches

inductive UbiCall where
  | readPeb (peb : BitVec 32) (bufsz : Nat)
  | readLeb (lnum : BitVec 32)
deriving DecidableEq, Repr

def runCall (p : UbiEditor) (caches : UbiCaches) : UbiCall → UbiCaches
  | .readPeb peb bufsz => (ubiReadPeb p caches peb bufsz).1
  | .readLeb lnum => (ubiReadLeb p caches lnum).1

def runCalls (p : UbiEditor) (calls : List UbiCall) : UbiCaches := calls.foldl (runCall p) .empty

end ImgEditor
