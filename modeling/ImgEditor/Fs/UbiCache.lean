import ImgEditor.Fs.UbiPeb

namespace ImgEditor

open Storage

structure Readable (p : UbiEditor) (peb : BitVec 32) (content : List Byte) : Prop where
  bytes : content = p.pebBytes peb
  complete : content.length = p.pebSize
  filled : ubiPebIsEmpty content = false
  good : ubiEcHdrIsGood content = true

def UbiEditor.Complete (p : UbiEditor) (peb : BitVec 32) : Prop := (p.pebBytes peb).length = p.pebSize

def scanPeb (i : Nat) : BitVec 32 := 2 + BitVec.ofNat 32 i

/-- The scan from PEB 2 on meets `content` as the first PEB whose VID header has the LEB number. -/
def FirstCopy (p : UbiEditor) (lnum : BitVec 32) (content : List Byte) : Prop :=
  ∃ i < 2^32, Readable p (scanPeb i) content ∧ vidLnum content = lnum ∧
    ∀ j < i, p.Complete (scanPeb j) ∧ ∀ other, Readable p (scanPeb j) other → vidLnum other ≠ lnum

def scanFlash (p : UbiEditor) (lnum : BitVec 32) : Nat → BitVec 32 → LebRead
  | 0, _ => .endless
  | fuel + 1, peb =>
    let bytes := p.pebBytes peb
    if bytes.length ≠ p.pebSize then .notFound
    else if ubiPebIsEmpty bytes = false ∧ ubiEcHdrIsGood bytes = true ∧ vidLnum bytes = lnum then .found peb bytes
    else scanFlash p lnum fuel (peb + 1)

def LebRead.Same : LebRead → LebRead → Prop
  | .found _ left, .found _ right => left = right
  | .notFound, .notFound => True
  | .endless, .endless => True
  | _, _ => False

theorem LebRead.Same.refl (read : LebRead) : read.Same read := by
  cases read <;> simp [LebRead.Same]

def Cached (p : UbiEditor) (loaded : BitVec 32 → Prop) (caches : UbiCaches) : Prop :=
  ∀ cache ∈ caches.slots, 0 < cache.hit →
    loaded cache.pnum ∧ Readable p cache.pnum cache.peb ∧ cache.lnum = be32 cache.peb (p.vidHdrOffset + 12)

section Caches

variable {p : UbiEditor} {loaded : BitVec 32 → Prop} {caches : UbiCaches}

theorem Cached.empty : Cached p loaded .empty := by
  intro cache member hit
  rw [List.eq_of_mem_replicate member] at hit
  exact absurd hit (by decide)

theorem Cached.modify (cached : Cached p loaded caches) {i : Nat} {change : CachePeb → CachePeb}
    (kept : ∀ cache, caches.slots[i]? = some cache → 0 < (change cache).hit →
      loaded (change cache).pnum ∧ Readable p (change cache).pnum (change cache).peb ∧
        (change cache).lnum = be32 (change cache).peb (p.vidHdrOffset + 12)) :
    Cached p loaded (caches.modify i change) := by
  intro cache member hit
  obtain ⟨k, bound, rfl⟩ := List.getElem_of_mem member
  have inside : k < caches.slots.length := by simpa [UbiCaches.modify] using bound
  simp only [UbiCaches.modify, List.getElem_modify] at hit ⊢
  by_cases here : i = k
  · subst here
    rw [if_pos rfl] at hit ⊢
    exact kept _ (List.getElem?_eq_getElem inside) hit
  · rw [if_neg here] at hit ⊢
    exact cached _ (List.getElem_mem inside) hit

def pebResult (p : UbiEditor) (peb : BitVec 32) (bufsz : Nat) : Except ReadPebError (List Byte) :=
  if (p.pebBytes peb).length ≠ p.pebSize then .error .incomplete
  else if ubiPebIsEmpty (p.pebBytes peb) then .error .ff
  else if ¬ ubiEcHdrIsGood (p.pebBytes peb) then .error .badEchdr
  else .ok ((p.pebBytes peb).take bufsz)

theorem Readable.pebResult {peb : BitVec 32} {content : List Byte} (readable : Readable p peb content)
    (bufsz : Nat) : pebResult p peb bufsz = .ok (content.take bufsz) := by
  obtain ⟨bytes, complete, filled, good⟩ := readable
  rw [bytes] at complete filled good
  simp [ImgEditor.pebResult, complete, filled, good, bytes]

theorem ubiReadPeb_spec (cached : Cached p loaded caches) {peb : BitVec 32} (allowed : loaded peb)
    (bufsz : Nat) :
    Cached p loaded (ubiReadPeb p caches peb bufsz).1 ∧
      (ubiReadPeb p caches peb bufsz).2 = pebResult p peb bufsz := by
  unfold ubiReadPeb
  split
  · rename_i i found
    obtain ⟨bound, named, _⟩ := List.findIdx?_eq_some_iff_getElem.mp found
    simp only [decide_eq_true_eq] at named
    have slot := cached _ (List.getElem_mem bound) named.1
    constructor
    · apply cached.modify
      intro cache here _
      rw [List.getElem?_eq_getElem bound] at here
      obtain rfl := Option.some.inj here
      exact slot
    · rw [named.2] at slot
      rw [slot.2.1.pebResult]
      simp [UbiCaches.modify, bound]
  · have cleared (bytes : List Byte) : Cached p loaded (caches.modify (ubiPebCachesFindMinHit caches)
        fun cache => { cache with hit := 0, peb := bytes ++ cache.peb.drop bytes.length }) :=
      cached.modify fun _ _ hit => absurd hit (lt_irrefl 0)
    unfold pebResult
    by_cases short : (p.pebBytes peb).length ≠ p.pebSize
    · simp only [if_pos short]
      exact ⟨cleared _, trivial⟩
    simp only [if_neg short]
    by_cases blank : ubiPebIsEmpty (p.pebBytes peb) = true
    · simp only [if_pos blank]
      exact ⟨cleared _, trivial⟩
    simp only [if_neg blank]
    by_cases bad : ¬ ubiEcHdrIsGood (p.pebBytes peb) = true
    · simp only [if_pos bad]
      exact ⟨cleared _, trivial⟩
    simp only [if_neg bad]
    refine ⟨cached.modify fun _ _ _ => ⟨allowed, ⟨rfl, ?_, ?_, ?_⟩, rfl⟩, trivial⟩
    · exact not_not.mp short
    · exact eq_false_of_ne_true blank
    · exact not_not.mp bad

def Reached (p : UbiEditor) (peb : BitVec 32) : Prop :=
  ∃ i < 2^32, peb = scanPeb i ∧ ∀ j < i, p.Complete (scanPeb j)

theorem scanPeb_succ (i : Nat) : scanPeb i + 1 = scanPeb (i + 1) := by
  unfold scanPeb
  rw [BitVec.ofNat_add, BitVec.add_assoc]
  rfl

theorem ubiReadLebScan_spec (reached : ∀ peb, Reached p peb → loaded peb) (lnum : BitVec 32) (fuel i : Nat)
    (lap : i + fuel ≤ 2^32) (complete : ∀ j < i, p.Complete (scanPeb j)) (caches : UbiCaches)
    (cached : Cached p loaded caches) :
    Cached p loaded (ubiReadLebScan p lnum fuel (scanPeb i) caches).1 ∧
      (ubiReadLebScan p lnum fuel (scanPeb i) caches).2 = scanFlash p lnum fuel (scanPeb i) := by
  induction fuel generalizing i caches with
  | zero => exact ⟨cached, rfl⟩
  | succ fuel ih =>
    have allowed := reached (scanPeb i) ⟨i, by omega, rfl, complete⟩
    obtain ⟨kept, answer⟩ := ubiReadPeb_spec cached allowed 64
    rcases read : ubiReadPeb p caches (scanPeb i) 64 with ⟨caches', ret⟩
    rw [read] at kept answer
    simp only [pebResult] at kept answer
    simp only [ubiReadLebScan, read, scanFlash]
    by_cases short : (p.pebBytes (scanPeb i)).length ≠ p.pebSize
    · rw [if_pos short] at answer
      subst answer
      rw [if_pos short]
      exact ⟨kept, rfl⟩
    rw [if_neg short] at answer ⊢
    have further : ∀ j < i + 1, p.Complete (scanPeb j) := by
      intro j below
      rcases Nat.lt_succ_iff_lt_or_eq.mp below with below | rfl
      · exact complete j below
      · exact not_not.mp short
    have next := ih (i + 1) (by omega) further
    rw [scanPeb_succ]
    by_cases blank : ubiPebIsEmpty (p.pebBytes (scanPeb i)) = true
    · rw [if_pos blank] at answer
      subst answer
      rw [if_neg (by simp [blank])]
      exact next caches' kept
    rw [if_neg blank] at answer
    by_cases bad : ¬ ubiEcHdrIsGood (p.pebBytes (scanPeb i)) = true
    · rw [if_pos bad] at answer
      subst answer
      rw [if_neg (by simp [bad])]
      exact next caches' kept
    rw [if_neg bad] at answer
    subst answer
    -- the second read finds the PEB that the first one loaded
    obtain ⟨keptAgain, whole⟩ := ubiReadPeb_spec kept allowed p.pebSize
    rcases readAgain : ubiReadPeb p caches' (scanPeb i) p.pebSize with ⟨caches'', ret⟩
    rw [readAgain] at keptAgain whole
    have all : (p.pebBytes (scanPeb i)).take p.pebSize = p.pebBytes (scanPeb i) :=
      List.take_of_length_le (le_of_eq (not_not.mp short))
    simp only [pebResult, if_neg short, if_neg blank, if_neg bad, all] at keptAgain whole
    subst whole
    simp only [readAgain, eq_false_of_ne_true blank, not_not.mp bad, true_and]
    by_cases named : vidLnum (p.pebBytes (scanPeb i)) = lnum
    · rw [if_pos named, if_pos named]
      exact ⟨keptAgain, rfl⟩
    · rw [if_neg named, if_neg named]
      exact next caches'' keptAgain

theorem scanFlash_found {lnum q : BitVec 32} {content : List Byte} (fuel i : Nat)
    (found : scanFlash p lnum fuel (scanPeb i) = .found q content) :
    ∃ k, i ≤ k ∧ k < i + fuel ∧ Readable p (scanPeb k) content ∧ vidLnum content = lnum ∧
      ∀ j, i ≤ j → j < k →
        p.Complete (scanPeb j) ∧ ∀ other, Readable p (scanPeb j) other → vidLnum other ≠ lnum := by
  induction fuel generalizing i with
  | zero => simp [scanFlash] at found
  | succ fuel ih =>
    simp only [scanFlash] at found
    by_cases short : (p.pebBytes (scanPeb i)).length ≠ p.pebSize
    · rw [if_pos short] at found
      exact absurd found (by simp)
    rw [if_neg short] at found
    have complete : p.Complete (scanPeb i) := not_not.mp short
    by_cases here : ubiPebIsEmpty (p.pebBytes (scanPeb i)) = false ∧
        ubiEcHdrIsGood (p.pebBytes (scanPeb i)) = true ∧ vidLnum (p.pebBytes (scanPeb i)) = lnum
    · rw [if_pos here] at found
      obtain ⟨rfl, rfl⟩ := LebRead.found.inj found
      refine ⟨i, le_refl i, by omega, ⟨rfl, complete, here.1, here.2.1⟩, here.2.2, ?_⟩
      intro j least below
      omega
    · rw [if_neg here, scanPeb_succ] at found
      obtain ⟨k, least, bound, readable, named, before⟩ := ih (i + 1) found
      refine ⟨k, by omega, by omega, readable, named, ?_⟩
      intro j least below
      rcases Nat.eq_or_lt_of_le least with rfl | later
      · refine ⟨complete, fun other otherReadable same => here ?_⟩
        rw [← otherReadable.bytes]
        exact ⟨otherReadable.filled, otherReadable.good, same⟩
      · exact before j later below

theorem scanFlash_first {lnum : BitVec 32} {content : List Byte} {k : Nat}
    (readable : Readable p (scanPeb k) content) (named : vidLnum content = lnum) (fuel i : Nat)
    (least : i ≤ k) (bound : k < i + fuel)
    (before : ∀ j, i ≤ j → j < k →
      p.Complete (scanPeb j) ∧ ∀ other, Readable p (scanPeb j) other → vidLnum other ≠ lnum) :
    scanFlash p lnum fuel (scanPeb i) = .found (scanPeb k) content := by
  induction fuel generalizing i with
  | zero => omega
  | succ fuel ih =>
    simp only [scanFlash]
    rcases Nat.eq_or_lt_of_le least with rfl | later
    · obtain ⟨bytes, complete, filled, good⟩ := readable
      rw [bytes] at complete filled good named
      rw [if_neg (not_not.mpr complete), if_pos ⟨filled, good, named⟩, bytes]
    · obtain ⟨complete, others⟩ := before i (le_refl i) later
      have other : ¬ (ubiPebIsEmpty (p.pebBytes (scanPeb i)) = false ∧
          ubiEcHdrIsGood (p.pebBytes (scanPeb i)) = true ∧ vidLnum (p.pebBytes (scanPeb i)) = lnum) :=
        fun here => others _ ⟨rfl, complete, here.1, here.2.1⟩ here.2.2
      have whole : ¬ (p.pebBytes (scanPeb i)).length ≠ p.pebSize := not_not.mpr complete
      rw [if_neg whole, if_neg other, scanPeb_succ]
      exact ih (i + 1) later (by omega) fun j least below => before j (by omega) below

theorem firstCopy_iff (lnum : BitVec 32) (content : List Byte) :
    FirstCopy p lnum content ↔ ∃ q, scanFlash p lnum (2^32) (scanPeb 0) = .found q content := by
  constructor
  · rintro ⟨k, bound, readable, named, before⟩
    exact ⟨scanPeb k, scanFlash_first readable named _ 0 (Nat.zero_le k) (by omega) fun j _ below => before j below⟩
  · rintro ⟨q, found⟩
    obtain ⟨k, _, bound, readable, named, before⟩ := scanFlash_found _ 0 found
    exact ⟨k, by omega, readable, named, fun j below => before j (Nat.zero_le j) below⟩

theorem ubiReadLeb_scan (reached : ∀ peb, Reached p peb → loaded peb) (cached : Cached p loaded caches)
    {lnum : BitVec 32} (absent : ubiPebCachesFindByLnum caches lnum = none) :
    Cached p loaded (ubiReadLeb p caches lnum).1 ∧
      (ubiReadLeb p caches lnum).2 = scanFlash p lnum (2^32) (scanPeb 0) := by
  have start : (2 : BitVec 32) = scanPeb 0 := rfl
  simp only [ubiReadLeb, absent]
  rw [start]
  exact ubiReadLebScan_spec reached lnum _ 0 (by omega) (fun j below => absurd below (Nat.not_lt_zero j)) caches cached

theorem ubiReadLeb_cached {lnum : BitVec 32} {cache : CachePeb} (cached : Cached p loaded caches)
    (found : ubiPebCachesFindByLnum caches lnum = some cache) :
    ubiReadLeb p caches lnum = (caches, .found cache.pnum cache.peb) ∧ loaded cache.pnum ∧
      Readable p cache.pnum cache.peb ∧ be32 cache.peb (p.vidHdrOffset + 12) = lnum := by
  have named := List.find?_some found
  simp only [decide_eq_true_eq] at named
  obtain ⟨allowed, readable, key⟩ := cached cache (List.mem_of_find?_eq_some found) named.1
  refine ⟨?_, allowed, readable, key.symm.trans named.2⟩
  simp only [ubiReadLeb, found]
  rw [List.take_of_length_le (le_of_eq readable.complete)]

theorem ubiReadLeb_empty (lnum : BitVec 32) :
    (ubiReadLeb p .empty lnum).2 = scanFlash p lnum (2^32) (scanPeb 0) := by
  have absent : ubiPebCachesFindByLnum .empty lnum = none := by
    simp [ubiPebCachesFindByLnum, UbiCaches.empty]
  exact (@ubiReadLeb_scan p (fun _ => True) .empty (fun _ _ => trivial) Cached.empty lnum absent).2

theorem runCall_cached (reached : ∀ peb, Reached p peb → loaded peb) (cached : Cached p loaded caches)
    (call : UbiCall) (direct : ∀ peb bufsz, call = .readPeb peb bufsz → loaded peb) :
    Cached p loaded (runCall p caches call) := by
  cases call with
  | readPeb peb bufsz => exact (ubiReadPeb_spec cached (direct peb bufsz rfl) bufsz).1
  | readLeb lnum =>
    simp only [runCall]
    cases search : ubiPebCachesFindByLnum caches lnum with
    | none => exact (ubiReadLeb_scan reached cached search).1
    | some cache =>
      rw [(ubiReadLeb_cached cached search).1]
      exact cached

theorem runCalls_cached (reached : ∀ peb, Reached p peb → loaded peb) (calls : List UbiCall)
    (direct : ∀ peb bufsz, UbiCall.readPeb peb bufsz ∈ calls → loaded peb) (cached : Cached p loaded caches) :
    Cached p loaded (calls.foldl (runCall p) caches) := by
  induction calls generalizing caches with
  | nil => exact cached
  | cons call calls ih =>
    apply ih
    · exact fun peb bufsz member => direct peb bufsz (List.mem_cons_of_mem _ member)
    · apply runCall_cached reached cached
      rintro peb bufsz rfl
      exact direct peb bufsz List.mem_cons_self

end Caches

/-- Where every PEB that a run can load is the first copy of the LEB it is cached under, no later read
of a LEB notices the caches. -/
theorem runCalls_same {p : UbiEditor} {loaded : BitVec 32 → Prop} (calls : List UbiCall)
    (reached : ∀ peb, Reached p peb → loaded peb)
    (direct : ∀ peb bufsz, UbiCall.readPeb peb bufsz ∈ calls → loaded peb)
    (first : ∀ peb content, loaded peb → Readable p peb content →
      FirstCopy p (be32 content (p.vidHdrOffset + 12)) content) (lnum : BitVec 32) :
    (ubiReadLeb p (runCalls p calls) lnum).2.Same (ubiReadLeb p .empty lnum).2 := by
  have cached : Cached p loaded (runCalls p calls) := runCalls_cached reached calls direct Cached.empty
  rw [ubiReadLeb_empty]
  cases search : ubiPebCachesFindByLnum (runCalls p calls) lnum with
  | none =>
    rw [(ubiReadLeb_scan reached cached search).2]
    exact LebRead.Same.refl _
  | some cache =>
    obtain ⟨warm, allowed, readable, named⟩ := ubiReadLeb_cached cached search
    obtain ⟨q, cold⟩ := (firstCopy_iff _ _).mp (first cache.pnum cache.peb allowed readable)
    rw [named] at cold
    rw [warm, cold]
    rfl

theorem ubiReadLeb_afterPeb {p : UbiEditor} {peb : BitVec 32} {content : List Byte}
    (readable : Readable p peb content) (bufsz : Nat) :
    (ubiReadLeb p (runCalls p [.readPeb peb bufsz]) (be32 content (p.vidHdrOffset + 12))).2 =
      .found peb content := by
  have absent : ubiPebCachesFindByPnum .empty peb = none := by
    simp [ubiPebCachesFindByPnum, UbiCaches.empty]
  have slot : ubiPebCachesFindMinHit .empty = 0 := by decide
  obtain ⟨bytes, complete, filled, good⟩ := readable
  rw [bytes] at complete filled good ⊢
  have loaded : (runCalls p [.readPeb peb bufsz]).slots =
      ⟨1, be32 (p.pebBytes peb) (p.vidHdrOffset + 12), peb, p.pebBytes peb⟩ :: UbiCaches.empty.slots.tail := by
    simp [runCalls, runCall, ubiReadPeb, absent, slot, complete, filled, good, UbiCaches.modify]
    rfl
  have found : ubiPebCachesFindByLnum (runCalls p [.readPeb peb bufsz]) (be32 (p.pebBytes peb) (p.vidHdrOffset + 12)) =
      some ⟨1, be32 (p.pebBytes peb) (p.vidHdrOffset + 12), peb, p.pebBytes peb⟩ := by
    rw [ubiPebCachesFindByLnum, loaded, List.find?_cons_of_pos (by simp)]
  simp only [ubiReadLeb, found]
  rw [List.take_of_length_le (le_of_eq complete)]

def Transparent (p : UbiEditor) : Prop :=
  ∀ calls lnum, (ubiReadLeb p (runCalls p calls) lnum).2.Same (ubiReadLeb p .empty lnum).2

def FirstCopies (p : UbiEditor) : Prop :=
  ∀ peb content, Readable p peb content → FirstCopy p (be32 content (p.vidHdrOffset + 12)) content

theorem firstCopies_of_transparent {p : UbiEditor} (transparent : Transparent p) : FirstCopies p := by
  intro peb content readable
  have same := transparent [.readPeb peb 0] (be32 content (p.vidHdrOffset + 12))
  rw [ubiReadLeb_afterPeb readable, ubiReadLeb_empty] at same
  rw [firstCopy_iff]
  cases cold : scanFlash p (be32 content (p.vidHdrOffset + 12)) (2^32) (scanPeb 0) with
  | found q other =>
    rw [cold] at same
    exact ⟨q, by rw [show content = other from same]⟩
  | notFound =>
    rw [cold] at same
    exact same.elim
  | endless =>
    rw [cold] at same
    exact same.elim

/-- The caches are transparent exactly on the flash contents where no readable PEB is cached under a
LEB number for which the scan from PEB 2 on returns other data. -/
theorem ubiReadLeb_transparent_exact (p : UbiEditor) : Transparent p ↔ FirstCopies p := by
  constructor
  · exact firstCopies_of_transparent
  · intro first calls lnum
    exact runCalls_same calls (fun _ _ => trivial) (fun _ _ _ => trivial)
      (fun peb content _ readable => first peb content readable) lnum

/-- An EC header with VID header offset 2048 and data offset 4096. -/
def layoutEcHdr : List Byte :=
  [0x55#8, 0x42#8, 0x49#8, 0x23#8, 1#8] ++ List.replicate 11 0#8 ++ [0#8, 0#8, 8#8, 0#8, 0#8, 0#8, 16#8, 0#8] ++
    List.replicate 36 0#8 ++ [0xdc#8, 0xce#8, 0x7b#8, 0x55#8]

/-- The VID header fields up to the LEB number; PEBs 0 and 1 belong to the layout volume. -/
def layoutVidHdr (peb : Nat) : List Byte :=
  let volId := if peb < 2 then [0x7f#8, 0xff#8, 0xef#8, 0xff#8] else [0#8, 0#8, 0#8, 0#8]
  [0x55#8, 0x42#8, 0x49#8, 0x21#8, 1#8, 1#8, 0#8, 0#8] ++ volId ++
    [0#8, 0#8, 0#8, if peb = 1 then 1#8 else 0#8]

/-- Three PEBs of 128 KiB: the layout volume and LEB 0 of a user volume. -/
def layoutFlash : UbiEditor where
  fd := {
    size := 3 * 131072
    byte := fun i =>
      if 3 * 131072 ≤ i then 0#8
      else if i % 131072 < 64 then layoutEcHdr.getD (i % 131072) 0#8
      else (layoutVidHdr (i / 131072)).getD (i % 131072 - 2048) 0#8
    hole := fun i beyond => if_pos beyond }
  pebSize := 131072
  vidHdrOffset := 2048
  pebSize_int := by decide

theorem layoutFlash_bytes : layoutFlash.pebBytes 0 = layoutFlash.fd.slice 0 131072 :=
  File.readAt_full _ _ _ (by decide)

theorem be32_slice (f : File) {pos count offset : Nat} (inside : offset + 4 ≤ count) :
    be32 (f.slice pos count) offset = be32 (f.slice (pos + offset) 4) 0 := by
  unfold be32
  rw [List.drop_zero, File.slice_drop f pos count offset (by omega), File.slice_take f _ _ 4 (by omega),
    File.slice_take f _ 4 4 (by omega)]

theorem layoutFlash_readable : Readable layoutFlash 0 (layoutFlash.fd.slice 0 131072) := by
  refine ⟨layoutFlash_bytes.symm, by simp [layoutFlash], ?_, ?_⟩
  · have member : layoutFlash.fd.byte 0 ∈ layoutFlash.fd.slice 0 131072 :=
      List.mem_map.mpr ⟨0, List.mem_range.mpr (by omega), rfl⟩
    rw [ubiPebIsEmpty, List.all_eq_false]
    exact ⟨_, member, by decide⟩
  · have magic : be32 (layoutFlash.fd.slice 0 4) 0 = UBI_EC_HDR_MAGIC := by decide +kernel
    have crc : ubiCrc32 (layoutFlash.fd.slice 0 60) = be32 (layoutFlash.fd.slice 60 4) 0 := by decide +kernel
    have magicField : be32 (layoutFlash.fd.slice 0 131072) 0 = be32 (layoutFlash.fd.slice 0 4) 0 :=
      be32_slice _ (by omega)
    have crcField : be32 (layoutFlash.fd.slice 0 131072) 60 = be32 (layoutFlash.fd.slice 60 4) 0 :=
      be32_slice _ (by omega)
    unfold ubiEcHdrIsGood
    rw [magicField, crcField, File.slice_take _ _ _ _ (by omega), magic, crc]
    simp

/-- On a flash whose user volume has a LEB 0, reading PEB 0 makes the next read of LEB 0 return the
layout volume. -/
theorem ubiReadLeb_layoutVolume : ¬ Transparent layoutFlash := by
  intro transparent
  obtain ⟨i, bound, readable, _, before⟩ := firstCopies_of_transparent transparent 0 _ layoutFlash_readable
  have fourth : ¬ layoutFlash.Complete (scanPeb 1) := by
    simp [UbiEditor.Complete, UbiEditor.pebBytes, File.readAt_length, layoutFlash, scanPeb]
  rcases Nat.lt_trichotomy i 1 with zero | rfl | later
  · obtain rfl : i = 0 := by omega
    have same := readable.bytes
    have third : layoutFlash.pebBytes (scanPeb 0) = layoutFlash.fd.slice (2 * 131072) 131072 :=
      File.readAt_full _ _ _ (by decide)
    rw [third] at same
    have volume := File.slice_inj same (i := 2056) (by omega)
    exact absurd volume (by decide +kernel)
  · apply fourth
    rw [UbiEditor.Complete, ← readable.bytes]
    exact readable.complete
  · exact fourth (before 1 later).1

end ImgEditor
