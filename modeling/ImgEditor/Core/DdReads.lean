import ImgEditor.Core.Dd

namespace ImgEditor

open Storage

/-- What the calls of a `dd64` return, pass by pass: read(2) some bytes up to the end of the file, write(2) as many
as it took; an error is a write of none. -/
structure DdCalls where
  readLen : Nat → Nat
  writeLen : Nat → Nat
  readLen_pos : ∀ pass, 0 < readLen pass

/-- The state of `dd64`, with what `bufscan` has been shown and what the destination has got. -/
structure DdSeen (σ : Type) where
  src : Option Fd
  dst : Option Fd
  buffer : Nat → Byte
  copied : Nat
  scan : σ
  scanned : List Byte
  written : List Byte

section Calls

variable {σ : Type} (calls : DdCalls) (bufscan : BufScan σ)

def ddRead (pass szBuster : Nat) : Option Fd → List Byte × Option Fd
  | some fd => ((fd.read (min (calls.readLen pass) szBuster)).1, some (fd.read (min (calls.readLen pass) szBuster)).2)
  | none => (List.replicate szBuster 0#8, none)

def ddWrite (pass : Nat) (bytes : List Byte) : Option Fd → List Byte × Option Fd
  | some fd => (bytes.take (calls.writeLen pass), some (fd.write (bytes.take (calls.writeLen pass))))
  | none => (bytes, none)

/-- The loop of `dd64` with a scan callback from some pass on. -/
def ddCalls : Nat → Nat → Nat → DdSeen σ → DdSeen σ
  | 0, _, _, st => st
  | fuel + 1, pass, sz, st =>
    if sz = 0 then st
    else
      let szBuster := min ddMaxBufsz sz
      let (bytes, src) := ddRead calls pass szBuster st.src
      let lensrc := bytes.length
      if lensrc = 0 then st
      else
        let buffer := fillBuffer st.buffer bytes
        let (buster, scan) := bufscan ((List.range szBuster).map buffer) st.scan
        let buffer := fillBuffer buffer buster
        let (written, dst) := ddWrite calls pass ((List.range lensrc).map buffer) st.dst
        let st : DdSeen σ := ⟨src, dst, buffer, st.copied, scan,
          st.scanned ++ (List.range szBuster).map buffer, st.written ++ written⟩
        if written.length ≠ lensrc then st
        else ddCalls fuel (pass + 1) (sz - lensrc) { st with copied := st.copied + lensrc }

/-- `dd64` with a scan callback, for any results of its calls. -/
def dd64Calls (junk : Nat → Byte) (src dst : Option Fd) (offtSrc offtDst sz : Nat) (private_data : σ) : DdSeen σ :=
  if src.isNone ∧ dst.isNone then ⟨src, dst, junk, 0, private_data, [], []⟩
  else
    ddCalls calls bufscan sz 0 sz
      ⟨src.map (·.fileseek offtSrc), dst.map (·.fileseek offtDst), junk, 0, private_data, [], []⟩

end Calls

/-- The callback is shown what is written, and the count is its length. -/
def DdScanRight {σ : Type} (calls : DdCalls) (bufscan : BufScan σ) (junk : Nat → Byte) (src dst : Option Fd)
    (offtSrc offtDst sz : Nat) (private_data : σ) : Prop :=
  let done := dd64Calls calls bufscan junk src dst offtSrc offtDst sz private_data
  done.scanned = done.written ∧ done.scanned.length = done.copied

/-- The last of `n` bytes that the source has for `sz` is also the last of a buffer, and from some pass on each call
on a file takes as many as it is asked for. -/
def CallsFull (calls : DdCalls) (src dst : Bool) (pass sz n : Nat) : Prop :=
  (n = sz ∨ n % ddMaxBufsz = 0) ∧ ∀ k, k * ddMaxBufsz < n →
    (src → min ddMaxBufsz (sz - k * ddMaxBufsz) ≤ calls.readLen (pass + k)) ∧
      (dst → min ddMaxBufsz (sz - k * ddMaxBufsz) ≤ calls.writeLen (pass + k))

def DdCallsFit (calls : DdCalls) (src dst : Option Fd) (offtSrc sz : Nat) : Prop :=
  CallsFull calls src.isSome dst.isSome 0 sz (ddStream (src.map (·.fileseek offtSrc)) sz).length

theorem callsFull_empty (calls : DdCalls) (src dst : Bool) (pass sz : Nat) : CallsFull calls src dst pass sz 0 :=
  ⟨.inr (Nat.zero_mod _), fun _ more => absurd more (Nat.not_lt_zero _)⟩

theorem callsFull_pass {calls : DdCalls} {src dst : Bool} {pass sz n : Nat} (some : 0 < n) (inside : n ≤ sz) :
    CallsFull calls src dst pass sz n ↔
      min ddMaxBufsz sz ≤ n ∧ (src → min ddMaxBufsz sz ≤ calls.readLen pass) ∧
        (dst → min ddMaxBufsz sz ≤ calls.writeLen pass) ∧
        CallsFull calls src dst (pass + 1) (sz - min ddMaxBufsz sz) (n - min ddMaxBufsz sz) := by
  have ends : min ddMaxBufsz sz ≤ n → (n = sz ∨ n % ddMaxBufsz = 0 ↔
      n - min ddMaxBufsz sz = sz - min ddMaxBufsz sz ∨ (n - min ddMaxBufsz sz) % ddMaxBufsz = 0) := by
    unfold ddMaxBufsz
    omega
  have room : n = sz ∨ n % ddMaxBufsz = 0 → min ddMaxBufsz sz ≤ n := by
    unfold ddMaxBufsz
    omega
  have next (k : Nat) : (k + 1) * ddMaxBufsz = k * ddMaxBufsz + ddMaxBufsz := Nat.succ_mul k ddMaxBufsz
  have left (k : Nat) : k * ddMaxBufsz < n - min ddMaxBufsz sz →
      sz - min ddMaxBufsz sz - k * ddMaxBufsz = sz - (k + 1) * ddMaxBufsz := by
    have more := next k
    omega
  constructor
  · rintro ⟨whole, full⟩
    have first := full 0 (by omega)
    rw [Nat.zero_mul, Nat.sub_zero, Nat.add_zero] at first
    refine ⟨room whole, first.1, first.2, (ends (room whole)).mp whole, fun k more => ?_⟩
    have later := full (k + 1) (by have := next k; omega)
    rwa [left k more, Nat.add_assoc pass 1 k, Nat.add_comm 1 k]
  · rintro ⟨here, read, write, whole, full⟩
    refine ⟨(ends here).mpr whole, fun k more => ?_⟩
    cases k with
    | zero =>
      rw [Nat.zero_mul, Nat.sub_zero, Nat.add_zero]
      exact ⟨read, write⟩
    | succ k =>
      have behind : k * ddMaxBufsz < n - min ddMaxBufsz sz := by
        have more' := next k
        omega
      have later := full k behind
      rwa [left k behind, Nat.add_assoc pass 1 k, Nat.add_comm 1 k] at later

section Runs

variable {σ : Type} {calls : DdCalls} {bufscan : BufScan σ}

theorem ddStream_length (src : Option Fd) {few many : Nat} (le : few ≤ many) :
    (ddStream src few).length = min few (ddStream src many).length := by
  cases src with
  | none =>
    rw [ddStream, ddStream, List.length_replicate, List.length_replicate]
    exact (Nat.min_eq_left le).symm
  | some fd =>
    rw [ddStream, ddStream, File.readAt_length, File.readAt_length]
    omega

theorem ddStream_length_zero (src : Option Fd) {sz : Nat} (zero : sz = 0) : (ddStream src sz).length = 0 :=
  Nat.le_zero.mp ((ddStream_length_le src sz).trans_eq zero)

theorem ddStream_left (src : Option Fd) {few many : Nat} (le : few ≤ many) :
    (ddStream (ddAdvance src (ddStream src few).length) (many - (ddStream src few).length)).length =
      (ddStream src many).length - (ddStream src few).length := by
  have parts := congrArg List.length (ddStream_split src le)
  rw [List.length_append] at parts
  omega

/-- What a pass reads: all that it asks for from `/dev/zero`, and from a file as much as the call returns. -/
theorem ddRead_eq (calls : DdCalls) {pass szBuster : Nat} (src : Option Fd) (small : szBuster ≤ ddMaxBufsz) :
    ∃ count ≤ szBuster, (count = szBuster ↔ (src.isSome → szBuster ≤ calls.readLen pass)) ∧ (0 < szBuster → 0 < count) ∧
      ddRead calls pass szBuster src = (ddStream src count, ddAdvance src (ddStream src count).length) := by
  cases src with
  | none => exact ⟨szBuster, le_rfl, iff_of_true rfl nofun, id, by simp [ddRead, ddStream, ddAdvance]⟩
  | some fd =>
    have positive := calls.readLen_pos pass
    have few : min (calls.readLen pass) szBuster ≤ 0x7ffff000 :=
      Nat.le_trans (Nat.min_le_right _ _) (Nat.le_trans small (by decide))
    refine ⟨min (calls.readLen pass) szBuster, Nat.min_le_right _ _, by simp, by omega, ?_⟩
    rw [ddRead, Fd.read, Nat.min_eq_left few]
    rfl

/-- What a pass writes: all of it to `/dev/null`, and to a file as much as the call takes. -/
theorem ddWrite_eq (calls : DdCalls) (pass : Nat) (bytes : List Byte) (dst : Option Fd) :
    ∃ written, ddWrite calls pass bytes dst = (written, dst.map (·.write written)) ∧ written.length ≤ bytes.length ∧
      (written.length = bytes.length ↔ (dst.isSome → bytes.length ≤ calls.writeLen pass)) ∧
      (written.length = bytes.length → written = bytes) := by
  cases dst with
  | none => exact ⟨bytes, rfl, le_rfl, iff_of_true rfl nofun, fun _ => rfl⟩
  | some fd =>
    refine ⟨bytes.take (calls.writeLen pass), rfl, List.length_take_le' _ _, by simp, fun whole => ?_⟩
    rw [List.length_take] at whole
    exact List.take_of_length_le (by omega)

/-- What a run of the loop shows its callback, writes and counts. -/
structure DdAdds (st done : DdSeen σ) (shown taken : List Byte) (count : Nat) : Prop where
  scanned : done.scanned = st.scanned ++ shown
  written : done.written = st.written ++ taken
  dst : done.dst = st.dst.map (·.write taken)
  copied : done.copied = st.copied + count
  counted : count ≤ taken.length
  larger : taken.length ≤ shown.length

theorem DdAdds.none (st : DdSeen σ) : DdAdds st st [] [] 0 :=
  ⟨by simp, by simp, by simp [Fd.write], rfl, le_rfl, le_rfl⟩

section Adds

variable {st next done : DdSeen σ} {block bytes shown taken : List Byte} {n count : Nat}
  (here : DdAdds st next block bytes n) (behind : DdAdds next done shown taken count)
include here behind

theorem DdAdds.trans : DdAdds st done (block ++ shown) (bytes ++ taken) (n + count) where
  scanned := by rw [behind.scanned, here.scanned, List.append_assoc]
  written := by rw [behind.written, here.written, List.append_assoc]
  dst := by
    rw [behind.dst, here.dst]
    cases st.dst with
    | none => rfl
    | some fd => simp [Fd.write_write]
  copied := by rw [behind.copied, here.copied, Nat.add_assoc]
  counted := by
    rw [List.length_append]
    exact Nat.add_le_add here.counted behind.counted
  larger := by
    rw [List.length_append, List.length_append]
    exact Nat.add_le_add here.larger behind.larger

/-- As a pass never shows less than it writes, nor counts more, a pass that parts the three is never made good. -/
theorem DdAdds.right_iff : block ++ shown = bytes ++ taken ∧ (block ++ shown).length = n + count ↔
    (block = bytes ∧ block.length = n) ∧ shown = taken ∧ shown.length = count := by
  have counted := here.counted
  have counted' := behind.counted
  have larger := here.larger
  have larger' := behind.larger
  constructor
  · intro ⟨same, whole⟩
    have lengths := congrArg List.length same
    rw [List.length_append] at lengths whole
    rw [List.length_append] at lengths
    have both := List.append_inj same (by omega)
    exact ⟨⟨both.1, by omega⟩, both.2, by omega⟩
  · intro ⟨⟨same, whole⟩, same', whole'⟩
    rw [same, same', List.length_append, ← same, ← same', whole, whole']
    exact ⟨rfl, rfl⟩

end Adds

/-- What a run of the loop adds, and when that is the same for all three. -/
def DdCallsRight (calls : DdCalls) (st done : DdSeen σ) (pass sz : Nat) : Prop :=
  ∃ shown taken count, DdAdds st done shown taken count ∧
    (shown = taken ∧ shown.length = count ↔
      CallsFull calls st.src.isSome st.dst.isSome pass sz (ddStream st.src sz).length)

theorem ddCallsRight_none (calls : DdCalls) (st : DdSeen σ) {pass sz : Nat} (none : (ddStream st.src sz).length = 0) :
    DdCallsRight calls st st pass sz := by
  refine ⟨[], [], 0, .none st, ?_⟩
  rw [none]
  exact iff_of_true ⟨rfl, rfl⟩ (callsFull_empty ..)

theorem ddCalls_seen (fuel pass sz : Nat) (st : DdSeen σ) (enough : sz ≤ fuel) :
    DdCallsRight calls st (ddCalls calls bufscan fuel pass sz st) pass sz := by
  induction fuel generalizing pass sz st with
  | zero => exact ddCallsRight_none calls st (ddStream_length_zero st.src (Nat.le_zero.mp enough))
  | succ fuel ih =>
    rw [ddCalls]
    by_cases zero : sz = 0
    · rw [if_pos zero]
      exact ddCallsRight_none calls st (ddStream_length_zero st.src zero)
    · have asked : 0 < min ddMaxBufsz sz := by
        unfold ddMaxBufsz
        omega
      obtain ⟨count, inside, whole, positive, read⟩ := @ddRead_eq calls pass _ st.src (Nat.min_le_left ddMaxBufsz sz)
      have below : count ≤ sz := Nat.le_trans inside (Nat.min_le_right _ _)
      have length := ddStream_length st.src below
      have left := ddStream_left st.src below
      rw [if_neg zero]
      simp only [read]
      by_cases drained : (ddStream st.src count).length = 0
      · have none : (ddStream st.src sz).length = 0 := by
          have more := positive asked
          omega
        rw [if_pos drained]
        exact ddCallsRight_none calls st none
      · rw [if_neg drained]
        generalize fillBuffer (fillBuffer st.buffer (ddStream st.src count))
          (bufscan ((List.range (min ddMaxBufsz sz)).map (fillBuffer st.buffer (ddStream st.src count))) st.scan).1 =
            buffer
        obtain ⟨written, write, short, accepted, all⟩ :=
          ddWrite_eq calls pass ((List.range (ddStream st.src count).length).map buffer) st.dst
        have some : 0 < (ddStream st.src sz).length := by omega
        have step := @callsFull_pass calls st.src.isSome st.dst.isSome pass sz _ some (ddStream_length_le st.src sz)
        rw [List.length_map, List.length_range] at short accepted all
        rw [write]
        by_cases stopped : written.length ≠ (ddStream st.src count).length
        · rw [if_pos stopped]
          refine ⟨_, _, 0, ⟨rfl, rfl, rfl, rfl, Nat.zero_le _, by simp; omega⟩, ?_⟩
          rw [step]
          apply iff_of_false
          · rintro ⟨_, length⟩
            rw [List.length_map, List.length_range] at length
            omega
          · rintro ⟨_, reads, writes, _⟩
            have full := whole.mpr reads
            refine stopped (accepted.mpr fun opened => ?_)
            have wrote := writes opened
            omega
        · rw [if_neg stopped]
          rw [not_not] at stopped
          have here : DdAdds st
              { src := ddAdvance st.src (ddStream st.src count).length
                dst := st.dst.map (·.write written)
                buffer := buffer
                copied := st.copied + (ddStream st.src count).length
                scan := (bufscan ((List.range (min ddMaxBufsz sz)).map
                  (fillBuffer st.buffer (ddStream st.src count))) st.scan).2
                scanned := st.scanned ++ (List.range (min ddMaxBufsz sz)).map buffer
                written := st.written ++ written }
              ((List.range (min ddMaxBufsz sz)).map buffer) written (ddStream st.src count).length :=
            ⟨rfl, rfl, rfl, rfl, stopped.ge, by simp; omega⟩
          obtain ⟨shown, taken, more, behind, right⟩ := ih (pass + 1) (sz - (ddStream st.src count).length) _ (by omega)
          refine ⟨_, _, _, here.trans behind, ?_⟩
          rw [here.right_iff behind, right, step, left]
          simp only [ddAdvance, Option.isSome_map]
          by_cases full : (ddStream st.src count).length = min ddMaxBufsz sz
          · have reads := whole.mp (by omega)
            have writes := accepted.mp stopped
            rw [full] at stopped writes all ⊢
            rw [all stopped, List.length_map, List.length_range]
            exact ⟨fun seen => ⟨by omega, reads, writes, seen.2⟩, fun fit => ⟨⟨rfl, rfl⟩, fit.2.2.2⟩⟩
          · apply iff_of_false
            · rintro ⟨⟨_, length⟩, _⟩
              rw [List.length_map, List.length_range] at length
              exact full length.symm
            · rintro ⟨enough, reads, _⟩
              have asked := whole.mpr reads
              omega

/-- `dd64` shows its callback what it writes, and counts it, for exactly the sources and calls that fit. -/
theorem dd64_scanRight_iff (calls : DdCalls) (bufscan : BufScan σ) (junk : Nat → Byte) (src dst : Option Fd)
    (offtSrc offtDst sz : Nat) (private_data : σ) :
    DdScanRight calls bufscan junk src dst offtSrc offtDst sz private_data ↔ DdCallsFit calls src dst offtSrc sz := by
  rw [DdScanRight, DdCallsFit, dd64Calls]
  by_cases unopened : src.isNone ∧ dst.isNone
  · rw [if_pos unopened]
    have nowhere : src = none ∧ dst = none := by simpa using unopened
    rw [nowhere.1, nowhere.2]
    exact iff_of_true ⟨rfl, rfl⟩ ⟨.inl (by simp [ddStream]), fun _ _ => ⟨nofun, nofun⟩⟩
  · rw [if_neg unopened]
    obtain ⟨shown, taken, count, adds, right⟩ := @ddCalls_seen σ calls bufscan sz 0 sz
      ⟨src.map (·.fileseek offtSrc), dst.map (·.fileseek offtDst), junk, 0, private_data, [], []⟩ le_rfl
    simp only [Option.isSome_map] at right
    rw [adds.scanned, adds.written, adds.copied, List.nil_append, List.nil_append, Nat.zero_add]
    exact right

/-- The file holds one byte of the two asked for, and the callback is also shown what malloc left behind it. -/
theorem dd64_short_source :
    ¬ DdScanRight ⟨fun _ => ddMaxBufsz, fun _ => ddMaxBufsz, fun _ => by decide⟩ (fun bytes (_ : Unit) => (bytes, ()))
      (fun _ => 0xa5#8) (some ⟨File.ofBytes [1#8], 0, 0⟩) (some Fd.created) 0 0 2 () := by
  intro ⟨same, _⟩
  have scanned : [1#8, 0xa5#8] = [1#8] := same
  cases scanned

theorem dd64Calls_dst (calls : DdCalls) (bufscan : BufScan σ) (junk : Nat → Byte) (src dst : Option Fd)
    (offtSrc offtDst sz : Nat) (private_data : σ) (opened : ¬ (src.isNone ∧ dst.isNone)) :
    let done := dd64Calls calls bufscan junk src dst offtSrc offtDst sz private_data
    done.dst = dst.map fun fd => (fd.fileseek offtDst).write done.written := by
  obtain ⟨_, _, _, adds, _⟩ := @ddCalls_seen σ calls bufscan sz 0 sz
    ⟨src.map (·.fileseek offtSrc), dst.map (·.fileseek offtDst), junk, 0, private_data, [], []⟩ le_rfl
  rw [dd64Calls, if_neg opened]
  dsimp only
  rw [adds.dst, adds.written, Option.map_map]
  rfl

/-- Where every call takes what it is asked for, the loop is that of `dd64`. -/
theorem ddCalls_ddLoop (full : ∀ pass, ddMaxBufsz ≤ calls.readLen pass ∧ ddMaxBufsz ≤ calls.writeLen pass)
    (fuel pass sz : Nat) (st : DdSeen σ) :
    let done := ddCalls calls bufscan fuel pass sz st
    (⟨done.src, done.dst, done.buffer, done.copied, done.scan⟩ : DdState σ) =
      ddLoop (some bufscan) fuel sz ⟨st.src, st.dst, st.buffer, st.copied, st.scan⟩ := by
  induction fuel generalizing pass sz st with
  | zero => rfl
  | succ fuel ih =>
    have small := Nat.min_le_left ddMaxBufsz sz
    have reads := (full pass).1
    have writes := (full pass).2
    have read : ddStep (some bufscan) sz ⟨st.src, st.dst, st.buffer, st.copied, st.scan⟩ =
        let (bytes, src) := ddRead calls pass (min ddMaxBufsz sz) st.src
        if bytes.length = 0 then none
        else
          let buffer := fillBuffer st.buffer bytes
          let scanned := bufscan ((List.range (min ddMaxBufsz sz)).map buffer) st.scan
          let buffer := fillBuffer buffer scanned.1
          some (sz - bytes.length, ⟨src, st.dst.map (·.write ((List.range bytes.length).map buffer)), buffer,
            st.copied + bytes.length, scanned.2⟩) := by
      cases source : st.src with
      | none => rfl
      | some fd => simp only [ddStep, ddRead, Nat.min_eq_right (Nat.le_trans small reads)]
    have wide : (ddRead calls pass (min ddMaxBufsz sz) st.src).1.length ≤ ddMaxBufsz := by
      obtain ⟨count, inside, _, _, bytes⟩ := @ddRead_eq calls pass _ st.src small
      rw [bytes]
      exact Nat.le_trans (ddStream_length_le _ _) (by omega)
    have write (bytes : List Byte) (few : bytes.length ≤ ddMaxBufsz) :
        ddWrite calls pass bytes st.dst = (bytes, st.dst.map (·.write bytes)) := by
      cases st.dst with
      | none => rfl
      | some fd => rw [ddWrite, List.take_of_length_le (by omega), Option.map_some]
    by_cases zero : sz = 0
    · rw [ddCalls, ddLoop, if_pos zero, if_pos zero]
    · rw [ddCalls, ddLoop, if_neg zero, if_neg zero, read]
      dsimp only
      by_cases drained : (ddRead calls pass (min ddMaxBufsz sz) st.src).1.length = 0
      · rw [if_pos drained, if_pos drained]
      · rw [if_neg drained, if_neg drained, write _ (by simpa using wide)]
        simp only [List.length_map, List.length_range, ne_eq, not_true_eq_false, ↓reduceIte]
        exact ih ..

theorem dd64Calls_dd64 (full : ∀ pass, ddMaxBufsz ≤ calls.readLen pass ∧ ddMaxBufsz ≤ calls.writeLen pass)
    (junk : Nat → Byte) (src dst : Option Fd) (offtSrc offtDst sz : Nat) (private_data : σ) :
    let done := dd64Calls calls bufscan junk src dst offtSrc offtDst sz private_data
    (⟨done.src, done.dst, done.buffer, done.copied, done.scan⟩ : DdState σ) =
      dd64 junk src dst offtSrc offtDst sz (some bufscan) private_data := by
  rw [dd64Calls, dd64]
  split
  · rfl
  · exact ddCalls_ddLoop full sz 0 sz _

end Runs

end ImgEditor
