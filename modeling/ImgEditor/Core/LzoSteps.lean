import ImgEditor.Core.Lzo
import ImgEditor.Storage.Checked

namespace ImgEditor

open Storage Storage.Lz77

section Widths

theorem LzoOpt.widths_sum (opt : LzoOpt) (n : Nat) : (opt.widths n).sum = n := by
  cases opt <;> simp only [LzoOpt.widths, List.sum_append, List.sum_replicate_nat] <;> omega

theorem LzoOpt.matchWidths_sum (opt : LzoOpt) (distance n : Nat) : (opt.matchWidths distance n).sum = n := by
  cases opt with
  | unaligned64 =>
    rw [LzoOpt.matchWidths]
    split
    · exact LzoOpt.widths_sum _ n
    · simp
  | unaligned32 =>
    rw [LzoOpt.matchWidths]
    split
    · exact LzoOpt.widths_sum _ n
    · simp
  | bytes => simp [LzoOpt.matchWidths]

theorem LzoOpt.widths_le (opt : LzoOpt) {n distance : Nat} (positive : 0 < distance)
    (wide : opt = .unaligned64 → 8 ≤ distance) (middle : opt = .unaligned32 → 4 ≤ distance) :
    ∀ width ∈ opt.widths n, width ≤ distance := by
  intro width held
  cases opt with
  | unaligned64 =>
    have bound := wide rfl
    simp only [LzoOpt.widths, List.mem_append, List.mem_replicate] at held
    omega
  | unaligned32 =>
    have bound := middle rfl
    simp only [LzoOpt.widths, List.mem_append, List.mem_replicate] at held
    omega
  | bytes =>
    rw [LzoOpt.widths, List.mem_replicate] at held
    omega

/-- No copy of a match reaches past what is already written. -/
theorem LzoOpt.matchWidths_le (opt : LzoOpt) {distance : Nat} (positive : 0 < distance) (n : Nat) :
    ∀ width ∈ opt.matchWidths distance n, width ≤ distance := by
  have single : ∀ width ∈ List.replicate n 1, width ≤ distance := by
    intro width held
    rw [List.mem_replicate] at held
    omega
  cases opt with
  | unaligned64 =>
    rw [LzoOpt.matchWidths]
    split
    · exact LzoOpt.widths_le _ positive (fun _ => ‹_›) LzoOpt.noConfusion
    · exact single
  | unaligned32 =>
    rw [LzoOpt.matchWidths]
    split
    · rename_i wide
      exact LzoOpt.widths_le _ positive LzoOpt.noConfusion (fun _ => wide.2)
    · exact single
  | bytes => exact single

end Widths

@[simp] theorem LzoState.copied_zero (s : LzoState) : s.copied 0 = s := by
  simp [LzoState.copied]

theorem LzoState.copied_add (s : LzoState) (m n : Nat) : (s.copied m).copied n = s.copied (m + n) := by
  simp only [LzoState.copied, List.take_add, List.drop_drop, List.reverse_append, List.append_assoc]

section Copies

variable {cap distance : Nat} {widths : List Nat} {s : LzoState}

theorem copyLiterals_ok (inside : widths.sum ≤ s.ip.length) (room : s.out.length + widths.sum ≤ cap) :
    copyLiterals cap widths s = .ok (s.copied widths.sum) := by
  induction widths generalizing s with
  | nil =>
    rw [List.sum_nil, LzoState.copied_zero]
    rfl
  | cons width widths ih =>
    rw [List.sum_cons] at inside room
    have first : copyLiteral cap s width = .ok (s.copied width) := by
      rw [copyLiteral, if_pos (by omega)]
      rfl
    have rest : copyLiterals cap widths (s.copied width) = .ok ((s.copied width).copied widths.sum) := by
      apply ih
      · simp only [LzoState.copied, List.length_drop]
        omega
      · simp only [LzoState.copied, List.length_append, List.length_take]
        omega
    rw [copyLiterals, List.foldlM_cons, first]
    change copyLiterals cap widths (s.copied width) = _
    rw [rest, List.sum_cons, LzoState.copied_add]

theorem copyMatches_ok (short : ∀ width ∈ widths, width ≤ distance)
    (inside : distance ≤ s.out.length) (room : s.out.length + widths.sum ≤ cap) {out : List Byte}
    (copied : copyBack distance widths.sum s.out = some out) :
    copyMatches cap distance widths s = .ok { s with out := out } := by
  induction widths generalizing s with
  | nil =>
    rw [List.sum_nil, copyBack, Option.some.injEq] at copied
    rw [← copied]
    rfl
  | cons width widths ih =>
    rw [List.sum_cons] at room
    rw [List.sum_cons, copyBack_add] at copied
    obtain ⟨next, first, rest⟩ := Option.bind_eq_some_iff.mp copied
    have grown := copyBack_length first
    have moved : copyMatch cap distance s width = .ok { s with out := next } := by
      rw [copyMatch, if_pos (by omega), copyUnit_eq (short width List.mem_cons_self) inside, first]
      rfl
    rw [copyMatches, List.foldlM_cons, moved]
    apply ih (s := { s with out := next })
    · intro w held
      exact short w (List.mem_cons_of_mem width held)
    · exact Nat.le_trans inside (grown ▸ Nat.le_add_right _ _)
    · change next.length + widths.sum ≤ cap
      omega
    · exact rest

end Copies

section Tests

variable {cap n distance : Nat} {s : LzoState}

theorem needIp_ok (enough : n ≤ s.ip.length) : needIp n s = .ok () := refuseIf_ok_iff.mpr (Nat.not_lt.mpr enough)

theorem needOp_ok (enough : s.out.length + n ≤ cap) : needOp cap n s = .ok () :=
  refuseIf_ok_iff.mpr (by omega)

theorem testLb_ok (positive : 0 < distance) (inside : distance ≤ s.out.length) : testLb distance s = .ok () :=
  refuseIf_ok_iff.mpr (by omega)

end Tests

def LzoStatus.Overrun : LzoStatus → Prop
  | .inputOverrun => True
  | .outputOverrun => True
  | .lookbehindOverrun => True
  | _ => False

/-- A proper end: an overrun with what fits the buffer, or one of the ends that `final` allows. -/
def LzoStop.Within (cap : Nat) (final : LzoStatus → List Byte → Prop) : LzoStop → Prop
  | .fault => False
  | .ret status out => out.length ≤ cap ∧ (status.Overrun ∨ final status out)

/-- What holds at a label between two steps. -/
def LzoReady (cap : Nat) (label : LzoLabel) (s : LzoState) : Prop :=
  s.out.length ≤ cap ∧
  match label with
  | .top => True
  | .firstLiteralRun => 3 ≤ s.ip.length
  | .matching t => 2 ≤ s.ip.length ∧ ∃ b behind, s.behind = b :: behind ∧ t = b.toNat
  | .matchDone => 2 ≤ s.behind.length
  | .matchNext t => 0 < t ∧ t < 4

def lzoRank (label : LzoLabel) (s : LzoState) : Nat :=
  match label with
  | .matchDone => 2 * s.ip.length + 1
  | _ => 2 * s.ip.length

/-- What the input from a label on spells. -/
def LzoFollows (rest : List Byte) (label : LzoLabel) (s : LzoState) (tokens : List (Token Byte)) : Prop :=
  match label with
  | .top => LzoSpells rest .plain s.ip tokens
  | .firstLiteralRun => LzoSpells rest .afterRun s.ip tokens
  | .matching t =>
    ∀ place : LzoPlace, place.TakesCode → 16 ≤ t ∨ place = .afterFew →
      LzoSpells rest place (BitVec.ofNat 8 t :: s.ip) tokens
  | .matchDone => ∀ b, s.behind[1]? = some b → LzoSpells rest (.owes (b.toNat % 4)) s.ip tokens
  | .matchNext t => LzoSpells rest (.owes t) s.ip tokens

/-- A step that spells `piece`, and what it spells is what it writes. -/
def LzoPieces (label : LzoLabel) (s : LzoState) (next : LzoLabel × LzoState) : Prop :=
  ∃ piece : List (Token Byte),
    (∀ tail, expand s.out (piece ++ tail) = expand next.2.out tail) ∧
    ∀ rest tail, LzoFollows rest next.1 next.2 tail → LzoFollows rest label s (piece ++ tail)

def LzoSteps (cap : Nat) (label : LzoLabel) (s : LzoState) (next : LzoLabel × LzoState) : Prop :=
  LzoReady cap next.1 next.2 ∧ lzoRank next.1 next.2 < lzoRank label s ∧ LzoPieces label s next

def lzoEnd (rest : List Byte) : LzoStatus := if rest = [] then .ok else .inputNotConsumed

def LzoFinal (label : LzoLabel) (s : LzoState) (status : LzoStatus) (out : List Byte) : Prop :=
  out = s.out ∧ ∃ rest, status = lzoEnd rest ∧ LzoFollows rest label s []

section Reads

variable {cap n : Nat} {final : LzoStatus → List Byte → Prop} {s : LzoState}

theorem needIp_outcome (room : s.out.length ≤ cap) :
    Outcome (fun _ => n ≤ s.ip.length) (LzoStop.Within cap final) (needIp n s) := by
  apply (Outcome.refuse _).mono
  · intro _ enough
    exact Nat.not_lt.mp enough
  · intro _ bad
    exact bad
  · intro _
    exact ⟨room, Or.inl trivial⟩

theorem needOp_outcome (room : s.out.length ≤ cap) :
    Outcome (fun _ => s.out.length + n ≤ cap) (LzoStop.Within cap final) (needOp cap n s) := by
  apply (Outcome.refuse _).mono
  · intro _ enough
    omega
  · intro _ bad
    exact bad
  · intro _
    exact ⟨room, Or.inl trivial⟩

theorem testLb_outcome {distance : Nat} (room : s.out.length ≤ cap) :
    Outcome (fun _ => 0 < distance ∧ distance ≤ s.out.length) (LzoStop.Within cap final) (testLb distance s) := by
  apply (Outcome.refuse _).mono
  · intro _ inside
    omega
  · intro _ bad
    exact bad
  · intro _
    exact ⟨room, Or.inl trivial⟩

theorem next_cons {b : Byte} {ip : List Byte} (held : s.ip = b :: ip) :
    s.next = .ok (b.toNat, ⟨b :: s.behind, ip, s.out⟩) := by
  rw [LzoState.next, held]
  rfl

/-- What `*ip++` reads and leaves. -/
def LzoRead (s : LzoState) (read : Nat × LzoState) : Prop :=
  ∃ b, read.1 = b.toNat ∧ s.ip = b :: read.2.ip ∧ read.2.behind = b :: s.behind ∧ read.2.out = s.out

theorem next_outcome (held : 1 ≤ s.ip.length) : Outcome (LzoRead s) (LzoStop.Within cap final) s.next := by
  cases read : s.ip with
  | nil =>
    rw [read] at held
    exact absurd held (Nat.not_succ_le_zero 0)
  | cons b ip =>
    rw [next_cons read]
    exact ⟨b, rfl, read, rfl, rfl⟩

/-- What a little-endian offset is read from. -/
def LzoRead16 (s : LzoState) (read : Nat × LzoState) : Prop :=
  ∃ low high : Byte, read.1 = low.toNat + 256 * high.toNat ∧ s.ip = low :: high :: read.2.ip ∧
    read.2.behind = high :: low :: s.behind ∧ read.2.out = s.out

theorem next16_cons {low high : Byte} {ip : List Byte} (held : s.ip = low :: high :: ip) :
    s.next16 = .ok (low.toNat + 256 * high.toNat, ⟨high :: low :: s.behind, ip, s.out⟩) := by
  rw [LzoState.next16, held]
  rfl

theorem next16_outcome (held : 2 ≤ s.ip.length) : Outcome (LzoRead16 s) (LzoStop.Within cap final) s.next16 := by
  obtain ⟨low, ip, front⟩ := List.exists_cons_of_length_pos (Nat.lt_of_succ_lt held)
  rw [front, List.length_cons] at held
  obtain ⟨high, ip', front'⟩ := List.exists_cons_of_length_pos (Nat.lt_of_succ_lt_succ held)
  rw [front'] at front
  rw [next16_cons front]
  exact ⟨low, high, rfl, front, rfl, rfl⟩

end Reads

section Lengths

variable {cap : Nat} {final : LzoStatus → List Byte → Prop} {beyond : LzoStatus}

/-- The zero bytes, what they add up to, and the byte that ends them. -/
def LzoZeros (behind ip : List Byte) (t : Nat) (out : List Byte) (read : Nat × LzoState) : Prop :=
  ∃ k b ip', ip = List.replicate k 0#8 ++ b :: ip' ∧ b ≠ 0#8 ∧ read.1 = t + 255 * k ∧
    read.2.ip = b :: ip' ∧ read.2.out = out ∧ behind.length ≤ read.2.behind.length

theorem lzoZeros_outcome (overrun : beyond.Overrun) {behind ip out : List Byte} {t : Nat} (room : out.length ≤ cap)
    (held : 1 ≤ ip.length) :
    Outcome (LzoZeros behind ip t out) (LzoStop.Within cap final) (lzoZeros beyond out behind ip t) := by
  induction ip generalizing behind t with
  | nil => exact absurd held (Nat.not_succ_le_zero 0)
  | cons b ip ih =>
    rw [lzoZeros]
    split
    · rename_i zero
      apply (Outcome.refuse fun _ => ⟨room, Or.inl overrun⟩).bind
      intro _ _
      apply (Outcome.refuse fun _ => ⟨room, Or.inl trivial⟩).bind
      intro _ more
      apply (ih (Nat.not_lt.mp more)).mono _ fun _ bad => bad
      rintro read ⟨k, c, ip', same, other, total, left, kept, longer⟩
      refine ⟨k + 1, c, ip', ?_, other, ?_, left, kept, Nat.le_of_succ_le longer⟩
      · rw [zero, same]
        rfl
      · omega
    · rename_i other
      exact ⟨0, b, ip, rfl, other, rfl, rfl, rfl, Nat.le_refl _⟩

/-- A length with the bytes behind it: those of the instruction byte `flag + t` and of the length are its spelling. -/
def LzoLengthRead (base need t : Nat) (s : LzoState) (read : Nat × LzoState) : Prop :=
  0 < read.1 ∧ read.2.out = s.out ∧ s.behind.length ≤ read.2.behind.length ∧ need ≤ read.2.ip.length ∧
    ∀ flag, BitVec.ofNat 8 (flag + t) :: s.ip = lzoLengthBytes base flag read.1 ++ read.2.ip

theorem lzoLengthBytes_zeros (base flag k : Nat) {b : Byte} (other : b ≠ 0#8) :
    lzoLengthBytes base flag (255 * k + (base + b.toNat)) = BitVec.ofNat 8 flag :: (List.replicate k 0#8 ++ [b]) := by
  have positive : b.toNat ≠ 0 := fun zero => other (BitVec.eq_of_toNat_eq zero)
  have bound := b.isLt
  have zeros : (255 * k + (base + b.toNat) - base - 1) / 255 = k := by omega
  have last : (255 * k + (base + b.toNat) - base - 1) % 255 + 1 = b.toNat := by omega
  rw [lzoLengthBytes, if_neg (by omega), zeros, last, BitVec.ofNat_toNat, BitVec.setWidth_eq]

theorem lzoLength_outcome (overrun : beyond.Overrun) {base need t : Nat} {s : LzoState} (small : t ≤ base)
    (room : s.out.length ≤ cap) (held : 1 ≤ s.ip.length) (enough : need ≤ s.ip.length) :
    Outcome (LzoLengthRead base need t s) (LzoStop.Within cap final) (lzoLength beyond base need t s) := by
  rw [lzoLength]
  split
  · rename_i zero
    apply (lzoZeros_outcome overrun room held).bind
    rintro ⟨total, s1⟩ ⟨k, b, ip', same, other, summed, left, kept, longer⟩
    apply (next_outcome (left ▸ Nat.succ_pos _)).bind
    rintro ⟨read, s2⟩ ⟨c, value, front, pushed, kept'⟩
    rw [left] at front
    obtain ⟨rfl, rest⟩ := List.cons.inj front
    apply (needIp_outcome (kept'.symm ▸ kept.symm ▸ room)).bind
    intro _ need'
    have total' : total + (base + read) = 255 * k + (base + b.toNat) := by
      simp only at summed value
      omega
    refine ⟨?_, kept'.trans kept, ?_, need', ?_⟩
    · have positive : b.toNat ≠ 0 := fun zero => other (BitVec.eq_of_toNat_eq zero)
      change 0 < total + (base + read)
      omega
    · rw [pushed]
      exact Nat.le_succ_of_le longer
    · intro flag
      change _ = lzoLengthBytes base flag (total + (base + read)) ++ s2.ip
      rw [total', lzoLengthBytes_zeros base flag k other, zero, same, ← rest]
      simp
  · rename_i other
    refine ⟨Nat.pos_of_ne_zero other, rfl, Nat.le_refl _, enough, ?_⟩
    intro flag
    rw [lzoLengthBytes, if_pos small]
    rfl

end Lengths

end ImgEditor
