import ImgEditor.Core.LzoComplete

namespace ImgEditor

open Storage Storage.Lz77

section Places

variable {cap n : Nat} {opt : LzoOpt} {bytes tail : List Byte} {label : LzoLabel} {s : LzoState}

theorem LzoAt.not_start (stands : LzoAt .start bytes label s) : False := by
  cases label with
  | top => cases stands.1
  | firstLiteralRun => cases stands.1
  | matching t => exact stands.1
  | matchDone =>
    obtain ⟨c, -, same, -⟩ := stands
    cases same
  | matchNext t => cases stands.1

/-- A run of literals is read at the head of the loop only. -/
theorem LzoAt.run (ready : LzoReady cap label s) (stands : LzoAt .plain (lzoLengthBytes 15 0 n ++ tail) label s) :
    label = .top ∧ s.ip = lzoLengthBytes 15 0 n ++ tail := by
  cases label with
  | top => exact ⟨rfl, stands.2⟩
  | firstLiteralRun => cases stands.1
  | matching t =>
    obtain ⟨-, -, b, behind, -, rfl⟩ := ready
    obtain ⟨-, code, same⟩ := stands
    obtain ⟨u, more, bound, spelled, -⟩ := lzoLengthBytes_cons 15 0 n
    rw [spelled, ofNat_of_eq rfl, List.cons_append] at same
    have value := congrArg BitVec.toNat (List.cons.inj same).1
    rw [ofNat_toNat_lt (show 0 + u < 256 by omega)] at value
    have high := code.resolve_right LzoPlace.noConfusion
    omega
  | matchDone =>
    obtain ⟨c, -, same, -⟩ := stands
    cases same
  | matchNext t => cases stands.1

theorem LzoAt.none (ready : LzoReady cap label s) (stands : LzoAt (.owes 0) bytes label s) :
    s.ip = bytes ∧ LzoLeads cap opt label s .top s := by
  cases label with
  | top => cases stands.1
  | firstLiteralRun => cases stands.1
  | matching t => exact stands.1.elim
  | matchDone =>
    obtain ⟨c, held, same, front⟩ := stands
    have zero : c.toNat % 4 = 0 := (LzoPlace.owes.inj same).symm
    refine ⟨front, .of_step ?_⟩
    rw [lzoStep, held]
    change (if c.toNat % 4 = 0 then _ else _) = _
    rw [if_pos zero]
    rfl
  | matchNext t =>
    obtain ⟨-, positive, -⟩ := ready
    rw [← LzoPlace.owes.inj stands.1] at positive
    exact absurd positive (Nat.lt_irrefl 0)

theorem LzoAt.few (positive : 0 < n) (stands : LzoAt (.owes n) bytes label s) :
    s.ip = bytes ∧ LzoLeads cap opt label s (.matchNext n) s := by
  cases label with
  | top => cases stands.1
  | firstLiteralRun => cases stands.1
  | matching t => exact stands.1.elim
  | matchDone =>
    obtain ⟨c, held, same, front⟩ := stands
    have count : c.toNat % 4 = n := (LzoPlace.owes.inj same).symm
    refine ⟨front, .of_step ?_⟩
    rw [lzoStep, held]
    change (if c.toNat % 4 = 0 then _ else _) = _
    rw [if_neg (count ▸ Nat.ne_of_gt positive), count]
    rfl
  | matchNext t =>
    rw [LzoPlace.owes.inj stands.1]
    exact ⟨stands.2, fun _ reaches => reaches⟩

end Places

section Complete

variable {cap : Nat} {rest bytes out : List Byte} {place : LzoPlace} {tokens : List (Token Byte)}

theorem getElem?_one_length {α : Type} {l : List α} {a : α} (held : l[1]? = some a) : 2 ≤ l.length :=
  (List.getElem?_eq_some_iff.mp held).1

/-- What the input spells is what the run writes, as long as the buffer holds it. -/
theorem LzoSpells.reaches (opt : LzoOpt) (spells : LzoSpells rest place bytes tokens) (label : LzoLabel) (s : LzoState)
    (ready : LzoReady cap label s) (stands : LzoAt place bytes label s) (expanded : expand s.out tokens = some out)
    (room : out.length ≤ cap) (short : bytes.length < 2 ^ 56) :
    LzoReaches cap opt label s (.ret (lzoEnd rest) out) := by
  induction spells generalizing label s with
  | eof takes positive small =>
    rw [expand_nil, Option.some.injEq] at expanded
    rw [← expanded]
    exact eof_reaches opt takes positive small ready stands short
  | back spelled small follows ih =>
    rw [expand_back] at expanded
    obtain ⟨middle, copied, expanded'⟩ := Option.bind_eq_some_iff.mp expanded
    have room' : middle.length ≤ cap := Nat.le_trans (expand_length expanded') room
    obtain ⟨s', ⟨left, kept, c, held, count⟩, leads⟩ :=
      back_leads opt spelled small ready stands follows.least short copied room'
    rw [List.length_append] at short
    apply leads
    apply ih
    · exact ⟨kept.symm ▸ room', getElem?_one_length held⟩
    · exact ⟨c, held, congrArg _ count.symm, left⟩
    · rw [kept]
      exact expanded'
    · omega
  | run positive count follows ih =>
    obtain ⟨rfl, front⟩ := stands.run ready
    rw [expand_literals] at expanded
    have fits := Nat.le_trans (expand_length expanded) room
    rw [List.length_append] at fits
    obtain ⟨s', done, left, kept⟩ := lzoStep_run opt positive count front follows.least (front ▸ short) fits
    rw [List.length_append, List.length_append] at short
    apply LzoReaches.step done
    apply ih
    · refine ⟨?_, left.symm ▸ follows.least⟩
      rw [kept, List.length_append]
      exact fits
    · exact ⟨rfl, left⟩
    · rw [kept]
      exact expanded
    · omega
  | none follows ih =>
    obtain ⟨front, leads⟩ := stands.none ready
    exact leads _ (ih .top s ⟨ready.1, trivial⟩ ⟨rfl, front⟩ expanded short)
  | @few n literals bytes tokens positive count follows ih =>
    obtain ⟨front, leads⟩ := stands.few positive
    rw [expand_literals] at expanded
    have fits := Nat.le_trans (expand_length expanded) room
    rw [List.length_append] at fits
    have least : 3 ≤ bytes.length := follows.least
    obtain ⟨b, more, rfl⟩ := List.exists_cons_of_length_pos (Nat.lt_of_lt_of_le (by decide) least)
    rw [List.length_cons] at least
    obtain ⟨s', done, left, kept, behind, pushed⟩ := lzoStep_few opt count front (Nat.le_of_succ_le_succ least) fits
    rw [List.length_append] at short
    apply leads
    apply LzoReaches.step done
    apply ih
    · refine ⟨?_, left.symm ▸ Nat.le_of_succ_le_succ least, b, behind, pushed, rfl⟩
      rw [kept, List.length_append]
      exact fits
    · refine ⟨trivial, Or.inr rfl, ?_⟩
      rw [ofNat_of_eq rfl, left]
    · rw [kept]
      exact expanded
    · omega
  | start small follows ih => exact stands.not_start.elim
  | startFew positive small follows ih => exact stands.not_start.elim
  | startRun least most count follows ih => exact stands.not_start.elim

end Complete

section Starts

variable {cap : Nat} {rest input out : List Byte} {tokens : List (Token Byte)}

/-- Where the first label stands, and what is left to write there. -/
def LzoOpens (rest : List Byte) (cap : Nat) (input out : List Byte) : Prop :=
  ∃ label s place bytes tokens, lzoStart cap ⟨[], input, []⟩ = .ok (label, s) ∧ LzoReady cap label s ∧
    LzoAt place bytes label s ∧ LzoSpells rest place bytes tokens ∧ expand s.out tokens = some out ∧
    bytes.length ≤ input.length

theorem lzoStart_low {b : Byte} {left : List Byte} (small : b.toNat ≤ 17) :
    lzoStart cap ⟨[], b :: left, []⟩ = .ok (.top, ⟨[], b :: left, []⟩) := by
  rw [lzoStart, needIp_ok (Nat.succ_pos _)]
  change (if 17 < b.toNat then _ else _) = _
  rw [if_neg (by omega)]
  rfl

theorem lzoStart_few {n : Nat} {left : List Byte} (positive : 0 < n) (small : n < 4) :
    lzoStart cap ⟨[], BitVec.ofNat 8 (17 + n) :: left, []⟩ =
      .ok (.matchNext n, ⟨[BitVec.ofNat 8 (17 + n)], left, []⟩) := by
  rw [lzoStart, needIp_ok (Nat.succ_pos _)]
  change (if 17 < (BitVec.ofNat 8 (17 + n)).toNat then _ else _) = _
  rw [ofNat_toNat_lt (by omega), if_pos (by omega), Nat.add_sub_cancel_left, if_pos small]
  rfl

theorem lzoStart_run {n : Nat} {literals left : List Byte} (least : 4 ≤ n) (most : n ≤ 238)
    (count : literals.length = n) (enough : 3 ≤ left.length) (room : literals.length ≤ cap) :
    ∃ s, lzoStart cap ⟨[], BitVec.ofNat 8 (17 + n) :: (literals ++ left), []⟩ = .ok (.firstLiteralRun, s) ∧
      s.ip = left ∧ s.out = literals := by
  have total : (List.replicate n 1).sum = n := LzoOpt.widths_sum .bytes n
  have inside : n + 3 ≤ (literals ++ left).length := by
    rw [List.length_append]
    omega
  have fits : ([] : List Byte).length + n ≤ cap := by
    rw [List.length_nil, Nat.zero_add, ← count]
    exact room
  have front : (LzoState.mk [BitVec.ofNat 8 (17 + n)] (literals ++ left) []).ip = literals ++ left := rfl
  obtain ⟨left1, out1⟩ := copied_literals front count
  refine ⟨_, ?_, left1, out1⟩
  rw [lzoStart, needIp_ok (Nat.succ_pos _)]
  change (if 17 < (BitVec.ofNat 8 (17 + n)).toNat then _ else _) = _
  rw [ofNat_toNat_lt (by omega), if_pos (by omega), Nat.add_sub_cancel_left, if_neg (by omega)]
  change (do
    needOp cap n ⟨[BitVec.ofNat 8 (17 + n)], literals ++ left, []⟩
    needIp (n + 3) ⟨[BitVec.ofNat 8 (17 + n)], literals ++ left, []⟩
    let next ← copyLiterals cap (List.replicate n 1) ⟨[BitVec.ofNat 8 (17 + n)], literals ++ left, []⟩
    return (LzoLabel.firstLiteralRun, next)) = _
  rw [needOp_ok fits, needIp_ok inside]
  change (do
    let next ← copyLiterals cap (List.replicate n 1) ⟨[BitVec.ofNat 8 (17 + n)], literals ++ left, []⟩
    return (LzoLabel.firstLiteralRun, next)) = _
  rw [copyLiterals_ok (total.symm ▸ Nat.le_trans (by omega) inside) (total.symm ▸ fits), total]
  rfl

theorem LzoSpells.opens (spells : LzoSpells rest .start input tokens) (expanded : expand [] tokens = some out)
    (room : out.length ≤ cap) : LzoOpens rest cap input out := by
  cases spells with
  | eof takes => exact takes.elim
  | back spelled => exact spelled.takes.elim
  | @start b bytes _ small follows =>
    exact ⟨.top, _, .plain, _, _, lzoStart_low small, ⟨Nat.zero_le _, trivial⟩, ⟨rfl, rfl⟩, follows, expanded, Nat.le_refl _⟩
  | @startFew n bytes _ positive small follows =>
    exact ⟨.matchNext n, _, .owes n, _, _, lzoStart_few positive small, ⟨Nat.zero_le _, positive, small⟩, ⟨rfl, rfl⟩,
      follows, expanded, Nat.le_succ _⟩
  | @startRun n literals bytes _ least most count follows =>
    rw [expand_literals, List.nil_append] at expanded
    have fits := Nat.le_trans (expand_length expanded) room
    obtain ⟨s, first, left, kept⟩ := lzoStart_run least most count follows.least fits
    refine ⟨.firstLiteralRun, s, .afterRun, _, _, first, ⟨kept.symm ▸ fits, left.symm ▸ follows.least⟩, ⟨rfl, left⟩,
      follows, kept.symm ▸ expanded, ?_⟩
    rw [List.length_cons, List.length_append]
    omega

/-- The run on an input that spells tokens, for a buffer that holds what they expand to. -/
theorem lzo1xDecompressSafe_complete (opt : LzoOpt) (spells : LzoSpells rest .start input tokens)
    (expanded : expand [] tokens = some out) (room : out.length ≤ cap) (short : input.length < 2 ^ 56) :
    lzo1xDecompressSafe opt input cap = some (.ret (lzoEnd rest) out) := by
  obtain ⟨label, s, place, bytes, tokens', first, ready, stands, spells', expanded', shorter⟩ :=
    spells.opens expanded room
  have reaches := spells'.reaches opt label s ready stands expanded' room (Nat.lt_of_le_of_lt shorter short)
  obtain ⟨stop, done, -⟩ := lzo1xDecompressSafe_ends opt input cap
  rw [lzo1xDecompressSafe, first] at done ⊢
  change lzoRun cap opt (2 * input.length + 2) label s = some stop at done
  change lzoRun cap opt (2 * input.length + 2) label s = _
  rw [done, LzoReaches.unique ⟨_, done⟩ reaches]

end Starts

section Results

/-- Every run ends without an access outside the buffers; what it wrote fits, and an end without an overrun is at the
end mark of an input that spells it. -/
theorem lzo1xDecompressSafe_within (opt : LzoOpt) (input : List Byte) (cap : Nat) :
    ∃ status out, lzo1xDecompressSafe opt input cap = some (.ret status out) ∧ out.length ≤ cap ∧
      (status.Overrun ∨ LzoDecompressed input status out) := by
  obtain ⟨stop, done, ended⟩ := lzo1xDecompressSafe_ends opt input cap
  cases stop with
  | fault => exact ended.elim
  | ret status out => exact ⟨status, out, done, ended⟩

theorem lzoEnd_ok {rest : List Byte} : lzoEnd rest = .ok ↔ rest = [] := by
  unfold lzoEnd
  split <;> simp_all

theorem lzoEnd_inputNotConsumed {rest : List Byte} : lzoEnd rest = .inputNotConsumed ↔ rest ≠ [] := by
  unfold lzoEnd
  split <;> simp_all

theorem lzo1xDecompressSafe_ret_iff (opt : LzoOpt) {input : List Byte} {cap : Nat} (short : input.length < 2 ^ 56)
    {status : LzoStatus} (complete : ¬ status.Overrun) (out : List Byte) :
    lzo1xDecompressSafe opt input cap = some (.ret status out) ↔
      LzoDecompressed input status out ∧ out.length ≤ cap := by
  apply Iff.intro
  · intro done
    obtain ⟨stop, done', ended⟩ := lzo1xDecompressSafe_ends opt input cap
    rw [done, Option.some.injEq] at done'
    rw [← done'] at ended
    exact ⟨ended.2.resolve_left complete, ended.1⟩
  · intro both
    obtain ⟨⟨rest, tokens, rfl, spells, expanded⟩, room⟩ := both
    exact lzo1xDecompressSafe_complete opt spells expanded room short

/-- The inputs that are decompressed are the spellings of token lists, and what comes out is what they expand to. -/
theorem lzo1xDecompressSafe_exact (opt : LzoOpt) (input : List Byte) (cap : Nat) (short : input.length < 2 ^ 56)
    (out : List Byte) :
    (lzo1xDecompressSafe opt input cap = some (.ret .ok out) ↔
      ∃ tokens, LzoSpells [] .start input tokens ∧ expand [] tokens = some out ∧ out.length ≤ cap) ∧
    (lzo1xDecompressSafe opt input cap = some (.ret .inputNotConsumed out) ↔
      ∃ rest tokens, rest ≠ [] ∧ LzoSpells rest .start input tokens ∧ expand [] tokens = some out ∧ out.length ≤ cap) := by
  have ok : ¬ LzoStatus.Overrun .ok := id
  have left : ¬ LzoStatus.Overrun .inputNotConsumed := id
  rw [lzo1xDecompressSafe_ret_iff opt short ok, lzo1xDecompressSafe_ret_iff opt short left]
  apply And.intro
  · apply Iff.intro
    · intro both
      obtain ⟨⟨rest, tokens, end_, spells, expanded⟩, room⟩ := both
      obtain rfl := lzoEnd_ok.mp end_.symm
      exact ⟨tokens, spells, expanded, room⟩
    · intro spelled
      obtain ⟨tokens, spells, expanded, room⟩ := spelled
      exact ⟨⟨[], tokens, rfl, spells, expanded⟩, room⟩
  · apply Iff.intro
    · intro both
      obtain ⟨⟨rest, tokens, end_, spells, expanded⟩, room⟩ := both
      exact ⟨rest, tokens, lzoEnd_inputNotConsumed.mp end_.symm, spells, expanded, room⟩
    · intro spelled
      obtain ⟨rest, tokens, more, spells, expanded, room⟩ := spelled
      exact ⟨⟨rest, tokens, (lzoEnd_inputNotConsumed.mpr more).symm, spells, expanded⟩, room⟩

theorem lzo1xDecompressSafe_exact_letters : ∃ tokens, LzoSpells [] .start [18#8, 0x41#8, 17#8, 0#8, 0#8] tokens ∧
    expand [] tokens = some [0x41#8] ∧ [0x41#8].length ≤ 4096 :=
  (lzo1xDecompressSafe_exact .unaligned64 [18#8, 0x41#8, 17#8, 0#8, 0#8] 4096 (by decide) [0x41#8]).1.mp (by decide)

end Results

section Widths

variable {cap : Nat} {opt : LzoOpt}

theorem needIp_short {n : Nat} {s : LzoState} (short : s.ip.length < n) :
    needIp n s = .error (.ret .inputOverrun s.out) := refuseIf_error_iff.mpr ⟨short, rfl⟩

theorem needOp_full {n : Nat} {s : LzoState} (full : cap - s.out.length < n) :
    needOp cap n s = .error (.ret .outputOverrun s.out) := refuseIf_error_iff.mpr ⟨full, rfl⟩

theorem testLb_outside {distance : Nat} {s : LzoState} (outside : distance = 0 ∨ s.out.length < distance) :
    testLb distance s = .error (.ret .lookbehindOverrun s.out) := refuseIf_error_iff.mpr ⟨outside, rfl⟩

theorem lzoMatchOf_widths (distance n : Nat) (s : LzoState) :
    lzoMatchOf cap opt distance (n + 2) s = lzoMatchOf cap .bytes distance (n + 2) s := by
  by_cases outside : distance = 0 ∨ s.out.length < distance
  · rw [lzoMatchOf, lzoMatchOf, testLb_outside outside]
    rfl
  by_cases full : cap - s.out.length < n + 2
  · rw [lzoMatchOf, lzoMatchOf, needOp_full full]
    rfl
  · obtain ⟨out, copied⟩ := copyBack_isSome (n + 2) (show 0 < distance by omega) (show distance ≤ s.out.length by omega)
    have room : out.length ≤ cap := by
      rw [copyBack_length copied]
      omega
    rw [lzoMatchOf_ok (by omega) copied room, lzoMatchOf_ok (by omega) copied room]

theorem lzoLiteralRun_widths (t : Nat) (s : LzoState) : lzoLiteralRun cap opt t s = lzoLiteralRun cap .bytes t s := by
  unfold lzoLiteralRun
  congr 1
  funext read
  obtain ⟨t, s⟩ := read
  by_cases full : cap - s.out.length < t + 3
  · simp only [needOp_full full]
    rfl
  by_cases ended : s.ip.length < t + 6
  · simp only [needIp_short ended]
    rfl
  · have inside : t + 3 ≤ s.ip.length := by omega
    have room : s.out.length + (t + 3) ≤ cap := by omega
    have total := opt.widths_sum (t + 3)
    have total' := LzoOpt.bytes.widths_sum (t + 3)
    simp only [copyLiterals_ok (total.symm ▸ inside) (total.symm ▸ room),
      copyLiterals_ok (total'.symm ▸ inside) (total'.symm ▸ room), total, total']

theorem lzoStep_widths (label : LzoLabel) (s : LzoState) : lzoStep cap opt label s = lzoStep cap .bytes label s := by
  cases label with
  | top => simp only [lzoStep, lzoLiteralRun_widths]
  | firstLiteralRun => rfl
  | matching t => simp only [lzoStep, lzoMatch, lzoMatchOf_widths]
  | matchDone => rfl
  | matchNext t => rfl

theorem lzoRun_widths (fuel : Nat) (label : LzoLabel) (s : LzoState) :
    lzoRun cap opt fuel label s = lzoRun cap .bytes fuel label s := by
  induction fuel generalizing label s with
  | zero => rfl
  | succ fuel ih =>
    rw [lzoRun, lzoRun, lzoStep_widths]
    cases lzoStep cap .bytes label s with
    | error stop => rfl
    | ok next => exact ih next.1 next.2

/-- Copies of four and eight bytes change nothing, whatever the input. -/
theorem lzo1xDecompressSafe_widths (opt other : LzoOpt) (input : List Byte) (cap : Nat) :
    lzo1xDecompressSafe opt input cap = lzo1xDecompressSafe other input cap := by
  have plain : ∀ opt : LzoOpt, lzo1xDecompressSafe opt input cap = lzo1xDecompressSafe .bytes input cap := by
    intro opt
    rw [lzo1xDecompressSafe, lzo1xDecompressSafe]
    cases lzoStart cap ⟨[], input, []⟩ with
    | error stop => rfl
    | ok next => exact lzoRun_widths _ next.1 next.2
  rw [plain opt, plain other]

end Widths

end ImgEditor
