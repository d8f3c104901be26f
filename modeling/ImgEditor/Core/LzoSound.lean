import ImgEditor.Core.LzoSteps

namespace ImgEditor

open Storage Storage.Lz77

section Matches

variable {cap : Nat} {opt : LzoOpt} {final : LzoStatus → List Byte → Prop} {s : LzoState}

def LzoMatched (cap distance n : Nat) (s : LzoState) (next : LzoLabel × LzoState) : Prop :=
  next.1 = .matchDone ∧ ∃ out, copyBack distance n s.out = some out ∧ out.length ≤ cap ∧ next.2 = { s with out := out }

theorem lzoMatchOf_outcome {distance n : Nat} (room : s.out.length ≤ cap) :
    Outcome (LzoMatched cap distance n s) (LzoStop.Within cap final) (lzoMatchOf cap opt distance n s) := by
  apply (testLb_outcome room).bind
  intro _ inside
  apply (needOp_outcome room).bind
  intro _ fits
  obtain ⟨out, copied⟩ := copyBack_isSome n inside.1 inside.2
  have total := opt.matchWidths_sum distance n
  rw [copyMatches_ok (opt.matchWidths_le inside.1 n) inside.2 (total.symm ▸ fits) (total.symm ▸ copied)]
  exact ⟨rfl, out, copied, (copyBack_length copied).symm ▸ fits, rfl⟩

/-- A match that ends an instruction which began at `label`. -/
theorem LzoMatched.steps {label : LzoLabel} {start : LzoState} {distance n : Nat} {next : LzoLabel × LzoState}
    (matched : LzoMatched cap distance n s next) (same : s.out = start.out) {b c : Byte} {behind : List Byte}
    (pushed : s.behind = c :: b :: behind) (shorter : 2 * s.ip.length + 1 < lzoRank label start)
    (spelled : ∀ rest tail, LzoSpells rest (.owes (b.toNat % 4)) s.ip tail →
      LzoFollows rest label start (.back distance n :: tail)) : LzoSteps cap label start next := by
  obtain ⟨done, out, copied, fits, left⟩ := matched
  rw [LzoSteps, done, left]
  refine ⟨⟨fits, ?_⟩, shorter, [.back distance n], ?_, ?_⟩
  · change 2 ≤ s.behind.length
    rw [pushed]
    exact Nat.le_add_left 2 _
  · intro tail
    rw [List.singleton_append, expand_back, ← same, copied, Option.bind_some, left]
  · intro rest tail follows
    apply spelled
    rw [done, left] at follows
    apply follows
    change s.behind[1]? = some b
    rw [pushed]
    rfl

end Matches

section Codes

theorem ofNat_of_eq {b : Byte} {n : Nat} (same : b.toNat = n) : BitVec.ofNat 8 n = b := by
  rw [← same, BitVec.ofNat_toNat, BitVec.setWidth_eq]

theorem leBytes_two {low high : Byte} {n : Nat} (same : low.toNat + 256 * high.toNat = n) : leBytes 2 n = [low, high] := by
  have encoded := leBytes_leNumber [low, high]
  rw [leNumber, leNumber, leNumber, Nat.mul_zero, Nat.add_zero, same] at encoded
  exact encoded

variable {place : LzoPlace} {b c : Byte}

theorem LzoBack.near_read (low : b.toNat < 16) :
    LzoBack .afterFew (1 + b.toNat / 4 + c.toNat * 4) 2 (b.toNat % 4) [b, c] := by
  have bound := c.isLt
  have code : LzoBack .afterFew (1 + b.toNat / 4 + c.toNat * 4) 2 (b.toNat % 4) _ := .near (by omega) (by omega)
  rwa [ofNat_of_eq (show b.toNat = _ by omega), ofNat_of_eq (show c.toNat = _ by omega)] at code

theorem LzoBack.behindRun_read (low : b.toNat < 16) :
    LzoBack .afterRun (1 + 2048 + b.toNat / 4 + c.toNat * 4) 3 (b.toNat % 4) [b, c] := by
  have bound := c.isLt
  have code : LzoBack .afterRun (1 + 2048 + b.toNat / 4 + c.toNat * 4) 3 (b.toNat % 4) _ :=
    .behindRun (by omega) (by omega)
  rwa [ofNat_of_eq (show b.toNat = _ by omega), ofNat_of_eq (show c.toNat = _ by omega)] at code

theorem LzoBack.short_read (takes : place.TakesCode) (high : 64 ≤ b.toNat) :
    LzoBack place (1 + b.toNat / 4 % 8 + c.toNat * 8) (b.toNat / 32 - 1 + 2) (b.toNat % 4) [b, c] := by
  have bound := b.isLt
  have bound' := c.isLt
  have code : LzoBack place (1 + b.toNat / 4 % 8 + c.toNat * 8) (b.toNat / 32 - 1 + 2) (b.toNat % 4) _ :=
    .short takes (by omega) (by omega) (by omega) (by omega)
  rwa [ofNat_of_eq (show b.toNat = _ by omega), ofNat_of_eq (show c.toNat = _ by omega)] at code

theorem LzoBack.medium_read (takes : place.TakesCode) {n : Nat} (positive : 0 < n) :
    LzoBack place (1 + (b.toNat + 256 * c.toNat) / 4) (n + 2) (b.toNat % 4) (lzoLengthBytes 31 32 n ++ [b, c]) := by
  have bound := b.isLt
  have bound' := c.isLt
  have code : LzoBack place (1 + (b.toNat + 256 * c.toNat) / 4) (n + 2) (b.toNat % 4) _ :=
    .medium takes (by omega) (by omega) (by omega)
  rwa [leBytes_two (show b.toNat + 256 * c.toNat = _ by omega)] at code

theorem LzoBack.long_read (takes : place.TakesCode) {n flag : Nat} (positive : 0 < n) (small : flag < 2)
    (distant : flag * 16384 + (b.toNat + 256 * c.toNat) / 4 ≠ 0) :
    LzoBack place (flag * 16384 + (b.toNat + 256 * c.toNat) / 4 + 16384) (n + 2) (b.toNat % 4)
      (lzoLengthBytes 7 (16 + 8 * flag) n ++ [b, c]) := by
  have bound := b.isLt
  have bound' := c.isLt
  have code : LzoBack place (flag * 16384 + (b.toNat + 256 * c.toNat) / 4 + 16384) (n + 2) (b.toNat % 4) _ :=
    .long takes (by omega) (by omega) (by omega)
  rwa [leBytes_two (show b.toNat + 256 * c.toNat = _ by omega),
    show (flag * 16384 + (b.toNat + 256 * c.toNat) / 4 + 16384 - 16384) / 16384 = flag by omega] at code

end Codes

section Steps

variable {cap : Nat} {opt : LzoOpt} {s : LzoState} {t : Nat}

/-- What the instruction byte `t` at `matching` is followed by. -/
theorem LzoSpells.matching {rest : List Byte} {distance n k : Nat} {code left : List Byte} {tail : List (Token Byte)}
    (small : k < 4) (follows : LzoSpells rest (.owes k) left tail) (same : BitVec.ofNat 8 t :: s.ip = code ++ left)
    (spelled : ∀ place : LzoPlace, place.TakesCode → 16 ≤ t ∨ place = .afterFew → LzoBack place distance n k code) :
    LzoFollows rest (.matching t) s (.back distance n :: tail) := by
  intro place takes which
  rw [same]
  exact .back (spelled place takes which) small follows

abbrev LzoStep (cap : Nat) (label : LzoLabel) (s : LzoState) (x : Except LzoStop (LzoLabel × LzoState)) : Prop :=
  Outcome (LzoSteps cap label s) (LzoStop.Within cap (LzoFinal label s)) x

theorem lzoMatch_short (ready : LzoReady cap (.matching t) s) (high : 64 ≤ t) :
    LzoStep cap (.matching t) s (lzoMatch cap opt t s) := by
  obtain ⟨room, held, b, behind, pushed, rfl⟩ := ready
  rw [lzoMatch, if_pos high]
  apply (next_outcome (Nat.le_of_succ_le held)).bind
  intro read next
  obtain ⟨c, value, front, pushed', kept⟩ := next
  apply (lzoMatchOf_outcome (kept.symm ▸ room)).mono _ fun _ bad => bad
  intro done matched
  rw [pushed] at pushed'
  apply matched.steps kept pushed'
  · change 2 * read.2.ip.length + 1 < 2 * s.ip.length
    rw [front, List.length_cons]
    omega
  · intro rest tail follows
    have bytes : BitVec.ofNat 8 b.toNat :: s.ip = [b, c] ++ read.2.ip := by
      rw [front, ofNat_of_eq rfl]
      rfl
    apply LzoSpells.matching (Nat.mod_lt _ (by decide)) follows bytes
    intro place takes _
    rw [value]
    exact .short_read takes high

theorem lzoMatch_near (ready : LzoReady cap (.matching t) s) (low : t < 16) :
    LzoStep cap (.matching t) s (lzoMatch cap opt t s) := by
  obtain ⟨room, held, b, behind, pushed, rfl⟩ := ready
  rw [lzoMatch, if_neg (by omega), if_neg (by omega), if_neg (by omega)]
  apply (next_outcome (Nat.le_of_succ_le held)).bind
  intro read next
  obtain ⟨c, value, front, pushed', kept⟩ := next
  apply (lzoMatchOf_outcome (kept.symm ▸ room)).mono _ fun _ bad => bad
  intro done matched
  rw [pushed] at pushed'
  apply matched.steps kept pushed'
  · change 2 * read.2.ip.length + 1 < 2 * s.ip.length
    rw [front, List.length_cons]
    omega
  · intro rest tail follows
    have bytes : BitVec.ofNat 8 b.toNat :: s.ip = [b, c] ++ read.2.ip := by
      rw [front, ofNat_of_eq rfl]
      rfl
    apply LzoSpells.matching (Nat.mod_lt _ (by decide)) follows bytes
    intro place _ which
    rw [value, which.resolve_left (by omega)]
    exact .near_read low

theorem lzoMatch_medium (ready : LzoReady cap (.matching t) s) (high : 32 ≤ t) (low : t < 64) :
    LzoStep cap (.matching t) s (lzoMatch cap opt t s) := by
  obtain ⟨room, held, b, behind, pushed, rfl⟩ := ready
  rw [lzoMatch, if_neg (by omega), if_pos high]
  apply (lzoLength_outcome (show LzoStatus.Overrun .outputOverrun from trivial) (by omega) room (by omega) held).bind
  intro counted read
  obtain ⟨positive, kept, longer, left, spelled⟩ := read
  apply (next16_outcome left).bind
  intro offset read
  obtain ⟨lowByte, highByte, value, front, pushed', kept'⟩ := read
  apply (lzoMatchOf_outcome (kept'.symm ▸ kept.symm ▸ room)).mono _ fun _ bad => bad
  intro done matched
  have bytes := spelled 32
  rw [show 32 + b.toNat % 32 = b.toNat by omega, front] at bytes
  have lengths := congrArg List.length bytes
  rw [List.length_cons, List.length_append, List.length_cons, List.length_cons] at lengths
  apply matched.steps (kept'.trans kept) pushed'
  · change 2 * offset.2.ip.length + 1 < 2 * s.ip.length
    omega
  · intro rest tail follows
    apply LzoSpells.matching (Nat.mod_lt _ (by decide)) follows
      (bytes.trans (List.append_assoc _ [lowByte, highByte] _).symm)
    intro place takes _
    rw [value]
    exact .medium_read takes positive

theorem lzoMatch_long (ready : LzoReady cap (.matching t) s) (high : 16 ≤ t) (low : t < 32) :
    LzoStep cap (.matching t) s (lzoMatch cap opt t s) := by
  obtain ⟨room, held, b, behind, pushed, rfl⟩ := ready
  rw [lzoMatch, if_neg (by omega), if_neg (by omega), if_pos high]
  apply (lzoLength_outcome (show LzoStatus.Overrun .outputOverrun from trivial) (by omega) room (by omega) held).bind
  intro counted read
  obtain ⟨positive, kept, longer, left, spelled⟩ := read
  apply (next16_outcome left).bind
  intro offset read
  obtain ⟨off, s'⟩ := offset
  obtain ⟨lowByte, highByte, value, front, pushed', kept'⟩ := read
  simp only at value front pushed' kept' ⊢
  have bytes := spelled (16 + 8 * (b.toNat / 8 % 2))
  rw [show 16 + 8 * (b.toNat / 8 % 2) + b.toNat % 8 = b.toNat by omega, front] at bytes
  split
  · rename_i zero
    refine ⟨kept'.symm ▸ kept.symm ▸ room, Or.inr ⟨kept'.trans kept, s'.ip, rfl, ?_⟩⟩
    intro place takes _
    have flag : b.toNat / 8 % 2 = 0 := by omega
    rw [flag] at bytes
    have mark : LzoSpells s'.ip place _ [] := .eof takes positive (show off < 4 by omega)
    rw [leBytes_two value.symm, List.append_assoc] at mark
    exact bytes ▸ mark
  · rename_i distant
    apply (lzoMatchOf_outcome (kept'.symm ▸ kept.symm ▸ room)).mono _ fun _ bad => bad
    intro done matched
    have lengths := congrArg List.length bytes
    rw [List.length_cons, List.length_append, List.length_cons, List.length_cons] at lengths
    apply matched.steps (kept'.trans kept) pushed'
    · change 2 * s'.ip.length + 1 < 2 * s.ip.length
      omega
    · intro rest tail follows
      apply LzoSpells.matching (Nat.mod_lt _ (by decide)) follows
        (bytes.trans (List.append_assoc _ [lowByte, highByte] _).symm)
      intro place takes _
      rw [value]
      exact .long_read takes positive (Nat.mod_lt _ (by decide)) (value ▸ distant)

theorem lzoMatch_step (ready : LzoReady cap (.matching t) s) : LzoStep cap (.matching t) s (lzoMatch cap opt t s) := by
  by_cases short : 64 ≤ t
  · exact lzoMatch_short ready short
  by_cases medium : 32 ≤ t
  · exact lzoMatch_medium ready medium (by omega)
  by_cases long : 16 ≤ t
  · exact lzoMatch_long ready long (by omega)
  · exact lzoMatch_near ready (by omega)

/-- An instruction byte of a match stands for itself where literals could stand. -/
theorem matching_steps {label : LzoLabel} {place : LzoPlace} {b : Byte} {s' : LzoState} (takes : place.TakesCode)
    (code : 16 ≤ b.toNat ∨ place = .afterFew) (room : s.out.length ≤ cap) (held : 3 ≤ s.ip.length)
    (rank : lzoRank label s = 2 * s.ip.length) (front : s.ip = b :: s'.ip) (pushed : s'.behind = b :: s.behind)
    (kept : s'.out = s.out)
    (spelled : ∀ rest tail, LzoSpells rest place s.ip tail → LzoFollows rest label s tail) :
    LzoSteps cap label s (.matching b.toNat, s') := by
  refine ⟨⟨kept.symm ▸ room, ?_, b, s.behind, pushed, rfl⟩, ?_, [], ?_, ?_⟩
  · rw [front, List.length_cons] at held
    exact Nat.le_of_succ_le_succ held
  · rw [rank, front, List.length_cons]
    change 2 * s'.ip.length < _
    omega
  · intro tail
    rw [List.nil_append, kept]
  · intro rest tail follows
    apply spelled
    have whole := follows place takes code
    rwa [ofNat_of_eq rfl, ← front] at whole

theorem LzoState.copied_ip_length (s : LzoState) (n : Nat) : (s.copied n).ip.length = s.ip.length - n := by
  rw [LzoState.copied, List.length_drop]

/-- Literals that `label` is followed by. -/
theorem copied_steps {label next : LzoLabel} {start : LzoState} {n : Nat} (same : s.out = start.out)
    (ready : LzoReady cap next (s.copied n)) (shorter : lzoRank next (s.copied n) < lzoRank label start)
    (spelled : ∀ rest tail, LzoFollows rest next (s.copied n) tail →
      LzoFollows rest label start ((s.ip.take n).map Token.literal ++ tail)) :
    LzoSteps cap label start (next, s.copied n) := by
  refine ⟨ready, shorter, (s.ip.take n).map Token.literal, ?_, spelled⟩
  intro tail
  rw [expand_literals, ← same]
  rfl

theorem LzoState.copied_room (room : s.out.length + t ≤ cap) : (s.copied t).out.length ≤ cap := by
  rw [LzoState.copied, List.length_append, List.length_take]
  omega

theorem lzoLiteralRun_step {b : Byte} {s' : LzoState} (low : b.toNat < 16) (held : 3 ≤ s.ip.length)
    (room : s.out.length ≤ cap) (front : s.ip = b :: s'.ip) (kept : s'.out = s.out) :
    LzoStep cap .top s (lzoLiteralRun cap opt b.toNat s') := by
  rw [front, List.length_cons] at held
  have room' : s'.out.length ≤ cap := kept.symm ▸ room
  apply (lzoLength_outcome (show LzoStatus.Overrun .inputOverrun from trivial) (by omega) room' (by omega) (Nat.zero_le _)).bind
  intro counted read
  obtain ⟨n, s1⟩ := counted
  obtain ⟨positive, kept', -, -, spelled⟩ := read
  simp only at positive kept' spelled ⊢
  have room'' : s1.out.length ≤ cap := kept'.symm ▸ room'
  apply (needOp_outcome room'').bind
  intro _ fits
  apply (needIp_outcome room'').bind
  intro _ enough
  have total := opt.widths_sum (n + 3)
  rw [copyLiterals_ok (total.symm ▸ Nat.le_trans (by omega) enough) (total.symm ▸ fits), total]
  have bytes := spelled 0
  rw [Nat.zero_add, ofNat_of_eq rfl, ← front] at bytes
  have lengths := congrArg List.length bytes
  rw [List.length_append] at lengths
  apply copied_steps (kept'.trans kept)
  · refine ⟨LzoState.copied_room fits, ?_⟩
    change 3 ≤ (s1.copied (n + 3)).ip.length
    rw [LzoState.copied_ip_length]
    omega
  · change 2 * (s1.copied (n + 3)).ip.length < 2 * s.ip.length
    rw [LzoState.copied_ip_length]
    omega
  · intro rest tail follows
    change LzoSpells rest .plain s.ip _
    rw [bytes]
    have run := LzoSpells.run positive (List.length_take_of_le (Nat.le_trans (by omega) enough)) follows
    rwa [LzoState.copied, List.take_append_drop] at run

theorem lzoStep_top (room : s.out.length ≤ cap) : LzoStep cap .top s (lzoStep cap opt .top s) := by
  apply (needIp_outcome room).bind
  intro _ held
  apply (next_outcome (by omega)).bind
  intro read next
  obtain ⟨t, s'⟩ := read
  obtain ⟨b, value, front, pushed, kept⟩ := next
  simp only at value front pushed kept ⊢
  rw [value]
  split
  · have takes : LzoPlace.TakesCode .plain := trivial
    exact matching_steps takes (Or.inl ‹_›) room held rfl front pushed kept fun _ _ whole => whole
  · exact lzoLiteralRun_step (by omega) held room front kept

theorem lzoStep_firstLiteralRun (ready : LzoReady cap .firstLiteralRun s) :
    LzoStep cap .firstLiteralRun s (lzoStep cap opt .firstLiteralRun s) := by
  obtain ⟨room, held⟩ := ready
  apply (next_outcome (Nat.le_trans (by decide) held)).bind
  intro read next
  obtain ⟨t, s'⟩ := read
  obtain ⟨b, value, front, pushed, kept⟩ := next
  simp only at value front pushed kept ⊢
  rw [value]
  split
  · have takes : LzoPlace.TakesCode .afterRun := trivial
    exact matching_steps takes (Or.inl ‹_›) room held rfl front pushed kept fun _ _ whole => whole
  · rename_i low
    have left : 1 ≤ s'.ip.length := by
      rw [front, List.length_cons] at held
      omega
    apply (next_outcome left).bind
    intro read' next'
    obtain ⟨u, s2⟩ := read'
    obtain ⟨c, value', front', pushed', kept'⟩ := next'
    simp only at value' front' pushed' kept' ⊢
    rw [pushed] at pushed'
    apply (lzoMatchOf_outcome (kept'.symm ▸ kept.symm ▸ room)).mono _ fun _ bad => bad
    intro done matched
    apply matched.steps (kept'.trans kept) pushed'
    · change 2 * s2.ip.length + 1 < 2 * s.ip.length
      rw [front, front', List.length_cons, List.length_cons]
      omega
    · intro rest tail follows
      change LzoSpells rest .afterRun s.ip _
      rw [front, front', value']
      exact .back (.behindRun_read (by omega)) (Nat.mod_lt _ (by decide)) follows

theorem lzoStep_matchDone (ready : LzoReady cap .matchDone s) :
    LzoStep cap .matchDone s (lzoStep cap opt .matchDone s) := by
  obtain ⟨room, held⟩ := ready
  have inside : 1 < s.behind.length := held
  rw [LzoStep, lzoStep, List.getElem?_eq_getElem inside]
  change Outcome _ _ (if s.behind[1].toNat % 4 = 0 then _ else _)
  split
  · rename_i zero
    refine ⟨⟨room, trivial⟩, Nat.lt_succ_self _, [], fun _ => rfl, ?_⟩
    intro rest tail follows b read
    rw [List.getElem?_eq_getElem inside, Option.some.injEq] at read
    rw [← read, zero]
    exact .none follows
  · rename_i positive
    refine ⟨⟨room, Nat.pos_of_ne_zero positive, Nat.mod_lt _ (by decide)⟩, Nat.lt_succ_self _, [], fun _ => rfl, ?_⟩
    intro rest tail follows b read
    rw [List.getElem?_eq_getElem inside, Option.some.injEq] at read
    rw [← read]
    exact follows

theorem lzoStep_matchNext (ready : LzoReady cap (.matchNext t) s) :
    LzoStep cap (.matchNext t) s (lzoStep cap opt (.matchNext t) s) := by
  obtain ⟨room, positive, small⟩ := ready
  apply (needOp_outcome room).bind
  intro _ fits
  apply (needIp_outcome room).bind
  intro _ enough
  have total : (List.replicate t 1).sum = t := LzoOpt.widths_sum .bytes t
  rw [copyLiterals_ok (total.symm ▸ Nat.le_trans (by omega) enough) (total.symm ▸ fits), total]
  have left := LzoState.copied_ip_length s t
  apply (next_outcome (s := s.copied t) (by omega)).bind
  intro read next
  obtain ⟨u, s'⟩ := read
  obtain ⟨b, value, front, pushed, kept⟩ := next
  simp only at value front pushed kept ⊢
  rw [front, List.length_cons] at left
  rw [value]
  refine ⟨⟨kept.symm ▸ LzoState.copied_room fits, ?_, b, _, pushed, rfl⟩, ?_, (s.ip.take t).map Token.literal, ?_, ?_⟩
  · change 2 ≤ s'.ip.length
    omega
  · change 2 * s'.ip.length < 2 * s.ip.length
    omega
  · intro tail
    rw [expand_literals, kept]
    rfl
  · intro rest tail follows
    have whole := follows .afterFew trivial (Or.inr rfl)
    rw [ofNat_of_eq rfl, ← front] at whole
    have few := LzoSpells.few positive (List.length_take_of_le (Nat.le_trans (by omega) enough)) whole
    rwa [LzoState.copied, List.take_append_drop] at few

/-- A step from a ready state goes on to one, with less input before it, or ends properly. -/
theorem lzoStep_outcome (opt : LzoOpt) (label : LzoLabel) (ready : LzoReady cap label s) :
    LzoStep cap label s (lzoStep cap opt label s) := by
  cases label with
  | top => exact lzoStep_top ready.1
  | firstLiteralRun => exact lzoStep_firstLiteralRun ready
  | matching t => exact lzoMatch_step ready
  | matchDone => exact lzoStep_matchDone ready
  | matchNext t => exact lzoStep_matchNext ready

end Steps

section Runs

variable {cap : Nat} {opt : LzoOpt} {label label' : LzoLabel} {s s' : LzoState} {stop : LzoStop}

theorem lzoRun_more {fuel : Nat} (more : Nat) (done : lzoRun cap opt fuel label s = some stop) :
    lzoRun cap opt (fuel + more) label s = some stop := by
  induction fuel generalizing label s with
  | zero => cases done
  | succ fuel ih =>
    rw [Nat.succ_add]
    rw [lzoRun] at done ⊢
    cases step : lzoStep cap opt label s with
    | error failed =>
      rw [step] at done
      exact done
    | ok next =>
      rw [step] at done
      exact ih done

def LzoReaches (cap : Nat) (opt : LzoOpt) (label : LzoLabel) (s : LzoState) (stop : LzoStop) : Prop :=
  ∃ fuel, lzoRun cap opt fuel label s = some stop

theorem LzoReaches.unique {other : LzoStop} (reaches : LzoReaches cap opt label s stop)
    (reaches' : LzoReaches cap opt label s other) : stop = other := by
  obtain ⟨fuel, done⟩ := reaches
  obtain ⟨fuel', done'⟩ := reaches'
  have more := lzoRun_more fuel' done
  have more' := lzoRun_more fuel done'
  rw [Nat.add_comm, more, Option.some.injEq] at more'
  exact more'

theorem LzoReaches.step (first : lzoStep cap opt label s = .ok (label', s')) (reaches : LzoReaches cap opt label' s' stop) :
    LzoReaches cap opt label s stop := by
  obtain ⟨fuel, done⟩ := reaches
  refine ⟨fuel + 1, ?_⟩
  rw [lzoRun, first]
  exact done

theorem LzoReaches.ended (first : lzoStep cap opt label s = .error stop) : LzoReaches cap opt label s stop := by
  refine ⟨1, ?_⟩
  rw [lzoRun, first]

/-- An end with nothing wrong: the input from `label` on spells the tokens that were written. -/
def LzoDecoded (label : LzoLabel) (s : LzoState) (status : LzoStatus) (out : List Byte) : Prop :=
  ∃ rest tokens, status = lzoEnd rest ∧ LzoFollows rest label s tokens ∧ expand s.out tokens = some out

theorem lzoRun_within (opt : LzoOpt) {fuel : Nat} (ready : LzoReady cap label s) (enough : lzoRank label s < fuel) :
    ∃ stop, lzoRun cap opt fuel label s = some stop ∧ stop.Within cap (LzoDecoded label s) := by
  induction fuel generalizing label s with
  | zero => exact absurd enough (Nat.not_lt_zero _)
  | succ fuel ih =>
    have known : LzoStep cap label s _ := lzoStep_outcome opt label ready
    rw [lzoRun]
    cases step : lzoStep cap opt label s with
    | error stop =>
      refine ⟨stop, rfl, ?_⟩
      have ended := known.of_error step
      cases stop with
      | fault => exact ended
      | ret status out =>
        obtain ⟨room, beyond | ⟨written, rest, same, follows⟩⟩ := ended
        · exact ⟨room, Or.inl beyond⟩
        · exact ⟨room, Or.inr ⟨rest, [], same, follows, congrArg some written.symm⟩⟩
    | ok next =>
      obtain ⟨ready', shorter, piece, writes, spelled⟩ := known.of_ok step
      obtain ⟨stop, done, ended⟩ := ih ready' (by omega)
      refine ⟨stop, done, ?_⟩
      cases stop with
      | fault => exact ended
      | ret status out =>
        obtain ⟨room, beyond | ⟨rest, tokens, same, follows, expanded⟩⟩ := ended
        · exact ⟨room, Or.inl beyond⟩
        · exact ⟨room, Or.inr ⟨rest, piece ++ tokens, same, spelled rest tokens follows, (writes tokens).trans expanded⟩⟩

end Runs

section Start

variable {cap : Nat} {input : List Byte}

def LzoStarted (cap : Nat) (input : List Byte) (next : LzoLabel × LzoState) : Prop :=
  LzoReady cap next.1 next.2 ∧ lzoRank next.1 next.2 ≤ 2 * input.length ∧
  ∃ piece : List (Token Byte),
    (∀ tail, expand [] (piece ++ tail) = expand next.2.out tail) ∧
    ∀ rest tail, LzoFollows rest next.1 next.2 tail → LzoSpells rest .start input (piece ++ tail)

theorem lzoStart_outcome (cap : Nat) (input : List Byte) :
    Outcome (LzoStarted cap input) (LzoStop.Within cap fun _ _ => False) (lzoStart cap ⟨[], input, []⟩) := by
  apply (needIp_outcome (Nat.zero_le cap)).bind
  intro _ held
  apply (next_outcome held).bind
  intro read next
  obtain ⟨t, s⟩ := read
  obtain ⟨b, value, front, pushed, kept⟩ := next
  simp only at value front pushed kept ⊢
  have bound := b.isLt
  have room : s.out.length ≤ cap := kept.symm ▸ Nat.zero_le cap
  have code : 17 < t → BitVec.ofNat 8 (17 + (t - 17)) = b := fun _ => ofNat_of_eq (by omega)
  have whole : input.length = s.ip.length + 1 := by rw [front, List.length_cons]
  split
  · rename_i literals
    split
    · rename_i few
      refine ⟨⟨room, by omega, few⟩, ?_, [], ?_, ?_⟩
      · change 2 * s.ip.length ≤ _
        omega
      · intro tail
        rw [List.nil_append, kept]
      · intro rest tail follows
        have spelled := LzoSpells.startFew (by omega) few follows
        rwa [code literals, ← front] at spelled
    · rename_i many
      apply (needOp_outcome room).bind
      intro _ fits
      apply (needIp_outcome room).bind
      intro _ enough
      have total : (List.replicate (t - 17) 1).sum = t - 17 := LzoOpt.widths_sum .bytes (t - 17)
      rw [copyLiterals_ok (total.symm ▸ Nat.le_trans (by omega) enough) (total.symm ▸ fits), total]
      have left := LzoState.copied_ip_length s (t - 17)
      refine ⟨⟨LzoState.copied_room fits, ?_⟩, ?_, (s.ip.take (t - 17)).map Token.literal, ?_, ?_⟩
      · change 3 ≤ (s.copied (t - 17)).ip.length
        omega
      · change 2 * (s.copied (t - 17)).ip.length ≤ _
        omega
      · intro tail
        rw [expand_literals, ← kept]
        rfl
      · intro rest tail follows
        have taken : (s.ip.take (t - 17)).length = t - 17 := List.length_take_of_le (by omega)
        have spelled := LzoSpells.startRun (by omega) (by omega) taken follows
        rwa [LzoState.copied, List.take_append_drop, code literals, ← front] at spelled
  · rename_i low
    refine ⟨⟨Nat.zero_le cap, trivial⟩, Nat.le_refl _, [], fun _ => rfl, ?_⟩
    intro rest tail follows
    change LzoSpells rest .plain input tail at follows
    rw [front] at follows ⊢
    exact .start (by omega) follows

end Start

section Within

/-- What an end with nothing wrong says about the whole input. -/
def LzoDecompressed (input : List Byte) (status : LzoStatus) (out : List Byte) : Prop :=
  ∃ rest tokens, status = lzoEnd rest ∧ LzoSpells rest .start input tokens ∧ expand [] tokens = some out

theorem lzo1xDecompressSafe_ends (opt : LzoOpt) (input : List Byte) (cap : Nat) :
    ∃ stop, lzo1xDecompressSafe opt input cap = some stop ∧ stop.Within cap (LzoDecompressed input) := by
  have known := lzoStart_outcome cap input
  rw [lzo1xDecompressSafe]
  cases first : lzoStart cap ⟨[], input, []⟩ with
  | error stop =>
    refine ⟨stop, rfl, ?_⟩
    have ended := known.of_error first
    cases stop with
    | fault => exact ended
    | ret status out => exact ⟨ended.1, ended.2.imp_right False.elim⟩
  | ok next =>
    obtain ⟨ready, rank, piece, writes, spelled⟩ := known.of_ok first
    have enough : lzoRank next.1 next.2 < 2 * input.length + 2 := by omega
    obtain ⟨stop, done, ended⟩ := lzoRun_within opt ready enough
    refine ⟨stop, done, ?_⟩
    cases stop with
    | fault => exact ended
    | ret status out =>
      obtain ⟨room, beyond | ⟨rest, tokens, same, follows, expanded⟩⟩ := ended
      · exact ⟨room, Or.inl beyond⟩
      · exact ⟨room, Or.inr ⟨rest, piece ++ tokens, same, spelled rest tokens follows, (writes tokens).trans expanded⟩⟩

end Within

end ImgEditor
