import ImgEditor.Core.LzoSound

namespace ImgEditor

open Storage Storage.Lz77

section Bytes

variable {base flag n : Nat}

theorem lzoLengthBytes_cons (base flag n : Nat) :
    ∃ t tail, t ≤ base ∧ lzoLengthBytes base flag n = BitVec.ofNat 8 (flag + t) :: tail ∧ (n ≤ base → t = n ∧ tail = []) ∧
      (¬ n ≤ base → t = 0 ∧ ∃ k b, tail = List.replicate k 0#8 ++ [b] ∧ b ≠ 0#8 ∧ n = 255 * k + (base + b.toNat)) := by
  rw [lzoLengthBytes]
  split
  · exact ⟨n, [], ‹_›, rfl, fun _ => ⟨rfl, rfl⟩, fun big => absurd ‹_› big⟩
  · rename_i big
    refine ⟨0, _, Nat.zero_le _, rfl, fun small => absurd small big, fun _ => ⟨rfl, _, _, rfl, ?_, ?_⟩⟩
    · intro zero
      have value := congrArg BitVec.toNat zero
      rw [BitVec.toNat_ofNat, BitVec.toNat_ofNat] at value
      omega
    · rw [BitVec.toNat_ofNat]
      omega

theorem ofNat_toNat_lt {n : Nat} (small : n < 256) : (BitVec.ofNat 8 n).toNat = n := by
  rw [BitVec.toNat_ofNat]
  exact Nat.mod_eq_of_lt small

end Bytes

section Lengths

variable {b c : Byte}

theorem lzoZeros_spelled (beyond : LzoStatus) (out left behind : List Byte) {k t : Nat} (other : c ≠ 0#8) (fits : t + 255 * k ≤ 2 ^ 64 - 511) :
    ∃ s, lzoZeros beyond out behind (List.replicate k 0#8 ++ c :: left) t = .ok (t + 255 * k, s) ∧ s.ip = c :: left ∧
      s.out = out := by
  induction k generalizing behind t with
  | zero =>
    refine ⟨⟨behind, c :: left, out⟩, ?_, rfl, rfl⟩
    rw [List.replicate_zero, List.nil_append, lzoZeros, if_neg other]
    rfl
  | succ k ih =>
    obtain ⟨s, done, front, kept⟩ := ih (0#8 :: behind) (show t + 255 + 255 * k ≤ 2 ^ 64 - 511 by omega)
    refine ⟨s, ?_, front, kept⟩
    have more : ¬ (List.replicate k 0#8 ++ c :: left).length < 1 := by
      rw [List.length_append, List.length_cons]
      omega
    rw [List.replicate_succ, List.cons_append, lzoZeros, if_pos rfl, refuseIf_passed (by omega),
      refuseIf_passed more]
    change lzoZeros beyond out (0#8 :: behind) (List.replicate k 0#8 ++ c :: left) (t + 255) = _
    rw [done]
    congr 2
    omega

/-- The spelling of a length is read back. -/
theorem lzoLength_spelled (beyond : LzoStatus) {base flag n need : Nat} {left : List Byte} {s : LzoState} (positive : 0 < n) (fits : flag + base < 256)
    (same : b :: s.ip = lzoLengthBytes base flag n ++ left) (short : s.ip.length < 2 ^ 56) (enough : need ≤ left.length) :
    ∃ t, b.toNat = flag + t ∧ t ≤ base ∧
      ∃ s', lzoLength beyond base need t s = .ok (n, s') ∧ s'.ip = left ∧ s'.out = s.out := by
  obtain ⟨t, tail, bound, spelled, few, many⟩ := lzoLengthBytes_cons base flag n
  rw [spelled, List.cons_append] at same
  obtain ⟨rfl, front⟩ := List.cons.inj same
  refine ⟨t, ofNat_toNat_lt (by omega), bound, ?_⟩
  by_cases small : n ≤ base
  · obtain ⟨rfl, rfl⟩ := few small
    refine ⟨s, ?_, front, rfl⟩
    rw [lzoLength, if_neg (Nat.ne_of_gt positive)]
    rfl
  · obtain ⟨rfl, k, c, rfl, other, total⟩ := many small
    rw [List.append_assoc, List.singleton_append] at front
    have count : k ≤ s.ip.length := by
      rw [front, List.length_append, List.length_replicate]
      exact Nat.le_add_right _ _
    have bounded : 0 + 255 * k ≤ 2 ^ 64 - 511 := by omega
    obtain ⟨s1, zeros, rest, kept⟩ := lzoZeros_spelled beyond s.out left s.behind other bounded
    refine ⟨⟨c :: s1.behind, left, s1.out⟩, ?_, rfl, kept⟩
    rw [lzoLength, if_pos rfl, front, zeros]
    dsimp only [ok_bind]
    rw [next_cons rest]
    dsimp only [ok_bind]
    rw [needIp_ok enough, Nat.zero_add, total]
    rfl

end Lengths

section Matches

variable {cap : Nat} {opt : LzoOpt} {s : LzoState} {distance n : Nat} {out : List Byte}

theorem lzoMatchOf_ok (positive : 0 < n) (copied : copyBack distance n s.out = some out) (room : out.length ≤ cap) :
    lzoMatchOf cap opt distance n s = .ok (.matchDone, { s with out := out }) := by
  have inside := copyBack_inside positive copied
  have fits : s.out.length + n ≤ cap := copyBack_length copied ▸ room
  have total := opt.matchWidths_sum distance n
  rw [lzoMatchOf, testLb_ok inside.1 inside.2, needOp_ok fits]
  change (do
    let s ← copyMatches cap distance (opt.matchWidths distance n) s
    return (LzoLabel.matchDone, s)) = _
  rw [copyMatches_ok (opt.matchWidths_le inside.1 n) inside.2 (total.symm ▸ fits) (total.symm ▸ copied)]
  rfl

/-- The state behind a match, with the byte that holds the count of its literals. -/
def LzoBehind (k : Nat) (bytes out : List Byte) (s : LzoState) : Prop :=
  s.ip = bytes ∧ s.out = out ∧ ∃ c, s.behind[1]? = some c ∧ c.toNat % 4 = k

theorem lzoMatchOf_behind {k : Nat} {b c : Byte} {bytes behind : List Byte} (positive : 0 < n)
    (copied : copyBack distance n s.out = some out) (room : out.length ≤ cap) (left : s.ip = bytes)
    (pushed : s.behind = c :: b :: behind) (count : b.toNat % 4 = k) :
    ∃ s', lzoMatchOf cap opt distance n s = .ok (.matchDone, s') ∧ LzoBehind k bytes out s' := by
  refine ⟨_, lzoMatchOf_ok positive copied room, left, rfl, b, ?_, count⟩
  change s.behind[1]? = some b
  rw [pushed]
  rfl

variable {k : Nat} {b : Byte} {behind bytes code : List Byte}

theorem lzoMatch_near_spelled (low : 1 ≤ distance) (high : distance ≤ 1024) (small : k < 4)
    (same : b :: s.ip = [BitVec.ofNat 8 (4 * ((distance - 1) % 4) + k), BitVec.ofNat 8 ((distance - 1) / 4)] ++ bytes)
    (pushed : s.behind = b :: behind) (copied : copyBack distance 2 s.out = some out) (room : out.length ≤ cap) :
    ∃ s', lzoMatch cap opt b.toNat s = .ok (.matchDone, s') ∧ LzoBehind k bytes out s' := by
  obtain ⟨rfl, front⟩ := List.cons.inj same
  have first := ofNat_toNat_lt (show 4 * ((distance - 1) % 4) + k < 256 by omega)
  have second := ofNat_toNat_lt (show (distance - 1) / 4 < 256 by omega)
  rw [first, lzoMatch, if_neg (by omega), if_neg (by omega), if_neg (by omega), next_cons front, second]
  change ∃ s', lzoMatchOf cap .bytes (1 + (4 * ((distance - 1) % 4) + k) / 4 + (distance - 1) / 4 * 4) 2 _ = _ ∧ _
  rw [show 1 + (4 * ((distance - 1) % 4) + k) / 4 + (distance - 1) / 4 * 4 = distance by omega]
  exact lzoMatchOf_behind (by decide) copied room rfl (congrArg _ pushed) (by omega)

theorem lzoMatch_short_spelled (low : 1 ≤ distance) (high : distance ≤ 2048) (least : 3 ≤ n) (most : n ≤ 8)
    (small : k < 4)
    (same : b :: s.ip =
      [BitVec.ofNat 8 (32 * (n - 1) + 4 * ((distance - 1) % 8) + k), BitVec.ofNat 8 ((distance - 1) / 8)] ++ bytes)
    (pushed : s.behind = b :: behind) (copied : copyBack distance n s.out = some out) (room : out.length ≤ cap) :
    ∃ s', lzoMatch cap opt b.toNat s = .ok (.matchDone, s') ∧ LzoBehind k bytes out s' := by
  obtain ⟨rfl, front⟩ := List.cons.inj same
  have first := ofNat_toNat_lt (show 32 * (n - 1) + 4 * ((distance - 1) % 8) + k < 256 by omega)
  have second := ofNat_toNat_lt (show (distance - 1) / 8 < 256 by omega)
  rw [first, lzoMatch, if_pos (by omega), next_cons front, second]
  change ∃ s', lzoMatchOf cap .bytes (1 + (32 * (n - 1) + 4 * ((distance - 1) % 8) + k) / 4 % 8 + (distance - 1) / 8 * 8)
    ((32 * (n - 1) + 4 * ((distance - 1) % 8) + k) / 32 - 1 + 2) _ = _ ∧ _
  rw [show 1 + (32 * (n - 1) + 4 * ((distance - 1) % 8) + k) / 4 % 8 + (distance - 1) / 8 * 8 = distance by omega,
    show (32 * (n - 1) + 4 * ((distance - 1) % 8) + k) / 32 - 1 + 2 = n by omega]
  exact lzoMatchOf_behind (by omega) copied room rfl (congrArg _ pushed) (by omega)

theorem leBytes_two_cons (n : Nat) : leBytes 2 n = [BitVec.ofNat 8 n, BitVec.ofNat 8 (n / 256)] := rfl

theorem next16_spelled {value : Nat} (small : value < 65536) (front : s.ip = leBytes 2 value ++ bytes) :
    s.next16 = .ok (value, ⟨BitVec.ofNat 8 (value / 256) :: BitVec.ofNat 8 value :: s.behind, bytes, s.out⟩) := by
  rw [next16_cons front, BitVec.toNat_ofNat, BitVec.toNat_ofNat]
  congr 2
  omega

theorem lzoMatch_medium_spelled (low : 1 ≤ distance) (high : distance ≤ 16384) (least : 3 ≤ n) (small : k < 4)
    (same : b :: s.ip = lzoLengthBytes 31 32 (n - 2) ++ (leBytes 2 (4 * (distance - 1) + k) ++ bytes))
    (short : s.ip.length < 2 ^ 56) (copied : copyBack distance n s.out = some out) (room : out.length ≤ cap) :
    ∃ s', lzoMatch cap opt b.toNat s = .ok (.matchDone, s') ∧ LzoBehind k bytes out s' := by
  have enough : 2 ≤ (leBytes 2 (4 * (distance - 1) + k) ++ bytes).length := by
    rw [List.length_append, leBytes_length]
    exact Nat.le_add_right 2 _
  obtain ⟨t, value, bound, s1, counted, front, kept⟩ :=
    lzoLength_spelled .outputOverrun (by omega) (by decide) same short enough
  rw [value, lzoMatch, if_neg (by omega), if_pos (by omega), show (32 + t) % 32 = t % 32 by omega]
  by_cases whole : t = 32
  · omega
  rw [show t % 32 = t by omega, counted]
  dsimp only [ok_bind]
  rw [next16_spelled (by omega) front]
  change ∃ s', lzoMatchOf cap opt (1 + (4 * (distance - 1) + k) / 4) (n - 2 + 2) _ = _ ∧ _
  rw [show 1 + (4 * (distance - 1) + k) / 4 = distance by omega, show n - 2 + 2 = n by omega]
  have count : (BitVec.ofNat 8 (4 * (distance - 1) + k)).toNat % 4 = k := by
    rw [BitVec.toNat_ofNat]
    omega
  exact lzoMatchOf_behind (by omega) (kept.symm ▸ copied) room rfl rfl count

theorem lzoMatch_long_eq {t off : Nat} {s1 s2 : LzoState} (high : 16 ≤ t) (low : t < 32)
    (counted : lzoLength .outputOverrun 7 2 (t % 8) s = .ok (n, s1)) (read : s1.next16 = .ok (off, s2)) :
    lzoMatch cap opt t s =
      if t / 8 % 2 * 16384 + off / 4 = 0 then .error (.ret (lzoEnd s2.ip) s2.out)
      else lzoMatchOf cap opt (t / 8 % 2 * 16384 + off / 4 + 16384) (n + 2) s2 := by
  rw [lzoMatch, if_neg (by omega), if_neg (by omega), if_pos high, counted]
  dsimp only [ok_bind]
  rw [read]
  rfl

theorem lzoMatch_long_spelled (low : 16385 ≤ distance) (high : distance ≤ 49151) (least : 3 ≤ n) (small : k < 4)
    (same : b :: s.ip = lzoLengthBytes 7 (16 + 8 * ((distance - 16384) / 16384)) (n - 2) ++
      (leBytes 2 (4 * ((distance - 16384) % 16384) + k) ++ bytes))
    (short : s.ip.length < 2 ^ 56) (copied : copyBack distance n s.out = some out) (room : out.length ≤ cap) :
    ∃ s', lzoMatch cap opt b.toNat s = .ok (.matchDone, s') ∧ LzoBehind k bytes out s' := by
  have enough : 2 ≤ (leBytes 2 (4 * ((distance - 16384) % 16384) + k) ++ bytes).length := by
    rw [List.length_append, leBytes_length]
    exact Nat.le_add_right 2 _
  obtain ⟨t, value, bound, s1, counted, front, kept⟩ :=
    lzoLength_spelled .outputOverrun (by omega) (by omega) same short enough
  have field : b.toNat % 8 = t := by omega
  have distant : b.toNat / 8 % 2 * 16384 + (4 * ((distance - 16384) % 16384) + k) / 4 + 16384 = distance := by omega
  rw [lzoMatch_long_eq (by omega) (by omega) (field.symm ▸ counted) (next16_spelled (by omega) front),
    if_neg (by omega), distant, show n - 2 + 2 = n by omega]
  have count : (BitVec.ofNat 8 (4 * ((distance - 16384) % 16384) + k)).toNat % 4 = k := by
    rw [BitVec.toNat_ofNat]
    omega
  exact lzoMatchOf_behind (by omega) (kept.symm ▸ copied) room rfl rfl count

theorem lzoMatch_eof_spelled {low : Nat} {rest : List Byte} (positive : 0 < n) (small : low < 4)
    (same : b :: s.ip = lzoLengthBytes 7 16 n ++ (leBytes 2 low ++ rest)) (short : s.ip.length < 2 ^ 56) :
    lzoMatch cap opt b.toNat s = .error (.ret (lzoEnd rest) s.out) := by
  have enough : 2 ≤ (leBytes 2 low ++ rest).length := by
    rw [List.length_append, leBytes_length]
    exact Nat.le_add_right 2 _
  obtain ⟨t, value, bound, s1, counted, front, kept⟩ :=
    lzoLength_spelled .outputOverrun positive (by decide) same short enough
  have field : b.toNat % 8 = t := by omega
  rw [lzoMatch_long_eq (by omega) (by omega) (field.symm ▸ counted) (next16_spelled (by omega) front),
    if_pos (by omega), ← kept]

end Matches

/-- How many bytes are left at a place. -/
def LzoPlace.least : LzoPlace → Nat
  | .start => 3
  | .owes n => n + 3
  | _ => 3

/-- The place that a label stands for, with the input from there on. -/
def LzoAt (place : LzoPlace) (bytes : List Byte) (label : LzoLabel) (s : LzoState) : Prop :=
  match label with
  | .top => place = .plain ∧ s.ip = bytes
  | .firstLiteralRun => place = .afterRun ∧ s.ip = bytes
  | .matching t => place.TakesCode ∧ (16 ≤ t ∨ place = .afterFew) ∧ bytes = BitVec.ofNat 8 t :: s.ip
  | .matchDone => ∃ b, s.behind[1]? = some b ∧ place = .owes (b.toNat % 4) ∧ s.ip = bytes
  | .matchNext t => place = .owes t ∧ s.ip = bytes

section Sizes

variable {rest bytes code : List Byte} {place : LzoPlace} {tokens : List (Token Byte)} {d n k : Nat}

theorem lzoLengthBytes_positive (base flag n : Nat) : 1 ≤ (lzoLengthBytes base flag n).length := by
  obtain ⟨t, tail, -, spelled, -⟩ := lzoLengthBytes_cons base flag n
  rw [spelled, List.length_cons]
  exact Nat.succ_pos _

theorem LzoBack.length (spelled : LzoBack place d n k code) : 2 ≤ code.length := by
  cases spelled with
  | near => exact Nat.le_refl 2
  | behindRun => exact Nat.le_refl 2
  | short => exact Nat.le_refl 2
  | medium =>
    rw [List.length_append, leBytes_length]
    exact Nat.le_add_left 2 _
  | long =>
    rw [List.length_append, leBytes_length]
    exact Nat.le_add_left 2 _

theorem LzoBack.takes (spelled : LzoBack place d n k code) : place.TakesCode := by
  cases spelled with
  | near => trivial
  | behindRun => trivial
  | short takes => exact takes
  | medium takes => exact takes
  | long takes => exact takes

theorem LzoPlace.TakesCode.least_eq (takes : place.TakesCode) : place.least = 3 := by
  cases place with
  | owes n => exact takes.elim
  | _ => rfl

theorem LzoSpells.least (spells : LzoSpells rest place bytes tokens) : place.least ≤ bytes.length := by
  induction spells with
  | @eof _ n low takes positive small =>
    have first := lzoLengthBytes_positive 7 16 n
    rw [takes.least_eq, List.length_append, List.length_append, leBytes_length]
    omega
  | back spelled small follows ih =>
    have size := spelled.length
    change _ + 3 ≤ _ at ih
    rw [spelled.takes.least_eq, List.length_append]
    omega
  | run positive count follows ih =>
    change 3 ≤ _ at ih ⊢
    rw [List.length_append, List.length_append]
    omega
  | none follows ih => exact ih
  | few positive count follows ih =>
    change 3 ≤ _ at ih
    change _ + 3 ≤ _
    rw [List.length_append]
    omega
  | start small follows ih => exact ih
  | startFew positive small follows ih =>
    change _ + 3 ≤ _ at ih
    change 3 ≤ _
    rw [List.length_cons]
    omega
  | startRun least most count follows ih =>
    change 3 ≤ _ at ih ⊢
    rw [List.length_cons, List.length_append]
    omega

end Sizes

section Reaches

variable {cap : Nat} {opt : LzoOpt} {label : LzoLabel} {place : LzoPlace} {s : LzoState}

/-- The state that reaches what another reaches. -/
def LzoLeads (cap : Nat) (opt : LzoOpt) (label : LzoLabel) (s : LzoState) (label' : LzoLabel) (s' : LzoState) : Prop :=
  ∀ stop, LzoReaches cap opt label' s' stop → LzoReaches cap opt label s stop

theorem LzoLeads.of_step {label' : LzoLabel} {s' : LzoState} (first : lzoStep cap opt label s = .ok (label', s')) :
    LzoLeads cap opt label s label' s' := fun _ reaches => reaches.step first

theorem LzoLeads.trans {l1 l2 l3 : LzoLabel} {s1 s2 s3 : LzoState} (first : LzoLeads cap opt l1 s1 l2 s2)
    (second : LzoLeads cap opt l2 s2 l3 s3) : LzoLeads cap opt l1 s1 l3 s3 :=
  fun stop reaches => first stop (second stop reaches)

theorem lzoStep_top_code {b : Byte} {left : List Byte} (front : s.ip = b :: left) (two : 2 ≤ left.length)
    (code : 16 ≤ b.toNat) : lzoStep cap opt .top s = .ok (.matching b.toNat, ⟨b :: s.behind, left, s.out⟩) := by
  have enough : 3 ≤ s.ip.length := by
    rw [front, List.length_cons]
    omega
  rw [lzoStep, needIp_ok enough]
  dsimp only [ok_bind]
  rw [next_cons front]
  change (if 16 ≤ b.toNat then _ else _) = _
  rw [if_pos code]
  rfl

theorem lzoStep_firstLiteralRun_code {b : Byte} {left : List Byte} (front : s.ip = b :: left) (code : 16 ≤ b.toNat) :
    lzoStep cap opt .firstLiteralRun s = .ok (.matching b.toNat, ⟨b :: s.behind, left, s.out⟩) := by
  rw [lzoStep, next_cons front]
  change (if 16 ≤ b.toNat then _ else _) = _
  rw [if_pos code]
  rfl

/-- An instruction byte of a match is read from every label where one can stand. -/
theorem matching_leads (opt : LzoOpt) {b : Byte} {left : List Byte} (takes : place.TakesCode) (code : 16 ≤ b.toNat ∨ place = .afterFew)
    (ready : LzoReady cap label s) (stands : LzoAt place (b :: left) label s) (two : 2 ≤ left.length) :
    ∃ s', s'.ip = left ∧ s'.out = s.out ∧ (∃ behind, s'.behind = b :: behind) ∧
      LzoLeads cap opt label s (.matching b.toNat) s' := by
  cases label with
  | top =>
    obtain ⟨rfl, front⟩ := stands
    have high : 16 ≤ b.toNat := code.resolve_right LzoPlace.noConfusion
    exact ⟨⟨b :: s.behind, left, s.out⟩, rfl, rfl, ⟨_, rfl⟩, .of_step (lzoStep_top_code front two high)⟩
  | firstLiteralRun =>
    obtain ⟨rfl, front⟩ := stands
    have high : 16 ≤ b.toNat := code.resolve_right LzoPlace.noConfusion
    exact ⟨⟨b :: s.behind, left, s.out⟩, rfl, rfl, ⟨_, rfl⟩, .of_step (lzoStep_firstLiteralRun_code front high)⟩
  | matching t =>
    obtain ⟨-, -, c, behind, pushed, rfl⟩ := ready
    obtain ⟨-, -, same⟩ := stands
    rw [ofNat_of_eq rfl] at same
    obtain ⟨rfl, front⟩ := List.cons.inj same
    exact ⟨s, front.symm, rfl, ⟨behind, pushed⟩, fun _ reaches => reaches⟩
  | matchDone =>
    obtain ⟨c, -, rfl, -⟩ := stands
    exact takes.elim
  | matchNext t =>
    obtain ⟨rfl, -⟩ := stands
    exact takes.elim

variable {distance n k : Nat} {bytes code out : List Byte}

theorem behindRun_leads (low : 2049 ≤ distance) (high : distance ≤ 3072) (small : k < 4)
    (ready : LzoReady cap label s)
    (stands : LzoAt .afterRun ([BitVec.ofNat 8 (4 * ((distance - 2049) % 4) + k), BitVec.ofNat 8 ((distance - 2049) / 4)]
      ++ bytes) label s)
    (copied : copyBack distance 3 s.out = some out) (room : out.length ≤ cap) :
    ∃ s', LzoBehind k bytes out s' ∧ LzoLeads cap opt label s .matchDone s' := by
  have first := ofNat_toNat_lt (show 4 * ((distance - 2049) % 4) + k < 256 by omega)
  have second := ofNat_toNat_lt (show (distance - 2049) / 4 < 256 by omega)
  cases label with
  | top => cases stands.1
  | firstLiteralRun =>
    obtain ⟨-, front⟩ := stands
    have found : ∃ s', lzoStep cap opt .firstLiteralRun s = .ok (.matchDone, s') ∧ LzoBehind k bytes out s' := by
      rw [lzoStep, next_cons front, first]
      change ∃ s', (if 16 ≤ 4 * ((distance - 2049) % 4) + k then _ else _) = _ ∧ _
      rw [if_neg (by omega), next_cons rfl, second]
      change ∃ s', lzoMatchOf cap .bytes
        (1 + 2048 + (4 * ((distance - 2049) % 4) + k) / 4 + (distance - 2049) / 4 * 4) 3 _ = _ ∧ _
      rw [show 1 + 2048 + (4 * ((distance - 2049) % 4) + k) / 4 + (distance - 2049) / 4 * 4 = distance by omega]
      exact lzoMatchOf_behind (by decide) copied room rfl rfl (by omega)
    obtain ⟨s', done, behind⟩ := found
    exact ⟨s', behind, .of_step done⟩
  | matching t =>
    obtain ⟨-, -, c, behind, pushed, rfl⟩ := ready
    obtain ⟨-, code, same⟩ := stands
    rw [ofNat_of_eq rfl] at same
    have value := congrArg BitVec.toNat (List.cons.inj same).1
    have low := code.resolve_right LzoPlace.noConfusion
    omega
  | matchDone =>
    obtain ⟨c, -, same, -⟩ := stands
    cases same
  | matchNext t => cases stands.1

/-- The same for an instruction byte that holds a length. -/
theorem length_leads (opt : LzoOpt) {base flag : Nat} {tail : List Byte} (takes : place.TakesCode) (high : 16 ≤ flag)
    (fits : flag + base < 256) (ready : LzoReady cap label s)
    (stands : LzoAt place (lzoLengthBytes base flag n ++ tail) label s) (two : 2 ≤ tail.length) :
    ∃ b s', b :: s'.ip = lzoLengthBytes base flag n ++ tail ∧ s'.out = s.out ∧ (∃ behind, s'.behind = b :: behind) ∧
      LzoLeads cap opt label s (.matching b.toNat) s' := by
  obtain ⟨t, more, bound, spelled, -⟩ := lzoLengthBytes_cons base flag n
  rw [spelled, List.cons_append] at stands ⊢
  have value := ofNat_toNat_lt (show flag + t < 256 by omega)
  have left : 2 ≤ (more ++ tail).length := by
    rw [List.length_append]
    exact Nat.le_add_left_of_le two
  obtain ⟨s', front, kept, pushed, leads⟩ := matching_leads opt takes (Or.inl (by omega)) ready stands left
  exact ⟨_, s', front ▸ rfl, kept, pushed, leads⟩

theorem LzoLeads.matched {b : Byte} {s' : LzoState} (leads : LzoLeads cap opt label s (.matching b.toNat) s')
    (found : ∃ s'', lzoMatch cap opt b.toNat s' = .ok (.matchDone, s'') ∧ LzoBehind k bytes out s'') :
    ∃ s'', LzoBehind k bytes out s'' ∧ LzoLeads cap opt label s .matchDone s'' := by
  obtain ⟨s'', done, behind⟩ := found
  exact ⟨s'', behind, leads.trans (.of_step done)⟩

theorem back_leads (opt : LzoOpt) (spelled : LzoBack place distance n k code) (small : k < 4)
    (ready : LzoReady cap label s) (stands : LzoAt place (code ++ bytes) label s) (left : k + 3 ≤ bytes.length)
    (short : (code ++ bytes).length < 2 ^ 56) (copied : copyBack distance n s.out = some out) (room : out.length ≤ cap) :
    ∃ s', LzoBehind k bytes out s' ∧ LzoLeads cap opt label s .matchDone s' := by
  have two : ∀ b : Byte, 2 ≤ (b :: bytes).length := fun _ => Nat.succ_le_succ (Nat.le_trans (by omega) left)
  cases spelled with
  | near low high =>
    have takes : LzoPlace.TakesCode .afterFew := trivial
    obtain ⟨s', front, kept, ⟨behind, pushed⟩, leads⟩ := matching_leads opt takes (Or.inr rfl) ready stands (two _)
    exact leads.matched (lzoMatch_near_spelled low high small (front ▸ rfl) pushed (kept.symm ▸ copied) room)
  | behindRun low high => exact behindRun_leads low high small ready stands copied room
  | short takes low high least most =>
    have first := ofNat_toNat_lt (show 32 * (n - 1) + 4 * ((distance - 1) % 8) + k < 256 by omega)
    obtain ⟨s', front, kept, ⟨behind, pushed⟩, leads⟩ :=
      matching_leads opt takes (Or.inl (by omega)) ready stands (two _)
    exact leads.matched
      (lzoMatch_short_spelled low high least most small (front ▸ rfl) pushed (kept.symm ▸ copied) room)
  | medium takes low high least =>
    rw [List.append_assoc] at stands short
    have two : 2 ≤ (leBytes 2 (4 * (distance - 1) + k) ++ bytes).length := by
      rw [List.length_append, leBytes_length]
      exact Nat.le_add_right 2 _
    obtain ⟨b, s', same, kept, -, leads⟩ := length_leads opt takes (by decide) (by decide) ready stands two
    rw [← same, List.length_cons] at short
    exact leads.matched
      (lzoMatch_medium_spelled low high least small same (Nat.lt_of_succ_lt short) (kept.symm ▸ copied) room)
  | long takes low high least =>
    rw [List.append_assoc] at stands short
    have two : 2 ≤ (leBytes 2 (4 * ((distance - 16384) % 16384) + k) ++ bytes).length := by
      rw [List.length_append, leBytes_length]
      exact Nat.le_add_right 2 _
    obtain ⟨b, s', same, kept, -, leads⟩ := length_leads opt takes (by omega) (by omega) ready stands two
    rw [← same, List.length_cons] at short
    exact leads.matched
      (lzoMatch_long_spelled low high least small same (Nat.lt_of_succ_lt short) (kept.symm ▸ copied) room)

theorem eof_reaches (opt : LzoOpt) {low : Nat} {rest : List Byte} (takes : place.TakesCode) (positive : 0 < n)
    (small : low < 4) (ready : LzoReady cap label s)
    (stands : LzoAt place (lzoLengthBytes 7 16 n ++ leBytes 2 low ++ rest) label s)
    (short : (lzoLengthBytes 7 16 n ++ leBytes 2 low ++ rest).length < 2 ^ 56) :
    LzoReaches cap opt label s (.ret (lzoEnd rest) s.out) := by
  rw [List.append_assoc] at stands short
  have two : 2 ≤ (leBytes 2 low ++ rest).length := by
    rw [List.length_append, leBytes_length]
    exact Nat.le_add_right 2 _
  obtain ⟨b, s', same, kept, -, leads⟩ := length_leads opt takes (by decide) (by decide) ready stands two
  rw [← same, List.length_cons] at short
  apply leads
  rw [← kept]
  exact .ended (lzoMatch_eof_spelled positive small same (Nat.lt_of_succ_lt short))

end Reaches

section Literals

variable {cap n : Nat} {literals bytes : List Byte} {s : LzoState}

theorem copied_literals (front : s.ip = literals ++ bytes) (count : literals.length = n) :
    (s.copied n).ip = bytes ∧ (s.copied n).out = s.out ++ literals := by
  rw [LzoState.copied, front]
  exact ⟨List.drop_left' count, congrArg _ (List.take_left' count)⟩

theorem lzoStep_run (opt : LzoOpt) (positive : 0 < n) (count : literals.length = n + 3)
    (front : s.ip = lzoLengthBytes 15 0 n ++ (literals ++ bytes)) (left : 3 ≤ bytes.length) (short : s.ip.length < 2 ^ 56)
    (room : s.out.length + literals.length ≤ cap) :
    ∃ s', lzoStep cap opt .top s = .ok (.firstLiteralRun, s') ∧ s'.ip = bytes ∧ s'.out = s.out ++ literals := by
  obtain ⟨t, tail, bound, spelled, -⟩ := lzoLengthBytes_cons 15 0 n
  have first := ofNat_toNat_lt (show 0 + t < 256 by omega)
  have front' := front
  rw [spelled, List.cons_append] at front'
  have enough : 3 ≤ s.ip.length := by
    rw [front, List.length_append, List.length_append]
    omega
  have same : BitVec.ofNat 8 (0 + t) :: (LzoState.mk (BitVec.ofNat 8 (0 + t) :: s.behind) (tail ++ (literals ++ bytes)) s.out).ip
      = lzoLengthBytes 15 0 n ++ (literals ++ bytes) := by rw [spelled, List.cons_append]
  have short' : (tail ++ (literals ++ bytes)).length < 2 ^ 56 := by
    rw [front', List.length_cons] at short
    exact Nat.lt_of_succ_lt short
  obtain ⟨u, value, -, s1, counted, rest, kept⟩ :=
    lzoLength_spelled .inputOverrun positive (by decide) same short' (Nat.zero_le _)
  obtain ⟨left1, out1⟩ := copied_literals rest count
  refine ⟨s1.copied (n + 3), ?_, left1, kept ▸ out1⟩
  have total := opt.widths_sum (n + 3)
  have inside : n + 6 ≤ s1.ip.length := by
    rw [rest, List.length_append]
    omega
  have fits : s1.out.length + (n + 3) ≤ cap := by
    rw [kept, ← count]
    exact room
  rw [lzoStep, needIp_ok enough]
  dsimp only [ok_bind]
  rw [next_cons front', value]
  change (if 16 ≤ 0 + u then _ else lzoLiteralRun cap opt (0 + u) _) = _
  rw [if_neg (by omega), lzoLiteralRun, Nat.zero_add, counted]
  change (do
    needOp cap (n + 3) s1
    needIp (n + 6) s1
    let s ← copyLiterals cap (opt.widths (n + 3)) s1
    return (LzoLabel.firstLiteralRun, s)) = _
  rw [needOp_ok fits, needIp_ok inside]
  change (do
    let s ← copyLiterals cap (opt.widths (n + 3)) s1
    return (LzoLabel.firstLiteralRun, s)) = _
  rw [copyLiterals_ok (total.symm ▸ Nat.le_trans (by omega) inside) (total.symm ▸ fits), total]
  rfl

theorem lzoStep_few (opt : LzoOpt) {b : Byte} (count : literals.length = n) (front : s.ip = literals ++ b :: bytes)
    (left : 2 ≤ bytes.length) (room : s.out.length + literals.length ≤ cap) :
    ∃ s', lzoStep cap opt (.matchNext n) s = .ok (.matching b.toNat, s') ∧ s'.ip = bytes ∧ s'.out = s.out ++ literals ∧
      ∃ behind, s'.behind = b :: behind := by
  have enough : n + 3 ≤ s.ip.length := by
    rw [front, List.length_append, List.length_cons]
    omega
  have fits : s.out.length + n ≤ cap := count ▸ room
  have total : (List.replicate n 1).sum = n := LzoOpt.widths_sum .bytes n
  obtain ⟨left1, out1⟩ := copied_literals front count
  rw [lzoStep, needOp_ok fits, needIp_ok enough]
  dsimp only [ok_bind]
  rw [copyLiterals_ok (total.symm ▸ Nat.le_trans (by omega) enough) (total.symm ▸ fits), total]
  dsimp only [ok_bind]
  rw [next_cons left1]
  exact ⟨_, rfl, rfl, out1, _, rfl⟩

end Literals

end ImgEditor
