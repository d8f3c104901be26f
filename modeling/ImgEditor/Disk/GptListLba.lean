import ImgEditor.Disk.GptList

namespace ImgEditor

open Storage CText

theorem digit_ne {base : Nat} {c d : Byte} (digit : isDigit base c = true) (other : isDigit base d = false) : c ≠ d := by
  intro same
  rw [same, other] at digit
  cases digit

theorem digit_plain {c : Byte} (digit : isDigit 10 c = true) : isSpace c = false ∧ c ≠ 45 ∧ c ≠ 43 := by
  refine ⟨?_, digit_ne digit rfl, digit_ne digit rfl⟩
  revert c
  decide

theorem strtoull_digits {digits rest : CString} (nonempty : digits ≠ []) (valid : ∀ c ∈ digits, isDigit 10 c = true)
    (stop : ∀ c ∈ rest.head?, isDigit 10 c = false) : strtoull 10 (digits ++ rest) = (clampUll false (numeral 10 digits), rest) := by
  obtain ⟨head, tail, shape⟩ := List.exists_cons_of_ne_nil nonempty
  obtain ⟨space, minus, plus⟩ := digit_plain (valid head (by simp [shape]))
  have sign : takeSign ((digits ++ rest).dropWhile isSpace) = (false, digits ++ rest) := by
    rw [shape, List.cons_append]
    exact takeSign_plain space minus plus
  have first : rest.takeWhile (isDigit 10) = [] ∧ rest.dropWhile (isDigit 10) = rest := by
    cases rest with
    | nil => exact ⟨rfl, rfl⟩
    | cons c rest =>
      have clear := stop c rfl
      exact ⟨List.takeWhile_cons_of_neg (by simp [clear]), List.dropWhile_cons_of_neg (by simp [clear])⟩
  have whole : (digits ++ rest).takeWhile (isDigit 10) = digits := by
    rw [List.takeWhile_append_of_pos valid, first.1, List.append_nil]
  have ended : (digits ++ rest).dropWhile (isDigit 10) = rest := by
    rw [List.dropWhile_append_of_pos valid, first.2]
  simp only [strtoull, sign, skipHexPrefix_decimal, whole, ended, if_neg nonempty]

theorem toPartitionLbaSize_digits {digits : CString} (valid : ∀ c ∈ digits, isDigit 10 c = true) : toPartitionLbaSize digits = none := by
  have ends : (strtoull 10 digits).2 = [] := by
    by_cases nonempty : digits = []
    · rw [nonempty]
      rfl
    · have read := @strtoull_digits _ [] nonempty valid nofun
      rw [List.append_nil] at read
      rw [read]
  rw [toPartitionLbaSize, ends]
  rfl

theorem toPartitionLbaSize_unit {n unit : Nat} {c : Byte} (small : n < 2^64) (known : lbaUnit [c] = some unit) :
    toPartitionLbaSize (decimal n ++ [c]) = some ((BitVec.ofNat 64 n <<< unit) / 512) := by
  obtain ⟨nonempty, valid, _, value⟩ := decimal_valid n
  have all : ∀ c : Byte, lbaUnit [c] ≠ none → isDigit 10 c = false := by decide
  have stop := all c (by rw [known]; exact Option.some_ne_none unit)
  have read := @strtoull_digits _ [c] nonempty valid (fun d head => by rw [← Option.some.inj head]; exact stop)
  rw [toPartitionLbaSize, read, value, clampUll, if_pos small, known]
  rfl

/-- The sectors are a whole number of the unit that they are printed in, and their bytes are below 2^64. -/
def LbaSurvives (lba : BitVec 64) : Prop :=
  2 ≤ lba.toNat ∧ lba.toNat < 2^55 ∧ (lba.toNat < 2048 ∧ lba.toNat % 2 = 0 ∨ lba.toNat % 2048 = 0)

theorem toPartitionLbaSize_printed (lba : BitVec 64) :
    toPartitionLbaSize (partitionStringLbaSize lba) = some lba ↔ LbaSurvives lba := by
  have bytes : (lba2sz64 lba).toNat = lba.toNat * 512 % 2^64 := by
    rw [lba2sz64, BitVec.toNat_mul]
    rfl
  have small := lba.isLt
  have shifted (n unit : Nat) : ((BitVec.ofNat 64 n <<< unit) / 512).toNat = n % 2^64 * 2^unit % 2^64 / 512 := by
    rw [BitVec.toNat_udiv, BitVec.toNat_shiftLeft, BitVec.toNat_ofNat, Nat.shiftLeft_eq]
    rfl
  have unit (shift : Nat) {n : Nat} {c : Byte} (small : n < 2^64) (known : lbaUnit [c] = some shift) :
      toPartitionLbaSize (decimal n ++ [c]) = some lba ↔ n * 2^shift % 2^64 / 512 = lba.toNat := by
    rw [toPartitionLbaSize_unit small known, Option.some.injEq, ← BitVec.toNat_inj, shifted, Nat.mod_eq_of_lt small]
  unfold partitionStringLbaSize LbaSurvives
  dsimp only
  rw [bytes]
  split
  · rw [toPartitionLbaSize_digits (decimal_valid _).2.1]
    apply iff_of_false _ (by omega)
    intro wrong
    cases wrong
  · split
    · rw [show cstr "K" = [75] from rfl, unit 10 (by omega) rfl]
      omega
    · split
      · rw [show cstr "M" = [77] from rfl, unit 20 (by omega) rfl]
        omega
      · rw [show cstr "G" = [71] from rfl, unit 30 (by omega) rfl]
        omega

theorem partitionStringLbaSize_shape (lba : BitVec 64) : ∃ n < 2^64, ∃ tail : CString,
    tail.length ≤ 1 ∧ (∀ c ∈ tail, c ≠ 44 ∧ c ≠ 59) ∧ partitionStringLbaSize lba = decimal n ++ tail := by
  have small := (lba2sz64 lba).isLt
  unfold partitionStringLbaSize
  dsimp only
  split
  · exact ⟨_, small, [], by decide, by decide, (List.append_nil _).symm⟩
  · split
    · exact ⟨_, by omega, cstr "K", by decide, by decide, rfl⟩
    · split
      · exact ⟨_, by omega, cstr "M", by decide, by decide, rfl⟩
      · exact ⟨_, by omega, cstr "G", by decide, by decide, rfl⟩

/-- A size that ends too early has lost its unit. -/
theorem toPartitionLbaSize_take {lba : BitVec 64} {room : Nat} (short : room < (partitionStringLbaSize lba).length) :
    toPartitionLbaSize ((partitionStringLbaSize lba).take room) = none := by
  obtain ⟨n, _, tail, most, _, shape⟩ := partitionStringLbaSize_shape lba
  have inside : room ≤ (decimal n).length := by
    rw [shape, List.length_append] at short
    omega
  rw [shape, List.take_append_of_le_length inside]
  exact toPartitionLbaSize_digits fun c member => (decimal_valid n).2.1 c (List.mem_of_mem_take member)

theorem partitionStringLbaSize_length (lba : BitVec 64) : (partitionStringLbaSize lba).length ≤ 21 := by
  obtain ⟨n, small, tail, most, _, shape⟩ := partitionStringLbaSize_shape lba
  have same : decimal n = printed 10 n := rfl
  have digits : (decimal n).length ≤ 20 := by
    rw [same]
    exact printed_length_le (by decide) (by decide) (by omega)
  rw [shape, List.length_append]
  omega

theorem partitionStringLbaSize_plain (lba : BitVec 64) : ∀ c ∈ partitionStringLbaSize lba, c ≠ 44 ∧ c ≠ 59 := by
  obtain ⟨n, _, tail, _, units, shape⟩ := partitionStringLbaSize_shape lba
  rw [shape]
  intro c member
  rcases List.mem_append.mp member with digit | behind
  · have valid := (decimal_valid n).2.1 c digit
    exact ⟨digit_ne valid rfl, digit_ne valid rfl⟩
  · exact units c behind

theorem xstring_length (len : Nat) (s : CString) : 2 * (xstring len s).length ≤ s.countP (isDigit 16) := by
  fun_induction xstring len s with
  | case1 => simp
  | case2 => simp
  | case3 => simp
  | case4 len c d rest positive letter ih =>
    rw [List.countP_cons]
    omega
  | case5 => simp
  | case6 len c d rest positive first second ih =>
    have digits : isDigit 16 c = true ∧ isDigit 16 d = true := by simpa using And.intro first second
    rw [List.countP_cons_of_pos digits.1, List.countP_cons_of_pos digits.2, List.length_cons]
    omega

theorem snprintfUuid_length (guid : EfiGuid) : (snprintfUuid guid).length = 36 := by
  simp [snprintfUuid, List.finRange_succ]

theorem snprintfUuid_digits (guid : EfiGuid) :
    (snprintfUuid guid).countP (isDigit 16) = 32 ∧ ∃ front c, snprintfUuid guid = front ++ [c] ∧ isDigit 16 c = true := by
  have pair (n : Nat) : (hexFixed 2 n).countP (isDigit 16) = 2 := by
    rw [List.countP_eq_length.mpr (hexFixed_valid 2 n), hexFixed_length]
  constructor
  · have dash : isDigit 16 45#8 = false := by decide
    simp [snprintfUuid, List.finRange_succ, pair, dash]
  · let piece (i : Fin 16) : CString := hexFixed 2 guid.b[guidCharOrder[i]].toNat ++
      (if i = 3 ∨ i = 5 ∨ i = 7 ∨ i = 9 then [45] else [])
    have shape : snprintfUuid guid = ((List.finRange 15).map Fin.castSucc).flatMap piece ++ piece (Fin.last 15) := by
      show (List.finRange 16).flatMap piece = _
      rw [List.finRange_succ_last, List.flatMap_append, List.flatMap_singleton]
    have last : piece (Fin.last 15) =
        hexFixed 1 (guid.b[guidCharOrder[15]].toNat / 16) ++ [digitChar (guid.b[guidCharOrder[15]].toNat % 16)] := List.append_nil _
    rw [shape, last, ← List.append_assoc]
    exact ⟨_, _, rfl, digitChar_digit (Nat.mod_lt _ (by decide)) (by decide)⟩

/-- A GUID that ends too early is refused. -/
theorem sscanfUuid_take (guid : EfiGuid) {room : Nat} (short : room < 36) : sscanfUuid .zero ((snprintfUuid guid).take room) = none := by
  obtain ⟨all, front, c, shape, digit⟩ := snprintfUuid_digits guid
  have size := snprintfUuid_length guid
  have pairs := xstring_length 17 ((snprintfUuid guid).take room)
  have fewer : ((snprintfUuid guid).take room).countP (isDigit 16) < 32 := by
    rw [shape, List.length_append, List.length_singleton] at size
    rw [shape, List.countP_append, List.countP_cons_of_pos digit, List.countP_nil] at all
    rw [shape, List.take_append_of_le_length (by omega)]
    have part := (List.take_sublist room front).countP_le (p := isDigit 16)
    omega
  rw [sscanfUuid]
  exact if_pos (by omega)

theorem snprintfUuid_plain (guid : EfiGuid) : ∀ c ∈ snprintfUuid guid, c ≠ 44 ∧ c ≠ 59 := by
  intro c member
  obtain ⟨i, _, inside⟩ := List.mem_flatMap.mp member
  rcases List.mem_append.mp inside with digit | dash
  · have valid := hexFixed_valid 2 _ c digit
    exact ⟨digit_ne valid rfl, digit_ne valid rfl⟩
  · split at dash
    · rw [List.mem_singleton.mp dash]
      decide
    · exact absurd dash List.not_mem_nil

end ImgEditor
