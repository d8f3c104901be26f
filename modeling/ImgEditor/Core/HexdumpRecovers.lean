import ImgEditor.Core.HexdumpListing

namespace ImgEditor

open Storage CText

/-- Both dumps are printed, and they are the same only if the buffers are. -/
def HexdumpRecovers (preline preline' : Vector Byte 16) (indentFmt : Option CString) (baseaddr : BitVec 64)
    (a b : List Byte) : Prop :=
  ∃ s t, hexdumpIndent preline indentFmt a baseaddr = some s ∧ hexdumpIndent preline' indentFmt b baseaddr = some t ∧
    (s = t → a = b)

section Address

theorem hexLong_digits (n : Nat) : ∀ c ∈ hexLong n, isDigit 16 c = true := by
  intro c member
  cases List.mem_append.mp member with
  | inl zero =>
    rw [List.eq_of_mem_replicate zero]
    decide
  | inr digit => exact (printed_valid (show 1 < 16 by decide) (by decide) n).2.1 c digit

theorem numeral_zeros (count : Nat) (digits : CString) :
    numeral 16 (List.replicate count 48 ++ digits) = numeral 16 digits := by
  induction count with
  | zero => rfl
  | succ count ih =>
    rw [List.replicate_succ, List.cons_append, ← ih]
    rfl

theorem hexLong_injective {m n : Nat} (same : hexLong m = hexLong n) : m = n := by
  have value : ∀ n, numeral 16 (hexLong n) = n := by
    intro n
    rw [hexLong, numeral_zeros]
    exact (printed_valid (show 1 < 16 by decide) (by decide) n).2.2.2
  rw [← value m, same, value]

theorem hexLong_length {n : Nat} (small : n < 2 ^ 64) : (hexLong n).length ≤ 16 := by
  have digits := printed_length_le (show 1 < 16 by decide) (show 0 < 16 by decide) (show n < 16 ^ 16 by omega)
  rw [hexLong, List.length_append, List.length_replicate]
  omega

/-- No address begins with a star. -/
theorem hexLong_star (n : Nat) (rest s : List Byte) : hexLong n ++ rest ≠ 42#8 :: s := by
  intro same
  cases digits : hexLong n with
  | nil =>
    have length : (hexLong n).length ≠ 0 := by
      rw [hexLong, List.length_append, List.length_replicate]
      have some_ := List.length_pos_iff.mpr (printed_valid (show 1 < 16 by decide) (by decide) n).1
      omega
    rw [digits] at length
    exact length rfl
  | cons c more =>
    have digit := hexLong_digits n c (by rw [digits]; exact List.mem_cons_self)
    rw [digits, List.cons_append] at same
    rw [(List.cons.inj same).1] at digit
    exact absurd digit (by decide)

/-- An address ends at the blank or at the line feed behind it. -/
theorem hexLong_ends {m n : Nat} {c d : Byte} {rest rest' : List Byte} (stop : isDigit 16 c = false)
    (stop' : isDigit 16 d = false) (same : hexLong m ++ c :: rest = hexLong n ++ d :: rest') :
    m = n ∧ c = d ∧ rest = rest' := by
  obtain ⟨front, behind⟩ := field_ends (hexLong_digits m) (hexLong_digits n) stop stop' same
  exact ⟨hexLong_injective front, behind⟩

theorem address_injective (baseaddr : BitVec 64) {i j : Nat} (small : i ≤ 2 ^ 64 - 1) (small' : j ≤ 2 ^ 64 - 1)
    (same : (baseaddr + BitVec.ofNat 64 i).toNat = (baseaddr + BitVec.ofNat 64 j).toNat) : i = j := by
  have bound := baseaddr.isLt
  rw [BitVec.toNat_add, BitVec.toNat_add, BitVec.toNat_ofNat, BitVec.toNat_ofNat] at same
  omega

end Address

section Line

variable {items items' : List Byte}

theorem hexdumpCell_length (items items' : List Byte) (n j : Nat) :
    (hexdumpCell items 0 n j).length = (hexdumpCell items' 0 n j).length := by
  have width : ∀ items : List Byte, (hexdumpCell items 0 n j).length =
      if n = 0 then 3 else (if j = 0 then [124#8] else []).length + 1 + (if j = 15 then [124#8] else []).length := by
    intro items
    unfold hexdumpCell
    by_cases first : n = 0
    · simp only [if_pos first]
      split
      · rfl
      · rw [List.length_append, hexFixed_length, List.length_singleton]
    · simp only [if_neg first, List.length_append]
      congr 2
      split
      · rfl
      · split <;> rfl
  rw [width items, width items']

theorem hexdumpLine_length (items items' : List Byte) : (hexdumpLine items 0).length = (hexdumpLine items' 0).length := by
  simp only [hexdumpLine, List.length_flatMap, hexdumpCell_length items items']

/-- A column of three blanks is no byte. -/
theorem hexdumpCell_blank (b : Byte) : [32, 32, 32] ≠ hexFixed 2 b.toNat ++ [32#8] := by
  intro equal
  have front := (List.append_inj_left' (show [32, 32] ++ [32#8] = _ from equal) rfl).symm
  have digit := hexFixed_valid 2 b.toNat 32 (by rw [front]; exact List.mem_cons_self)
  exact absurd digit (by decide)

theorem hexdumpCell_injective {j : Nat} (same : hexdumpCell items 0 0 j = hexdumpCell items' 0 0 j) :
    (items.length ≤ j ↔ items'.length ≤ j) ∧ (j < items.length → items.getD j 0 = items'.getD j 0) := by
  simp only [hexdumpCell, ↓reduceIte, Nat.zero_add] at same
  by_cases overflow : items.length ≤ j
  · by_cases overflow' : items'.length ≤ j
    · exact ⟨iff_of_true overflow overflow', fun inside => absurd overflow (by omega)⟩
    · rw [if_pos overflow, if_neg overflow'] at same
      exact absurd same (hexdumpCell_blank _)
  · by_cases overflow' : items'.length ≤ j
    · rw [if_neg overflow, if_pos overflow'] at same
      exact absurd same.symm (hexdumpCell_blank _)
    · rw [if_neg overflow, if_neg overflow'] at same
      have value := congrArg (numeral 16) (List.append_cancel_right same)
      have bound := (items.getD j 0).isLt
      have bound' := (items'.getD j 0).isLt
      rw [numeral_hexFixed, numeral_hexFixed] at value
      exact ⟨iff_of_false overflow overflow', fun _ => BitVec.eq_of_toNat_eq (by omega)⟩

theorem hexdumpLine_injective (short : items.length ≤ 16) (short' : items'.length ≤ 16)
    (same : hexdumpLine items 0 = hexdumpLine items' 0) : items = items' := by
  have columns := flatMap_columns (fun n _ => by simp only [List.length_flatMap, hexdumpCell_length items items']) same
    0 (by decide)
  have cells := flatMap_columns (fun j _ => hexdumpCell_length items items' 0 j) columns
  have known := fun j (column : j < 16) => hexdumpCell_injective (cells j (List.mem_range.mpr column))
  have length : items.length = items'.length := by
    apply Nat.le_antisymm
    · by_contra longer
      have outside := (known items'.length (by omega)).1.mpr (le_refl _)
      omega
    · by_contra longer
      have outside := (known items.length (by omega)).1.mp (le_refl _)
      omega
  apply List.ext_getElem length
  intro j inside inside'
  have byte := (known j (by omega)).2 inside
  rwa [List.getD_eq_getElem _ _ inside, List.getD_eq_getElem _ _ inside'] at byte

end Line

section Text

variable {indent : CString} {baseaddr : BitVec 64}

theorem shown_prefixFree (baseaddr : BitVec 64) : PrefixFree (Squeezed.Within 16 (2 ^ 64 - 1)) (shown baseaddr) := by
  intro x y within within' starts
  obtain ⟨s, same⟩ := starts
  cases x with
  | star =>
    cases y with
    | star => rfl
    | line i items =>
      simp only [shown, List.append_assoc] at same
      exact absurd same.symm (hexLong_star _ _ _)
    | ended i => exact absurd same.symm (hexLong_star _ _ _)
  | line i items =>
    simp only [shown, List.append_assoc, List.singleton_append] at same
    cases y with
    | star => exact absurd same (hexLong_star _ _ _)
    | line j items' =>
      dsimp only at same
      obtain ⟨address, _, rest⟩ := hexLong_ends (by decide) (by decide) same
      rw [address_injective baseaddr within.1 within'.1 address,
        hexdumpLine_injective within.2 within'.2 (List.append_inj rest (hexdumpLine_length _ _)).1]
    | ended j =>
      obtain ⟨_, mark, _⟩ := hexLong_ends (by decide) (by decide) same
      exact absurd mark (by decide)
  | ended i =>
    simp only [shown, List.append_assoc, List.singleton_append] at same
    cases y with
    | star => exact absurd same (hexLong_star _ _ _)
    | line j items' =>
      dsimp only at same
      obtain ⟨_, mark, _⟩ := hexLong_ends (by decide) (by decide) same
      exact absurd mark (by decide)
    | ended j =>
      obtain ⟨address, _⟩ := hexLong_ends (by decide) (by decide) same
      rw [address_injective baseaddr within within' address]

theorem shown_ne_nil (entry : Squeezed Byte) : shown baseaddr entry ≠ [] := by
  cases entry with
  | star => exact nofun
  | line i items => exact List.append_ne_nil_of_right_ne_nil _ nofun
  | ended i => exact List.append_ne_nil_of_right_ne_nil _ nofun

theorem squeezed_small {buf : List Byte} (small : buf.length < 2 ^ 31) :
    ∀ entry ∈ squeezed 16 buf, entry.Within 16 (2 ^ 64 - 1) := by
  intro entry member
  have within := squeezed_within (show 0 < 16 by decide) buf entry member
  cases entry with
  | star => trivial
  | line i items => exact ⟨by have bound := within.1; omega, within.2⟩
  | ended i =>
    have bound : i ≤ 16 * (buf.length + 1) := within
    show i ≤ 2 ^ 64 - 1
    omega

/-- The dump of a buffer with a line is longer than the end address of an empty one. -/
theorem shownListing_line {buf : List Byte} (some_ : buf ≠ []) :
    (shownListing indent baseaddr (squeezed 16 [])).length < (shownListing indent baseaddr (squeezed 16 buf)).length := by
  have columns : (hexdumpLine (buf.take 16) 0).length = 66 := (hexdumpLine_length _ []).trans (by decide)
  have address := hexLong_length (baseaddr + BitVec.ofNat 64 0).isLt
  obtain ⟨entry, more, listing⟩ := List.exists_cons_of_ne_nil
    (squeeze_ne_nil (show 0 < 16 by decide) 16 (buf.take 16) (buf.drop 16) false)
  rw [squeezed, if_pos rfl, squeezed, if_neg some_, listing, shownListing, shownListing, List.flatMap_singleton,
    List.flatMap_cons, shown, shown]
  · simp only [List.length_append, List.length_singleton, columns]
    omega
  · intro i items more same
    cases same

theorem shownListing_injective {a b : List Byte} (smallA : a.length < 2 ^ 31) (smallB : b.length < 2 ^ 31)
    (same : shownListing indent baseaddr (squeezed 16 a) = shownListing indent baseaddr (squeezed 16 b)) :
    squeezed 16 a = squeezed 16 b := by
  have withinA := squeezed_small smallA
  have withinB := squeezed_small smallB
  by_cases emptyA : a = []
  · by_cases emptyB : b = []
    · rw [emptyA, emptyB]
    · have longer := @shownListing_line indent baseaddr b emptyB
      rw [← same, emptyA] at longer
      omega
  · by_cases emptyB : b = []
    · have longer := @shownListing_line indent baseaddr a emptyA
      rw [same, emptyB] at longer
      omega
    · rw [squeezed, if_neg emptyA] at same withinA ⊢
      rw [squeezed, if_neg emptyB] at same withinB ⊢
      rw [shownListing, shownListing] at same
      obtain ⟨first, rest⟩ := (shown_prefixFree baseaddr).cons_inj (withinA _ List.mem_cons_self)
        (withinB _ List.mem_cons_self) same
      rw [first, ((shown_prefixFree baseaddr).header indent).flatMap_inj
        (fun entry => List.append_ne_nil_of_right_ne_nil _ (shown_ne_nil entry))
        (fun entry member => withinA entry (List.mem_cons_of_mem _ member))
        (fun entry member => withinB entry (List.mem_cons_of_mem _ member)) rest]

end Text

/-- The dumps tell buffers of less than 2 GiB apart, except where the last lines repeat fronts of the line before. -/
theorem hexdumpIndent_recovers_iff (preline preline' : Vector Byte 16) (indentFmt : Option CString)
    (baseaddr : BitVec 64) (a b : List Byte) :
    HexdumpRecovers preline preline' indentFmt baseaddr a b ↔
      a.length < 2 ^ 31 ∧ b.length < 2 ^ 31 ∧ ¬ClippedApart 16 a b := by
  refine ⟨fun ⟨s, t, first, second, recovers⟩ => ?_, fun ⟨smallA, smallB, told⟩ => ?_⟩
  · have small : ∀ {preline buf s}, hexdumpIndent preline indentFmt buf baseaddr = some s → buf.length < 2 ^ 31 := by
      intro preline buf s printed
      by_contra large
      rw [hexdumpIndent_large (Nat.not_lt.mp large)] at printed
      cases printed
    refine ⟨small first, small second, fun clipped => ?_⟩
    rw [hexdumpIndent_listing (small first)] at first
    rw [hexdumpIndent_listing (small second), ← (squeezed_eq_iff (by decide) a b).mpr (.inr clipped), first] at second
    obtain ⟨front, line, k, m, _, width, kept, kept', apart, rfl, rfl⟩ := clipped
    have lengths := congrArg List.length (List.append_cancel_left (recovers (Option.some.inj second)))
    rw [List.length_take, List.length_take] at lengths
    omega
  · refine ⟨_, _, hexdumpIndent_listing smallA _ _ _, hexdumpIndent_listing smallB _ _ _, fun same => ?_⟩
    exact ((squeezed_eq_iff (by decide) a b).mp (shownListing_injective smallA smallB same)).resolve_right told

theorem hexdump_zeros_same : ∃ s, hexdump (.replicate 16 0) (List.replicate 32 0) 0 = some s ∧
    hexdump (.replicate 16 0) (List.replicate 31 0) 0 = some s ∧ List.replicate 32 (0#8) ≠ List.replicate 31 0#8 := by
  have same : hexdump (.replicate 16 0) (List.replicate 32 0) 0 = hexdump (.replicate 16 0) (List.replicate 31 0) 0 := by
    decide
  obtain ⟨s, printed⟩ : ∃ s, hexdump (.replicate 16 0) (List.replicate 32 0) 0 = some s :=
    Option.isSome_iff_exists.mp (by decide)
  exact ⟨s, printed, same ▸ printed, by decide⟩

end ImgEditor
