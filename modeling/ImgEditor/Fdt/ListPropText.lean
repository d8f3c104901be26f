import ImgEditor.Fdt.ListProp

namespace ImgEditor

open Storage CText

/-! ## Numbers -/

theorem printInt_token (n : BitVec 32) : IsToken isNumberChar (printInt n) := by
  unfold printInt
  split
  · exact decimal_token n.toNat
  · obtain ⟨_, valid⟩ := decimal_token (2^32 - n.toNat)
    refine ⟨by simp, fun c member => ?_⟩
    rcases List.mem_cons.mp member with rfl | member
    · decide
    · exact valid c member

theorem printInt_plain (n : BitVec 32) : 120 ∉ printInt n := by
  have digits : ∀ m, (120 : Byte) ∉ decimal m := by
    intro m member
    have digit := (decimal_valid m).2.1 _ member
    exact absurd digit (by decide)
  unfold printInt
  split
  · exact digits _
  · intro member
    rcases List.mem_cons.mp member with here | member
    · exact absurd here (by decide)
    · exact digits _ member

theorem printInt_inj {m n : BitVec 32} (same : printInt m = printInt n) : m = n := by
  have unsigned : ∀ k, (45 : Byte) ∉ decimal k := fun k member => ((decimal_valid k).2.2.1 _ member).2.1 rfl
  have small := m.isLt
  have small' := n.isLt
  unfold printInt at same
  apply BitVec.eq_of_toNat_eq
  split at same
  · split at same
    · exact decimal_inj same
    · exact absurd (by rw [same]; exact List.mem_cons_self) (unsigned m.toNat)
  · split at same
    · exact absurd (by rw [← same]; exact List.mem_cons_self) (unsigned n.toNat)
    · have parts := decimal_inj (List.cons.inj same).2
      omega

theorem fdtHexWidth_fits (n : BitVec 32) : n.toNat < 16 ^ fdtHexWidth n.toNat := by
  have small := n.isLt
  unfold fdtHexWidth
  repeat' split
  · exact small
  all_goals omega

theorem hex_inj {m n : BitVec 32} (same : hexFixed (fdtHexWidth m.toNat) m.toNat = hexFixed (fdtHexWidth n.toNat) n.toNat) :
    m = n := by
  have value := numeral_hexFixed (fdtHexWidth m.toNat) m.toNat
  rw [same, numeral_hexFixed, Nat.mod_eq_of_lt (fdtHexWidth_fits n), Nat.mod_eq_of_lt (fdtHexWidth_fits m)] at value
  exact BitVec.eq_of_toNat_eq value.symm

theorem hexByte_inj {a b : Byte} (same : hexFixed 2 a.toNat = hexFixed 2 b.toNat) : a = b := by
  have value := numeral_hexFixed 2 a.toNat
  rw [same, numeral_hexFixed, Nat.mod_eq_of_lt (by have := b.isLt; omega), Nat.mod_eq_of_lt (by have := a.isLt; omega)] at value
  exact BitVec.eq_of_toNat_eq value.symm

theorem cstr_hex : cstr "0x" = [48, 120] := by decide

theorem autobase_ten (n : BitVec 32) : fdtPropPrintNumberAutobase n 10 = printInt n := rfl

theorem autobase_sixteen (n : BitVec 32) :
    fdtPropPrintNumberAutobase n 16 = 48 :: 120 :: hexFixed (fdtHexWidth n.toNat) n.toNat := by
  rw [fdtPropPrintNumberAutobase, if_neg (by simp), cstr_hex]
  rfl

theorem autobase_token (n : BitVec 32) (base : Nat) : IsToken isNumberChar (fdtPropPrintNumberAutobase n base) := by
  unfold fdtPropPrintNumberAutobase
  split
  · exact printInt_token n
  · rw [cstr_hex]
    exact hex_token _ _

theorem autobase_apart (m n : BitVec 32) : fdtPropPrintNumberAutobase m 10 ≠ fdtPropPrintNumberAutobase n 16 := by
  rw [autobase_ten, autobase_sixteen]
  intro same
  exact printInt_plain m (by rw [same]; simp)

theorem autobase_inj {m n : BitVec 32} {base base' : Nat} (known : base = 10 ∨ base = 16) (known' : base' = 10 ∨ base' = 16)
    (same : fdtPropPrintNumberAutobase m base = fdtPropPrintNumberAutobase n base') : base = base' ∧ m = n := by
  rcases known with rfl | rfl
  · rcases known' with rfl | rfl
    · rw [autobase_ten, autobase_ten] at same
      exact ⟨rfl, printInt_inj same⟩
    · exact absurd same (autobase_apart m n)
  · rcases known' with rfl | rfl
    · exact absurd same.symm (autobase_apart n m)
    · rw [autobase_sixteen, autobase_sixteen] at same
      exact ⟨rfl, hex_inj (List.cons.inj (List.cons.inj same).2).2⟩

/-! ## Cells -/

theorem be32_cell_inj {a b c d a' b' c' d' : Byte} (same : be32 [a, b, c, d] 0 = be32 [a', b', c', d'] 0) :
    [a, b, c, d] = [a', b', c', d'] := by
  have value := congrArg BitVec.toNat same
  simp only [be32, List.drop_zero, List.take_succ_cons, List.take_zero, List.reverse_cons, List.reverse_nil, List.nil_append,
    List.cons_append, leNumber, BitVec.toNat_ofNat] at value
  have bounds := And.intro a.isLt (And.intro b.isLt (And.intro c.isLt d.isLt))
  have bounds' := And.intro a'.isLt (And.intro b'.isLt (And.intro c'.isLt d'.isLt))
  rw [List.cons_eq_cons, List.cons_eq_cons, List.cons_eq_cons, List.cons_eq_cons]
  refine ⟨?_, ?_, ?_, ?_, rfl⟩
  all_goals
    apply BitVec.eq_of_toNat_eq
    omega

theorem short_length {data : List Byte} (short : ∀ a b c d rest, data = a :: b :: c :: d :: rest → False) : data.length < 4 := by
  match data with
  | [] | [_] | [_, _] | [_, _, _] => simp
  | a :: b :: c :: d :: rest => exact (short a b c d rest rfl).elim

theorem fdtCells_length (data : List Byte) : (fdtCells data).length = data.length / 4 := by
  fun_induction fdtCells data with
  | case1 a b c d rest ih =>
    simp only [List.length_cons, ih]
    omega
  | case2 data short =>
    have bound := short_length short
    rw [List.length_nil]
    omega

theorem fdtCells_inj {v w : List Byte} (whole : v.length % 4 = 0) (whole' : w.length % 4 = 0) (same : fdtCells v = fdtCells w) :
    v = w := by
  fun_induction fdtCells v generalizing w with
  | case1 a b c d rest ih =>
    match w with
    | [] | [_] | [_, _] | [_, _, _] => cases same
    | a' :: b' :: c' :: d' :: rest' =>
      obtain ⟨cell, cells⟩ := List.cons.inj same
      have first := be32_cell_inj cell
      have more := ih (by simp only [List.length_cons] at whole; omega) (by simp only [List.length_cons] at whole'; omega) cells
      simp only [List.cons.injEq, and_true] at first ⊢
      exact ⟨first.1, first.2.1, first.2.2.1, first.2.2.2, more⟩
  | case2 data short =>
    have bound := short_length short
    have count := congrArg List.length same
    rw [fdtCells_length, List.length_nil] at count
    rw [List.eq_nil_of_length_eq_zero (show data.length = 0 by omega),
      List.eq_nil_of_length_eq_zero (show w.length = 0 by omega)]

theorem fdtCells_short {data : List Byte} (short : data.length < 4) : fdtCells data = [] := by
  apply List.eq_nil_of_length_eq_zero
  rw [fdtCells_length]
  omega

theorem fdtCells_take (data : List Byte) (count : Nat) : (fdtCells data).take count = fdtCells (data.take (4 * count)) := by
  fun_induction fdtCells data generalizing count with
  | case1 a b c d rest ih =>
    cases count with
    | zero => rfl
    | succ count =>
      rw [show 4 * (count + 1) = 4 * count + 4 by omega]
      simp only [List.take_succ_cons, fdtCells, ih]
  | case2 data short =>
    have bound := short_length short
    rw [List.take_nil, fdtCells_short]
    rw [List.length_take]
    omega

def regBase (n : BitVec 32) : Nat := if n.toNat ≤ 10 then 10 else 16

def shownCells (data : List Byte) : List CString :=
  ((fdtCells data).take 32).map fun n => fdtPropPrintNumberAutobase n (fdtPropNumberArrayDetectBase ((fdtCells data).take 32))

def zeroPhandles : Nat → CString
  | 0 => []
  | count + 1 => cstr ", <0>" ++ zeroPhandles count

/-- The same listing where no phandle leads to a node. -/
def FdtListing.unresolved (fdt : FdtListing) : FdtListing := { fdt with targets := fun _ _ _ _ => none }

/-- No printer but the last takes the value: it is a plain list of numbers. -/
structure FdtPlainNumbers (fdt : FdtListing) (name : CString) (data : List Byte) : Prop where
  simple : fdtPropPrintSimpleValue fdt.incbin data = none
  u32 : fdtPropPrintU32Number name data = none
  reg : fdtPropPrintReg name data = none
  labels : fdtPropPrintLabels fdt.unresolved name data = none

/-- What stands behind the first number when a value of that name is printed between angle brackets: the items and the
text that ends them. -/
inductive FdtNumbers (fdt : FdtListing) (name : CString) (data : List Byte) : List CString → CString → Prop
  | u32 (size : data.length = 4) (listed : name ∈ fdtU32PropLists) : FdtNumbers fdt name data [printInt (be32 data 0)] (cstr ">;")
  | reg (named : name = cstr "reg") (whole : data.length % 4 = 0) :
    FdtNumbers fdt name data ((fdtCells data).map fun n => fdtPropPrintNumberAutobase n (regBase n)) (cstr ">;")
  | zeros (count : Nat) (zero : data = List.replicate (4 * (count + 1)) 0#8) (other : name ∈ fdtU32PropLists → data.length ≠ 4)
    (notReg : name ≠ cstr "reg") :
    FdtNumbers fdt name data [cstr "0"] (62 :: (zeroPhandles count ++ cstr ";"))
  | cells (other : name ∈ fdtU32PropLists → data.length ≠ 4) (notReg : name ≠ cstr "reg") (whole : data.length % 4 = 0)
    (plain : FdtPlainNumbers fdt name data) :
    FdtNumbers fdt name data (shownCells data)
      ((if 32 < data.length / 4 then fdtStripedText data.length else []) ++ cstr ">;")

/-- Two lists of numbers that differ only behind the first 32 items, which is all that is shown of them. -/
structure FdtSameShown (fdt : FdtListing) (name : CString) (v w : List Byte) : Prop where
  left : FdtPlainNumbers fdt name v
  right : FdtPlainNumbers fdt name w
  length : v.length = w.length
  items : if v.length % 4 = 0 then v.take 128 = w.take 128 else v.take 32 = w.take 32

theorem regBase_known (n : BitVec 32) : regBase n = 10 ∨ regBase n = 16 := by
  unfold regBase
  split <;> simp

theorem detectBase_known (arrays : List (BitVec 32)) :
    fdtPropNumberArrayDetectBase arrays = 10 ∨ fdtPropNumberArrayDetectBase arrays = 16 := by
  unfold fdtPropNumberArrayDetectBase
  dsimp only
  split <;> simp

theorem regCells_inj {v w : List (BitVec 32)}
    (same : v.map (fun n => fdtPropPrintNumberAutobase n (regBase n)) =
      w.map fun n => fdtPropPrintNumberAutobase n (regBase n)) : v = w := by
  apply List.map_injective_iff.mpr _ same
  intro m n equal
  exact (autobase_inj (regBase_known m) (regBase_known n) equal).2

theorem shownCells_inj {v w : List Byte} (same : shownCells v = shownCells w) :
    (fdtCells v).take 32 = (fdtCells w).take 32 := by
  unfold shownCells at same
  generalize (fdtCells v).take 32 = left at same
  generalize (fdtCells w).take 32 = right at same
  cases left with
  | nil =>
    rw [List.map_nil, eq_comm, List.map_eq_nil_iff] at same
    exact same.symm
  | cons m left =>
    cases right with
    | nil => simp at same
    | cons n right =>
      have first := (List.cons.inj same).1
      obtain ⟨base, _⟩ := autobase_inj (detectBase_known _) (detectBase_known _) first
      rw [base] at same
      apply List.map_injective_iff.mpr _ same
      intro a b equal
      exact (autobase_inj (detectBase_known _) (detectBase_known _) equal).2

theorem cstr_angle : cstr ">;" = [62, 59] := by decide

theorem striped_ends (n : Nat) (rest : CString) :
    ∃ more, fdtStripedText n ++ rest = 46 :: 46 :: 46 :: 32 :: more := by
  have dots : cstr "... (total = " = [46, 46, 46, 32, 40, 116, 111, 116, 97, 108, 32, 61, 32] := by decide
  rw [fdtStripedText, dots]
  exact ⟨_, rfl⟩

theorem striped_inj {m n : Nat} {rest more : CString} (same : fdtStripedText m ++ rest = fdtStripedText n ++ more) : m = n := by
  have close : cstr ")" = [41] := by decide
  rw [fdtStripedText, fdtStripedText, close, List.append_assoc, List.append_assoc, List.append_assoc, List.append_assoc] at same
  have digits := token_append_inj (p := isDigit 10) (decimal_valid m).2.1 (decimal_valid n).2.1 (by simp; decide) (by simp; decide)
    (List.append_cancel_left same)
  exact decimal_inj digits.1

theorem zeroPhandles_length (count : Nat) : (zeroPhandles count).length = 5 * count := by
  have width : (cstr ", <0>").length = 5 := by decide
  induction count with
  | zero => rfl
  | succ count ih =>
    rw [zeroPhandles, List.length_append, ih, width]
    omega

theorem zeroPhandles_end {count : Nat} (same : (62 : Byte) :: (zeroPhandles count ++ cstr ";") = cstr ">;") : count = 0 := by
  have length := congrArg List.length same
  have width : (cstr ">;").length = 2 := by decide
  have width' : (cstr ";").length = 1 := by decide
  rw [List.length_cons, List.length_append, zeroPhandles_length, width, width'] at length
  omega

theorem shownCells_length (data : List Byte) : (shownCells data).length = min 32 (data.length / 4) := by
  rw [shownCells, List.length_map, List.length_take, fdtCells_length]

theorem fdtCells_single {data : List Byte} (size : data.length = 4) : fdtCells data = [be32 data 0] := by
  match data, size with
  | [_, _, _, _], _ => rfl

theorem zeros_cells {count : Nat} {w : List Byte} (whole : w.length % 4 = 0) (same : [cstr "0"] = shownCells w)
    (ends : (62 : Byte) :: (zeroPhandles count ++ cstr ";") =
      (if 32 < w.length / 4 then fdtStripedText w.length else []) ++ cstr ">;") :
    List.replicate (4 * (count + 1)) 0#8 = w := by
  have length := congrArg List.length same
  rw [shownCells_length, List.length_singleton] at length
  have size : w.length = 4 := by omega
  rw [if_neg (by omega), List.nil_append] at ends
  have zero : cstr "0" = fdtPropPrintNumberAutobase 0 10 := by decide
  rw [shownCells, fdtCells_single size, zero] at same
  simp only [List.take_succ_cons, List.take_nil, List.map_cons, List.map_nil, List.cons.injEq, and_true] at same
  obtain ⟨_, value⟩ := autobase_inj (Or.inl rfl) (detectBase_known _) same
  apply fdtCells_inj (by simp) whole
  rw [zeroPhandles_end ends, fdtCells_single size, ← value]
  decide

theorem FdtNumbers.inj {fdt : FdtListing} {name : CString} {v w : List Byte} {items others : List CString} {tail closing : CString}
    (left : FdtNumbers fdt name v items tail) (right : FdtNumbers fdt name w others closing) (same : items = others)
    (ends : tail = closing) : v = w ∨ FdtSameShown fdt name v w := by
  have reg_listed : cstr "reg" ∉ fdtU32PropLists := by decide
  cases left with
  | u32 size listed =>
    cases right with
    | u32 size' _ =>
      left
      apply fdtCells_inj (by rw [size]) (by rw [size'])
      rw [fdtCells_single size, fdtCells_single size', printInt_inj (List.cons.inj same).1]
    | reg named => exact absurd (named ▸ listed) reg_listed
    | zeros count zero other =>
      rw [zeroPhandles_end ends.symm] at zero
      exact absurd (by rw [zero]; rfl) (other listed)
    | cells other _ whole =>
      have length := congrArg List.length same
      rw [shownCells_length, List.length_singleton] at length
      exact absurd (by omega) (other listed)
  | reg named whole =>
    cases right with
    | u32 _ listed => exact absurd (named ▸ listed) reg_listed
    | reg _ whole' => exact Or.inl (fdtCells_inj whole whole' (regCells_inj same))
    | zeros _ _ _ notReg => exact absurd named notReg
    | cells _ notReg => exact absurd named notReg
  | zeros count zero other notReg =>
    cases right with
    | u32 _ listed =>
      rw [zeroPhandles_end ends] at zero
      exact absurd (by rw [zero]; rfl) (other listed)
    | reg named => exact absurd named notReg
    | zeros count' zero' =>
      have length := congrArg List.length ends
      simp only [List.length_cons, List.length_append, zeroPhandles_length] at length
      rw [zero, zero', show count = count' by omega]
      exact Or.inl rfl
    | cells _ _ whole =>
      rw [zero]
      exact Or.inl (zeros_cells whole same ends)
  | cells other notReg whole plain =>
    cases right with
    | u32 _ listed =>
      have length := congrArg List.length same
      rw [shownCells_length, List.length_singleton] at length
      exact absurd (by omega) (other listed)
    | reg named => exact absurd named notReg
    | zeros count zero =>
      rw [zero]
      exact Or.inl (zeros_cells whole same.symm ends.symm).symm
    | cells _ _ whole' plain' =>
      have shown := shownCells_inj same
      rw [cstr_angle] at ends
      split at ends
      · split at ends
        · have size := striped_inj ends
          right
          rw [fdtCells_take, fdtCells_take] at shown
          refine ⟨plain, plain', size, ?_⟩
          rw [if_pos whole]
          exact fdtCells_inj (by rw [List.length_take]; omega) (by rw [List.length_take]; omega) shown
        · obtain ⟨more, dots⟩ := striped_ends v.length [62, 59]
          rw [dots] at ends
          exact absurd (List.cons.inj ends).1 (by decide)
      · split at ends
        · obtain ⟨more, dots⟩ := striped_ends w.length [62, 59]
          rw [dots] at ends
          exact absurd (List.cons.inj ends).1 (by decide)
        · rw [List.take_of_length_le (by rw [fdtCells_length]; omega),
            List.take_of_length_le (by rw [fdtCells_length]; omega)] at shown
          exact Or.inl (fdtCells_inj whole whole' shown)

/-! ## All formats -/

theorem fdtMultiStringsText_inj {v w : List Byte} (filled : v ≠ []) (filled' : w ≠ []) (last : v.getLastD 0 = 0)
    (last' : w.getLastD 0 = 0) (clean : (34 : Byte) ∉ v) (clean' : (34 : Byte) ∉ w)
    (same : fdtMultiStringsText v = fdtMultiStringsText w) : v = w := by
  have close : cstr "\";" = [34, 59] := by decide
  have separator : cstr "\", \"" = [34, 44, 32, 34] := by decide
  induction v generalizing w with
  | nil => exact absurd rfl filled
  | cons c rest ih =>
    cases w with
    | nil => exact absurd rfl filled'
    | cons d more =>
      cases rest with
      | nil =>
        obtain rfl : c = 0 := last
        cases more with
        | nil =>
          obtain rfl : d = 0 := last'
          rfl
        | cons e more =>
          simp only [fdtMultiStringsText, ↓reduceIte, close, separator] at same
          split at same
          · exact absurd (List.cons.inj (List.cons.inj same).2).1 (by decide)
          · exact absurd (by rw [← (List.cons.inj same).1]; exact List.mem_cons_self) clean'
      | cons b rest =>
        cases more with
        | nil =>
          obtain rfl : d = 0 := last'
          simp only [fdtMultiStringsText, ↓reduceIte, close, separator] at same
          split at same
          · exact absurd (List.cons.inj (List.cons.inj same).2).1 (by decide)
          · exact absurd (by rw [(List.cons.inj same).1]; exact List.mem_cons_self) clean
        | cons e more =>
          have tails : ∀ {t : CString}, t ++ fdtMultiStringsText (b :: rest) = t ++ fdtMultiStringsText (e :: more) →
              b :: rest = e :: more := fun equal =>
            ih (by simp) (by simp) (by simpa using last) (by simpa using last')
              (fun member => clean (List.mem_cons_of_mem _ member)) (fun member => clean' (List.mem_cons_of_mem _ member))
              (List.append_cancel_left equal)
          simp only [fdtMultiStringsText, separator] at same
          by_cases zero : c = 0
          · by_cases zero' : d = 0
            · rw [if_pos zero, if_pos zero'] at same
              rw [zero, zero', tails same]
            · rw [if_pos zero, if_neg zero'] at same
              exact absurd (by rw [← (List.cons.inj same).1]; exact List.mem_cons_self) clean'
          · by_cases zero' : d = 0
            · rw [if_neg zero, if_pos zero'] at same
              exact absurd (by rw [(List.cons.inj same).1]; exact List.mem_cons_self) clean
            · rw [if_neg zero, if_neg zero'] at same
              obtain ⟨rfl, _⟩ := List.cons.inj same
              rw [tails same]

theorem takeWhile_zero_inj {v w : List Byte} (filled : v ≠ []) (filled' : w ≠ []) (last : v.getLastD 0 = 0)
    (last' : w.getLastD 0 = 0) (whole : (0 : Byte) ∉ v.dropLast) (whole' : (0 : Byte) ∉ w.dropLast)
    (same : v.takeWhile (· ≠ 0) = w.takeWhile (· ≠ 0)) : v = w := by
  have ends : ∀ u : List Byte, u ≠ [] → u.getLastD 0 = 0 → (0 : Byte) ∉ u.dropLast → u = u.takeWhile (· ≠ 0) ++ [0] := by
    intro u some_ zero clean
    have parts := List.dropLast_append_getLast some_
    rw [List.getLastD_eq_getLast?, List.getLast?_eq_getLast_of_ne_nil some_, Option.getD_some] at zero
    rw [zero] at parts
    have before : u.takeWhile (· ≠ 0) = u.dropLast := by
      conv_lhs => rw [← parts]
      rw [List.takeWhile_append_of_pos]
      · simp
      · intro c member
        have other : c ≠ 0 := by
          rintro rfl
          exact clean member
        simpa using other
    rw [before, parts]
  rw [ends v filled last whole, same, ← ends w filled' last' whole']

/-- The formats, told apart by the character behind the equals sign. -/
inductive FdtForm where
  | empty
  | incbin
  | strings
  | numbers
  | bytes
deriving DecidableEq

def FdtForm.lead : FdtForm → Byte
  | .empty => 0
  | .incbin => 47
  | .strings => 34
  | .numbers => 60
  | .bytes => 91

theorem FdtForm.lead_inj {f g : FdtForm} (same : f.lead = g.lead) : f = g := by
  cases f <;> cases g <;> first | rfl | exact absurd same (by decide)

def shownBytes (data : List Byte) : List CString := (data.take 32).map fun b => 48 :: 120 :: hexFixed 2 b.toNat

/-- How a value is printed when no phandle is looked up. -/
inductive FdtPrinted (fdt : FdtListing) (name : CString) (data : List Byte) : FdtForm → CString → Prop
  | empty (none : data = []) : FdtPrinted fdt name data .empty (cstr ";")
  | incbin (start : data.take 8 = cstr "/incbin/") (last : data.getLastD 0 = 0) (whole : (0 : Byte) ∉ data.dropLast) :
    FdtPrinted fdt name data .incbin (cstr " = " ++ data.takeWhile (· ≠ 0) ++ cstr ";")
  | strings (filled : data ≠ []) (last : data.getLastD 0 = 0) (clean : (34 : Byte) ∉ data) :
    FdtPrinted fdt name data .strings (cstr " = \"" ++ fdtMultiStringsText data)
  | numbers {items : List CString} {tail : CString} (filled : data ≠ []) (shown : FdtNumbers fdt name data items tail) :
    FdtPrinted fdt name data .numbers (cstr " = <" ++ (spaced items ++ tail))
  | bytes (part : data.length % 4 ≠ 0) (plain : FdtPlainNumbers fdt name data) :
    FdtPrinted fdt name data .bytes
      (cstr " = [" ++ (spaced (shownBytes data) ++
        ((if 32 < data.length then 32 :: fdtStripedText data.length else []) ++ cstr "];")))

theorem FdtPrinted.lead {fdt : FdtListing} {name : CString} {data text : List Byte} {form : FdtForm}
    (printed : FdtPrinted fdt name data form text) : text.getD 3 0 = form.lead := by
  cases printed with
  | empty => decide
  | incbin start last whole =>
    have blank : cstr " = " = [32, 61, 32] := by decide
    have slash : cstr "/incbin/" = [47, 105, 110, 99, 98, 105, 110, 47] := by decide
    match data with
    | [] =>
      rw [slash] at start
      cases start
    | c :: rest =>
      rw [slash, List.take_succ_cons] at start
      rw [blank, (List.cons.inj start).1]
      rfl
  | strings =>
    rw [show cstr " = \"" = [32, 61, 32, 34] by decide]
    rfl
  | numbers =>
    rw [show cstr " = <" = [32, 61, 32, 60] by decide]
    rfl
  | bytes =>
    rw [show cstr " = [" = [32, 61, 32, 91] by decide]
    rfl

theorem FdtNumbers.tokens {fdt : FdtListing} {name : CString} {data : List Byte} {items : List CString} {tail : CString} (filled : data ≠ [])
    (shown : FdtNumbers fdt name data items tail) :
    items ≠ [] ∧ (∀ t ∈ items, IsToken isNumberChar t) ∧ EndsTokens isNumberChar tail := by
  have angle : EndsTokens isNumberChar (cstr ">;") := ⟨62, [59], cstr_angle, by decide, nofun⟩
  have length := List.length_pos_iff.mpr filled
  cases shown with
  | u32 => exact ⟨by simp, by simpa using printInt_token _, angle⟩
  | reg named whole =>
    refine ⟨?_, ?_, angle⟩
    · intro none
      have size := congrArg List.length none
      rw [List.length_map, fdtCells_length, List.length_nil] at size
      omega
    · intro t member
      obtain ⟨n, _, rfl⟩ := List.mem_map.mp member
      exact autobase_token n _
  | zeros =>
    refine ⟨by simp, ?_, ⟨62, _, rfl, by decide, nofun⟩⟩
    intro t member
    rw [List.mem_singleton.mp member, show cstr "0" = decimal 0 by decide]
    exact decimal_token 0
  | cells _ _ whole =>
    refine ⟨?_, ?_, ?_⟩
    · intro none
      have size := congrArg List.length none
      rw [shownCells_length, List.length_nil] at size
      omega
    · intro t member
      obtain ⟨n, _, rfl⟩ := List.mem_map.mp member
      exact autobase_token n _
    · split
      · obtain ⟨more, dots⟩ := striped_ends data.length (cstr ">;")
        exact ⟨46, _, dots, by decide, nofun⟩
      · exact angle

theorem shownBytes_tokens {data : List Byte} (part : data.length % 4 ≠ 0) :
    shownBytes data ≠ [] ∧ (∀ t ∈ shownBytes data, IsToken isNumberChar t) ∧
      EndsTokens isNumberChar ((if 32 < data.length then 32 :: fdtStripedText data.length else []) ++ cstr "];") := by
  refine ⟨?_, ?_, ?_⟩
  · intro none
    have size := congrArg List.length none
    rw [shownBytes, List.length_map, List.length_take, List.length_nil] at size
    omega
  · intro t member
    obtain ⟨b, _, rfl⟩ := List.mem_map.mp member
    exact hex_token 2 _
  · split
    · obtain ⟨more, dots⟩ := striped_ends data.length (cstr "];")
      rw [List.cons_append, dots]
      exact ⟨32, _, rfl, by decide, fun _ => ⟨46, _, rfl, by decide⟩⟩
    · exact ⟨93, [59], by decide, by decide, nofun⟩

theorem shownBytes_inj {v w : List Byte} (same : shownBytes v = shownBytes w) : v.take 32 = w.take 32 := by
  apply List.map_injective_iff.mpr _ same
  intro a b equal
  exact hexByte_inj (List.cons.inj (List.cons.inj equal).2).2

theorem stripedBytes_inj {fdt : FdtListing} {name : CString} {v w : List Byte} (plain : FdtPlainNumbers fdt name v)
    (plain' : FdtPlainNumbers fdt name w) (shown : v.take 32 = w.take 32) (part : v.length % 4 ≠ 0)
    (same : (if 32 < v.length then 32 :: fdtStripedText v.length else []) ++ cstr "];" =
      (if 32 < w.length then 32 :: fdtStripedText w.length else []) ++ cstr "];") : v = w ∨ FdtSameShown fdt name v w := by
  have bracket : cstr "];" = [93, 59] := by decide
  rw [bracket] at same
  split at same
  · split at same
    · right
      exact ⟨plain, plain', striped_inj (List.cons.inj same).2, by rw [if_neg part]; exact shown⟩
    · exact absurd (List.cons.inj same).1 (by decide)
  · split at same
    · exact absurd (List.cons.inj same).1 (by decide)
    · left
      rw [List.take_of_length_le (by omega), List.take_of_length_le (by omega)] at shown
      exact shown

/-- Two values of one property with the same text are the same as far as the text goes. -/
theorem FdtPrinted.inj {fdt : FdtListing} {name : CString} {v w text : List Byte} {form form' : FdtForm}
    (left : FdtPrinted fdt name v form text) (right : FdtPrinted fdt name w form' text) : v = w ∨ FdtSameShown fdt name v w := by
  obtain rfl := FdtForm.lead_inj (left.lead.symm.trans right.lead)
  generalize named : text = other at right
  cases left with
  | empty none =>
    cases right with
    | empty none' => exact Or.inl (none.trans none'.symm)
  | incbin start last whole =>
    cases right with
    | incbin start' last' whole' =>
      have filled : ∀ {u : List Byte}, u.take 8 = cstr "/incbin/" → u ≠ [] := by
        rintro u first rfl
        exact absurd first (by decide)
      rw [List.append_assoc, List.append_assoc] at named
      exact Or.inl (takeWhile_zero_inj (filled start) (filled start') last last' whole whole'
        (List.append_cancel_right (List.append_cancel_left named)))
  | strings filled last clean =>
    cases right with
    | strings filled' last' clean' =>
      exact Or.inl (fdtMultiStringsText_inj filled filled' last last' clean clean' (List.append_cancel_left named))
  | numbers filled shown =>
    cases right with
    | numbers filled' shown' =>
      obtain ⟨some_, tokens, ends⟩ := shown.tokens filled
      obtain ⟨some', tokens', ends'⟩ := shown'.tokens filled'
      obtain ⟨items, tails⟩ := spaced_inj (by decide) some_ some' tokens tokens' ends ends' (List.append_cancel_left named)
      exact shown.inj shown' items tails
  | bytes part plain =>
    cases right with
    | bytes part' plain' =>
      obtain ⟨some_, tokens, ends⟩ := shownBytes_tokens part
      obtain ⟨some', tokens', ends'⟩ := shownBytes_tokens part'
      obtain ⟨items, tails⟩ := spaced_inj (by decide) some_ some' tokens tokens' ends ends' (List.append_cancel_left named)
      exact stripedBytes_inj plain plain' (shownBytes_inj items) part tails

/-- What a property needs so that its text does not depend on the other nodes. -/
def FdtUnresolved (fdt : FdtListing) (name : CString) (data : List Byte) : Prop :=
  fdtPropText fdt name data = fdtPropText fdt.unresolved name data

/-- Values free of what the printers cannot show: a quote in a string list, a zero inside of an `/incbin/` text, an incomplete
cell behind phandles. -/
structure FdtPlain (fdt : FdtListing) (name : CString) (data : List Byte) : Prop where
  strings : (fdtPropPrintMultiStrings data).isSome → (34 : Byte) ∉ data
  incbin : fdt.incbin = true → data.take 8 = cstr "/incbin/" → (0 : Byte) ∉ data.dropLast
  phandles : (fdtPropPrintLabels fdt.unresolved name data).isSome → data.length % 4 = 0

theorem fdtPhandlesText_zeros {cellName : Option CString} {fixCellSize fuel : Nat} {data text : List Byte}
    (whole : data.length % 4 = 0) (enough : data.length ≤ fuel) (filled : data ≠ [])
    (printed : fdtPhandlesText (fun _ _ _ _ => none) cellName fixCellSize fuel data = some text) :
    ∃ count, data = List.replicate (4 * (count + 1)) 0#8 ∧ text = cstr "<0>" ++ zeroPhandles count := by
  induction fuel generalizing data text with
  | zero => exact absurd (List.eq_nil_of_length_eq_zero (by omega)) filled
  | succ fuel ih =>
    have positive := List.length_pos_iff.mpr filled
    rw [fdtPhandlesText, if_neg (by omega)] at printed
    dsimp only at printed
    split at printed
    · rename_i zero
      have cells : data = List.replicate 4 0#8 ++ data.drop 4 := by
        match data, (show 4 ≤ data.length by omega) with
        | a :: b :: c :: d :: rest, _ =>
          have first : [a, b, c, d] = [0, 0, 0, 0] := be32_cell_inj (zero.trans (by decide))
          simp only [List.cons.injEq, and_true] at first
          rw [first.1, first.2.1, first.2.2.1, first.2.2.2]
          rfl
      rcases inner : fdtPhandlesText (fun _ _ _ _ => none) cellName fixCellSize fuel (data.drop 4) with _ | more
      · rw [inner] at printed
        cases printed
      rw [inner, Option.map_some] at printed
      obtain rfl := Option.some.inj printed
      by_cases ended : data.drop 4 = []
      · rw [ended] at inner cells ⊢
        have nothing : more = [] := by
          cases fuel with
          | zero => exact (Option.some.inj inner).symm
          | succ fuel =>
            rw [fdtPhandlesText, if_pos (by simp)] at inner
            exact (Option.some.inj inner).symm
        refine ⟨0, cells, ?_⟩
        rw [nothing]
        rfl
      · obtain ⟨count, rest, tail⟩ := ih (by rw [List.length_drop]; omega) (by rw [List.length_drop]; omega) ended inner
        refine ⟨count + 1, ?_, ?_⟩
        · rw [cells, rest, List.replicate_append_replicate]
          congr 1
          omega
        · have several : 0 < (data.drop 4).length := List.length_pos_iff.mpr ended
          have joined : cstr ", <0>" = cstr ", " ++ cstr "<0>" := by decide
          rw [if_pos several, tail, zeroPhandles, joined]
          simp only [List.append_assoc]
    · cases printed

theorem fdtPropPrintPhandles_zeros {cellName : Option CString} {fixCellSize : Nat} {data text : List Byte}
    (whole : data.length % 4 = 0)
    (printed : fdtPropPrintPhandles (fun _ _ _ _ => none) cellName fixCellSize data = some text) :
    ∃ count, data = List.replicate (4 * (count + 1)) 0#8 ∧
      text = cstr " = <" ++ (spaced [cstr "0"] ++ 62 :: (zeroPhandles count ++ cstr ";")) := by
  unfold fdtPropPrintPhandles at printed
  split at printed
  · cases printed
  · rename_i long
    rcases inner : fdtPhandlesText (fun _ _ _ _ => none) cellName fixCellSize data.length data with _ | more
    · rw [inner] at printed
      cases printed
    rw [inner, Option.map_some] at printed
    obtain rfl := Option.some.inj printed
    obtain ⟨count, zero, tail⟩ := fdtPhandlesText_zeros whole (Nat.le_refl _) (by rintro rfl; exact long (by decide)) inner
    refine ⟨count, zero, ?_⟩
    have opened : cstr " = " ++ cstr "<0>" = cstr " = <" ++ cstr "0" ++ [62] := by decide
    rw [tail, spaced_singleton, ← List.append_assoc, opened]
    simp only [List.append_assoc, List.nil_append, List.cons_append]

theorem fdtPropPrintLabels_zeros {fdt : FdtListing} {name : CString} {data text : List Byte} (whole : data.length % 4 = 0)
    (printed : fdtPropPrintLabels fdt.unresolved name data = some text) :
    ∃ count, data = List.replicate (4 * (count + 1)) 0#8 ∧
      text = cstr " = <" ++ (spaced [cstr "0"] ++ 62 :: (zeroPhandles count ++ cstr ";")) := by
  suffices ∃ cellName fixCellSize, fdtPropPrintPhandles (fun _ _ _ _ => none) cellName fixCellSize data = some text by
    obtain ⟨cellName, fixCellSize, one⟩ := this
    exact fdtPropPrintPhandles_zeros whole one
  have guarded : ∀ {guard : Prop} [Decidable guard] {cellName : Option CString} {fixCellSize : Nat},
      (if guard then fdtPropPrintPhandles fdt.unresolved.targets cellName fixCellSize data else none) = some text →
        ∃ cellName fixCellSize, fdtPropPrintPhandles (fun _ _ _ _ => none) cellName fixCellSize data = some text := by
    intro guard _ cellName fixCellSize here
    split at here
    · exact ⟨cellName, fixCellSize, here⟩
    · cases here
  unfold fdtPropPrintLabels at printed
  split at printed
  · simp only [Option.or_eq_some_iff] at printed
    rcases printed with here | ⟨_, here | ⟨_, here | ⟨_, here | ⟨_, here | ⟨_, here⟩⟩⟩⟩⟩
    · exact guarded here
    · exact guarded here
    · exact guarded here
    · exact guarded here
    · obtain ⟨⟨_, _⟩, _, one⟩ := List.exists_of_findSome?_eq_some here
      exact guarded one
    · exact guarded here
  · cases printed

section Printers

variable {fdt : FdtListing} {name : CString} {data text : List Byte}

theorem fdtPropPrintSimpleValue_printed (plain : FdtPlain fdt name data)
    (printed : fdtPropPrintSimpleValue fdt.incbin data = some text) : ∃ form, FdtPrinted fdt name data form text := by
  unfold fdtPropPrintSimpleValue at printed
  split at printed
  · rename_i none
    rw [← Option.some.inj printed]
    exact ⟨.empty, .empty none⟩
  · rename_i filled
    split at printed
    · rename_i feature
      rw [← Option.some.inj printed]
      exact ⟨.incbin, .incbin feature.2.1 feature.2.2 (plain.incbin feature.1 feature.2.1)⟩
    · have clean := plain.strings (by rw [printed]; rfl)
      unfold fdtPropPrintMultiStrings at printed
      split at printed
      · cases printed
      · rename_i ends
        split at printed
        · rw [← Option.some.inj printed]
          exact ⟨.strings, .strings filled (Decidable.not_not.mp (not_or.mp ends).2) clean⟩
        · cases printed

theorem fdtPropPrintU32Number_printed (filled : data ≠ []) (printed : fdtPropPrintU32Number name data = some text) :
    FdtPrinted fdt name data .numbers text := by
  unfold fdtPropPrintU32Number at printed
  split at printed
  · cases printed
  · rename_i fits
    obtain ⟨size, listed⟩ := not_or.mp fits
    rw [← Option.some.inj printed, List.append_assoc]
    have numbers := @FdtPrinted.numbers fdt name data _ _ filled
      (.u32 (Decidable.not_not.mp size) (Decidable.not_not.mp listed))
    rw [spaced_singleton] at numbers
    exact numbers

theorem fdtPropPrintReg_printed (filled : data ≠ []) (printed : fdtPropPrintReg name data = some text) :
    FdtPrinted fdt name data .numbers text := by
  unfold fdtPropPrintReg at printed
  split at printed
  · cases printed
  · rename_i fits
    obtain ⟨named, whole⟩ := not_or.mp fits
    rw [← Option.some.inj printed, List.append_assoc]
    exact .numbers filled (.reg (Decidable.not_not.mp named) (Decidable.not_not.mp whole))

theorem fdtPropPrintSimpleNumber_printed (filled : data ≠ []) (other : name ∈ fdtU32PropLists → data.length ≠ 4)
    (notReg : ¬ (name = cstr "reg" ∧ data.length % 4 = 0)) (plain : FdtPlainNumbers fdt name data) :
    ∃ form, FdtPrinted fdt name data form (fdtPropPrintSimpleNumber data) := by
  unfold fdtPropPrintSimpleNumber
  dsimp only
  split
  · rename_i whole
    rw [List.append_assoc, List.append_assoc]
    exact ⟨.numbers, .numbers filled (.cells other (fun named => notReg ⟨named, whole⟩) whole plain)⟩
  · rename_i part
    have blank : cstr " " = [32] := by decide
    rw [List.append_assoc, List.append_assoc, blank, cstr_hex]
    exact ⟨.bytes, .bytes part plain⟩

theorem fdtPropText_printed (plain : FdtPlain fdt name data) :
    ∃ form, FdtPrinted fdt name data form (fdtPropText fdt.unresolved name data) := by
  unfold fdtPropText
  rcases simple : fdtPropPrintSimpleValue fdt.unresolved.incbin data with _ | text
  · have filled : data ≠ [] := by
      rintro rfl
      simp [fdtPropPrintSimpleValue] at simple
    rcases u32 : fdtPropPrintU32Number name data with _ | text
    · have other : name ∈ fdtU32PropLists → data.length ≠ 4 := by
        intro listed size
        simp [fdtPropPrintU32Number, size, listed] at u32
      rcases reg : fdtPropPrintReg name data with _ | text
      · have notReg : ¬ (name = cstr "reg" ∧ data.length % 4 = 0) := by
          rintro ⟨named, whole⟩
          simp [fdtPropPrintReg, named, whole] at reg
        rcases labels : fdtPropPrintLabels fdt.unresolved name data with _ | text
        · exact fdtPropPrintSimpleNumber_printed filled other notReg ⟨simple, u32, reg, labels⟩
        · have whole := plain.phandles (by rw [labels]; rfl)
          obtain ⟨count, zero, shape⟩ := fdtPropPrintLabels_zeros whole labels
          simp only [Option.or, Option.getD_some]
          rw [shape]
          exact ⟨.numbers, .numbers filled (.zeros count zero other fun named => notReg ⟨named, whole⟩)⟩
      · exact ⟨.numbers, fdtPropPrintReg_printed filled reg⟩
    · exact ⟨.numbers, fdtPropPrintU32Number_printed filled u32⟩
  · exact fdtPropPrintSimpleValue_printed plain simple

end Printers

theorem fdtPropPrintSimpleNumber_shown {fdt : FdtListing} {name : CString} {v w : List Byte} (same : FdtSameShown fdt name v w) :
    fdtPropPrintSimpleNumber v = fdtPropPrintSimpleNumber w := by
  have items := same.items
  unfold fdtPropPrintSimpleNumber
  dsimp only
  rw [← same.length]
  split at items
  · rename_i whole
    rw [if_pos whole, if_pos whole, fdtCells_take, fdtCells_take, items]
  · rename_i part
    rw [if_neg part, if_neg part, items]

theorem fdtPropText_plain {fdt : FdtListing} {name : CString} {data : List Byte} (plain : FdtPlainNumbers fdt name data) :
    fdtPropText fdt.unresolved name data = fdtPropPrintSimpleNumber data := by
  have simple : fdtPropPrintSimpleValue fdt.unresolved.incbin data = none := plain.simple
  rw [fdtPropText, simple, plain.u32, plain.reg, plain.labels]
  rfl

/-- Two values of a property are listed alike only if they are the same numbers as far as they are shown. -/
theorem fdtListNodeProp_eq_iff (fdt : FdtListing) (name : CString) (depth : Nat)
    (visible : name = cstr "phandle" → fdt.keepPhandle = true) (v w : List Byte) (alone : FdtUnresolved fdt name v)
    (alone' : FdtUnresolved fdt name w) (plain : FdtPlain fdt name v) (plain' : FdtPlain fdt name w) :
    fdtListNodeProp fdt name v depth = fdtListNodeProp fdt name w depth ↔ v = w ∨ FdtSameShown fdt name v w := by
  have listed : ¬ (name = cstr "phandle" ∧ fdt.keepPhandle = false) := by
    rintro ⟨named, hidden⟩
    rw [visible named] at hidden
    cases hidden
  rw [fdtListNodeProp, fdtListNodeProp, if_neg listed, if_neg listed, alone, alone']
  constructor
  · intro same
    have text := List.append_cancel_left (List.append_cancel_right same)
    obtain ⟨form, printed⟩ := fdtPropText_printed plain
    obtain ⟨form', printed'⟩ := fdtPropText_printed plain'
    rw [text] at printed
    exact printed.inj printed'
  · rintro (rfl | same)
    · rfl
    · rw [fdtPropText_plain same.left, fdtPropText_plain same.right, fdtPropPrintSimpleNumber_shown same]

def plainListing : FdtListing := ⟨false, false, 0, fun _ _ _ _ => none⟩

theorem fdtListNodeProp_eq_iff_strings :
    fdtListNodeProp plainListing (cstr "status") [111, 107, 0] 1 ≠ fdtListNodeProp plainListing (cstr "status") [111, 110, 0] 1 := by
  intro same
  rcases (fdtListNodeProp_eq_iff plainListing (cstr "status") 1 (by decide) [111, 107, 0] [111, 110, 0] rfl rfl
    ⟨by decide, by decide, by decide⟩ ⟨by decide, by decide, by decide⟩).mp same with equal | shown
  · exact absurd equal (by decide)
  · exact absurd shown.left.simple (by decide)

/-- Of 33 cells the last one is not shown. -/
theorem fdtListNodeProp_eq_long :
    ¬ ∀ fdt name depth v w, FdtUnresolved fdt name v → FdtUnresolved fdt name w → v ≠ w →
      fdtListNodeProp fdt name v depth ≠ fdtListNodeProp fdt name w depth := by
  intro distinct
  apply distinct plainListing (cstr "data") 0 (List.replicate 132 1) (List.replicate 131 1 ++ [2]) rfl rfl (by decide)
  decide +kernel

end ImgEditor
