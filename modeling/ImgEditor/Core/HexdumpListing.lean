import ImgEditor.Core.Hexdump
import ImgEditor.Storage.PrefixCode
import ImgEditor.Storage.Squeeze

namespace ImgEditor

open Storage CText

section Listing

/-- How an entry of the listing is printed. -/
def shown (baseaddr : BitVec 64) : Squeezed Byte → CString
  | .star => [42, 10]
  | .line i items => hexLong (baseaddr + BitVec.ofNat 64 i).toNat ++ [32] ++ hexdumpLine items 0 ++ [10]
  | .ended i => hexLong (baseaddr + BitVec.ofNat 64 i).toNat ++ [10]

/-- Every entry but a first line is indented. -/
def shownListing (indent : CString) (baseaddr : BitVec 64) : List (Squeezed Byte) → CString
  | .line i items :: more => shown baseaddr (.line i items) ++ more.flatMap fun entry => indent ++ shown baseaddr entry
  | entries => entries.flatMap fun entry => indent ++ shown baseaddr entry

end Listing

section Pass

variable {indent : CString} {blk : List Byte} {baseaddr : BitVec 64} {st : HexdumpState} {pass : Nat}

theorem hexdumpLine_take (blk : List Byte) (i : Nat) : hexdumpLine blk i = hexdumpLine ((blk.drop i).take 16) 0 := by
  have cell : ∀ n, ∀ j ∈ List.range 16, hexdumpCell blk i n j = hexdumpCell ((blk.drop i).take 16) 0 n j := by
    intro n j member
    have column := List.mem_range.mp member
    have byte : ((blk.drop i).take 16).getD j 0 = blk.getD (i + j) 0 := by
      rw [List.getD_eq_getElem?_getD, List.getD_eq_getElem?_getD, List.getElem?_take_of_lt column, List.getElem?_drop]
    have outside : ((blk.drop i).take 16).length ≤ j ↔ blk.length ≤ i + j := by
      rw [List.length_take, List.length_drop]
      omega
    simp only [hexdumpCell, Nat.zero_add, byte, outside]
  unfold hexdumpLine
  congr 1
  funext n
  exact List.flatMap_congr (cell n)

/-- A line of a small buffer is counted by an `int`. -/
theorem szBuster_small (small : blk.length < 2 ^ 31) {i : Nat} (inside : i < blk.length) :
    toSizeT (min (toInt32 (blk.length - i)) 16) = ((blk.drop i).take 16).length := by
  have rest : (blk.length : Int) - i = (blk.length - i : Nat) := by omega
  rw [rest, toInt32_of_lt (by omega), List.length_take, List.length_drop]
  have least : min ((blk.length - i : Nat) : Int) 16 = (min 16 (blk.length - i) : Nat) := by omega
  rw [least]
  exact toSizeT_natCast (by omega)

theorem readBytes_line {i : Nat} (inside : i ≤ blk.length) :
    readBytes blk i ((blk.drop i).take 16).length = some ((blk.drop i).take 16) := by
  have fits : i + ((blk.drop i).take 16).length ≤ blk.length := by
    rw [List.length_take, List.length_drop]
    omega
  have whole : (blk.drop i).take ((blk.drop i).take 16).length = (blk.drop i).take 16 := by
    rw [List.take_eq_take_iff, List.length_take]
    omega
  rw [readBytes, if_pos fits, field, whole]

theorem readBytes_front {preline line : List Byte} (fits : line.length ≤ preline.length) :
    readBytes preline 0 line.length = some (preline.take line.length) := by
  rw [readBytes, if_pos (by omega), field, List.drop_zero]

theorem overwrite_front {preline line : List Byte} (fits : line.length ≤ preline.length) :
    overwrite preline 0 line = some (line ++ preline.drop line.length) := by
  rw [overwrite_inside (by omega), setField, List.take_zero, List.nil_append, Nat.zero_add]

theorem hexdumpPass_first (small : blk.length < 2 ^ 31) (some_ : 0 < blk.length) (width : st.preline.length = 16) :
    hexdumpPass indent blk baseaddr st 0 =
      some ⟨st.out ++ shown baseaddr (.line 0 (blk.take 16)), blk.take 16 ++ st.preline.drop (blk.take 16).length, false⟩ := by
  have fits : (blk.take 16).length ≤ st.preline.length := by
    rw [List.length_take]
    omega
  have buster := szBuster_small small some_
  have line := readBytes_line (Nat.zero_le blk.length)
  rw [List.drop_zero] at buster line
  simp only [hexdumpPass, Nat.mul_zero, buster, line, overwrite_front fits, ↓reduceIte, Option.bind_eq_bind,
    Option.bind_some, Bool.false_eq_true, hexdumpLine_take blk 0, List.drop_zero, shown, List.append_assoc, List.nil_append]

/-- A later pass prints the line, or a star for the first line that repeats the line printed last. -/
theorem hexdumpPass_later (small : blk.length < 2 ^ 31) {i : Nat} (place : i = 16 * pass) (later : i ≠ 0)
    (inside : i < blk.length) {line : List Byte} (taken : (blk.drop i).take 16 = line) (width : st.preline.length = 16) :
    hexdumpPass indent blk baseaddr st pass =
      if st.preline.take line.length = line then
        some ⟨st.out ++ (if st.skip then [] else indent ++ shown baseaddr .star), st.preline, true⟩
      else some ⟨st.out ++ (indent ++ shown baseaddr (.line i line)), line ++ st.preline.drop line.length, false⟩ := by
  have fits : line.length ≤ st.preline.length := by
    rw [← taken, List.length_take]
    omega
  have buster := szBuster_small small inside
  have read := @readBytes_line blk i (Nat.le_of_lt inside)
  rw [taken] at buster read
  simp only [hexdumpPass, ← place, buster, read, readBytes_front fits, overwrite_front fits, if_neg later,
    Option.bind_eq_bind, Option.bind_some, hexdumpLine_take blk i, taken, decide_eq_true_eq, shown, List.append_assoc]

/-- A partial line is the last one, so what it leaves of the line before is not compared again. -/
theorem squeeze_preline {preline rest : List Byte} (width : preline.length = 16) (offset : Nat) (skip : Bool) :
    squeeze 16 offset (rest.take 16 ++ preline.drop (rest.take 16).length) skip (rest.drop 16) =
      squeeze 16 offset (rest.take 16) skip (rest.drop 16) := by
  by_cases whole : rest.length ≤ 16
  · rw [List.drop_eq_nil_of_le whole, squeeze, squeeze]
  · have full : preline.length ≤ (rest.take 16).length := by
      rw [List.length_take]
      omega
    rw [List.drop_eq_nil_of_le full, List.append_nil]

theorem preline_width {preline : List Byte} (width : preline.length = 16) (rest : List Byte) :
    (rest.take 16 ++ preline.drop (rest.take 16).length).length = 16 := by
  rw [List.length_append, List.length_drop, List.length_take]
  omega

/-- The passes behind the first one print the listing up to its end address. -/
theorem hexdumpPass_run (small : blk.length < 2 ^ 31) (count pass : Nat) (st : HexdumpState)
    (passes : pass + count = (blk.length + 15) / 16) (later : pass ≠ 0) (width : st.preline.length = 16) :
    ∃ st', (List.range' pass count).foldlM (hexdumpPass indent blk baseaddr) st = some st' ∧
      st'.out ++ (indent ++ shown baseaddr (.ended (16 * ((blk.length + 15) / 16)))) =
        st.out ++ (squeeze 16 (16 * pass) st.preline st.skip (blk.drop (16 * pass))).flatMap
          fun entry => indent ++ shown baseaddr entry := by
  induction count generalizing pass st with
  | zero =>
    have nothing : blk.drop (16 * pass) = [] := List.drop_eq_nil_of_le (by omega)
    rw [nothing, squeeze, ← passes, Nat.add_zero, List.flatMap_singleton]
    exact ⟨st, rfl, rfl⟩
  | succ count ih =>
    have inside : 16 * pass < blk.length := by omega
    have next : blk.drop (16 * (pass + 1)) = (blk.drop (16 * pass)).drop 16 := by
      rw [List.drop_drop, Nat.mul_succ]
    have step := @hexdumpPass_later indent blk baseaddr st pass small (16 * pass) rfl (by omega) inside _ rfl width
    have follows := fun st' => ih (pass + 1) st' (by omega) (by omega)
    rw [next] at follows
    have some_ : blk.drop (16 * pass) ≠ [] := by
      intro nothing
      have bound := List.drop_eq_nil_iff.mp nothing
      omega
    rw [List.range'_succ, List.foldlM_cons, step]
    by_cases repeats : st.preline.take ((blk.drop (16 * pass)).take 16).length = (blk.drop (16 * pass)).take 16
    · rw [if_pos repeats, squeeze_repeats (by decide) some_ repeats, Option.bind_eq_bind, Option.bind_some]
      obtain ⟨st', run, printed⟩ := follows ⟨_, st.preline, true⟩ width
      refine ⟨st', run, printed.trans ?_⟩
      have mark : (if st.skip then [] else [Squeezed.star]).flatMap (fun entry => indent ++ shown baseaddr entry) =
          if st.skip then [] else indent ++ shown baseaddr .star := by
        cases st.skip with
        | true => rfl
        | false => exact List.append_nil _
      rw [List.flatMap_append, mark, ← List.append_assoc, Nat.mul_succ]
    · rw [if_neg repeats, squeeze_differs (by decide) some_ repeats, Option.bind_eq_bind, Option.bind_some]
      obtain ⟨st', run, printed⟩ := follows ⟨_, _, false⟩ (preline_width width _)
      refine ⟨st', run, printed.trans ?_⟩
      simp only [squeeze_preline width, List.flatMap_cons, List.append_assoc, Nat.mul_add_one]

end Pass

theorem hexdumpIndent_listing {buf : List Byte} (small : buf.length < 2 ^ 31) (preline : Vector Byte 16)
    (indentFmt : Option CString) (baseaddr : BitVec 64) :
    hexdumpIndent preline indentFmt buf baseaddr =
      some (shownListing (indentFmt.getD []) baseaddr (squeezed 16 buf)) := by
  have last : alignedLength buf.length 16 = 16 * ((buf.length + 15) / 16) := Nat.mul_comm _ _
  by_cases empty : buf = []
  · rw [empty, squeezed, if_pos rfl, shownListing, List.flatMap_singleton, shown, ← List.append_assoc]
    · rfl
    · intro i items more same
      cases same
  · have some_ := List.length_pos_iff.mpr empty
    have width : preline.toList.length = 16 := preline.length_toList
    obtain ⟨count, passes⟩ : ∃ count, (buf.length + 15) / 16 = count + 1 := ⟨(buf.length + 15) / 16 - 1, by omega⟩
    obtain ⟨st', run, printed⟩ := @hexdumpPass_run (indentFmt.getD []) buf baseaddr small count 1
      ⟨shown baseaddr (.line 0 (buf.take 16)), buf.take 16 ++ preline.toList.drop (buf.take 16).length, false⟩
      (by omega) (by decide) (preline_width width buf)
    rw [squeeze_preline width, Nat.mul_one] at printed
    rw [hexdumpIndent, last, squeezed, if_neg empty, shownListing, ← printed, passes, List.range_eq_range', List.range'_succ,
      List.foldlM_cons, hexdumpPass_first small some_ width]
    simp only [Option.bind_eq_bind, Option.bind_some, List.nil_append, Nat.zero_add, run]
    simp only [shown, List.append_assoc]

/-- From 2 GiB on, the rest of the buffer is negative as an `int` in one of the passes. -/
theorem hexdumpPass_large {buf : List Byte} (large : 2 ^ 31 ≤ buf.length) (indent : CString) (baseaddr : BitVec 64)
    (st : HexdumpState) : hexdumpPass indent buf baseaddr st ((buf.length - 2 ^ 31) / 16) = none := by
  have outside : ∀ n, n = toSizeT (min (toInt32 (buf.length - (16 * ((buf.length - 2 ^ 31) / 16) : Nat))) 16) →
      readBytes buf (16 * ((buf.length - 2 ^ 31) / 16)) n = none := by
    intro n size
    rw [readBytes, if_neg]
    unfold toInt32 toSizeT at size
    rw [Int.bmod_def] at size
    omega
  simp only [hexdumpPass, outside _ rfl]
  by_cases first : 16 * ((buf.length - 2 ^ 31) / 16) = 0
  · simp only [if_pos first, Option.bind_eq_bind, Option.bind_some, Option.bind_none, Bool.false_eq_true, ↓reduceIte]
  · simp only [if_neg first, Option.bind_eq_bind, Option.bind_none, Option.bind_fun_none]

theorem foldlM_stuck {α σ : Type} {f : σ → α → Option σ} {x : α} (stuck : ∀ st, f st x = none) {xs : List α}
    (member : x ∈ xs) (st : σ) : xs.foldlM f st = none := by
  induction xs generalizing st with
  | nil => cases member
  | cons y ys ih =>
    rw [List.foldlM_cons]
    cases List.mem_cons.mp member with
    | inl first => rw [← first, stuck]; rfl
    | inr later =>
      cases step : f st y with
      | none => rfl
      | some st' => exact ih later st'

theorem hexdumpIndent_large {buf : List Byte} (large : 2 ^ 31 ≤ buf.length) (preline : Vector Byte 16)
    (indentFmt : Option CString) (baseaddr : BitVec 64) : hexdumpIndent preline indentFmt buf baseaddr = none := by
  have reached : (buf.length - 2 ^ 31) / 16 ∈ List.range ((buf.length + 15) / 16) := List.mem_range.mpr (by omega)
  rw [hexdumpIndent, foldlM_stuck (hexdumpPass_large large _ baseaddr) reached]
  rfl

end ImgEditor
