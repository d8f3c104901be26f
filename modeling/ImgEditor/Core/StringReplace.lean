import ImgEditor.Core.StringHelper
import ImgEditor.Core.StructureFields
import ImgEditor.Storage.Overwrite

namespace ImgEditor

open Storage CText

/-- How a bounded number of passes ends: they go on, they write outside the buffer, or they return. -/
inductive ReplaceEnd where
  | running
  | outside
  | returned (ret : Int) (buffer : List Byte)
deriving DecidableEq

section Replace

variable (token replacement : CString)

def stringReplaceMoves (buffer : List Byte) (s remain : Nat) : Option (List Byte) :=
  let tail := fun buffer => field buffer (s + token.length) remain
  if replacement.length ≤ token.length then do
    let buffer ← overwrite buffer s replacement
    let buffer ← overwrite buffer (s + replacement.length) (tail buffer)
    overwrite buffer (s + replacement.length + remain) [0#8]
  else do
    let buffer ← overwrite buffer (s + replacement.length) (tail buffer)
    let buffer ← overwrite buffer s replacement
    overwrite buffer (s + replacement.length + remain) [0#8]

/-- The loop of `string_replace_in_buffer` on a buffer of `bufsz` bytes, from the offset `s` on. -/
def stringReplacePasses : Nat → List Byte → Nat → ReplaceEnd
  | 0, _, _ => .running
  | fuel + 1, buffer, s =>
    match memmem (cString (buffer.drop s)) token with
    | none => .returned 0 buffer
    | some i =>
      let s := s + i
      let remain := (cString (buffer.drop (s + token.length))).length
      if token.length < replacement.length ∧ buffer.length ≤ replacement.length - token.length + s + 1 then .returned (-1) buffer
      else
        match stringReplaceMoves token replacement buffer s remain with
        | none => .outside
        | some buffer => stringReplacePasses fuel buffer (s + replacement.length)

/-- `string_replace_in_buffer`, as long as no more passes are made than the buffer has characters. -/
def stringReplaceInMemory (buffer : List Byte) : ReplaceEnd := stringReplacePasses token replacement (buffer.length + 1) buffer 0

/-- Every occurrence of the token is replaced, from left to right. -/
def replaceAll : CString → CString
  | [] => []
  | c :: rest =>
    if token <+: c :: rest then replacement ++ replaceAll (rest.drop (token.length - 1)) else c :: replaceAll rest
termination_by s => s.length
decreasing_by
  all_goals
    simp only [List.length_drop, List.length_cons]
    omega

/-- Where these occurrences are. -/
def tokenPlaces : CString → List Nat
  | [] => []
  | c :: rest =>
    if token <+: c :: rest then 0 :: (tokenPlaces (rest.drop (token.length - 1))).map (· + token.length)
    else (tokenPlaces rest).map (· + 1)
termination_by s => s.length
decreasing_by
  all_goals
    simp only [List.length_drop, List.length_cons]
    omega

def StringReplaceRight (buffer : List Byte) : Prop :=
  ∃ ret buffer', stringReplaceInMemory token replacement buffer = .returned ret buffer' ∧
    if (replaceAll token replacement (cString buffer)).length < buffer.length then
      ret = 0 ∧ cString buffer' = replaceAll token replacement (cString buffer)
    else ret = -1

/-- How many of the replacements fit into the buffer, one after the other. -/
def replacementsRoom (buffer : List Byte) : Nat :=
  (buffer.length - 1 - (cString buffer).length) / (replacement.length - token.length)

/-- The string does not grow, or all the replacements fit, or the text up to the first one that does not fit fills the
buffer up to its last byte. -/
def StringReplaceFits (buffer : List Byte) : Prop :=
  replacement.length ≤ token.length ∨ ∀ place, (tokenPlaces token (cString buffer))[replacementsRoom token replacement buffer]? = some place →
    buffer.length ≤ place + (replacementsRoom token replacement buffer + 1) * (replacement.length - token.length) + 1

end Replace

section Places

variable {token replacement : CString}

theorem drop_token (some_ : token ≠ []) (c : Byte) (rest : CString) :
    (c :: rest).drop token.length = rest.drop (token.length - 1) := by
  obtain ⟨n, width⟩ := Nat.exists_eq_add_of_lt (List.length_pos_iff.mpr some_)
  rw [width, Nat.zero_add, List.drop_succ_cons, Nat.add_sub_cancel]

theorem replaceAll_memmem (some_ : token ≠ []) (s : CString) : replaceAll token replacement s = match memmem s token with
    | none => s
    | some i => s.take i ++ replacement ++ replaceAll token replacement (s.drop (i + token.length)) := by
  induction s with
  | nil =>
    rw [memmem_nil (by simpa using some_), replaceAll]
  | cons c rest ih =>
    rw [replaceAll]
    by_cases here : token <+: c :: rest
    · rw [if_pos here, memmem_start here, ← drop_token some_ c]
      simp
    · rw [if_neg here, memmem_cons here, ih]
      cases found : memmem rest token with
      | none => rfl
      | some i => simp [Nat.add_right_comm i 1]

theorem tokenPlaces_memmem (some_ : token ≠ []) (s : CString) : tokenPlaces token s = match memmem s token with
    | none => []
    | some i => i :: (tokenPlaces token (s.drop (i + token.length))).map (· + (i + token.length)) := by
  induction s with
  | nil =>
    rw [memmem_nil (by simpa using some_), tokenPlaces]
  | cons c rest ih =>
    rw [tokenPlaces]
    by_cases here : token <+: c :: rest
    · rw [if_pos here, memmem_start here, ← drop_token some_ c]
      simp
    · rw [if_neg here, memmem_cons here, ih]
      cases found : memmem rest token with
      | none => rfl
      | some i =>
        simp only [Option.map_some, List.map_cons, List.map_map, List.cons.injEq, true_and]
        rw [show i + 1 + token.length = i + token.length + 1 by omega, List.drop_succ_cons]
        apply List.map_congr_left
        intro place _
        simp only [Function.comp_apply]
        omega

theorem memmem_inside {s : CString} {i : Nat} (some_ : token ≠ []) (found : memmem s token = some i) :
    i + token.length ≤ s.length := by
  have fits := (memmem_some found).1.length_le
  have positive := List.length_pos_iff.mpr some_
  rw [List.length_drop] at fits
  omega

theorem memmem_split {s : CString} {i : Nat} (found : memmem s token = some i) :
    s.take i ++ token ++ s.drop (i + token.length) = s := by
  obtain ⟨rest, shape⟩ := (memmem_some found).1
  have behind : s.drop (i + token.length) = rest := by rw [← List.drop_drop, ← shape, List.drop_left]
  rw [behind, List.append_assoc, shape, List.take_append_drop]

theorem replaceAll_length (some_ : token ≠ []) (s : CString) :
    (replaceAll token replacement s).length + (tokenPlaces token s).length * token.length =
      s.length + (tokenPlaces token s).length * replacement.length := by
  induction length : s.length using Nat.strong_induction_on generalizing s with
  | _ n ih =>
    rw [replaceAll_memmem some_, tokenPlaces_memmem some_]
    cases found : memmem s token with
    | none => simp [length]
    | some i =>
      have inside := memmem_inside some_ found
      have positive := List.length_pos_iff.mpr some_
      have rest := ih (s.drop (i + token.length)).length (by rw [List.length_drop]; omega) _ rfl
      simp only [List.length_append, List.length_take, List.length_drop, List.length_cons, List.length_map,
        Nat.add_mul, Nat.one_mul] at rest ⊢
      omega

end Places

section Memory

variable {token replacement : CString} {buffer front tail : List Byte}

theorem cString_text {text : List Byte} (plain : 0#8 ∉ text) (more : List Byte) : cString (text ++ 0#8 :: more) = text :=
  takeWhile_other plain more

theorem cString_behind {text : List Byte} (starts : front ++ text ++ [0#8] <+: buffer) (plain : 0#8 ∉ text) :
    cString (buffer.drop front.length) = text := by
  obtain ⟨more, rfl⟩ := starts
  rw [List.append_assoc, List.append_assoc, List.drop_left, List.singleton_append, cString_text plain]

theorem cString_shorter (ended : 0#8 ∈ buffer) : (cString buffer).length < buffer.length := by
  apply lt_of_le_of_ne (cString_length_le buffer)
  intro whole
  have same : cString buffer = buffer := (List.takeWhile_prefix _).eq_of_length whole
  rw [← same] at ended
  exact cString_ne_zero ended rfl

theorem cString_starts (ended : 0#8 ∈ buffer) : [] ++ cString buffer ++ [0#8] <+: buffer :=
  ⟨_, cString_ended (cString_shorter ended)⟩

section Inside

variable (starts : front ++ token ++ tail ++ [0#8] <+: buffer)
  (room : front.length + replacement.length + tail.length < buffer.length)
include starts

theorem tail_behind : field buffer (front.length + token.length) tail.length = tail := by
  rw [← List.length_append]
  exact field_prefix ((List.prefix_append _ _).trans starts)

theorem front_starts : front <+: buffer := by
  rw [List.append_assoc, List.append_assoc] at starts
  exact (List.prefix_append _ _).trans starts

omit starts in
include room in
/-- The last write of a pass, behind the string and its replacement. -/
theorem overwrite_end {b : List Byte} (same : b.length = buffer.length) (copied : front ++ replacement ++ tail <+: b) :
    ∃ buffer', overwrite b (front.length + replacement.length + tail.length) [0#8] = some buffer' ∧
      buffer'.length = buffer.length ∧ front ++ replacement ++ tail ++ [0#8] <+: buffer' := by
  have inside : front.length + replacement.length + tail.length + [0#8].length ≤ b.length := by
    rw [same, List.length_singleton]
    omega
  refine ⟨_, overwrite_inside inside, (setField_length inside).trans same, ?_⟩
  have extended := setField_extends copied [0#8]
  rwa [List.length_append, List.length_append] at extended

include room

theorem stringReplaceMoves_shorter (shrinks : replacement.length ≤ token.length) : ∃ buffer',
    stringReplaceMoves token replacement buffer front.length tail.length = some buffer' ∧
      buffer'.length = buffer.length ∧ front ++ replacement ++ tail ++ [0#8] <+: buffer' := by
  have inside : front.length + replacement.length ≤ buffer.length := by omega
  have kept : field (setField buffer front.length replacement) (front.length + token.length) tail.length = tail := by
    rw [field_setField_apart inside (.inr (by omega)), tail_behind starts]
  have behind : front.length + replacement.length + tail.length ≤ (setField buffer front.length replacement).length := by
    rw [setField_length inside]
    omega
  have moved := setField_extends (setField_extends (front_starts starts) replacement) tail
  rw [List.length_append] at moved
  obtain ⟨buffer', done, same⟩ := overwrite_end room ((setField_length behind).trans (setField_length inside)) moved
  refine ⟨buffer', ?_, same⟩
  simp only [stringReplaceMoves, if_pos shrinks, overwrite_inside inside, Option.bind_eq_bind, Option.bind_some, kept,
    overwrite_inside behind]
  exact done

theorem stringReplaceMoves_longer (grows : ¬ replacement.length ≤ token.length) : ∃ buffer',
    stringReplaceMoves token replacement buffer front.length tail.length = some buffer' ∧
      buffer'.length = buffer.length ∧ front ++ replacement ++ tail ++ [0#8] <+: buffer' := by
  have inside : front.length + replacement.length + tail.length ≤ buffer.length := by omega
  have kept := setField_keeps (front_starts starts) (Nat.le_add_right front.length replacement.length) tail
  have here : front.length + replacement.length ≤
      (setField buffer (front.length + replacement.length) tail).length := by
    rw [setField_length inside]
    omega
  have moved : field (setField (setField buffer (front.length + replacement.length) tail) front.length replacement)
      (front.length + replacement.length) tail.length = tail := by
    rw [field_setField_apart here (.inr (le_refl _)), field_setField inside]
  have both : front ++ replacement ++ tail <+:
      setField (setField buffer (front.length + replacement.length) tail) front.length replacement := by
    apply prefix_field (setField_extends kept replacement)
    rw [List.length_append]
    exact moved
  obtain ⟨buffer', done, same⟩ := overwrite_end room ((setField_length here).trans (setField_length inside)) both
  refine ⟨buffer', ?_, same⟩
  simp only [stringReplaceMoves, if_neg grows, tail_behind starts, overwrite_inside inside, Option.bind_eq_bind,
    Option.bind_some, overwrite_inside here]
  exact done

theorem stringReplaceMoves_inside : ∃ buffer',
    stringReplaceMoves token replacement buffer front.length tail.length = some buffer' ∧
      buffer'.length = buffer.length ∧ front ++ replacement ++ tail ++ [0#8] <+: buffer' := by
  by_cases shrinks : replacement.length ≤ token.length
  · exact stringReplaceMoves_shorter starts room shrinks
  · exact stringReplaceMoves_longer starts room shrinks

end Inside

theorem stringReplaceMoves_outside {s remain : Nat} (grows : token.length < replacement.length)
    (full : buffer.length ≤ s + replacement.length + remain) :
    stringReplaceMoves token replacement buffer s remain = none := by
  simp only [stringReplaceMoves, if_neg (not_le.mpr grows), Option.bind_eq_bind]
  cases moved : overwrite buffer (s + replacement.length) (field buffer (s + token.length) remain) with
  | none => rfl
  | some moved_ =>
    rw [Option.bind_some]
    cases copied : overwrite moved_ s replacement with
    | none => rfl
    | some copied_ =>
      have length := (overwrite_length copied).trans (overwrite_length moved)
      rw [Option.bind_some]
      apply overwrite_outside (List.cons_ne_nil _ _)
      rw [length, List.length_singleton]
      omega

/-- What a pass finds around the occurrence. -/
theorem memmem_starts {done s : List Byte} {i : Nat} (some_ : token ≠ []) (found : memmem s token = some i)
    (starts : done ++ s ++ [0#8] <+: buffer) (plain : 0#8 ∉ s) :
    (done ++ s.take i).length = done.length + i ∧
      done ++ s.take i ++ token ++ s.drop (i + token.length) ++ [0#8] <+: buffer ∧
      cString (buffer.drop (done.length + i + token.length)) = s.drop (i + token.length) := by
  have inside := memmem_inside some_ found
  have length : (done ++ s.take i).length = done.length + i := by
    rw [List.length_append, List.length_take]
    omega
  have split : done ++ s.take i ++ token ++ s.drop (i + token.length) ++ [0#8] <+: buffer := by
    rw [List.append_assoc done, List.append_assoc done, memmem_split found]
    exact starts
  refine ⟨length, split, ?_⟩
  have behind := cString_behind split fun zero => plain (List.mem_of_mem_drop zero)
  rwa [List.length_append, length] at behind

/-- A pass over an occurrence, where the longer string fits. -/
theorem stringReplacePasses_next {done s : List Byte} {i : Nat} (some_ : token ≠ []) (found : memmem s token = some i)
    (starts : done ++ s ++ [0#8] <+: buffer) (plain : 0#8 ∉ s)
    (room : done.length + s.length + replacement.length < buffer.length + token.length) (fuel : Nat) :
    ∃ buffer', stringReplacePasses token replacement (fuel + 1) buffer done.length =
      stringReplacePasses token replacement fuel buffer' (done ++ (s.take i ++ replacement)).length ∧
      buffer'.length = buffer.length ∧
      done ++ (s.take i ++ replacement) ++ s.drop (i + token.length) ++ [0#8] <+: buffer' := by
  obtain ⟨length, split, behind⟩ := memmem_starts some_ found starts plain
  have inside := memmem_inside some_ found
  have positive := List.length_pos_iff.mpr some_
  have fits : (done ++ s.take i).length + replacement.length + (s.drop (i + token.length)).length < buffer.length := by
    rw [length, List.length_drop]
    omega
  obtain ⟨buffer', moves, same, starts'⟩ := stringReplaceMoves_inside split fits
  rw [length] at moves
  refine ⟨buffer', ?_, same, by rwa [← List.append_assoc done]⟩
  rw [stringReplacePasses, cString_behind starts plain, found]
  simp only [behind]
  rw [if_neg (by omega), moves, ← List.append_assoc, List.length_append, length]

/-- A pass over an occurrence, where the longer string does not fit. -/
theorem stringReplacePasses_full {done s : List Byte} {i : Nat} (some_ : token ≠ []) (found : memmem s token = some i)
    (starts : done ++ s ++ [0#8] <+: buffer) (plain : 0#8 ∉ s) (grows : token.length < replacement.length)
    (full : buffer.length + token.length ≤ done.length + s.length + replacement.length) (fuel : Nat) :
    stringReplacePasses token replacement (fuel + 1) buffer done.length =
      if buffer.length ≤ replacement.length - token.length + (done.length + i) + 1 then .returned (-1) buffer
      else .outside := by
  obtain ⟨length, split, behind⟩ := memmem_starts some_ found starts plain
  have inside := memmem_inside some_ found
  have outside : stringReplaceMoves token replacement buffer (done.length + i) (s.drop (i + token.length)).length = none := by
    apply stringReplaceMoves_outside grows
    rw [List.length_drop]
    omega
  rw [stringReplacePasses, cString_behind starts plain, found]
  simp only [behind, outside, grows, true_and]

theorem stringReplacePasses_last {done s : List Byte} (missing : memmem s token = none)
    (starts : done ++ s ++ [0#8] <+: buffer) (plain : 0#8 ∉ s) (fuel : Nat) :
    stringReplacePasses token replacement (fuel + 1) buffer done.length = .returned 0 buffer := by
  rw [stringReplacePasses, cString_behind starts plain, missing]

theorem memmem_shorter {s : List Byte} {i : Nat} (some_ : token ≠ []) (found : memmem s token = some i) :
    (s.drop (i + token.length)).length < s.length := by
  have inside := memmem_inside some_ found
  have positive := List.length_pos_iff.mpr some_
  rw [List.length_drop]
  omega

theorem replaceAll_room {done s : List Byte} {i : Nat} (some_ : token ≠ []) (found : memmem s token = some i)
    (holds : done.length + s.length < buffer.length)
    (room : done.length + (replaceAll token replacement s).length < buffer.length) :
    done.length + s.length + replacement.length < buffer.length + token.length := by
  by_cases shrinks : replacement.length ≤ token.length
  · omega
  · have length := @replaceAll_length token replacement some_ s
    have some' : 0 < (tokenPlaces token s).length := by simp [tokenPlaces_memmem some_ s, found]
    obtain ⟨expand, grows⟩ := Nat.exists_eq_add_of_lt (not_le.mp shrinks)
    have once : expand + 1 ≤ (tokenPlaces token s).length * (expand + 1) := Nat.le_mul_of_pos_left _ some'
    rw [grows, Nat.add_assoc, Nat.mul_add] at length
    omega

/-- All the passes, where the result fits. -/
theorem stringReplacePasses_fits {fuel : Nat} {done s : List Byte} (some_ : token ≠ []) (enough : s.length < fuel)
    (starts : done ++ s ++ [0#8] <+: buffer) (plain : 0#8 ∉ s)
    (room : done.length + (replaceAll token replacement s).length < buffer.length) :
    ∃ buffer', stringReplacePasses token replacement fuel buffer done.length = .returned 0 buffer' ∧
      done ++ replaceAll token replacement s ++ [0#8] <+: buffer' := by
  induction fuel generalizing buffer done s with
  | zero => omega
  | succ fuel ih =>
    have all := @replaceAll_memmem token replacement some_ s
    cases found : memmem s token with
    | none =>
      rw [found] at all
      exact ⟨buffer, stringReplacePasses_last found starts plain fuel, by rwa [all]⟩
    | some i =>
      rw [found] at all
      have holds : done.length + s.length < buffer.length := by
        have length := starts.length_le
        simp only [List.length_append, List.length_singleton] at length
        omega
      obtain ⟨buffer', same, length, starts'⟩ :=
        stringReplacePasses_next some_ found starts plain (replaceAll_room some_ found holds room) fuel
      rw [same]
      have shorter := memmem_shorter some_ found
      have result : done ++ replaceAll token replacement s = done ++ (s.take i ++ replacement) ++
          replaceAll token replacement (s.drop (i + token.length)) := by rw [all, List.append_assoc]
      rw [result]
      apply ih (by omega) starts' fun zero => plain (List.mem_of_mem_drop zero)
      rw [length, ← List.length_append, ← result, List.length_append]
      exact room

/-- The passes up to the first replacement that does not fit. -/
theorem stringReplacePasses_overflow {fuel expand place : Nat} {done s : List Byte} (some_ : token ≠ [])
    (enough : s.length < fuel) (grows : replacement.length = token.length + expand) (positive : 0 < expand)
    (starts : done ++ s ++ [0#8] <+: buffer) (plain : 0#8 ∉ s)
    (at_ : (tokenPlaces token s)[(buffer.length - 1 - (done.length + s.length)) / expand]? = some place) :
    if buffer.length ≤ done.length + place + ((buffer.length - 1 - (done.length + s.length)) / expand + 1) * expand + 1 then
      ∃ buffer', stringReplacePasses token replacement fuel buffer done.length = .returned (-1) buffer'
    else stringReplacePasses token replacement fuel buffer done.length = .outside := by
  induction fuel generalizing buffer done s place with
  | zero => omega
  | succ fuel ih =>
    have places := tokenPlaces_memmem some_ s
    cases found : memmem s token with
    | none =>
      rw [places, found] at at_
      cases at_
    | some i =>
      rw [found] at places
      rw [places] at at_
      have inside := memmem_inside some_ found
      have shorter := memmem_shorter some_ found
      by_cases room : done.length + s.length + replacement.length < buffer.length + token.length
      · obtain ⟨buffer', same, length, starts'⟩ := stringReplacePasses_next some_ found starts plain room fuel
        have done' : (done ++ (s.take i ++ replacement)).length = done.length + i + replacement.length := by
          simp only [List.length_append, List.length_take]
          omega
        have left : buffer.length - 1 - (done.length + s.length) =
            buffer'.length - 1 - ((done ++ (s.take i ++ replacement)).length + (s.drop (i + token.length)).length) + expand := by
          rw [length, done', List.length_drop]
          omega
        rw [left, Nat.add_div_right _ positive, List.getElem?_cons_succ, List.getElem?_map, Option.map_eq_some_iff] at at_
        obtain ⟨next, at_, rfl⟩ := at_
        have rest := ih (by omega) starts' (fun zero => plain (List.mem_of_mem_drop zero)) at_
        rw [same, left, Nat.add_div_right _ positive]
        generalize (buffer'.length - 1 - ((done ++ (s.take i ++ replacement)).length +
          (s.drop (i + token.length)).length)) / expand = m at rest ⊢
        have bound : done.length + (next + (i + token.length)) + (m.succ + 1) * expand + 1 =
            (done ++ (s.take i ++ replacement)).length + next + (m + 1) * expand + 1 := by
          rw [done', grows, Nat.succ_eq_add_one, Nat.add_mul (m + 1)]
          omega
        rw [bound, ← length]
        exact rest
      · have none_ : (buffer.length - 1 - (done.length + s.length)) / expand = 0 := Nat.div_eq_of_lt (by omega)
        rw [none_, List.getElem?_cons_zero] at at_
        obtain rfl := Option.some.inj at_
        rw [stringReplacePasses_full some_ found starts plain (by omega) (by omega), none_]
        have bound : replacement.length - token.length + (done.length + i) + 1 = done.length + i + (0 + 1) * expand + 1 := by
          omega
        rw [bound]
        split
        · exact ⟨buffer, rfl⟩
        · rfl

/-- A longer result fits exactly if there are no more occurrences than replacements that fit. -/
theorem replaceAll_fits_iff {expand : Nat} {s : List Byte} {size : Nat} (some_ : token ≠ [])
    (grows : replacement.length = token.length + expand) (positive : 0 < expand) (holds : s.length < size) :
    (replaceAll token replacement s).length < size ↔ (tokenPlaces token s)[(size - 1 - s.length) / expand]? = none := by
  have length := @replaceAll_length token replacement some_ s
  rw [grows, Nat.mul_add] at length
  rw [List.getElem?_eq_none_iff, Nat.le_div_iff_mul_le positive]
  omega

theorem replaceAll_shrinks {s : List Byte} (some_ : token ≠ []) (shrinks : replacement.length ≤ token.length) :
    (replaceAll token replacement s).length ≤ s.length := by
  have length := @replaceAll_length token replacement some_ s
  have less := Nat.mul_le_mul_left (tokenPlaces token s).length shrinks
  omega

theorem replaceAll_plain {s : List Byte} (some_ : token ≠ []) (text : 0#8 ∉ replacement) (plain : 0#8 ∉ s) :
    0#8 ∉ replaceAll token replacement s := by
  induction length : s.length using Nat.strong_induction_on generalizing s with
  | _ n ih =>
    rw [replaceAll_memmem some_]
    cases found : memmem s token with
    | none => exact plain
    | some i =>
      have rest := ih (s.drop (i + token.length)).length (by rw [← length]; exact memmem_shorter some_ found)
        (fun zero => plain (List.mem_of_mem_drop zero)) rfl
      simp only [List.mem_append, not_or]
      exact ⟨⟨fun zero => plain (List.mem_of_mem_take zero), text⟩, rest⟩

/-- The result and the bound are right exactly if the condition on the first replacement that does not fit holds. -/
theorem stringReplaceInMemory_right_iff (some_ : token ≠ []) (text : 0#8 ∉ replacement) (ended : 0#8 ∈ buffer) :
    StringReplaceRight token replacement buffer ↔ StringReplaceFits token replacement buffer := by
  have plain : 0#8 ∉ cString buffer := fun zero => cString_ne_zero zero rfl
  have holds := cString_shorter ended
  have starts := cString_starts ended
  have enough : (cString buffer).length < buffer.length + 1 := by omega
  have right (fits : (replaceAll token replacement (cString buffer)).length < buffer.length) :
      StringReplaceRight token replacement buffer := by
    obtain ⟨buffer', same, more, shape⟩ := stringReplacePasses_fits some_ enough starts plain (by simpa using fits)
    refine ⟨0, buffer', same, ?_⟩
    rw [if_pos fits, ← shape, List.nil_append, List.append_assoc, List.singleton_append,
      cString_text (replaceAll_plain some_ text plain)]
    exact ⟨rfl, rfl⟩
  rw [StringReplaceFits, replacementsRoom]
  by_cases shrinks : replacement.length ≤ token.length
  · exact iff_of_true (right ((replaceAll_shrinks some_ shrinks).trans_lt holds)) (.inl shrinks)
  · rw [or_iff_right shrinks]
    have positive : 0 < replacement.length - token.length := by omega
    have grows : replacement.length = token.length + (replacement.length - token.length) := by omega
    generalize replacement.length - token.length = expand at positive grows ⊢
    have fits := replaceAll_fits_iff some_ grows positive holds
    cases at_ : (tokenPlaces token (cString buffer))[(buffer.length - 1 - (cString buffer).length) / expand]? with
    | none => exact iff_of_true (right (fits.mpr at_)) fun place some' => nomatch some'
    | some place =>
      have run := @stringReplacePasses_overflow token replacement buffer _ expand place [] (cString buffer) some_ enough
        grows positive starts plain
      simp only [List.length_nil, Nat.zero_add] at run
      have run := run at_
      have full : ¬ (replaceAll token replacement (cString buffer)).length < buffer.length := by simp [fits, at_]
      simp only [Option.some.injEq, forall_eq', StringReplaceRight, if_neg full]
      split at run
      · rename_i refused
        obtain ⟨buffer', same⟩ := run
        exact iff_of_true ⟨-1, buffer', same, rfl⟩ refused
      · rename_i passed
        refine iff_of_false (fun ⟨ret, buffer', same, _⟩ => ?_) passed
        cases run.symm.trans same

theorem stringReplaceInMemory_right_letter : StringReplaceRight [97] [98] [97, 99, 97, 0] :=
  (stringReplaceInMemory_right_iff (by decide) (by decide) (by decide)).mpr (.inl (by decide))

/-- The tail of the string is moved behind a buffer of 6 bytes. -/
theorem stringReplaceInMemory_tail : ¬ StringReplaceRight [97] [120, 121, 122] [97, 98, 99, 100, 0, 0] := by
  intro ⟨ret, buffer', same, _⟩
  have outside : stringReplaceInMemory [97] [120, 121, 122] [97, 98, 99, 100, 0, 0] = .outside := by decide
  cases outside.symm.trans same

theorem stringReplacePasses_loop {fuel fuel' : Nat} {done s buffer' : List Byte} {ret : Int} (some_ : token ≠ [])
    (text : 0#8 ∉ replacement) (first : 0#8 ∉ done) (enough : s.length ≤ fuel') (starts : done ++ s ++ [0#8] <+: buffer)
    (plain : 0#8 ∉ s) (ends : stringReplacePasses token replacement fuel buffer done.length = .returned ret buffer') :
    cString buffer' = stringReplaceLoop buffer.length token replacement fuel' done s := by
  induction fuel generalizing buffer done s fuel' with
  | zero => cases ends
  | succ fuel ih =>
    have here : cString buffer = done ++ s := @cString_behind buffer [] (done ++ s) starts (by simp [first, plain])
    cases found : memmem s token with
    | none =>
      rw [stringReplacePasses_last found starts plain] at ends
      cases ends
      cases fuel' with
      | zero => exact here
      | succ fuel' => rw [stringReplaceLoop, found, here]
    | some i =>
      have shorter := memmem_shorter some_ found
      have inside := memmem_inside some_ found
      have positive := List.length_pos_iff.mpr some_
      cases fuel' with
      | zero => omega
      | succ fuel' =>
        rw [stringReplaceLoop, found]
        simp only []
        by_cases room : done.length + s.length + replacement.length < buffer.length + token.length
        · obtain ⟨b, same, length, starts'⟩ := stringReplacePasses_next some_ found starts plain room fuel
          rw [same] at ends
          have clean : 0#8 ∉ done ++ (s.take i ++ replacement) := by
            simp only [List.mem_append, not_or]
            exact ⟨first, fun zero => plain (List.mem_of_mem_take zero), text⟩
          have next := @ih b fuel' _ _ clean (by omega) starts' (fun zero => plain (List.mem_of_mem_drop zero)) ends
          rw [length] at next
          rw [next]
          split
          · rfl
          · rw [if_neg (by omega)]
        · by_cases grows : token.length < replacement.length
          · rw [stringReplacePasses_full some_ found starts plain grows (by omega)] at ends
            split at ends
            · rename_i full
              cases ends
              rw [if_neg (by omega), if_pos full, here]
            · cases ends
          · have fits := starts.length_le
            simp only [List.length_append, List.length_singleton] at fits
            omega

/-- The string that is left behind is the one that the loop on strings gives. -/
theorem stringReplaceInMemory_text {buffer' : List Byte} {ret : Int} (some_ : token ≠ []) (text : 0#8 ∉ replacement)
    (ended : 0#8 ∈ buffer) (ends : stringReplaceInMemory token replacement buffer = .returned ret buffer') :
    cString buffer' = stringReplaceInBuffer (cString buffer) buffer.length token replacement :=
  stringReplacePasses_loop some_ text List.not_mem_nil (le_refl _) (cString_starts ended)
    (fun zero => cString_ne_zero zero rfl) ends

end Memory

end ImgEditor
