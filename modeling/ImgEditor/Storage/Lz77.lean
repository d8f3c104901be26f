import Mathlib.Data.List.Basic
import Mathlib.Data.List.TakeDrop

namespace Storage.Lz77

/-- A step of a compressed text: one element, or `length` elements that stand `distance` behind the end. -/
inductive Token (α : Type) where
  | literal (a : α)
  | back (distance length : Nat)

variable {α : Type}

/-- `length` elements are appended one after the other, each a copy of the one `distance` before it. -/
def copyBack (distance : Nat) : Nat → List α → Option (List α)
  | 0, out => some out
  | length + 1, out =>
    if distance ≤ out.length then
      (out[out.length - distance]?).bind fun a => copyBack distance length (out ++ [a])
    else none

/-- `width` elements are read before any of them is appended. -/
def copyUnit (distance : Nat) (out : List α) (width : Nat) : Option (List α) :=
  if width ≤ distance ∧ distance ≤ out.length then
    some (out ++ (out.drop (out.length - distance)).take width)
  else none

def emit (out : List α) : Token α → Option (List α)
  | .literal a => some (out ++ [a])
  | .back distance length => copyBack distance length out

def expand (out : List α) (tokens : List (Token α)) : Option (List α) := tokens.foldlM emit out

@[simp] theorem expand_nil (out : List α) : expand out [] = some out := rfl

@[simp] theorem expand_back (out : List α) (distance length : Nat) (tokens : List (Token α)) :
    expand out (.back distance length :: tokens) = (copyBack distance length out).bind fun out => expand out tokens := rfl

@[simp] theorem expand_literals (out literals : List α) (tokens : List (Token α)) :
    expand out (literals.map Token.literal ++ tokens) = expand (out ++ literals) tokens := by
  induction literals generalizing out with
  | nil => rw [List.map_nil, List.nil_append, List.append_nil]
  | cons a literals ih =>
    change expand (out ++ [a]) (literals.map Token.literal ++ tokens) = _
    rw [ih, List.append_assoc, List.singleton_append]

section Copies

variable {distance : Nat}

theorem copyBack_add (m n : Nat) (out : List α) :
    copyBack distance (m + n) out = (copyBack distance m out).bind (copyBack distance n) := by
  induction m generalizing out with
  | zero => rw [Nat.zero_add, copyBack, Option.bind_some]
  | succ m ih =>
    rw [Nat.succ_add, copyBack, copyBack]
    split
    · simp only [Option.bind_assoc, ih]
    · rfl

/-- What lies far enough behind is there before the first element is appended. -/
theorem copyBack_short {n : Nat} (short : n ≤ distance) {out : List α} (inside : distance ≤ out.length) :
    copyBack distance n out = some (out ++ (out.drop (out.length - distance)).take n) := by
  induction n with
  | zero => rw [List.take_zero, List.append_nil, copyBack]
  | succ n ih =>
    have held : n < (out.drop (out.length - distance)).length := by
      rw [List.length_drop]
      omega
    have grown : (out ++ (out.drop (out.length - distance)).take n).length = out.length + n := by
      rw [List.length_append, List.length_take_of_le (Nat.le_of_lt held)]
    have source : (out ++ (out.drop (out.length - distance)).take n)[out.length + n - distance]? =
        (out.drop (out.length - distance))[n]? := by
      rw [List.getElem?_append_left (by omega), List.getElem?_drop]
      congr 1
      omega
    rw [copyBack_add, ih (by omega), Option.bind_some, copyBack, if_pos (by omega), grown, source,
      List.getElem?_eq_getElem held, Option.bind_some, copyBack, List.append_assoc, List.take_concat_get' _ _ held]

theorem copyUnit_eq {width : Nat} (short : width ≤ distance) {out : List α} (inside : distance ≤ out.length) :
    copyUnit distance out width = copyBack distance width out := by
  rw [copyUnit, if_pos ⟨short, inside⟩, copyBack_short short inside]

theorem copyBack_length {n : Nat} {out out' : List α} (copied : copyBack distance n out = some out') :
    out'.length = out.length + n := by
  induction n generalizing out with
  | zero => rw [← Option.some.inj copied, Nat.add_zero]
  | succ n ih =>
    rw [copyBack] at copied
    split at copied
    · obtain ⟨a, -, rest⟩ := Option.bind_eq_some_iff.mp copied
      rw [ih rest, List.length_append, List.length_singleton]
      omega
    · cases copied

theorem copyBack_isSome (n : Nat) (positive : 0 < distance) {out : List α} (inside : distance ≤ out.length) :
    ∃ out', copyBack distance n out = some out' := by
  induction n generalizing out with
  | zero => exact ⟨out, rfl⟩
  | succ n ih =>
    rw [copyBack, if_pos inside, List.getElem?_eq_getElem (by omega), Option.bind_some]
    apply ih
    rw [List.length_append]
    omega

theorem copyBack_inside {n : Nat} (some_copied : 0 < n) {out out' : List α}
    (copied : copyBack distance n out = some out') : 0 < distance ∧ distance ≤ out.length := by
  cases n with
  | zero => exact absurd some_copied (Nat.lt_irrefl 0)
  | succ n =>
    rw [copyBack] at copied
    split at copied
    · obtain ⟨a, read, -⟩ := Option.bind_eq_some_iff.mp copied
      obtain ⟨bound, -⟩ := List.getElem?_eq_some_iff.mp read
      omega
    · cases copied

end Copies

theorem emit_length {out out' : List α} {token : Token α} (done : emit out token = some out') : out.length ≤ out'.length := by
  cases token with
  | literal a =>
    rw [← Option.some.inj done, List.length_append]
    exact Nat.le_add_right _ _
  | back distance length =>
    rw [copyBack_length done]
    exact Nat.le_add_right _ _

theorem expand_length {tokens : List (Token α)} {out out' : List α} (done : expand out tokens = some out') :
    out.length ≤ out'.length := by
  induction tokens generalizing out with
  | nil =>
    rw [expand_nil, Option.some.injEq] at done
    exact Nat.le_of_eq (congrArg List.length done)
  | cons token tokens ih =>
    obtain ⟨next, first, rest⟩ := Option.bind_eq_some_iff.mp done
    exact Nat.le_trans (emit_length first) (ih rest)

end Storage.Lz77
