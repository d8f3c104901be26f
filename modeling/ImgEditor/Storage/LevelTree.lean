import Mathlib.Data.List.Basic

namespace Storage

/-- A tree whose leaves all lie at one depth: records there, keyed children above. -/
def LevelTree (κ α : Type) : Nat → Type
  | 0 => List α
  | depth + 1 => List (κ × LevelTree κ α depth)

namespace LevelTree

variable {κ α : Type}

def groups : (depth : Nat) → LevelTree κ α depth → List (List α)
  | 0, (records : List α) => [records]
  | depth + 1, (children : List (κ × LevelTree κ α depth)) => children.flatMap fun child => groups depth child.2

def leaves (depth : Nat) (tree : LevelTree κ α depth) : List α := (groups depth tree).flatten

def keys : (depth : Nat) → LevelTree κ α depth → List κ
  | 0, _ => []
  | depth + 1, (children : List (κ × LevelTree κ α depth)) =>
    children.flatMap fun child => child.1 :: keys depth child.2

end LevelTree

end Storage
