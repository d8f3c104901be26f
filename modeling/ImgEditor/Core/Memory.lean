import ImgEditor.Storage.Bytes

namespace ImgEditor

open Storage

/-- Memory from some address on, bytes behind the end of an object included. -/
abbrev Memory := Nat → Byte

def bufferMemory (junk : Nat → Byte) (buf : List Byte) : Memory :=
  fun i => if i < buf.length then buf.getD i 0#8 else junk i

/-- `le16_to_cpu` and `le32_to_cpu` of a field. -/
def memField (m : Memory) (offset width : Nat) : Nat := leNumber ((List.range width).map fun i => m (offset + i))

/-- `be16_to_cpu` and `be32_to_cpu` of a field. -/
def memBeField (m : Memory) (offset width : Nat) : Nat := leNumber ((List.range width).map fun i => m (offset + i)).reverse

theorem memField_lt (m : Memory) (offset width : Nat) : memField m offset width < 256 ^ width := by
  have bound := leNumber_lt ((List.range width).map fun i => m (offset + i))
  rwa [List.length_map, List.length_range] at bound

end ImgEditor
