import ImgEditor.Core.SnprintfContinue
import ImgEditor.Core.StringHelper
import ImgEditor.Core.StructureTable
import ImgEditor.Disk.GptText

namespace ImgEditor

open Storage CText

theorem CharFmt.print_length (charFmt : CharFmt) (b : Byte) : (charFmt.print b).length = 2 := rfl

def uuidOrder (isuuid : Bool) : Fin 16 → Fin 16 := if isuuid then uuidCharOrder.get else guidCharOrder.get

/-- What the calls of pass `i` format. -/
def uuidPieces (order : Fin 16 → Fin 16) (charFmt : CharFmt) (guid : EfiGuid) (i : Fin 16) : List Piece :=
  ⟨charFmt.print (guid.b.get (order i)), by rw [CharFmt.print_length]; decide⟩ ::
    (if i = 3 ∨ i = 5 ∨ i = 7 ∨ i = 9 then [⟨[45], by decide⟩] else [])

/-- `snprintf_uuid` on a buffer, whose contents it leaves there. -/
def snprintfUuidBuffer (buf : List Byte) (isuuid : Bool) (charFmt : CharFmt) (guid : EfiGuid) : Option (List Byte) :=
  let calls := (List.finRange 16).flatMap (uuidPieces (uuidOrder isuuid) charFmt guid)
  (snprintfCalls ⟨buf, 0, buf.length⟩ (calls.map Piece.formatted)).map Printing.buffer

/-- `sscanf_uuid`. -/
def sscanfUuidString (guid : EfiGuid) (isuuid : Bool) (s : CString) : Option EfiGuid :=
  sscanfUuidOrder (uuidOrder isuuid) guid s

theorem sscanfUuid_order (guid : EfiGuid) (s : CString) : sscanfUuid guid s = sscanfUuidString guid false s := rfl

theorem uuidOrder_involutive (isuuid : Bool) : Function.Involutive (uuidOrder isuuid) := by
  cases isuuid with
  | false => exact guidCharOrder_involutive
  | true =>
    unfold Function.Involutive
    decide

section Text

variable (order : Fin 16 → Fin 16) (charFmt : CharFmt) (guid : EfiGuid)

theorem uuidPieces_text :
    ((List.finRange 16).flatMap (uuidPieces order charFmt guid)).flatMap Subtype.val = uuidText order charFmt guid := by
  rw [List.flatMap_assoc, uuidText]
  congr 1
  funext i
  rw [uuidPieces, List.flatMap_cons]
  split <;> rfl

theorem uuidText_length : (uuidText order charFmt guid).length = 36 := by
  simp only [uuidText, List.finRange_succ, List.finRange_zero, List.flatMap_cons, List.flatMap_nil,
    List.map_cons, List.map_nil, CharFmt.print]
  rfl

theorem uuidText_plain : 0#8 ∉ uuidText order charFmt guid := by
  intro zero
  obtain ⟨i, _, inside⟩ := List.mem_flatMap.mp zero
  have bound := (guid.b.get (order i)).isLt
  cases List.mem_append.mp inside with
  | inl digit =>
    cases List.mem_cons.mp digit with
    | inl high => exact (charFmt.digit_value (by omega)).2.2 high.symm
    | inr low => exact (charFmt.digit_value (by omega)).2.2 (List.mem_singleton.mp low).symm
  | inr dash =>
    split at dash
    · exact absurd (List.mem_singleton.mp dash) (by decide)
    · cases dash

end Text

/-- The text and its terminator fill 37 bytes. -/
theorem snprintfUuidBuffer_text {buf : List Byte} (room : 37 ≤ buf.length) (small : buf.length < 2 ^ 64) (isuuid : Bool)
    (charFmt : CharFmt) (guid : EfiGuid) :
    ∃ buf', snprintfUuidBuffer buf isuuid charFmt guid = some buf' ∧
      cString buf' = uuidText (uuidOrder isuuid) charFmt guid := by
  obtain ⟨p, run, _, _, ended⟩ := snprintfCalls_texts small
    ((List.finRange 16).flatMap (uuidPieces (uuidOrder isuuid) charFmt guid)) (Printing.inside_start (by omega)) (Printing.holds_start buf)
  have front := ended (.inl (by simp [List.finRange_succ, uuidPieces]))
  rw [uuidPieces_text, List.nil_append, List.take_of_length_le (by rw [uuidText_length]; omega)] at front
  obtain ⟨rest, whole⟩ := front
  refine ⟨p.buffer, by rw [snprintfUuidBuffer, run]; rfl, ?_⟩
  rw [← whole, List.append_assoc, cString]
  exact takeWhile_other (uuidText_plain (uuidOrder isuuid) charFmt guid) rest

/-- The text of a GUID, as the printers and the table listing use it, is what stands in their buffer. -/
theorem snprintfUuidBuffer_guid {buf : List Byte} (room : 37 ≤ buf.length) (small : buf.length < 2 ^ 64) (guid : EfiGuid) :
    ∃ buf', snprintfUuidBuffer buf false .lower guid = some buf' ∧ cString buf' = snprintfUuid guid := by
  rw [snprintfUuid_text]
  exact snprintfUuidBuffer_text room small false .lower guid

/-- Either kind of identifier, printed with either case of letters, is read back to the same sixteen bytes. -/
theorem sscanfUuidString_snprintfUuidBuffer {buf : List Byte} (room : 37 ≤ buf.length) (small : buf.length < 2 ^ 64)
    (isuuid : Bool) (charFmt : CharFmt) (guid old : EfiGuid) :
    ∃ buf', snprintfUuidBuffer buf isuuid charFmt guid = some buf' ∧
      sscanfUuidString old isuuid (cString buf') = some guid := by
  obtain ⟨buf', printed, text⟩ := snprintfUuidBuffer_text room small isuuid charFmt guid
  refine ⟨buf', printed, ?_⟩
  rw [text]
  exact sscanfUuidOrder_uuidText (uuidOrder_involutive isuuid) charFmt old guid

theorem sscanfUuidString_snprintfUuidBuffer_exact :
    ∃ buf', snprintfUuidBuffer (List.replicate 37 170) false .upper ⟨Vector.ofFn fun i => BitVec.ofNat 8 (16 * i + 15)⟩ =
      some buf' ∧
      sscanfUuidString EfiGuid.zero false (cString buf') = some ⟨Vector.ofFn fun i => BitVec.ofNat 8 (16 * i + 15)⟩ :=
  sscanfUuidString_snprintfUuidBuffer (by rw [List.length_replicate]) (by rw [List.length_replicate]; decide) _ _ _ _

end ImgEditor
