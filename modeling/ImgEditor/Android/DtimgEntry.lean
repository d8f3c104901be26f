import ImgEditor.Android.DtimgConfig

namespace ImgEditor

open Storage CText

theorem customName_injective {i j : Fin 4} (same : customName i = customName j) : i = j := by
  have digits : printed 10 i.val = printed 10 j.val := List.append_cancel_left same
  have values := congrArg (numeral 10) digits
  rw [(printed_valid (by decide) (by decide) _).2.2.2, (printed_valid (by decide) (by decide) _).2.2.2] at values
  exact Fin.ext values

theorem customName_ne (i : Fin 4) : cstr "id" ≠ customName i ∧ cstr "rev" ≠ customName i := by
  have head : (customName i).head? = some 99#8 := rfl
  constructor
  · intro same
    rw [← same] at head
    exact absurd head (by decide)
  · intro same
    rw [← same] at head
    exact absurd head (by decide)

theorem names_nodup : DtimgNumber.names.Nodup := by
  have customs : ((List.finRange 4).map customName).Nodup :=
    (List.nodup_finRange 4).map fun _ _ same => customName_injective same
  have shape : DtimgNumber.names = cstr "id" :: cstr "rev" :: (List.finRange 4).map customName := rfl
  have other : ∀ name, (∀ i, name ≠ customName i) → name ∉ (List.finRange 4).map customName := by
    intro name apart member
    obtain ⟨i, _, same⟩ := List.mem_map.mp member
    exact apart i same.symm
  rw [shape, List.nodup_cons, List.nodup_cons, List.mem_cons, not_or]
  exact ⟨⟨by decide, other _ fun i => (customName_ne i).1⟩, other _ fun i => (customName_ne i).2, customs⟩

theorem find_printedNumbers {numbers : List DtimgNumber} (nodup : (numbers.map DtimgNumber.name).Nodup)
    {number : DtimgNumber} (member : number ∈ numbers) :
    ((printedNumbers numbers).map DtimgNumber.property).find? (fun prop => decide (prop.name = number.name)) =
      if number.value ≠ number.default_ then some number.property else none := by
  induction numbers with
  | nil => exact absurd member List.not_mem_nil
  | cons head rest ih =>
    obtain ⟨absent, nodup⟩ := List.nodup_cons.mp nodup
    rcases List.mem_cons.mp member with rfl | later
    · by_cases same : number.value = number.default_
      · rw [printedNumbers, List.filter_cons_of_neg (by simpa using same), if_neg (not_not_intro same)]
        apply List.find?_eq_none.mpr
        intro prop inside
        obtain ⟨other, printed, rfl⟩ := List.mem_map.mp inside
        have different : other.name ≠ number.name := fun equal =>
          absent (equal ▸ List.mem_map_of_mem (List.mem_of_mem_filter printed))
        exact fun equal => different (of_decide_eq_true equal)
      · rw [printedNumbers, List.filter_cons_of_pos (by simpa using same), if_pos same]
        simp [DtimgNumber.property]
    · have tail := ih nodup later
      by_cases same : head.value = head.default_
      · rw [printedNumbers, List.filter_cons_of_neg (by simpa using same)]
        exact tail
      · have different : head.name ≠ number.name := fun equal => absent (equal ▸ List.mem_map_of_mem later)
        rw [printedNumbers, List.filter_cons_of_pos (by simpa using same), List.map_cons, List.find?_cons_of_neg]
        · exact tail
        · exact fun equal => different (of_decide_eq_true equal)

section Entry

variable (p : DtimgPrivateData) (board : DtimgBoard) (name : CString)

def boardSection : ExiniSection := ⟨name, (printedNumbers (board.numbers p)).map DtimgNumber.property⟩

theorem boardSection_find {number : DtimgNumber} (member : number ∈ board.numbers p) :
    exiniFindSectionProperty (boardSection p board name) number.name =
      if number.value ≠ number.default_ then some number.property else none :=
  find_printedNumbers (numbers_names p board ▸ names_nodup) member

theorem boardSection_readUlong {number : DtimgNumber} (member : number ∈ board.numbers p) :
    exiniSectionReadUlong (boardSection p board name) number.name =
      if number.value ≠ number.default_ then .ok number.value.toNat else .error .notDefined := by
  rw [exiniSectionReadUlong, boardSection_find p board name member]
  by_cases same : number.value = number.default_
  · rw [if_neg (not_not_intro same), if_neg (not_not_intro same)]
  · rw [if_pos same, if_pos same]
    rfl

theorem globalSection_custom (j : Fin 4) : exiniSectionReadUlong (globalSection p) (customName j) =
    if dtimgGetDefaultCustom p.entries j ≠ 0 then .ok (dtimgGetDefaultCustom p.entries j).toNat
    else .error .notDefined := by
  have nodup : ((globalNumbers p).map DtimgNumber.name).Nodup := by
    rw [globalNumbers_names]
    exact names_nodup.sublist (List.drop_sublist 2 _)
  have member : (⟨customName j, dtimgGetDefaultCustom p.entries j, 0⟩ : DtimgNumber) ∈ globalNumbers p :=
    List.mem_map_of_mem (List.mem_finRange j)
  obtain ⟨id, rev⟩ := customName_ne j
  have found : exiniFindSectionProperty (globalSection p) (customName j) =
      if dtimgGetDefaultCustom p.entries j ≠ 0 then
        some ⟨customName j, .ulong (dtimgGetDefaultCustom p.entries j).toNat⟩ else none := by
    rw [exiniFindSectionProperty, globalSection, List.cons_append, List.cons_append, List.nil_append,
      List.find?_cons_of_neg (by simpa using id), List.find?_cons_of_neg (by simpa using rev)]
    exact find_printedNumbers nodup member
  rw [exiniSectionReadUlong, found]
  by_cases zero : dtimgGetDefaultCustom p.entries j = 0
  · rw [if_neg (not_not_intro zero), if_neg (not_not_intro zero)]
  · rw [if_pos zero, if_pos zero]

theorem dtimgInitCustom_board (j : Fin 4) :
    dtimgInitCustom (globalSection p) (boardSection p board name) j = some (board.entry.custom j) := by
  have member : (⟨customName j, board.entry.custom j, dtimgGetDefaultCustom p.entries j⟩ : DtimgNumber) ∈
      board.numbers p :=
    List.mem_cons_of_mem _ (List.mem_cons_of_mem _ (List.mem_map_of_mem (List.mem_finRange j)))
  have own := boardSection_readUlong p board name member
  have default_ := globalSection_custom p j
  simp only at own
  rw [dtimgInitCustom, dtimgEntryReadUlong, own]
  by_cases same : board.entry.custom j = dtimgGetDefaultCustom p.entries j
  · rw [if_neg (not_not_intro same), default_, same]
    by_cases zero : dtimgGetDefaultCustom p.entries j = 0
    · rw [if_neg (not_not_intro zero), zero]
    · rw [if_pos zero]
      simp
  · rw [if_pos same]
    simp

/-- The two fall-backs to the device tree, with what they look up. -/
theorem globalSection_path {key path node : CString}
    (known : (key, path, node) ∈ [(cstr "id", cstr "/:board_id", cstr "board_id"),
      (cstr "rev", cstr "/:board_rev", cstr "board_rev")]) (root : DeviceNode) :
    exiniFindSectionProperty (globalSection p) key = some ⟨key, .unknown path⟩ ∧
      deviceNodeFindBypath root (stringReplaceInBuffer (path.take 127) 128 (cstr ":") []) =
        deviceNodeFindByname root node := by
  have colon : cstr ":" = [58#8] := by decide
  have split : argvBufferSplitWithDelim ((path.take 127).filter (· ≠ 58#8)) [47#8] FDT_MAX_DEPTH = [node] := by
    simp only [List.mem_cons, Prod.mk.injEq, List.not_mem_nil, or_false] at known
    rcases known with ⟨rfl, rfl, rfl⟩ | ⟨rfl, rfl, rfl⟩
    · decide
    · decide
  constructor
  · rw [exiniFindSectionProperty, globalSection]
    simp only [List.mem_cons, Prod.mk.injEq, List.not_mem_nil, or_false] at known
    rcases known with ⟨rfl, rfl, rfl⟩ | ⟨rfl, rfl, rfl⟩
    · rw [List.cons_append, List.find?_cons_of_pos (by simp)]
    · rw [List.cons_append, List.find?_cons_of_neg (by decide), List.cons_append, List.find?_cons_of_pos (by simp)]
  · rw [deviceNodeFindBypath, colon, stringReplaceInBuffer_remove, split]
    simp

def Readable32 (root : DeviceNode) (name : CString) : Prop :=
  ∀ node, deviceNodeFindByname root name = some node → node.data.length = 4

theorem dtimgInitNumber_board {key path node : CString}
    (known : (key, path, node) ∈ [(cstr "id", cstr "/:board_id", cstr "board_id"),
      (cstr "rev", cstr "/:board_rev", cstr "board_rev")])
    {value : BitVec 32} (member : ⟨key, value, dtimgDtboGetGlobal board.root node⟩ ∈ board.numbers p)
    (readable : Readable32 board.root node) :
    dtimgInitNumber board.root (globalSection p) (boardSection p board name) key 0 = some value := by
  have own := boardSection_readUlong p board name member
  have found := boardSection_find p board name member
  obtain ⟨global, path_⟩ := globalSection_path p known board.root
  simp only at own found
  rw [dtimgInitNumber, dtimgEntryReadUlong, own]
  by_cases same : value = dtimgDtboGetGlobal board.root node
  · rw [if_neg (not_not_intro same)] at found
    have read : exiniSectionReadUlong (globalSection p) key = .error .badType := by
      rw [exiniSectionReadUlong, global]
    have string : (exiniSectionReadString (boardSection p board name) key true).or
        (exiniSectionReadString (globalSection p) key true) = some path := by
      rw [exiniSectionReadString, exiniSectionReadString, found, global]
      rfl
    rw [if_neg (not_not_intro same)]
    simp only [read, dtimgInitEntryFromDt, string, path_]
    rw [same, dtimgDtboGetGlobal]
    cases lookup : deviceNodeFindByname board.root node with
    | none => rfl
    | some found =>
      have number : deviceNodeReadU32 found = some (be32 found.data 0) := if_pos (readable found lookup)
      simp [number]
  · rw [if_pos same]
    simp

theorem dtimgInitEntry_board (id : Readable32 board.root (cstr "board_id"))
    (rev : Readable32 board.root (cstr "board_rev")) :
    dtimgInitEntry board.root (globalSection p) (boardSection p board name) .zero =
      some { DtTableEntry.zero with
        id := board.entry.id, rev := board.entry.rev, custom := board.entry.custom } := by
  have readId := @dtimgInitNumber_board p board name (cstr "id") (cstr "/:board_id") (cstr "board_id")
    List.mem_cons_self board.entry.id List.mem_cons_self id
  have readRev := @dtimgInitNumber_board p board name (cstr "rev") (cstr "/:board_rev") (cstr "board_rev")
    (List.mem_cons_of_mem _ List.mem_cons_self) board.entry.rev (List.mem_cons_of_mem _ List.mem_cons_self) rev
  have customs : ![board.entry.custom 0, board.entry.custom 1, board.entry.custom 2, board.entry.custom 3] =
      board.entry.custom := by
    funext ⟨j, bound⟩
    have cases : j = 0 ∨ j = 1 ∨ j = 2 ∨ j = 3 := by omega
    rcases cases with rfl | rfl | rfl | rfl <;> rfl
  simp only [dtimgInitEntry, DtTableEntry.zero, readId, readRev, dtimgInitCustom_board, Option.bind_eq_bind,
    Option.bind_some, Option.pure_def, customs]

end Entry

end ImgEditor
