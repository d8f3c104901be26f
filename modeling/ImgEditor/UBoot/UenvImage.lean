import ImgEditor.UBoot.Uenv

namespace ImgEditor

open Storage CText

theorem libcrc32Update_append (next : BitVec 32) (left right : List Byte) :
    libcrc32Update next (left ++ right) = libcrc32Update (libcrc32Update next left) right := by
  induction left generalizing next with
  | nil => rfl
  | cons byte left ih => exact ih _

theorem crc32_append (crc : BitVec 32) (left right : List Byte) :
    crc32 (crc32 crc left) right = crc32 crc (left ++ right) := by
  rw [crc32, crc32, crc32, BitVec.xor_assoc, BitVec.xor_self, BitVec.xor_zero, libcrc32Update_append]

theorem crc32_nil (crc : BitVec 32) : crc32 crc [] = crc := by
  rw [crc32, libcrc32Update, BitVec.xor_assoc, BitVec.xor_self, BitVec.xor_zero]

theorem uenvCalcCrc_piecewise : Piecewise uenvCalcCrc where
  keeps _ _ := rfl
  empty crc := by rw [uenvCalcCrc, crc32_nil]
  append left right crc _ := by simp only [uenvCalcCrc, crc32_append]

theorem uenvScan_inside (junk : Nat → Byte) (file : File) (pos count : Nat) (inside : 4 + count ≤ file.size) :
    uenvScan junk ⟨file, 0, pos⟩ count = crc32 0 (file.slice 4 count) := by
  have stream : ddStream ((some (⟨file, 0, pos⟩ : Fd)).map (·.fileseek 4)) count = file.slice 4 count := by
    show File.readAt _ _ _ = _
    rw [Fd.fileseek_file, Fd.fileseek_pos _ _ (show (0 + 4 : Nat) < 2 ^ 63 by decide)]
    exact File.readAt_full _ _ _ inside
  have scanned := dd64_scan uenvCalcCrc_piecewise junk (some ⟨file, 0, pos⟩) none 4 0 count 0 (by simp)
    (by rw [stream, File.slice_length])
  rw [stream] at scanned
  exact scanned.2.2

def UenvTitled (text : List Byte) (envSize : Int) : Prop :=
  ∃ buffer rest s title, fgetsLines 1021 text = buffer :: rest ∧ uenvLine buffer = some s ∧
    uenvTitle s = some title ∧ title.1 = envSize

/-- An image under construction: a plain file that holds at least the environment. -/
structure UenvFilled (pack : UenvPack) (envSize : Int) : Prop where
  size : pack.envSize = envSize
  start : pack.fd.start = 0
  filled : envSize < 2 ^ 63 → envSize ≤ pack.fd.file.size

theorem uenvPackTitle_filled (title : Int × Option Int) : UenvFilled (uenvPackTitle title Fd.created) title.1 := by
  have zeros := dd64_copy (fun _ => 0) none (some Fd.created) 0 0 (title.1 % 2 ^ 64).toNat () (by simp)
  obtain ⟨_, written, _⟩ := zeros
  have file : ((dd64 (fun _ => 0) none (some Fd.created) 0 0 (title.1 % 2 ^ 64).toNat none ()).dst.getD
      Fd.created) = (Fd.created.fileseek 0).write (List.replicate (title.1 % 2 ^ 64).toNat 0) := by
    rw [written]
    rfl
  have size : title.1 < 2 ^ 63 → title.1 ≤ ((Fd.created.fileseek 0).write
      (List.replicate (title.1 % 2 ^ 64).toNat (0 : Byte))).file.size := by
    intro small
    by_cases zero : (title.1 % 2 ^ 64).toNat = 0
    · omega
    · rw [Fd.write_file, File.writeAt_size _ _ _ (by simpa using zero), List.length_replicate]
      omega
  obtain ⟨envSize, part⟩ := title
  cases part with
  | none =>
    refine ⟨rfl, ?_, ?_⟩
    · simp only [uenvPackTitle, file]
      simp [Fd.created]
    · simp only [uenvPackTitle, file, Fd.lseek64_file]
      exact size
  | some part =>
    refine ⟨rfl, ?_, ?_⟩
    · simp only [uenvPackTitle, file]
      simp [Fd.created]
    · intro small
      simp only [uenvPackTitle, file]
      rw [Fd.write_file, Fd.lseek64_file]
      have grown := File.size_le_writeAt ((Fd.created.fileseek 0).write
        (List.replicate (envSize % 2 ^ 64).toNat (0 : Byte))).file
        (((Fd.created.fileseek 0).write (List.replicate (envSize % 2 ^ 64).toNat (0 : Byte))).lseek64 4).pos
        [BitVec.ofInt 8 part]
      have filled := size small
      dsimp only at filled
      omega

theorem uenvPackLine_filled {pack next : UenvPack} {envSize : Int} {buffer : List Byte} {fd : Fd}
    (filled : UenvFilled pack envSize) (packed : uenvPackLine (some pack) buffer fd = some next) :
    UenvFilled next envSize := by
  obtain ⟨s, _, line⟩ := Option.bind_eq_some_iff.mp packed
  obtain rfl := Option.some.inj line
  refine ⟨filled.size, by simpa using filled.start, ?_⟩
  intro small
  have before := filled.filled small
  have grown := File.size_le_writeAt pack.fd.file pack.fd.pos
    (stringReplaceInBuffer (stringReplaceInBuffer s 1024 [92#8, 114#8] [13#8]) 1024 [92#8, 110#8] [10#8] ++ [0#8])
  simp only [Fd.write_file]
  omega

theorem uenvPackLines_filled {pack : UenvPack} {last : Option UenvPack} {envSize : Int}
    {buffers : List (List Byte)} (filled : UenvFilled pack envSize)
    (packed : buffers.foldlM (fun pack buffer => (uenvPackLine pack buffer Fd.created).map some) (some pack) =
      some last) : ∃ next, last = some next ∧ UenvFilled next envSize := by
  induction buffers generalizing pack with
  | nil => exact ⟨pack, (Option.some.inj packed).symm, filled⟩
  | cons buffer rest ih =>
    rw [List.foldlM_cons] at packed
    obtain ⟨middle, line, tail⟩ := Option.bind_eq_some_iff.mp packed
    obtain ⟨next, packedLine, rfl⟩ := Option.map_eq_some_iff.mp line
    exact ih (uenvPackLine_filled filled packedLine) tail

theorem uenvPack_image {junk : Nat → Byte} {text : List Byte} {envSize : Int} {image : Fd}
    (titled : UenvTitled text envSize) (packed : uenvPack junk text = some image) (header : 4 ≤ envSize)
    (small : envSize < 2 ^ 63) :
    (image.file.size : Int) = envSize ∧
      image.file.slice 0 4 = leBytes 4 (crc32 0 (image.file.slice 4 (envSize.toNat - 4))).toNat := by
  obtain ⟨buffer, rest, s, title, lines, line, titleLine, rfl⟩ := titled
  obtain ⟨last, folded, done⟩ := Option.bind_eq_some_iff.mp packed
  rw [lines, List.foldlM_cons] at folded
  have first : uenvPackLine none buffer Fd.created = some (uenvPackTitle title Fd.created) := by
    simp [uenvPackLine, line, titleLine]
  rw [first] at folded
  obtain ⟨pack, rfl, sized, start, filled⟩ := uenvPackLines_filled (uenvPackTitle_filled title) folded
  have positive : (0 : Int) < 4 := by decide
  simp only [Option.getD_some] at done
  split at done
  · cases done
  rename_i fits
  obtain rfl := Option.some.inj done
  have exact : (pack.fd.file.size : Int) = title.1 := by
    have least := filled small
    omega
  have count : ((pack.envSize - 4) % 2 ^ 64).toNat = pack.fd.file.size - 4 := by omega
  have scanned : uenvScan junk pack.fd ((pack.envSize - 4) % 2 ^ 64).toNat =
      crc32 0 (pack.fd.file.slice 4 (pack.fd.file.size - 4)) := by
    obtain ⟨packSize, file, fdStart, pos⟩ := pack
    obtain rfl : fdStart = 0 := start
    rw [count]
    exact uenvScan_inside junk file pos _ (by
      have long : 4 ≤ file.size := by
        have whole : (file.size : Int) = title.1 := exact
        omega
      show 4 + (file.size - 4) ≤ file.size
      omega)
  rw [scanned, Fd.write_file, Fd.lseek64_file, Fd.lseek64_pos _ _ (by decide)]
  have rest : (pack.fd.file.writeAt 0 (leBytes 4 (crc32 0 (pack.fd.file.slice 4 (pack.fd.file.size - 4))).toNat)).slice
      4 (title.1.toNat - 4) = pack.fd.file.slice 4 (pack.fd.file.size - 4) := by
    rw [File.writeAt_slice_outside _ _ _ _ _ (Or.inr (by simp)), ← exact, Int.toNat_natCast]
  rw [rest]
  refine ⟨?_, ?_⟩
  · rw [File.writeAt_size _ _ _ (by simp [leBytes]), leBytes_length]
    omega
  · have stored := File.writeAt_slice_self pack.fd.file 0
      (leBytes 4 (crc32 0 (pack.fd.file.slice 4 (pack.fd.file.size - 4))).toNat)
    rwa [leBytes_length] at stored

def uenvFile (size : Nat) (content : List Byte) : File :=
  (File.empty.writeAt 0 (List.replicate size 0)).writeAt 4 content

def uenvPartBytes (part : Option Int) : List Byte := (part.map (BitVec.ofInt 8)).toList

def uenvUnescape (line : CString) : CString := unescapeLetter 110#8 10#8 (unescapeLetter 114#8 13#8 line)

def uenvContent (part : Option Int) (lines : List CString) : List Byte :=
  uenvPartBytes part ++ lines.flatMap fun line => uenvUnescape line ++ [0#8]

theorem uenvPackTitle_fd {envSize : Int} (part : Option Int) (positive : 0 ≤ envSize) (small : envSize < 2 ^ 63) :
    uenvPackTitle (envSize, part) Fd.created =
      ⟨envSize, uenvFile envSize.toNat (uenvPartBytes part), 0, 4 + (uenvPartBytes part).length⟩ := by
  have zeros := dd64_copy (fun _ => 0) none (some Fd.created) 0 0 (envSize % 2 ^ 64).toNat () (by simp)
  obtain ⟨_, written, _⟩ := zeros
  have count : (envSize % 2 ^ 64).toNat = envSize.toNat := by omega
  have file : ((dd64 (fun _ => 0) none (some Fd.created) 0 0 (envSize % 2 ^ 64).toNat none ()).dst.getD
      Fd.created) = ⟨File.empty.writeAt 0 (List.replicate envSize.toNat 0), 0, envSize.toNat⟩ := by
    rw [written, count]
    simp [ddStream, Fd.write, Fd.created, Fd.fileseek, Fd.lseek64]
  simp only [uenvPackTitle, file]
  cases part with
  | none => simp [uenvPartBytes, uenvFile, Fd.lseek64]
  | some part => simp [uenvPartBytes, uenvFile, Fd.lseek64, Fd.write]

theorem uenvLine_line {line : CString} (plain : 0#8 ∉ line) : uenvLine (line ++ [10#8]) = some line := by
  have whole : (line ++ [10#8]).takeWhile (· ≠ 0#8) = line ++ [10#8] := by
    rw [List.takeWhile_eq_self_iff]
    intro c member
    rcases List.mem_append.mp member with inside | last
    · have other : c ≠ 0#8 := fun zero => plain (zero ▸ inside)
      simpa using other
    · rw [List.mem_singleton.mp last]
      decide
  simp only [uenvLine, whole]
  simp

theorem uenvPackLine_line {line : CString} (plain : 0#8 ∉ line) (envSize : Int) (size : Nat) (content : List Byte)
    (fd : Fd) :
    uenvPackLine (some ⟨envSize, uenvFile size content, 0, 4 + content.length⟩) (line ++ [10#8]) fd =
      some ⟨envSize, uenvFile size (content ++ (uenvUnescape line ++ [0#8])), 0,
        4 + (content ++ (uenvUnescape line ++ [0#8])).length⟩ := by
  rw [uenvPackLine, uenvLine_line plain]
  simp only [Option.bind_eq_bind, Option.bind_some, stringReplaceInBuffer_letter, Option.pure_def]
  have appended := File.writeAt_append (File.empty.writeAt 0 (List.replicate size 0)) 4 content
    (uenvUnescape line ++ [0#8])
  simp only [Fd.write, uenvFile, ← appended, List.length_append, List.length_singleton, Nat.add_assoc]
  rfl

theorem uenvPackLines_lines {lines : List CString} (plain : ∀ line ∈ lines, 0#8 ∉ line) (envSize : Int) (size : Nat)
    (content : List Byte) :
    (lines.map (· ++ [10#8])).foldlM (fun pack buffer => (uenvPackLine pack buffer Fd.created).map some)
      (some ⟨envSize, uenvFile size content, 0, 4 + content.length⟩) =
        some (some ⟨envSize, uenvFile size (content ++ lines.flatMap fun line => uenvUnescape line ++ [0#8]), 0,
          4 + (content ++ lines.flatMap fun line => uenvUnescape line ++ [0#8]).length⟩) := by
  induction lines generalizing content with
  | nil => simp
  | cons line lines ih =>
    have first := uenvPackLine_line (plain line List.mem_cons_self) envSize size content Fd.created
    have rest := ih (fun other member => plain other (List.mem_cons_of_mem _ member))
      (content ++ (uenvUnescape line ++ [0#8]))
    rw [List.map_cons, List.foldlM_cons, first]
    simp only [Option.map_some, Option.bind_eq_bind, Option.bind_some, rest, List.flatMap_cons, List.append_assoc]

def uenvText (title : CString) (lines : List CString) : List Byte := (title :: lines).flatMap (· ++ [10#8])

def UenvPlain (line : CString) : Prop := line.length ≤ 1021 ∧ 10#8 ∉ line ∧ 0#8 ∉ line

theorem uenvPack_text (junk : Nat → Byte) {title : CString} {lines : List CString} {envSize : Int}
    {part : Option Int} (plain : ∀ line ∈ title :: lines, UenvPlain line)
    (valid : uenvTitle title = some (envSize, part)) (positive : 0 ≤ envSize) (small : envSize < 2 ^ 63) :
    UenvTitled (uenvText title lines) envSize ∧ uenvPack junk (uenvText title lines) =
      if ((uenvFile envSize.toNat (uenvContent part lines)).size : Int) > envSize then none
      else some ((Fd.lseek64 ⟨uenvFile envSize.toNat (uenvContent part lines), 0,
        4 + (uenvContent part lines).length⟩ 0).write
          (leBytes 4 (uenvScan junk ⟨uenvFile envSize.toNat (uenvContent part lines), 0,
            4 + (uenvContent part lines).length⟩ ((envSize - 4) % 2 ^ 64).toNat).toNat)) := by
  have buffers := fgetsLines_lines 1021 (title :: lines) fun line member =>
    ⟨(plain line member).1, (plain line member).2.1⟩
  have titleLine := uenvLine_line (plain title List.mem_cons_self).2.2
  refine ⟨⟨_, _, title, _, buffers, titleLine, valid, rfl⟩, ?_⟩
  have folded := uenvPackLines_lines (fun line member => (plain line (List.mem_cons_of_mem _ member)).2.2)
    envSize envSize.toNat (uenvPartBytes part)
  have first : uenvPackLine none (title ++ [10#8]) Fd.created =
      some ⟨envSize, uenvFile envSize.toNat (uenvPartBytes part), 0, 4 + (uenvPartBytes part).length⟩ := by
    simp only [uenvPackLine, titleLine, valid, Option.bind_eq_bind, Option.bind_some, Option.pure_def,
      uenvPackTitle_fd part positive small]
  rw [uenvPack, uenvText, buffers, List.map_cons, List.foldlM_cons, first]
  simp only [Option.map_some, Option.bind_eq_bind, Option.bind_some, folded, Option.getD_some]
  rfl

theorem uenvFile_size (size : Nat) (content : List Byte) :
    (uenvFile size content).size = if content = [] then size else max size (4 + content.length) := by
  have zeros : (File.empty.writeAt 0 (List.replicate size (0 : Byte))).size = size := by
    by_cases zero : size = 0
    · simp [zero, File.empty]
    · rw [File.writeAt_size _ _ _ (by simpa using zero)]
      simp [File.empty]
  by_cases empty : content = []
  · rw [uenvFile, empty, File.writeAt_nil, zeros, if_pos rfl]
  · rw [uenvFile, File.writeAt_size _ _ _ empty, zeros, if_neg empty]

theorem uenvFile_byte (size : Nat) (content : List Byte) (i : Nat) :
    (uenvFile size content).byte (4 + i) = content.getD i 0 := by
  have zeros : (File.empty.writeAt 0 (List.replicate size (0 : Byte))).byte (4 + i) = 0 := by
    simp only [File.writeAt, File.empty]
    split
    · rename_i inside
      simp only [List.length_replicate] at inside
      rw [List.getD_eq_getElem?_getD, List.getElem?_replicate]
      split <;> rfl
    · rfl
  by_cases inside : i < content.length
  · rw [uenvFile, File.writeAt_byte_inside _ _ _ _ (by omega) (by omega), Nat.add_sub_cancel_left]
    rfl
  · rw [uenvFile, File.writeAt_byte_outside _ _ _ _ (Or.inr (by omega)), zeros,
      List.getD_eq_default _ _ (Nat.le_of_not_lt inside)]

end ImgEditor
