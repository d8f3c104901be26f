import ImgEditor.UBoot.UenvImage

namespace ImgEditor

open Storage CText

def UenvCandidate (n : Nat) : Prop :=
  (0 < n ∧ n % 2 ^ 17 = 0) ∨ n = 2 ^ 16 ∨ n = 2 ^ 15 ∨ n = 2 ^ 14 ∨ n = 2 ^ 13 ∨ n = 2 ^ 12

instance (n : Nat) : Decidable (UenvCandidate n) := inferInstanceAs (Decidable (_ ∨ _))

def UenvTried (sz : Nat) : Prop := UenvCandidate sz ∨ sz ≤ 2 ^ 11

theorem UenvTried.next {sz : Nat} (tried : UenvTried sz) :
    UenvTried (if sz > 2 ^ 17 then sz - 2 ^ 17 else sz / 2) := by
  unfold UenvTried UenvCandidate at *
  split <;> omega

theorem uenvDetectLoop_step (junk : Nat → Nat → Byte) (fd : Fd) (crc : BitVec 32) (sz : Nat) :
    uenvDetectLoop junk fd crc sz =
      if 2 ^ 11 < sz then
        if uenvScan (junk sz) fd (sz - 4) = crc then some sz
        else uenvDetectLoop junk fd crc (if sz > 2 ^ 17 then sz - 2 ^ 17 else sz / 2)
      else none := by
  rw [uenvDetectLoop]
  show (if 2 ^ 11 < sz then _ else none) = _
  congr 2
  split <;> rfl

theorem uenvDetectLoop_candidate {junk : Nat → Nat → Byte} {fd : Fd} {crc : BitVec 32} {sz n : Nat}
    (tried : UenvTried sz) (result : uenvDetectLoop junk fd crc sz = some n) : UenvCandidate n := by
  induction sz using Nat.strong_induction_on with
  | _ sz ih =>
    rw [uenvDetectLoop_step] at result
    split at result
    · rename_i large
      split at result
      · obtain rfl := Option.some.inj result
        exact tried.resolve_right (by omega)
      · refine ih _ ?_ tried.next result
        split <;> omega
    · cases result

theorem uenvDetectLoop_found {junk : Nat → Nat → Byte} {fd : Fd} {crc : BitVec 32} {sz size : Nat}
    (tried : UenvTried sz) (candidate : UenvCandidate size) (upper : size ≤ sz)
    (fits : uenvScan (junk size) fd (size - 4) = crc)
    (apart : ∀ longer, size < longer → longer ≤ sz → UenvCandidate longer →
      uenvScan (junk longer) fd (longer - 4) ≠ crc) : uenvDetectLoop junk fd crc sz = some size := by
  induction sz using Nat.strong_induction_on with
  | _ sz ih =>
    have large : 2 ^ 11 < size := by
      unfold UenvCandidate at candidate
      omega
    rw [uenvDetectLoop_step, if_pos (by omega)]
    by_cases here : sz = size
    · rw [here, if_pos fits]
    · have other : UenvCandidate sz := tried.resolve_right (by omega)
      rw [if_neg (apart sz (by omega) (le_refl sz) other)]
      have smaller : (if sz > 2 ^ 17 then sz - 2 ^ 17 else sz / 2) < sz := by
        split <;> omega
      refine ih _ smaller tried.next ?_ fun longer above below => apart longer above (by omega)
      unfold UenvCandidate at other candidate
      split <;> omega

theorem uenvDetect_tried (length : Nat) : UenvTried (if length ≥ UENV_MAXIMUM_SIZE then UENV_MAXIMUM_SIZE
    else alignedLength length (2 ^ 17)) := by
  unfold UenvTried UenvCandidate
  split
  · left
    left
    decide
  · unfold alignedLength
    omega

theorem uenvDetect_start {length : Nat} (bounded : length ≤ UENV_MAXIMUM_SIZE) :
    (if length ≥ UENV_MAXIMUM_SIZE then UENV_MAXIMUM_SIZE else alignedLength length (2 ^ 17)) =
      alignedLength length (2 ^ 17) := by
  split
  · rw [Nat.le_antisymm bounded ‹_›]
    decide
  · rfl

theorem uenvDetect_candidate {buffers : Nat → Nat → Byte} {stack : List Byte} {fd : Fd} {size : Nat}
    (result : uenvAutoDetectFilesize buffers stack fd = some size) : UenvCandidate size :=
  uenvDetectLoop_candidate (uenvDetect_tried _) result

/-- The detection finds the size of a written image exactly for the sizes that it tries. -/
theorem uenvDetect_exact {junk : Nat → Byte} {text : List Byte} {envSize : Int} {image : Fd}
    (titled : UenvTitled text envSize) (packed : uenvPack junk text = some image) (small : envSize ≤ 2 ^ 21)
    (buffers : Nat → Nat → Byte) (stack : List Byte)
    (apart : ∀ longer : Nat, envSize < longer → longer ≤ alignedLength envSize.toNat (2 ^ 17) → UenvCandidate longer →
      uenvScan (buffers longer) ⟨image.file, 0, 0⟩ (longer - 4) ≠
        BitVec.ofNat 32 (leNumber (image.file.slice 0 4))) :
    (∃ size : Nat, uenvAutoDetectFilesize buffers stack ⟨image.file, 0, 0⟩ = some size ∧ size = envSize) ↔
      UenvCandidate envSize.toNat := by
  constructor
  · rintro ⟨size, result, same⟩
    rw [← same, Int.toNat_natCast]
    exact uenvDetect_candidate result
  · intro candidate
    have header : (4 : Int) ≤ envSize := by
      unfold UenvCandidate at candidate
      omega
    obtain ⟨length, stored⟩ := uenvPack_image titled packed header (by omega)
    have word : ((⟨image.file, 0, 0⟩ : Fd).read 4).1 = image.file.slice 0 4 := by
      rw [Fd.read_bytes _ _ (by decide)]
      exact File.readAt_full _ _ _ (by show 0 + 4 ≤ image.file.size; omega)
    refine ⟨envSize.toNat, ?_, by omega⟩
    have exact : image.file.size = envSize.toNat := by omega
    have start := uenvDetect_start (show envSize.toNat ≤ UENV_MAXIMUM_SIZE by
      unfold UENV_MAXIMUM_SIZE
      omega)
    have tried := uenvDetect_tried envSize.toNat
    rw [start] at tried
    simp only [uenvAutoDetectFilesize, word, Nat.sub_zero, exact, start]
    rw [List.take_left' (by simp)]
    apply uenvDetectLoop_found tried candidate
    · unfold alignedLength
      omega
    · rw [show ((⟨image.file, 0, 0⟩ : Fd).read 4).2 = ⟨image.file, 0, 0 + _⟩ from rfl,
        uenvScan_inside _ _ _ _ (by omega), stored, leNumber_leBytes]
      generalize crc32 0 (image.file.slice 4 (envSize.toNat - 4)) = crc
      have word : crc.toNat < 256 ^ 4 := crc.isLt
      rw [Nat.mod_eq_of_lt word, BitVec.ofNat_toNat, BitVec.setWidth_eq]
    · exact fun longer above below other => apart longer (by omega) below other

theorem uenvPack_title (junk : Nat → Byte) {title : CString} {envSize : Int} (plain : UenvPlain title)
    (valid : uenvTitle title = some (envSize, none)) (positive : 0 ≤ envSize) (small : envSize < 2 ^ 63) :
    UenvTitled (uenvText title []) envSize ∧ ∃ image, uenvPack junk (uenvText title []) = some image := by
  have alone : ∀ line ∈ [title], UenvPlain line := by
    intro line member
    rwa [List.mem_singleton.mp member]
  obtain ⟨titled, packed⟩ := uenvPack_text junk alone valid positive small
  have empty : uenvContent none [] = [] := rfl
  rw [uenvFile_size, if_pos empty, if_neg (by omega)] at packed
  exact ⟨titled, _, packed⟩

def uenvTitle128K : CString := [35, 117, 69, 110, 118, 32, 49, 51, 49, 48, 55, 50]

def uenvTitle2K : CString := [35, 117, 69, 110, 118, 32, 50, 48, 52, 56]

theorem uenvDetect_exact_128K : ∃ image, uenvPack (fun _ => 0) (uenvText uenvTitle128K []) = some image ∧
    ∃ size : Nat, uenvAutoDetectFilesize (fun _ _ => 0) [] ⟨image.file, 0, 0⟩ = some size ∧
      size = (131072 : Int) := by
  obtain ⟨titled, image, packed⟩ := uenvPack_title (fun _ => 0) (by unfold UenvPlain; decide)
    (show uenvTitle uenvTitle128K = some (131072, none) by decide) (by decide) (by decide)
  refine ⟨image, packed, (uenvDetect_exact titled packed (by decide) (fun _ _ => 0) [] ?_).mpr (by decide)⟩
  -- the first size that is tried is the right one, so no longer candidate can collide
  intro longer above below
  exact absurd below (by
    unfold alignedLength
    omega)

/-- The smallest environment is packed and never detected. -/
theorem uenvDetect_2K : UenvTitled (uenvText uenvTitle2K []) 2048 ∧
    ∃ image, uenvPack (fun _ => 0) (uenvText uenvTitle2K []) = some image ∧
      ∀ buffers stack, uenvAutoDetectFilesize buffers stack ⟨image.file, 0, 0⟩ ≠ some 2048 := by
  obtain ⟨titled, image, packed⟩ := uenvPack_title (fun _ => 0) (by unfold UenvPlain; decide)
    (show uenvTitle uenvTitle2K = some (2048, none) by decide) (by decide) (by decide)
  refine ⟨titled, image, packed, ?_⟩
  intro buffers stack result
  have candidate := uenvDetect_candidate result
  exact absurd candidate (by decide)

end ImgEditor
