import ImgEditor.Core.CText

namespace CText

open Storage

def spaced (items : List CString) : CString := (items.intersperse [32]).flatten

@[simp] theorem spaced_singleton (item : CString) : spaced [item] = item := by
  simp [spaced]

@[simp] theorem spaced_cons (item next : CString) (rest : List CString) :
    spaced (item :: next :: rest) = item ++ 32 :: spaced (next :: rest) := by
  simp [spaced]

section Tokens

variable (p : Byte → Bool)

def IsToken (token : CString) : Prop := token ≠ [] ∧ ∀ c ∈ token, p c = true

/-- Text that ends a list of tokens: it goes on with neither a token nor a blank and a token. -/
def EndsTokens (tail : CString) : Prop :=
  ∃ c rest, tail = c :: rest ∧ p c = false ∧ (c = 32 → ∃ d more, rest = d :: more ∧ p d = false)

variable {p}

theorem token_append_inj {a b r s : CString} (left : ∀ c ∈ a, p c = true) (right : ∀ c ∈ b, p c = true)
    (stop : ∀ c, r.head? = some c → p c = false) (stop' : ∀ c, s.head? = some c → p c = false)
    (same : a ++ r = b ++ s) : a = b ∧ r = s := by
  induction a generalizing b with
  | nil =>
    cases b with
    | nil => exact ⟨rfl, same⟩
    | cons d b =>
      have inside := right d List.mem_cons_self
      rw [stop d (by rw [List.nil_append] at same; rw [same]; rfl)] at inside
      cases inside
  | cons c a ih =>
    cases b with
    | nil =>
      have inside := left c List.mem_cons_self
      rw [stop' c (by rw [List.nil_append] at same; rw [← same]; rfl)] at inside
      cases inside
    | cons d b =>
      obtain ⟨rfl, rest⟩ := List.cons.inj same
      obtain ⟨rfl, tails⟩ := ih (fun e member => left e (List.mem_cons_of_mem _ member))
        (fun e member => right e (List.mem_cons_of_mem _ member)) rest
      exact ⟨rfl, tails⟩

theorem EndsTokens.head {tail : CString} (ends : EndsTokens p tail) : ∀ c, tail.head? = some c → p c = false := by
  obtain ⟨d, rest, rfl, clear, _⟩ := ends
  intro c first
  rw [← Option.some.inj first]
  exact clear

theorem EndsTokens.blank {tail token rest : CString} (ends : EndsTokens p tail) (valid : IsToken p token) :
    tail ≠ 32 :: (token ++ rest) := by
  obtain ⟨c, more, rfl, _, further⟩ := ends
  intro same
  obtain ⟨rfl, rfl⟩ := List.cons.inj same
  obtain ⟨d, others, shape, clear⟩ := further rfl
  obtain ⟨first, letters, rfl⟩ := List.exists_cons_of_ne_nil valid.1
  have inside := valid.2 first List.mem_cons_self
  rw [(List.cons.inj shape).1, clear] at inside
  cases inside

theorem spaced_inj (blank : p 32 = false) {items others : List CString} {tail closing : CString} (present : items ≠ []) (present' : others ≠ [])
    (valid : ∀ t ∈ items, IsToken p t) (valid' : ∀ t ∈ others, IsToken p t) (ends : EndsTokens p tail)
    (ends' : EndsTokens p closing) (same : spaced items ++ tail = spaced others ++ closing) : items = others ∧ tail = closing := by
  induction items generalizing others with
  | nil => exact absurd rfl present
  | cons a items ih =>
    cases others with
    | nil => exact absurd rfl present'
    | cons b others =>
      have first := (valid a List.mem_cons_self).2
      have first' := (valid' b List.mem_cons_self).2
      cases items with
      | nil =>
        cases others with
        | nil =>
          rw [spaced_singleton, spaced_singleton] at same
          obtain ⟨rfl, rest⟩ := token_append_inj first first' ends.head ends'.head same
          exact ⟨rfl, rest⟩
        | cons b' others =>
          rw [spaced_singleton, spaced_cons, List.append_assoc, List.cons_append] at same
          obtain ⟨_, rest⟩ := token_append_inj first first' ends.head (by simpa using blank) same
          have next := valid' b' (by simp)
          cases others with
          | nil => exact absurd (by rw [rest, spaced_singleton]) (ends.blank next)
          | cons b'' others =>
            rw [spaced_cons, List.append_assoc] at rest
            exact absurd rest (ends.blank next)
      | cons a' items =>
        have next := valid a' (by simp)
        rw [spaced_cons, List.append_assoc, List.cons_append] at same
        cases others with
        | nil =>
          rw [spaced_singleton] at same
          obtain ⟨_, rest⟩ := token_append_inj first first' (by simpa using blank) ends'.head same
          cases items with
          | nil => exact absurd (by rw [← rest, spaced_singleton]) (ends'.blank next)
          | cons a'' items =>
            rw [spaced_cons, List.append_assoc] at rest
            exact absurd rest.symm (ends'.blank next)
        | cons b' others =>
          rw [spaced_cons b b', List.append_assoc, List.cons_append] at same
          obtain ⟨rfl, rest⟩ := token_append_inj first first' (by simpa using blank) (by simpa using blank) same
          obtain ⟨more, tails⟩ := ih (by simp) (by simp) (fun t member => valid t (List.mem_cons_of_mem _ member))
            (fun t member => valid' t (List.mem_cons_of_mem _ member)) (List.cons.inj rest).2
          exact ⟨by rw [more], tails⟩

end Tokens

def isNumberChar (c : Byte) : Bool := isDigit 16 c || c = 120 || c = 45

theorem decimal_inj {m n : Nat} (same : decimal m = decimal n) : m = n := by
  rw [← (decimal_valid m).2.2.2, same, (decimal_valid n).2.2.2]

theorem isDigit_mono {c : Byte} (digit : isDigit 10 c = true) : isDigit 16 c = true := by
  simp only [isDigit, decide_eq_true_eq] at digit ⊢
  omega

theorem decimal_token (n : Nat) : IsToken isNumberChar (decimal n) := by
  obtain ⟨nonempty, digits, _, _⟩ := decimal_valid n
  refine ⟨nonempty, fun c member => ?_⟩
  simp [isNumberChar, isDigit_mono (digits c member)]

theorem hex_token (width n : Nat) : IsToken isNumberChar (48 :: 120 :: hexFixed width n) := by
  refine ⟨by simp, fun c member => ?_⟩
  rcases List.mem_cons.mp member with rfl | member
  · decide
  rcases List.mem_cons.mp member with rfl | member
  · decide
  · simp [isNumberChar, hexFixed_valid width n c member]

end CText
