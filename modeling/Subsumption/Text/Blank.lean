/-!
White space: the characters with the property White_Space of Unicode, and trimming.
-/
namespace Subsumption.Text

/-- First and last code point of each range, in order. -/
def blankRanges : List (Nat × Nat) :=
  [(0x9, 0xd), (0x20, 0x20), (0x85, 0x85), (0xa0, 0xa0), (0x1680, 0x1680), (0x2000, 0x200a),
  (0x2028, 0x2029), (0x202f, 0x202f), (0x205f, 0x205f), (0x3000, 0x3000)]

def isBlank (c : Char) : Bool :=
  blankRanges.any fun (first, last) => first ≤ c.toNat && c.toNat ≤ last

/-- A text without the white space at both its ends. -/
def trim (cs : List Char) : List Char :=
  ((cs.dropWhile isBlank).reverse.dropWhile isBlank).reverse

theorem isBlank_of_isWhitespace {c : Char} (h : c.isWhitespace) : isBlank c := by
  simp only [Char.isWhitespace, Bool.or_eq_true, decide_eq_true_eq] at h
  rcases h with ((rfl | rfl) | rfl) | rfl <;> decide

/-- Trimming takes white space away at both ends and nothing else. -/
theorem exists_eq_append_trim (cs : List Char) :
    ∃ lead trail, (∀ c ∈ lead, isBlank c) ∧ (∀ c ∈ trail, isBlank c) ∧
      cs = lead ++ trim cs ++ trail := by
  have hblank (xs : List Char) : ∀ c ∈ xs.takeWhile isBlank, isBlank c :=
    List.all_eq_true.mp List.all_takeWhile
  let rest := cs.dropWhile isBlank
  refine ⟨cs.takeWhile isBlank, (rest.reverse.takeWhile isBlank).reverse, hblank _, ?_, ?_⟩
  · intro c hc
    exact hblank _ c (List.mem_reverse.mp hc)
  · have hrest : trim cs ++ (rest.reverse.takeWhile isBlank).reverse = rest := by
      rw [trim, ← List.reverse_append, List.takeWhile_append_dropWhile, List.reverse_reverse]
    rw [List.append_assoc, hrest, List.takeWhile_append_dropWhile]

theorem dropWhile_isBlank_append {lead mid : List Char} (hlead : ∀ c ∈ lead, isBlank c)
    (hmid : ∀ c ∈ mid, isBlank c = false) (hne : mid ≠ []) (rest : List Char) :
    (lead ++ (mid ++ rest)).dropWhile isBlank = mid ++ rest := by
  rw [List.dropWhile_append_of_pos hlead]
  cases mid with
  | nil => exact absurd rfl hne
  | cons c cs => simp [hmid c]

/-- Of a word between white space, trimming leaves the word. -/
theorem trim_append {lead mid trail : List Char} (hlead : ∀ c ∈ lead, isBlank c)
    (hmid : ∀ c ∈ mid, isBlank c = false) (hne : mid ≠ []) (htrail : ∀ c ∈ trail, isBlank c) :
    trim (lead ++ mid ++ trail) = mid := by
  have hback : (trail.reverse ++ (mid.reverse ++ [])).dropWhile isBlank = mid.reverse ++ [] :=
    dropWhile_isBlank_append (by simpa using htrail) (by simpa using hmid) (by simpa using hne) []
  rw [List.append_nil] at hback
  rw [trim, List.append_assoc, dropWhile_isBlank_append hlead hmid hne, List.reverse_append, hback,
    List.reverse_reverse]

end Subsumption.Text
