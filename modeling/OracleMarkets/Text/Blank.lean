/-!
# Blank characters

A character is blank if it has the property White_Space (25 characters since Unicode 6.3).  Names
and symbols are trimmed of blank characters on both sides, and a text is blank if nothing is left.
-/

namespace OracleMarkets.Text

/-- The characters with the property White_Space, as closed ranges of code points. -/
def blankRanges : List (Nat × Nat) :=
  [(0x09, 0x0D), (0x20, 0x20), (0x85, 0x85), (0xA0, 0xA0), (0x1680, 0x1680), (0x2000, 0x200A),
    (0x2028, 0x2029), (0x202F, 0x202F), (0x205F, 0x205F), (0x3000, 0x3000)]

def isBlank (c : Char) : Bool := blankRanges.any fun r ↦ r.1 ≤ c.toNat && c.toNat ≤ r.2

example : (blankRanges.map fun r ↦ r.2 + 1 - r.1).sum = 25 := by decide

def trimChars (s : List Char) : List Char :=
  ((s.dropWhile isBlank).reverse.dropWhile isBlank).reverse

def trim (s : String) : String := String.ofList (trimChars s.toList)

def isBlankText (s : String) : Bool := s.toList.all isBlank

/-- A text with its letters `a` to `z` in upper case; no other character changes. -/
def upper (s : String) : String := String.ofList (s.toList.map Char.toUpper)

@[simp] theorem toList_trim (s : String) : (trim s).toList = trimChars s.toList := by simp [trim]

@[simp] theorem toList_upper (s : String) : (upper s).toList = s.toList.map Char.toUpper := by
  simp [upper]

/-- Trimming leaves nothing exactly if the text is blank. -/
theorem trimChars_eq_nil_iff {s : List Char} : trimChars s = [] ↔ ∀ c ∈ s, isBlank c = true := by
  have drop : ∀ l : List Char, l.dropWhile isBlank = [] ↔ ∀ c ∈ l, isBlank c = true := fun l ↦ by
    induction l with
    | nil => simp
    | cons c l ih => by_cases h : isBlank c = true <;> simp [List.dropWhile, h, ih]
  simp only [trimChars, List.reverse_eq_nil_iff]
  constructor
  · intro h c hc
    by_cases hb : isBlank c = true
    · exact hb
    · have hmem : ∀ l : List Char, c ∈ l → c ∈ l.dropWhile isBlank := fun l hl ↦ by
        induction l with
        | nil => simp at hl
        | cons d l ih =>
          by_cases hd : isBlank d = true
          · rcases List.mem_cons.1 hl with rfl | hl
            · exact absurd hd hb
            · simpa [List.dropWhile, hd] using ih hl
          · simpa [List.dropWhile, hd] using hl
      exact (drop _).1 h c (List.mem_reverse.2 (hmem _ hc))
  · intro h
    rw [(drop s).2 h]
    rfl

end OracleMarkets.Text
