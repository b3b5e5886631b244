import Mathlib.Data.List.DropRight
import Mathlib.Data.List.TakeWhile
import OracleMarkets.Text.Blank

/-!
# Trimming and upper case

Upper case is told by code points (`Text.toNat_toUpper`) and does not change when taken twice.
Trimming leaves a text without blanks as it is, and may be done before or after upper case is taken.
Neither adds or removes a slash (`Text.slash_mem_upper_trim`).
-/

namespace OracleMarkets.Text

/-- The code points of `a` to `z` go down by 32, and no other changes. -/
theorem toNat_toUpper (c : Char) :
    c.toUpper.toNat = if 97 ≤ c.toNat ∧ c.toNat ≤ 122 then c.toNat - 32 else c.toNat := by
  have hc : 'a'.val ≤ c.val ∧ c.val ≤ 'z'.val ↔ 97 ≤ c.toNat ∧ c.toNat ≤ 122 := by
    simp only [UInt32.le_iff_toNat_le]
    rfl
  unfold Char.toUpper
  split
  · next h =>
    rw [if_pos (hc.1 h)]
    have hlt := hc.1 h
    change (c.val + ('A'.val - 'a'.val)).toNat = c.val.toNat - 32
    have hdiff : ('A'.val - 'a'.val).toNat = 4294967264 := by decide
    rw [UInt32.toNat_add, hdiff]
    change 97 ≤ c.val.toNat ∧ c.val.toNat ≤ 122 at hlt
    omega
  · next h => rw [if_neg (mt hc.2 h)]

@[simp] theorem toUpper_toUpper (c : Char) : c.toUpper.toUpper = c.toUpper := by
  apply Char.toNat_inj.1
  rw [toNat_toUpper c.toUpper, if_neg]
  rw [toNat_toUpper]
  split <;> omega

/-- A slash is no letter, so no other character has it as its upper case. -/
theorem toUpper_eq_slash_iff (c : Char) : c.toUpper = '/' ↔ c = '/' := by
  have hslash : '/'.toNat = 47 := rfl
  rw [← Char.toNat_inj, ← Char.toNat_inj, toNat_toUpper, hslash]
  split <;> omega

@[simp] theorem upper_upper (s : String) : upper (upper s) = upper s := by
  apply String.toList_injective
  simp

/-- A letter is no blank, in whatever case. -/
@[simp] theorem isBlank_toUpper (c : Char) : isBlank c.toUpper = isBlank c := by
  rw [isBlank, isBlank, toNat_toUpper]
  split
  · next h =>
    simp only [blankRanges, List.any_cons, List.any_nil]
    grind
  · rfl

/-- Trimming and upper case may be taken in either order. -/
theorem trim_upper (s : String) : trim (upper s) = upper (trim s) := by
  have hblank : isBlank ∘ Char.toUpper = isBlank := funext isBlank_toUpper
  apply String.toList_injective
  simp only [toList_trim, toList_upper, trimChars, List.dropWhile_map, hblank, ← List.map_reverse]

theorem dropWhile_isBlank {s : List Char} (h : ∀ c ∈ s, isBlank c = false) :
    s.dropWhile isBlank = s := by
  cases s with
  | nil => rfl
  | cons c s => simp [List.dropWhile, h c List.mem_cons_self]

/-- A text without blanks stays as it is when it is trimmed. -/
theorem trimChars_eq_self {s : List Char} (h : ∀ c ∈ s, isBlank c = false) : trimChars s = s := by
  rw [trimChars, dropWhile_isBlank h, dropWhile_isBlank fun c hc ↦ h c (List.mem_reverse.1 hc),
    List.reverse_reverse]

theorem trim_eq_self {s : String} (h : ∀ c ∈ s.toList, isBlank c = false) : trim s = s := by
  apply String.toList_injective
  rw [toList_trim, trimChars_eq_self h]

/-! ## Characters that stay

A character that is no blank holds on to what stands before it when the end of a text is trimmed,
and to what stands after it when the front is.
-/

section

variable {c : Char} (h : isBlank c = false) (s t : List Char)
include h

theorem dropWhile_append_cons :
    (s ++ c :: t).dropWhile isBlank = s.dropWhile isBlank ++ c :: t := by
  have hstop : (c :: t).dropWhile isBlank = c :: t :=
    List.dropWhile_cons_of_neg (Bool.eq_false_iff.1 h)
  rw [List.dropWhile_append, hstop]
  split
  · next hs => rw [List.isEmpty_iff.1 hs, List.nil_append]
  · rfl

theorem rdropWhile_append_cons :
    (s ++ c :: t).rdropWhile isBlank = s ++ c :: t.rdropWhile isBlank := by
  rw [List.rdropWhile, List.reverse_append, List.reverse_cons, List.append_assoc,
    List.singleton_append, dropWhile_append_cons h]
  simp only [List.rdropWhile, List.reverse_append, List.reverse_cons, List.reverse_reverse,
    List.append_assoc, List.singleton_append]

/-- Around a character that is no blank, each side is trimmed at its own end. -/
theorem trimChars_append_cons :
    trimChars (s ++ c :: t) = s.dropWhile isBlank ++ c :: t.rdropWhile isBlank := by
  rw [← rdropWhile_append_cons h, ← dropWhile_append_cons h]
  rfl

/-- Trimming takes no character that is not blank. -/
theorem mem_trimChars_iff : c ∈ trimChars s ↔ c ∈ s := by
  constructor
  · intro hc
    have hpart : trimChars s <+: s.dropWhile isBlank := List.rdropWhile_prefix isBlank _
    exact (List.dropWhile_sublist _).subset (hpart.subset hc)
  · intro hc
    obtain ⟨u, v, rfl⟩ := List.append_of_mem hc
    rw [trimChars_append_cons h]
    exact List.mem_append_right _ List.mem_cons_self

end

/-- Trimming and upper case neither add nor remove slashes. -/
theorem slash_mem_upper_trim (s : String) : '/' ∈ (upper (trim s)).toList ↔ '/' ∈ s.toList := by
  have hslash : isBlank '/' = false := by decide
  simp only [toList_upper, toList_trim, List.mem_map, toUpper_eq_slash_iff, exists_eq_right,
    mem_trimChars_iff hslash]

/-- Trimming the front before trimming makes no difference. -/
theorem trimChars_dropWhile (s : List Char) : trimChars (s.dropWhile isBlank) = trimChars s := by
  rw [trimChars, List.dropWhile_idempotent, trimChars]

/-- Trimming the end before trimming makes no difference. -/
theorem trimChars_rdropWhile (s : List Char) : trimChars (s.rdropWhile isBlank) = trimChars s := by
  by_cases hs : ∀ c ∈ s, isBlank c = true
  · have hrest : ∀ c ∈ s.rdropWhile isBlank, isBlank c = true := fun c hc ↦
      hs c ((List.rdropWhile_prefix isBlank s).subset hc)
    rw [trimChars_eq_nil_iff.2 hs, trimChars_eq_nil_iff.2 hrest]
  · push Not at hs
    obtain ⟨c, hc, hb⟩ := hs
    have hblank : isBlank c = false := Bool.eq_false_iff.2 hb
    obtain ⟨u, v, rfl⟩ := List.append_of_mem hc
    rw [rdropWhile_append_cons hblank, trimChars_append_cons hblank, trimChars_append_cons hblank,
      List.rdropWhile_idempotent]

end OracleMarkets.Text
