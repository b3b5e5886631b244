import Mathlib.Data.List.Basic
import OracleMarkets.Json.Printer
import OracleMarkets.Json.Reader

/-!
# Written values are read back

The reader takes the indented text of a value back to this value, and the compact text as well, if
the value holds no double and does not nest too deeply.  The one thing that a text adds is how the
names of fields are written: a name in which a character has to be escaped comes back as an escaped
one.

Both texts are the same but for the blanks between their parts, so they are read by one proof, for
any such blanks (`Spacing`).
-/

namespace OracleMarkets

namespace Json

/-! ## Numbers -/

/-- No number goes on at the front of the text. -/
def Delimited (s : List Char) : Prop :=
  ∀ c ∈ s.head?, c.isDigit = false ∧ c ≠ '.' ∧ c ≠ 'e' ∧ c ≠ 'E'

theorem delimited_cons {c : Char} {s : List Char}
    (h : c.isDigit = false ∧ c ≠ '.' ∧ c ≠ 'e' ∧ c ≠ 'E') : Delimited (c :: s) := by
  intro d hd
  cases hd
  exact h

theorem isDigit_of_mem_digits {n : Nat} {c : Char} (h : c ∈ Decimal.digits n) : c.isDigit = true :=
  Nat.isDigit_of_mem_toDigits (by decide) (by decide) h

theorem ofDigits_digits (n : Nat) : Decimal.ofDigits (Decimal.digits n) = n := by
  rw [Decimal.digits, ← Nat.ofDigitChars_toDigits (b := 10) (n := n) (by decide) (by decide),
    Nat.ofDigitChars_toDigits (by decide) (by decide)]
  exact (Nat.ofDigitChars_eq_foldl).symm.trans (Nat.ofDigitChars_toDigits (by decide) (by decide))

/-- The digits of a positive number do not begin with a zero. -/
theorem head?_digits_ne {n : Nat} (hn : 0 < n) : (Decimal.digits n).head? ≠ some '0' := by
  induction n using Nat.strongRecOn with
  | ind n ih =>
    rcases Nat.lt_or_ge n 10 with hlt | hge
    · have hdigit : ∀ k < 10, 0 < k → Nat.digitChar k ≠ '0' := by decide
      rw [Decimal.digits, Nat.toDigits_of_lt_base hlt, List.head?_cons]
      exact fun h ↦ hdigit n hlt hn (Option.some.inj h)
    · have htail := ih (n / 10) (by omega) (by omega)
      rw [Decimal.digits, Nat.toDigits_of_base_le (by decide) hge,
        List.head?_append_of_ne_nil _ Nat.toDigits_ne_nil]
      exact htail

theorem spanDigits_append {ds s : List Char} (hds : ∀ c ∈ ds, c.isDigit = true)
    (hs : Delimited s) : Decimal.spanDigits (ds ++ s) = (ds, s) := by
  have hs : s.takeWhile Char.isDigit = [] ∧ s.dropWhile Char.isDigit = s := by
    cases s with
    | nil => exact ⟨rfl, rfl⟩
    | cons c s => simp [List.takeWhile, List.dropWhile, (hs c rfl).1]
  rw [Decimal.spanDigits, List.takeWhile_append_of_pos hds, List.dropWhile_append_of_pos hds, hs.1,
    hs.2, List.append_nil]

theorem readWhole_digits (n : Nat) {s : List Char} (hs : Delimited s) :
    readWhole (Decimal.digits n ++ s) = some (Decimal.digits n, s) := by
  rw [readWhole, spanDigits_append (fun c ↦ isDigit_of_mem_digits) hs]
  have hne : Decimal.digits n ≠ [] := Nat.toDigits_ne_nil
  split
  · next h => exact absurd (Prod.mk.inj h).1 hne
  · next c ds _ h =>
    -- Only the text of zero begins with a zero, and it has no other digit.
    have hdigits := (Prod.mk.inj h).1
    rcases Nat.eq_zero_or_pos n with rfl | hn
    · cases hdigits
    · exact absurd (by rw [hdigits, List.head?_cons]) (head?_digits_ne hn)
  · next h =>
    obtain ⟨rfl, rfl⟩ := Prod.mk.inj h
    rfl

theorem readFraction_delimited {s : List Char} (hs : Delimited s) :
    readFraction s = some ([], s) := by
  unfold readFraction
  split
  · next s => exact absurd rfl (hs '.' rfl).2.1
  · rfl

theorem readExponent_delimited {s : List Char} (hs : Delimited s) :
    Decimal.readExponent s = some (0, s) := by
  cases s with
  | nil => rfl
  | cons c s =>
    obtain ⟨-, -, he, hE⟩ := hs c rfl
    unfold Decimal.readExponent
    exact if_neg (by simp [he, hE])

theorem any_head?_delimited {s : List Char} (hs : Delimited s) :
    s.head?.any (fun c ↦ c == 'e' || c == 'E') = false := by
  cases s with
  | nil => rfl
  | cons c s =>
    obtain ⟨-, -, he, hE⟩ := hs c rfl
    simp [he, hE]

/-- The digits of a number are read back with its sign. -/
theorem readNumber_digits (m : Nat) {s : List Char} (hs : Delimited s) :
    readNumber ('-' :: (Decimal.digits m ++ s)) =
        some (makeNumber true (Decimal.digits m) [] 0 true, s) ∧
      readNumber (Decimal.digits m ++ s) =
        some (makeNumber false (Decimal.digits m) [] 0 true, s) := by
  have hsign : ∀ t, Decimal.digits m ++ s = '-' :: t → False := by
    intro t h
    have hne : Decimal.digits m ≠ [] := Nat.toDigits_ne_nil
    obtain ⟨d, ds, hds⟩ := List.exists_cons_of_ne_nil hne
    have hd := isDigit_of_mem_digits (hds ▸ List.mem_cons_self (a := d) (l := ds))
    rw [hds, List.cons_append] at h
    rw [(List.cons.inj h).1] at hd
    exact absurd hd (by decide)
  constructor
  · simp [readNumber, readWhole_digits m hs, readFraction_delimited hs, readExponent_delimited hs,
      any_head?_delimited hs]
  · simp [readNumber, readWhole_digits m hs, readFraction_delimited hs, readExponent_delimited hs,
      any_head?_delimited hs]

theorem le_foldl_digitValue (ds : List Char) (m : Nat) :
    m ≤ ds.foldl (fun n c ↦ 10 * n + Decimal.digitValue c) m := by
  induction ds generalizing m with
  | nil => exact Nat.le_refl m
  | cons c ds ih => exact Nat.le_trans (by omega) (ih (10 * m + Decimal.digitValue c))

/-- Digits of a number that fits into 64 bits are all taken: no prefix of them is too large
either. -/
theorem readSignificand_eq {ds : List Char} {m : Nat}
    (h : ds.foldl (fun n c ↦ 10 * n + Decimal.digitValue c) m < 0x10000000000000000) :
    readSignificand m ds = (ds.foldl (fun n c ↦ 10 * n + Decimal.digitValue c) m, 0) := by
  induction ds generalizing m with
  | nil => rfl
  | cons c ds ih =>
    have hprefix := Nat.lt_of_le_of_lt (le_foldl_digitValue ds (10 * m + Decimal.digitValue c)) h
    rw [readSignificand, if_pos hprefix, ih h, List.foldl_cons]

/-- The digits of a natural number of 64 bits make a significand, and none is left over. -/
theorem readSignificand_digits {n : Nat} (hn : n < 0x10000000000000000) :
    readSignificand 0 (Decimal.digits n) = (n, 0) := by
  have hvalue := ofDigits_digits n
  rw [Decimal.ofDigits] at hvalue
  rw [readSignificand_eq (hvalue.symm ▸ hn), hvalue]

/-- An integer of 64 bits is read back. -/
theorem readNumber_integer {n : Int} (hn : -0x8000000000000000 ≤ n ∧ n < 0x10000000000000000)
    {s : List Char} (hs : Delimited s) : readNumber (integer n ++ s) = some (.int n, s) := by
  have hdigits := readSignificand_digits (n := n.natAbs) (by omega)
  unfold integer
  split
  · have habs : -(n.natAbs : Int) = n := by omega
    rw [List.cons_append, (readNumber_digits n.natAbs hs).1, makeNumber, hdigits]
    simp only [Bool.not_true, Bool.and_false, Bool.false_eq_true, if_false]
    rw [if_pos (by simp; omega), habs]
  · have habs : (n.natAbs : Int) = n := by omega
    rw [(readNumber_digits n.natAbs hs).2, makeNumber, hdigits]
    simp [habs]

/-! ## Texts -/

/-- Whether a character is written by an escape. -/
def isEscaped (c : Char) : Bool := c == '"' || c == '\\' || decide (c.toNat < 0x20)

theorem hexValue?_hexDigit : ∀ k < 16, hexValue? (hexDigit k) = some k := by decide

/-- A control character is read back from its code. -/
theorem readUnicode_control {c : Char} (hc : c.toNat < 0x20) (s : List Char) :
    readUnicode ('0' :: '0' :: hexDigit (c.toNat / 16) :: hexDigit (c.toNat % 16) :: s) =
      some (some c, s) := by
  have hzero : hexValue? '0' = some 0 := by decide
  have hcode : ((0 * 16 + 0) * 16 + c.toNat / 16) * 16 + c.toNat % 16 = c.toNat := by omega
  rw [readUnicode, readUnit, hzero, hexValue?_hexDigit _ (by omega),
    hexValue?_hexDigit _ (by omega)]
  simp only [Option.bind_eq_bind, Option.bind_some, Option.pure_def, hcode]
  rw [if_neg (by omega), if_neg (by omega), Char.ofNat_toNat]

/-- One character is read back in front of the others. -/
theorem readChars_escape (c : Char) (fuel : Nat) (s : List Char) :
    readChars (fuel + 1) (escape c ++ s) = (do
      let (q, rest) ← readChars fuel s
      return (q.cons (some c) (isEscaped c), rest)) := by
  unfold escape
  -- First the characters that have an escape of their own.
  iterate 7
    split
    · next h =>
      subst h
      rfl
  split
  · next hcontrol =>
    have hescaped : isEscaped c = true := by simp [isEscaped, hcontrol]
    simp only [List.cons_append, List.nil_append, readChars, readUnicode_control hcontrol, hescaped,
      Option.bind_eq_bind, Option.bind_some]
  · next hquote hslash _ _ _ _ _ hcontrol =>
    have hescaped : isEscaped c = false := by simp [isEscaped, hquote, hslash, hcontrol]
    rw [List.singleton_append, readChars, if_neg (by simp [hslash, hcontrol]), hescaped]
    all_goals simp [hquote, hslash]

/-- A text is read back up to its closing quote. -/
theorem readChars_flatMap_escape (cs : List Char) {fuel : Nat} (hfuel : cs.length < fuel)
    (s : List Char) :
    readChars fuel (cs.flatMap escape ++ '"' :: s) = some (⟨some cs, cs.any isEscaped⟩, s) := by
  induction cs generalizing fuel with
  | nil =>
    obtain ⟨fuel, rfl⟩ := Nat.exists_eq_add_of_lt hfuel
    rfl
  | cons c cs ih =>
    obtain ⟨fuel, rfl⟩ : ∃ k, fuel = k + 1 := ⟨fuel - 1, by omega⟩
    rw [List.flatMap_cons, List.append_assoc, readChars_escape,
      ih (by simpa using hfuel)]
    rfl

/-! ## Spaces and brackets -/

/-- All characters of the text are spaces. -/
def Blank (s : List Char) : Prop := ∀ c ∈ s, isSpace c = true

theorem blank_nil : Blank [] := nofun

theorem blank_newline (n : Nat) : Blank (newline n) := by
  refine List.forall_mem_cons.2 ⟨rfl, fun c hc ↦ ?_⟩
  rw [List.eq_of_mem_replicate hc]
  rfl

theorem skipSpace_append {b : List Char} (hb : Blank b) (s : List Char) :
    skipSpace (b ++ s) = skipSpace s := List.dropWhile_append_of_pos hb

theorem skipSpace_cons {c : Char} (hc : isSpace c = false) (s : List Char) :
    skipSpace (c :: s) = c :: s := by
  rw [skipSpace, List.dropWhile_cons_of_neg (by simp [hc])]

theorem delimited_nil : Delimited [] := nofun

/-- No number goes on with a space. -/
theorem delimited_append {b s : List Char} (hb : Blank b) (hs : Delimited s) :
    Delimited (b ++ s) := by
  cases b with
  | nil => exact hs
  | cons c b =>
    have hspace := hb c List.mem_cons_self
    simp only [isSpace, Bool.or_eq_true, beq_iff_eq] at hspace
    refine delimited_cons ?_
    rcases hspace with ((rfl | rfl) | rfl) | rfl <;> decide

theorem readValue_append {b : List Char} (hb : Blank b) (fuel d : Nat) (s : List Char) :
    readValue fuel d (b ++ s) = readValue fuel d s := by
  cases fuel with
  | zero => rw [readValue, readValue]
  | succ fuel => rw [readValue, readValue, skipSpace_append hb]

theorem readValue_quote (fuel d : Nat) (s : List Char) :
    readValue (fuel + 1) d ('"' :: s) = (readChars fuel s).map fun r ↦ (r.1.value, r.2) := by
  rw [readValue, skipSpace_cons rfl]
  rfl

/-- A list is read from its items, unless it is empty. -/
theorem readValue_bracket {b s : List Char} (hb : Blank b) {c : Char} (hc : isSpace c = false)
    (hne : c ≠ ']') (fuel d : Nat) :
    readValue (fuel + 1) d ('[' :: (b ++ c :: s)) =
      (readItems fuel (d - 1) (c :: s)).map fun r ↦ (atDepth d (.list r.1), r.2) := by
  simp only [readValue, skipSpace_cons (c := '[') rfl, skipSpace_append hb, skipSpace_cons hc]
  split
  · next h => exact absurd (List.cons.inj h).1 hne
  · cases readItems fuel (d - 1) (c :: s) <;> rfl

/-- A record is read from its fields, unless it is empty. -/
theorem readValue_brace {b : List Char} (hb : Blank b) (s : List Char) (fuel d : Nat) :
    readValue (fuel + 1) d ('\x7b' :: (b ++ '"' :: s)) =
      (readFields fuel (d - 1) ('"' :: s)).map fun r ↦ (atDepth d (makeRecord r.1), r.2) := by
  simp only [readValue, skipSpace_cons (c := '\x7b') rfl, skipSpace_append hb,
    skipSpace_cons (c := '"') rfl]
  split
  · next h => exact absurd (List.cons.inj h).1 (by decide)
  · cases readFields fuel (d - 1) ('"' :: s) <;> rfl

/-- The character begins the text of an integer. -/
def IsNumeric (c : Char) : Prop := c = '-' ∨ c.isDigit = true

theorem IsNumeric.ne {c x : Char} (hc : IsNumeric c) (hx : x ≠ '-' ∧ x.isDigit = false) :
    c ≠ x := by
  rintro rfl
  rcases hc with hc | hc
  · exact hx.1 hc
  · rw [hx.2] at hc
    cases hc

theorem IsNumeric.isSpace_eq {c : Char} (hc : IsNumeric c) : isSpace c = false := by
  have h₁ : c ≠ ' ' := hc.ne (by decide)
  have h₂ : c ≠ '\n' := hc.ne (by decide)
  have h₃ : c ≠ '\t' := hc.ne (by decide)
  have h₄ : c ≠ '\r' := hc.ne (by decide)
  simp [isSpace, h₁, h₂, h₃, h₄]

/-- No digit needs an escape. -/
theorem isEscaped_of_isDigit {c : Char} (h : c.isDigit = true) : isEscaped c = false := by
  have hquote : c ≠ '"' := IsNumeric.ne (.inr h) (by decide)
  have hslash : c ≠ '\\' := IsNumeric.ne (.inr h) (by decide)
  have hcontrol : ¬c.toNat < 0x20 := by
    simp only [Char.isDigit, Bool.and_eq_true, decide_eq_true_eq] at h
    exact Nat.not_lt.2 (Nat.le_trans (by decide) (UInt32.le_iff_toNat_le.1 h.1))
  simp [isEscaped, hquote, hslash, hcontrol]

theorem exists_integer_eq_cons (n : Int) : ∃ c t, integer n = c :: t ∧ IsNumeric c := by
  unfold integer
  split
  · exact ⟨'-', _, rfl, .inl rfl⟩
  · have hne : Decimal.digits n.natAbs ≠ [] := Nat.toDigits_ne_nil
    obtain ⟨c, t, h⟩ := List.exists_cons_of_ne_nil hne
    exact ⟨c, t, h, .inr (isDigit_of_mem_digits (h ▸ List.mem_cons_self))⟩

/-- What begins with a sign or a digit is read as a number. -/
theorem readValue_number {c : Char} (hc : IsNumeric c) (s : List Char) (fuel d : Nat) :
    readValue (fuel + 1) d (c :: s) = readNumber (c :: s) := by
  rw [readValue, skipSpace_cons hc.isSpace_eq]
  split
  · next h => exact absurd (List.cons.inj h).1 (hc.ne (by decide))
  · next h => exact absurd (List.cons.inj h).1 (hc.ne (by decide))
  · next h => exact absurd (List.cons.inj h).1 (hc.ne (by decide))
  · next h => exact absurd (List.cons.inj h).1 (hc.ne (by decide))
  · next h => exact absurd (List.cons.inj h).1 (hc.ne (by decide))
  · next h => exact absurd (List.cons.inj h).1 (hc.ne (by decide))
  · rfl

end Json

/-! ## Values that are read back -/

/-- The name of a field as it is read back. -/
def Key.reread (k : Key) : Key :=
  if k.text.toList.any Json.isEscaped then .escaped k.text else .plain k.text

namespace Value

mutual

/-- The value as it is read back: the same, but for how the names of fields are written. -/
def reread : Value → Value
  | .list items => .list (rereadItems items)
  | .record fields => .record (rereadFields fields)
  | v => v

/-- `reread` for each value of a list. -/
def rereadItems : List Value → List Value
  | [] => []
  | v :: rest => reread v :: rereadItems rest

def rereadFields : List (Key × Value) → List (Key × Value)
  | [] => []
  | (k, v) :: rest => (k.reread, reread v) :: rereadFields rest

end

/-- The value holds neither a double nor an unreadable part, its integers have 64 bits, and at most
`d` lists and records stand in one another. -/
inductive Writable : Nat → Value → Prop
  | null {d : Nat} : Writable d .null
  | bool {d : Nat} (b : Bool) : Writable d (.bool b)
  | int {d : Nat} {n : Int} (h : -0x8000000000000000 ≤ n ∧ n < 0x10000000000000000) :
    Writable d (.number (.int n))
  | text {d : Nat} (s : String) : Writable d (.text s)
  | list {d : Nat} {items : List Value} (h : ∀ v ∈ items, Writable d v) :
    Writable (d + 1) (.list items)
  | record {d : Nat} {fields : List (Key × Value)} (h : ∀ f ∈ fields, Writable d f.2) :
    Writable (d + 1) (.record fields)

end Value

namespace Json

/-! ## Items and fields -/

section

variable {fuel d : Nat} {b s t : List Char} {v : Value}

/-- A comma after an item announces further ones. -/
theorem readItems_comma (h : readValue fuel d s = some (v, ',' :: t)) :
    readItems (fuel + 1) d s = (readItems fuel d t).map fun r ↦ (v :: r.1, r.2) := by
  rw [readItems, h]
  simp only [Option.bind_eq_bind, Option.bind_some, skipSpace_cons (c := ',') rfl]
  cases readItems fuel d t <;> rfl

/-- The closing bracket may stand after blanks. -/
theorem readItems_close (hb : Blank b) (h : readValue fuel d s = some (v, b ++ ']' :: t)) :
    readItems (fuel + 1) d s = some ([v], t) := by
  rw [readItems, h]
  simp only [Option.bind_eq_bind, Option.bind_some, skipSpace_append hb,
    skipSpace_cons (c := ']') rfl]
  rfl

/-- A name is read back as it is written. -/
theorem key?_reread (k : Key) :
    Quoted.key? ⟨some k.text.toList, k.text.toList.any isEscaped⟩ = some k.reread := by
  rw [Quoted.key?, Key.reread, Option.map_some, String.ofList_toList]

/-- A comma after a field announces further ones. -/
theorem readFields_comma (hb : Blank b) (k : Key) (hfuel : k.text.toList.length < fuel)
    (h : readValue fuel d s = some (v, ',' :: t)) :
    readFields (fuel + 1) d (b ++ (quote k.text ++ ':' :: s)) =
      (readFields fuel d t).map fun r ↦ ((some k.reread, v) :: r.1, r.2) := by
  rw [readFields, skipSpace_append hb, quote, List.append_assoc, List.cons_append,
    skipSpace_cons rfl]
  simp only [List.singleton_append, readChars_flatMap_escape _ hfuel, Option.bind_eq_bind,
    Option.bind_some, skipSpace_cons (c := ':') rfl, h, skipSpace_cons (c := ',') rfl, key?_reread]
  cases readFields fuel d t <;> rfl

/-- The closing brace may stand after blanks. -/
theorem readFields_close (hb : Blank b) (k : Key) (hfuel : k.text.toList.length < fuel)
    {b' : List Char} (hb' : Blank b') (h : readValue fuel d s = some (v, b' ++ '\x7d' :: t)) :
    readFields (fuel + 1) d (b ++ (quote k.text ++ ':' :: s)) = some ([(some k.reread, v)], t) := by
  rw [readFields, skipSpace_append hb, quote, List.append_assoc, List.cons_append,
    skipSpace_cons rfl]
  simp only [List.singleton_append, readChars_flatMap_escape _ hfuel, Option.bind_eq_bind,
    Option.bind_some, skipSpace_cons (c := ':') rfl, h, skipSpace_append hb',
    skipSpace_cons (c := '\x7d') rfl, key?_reread]
  rfl

end

/-! ## Spacing -/

/-- The blanks between the parts of a text. -/
structure Spacing where
  /-- What stands before a part that is `n` columns deep. -/
  line : Nat → List Char
  gap : List Char
  blank_line : ∀ n, Blank (line n)
  blank_gap : Blank gap

/-- Every part stands on a line of its own. -/
def Spacing.lines : Spacing where
  line := newline
  gap := [' ']
  blank_line := blank_newline
  blank_gap := List.forall_mem_singleton.2 rfl

def Spacing.tight : Spacing where
  line _ := []
  gap := []
  blank_line _ := blank_nil
  blank_gap := blank_nil

mutual

/-- The text of a value that stands `n` columns deep, with the given blanks. -/
def spaced (p : Spacing) (n : Nat) : Value → List Char
  | .list (v :: rest) =>
    '[' :: p.line (n + 2) ++ spaced p (n + 2) v ++ spacedRest p n rest ++ p.line n ++ [']']
  | .record ((k, v) :: rest) =>
    '\x7b' :: p.line (n + 2) ++ quote k.text ++ ':' :: p.gap ++ spaced p (n + 2) v ++
      spacedFields p n rest ++ p.line n ++ ['\x7d']
  | .null | .unreadable => "null".toList
  | .bool b => (if b then "true" else "false").toList
  | .number x => number x
  | .text s => quote s
  | .list [] => ['[', ']']
  | .record [] => ['\x7b', '\x7d']

/-- The items after the first one of a list. -/
def spacedRest (p : Spacing) (n : Nat) : List Value → List Char
  | [] => []
  | v :: rest => ',' :: p.line (n + 2) ++ spaced p (n + 2) v ++ spacedRest p n rest

/-- The fields after the first one of a record. -/
def spacedFields (p : Spacing) (n : Nat) : List (Key × Value) → List Char
  | [] => []
  | (k, v) :: rest =>
    ',' :: p.line (n + 2) ++ quote k.text ++ ':' :: p.gap ++ spaced p (n + 2) v ++
      spacedFields p n rest

end

mutual

/-- The indented text has every part on a line of its own. -/
theorem spaced_lines (n : Nat) : ∀ v, spaced .lines n v = indented n v
  | .list (v :: rest) => by
    rw [spaced, indented, spaced_lines (n + 2) v, spacedRest_lines n rest]
    rfl
  | .record ((k, v) :: rest) => by
    rw [spaced, indented, spaced_lines (n + 2) v, spacedFields_lines n rest]
    simp [Spacing.lines]
  | .null | .unreadable | .bool _ | .number _ | .text _ | .list [] | .record [] => by
    rw [spaced, indented]

theorem spacedRest_lines (n : Nat) : ∀ items, spacedRest .lines n items = indentedRest n items
  | [] => by rw [spacedRest, indentedRest]
  | v :: rest => by
    rw [spacedRest, indentedRest, spaced_lines (n + 2) v, spacedRest_lines n rest]
    rfl

theorem spacedFields_lines (n : Nat) : ∀ fields,
    spacedFields .lines n fields = indentedFields n fields
  | [] => by rw [spacedFields, indentedFields]
  | (k, v) :: rest => by
    rw [spacedFields, indentedFields, spaced_lines (n + 2) v, spacedFields_lines n rest]
    simp [Spacing.lines]

end

mutual

/-- The compact text has no blanks. -/
theorem spaced_tight (n : Nat) : ∀ v, spaced .tight n v = chars v
  | .list (v :: rest) => by
    rw [spaced, chars, spaced_tight (n + 2) v, spacedRest_tight n rest]
    simp [Spacing.tight]
  | .record ((k, v) :: rest) => by
    rw [spaced, chars, spaced_tight (n + 2) v, spacedFields_tight n rest]
    simp [Spacing.tight]
  | .null | .unreadable | .bool _ | .number _ | .text _ | .list [] | .record [] => by
    rw [spaced, chars]

theorem spacedRest_tight (n : Nat) : ∀ items, spacedRest .tight n items = charsRest items
  | [] => by rw [spacedRest, charsRest]
  | v :: rest => by
    rw [spacedRest, charsRest, spaced_tight (n + 2) v, spacedRest_tight n rest]
    rfl

theorem spacedFields_tight (n : Nat) : ∀ fields, spacedFields .tight n fields = fieldsRest fields
  | [] => by rw [spacedFields, fieldsRest]
  | (k, v) :: rest => by
    rw [spacedFields, fieldsRest, spaced_tight (n + 2) v, spacedFields_tight n rest]
    simp [Spacing.tight]

end

/-! ## Whole texts -/

variable {p : Spacing}

/-- The value is read back from its text at any column, whatever stands after it. -/
def ReadsBack (p : Spacing) (d : Nat) (v : Value) : Prop :=
  ∀ n fuel s, Delimited s → 2 * (spaced p n v).length < fuel →
    readValue fuel d (spaced p n v ++ s) = some (v.reread, s)

/-- The text of a value begins neither with a space nor with a closing bracket. -/
theorem exists_spaced_eq_cons {d : Nat} {v : Value} (hv : v.Writable d) (n : Nat) :
    ∃ c t, spaced p n v = c :: t ∧ isSpace c = false ∧ c ≠ ']' := by
  cases hv with
  | null => exact ⟨'n', _, rfl, by decide⟩
  | bool b =>
    cases b with
    | true => exact ⟨'t', _, rfl, by decide⟩
    | false => exact ⟨'f', _, rfl, by decide⟩
  | @int d x =>
    obtain ⟨c, t, h, hc⟩ := exists_integer_eq_cons x
    exact ⟨c, t, h, hc.isSpace_eq, hc.ne (by decide)⟩
  | text s => exact ⟨'"', _, rfl, by decide⟩
  | @list d items =>
    cases items with
    | nil => exact ⟨'[', _, rfl, by decide⟩
    | cons => exact ⟨'[', _, rfl, by decide⟩
  | @record d fields =>
    cases fields with
    | nil => exact ⟨'\x7b', _, rfl, by decide⟩
    | cons => exact ⟨'\x7b', _, rfl, by decide⟩

/-- The blanks before a closing bracket end a number. -/
theorem delimited_line (n : Nat) {c : Char} (s : List Char)
    (hc : c.isDigit = false ∧ c ≠ '.' ∧ c ≠ 'e' ∧ c ≠ 'E') : Delimited (p.line n ++ c :: s) :=
  delimited_append (p.blank_line n) (delimited_cons hc)

/-- Items are read back one after another. -/
theorem readItems_spaced {d : Nat} (n : Nat) {v : Value} {rest : List Value} (hv : ReadsBack p d v)
    (hrest : ∀ w ∈ rest, ReadsBack p d w) (fuel : Nat) {b : List Char} (hb : Blank b)
    (s : List Char) (hfuel : 2 * (spaced p (n + 2) v ++ spacedRest p n rest ++ p.line n ++
      [']']).length < fuel) :
    readItems fuel d (b ++ (spaced p (n + 2) v ++
        (spacedRest p n rest ++ (p.line n ++ ']' :: s)))) =
      some (Value.rereadItems (v :: rest), s) := by
  simp only [List.length_append, List.length_singleton] at hfuel
  obtain ⟨fuel, rfl⟩ : ∃ k, fuel = k + 1 := ⟨fuel - 1, by omega⟩
  induction rest generalizing v fuel b with
  | nil =>
    have hread : readValue fuel d (b ++ (spaced p (n + 2) v ++ (p.line n ++ ']' :: s))) =
        some (v.reread, p.line n ++ ']' :: s) := by
      rw [readValue_append hb]
      exact hv (n + 2) fuel _ (delimited_line n s (by decide)) (by omega)
    exact readItems_close (p.blank_line n) hread
  | cons w rest ih =>
    obtain ⟨hw, hrest⟩ := List.forall_mem_cons.1 hrest
    have hread : readValue fuel d (b ++ (spaced p (n + 2) v ++ (spacedRest p n (w :: rest) ++
          (p.line n ++ ']' :: s)))) =
        some (v.reread, ',' :: (p.line (n + 2) ++ (spaced p (n + 2) w ++ (spacedRest p n rest ++
          (p.line n ++ ']' :: s))))) := by
      rw [readValue_append hb, spacedRest]
      simp only [List.cons_append, List.append_assoc]
      exact hv (n + 2) fuel _ (delimited_cons (by decide)) (by omega)
    rw [spacedRest, List.length_append, List.length_append, List.length_cons] at hfuel
    obtain ⟨fuel, rfl⟩ : ∃ k, fuel = k + 1 := ⟨fuel - 1, by omega⟩
    rw [readItems_comma hread, ih hw hrest (p.blank_line (n + 2)) fuel (by omega)]
    rfl

/-- A character takes between one and six characters when it is escaped. -/
theorem length_escape (c : Char) : 1 ≤ (escape c).length ∧ (escape c).length ≤ 6 := by
  unfold escape
  repeat' split
  all_goals simp

theorem length_flatMap_escape (cs : List Char) :
    cs.length ≤ (cs.flatMap escape).length ∧ (cs.flatMap escape).length ≤ 6 * cs.length := by
  induction cs with
  | nil => exact ⟨Nat.le_refl 0, Nat.le_refl 0⟩
  | cons c cs ih =>
    have hc := length_escape c
    rw [List.flatMap_cons, List.length_append, List.length_cons]
    omega

theorem length_quote (s : String) :
    s.toList.length + 2 ≤ (quote s).length ∧ (quote s).length ≤ 6 * s.toList.length + 2 := by
  have hlength := length_flatMap_escape s.toList
  rw [quote, List.length_append, List.length_cons, List.length_singleton]
  omega

/-- Fields are read back one after another. -/
theorem readFields_spaced {d : Nat} (n : Nat) (k : Key) {v : Value} {rest : List (Key × Value)}
    (hv : ReadsBack p d v) (hrest : ∀ f ∈ rest, ReadsBack p d f.2) (fuel : Nat) {b : List Char}
    (hb : Blank b) (s : List Char)
    (hfuel : 2 * (quote k.text ++ ':' :: p.gap ++ spaced p (n + 2) v ++ spacedFields p n rest ++
      p.line n ++ ['\x7d']).length < fuel) :
    readFields fuel d (b ++ (quote k.text ++ ':' :: (p.gap ++ (spaced p (n + 2) v ++
        (spacedFields p n rest ++ (p.line n ++ '\x7d' :: s)))))) =
      some ((Value.rereadFields ((k, v) :: rest)).map fun f ↦ (some f.1, f.2), s) := by
  simp only [List.length_append, List.length_cons, List.length_nil] at hfuel
  have hname := (length_quote k.text).1
  obtain ⟨fuel, rfl⟩ : ∃ k, fuel = k + 1 := ⟨fuel - 1, by omega⟩
  induction rest generalizing k v fuel b with
  | nil =>
    have hread : readValue fuel d (p.gap ++ (spaced p (n + 2) v ++ (p.line n ++ '\x7d' :: s))) =
        some (v.reread, p.line n ++ '\x7d' :: s) := by
      rw [readValue_append p.blank_gap]
      exact hv (n + 2) fuel _ (delimited_line n s (by decide)) (by omega)
    exact readFields_close hb k (by omega) (p.blank_line n) hread
  | cons f rest ih =>
    obtain ⟨j, w⟩ := f
    obtain ⟨hw, hrest⟩ : ReadsBack p d w ∧ ∀ f ∈ rest, ReadsBack p d f.2 :=
      List.forall_mem_cons.1 hrest
    have hread : readValue fuel d (p.gap ++ (spaced p (n + 2) v ++
          (spacedFields p n ((j, w) :: rest) ++ (p.line n ++ '\x7d' :: s)))) =
        some (v.reread, ',' :: (p.line (n + 2) ++ (quote j.text ++ ':' :: (p.gap ++
          (spaced p (n + 2) w ++ (spacedFields p n rest ++ (p.line n ++ '\x7d' :: s))))))) := by
      rw [readValue_append p.blank_gap, spacedFields]
      simp only [List.cons_append, List.append_assoc]
      exact hv (n + 2) fuel _ (delimited_cons (by decide)) (by omega)
    simp only [spacedFields, List.length_append, List.length_cons] at hfuel
    obtain ⟨fuel, rfl⟩ : ∃ k, fuel = k + 1 := ⟨fuel - 1, by omega⟩
    rw [readFields_comma hb k (by omega) hread,
      ih j hw hrest (p.blank_line (n + 2)) (length_quote j.text).1 fuel (by omega)]
    rfl

theorem makeRecord_some (fields : List (Key × Value)) :
    makeRecord (fields.map fun f ↦ (some f.1, f.2)) = .record fields := by
  have hfields : (fields.map fun f ↦ (some f.1, f.2)).mapM
      (fun f : Option Key × Value ↦ f.1.map (·, f.2)) = some fields := by
    induction fields with
    | nil => rfl
    | cons f fields ih => simp [ih]
  rw [makeRecord, hfields]

/-- Every writable value is read back. -/
theorem readsBack {d : Nat} {v : Value} (hv : v.Writable d) : ReadsBack p d v := by
  induction hv with
  | null =>
    intro n fuel s hs hfuel
    obtain ⟨fuel, rfl⟩ : ∃ k, fuel = k + 1 := ⟨fuel - 1, by omega⟩
    rfl
  | bool b =>
    intro n fuel s hs hfuel
    obtain ⟨fuel, rfl⟩ : ∃ k, fuel = k + 1 := ⟨fuel - 1, by omega⟩
    cases b <;> rfl
  | @int d x hx =>
    intro n fuel s hs hfuel
    obtain ⟨fuel, rfl⟩ : ∃ k, fuel = k + 1 := ⟨fuel - 1, by omega⟩
    have hread := readNumber_integer hx hs
    obtain ⟨c, t, h, hc⟩ := exists_integer_eq_cons x
    rw [spaced, number, h, List.cons_append, readValue_number hc, ← List.cons_append, ← h]
    exact hread
  | text x =>
    intro n fuel s hs hfuel
    have hlength := (length_quote x).1
    rw [spaced] at hfuel
    obtain ⟨fuel, rfl⟩ : ∃ k, fuel = k + 1 := ⟨fuel - 1, by omega⟩
    rw [spaced, quote, List.append_assoc, List.cons_append, List.singleton_append, readValue_quote,
      readChars_flatMap_escape _ (by omega), Option.map_some]
    show some (Value.text (String.ofList x.toList), s) = _
    rw [String.ofList_toList]
    rfl
  | @list d items hitems ih =>
    intro n fuel s hs hfuel
    obtain ⟨fuel, rfl⟩ : ∃ k, fuel = k + 1 := ⟨fuel - 1, by omega⟩
    cases items with
    | nil => rfl
    | cons v rest =>
      obtain ⟨hv, hrest⟩ := List.forall_mem_cons.1 ih
      obtain ⟨c, t, h, hspace, hclose⟩ :=
        exists_spaced_eq_cons (p := p) (hitems v List.mem_cons_self) (n + 2)
      have hread := readItems_spaced n hv hrest fuel blank_nil s (by
        simp only [spaced, List.length_append, List.length_cons] at hfuel ⊢
        omega)
      rw [spaced]
      simp only [List.cons_append, List.append_assoc, List.nil_append] at hread ⊢
      rw [h, List.cons_append] at hread ⊢
      rw [readValue_bracket (p.blank_line (n + 2)) hspace hclose, Nat.add_sub_cancel, hread]
      rfl
  | @record d fields hfields ih =>
    intro n fuel s hs hfuel
    obtain ⟨fuel, rfl⟩ : ∃ k, fuel = k + 1 := ⟨fuel - 1, by omega⟩
    cases fields with
    | nil => rfl
    | cons f rest =>
      obtain ⟨k, v⟩ := f
      obtain ⟨hv, hrest⟩ : ReadsBack p d v ∧ ∀ f ∈ rest, ReadsBack p d f.2 :=
        List.forall_mem_cons.1 ih
      have hread := readFields_spaced n k hv hrest fuel blank_nil s (by
        simp only [spaced, List.length_append, List.length_cons] at hfuel ⊢
        omega)
      rw [spaced]
      simp only [quote, List.cons_append, List.append_assoc, List.nil_append] at hread ⊢
      rw [readValue_brace (p.blank_line (n + 2)), Nat.add_sub_cancel, hread, Option.map_some,
        makeRecord_some]
      rfl

/-- The reader takes the text of a writable value, with blanks after it, back to the value. -/
theorem read?_spaced (p : Spacing) {v : Value} (hv : v.Writable maxDepth) {b : List Char}
    (hb : Blank b) : read? (String.ofList (spaced p 0 v ++ b)) = some v.reread := by
  have hblank : skipSpace b = [] := by
    have h := skipSpace_append hb []
    rwa [List.append_nil] at h
  have hdelimited : Delimited b := by
    have h := delimited_append hb delimited_nil
    rwa [List.append_nil] at h
  have hread := readsBack (p := p) hv 0 (2 * (spaced p 0 v ++ b).length + 2) b hdelimited (by
    rw [List.length_append]
    omega)
  rw [read?, String.toList_ofList]
  simp only [hread, hblank, Option.bind_eq_bind, Option.bind_some, if_true]

/-- The indented text of a value is read back, with any blanks after it. -/
theorem read?_pretty {v : Value} (hv : v.Writable maxDepth) {t : String} (ht : Blank t.toList) :
    read? (pretty v ++ t) = some v.reread := by
  have htext : pretty v ++ t = String.ofList (spaced .lines 0 v ++ t.toList) := by
    rw [spaced_lines, String.ofList_append, String.ofList_toList, pretty]
  rw [htext]
  exact read?_spaced .lines hv ht

/-- The compact text of a value is read back. -/
theorem read?_compact {v : Value} (hv : v.Writable maxDepth) :
    read? (compact v) = some v.reread := by
  have htext : compact v = String.ofList (spaced .tight 0 v ++ []) := by
    rw [spaced_tight, List.append_nil, compact]
  rw [htext]
  exact read?_spaced .tight hv blank_nil

end Json

end OracleMarkets
