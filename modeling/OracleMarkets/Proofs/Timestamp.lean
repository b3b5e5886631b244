import Mathlib.Algebra.Ring.Nat
import Mathlib.Data.List.Induction
import OracleMarkets.Proofs.Json
import OracleMarkets.Timestamp

/-!
# How instants are spelled

A text spells an instant if it has its numbers, in their widths, with any character of one byte
between date and time, one of four spellings of the offset zero, and as many digits of the fraction
as one likes.  The reader takes exactly the spellings of an instant (`ofText?_eq_some_iff`), and the
text that is written is one of them.
-/

namespace OracleMarkets.Timestamp

/-! ## Numbers of a fixed width -/

theorem isDigit_ofNat : ∀ d < 10, (Char.ofNat (48 + d)).isDigit = true := by decide

theorem digitValue_ofNat : ∀ d < 10, Decimal.digitValue (Char.ofNat (48 + d)) = d := by decide

@[simp] theorem length_padded (width n : Nat) : (padded width n).length = width := by
  induction width generalizing n with
  | zero => rfl
  | succ width ih => rw [padded, List.length_append, ih, List.length_singleton]

theorem isDigit_of_mem_padded {width n : Nat} {c : Char} (h : c ∈ padded width n) :
    c.isDigit = true := by
  induction width generalizing n with
  | zero => cases h
  | succ width ih =>
    rw [padded, List.mem_append, List.mem_singleton] at h
    rcases h with h | rfl
    · exact ih h
    · exact isDigit_ofNat _ (Nat.mod_lt n (by decide))

theorem ofDigits_padded {width n : Nat} (h : n < 10 ^ width) :
    Decimal.ofDigits (padded width n) = n := by
  induction width generalizing n with
  | zero =>
    rw [Nat.lt_one_iff.1 h]
    rfl
  | succ width ih =>
    have hlead := ih (n := n / 10) (by rw [Nat.pow_succ] at h; omega)
    rw [padded, Decimal.ofDigits, List.foldl_append]
    show 10 * Decimal.ofDigits (padded width (n / 10)) + Decimal.digitValue _ = n
    rw [hlead, digitValue_ofNat _ (Nat.mod_lt n (by decide))]
    omega

/-- Digits are read by their number, after the number `n` that is read already. -/
theorem readDigits_append {ds : List Char} (h : ∀ c ∈ ds, c.isDigit = true) (n : Nat)
    (s : List Char) : readDigits ds.length n (ds ++ s) =
      some (ds.foldl (fun n c ↦ 10 * n + Decimal.digitValue c) n, s) := by
  induction ds generalizing n with
  | nil => rfl
  | cons c ds ih =>
    obtain ⟨hc, hds⟩ := List.forall_mem_cons.1 h
    rw [List.cons_append, List.length_cons, readDigits, if_pos hc, ih hds, List.foldl_cons]

/-- Padded digits are read back. -/
theorem readDigits_padded {width n : Nat} (h : n < 10 ^ width) (s : List Char) :
    readDigits width 0 (padded width n ++ s) = some (n, s) := by
  have hdigits : ∀ c ∈ padded width n, c.isDigit = true := fun _ ↦ isDigit_of_mem_padded
  have hread := readDigits_append hdigits 0 s
  rw [length_padded] at hread
  rw [hread]
  exact congrArg (fun k ↦ some (k, s)) (ofDigits_padded h)

theorem digitValue_lt {c : Char} (h : c.isDigit = true) : Decimal.digitValue c < 10 := by
  obtain ⟨-, hle⟩ : '0'.toNat ≤ c.toNat ∧ c.toNat ≤ '9'.toNat := by
    simpa [Char.isDigit, UInt32.le_iff_toNat_le] using h
  rw [Decimal.digitValue]
  have : '9'.toNat = 57 := rfl
  have : '0'.toNat = 48 := rfl
  omega

theorem ofNat_digitValue {c : Char} (h : c.isDigit = true) :
    Char.ofNat (48 + Decimal.digitValue c) = c := by
  obtain ⟨hge, -⟩ : '0'.toNat ≤ c.toNat ∧ c.toNat ≤ '9'.toNat := by
    simpa [Char.isDigit, UInt32.le_iff_toNat_le] using h
  rw [Decimal.digitValue, show 48 + (c.toNat - '0'.toNat) = c.toNat from Nat.add_sub_of_le hge,
    Char.ofNat_toNat]

/-- Digits are the text of their number that has their width. -/
theorem padded_ofDigits {ds : List Char} (h : ∀ c ∈ ds, c.isDigit = true) :
    Decimal.ofDigits ds < 10 ^ ds.length ∧ padded ds.length (Decimal.ofDigits ds) = ds := by
  induction ds using List.reverseRecOn with
  | nil => exact ⟨Nat.one_pos, rfl⟩
  | append_singleton ds c ih =>
    have hc : c.isDigit = true := h c (List.mem_append_right _ List.mem_cons_self)
    obtain ⟨hlt, hpadded⟩ := ih fun d hd ↦ h d (List.mem_append_left _ hd)
    have hdigit := digitValue_lt hc
    have hvalue : Decimal.ofDigits (ds ++ [c]) = 10 * Decimal.ofDigits ds + Decimal.digitValue c :=
      List.foldl_append
    have hlead : (10 * Decimal.ofDigits ds + Decimal.digitValue c) / 10 = Decimal.ofDigits ds := by
      omega
    have hlast : (10 * Decimal.ofDigits ds + Decimal.digitValue c) % 10 = Decimal.digitValue c := by
      omega
    rw [hvalue, List.length_append, List.length_singleton]
    refine ⟨?_, ?_⟩
    · rw [Nat.pow_succ]
      omega
    · rw [padded, hlead, hlast, hpadded, ofNat_digitValue hc]

/-- What is read as a number is its digits, and the rest is what stands after them. -/
theorem exists_of_readDigits {width n k : Nat} {s r : List Char}
    (h : readDigits width n s = some (k, r)) :
    ∃ ds, ds.length = width ∧ (∀ c ∈ ds, c.isDigit = true) ∧ s = ds ++ r ∧
      k = ds.foldl (fun n c ↦ 10 * n + Decimal.digitValue c) n := by
  induction width generalizing n s with
  | zero =>
    cases h
    exact ⟨[], rfl, nofun, rfl, rfl⟩
  | succ width ih =>
    cases s with
    | nil => cases h
    | cons c s =>
      rw [readDigits] at h
      split at h
      · next hc =>
        obtain ⟨ds, rfl, hdigits, rfl, rfl⟩ := ih h
        exact ⟨c :: ds, rfl, List.forall_mem_cons.2 ⟨hc, hdigits⟩, rfl, rfl⟩
      · cases h

/-- A number is read exactly from its text of the width. -/
theorem readDigits_eq_some_iff {width n : Nat} {s r : List Char} :
    readDigits width 0 s = some (n, r) ↔ n < 10 ^ width ∧ s = padded width n ++ r := by
  constructor
  · intro h
    obtain ⟨ds, rfl, hdigits, rfl, rfl⟩ := exists_of_readDigits h
    obtain ⟨hlt, hpadded⟩ := padded_ofDigits hdigits
    exact ⟨hlt, congrArg (· ++ r) hpadded.symm⟩
  · rintro ⟨hlt, rfl⟩
    exact readDigits_padded hlt r

/-! ## Fractions -/

/-- The zeros at the end of digits can be added again. -/
theorem exists_dropZeros_append (ds : List Char) :
    ∃ k, dropZeros ds ++ List.replicate k '0' = ds := by
  refine ⟨(ds.reverse.takeWhile (· == '0')).length, List.reverse_injective ?_⟩
  have hzeros : ds.reverse.takeWhile (· == '0') =
      List.replicate (ds.reverse.takeWhile (· == '0')).length '0' :=
    List.eq_replicate_of_mem fun c hc ↦ by
      simpa using List.all_eq_true.1 List.all_takeWhile c hc
  rw [dropZeros, List.reverse_append, List.reverse_reverse, List.reverse_replicate, ← hzeros,
    List.takeWhile_append_dropWhile]

/-- Digits without the zeros at their end, filled up again. -/
theorem take_dropZeros_append (ds : List Char) :
    (dropZeros ds ++ List.replicate ds.length '0').take ds.length = ds := by
  obtain ⟨k, hk⟩ := exists_dropZeros_append ds
  have hle : k ≤ ds.length := by
    have hlength := congrArg List.length hk
    rw [List.length_append, List.length_replicate] at hlength
    omega
  obtain ⟨j, hj⟩ := Nat.exists_eq_add_of_le hle
  conv_lhs => rw [hj, List.replicate_add, ← List.append_assoc, hk]
  rw [← hj, List.take_left]

/-- The text is a fraction of a second of that many nanoseconds. -/
inductive SpellsFraction : List Char → Nat → Prop
  | none : SpellsFraction [] 0
  /-- Otherwise there are one or more digits after a point, and those after the ninth do not
  count. -/
  | digits {ds : List Char} (hne : ds ≠ []) (hdigits : ∀ c ∈ ds, c.isDigit = true) :
    SpellsFraction ('.' :: ds) (Decimal.ofDigits ((ds ++ List.replicate 9 '0').take 9))

/-- The fraction that is written spells its nanoseconds. -/
theorem spellsFraction_fractionText {n : Nat} (hn : n < 1000000000) :
    SpellsFraction (fractionText n) n := by
  have hfill := take_dropZeros_append (padded 9 n)
  rw [length_padded] at hfill
  have hvalue : Decimal.ofDigits (padded 9 n) = n := ofDigits_padded hn
  unfold fractionText
  split
  · next hnil =>
    rw [hnil] at hfill
    have hzero : n = 0 := hvalue.symm.trans (congrArg _ hfill.symm)
    exact hzero ▸ .none
  · next hne =>
    obtain ⟨k, hk⟩ := exists_dropZeros_append (padded 9 n)
    have hspells := SpellsFraction.digits hne fun d hd ↦
      isDigit_of_mem_padded (hk ▸ List.mem_append_left _ hd)
    rwa [hfill, hvalue] at hspells

/-- A fraction is read before a character that does not go on with it. -/
theorem SpellsFraction.readFraction? {fraction : List Char} {n : Nat}
    (h : SpellsFraction fraction n) {c : Char} (s : List Char)
    (hc : c.isDigit = false ∧ c ≠ '.' ∧ c ≠ 'e' ∧ c ≠ 'E') :
    readFraction? (fraction ++ c :: s) = some (n, c :: s) := by
  cases h with
  | none =>
    rw [List.nil_append, Timestamp.readFraction?]
    exact fun t h ↦ hc.2.1 (List.cons.inj h).1
  | @digits ds hne hdigits =>
    rw [List.cons_append, Timestamp.readFraction?,
      Json.spanDigits_append hdigits (Json.delimited_cons hc)]
    split
    · next h => exact absurd (Prod.mk.inj h).1 hne
    · next h =>
      cases h
      rfl

/-- What is read as a fraction spells it. -/
theorem exists_of_readFraction? {s r : List Char} {n : Nat} (h : readFraction? s = some (n, r)) :
    ∃ fraction, SpellsFraction fraction n ∧ s = fraction ++ r := by
  unfold readFraction? at h
  split at h
  · next s =>
    split at h
    · cases h
    · next ds rest hne hspan =>
      obtain ⟨rfl, rfl⟩ := Prod.mk.inj hspan
      cases h
      refine ⟨'.' :: s.takeWhile Char.isDigit, .digits hne fun c hc ↦ ?_, ?_⟩
      · exact List.all_eq_true.1 List.all_takeWhile c hc
      · rw [List.cons_append, List.takeWhile_append_dropWhile]
  · cases h
    exact ⟨[], .none, rfl⟩

/-! ## Separators and offsets -/

@[simp] theorem expect?_cons (c : Char) (s : List Char) : expect? c (c :: s) = some s := if_pos rfl

theorem expect?_eq_some_iff {c : Char} {s r : List Char} : expect? c s = some r ↔ s = c :: r := by
  cases s with
  | nil => simp [expect?]
  | cons d s => simp [expect?]

/-- Any one-byte character may stand between date and time. -/
theorem dropSeparator?_eq_some_iff {s r : List Char} :
    dropSeparator? s = some r ↔ ∃ c, c.toNat < 128 ∧ s = c :: r := by
  cases s with
  | nil => simp [dropSeparator?]
  | cons d s => simp [dropSeparator?]

/-- The spellings of the offset zero. -/
def offsets : List (List Char) := [['Z'], ['z'], "+00:00".toList, "-00:00".toList]

theorem isUtc_iff {s : List Char} : isUtc s = true ↔ s ∈ offsets := by
  simp [isUtc, offsets, or_assoc]

/-- No spelling of the offset zero goes on with a number. -/
theorem exists_offset_eq_cons {offset : List Char} (h : offset ∈ offsets) :
    ∃ c s, offset = c :: s ∧ c.isDigit = false ∧ c ≠ '.' ∧ c ≠ 'e' ∧ c ≠ 'E' := by
  simp only [offsets, List.mem_cons, List.not_mem_nil, or_false] at h
  rcases h with rfl | rfl | rfl | rfl
  · exact ⟨'Z', [], rfl, by decide⟩
  · exact ⟨'z', [], rfl, by decide⟩
  · exact ⟨'+', _, rfl, by decide⟩
  · exact ⟨'-', _, rfl, by decide⟩

/-! ## Parts -/

theorem daysInMonth_le (year month : Nat) : daysInMonth year month ≤ 31 := by
  unfold daysInMonth
  repeat' split
  all_goals omega

theorem date_lt (t : Timestamp) : t.year < 10 ^ 4 ∧ t.month < 10 ^ 2 ∧ t.day < 10 ^ 2 := by
  obtain ⟨hyear, -, hmonth, -, hday⟩ := t.date_valid
  have hdays := daysInMonth_le t.year t.month
  omega

theorem time_lt (t : Timestamp) :
    t.hour < 10 ^ 2 ∧ t.minute < 10 ^ 2 ∧ t.second < 10 ^ 2 ∧ t.nanosecond < 1000000000 := by
  have htime := t.time_valid
  omega

/-- Parts that are valid make the instant that has them. -/
theorem build_eq_some_iff {year month day hour minute second nanosecond : Nat} {t : Timestamp} :
    ofParts?.build year month day hour minute second nanosecond = some t ↔
      t.parts = [year, month, day, hour, minute, second, nanosecond] := by
  constructor
  · intro h
    unfold ofParts?.build at h
    split at h
    · split at h
      · cases h
        rfl
      · cases h
    · cases h
  · intro h
    cases h
    rw [ofParts?.build, dif_pos t.date_valid, dif_pos t.time_valid]

/-- Parts make an instant that has them, or the last nanosecond before a leap second. -/
theorem ofParts?_eq_some_iff {year month day hour minute second nanosecond : Nat} {t : Timestamp} :
    ofParts? year month day hour minute second nanosecond = some t ↔
      t.parts = [year, month, day, hour, minute, second, nanosecond] ∨
      second = 60 ∧ day = daysInMonth year month ∧
        t.parts = [year, month, day, 23, 59, 59, 999999999] ∧ hour = 23 ∧ minute = 59 := by
  have hsecond : t.second < 60 := t.time_valid.2.2.1
  unfold ofParts?
  split
  · next hleap =>
    subst hleap
    split
    · next hend =>
      obtain ⟨rfl, rfl, rfl⟩ := hend
      rw [build_eq_some_iff]
      constructor
      · exact fun h ↦ .inr ⟨rfl, rfl, h, rfl, rfl⟩
      · rintro (h | ⟨-, -, h, -, -⟩)
        · simp only [parts, List.cons.injEq] at h
          omega
        · exact h
    · next hend =>
      refine iff_of_false nofun ?_
      rintro (h | ⟨-, hday, -, hhour, hminute⟩)
      · simp only [parts, List.cons.injEq] at h
        omega
      · exact hend ⟨hhour, hminute, hday⟩
  · next hleap =>
    rw [build_eq_some_iff]
    exact (or_iff_left fun h ↦ hleap h.1).symm

/-! ## The grammar of instants -/

/-- The text is the second of the instant with its fraction. -/
inductive SpellsSecond (t : Timestamp) : List Char → Prop
  | number {fraction : List Char} (h : SpellsFraction fraction t.nanosecond) :
    SpellsSecond t (padded 2 t.second ++ fraction)
  /-- A leap second, whatever its fraction, spells the last nanosecond of a month. -/
  | leap {fraction : List Char} {n : Nat} (h : SpellsFraction fraction n)
    (hday : t.day = daysInMonth t.year t.month)
    (htime : t.hour = 23 ∧ t.minute = 59 ∧ t.second = 59 ∧ t.nanosecond = 999999999) :
    SpellsSecond t (padded 2 60 ++ fraction)

/-- The text has the numbers of the instant, any character of one byte between date and time, and an
offset zero at its end. -/
def Spells (s : String) (t : Timestamp) : Prop :=
  ∃ separator second offset, separator.toNat < 128 ∧ SpellsSecond t second ∧ offset ∈ offsets ∧
    s.toList = padded 4 t.year ++ '-' :: (padded 2 t.month ++ '-' :: (padded 2 t.day ++
      separator :: (padded 2 t.hour ++ ':' :: (padded 2 t.minute ++ ':' :: (second ++ offset)))))

/-- The second of a spelling is read with its fraction, and it makes the instant with the other
parts. -/
theorem SpellsSecond.exists_read {t : Timestamp} {second : List Char} (h : SpellsSecond t second)
    {offset : List Char} (hoffset : offset ∈ offsets) :
    ∃ n k rest, readDigits 2 0 (second ++ offset) = some (n, rest) ∧
      Timestamp.readFraction? rest = some (k, offset) ∧
      ofParts? t.year t.month t.day t.hour t.minute n k = some t := by
  obtain ⟨c, s, rfl, hc⟩ := exists_offset_eq_cons hoffset
  cases h with
  | @number fraction h =>
    refine ⟨t.second, t.nanosecond, fraction ++ c :: s, ?_, h.readFraction? s hc, ?_⟩
    · rw [List.append_assoc, readDigits_padded t.time_lt.2.2.1]
    · exact ofParts?_eq_some_iff.2 (.inl rfl)
  | @leap fraction n h hday htime =>
    obtain ⟨hhour, hminute, hsecond, hnanosecond⟩ := htime
    refine ⟨60, n, fraction ++ c :: s, ?_, h.readFraction? s hc, ?_⟩
    · rw [List.append_assoc, readDigits_padded (by decide)]
    · refine ofParts?_eq_some_iff.2 (.inr ⟨rfl, hday, ?_, hhour, hminute⟩)
      rw [parts, hhour, hminute, hsecond, hnanosecond]

/-- A spelling of an instant is read as the instant. -/
theorem Spells.ofText?_eq {s : String} {t : Timestamp} (h : Spells s t) : ofText? s = some t := by
  obtain ⟨separator, second, offset, hseparator, hsecond, hoffset, hs⟩ := h
  obtain ⟨hyear, hmonth, hday⟩ := t.date_lt
  obtain ⟨hhour, hminute, -, -⟩ := t.time_lt
  obtain ⟨n, k, rest, hn, hk, ht⟩ := hsecond.exists_read hoffset
  have hdrop (s : List Char) : dropSeparator? (separator :: s) = some s := if_pos hseparator
  rw [ofText?, hs]
  simp only [Option.bind_eq_bind, Option.bind_some, expect?_cons, hdrop, readDigits_padded hyear,
    readDigits_padded hmonth, readDigits_padded hday, readDigits_padded hhour,
    readDigits_padded hminute, hn, hk]
  rw [if_pos (isUtc_iff.2 hoffset), ht]

/-- A text that is read as an instant spells it. -/
theorem spells_of_ofText? {s : String} {t : Timestamp} (h : ofText? s = some t) : Spells s t := by
  simp only [ofText?, Option.bind_eq_bind, Option.bind_eq_some_iff, Prod.exists,
    Option.ite_none_right_eq_some, readDigits_eq_some_iff, expect?_eq_some_iff,
    dropSeparator?_eq_some_iff] at h
  obtain ⟨year, _, ⟨-, hs⟩, _, rfl, month, _, ⟨-, rfl⟩, _, rfl, day, _, ⟨-, rfl⟩, _,
    ⟨separator, hseparator, rfl⟩, hour, _, ⟨-, rfl⟩, _, rfl, minute, _, ⟨-, rfl⟩, _, rfl,
    second, _, ⟨-, rfl⟩, nanosecond, offset, hfraction, hutc, hparts⟩ := h
  obtain ⟨fraction, hspells, rfl⟩ := exists_of_readFraction? hfraction
  rcases ofParts?_eq_some_iff.1 hparts with h | ⟨rfl, hday, h, rfl, rfl⟩
  · cases h
    exact ⟨separator, _, offset, hseparator, .number hspells, isUtc_iff.1 hutc, by
      rw [hs, List.append_assoc]⟩
  · simp only [parts, List.cons.injEq] at h
    obtain ⟨rfl, rfl, rfl, hhour, hminute, hsecond, hnanosecond, -⟩ := h
    refine ⟨separator, _, offset, hseparator, .leap hspells hday ⟨hhour, hminute, hsecond,
      hnanosecond⟩, isUtc_iff.1 hutc, ?_⟩
    rw [hs, hhour, hminute, List.append_assoc]

/-- A text is read as an instant exactly if it spells the instant. -/
theorem ofText?_eq_some_iff {s : String} {t : Timestamp} : ofText? s = some t ↔ Spells s t :=
  ⟨spells_of_ofText?, Spells.ofText?_eq⟩

/-- The text of an instant spells it. -/
theorem spells_text (t : Timestamp) : Spells t.text t := by
  refine ⟨'T', _, ['Z'], by decide, .number (spellsFraction_fractionText t.time_lt.2.2.2),
    List.mem_cons_self, ?_⟩
  simp only [text, String.toList_ofList, List.append_assoc, List.cons_append]

/-- The text of an instant is read as the instant. -/
theorem ofText?_text (t : Timestamp) : ofText? t.text = some t := (spells_text t).ofText?_eq

theorem decode?_encode (t : Timestamp) : decode? t.encode = some t := by
  rw [decode?, encode, Value.text?, Option.bind_some, ofText?_text]

end OracleMarkets.Timestamp
