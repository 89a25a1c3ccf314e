import Lox.Proofs.Number.Bits
import Lox.Proofs.Number.Nearest
import Lox.Proofs.Token.Pattern

/-!
# The text of a double reads back

The search for the shortest decimal never leaves the interval of the double, positional
form keeps the value of a decimal, and a decimal inside the interval reads as the double.

* `contains_shortest` — the search: one grid, then all grids.
* `positional_cases` — positional form: digits and zeros, or digits around a point.
* `number_matches_magnitudeText`, `read_magnitudeText` — the text of a finite magnitude is a
  numeral and reads as that magnitude.
* `read_text_read` — so does the text of the double that any numeral reads as, if it is
  finite.
-/

namespace Lox.Number

/-! ## The shortest decimal lies in the interval -/

theorem contains_value {bits : Nat} (hpos : 0 < bits) :
    (Interval.ofBits bits).contains (Interval.ofBits bits).value := by
  have hM := mantissa_pos hpos
  rw [contains_iff, ofBits_eq]
  dsimp only
  generalize hP : 2 ^ (bits / weight - 1) * quarter = P
  have hPpos : 0 < P := hP ▸ Nat.mul_pos (Nat.two_pow_pos _) quarter_pos
  have hlow : (4 * mantissa bits - if bits % weight = 0 && 1 < bits / weight then 1 else 2) * P <
      4 * mantissa bits * P := by
    refine Nat.mul_lt_mul_of_pos_right ?_ hPpos
    split <;> omega
  have hhigh : 4 * mantissa bits * P < (4 * mantissa bits + 2) * P :=
    Nat.mul_lt_mul_of_pos_right (by omega) hPpos
  exact ⟨Nat.le_of_lt hlow, Nat.le_of_lt hhigh, fun _ => ⟨hlow, hhigh⟩⟩

/-- The value of a decimal, in the units in which intervals are given. -/
def Decimal.value (d : Decimal) : Nat := d.digits * 10 ^ d.place

theorem contains_onGrid {i : Interval} {place : Nat} {d : Decimal}
    (h : i.onGrid place = some d) : i.contains d.value := by
  unfold Interval.onGrid at h
  dsimp only at h
  split at h
  next hbelow habove =>
    obtain rfl := Option.some.inj h
    by_cases hnear : 2 * (i.value % Nat.pow 10 place) < Nat.pow 10 place
    · rw [Decimal.value, if_pos hnear]
      exact hbelow
    · rw [Decimal.value, if_neg hnear]
      exact habove
  next hbelow habove =>
    obtain rfl := Option.some.inj h
    exact hbelow
  next hbelow habove =>
    obtain rfl := Option.some.inj h
    exact habove
  next => cases h

/-- The search stays inside the interval on every grid. -/
theorem contains_search {i : Interval} (hi : i.contains i.value) (place : Nat) :
    i.contains (i.search place).value := by
  induction place with
  | zero => simpa [Interval.search, Decimal.value] using hi
  | succ place ih =>
    rw [Interval.search]
    cases hgrid : i.onGrid (place + 1) with
    | none => simpa using ih
    | some d => simpa using contains_onGrid hgrid

theorem contains_shortest {bits : Nat} (hpos : 0 < bits) :
    (Interval.ofBits bits).contains (Interval.ofBits bits).shortest.value :=
  contains_search (contains_value hpos) _

/-! ## Digits -/

theorem digitsValue_eq (ds : List Char) : digitsValue ds = Nat.ofDigitChars 10 ds 0 := rfl

@[simp] theorem digitsValue_digitsOf (n : Nat) : digitsValue (digitsOf n) = n :=
  Nat.ofDigitChars_ten_toDigits

theorem digitsValue_append_zeros (ds : List Char) (k : Nat) :
    digitsValue (ds ++ List.replicate k '0') = digitsValue ds * 10 ^ k := by
  rw [digitsValue_eq, Nat.ofDigitChars_append, Nat.ofDigitChars_replicate_zero, digitsValue_eq,
    Nat.mul_comm]

theorem digitsValue_zeros_append (ds : List Char) (k : Nat) :
    digitsValue (List.replicate k '0' ++ ds) = digitsValue ds := by
  rw [digitsValue_eq, Nat.ofDigitChars_append, Nat.ofDigitChars_replicate_zero, digitsValue_eq,
    Nat.mul_zero]

theorem digits_digitsOf (n : Nat) : Digits (digitsOf n) :=
  ⟨Nat.toDigits_ne_nil, fun _ hc => Nat.isDigit_of_mem_toDigits (by decide) (by decide) hc⟩

theorem isDigit_of_mem_zeros {k : Nat} {c : Char} (h : c ∈ List.replicate k '0') : c.isDigit := by
  rw [List.eq_of_mem_replicate h]
  rfl

theorem digits_append_zeros (n k : Nat) : Digits (digitsOf n ++ List.replicate k '0') := by
  obtain ⟨hne, hdigits⟩ := digits_digitsOf n
  refine ⟨by simp [hne], ?_⟩
  intro c hc
  rcases List.mem_append.1 hc with hc | hc
  · exact hdigits c hc
  · exact isDigit_of_mem_zeros hc

/-! ## Positional form -/

/-- A decimal is written as its digits with zeros behind them, or with a point among or
before them that has as many digits behind it as the decimal has places. -/
theorem positional_cases (d : Decimal) :
    (∃ k, d.place = scale + k ∧ d.positional = digitsOf d.digits ++ List.replicate k '0') ∨
      ∃ whole fraction, Digits whole ∧ Digits fraction ∧
        d.positional = whole ++ '.' :: fraction ∧ d.place + fraction.length = scale ∧
        digitsValue (whole ++ fraction) = d.digits := by
  obtain ⟨hne, hdigits⟩ := digits_digitsOf d.digits
  unfold Decimal.positional
  dsimp only
  split
  next hplace => exact Or.inl ⟨d.place - scale, by omega, rfl⟩
  next hplace =>
    right
    split
    next hlen =>
      refine ⟨_, _, ⟨?_, ?_⟩, ⟨?_, ?_⟩, rfl, ?_, ?_⟩
      · intro hnil
        have hlength := congrArg List.length hnil
        rw [List.length_take, List.length_nil] at hlength
        omega
      · exact fun c hc => hdigits c (List.mem_of_mem_take hc)
      · intro hnil
        have hlength := congrArg List.length hnil
        rw [List.length_drop, List.length_nil] at hlength
        omega
      · exact fun c hc => hdigits c (List.mem_of_mem_drop hc)
      · rw [List.length_drop]
        omega
      · rw [List.take_append_drop, digitsValue_digitsOf]
    next hlen =>
      refine ⟨['0'], _, ⟨by simp, by simp⟩, ⟨by simp [hne], ?_⟩, rfl, ?_, ?_⟩
      · intro c hc
        rcases List.mem_append.1 hc with hc | hc
        · exact isDigit_of_mem_zeros hc
        · exact hdigits c hc
      · rw [List.length_append, List.length_replicate]
        omega
      · rw [← List.append_assoc, ← List.replicate_one, List.replicate_append_replicate,
          digitsValue_zeros_append, digitsValue_digitsOf]

theorem number_matches_positional (d : Decimal) : Kind.number.Matches d.positional := by
  rcases positional_cases d with ⟨k, -, hw⟩ | ⟨whole, fraction, hwhole, hfraction, hw, -, -⟩
  · rw [hw]
    exact Or.inl (digits_append_zeros d.digits k)
  · exact Or.inr ⟨whole, fraction, hw, hwhole, hfraction⟩

/-! ## Reading back -/

theorem read_whole {whole : List Char} (h : ∀ c ∈ whole, c.isDigit) :
    read whole = Float.ofBits (UInt64.ofNat (nearestBits (digitsValue whole) 1)) := by
  have htake := Segment.takeWhile_append_stops h (Kind.stops_nil _)
  have hdrop := Segment.dropWhile_append_stops h (Kind.stops_nil _)
  rw [List.append_nil] at htake hdrop
  simp [read, htake, hdrop]

theorem read_point {whole fraction : List Char} (h : ∀ c ∈ whole, c.isDigit) :
    read (whole ++ '.' :: fraction) =
      Float.ofBits (UInt64.ofNat
        (nearestBits (digitsValue (whole ++ fraction)) (10 ^ fraction.length))) := by
  have hpoint : Kind.Stops Char.isDigit ('.' :: fraction) := by simp [Kind.Stops]
  have htake := Segment.takeWhile_append_stops h hpoint
  have hdrop := Segment.dropWhile_append_stops h hpoint
  simp [read, htake, hdrop]

/-- A decimal inside the interval of a double reads as the double. -/
theorem read_positional {bits : Nat} {d : Decimal} (hpos : 0 < bits)
    (hfinite : bits < infinityBits) (hd : (Interval.ofBits bits).contains d.value) :
    read d.positional = Float.ofBits (UInt64.ofNat bits) := by
  rcases positional_cases d with ⟨k, hk, hw⟩ | ⟨whole, fraction, hwhole, -, hw, hlen, hvalue⟩
  · have hall : ∀ c ∈ d.positional, c.isDigit := hw ▸ (digits_append_zeros d.digits k).2
    have hratio : digitsValue d.positional * 10 ^ scale = d.value * 1 := by
      rw [hw, digitsValue_append_zeros, digitsValue_digitsOf, Decimal.value, hk, Nat.pow_add]
      ring
    rw [read_whole hall, nearestBits_of_contains hpos hfinite Nat.one_pos hratio hd]
  · have hratio : digitsValue (whole ++ fraction) * 10 ^ scale =
        d.value * 10 ^ fraction.length := by
      rw [hvalue, ← hlen, Decimal.value, Nat.pow_add]
      ring
    have hden : 0 < 10 ^ fraction.length := Nat.pow_pos (by decide)
    rw [hw, read_point hwhole.2, nearestBits_of_contains hpos hfinite hden hratio hd]

theorem number_matches_magnitudeText {bits : Nat} (h : bits < infinityBits) :
    Kind.number.Matches (magnitudeText bits) := by
  unfold magnitudeText
  split
  · exact Or.inl ⟨by simp, by simp⟩
  · exact number_matches_positional _

/-- **The text of a finite magnitude reads as that magnitude.** -/
theorem read_magnitudeText {bits : Nat} (h : bits < infinityBits) :
    read (magnitudeText bits) = Float.ofBits (UInt64.ofNat bits) := by
  unfold magnitudeText
  split
  next hzero =>
    subst hzero
    decide +kernel
  next hpos =>
    have hbits : 0 < bits := Nat.pos_of_ne_zero hpos
    exact read_positional hbits h (contains_shortest hbits)

/-! ## The double of a numeral -/

theorem text_ofBits {bits : Nat} (h : bits ≤ infinityBits) :
    text (Float.ofBits (UInt64.ofNat bits)) = String.ofList (magnitudeText bits) := by
  have hsign : bits < signWeight := Nat.lt_of_le_of_lt h (by decide)
  simp only [text, toBits_ofBits h, Nat.mod_eq_of_lt hsign, if_neg (Nat.not_lt.2 h),
    if_pos hsign]

/-- A numeral never reads as a negative number, nor as no number. -/
theorem read_eq_ofBits (numeral : List Char) :
    ∃ bits ≤ infinityBits, read numeral = Float.ofBits (UInt64.ofNat bits) :=
  ⟨_, Nat.min_le_right _ _, rfl⟩

/-- Numerals are equal as numbers only if they read as the same double. -/
theorem beq_read_iff {numeral numeral' : List Char} :
    read numeral == read numeral' ↔ read numeral = read numeral' := by
  obtain ⟨bits, hle, hbits⟩ := read_eq_ofBits numeral
  obtain ⟨bits', hle', hbits'⟩ := read_eq_ofBits numeral'
  rw [hbits, hbits', beq_ofBits hle hle']
  constructor
  · rintro rfl
    rfl
  · intro h
    rw [← toBits_ofBits hle, h, toBits_ofBits hle']

/-- The text of the finite double that a numeral reads as is again a numeral, and one of
the same double. -/
theorem read_text_read {numeral : List Char} (h : ¬ (read numeral).isInf) :
    Kind.number.Matches (text (read numeral)).toList ∧
      read (text (read numeral)).toList = read numeral := by
  obtain ⟨bits, hle, hbits⟩ := read_eq_ofBits numeral
  rw [hbits, isInf_ofBits hle] at h
  have hlt : bits < infinityBits := Nat.lt_of_le_of_ne hle h
  rw [hbits, text_ofBits hle, String.toList_ofList]
  exact ⟨number_matches_magnitudeText hlt, read_magnitudeText hlt⟩

theorem text_read_of_isInf {numeral : List Char} (h : (read numeral).isInf) :
    text (read numeral) = "inf" := by
  obtain ⟨bits, hle, hbits⟩ := read_eq_ofBits numeral
  rw [hbits, isInf_ofBits hle] at h
  rw [hbits, text_ofBits hle, h]
  decide

end Lox.Number
