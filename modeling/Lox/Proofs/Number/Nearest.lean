import Lox.Number.Shortest
import Mathlib.Tactic.Linarith
import Mathlib.Tactic.Ring

/-!
# Decimals inside the interval of a double read as the double

The double nearest to a fraction is found by a shift and one rounding.  This file shows
that for every fraction inside the interval of a double both come out as in the bit
pattern of that double.

* `roundEven_eq` — what a rounded quotient is, said with products only.
* `nearestBits_eq` — the shift and the rounding, said with products only.
* `nearestBits_of_contains` — a fraction inside the interval reads as its double.
-/

namespace Lox.Number

/-! ## Rounding -/

/-- A number within a half of the quotient is the quotient rounded, and at exactly a half
if it is even. -/
theorem roundEven_eq {num den m : Nat} (hden : 0 < den) (hlow : 2 * m * den ≤ 2 * num + den)
    (hhigh : 2 * num ≤ (2 * m + 1) * den)
    (htie : m % 2 = 1 → 2 * m * den < 2 * num + den ∧ 2 * num < (2 * m + 1) * den) :
    roundEven num den = m := by
  have hsplit : den * (num / den) + num % den = num := Nat.div_add_mod num den
  have hleft : num % den < den := Nat.mod_lt num hden
  have hle : num / den ≤ m := by
    by_contra hgt
    have hmul : den * (m + 1) ≤ den * (num / den) := Nat.mul_le_mul_left den (by omega)
    have hexp : (2 * m + 1) * den + den = 2 * (den * (m + 1)) := by ring
    omega
  have hge : m ≤ num / den + 1 := by
    by_contra hlt
    have hmul : den * (num / den + 2) ≤ den * m := Nat.mul_le_mul_left den (by omega)
    have hexp : den * (num / den + 2) = den * (num / den) + 2 * den := by ring
    have hcomm : 2 * m * den = 2 * (den * m) := by ring
    omega
  have hprod : 2 * m * den = 2 * (den * m) := by ring
  have hprod' : (2 * m + 1) * den = 2 * (den * m) + den := by ring
  rw [hprod] at hlow htie
  rw [hprod'] at hhigh htie
  unfold roundEven
  rcases Nat.lt_or_ge (num / den) m with hlt | hge'
  · -- the quotient is one below: at least a half is left over
    have hm : m = num / den + 1 := by omega
    have hexp : den * m = den * (num / den) + den := by rw [hm]; ring
    simp only
    split
    · omega
    split
    · omega
    · omega
  · -- the quotient is the number itself: at most a half is left over
    have hm : m = num / den := by omega
    have hexp : den * m = den * (num / den) := by rw [← hm]
    simp only
    split
    · omega
    split
    · omega
    · omega

/-- The shift is the one that leaves a mantissa of 53 bits, or zero. -/
theorem log2_sub_eq {units den s : Nat} (hden : 0 < den) (hhigh : units < 2 ^ (53 + s) * den)
    (hlow : s = 0 ∨ 2 ^ (52 + s) * den ≤ units) : Nat.log2 (units / den) - 52 = s := by
  have hlt : units / den < 2 ^ (53 + s) := Nat.div_lt_of_lt_mul (by rwa [Nat.mul_comm])
  by_cases hzero : units / den = 0
  · rcases hlow with rfl | hlow
    · rw [hzero]
      rfl
    · have hge : 2 ^ (52 + s) ≤ units / den := (Nat.le_div_iff_mul_le hden).2 hlow
      have hpos : 0 < 2 ^ (52 + s) := Nat.two_pow_pos _
      omega
  · have hlog : Nat.log2 (units / den) < 53 + s := (Nat.log2_lt hzero).2 hlt
    rcases hlow with rfl | hlow
    · omega
    · have hge : 52 + s ≤ Nat.log2 (units / den) :=
        (Nat.le_log2 hzero).2 ((Nat.le_div_iff_mul_le hden).2 hlow)
      omega

theorem nearestBits_eq {num den s m : Nat} (hden : 0 < den)
    (hlt : num * unitsPerOne < 2 ^ (53 + s) * den)
    (hge : s = 0 ∨ 2 ^ (52 + s) * den ≤ num * unitsPerOne)
    (hround : roundEven (num * unitsPerOne) (den * 2 ^ s) = m)
    (hfinite : s * weight + m ≤ infinityBits) :
    nearestBits num den = s * weight + m := by
  have hshift := log2_sub_eq hden hlt hge
  have hround' : roundEven (num * unitsPerOne) (den * Nat.pow 2 s) = m := hround
  simp only [nearestBits, hshift, hround']
  exact Nat.min_eq_left hfinite

/-! ## Fractions in the units of an interval -/

/-- A quarter of the smallest double, in the units in which intervals are given. -/
def quarter : Nat := Nat.pow 5 scale

theorem quarter_pos : 0 < quarter := Nat.pos_of_ne_zero (by decide +kernel)

theorem ten_pow_scale : 10 ^ scale = 4 * (unitsPerOne * quarter) := by
  decide +kernel

section Ratio

variable {num den n : Nat}

/-- Comparing a fraction with doubles is comparing its size in the units of an interval. -/
theorem le_iff_of_ratio (hden : 0 < den) (hratio : num * 10 ^ scale = n * den)
    (x y x' y' : Nat) :
    x * den + y * (num * unitsPerOne) ≤ x' * den + y' * (num * unitsPerOne) ↔
      x * (4 * quarter) + y * n ≤ x' * (4 * quarter) + y' * n := by
  have hscaled : num * unitsPerOne * (4 * quarter) = n * den := by
    rw [← hratio, ten_pow_scale]
    ring
  have hside : ∀ u v : Nat, (u * den + v * (num * unitsPerOne)) * (4 * quarter) =
      (u * (4 * quarter) + v * n) * den := by
    intro u v
    calc (u * den + v * (num * unitsPerOne)) * (4 * quarter)
        = u * (4 * quarter) * den + v * (num * unitsPerOne * (4 * quarter)) := by ring
      _ = (u * (4 * quarter) + v * n) * den := by rw [hscaled]; ring
  have hq : 0 < 4 * quarter := Nat.mul_pos (by decide) quarter_pos
  rw [← Nat.mul_le_mul_right_iff hq, hside, hside, Nat.mul_le_mul_right_iff hden]

theorem lt_iff_of_ratio (hden : 0 < den) (hratio : num * 10 ^ scale = n * den)
    (x y x' y' : Nat) :
    x * den + y * (num * unitsPerOne) < x' * den + y' * (num * unitsPerOne) ↔
      x * (4 * quarter) + y * n < x' * (4 * quarter) + y' * n := by
  rw [← Nat.not_le, ← Nat.not_le, le_iff_of_ratio hden hratio]

/-- A fraction reads as the double with shift `s` and mantissa `m` if it is within half a
step of it, in the units of an interval. -/
theorem nearestBits_of_bounds {s m : Nat} (hden : 0 < den)
    (hratio : num * 10 ^ scale = n * den)
    (hlt : n < 2 ^ 53 * 4 * (2 ^ s * quarter))
    (hge : s = 0 ∨ 2 ^ 52 * 4 * (2 ^ s * quarter) ≤ n)
    (hlow : 4 * m * (2 ^ s * quarter) ≤ n + 2 * (2 ^ s * quarter))
    (hhigh : n ≤ (4 * m + 2) * (2 ^ s * quarter))
    (htie : m % 2 = 1 → 4 * m * (2 ^ s * quarter) < n + 2 * (2 ^ s * quarter) ∧
      n < (4 * m + 2) * (2 ^ s * quarter))
    (hfinite : s * weight + m ≤ infinityBits) :
    nearestBits num den = s * weight + m := by
  have le := le_iff_of_ratio hden hratio
  have lt := lt_iff_of_ratio hden hratio
  have hpos : 0 < den * 2 ^ s := Nat.mul_pos hden (Nat.two_pow_pos s)
  refine nearestBits_eq hden ?_ ?_ (roundEven_eq hpos ?_ ?_ ?_) hfinite
  · have h := (lt 0 1 (2 ^ (53 + s)) 0).2 (by rw [Nat.pow_add]; linarith)
    linarith
  · rcases hge with hs | hge
    · exact Or.inl hs
    · have h := (le (2 ^ (52 + s)) 0 0 1).2 (by rw [Nat.pow_add]; linarith)
      exact Or.inr (by linarith)
  · have h := (le (2 * m * 2 ^ s) 0 (2 ^ s) 2).2 (by linarith)
    linarith
  · have h := (le 0 2 ((2 * m + 1) * 2 ^ s) 0).2 (by linarith)
    linarith
  · intro hm
    obtain ⟨hlow', hhigh'⟩ := htie hm
    have h₁ := (lt (2 * m * 2 ^ s) 0 (2 ^ s) 2).2 (by linarith)
    have h₂ := (lt 0 2 ((2 * m + 1) * 2 ^ s) 0).2 (by linarith)
    exact ⟨by linarith, by linarith⟩

end Ratio

/-! ## The interval of a double -/

/-- The mantissa in a bit pattern. -/
def mantissa (bits : Nat) : Nat :=
  if bits / weight = 0 then bits % weight else bits % weight + weight

theorem mantissa_pos {bits : Nat} (h : 0 < bits) : 0 < mantissa bits := by
  have hw : 0 < weight := Nat.two_pow_pos 52
  have hsplit := Nat.div_add_mod bits weight
  unfold mantissa
  split
  next he =>
    rw [he, Nat.mul_zero, Nat.zero_add] at hsplit
    omega
  next => omega

theorem mantissa_lt (bits : Nat) : mantissa bits < 2 * weight := by
  have hmod : bits % weight < weight := Nat.mod_lt bits (Nat.two_pow_pos 52)
  unfold mantissa
  split <;> omega

/-- A bit pattern is made up of its shift and its mantissa. -/
theorem shift_add_mantissa (bits : Nat) :
    (bits / weight - 1) * weight + mantissa bits = bits := by
  have hsplit := Nat.div_add_mod bits weight
  unfold mantissa
  split
  next he =>
    rw [he, Nat.mul_zero, Nat.zero_add] at hsplit
    rw [he, hsplit]
    omega
  next he =>
    obtain ⟨k, hk⟩ := Nat.exists_eq_succ_of_ne_zero he
    rw [hk] at hsplit ⊢
    have hexp : weight * (k + 1) = k * weight + weight := by ring
    simp only [Nat.succ_eq_add_one, Nat.add_sub_cancel] at hsplit ⊢
    omega

theorem ofBits_eq (bits : Nat) :
    Interval.ofBits bits =
      { low := (4 * mantissa bits -
          if bits % weight = 0 && 1 < bits / weight then 1 else 2) *
            (2 ^ (bits / weight - 1) * quarter)
        value := 4 * mantissa bits * (2 ^ (bits / weight - 1) * quarter)
        high := (4 * mantissa bits + 2) * (2 ^ (bits / weight - 1) * quarter)
        closed := mantissa bits % 2 == 0 } := by
  have hquarter : Nat.pow 5 scale = quarter := by
    unfold quarter
    rfl
  unfold Interval.ofBits
  rw [hquarter]
  rfl

theorem contains_iff {i : Interval} {n : Nat} :
    i.contains n ↔ i.low ≤ n ∧ n ≤ i.high ∧ (i.closed = false → i.low < n ∧ n < i.high) := by
  unfold Interval.contains
  cases i.closed with
  | true => simp
  | false =>
    simp only [Bool.false_eq_true, if_false, Bool.and_eq_true, decide_eq_true_eq, forall_const]
    omega

/-- **A fraction inside the interval of a double reads as that double.** -/
theorem nearestBits_of_contains {bits num den n : Nat} (hpos : 0 < bits)
    (hfinite : bits < infinityBits) (hden : 0 < den) (hratio : num * 10 ^ scale = n * den)
    (hn : (Interval.ofBits bits).contains n) : nearestBits num den = bits := by
  have hM := mantissa_pos hpos
  have hMlt := mantissa_lt bits
  have hbits := shift_add_mantissa bits
  have hw : weight = 2 ^ 52 := rfl
  rw [contains_iff, ofBits_eq] at hn
  simp only [beq_eq_false_iff_ne, ne_eq, Nat.mod_two_not_eq_zero] at hn
  obtain ⟨hlow, hhigh, hopen⟩ := hn
  generalize hP : 2 ^ (bits / weight - 1) * quarter = P at hlow hhigh hopen
  have hPpos : 0 < P := hP ▸ Nat.mul_pos (Nat.two_pow_pos _) quarter_pos
  by_cases hpower : bits % weight = 0 ∧ 1 < bits / weight
  · -- a power of two: the doubles below it are only half as far apart
    have hmant : mantissa bits = 2 ^ 52 := by
      unfold mantissa
      rw [if_neg (by omega), hpower.1, Nat.zero_add, hw]
    have hbelow : (4 * mantissa bits - 1) * P ≤ n := by simpa [hpower] using hlow
    rw [hmant] at hbelow hhigh hbits
    rcases Nat.lt_or_ge n (4 * 2 ^ 52 * P) with hlt | hge
    · obtain ⟨k, hk⟩ : ∃ k, bits / weight - 1 = k + 1 := ⟨bits / weight - 2, by omega⟩
      have hhalf : P = 2 * (2 ^ k * quarter) := by
        rw [← hP, hk, Nat.pow_succ]
        ring
      have hsum : k * weight + 2 * 2 ^ 52 = bits := by
        rw [← hbits, hk, hw]
        ring
      rw [hhalf] at hbelow hlt
      rw [← hsum] at hfinite ⊢
      refine nearestBits_of_bounds hden hratio ?_ (Or.inr ?_) ?_ ?_ (by omega) (by omega)
      all_goals omega
    · have hsum : (bits / weight - 1) * weight + 2 ^ 52 ≤ infinityBits := by omega
      rw [← hbits]
      refine nearestBits_of_bounds hden hratio ?_ (Or.inr ?_) ?_ ?_ (by omega) hsum
      all_goals rw [hP]; omega
  · have hhalf : (4 * mantissa bits - (if bits % weight = 0 && 1 < bits / weight then 1 else 2)) *
        P = 4 * mantissa bits * P - 2 * P := by
      simp [hpower, Nat.sub_mul]
    rw [hhalf] at hlow hopen
    have hMP : mantissa bits * P ≥ P := Nat.le_mul_of_pos_left P hM
    have hassoc : 4 * mantissa bits * P = 4 * (mantissa bits * P) := Nat.mul_assoc ..
    have hlt : (4 * mantissa bits + 2) * P < 2 ^ 53 * 4 * P :=
      Nat.mul_lt_mul_of_pos_right (by omega) hPpos
    have hge : bits / weight - 1 = 0 ∨ 2 ^ 52 * 4 * P ≤ n := by
      by_cases hshift : bits / weight - 1 = 0
      · exact Or.inl hshift
      · have hbig : 2 ^ 52 < mantissa bits := by
          unfold mantissa
          rw [if_neg (by omega)]
          omega
        have hmul : (2 ^ 52 * 4 + 2) * P ≤ 4 * mantissa bits * P :=
          Nat.mul_le_mul_right P (by omega)
        exact Or.inr (by omega)
    have hfinite' : (bits / weight - 1) * weight + mantissa bits ≤ infinityBits := by omega
    rw [← hbits]
    refine nearestBits_of_bounds hden hratio ?_ ?_ ?_ ?_ ?_ hfinite' <;> rw [hP]
    · omega
    · exact hge
    · omega
    · exact hhigh
    · intro hodd
      obtain ⟨hl, hh⟩ := hopen hodd
      exact ⟨by omega, hh⟩

end Lox.Number
