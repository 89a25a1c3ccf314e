import Lox.Number.Text
import Mathlib.Tactic.Ring

/-!
# Doubles and their bit patterns

Making a double from the bit pattern of a magnitude keeps the pattern, up to and including
that of infinity.  Beyond it are the patterns that are not numbers, which are not kept.

* `toNat_pack_unpack` — taking a pattern apart and putting it together again.
* `toBits_ofBits`, `isInf_ofBits` — the pattern of a double made from a pattern, and when
  that double is infinite.
* `beq_ofBits` — doubles made from patterns are equal as numbers if the patterns are.
-/

namespace Lox.Number

open Float.Model

/-! ## The fields of a pattern -/

theorem toNat_unpackExponent (b : BitVec 64) :
    (@UnpackedFloat.unpackExponent Format.binary64 b).toNat = b.toNat / 2 ^ 52 % 2 ^ 11 := by
  simp [UnpackedFloat.unpackExponent, BitVec.extractLsb, Nat.shiftRight_eq_div_pow]

theorem toNat_unpackMantissa (b : BitVec 64) :
    (@UnpackedFloat.unpackMantissa Format.binary64 b).toNat = b.toNat % 2 ^ 52 := by
  simp [UnpackedFloat.unpackMantissa, BitVec.extractLsb]

theorem sign_unpackSign {b : BitVec 64} (h : b.toNat < 2 ^ 63) :
    UnpackedFloat.Sign.ofBitVec (@UnpackedFloat.unpackSign Format.binary64 b) = .positive := by
  have hzero : @UnpackedFloat.unpackSign Format.binary64 b = 0#1 := by
    apply BitVec.eq_of_toNat_eq
    show b.toNat >>> 63 % 2 ^ 1 = 0
    rw [Nat.shiftRight_eq_div_pow]
    omega
  rw [hzero]
  rfl

theorem toNat_packComponents (e : BitVec 11) (m : BitVec 52) :
    (UnpackedFloat.packComponents Format.binary64 .positive e m).toNat =
      e.toNat * 2 ^ 52 + m.toNat := by
  have hm : m.toNat < 2 ^ 52 := m.isLt
  have he : (0#1 ++ e).toNat = e.toNat := by
    rw [BitVec.toNat_append]
    simp
  show ((0#1 ++ e) ++ m : BitVec 64).toNat = _
  rw [BitVec.toNat_append, ← Nat.shiftLeft_add_eq_or_of_lt hm, Nat.shiftLeft_eq, he]

/-- A mantissa below `2 ^ 53` and a biased exponent are put together by adding them, the
exponent one less; a mantissa below `2 ^ 52` has the least exponent. -/
theorem toNat_pack_finite {m biased : Nat} {e : Int} {hm : 0 < m} (he : e + 1075 = biased)
    (hpos : 0 < biased) (hlt : biased < 2047) (hmlt : m < 2 ^ 53)
    (hsub : m < 2 ^ 52 → biased = 1) :
    (UnpackedFloat.pack Format.binary64 (.finite .positive m e hm)).toNat =
      (biased - 1) * 2 ^ 52 + m := by
  have hbiased : (e + (Format.binary64.exponentBias : Int) + ((52 : Nat) : Int)).toNat =
      biased := by
    have hbias : Format.binary64.exponentBias = 1023 := rfl
    rw [hbias]
    omega
  have hlog : m.log2 + 1 = Format.binary64.mantissaBits ↔ 2 ^ 52 ≤ m := by
    show m.log2 + 1 = 53 ↔ _
    have hlog : m.log2 < 53 := (Nat.log2_lt (by omega)).2 hmlt
    rw [← Nat.le_log2 (by omega)]
    omega
  unfold UnpackedFloat.pack
  dsimp only
  rw [hbiased, if_neg (by omega)]
  by_cases hnormal : 2 ^ 52 ≤ m
  · rw [if_pos (hlog.2 hnormal), toNat_packComponents, BitVec.toNat_ofNat, BitVec.toNat_ofNat]
    omega
  · have hsmall : m < 2 ^ 52 := by omega
    rw [if_neg (fun h => hnormal (hlog.1 h)), toNat_packComponents, BitVec.toNat_ofNat,
      BitVec.toNat_ofNat, hsub hsmall, Nat.mod_eq_of_lt hsmall]

/-! ## Taking a pattern apart and putting it together -/

section Pattern

variable {b : BitVec 64}

/-- The pattern of a finite magnitude: a zero, or a mantissa and an exponent. -/
theorem unpack_finite (h : b.toNat < infinityBits) :
    (b.toNat = 0 ∧ UnpackedFloat.unpack Format.binary64 b = .zero .positive) ∨
      ∃ m e hm biased, UnpackedFloat.unpack Format.binary64 b = .finite .positive m e hm ∧
        e + 1075 = (biased : Nat) ∧ 0 < biased ∧ biased < 2047 ∧ m < 2 ^ 53 ∧
        (m < 2 ^ 52 → biased = 1) ∧ (biased - 1) * 2 ^ 52 + m = b.toNat := by
  have hinf : infinityBits = 2047 * 2 ^ 52 := rfl
  have he := toNat_unpackExponent b
  have hm := toNat_unpackMantissa b
  have hbias : Format.binary64.exponentBias = 1023 := rfl
  have hmax : ¬ @UnpackedFloat.unpackExponent Format.binary64 b = -1#11 := by
    intro heq
    rw [heq] at he
    have hones : (-1#11).toNat = 2047 := rfl
    omega
  unfold UnpackedFloat.unpack
  dsimp only
  rw [sign_unpackSign (by omega), if_neg hmax]
  by_cases hexp : @UnpackedFloat.unpackExponent Format.binary64 b = 0#11
  · rw [if_pos hexp]
    rw [hexp] at he
    have hzero : b.toNat / 2 ^ 52 % 2 ^ 11 = 0 := he.symm
    by_cases hmant : @UnpackedFloat.unpackMantissa Format.binary64 b = 0#52
    · rw [dif_pos hmant]
      rw [hmant] at hm
      have hzero' : b.toNat % 2 ^ 52 = 0 := hm.symm
      exact Or.inl ⟨by omega, rfl⟩
    · rw [dif_neg hmant]
      have hpos : 0 < (@UnpackedFloat.unpackMantissa Format.binary64 b).toNat :=
        Nat.pos_of_ne_zero fun hz => hmant (BitVec.eq_of_toNat_eq hz)
      refine Or.inr ⟨_, _, hpos, 1, rfl, ?_, by omega, by omega, by omega, fun _ => rfl, by omega⟩
      rw [hexp, hbias]
      rfl
  · rw [if_neg hexp]
    have hne : b.toNat / 2 ^ 52 % 2 ^ 11 ≠ 0 := by
      intro heq
      apply hexp
      apply BitVec.eq_of_toNat_eq
      rw [he, heq]
      rfl
    have hmant : (1#1 ++ @UnpackedFloat.unpackMantissa Format.binary64 b).toNat =
        2 ^ 52 + b.toNat % 2 ^ 52 := by
      have hlt := (@UnpackedFloat.unpackMantissa Format.binary64 b).isLt
      rw [BitVec.toNat_append, ← Nat.shiftLeft_add_eq_or_of_lt hlt, hm]
      rfl
    have hpos : 0 < (1#1 ++ @UnpackedFloat.unpackMantissa Format.binary64 b).toNat := by omega
    refine Or.inr
      ⟨_, _, hpos, b.toNat / 2 ^ 52 % 2 ^ 11, rfl, ?_, by omega, by omega, ?_, ?_, ?_⟩
    · rw [he, hbias]
      omega
    · rw [hmant]
      omega
    · rw [hmant]
      omega
    · rw [hmant]
      omega

theorem toNat_pack_unpack (h : b.toNat ≤ infinityBits) :
    (UnpackedFloat.pack Format.binary64 (UnpackedFloat.unpack Format.binary64 b)).toNat =
      b.toNat := by
  rcases Nat.lt_or_eq_of_le h with hlt | heq
  · rcases unpack_finite hlt with
      ⟨hzero, hb⟩ | ⟨m, e, hm, biased, hb, he, hpos, hmax, hmlt, hsub, hsum⟩
    · rw [hb, hzero]
      decide
    · rw [hb, toNat_pack_finite he hpos hmax hmlt hsub, hsum]
  · have hb : b = BitVec.ofNat 64 infinityBits := BitVec.eq_of_toNat_eq heq
    rw [hb]
    decide

end Pattern

/-! ## Magnitudes -/

/-- A number that is not negative, infinity among them. -/
def Magnitude : UnpackedFloat → Prop
  | .infinity .positive | .zero .positive | .finite .positive _ _ _ => True
  | _ => False

namespace Magnitude

variable {u v : UnpackedFloat}

/-- Magnitudes that compare as equal are the same. -/
theorem eq_of_compare (hu : Magnitude u) (hv : Magnitude v) (h : u.compare v = some .eq) :
    u = v := by
  match u, v, hu, hv, h with
  | .infinity .positive, .infinity .positive, _, _, _ => rfl
  | .zero .positive, .zero .positive, _, _, _ => rfl
  | .finite .positive m e _, .finite .positive m' e' _, _, _, h =>
    obtain ⟨he, hm⟩ := Ordering.then_eq_eq.1 (Option.some.inj h)
    obtain rfl := Std.LawfulEqOrd.eq_of_compare he
    obtain rfl := Std.LawfulEqOrd.eq_of_compare hm
    rfl

theorem compare_self (hu : Magnitude u) : u.compare u = some .eq := by
  match u, hu with
  | .infinity .positive, _ => rfl
  | .zero .positive, _ => rfl
  | .finite .positive m e _, _ =>
    exact congrArg some
      (Ordering.then_eq_eq.2 ⟨Std.ReflOrd.compare_self, Std.ReflOrd.compare_self⟩)

theorem of_unpack {b : BitVec 64} (h : b.toNat ≤ infinityBits) :
    Magnitude (UnpackedFloat.unpack Format.binary64 b) := by
  rcases Nat.lt_or_eq_of_le h with hlt | hinf
  · rcases unpack_finite hlt with ⟨-, hb⟩ | ⟨m, e, hm, biased, hb, -⟩
    · rw [hb]
      trivial
    · rw [hb]
      trivial
  · obtain rfl : b = BitVec.ofNat 64 infinityBits := BitVec.eq_of_toNat_eq hinf
    trivial

end Magnitude

/-! ## Doubles -/

theorem toBits_ofBits {bits : Nat} (h : bits ≤ infinityBits) :
    (Float.ofBits (UInt64.ofNat bits)).toBits.toNat = bits := by
  have hinf : infinityBits = 2047 * 2 ^ 52 := rfl
  have hbits : (UInt64.ofNat bits).toBitVec.toNat = bits := by
    show bits % 2 ^ 64 = bits
    omega
  have hpack := toNat_pack_unpack (b := (UInt64.ofNat bits).toBitVec) (by rwa [hbits])
  rw [hbits] at hpack
  exact hpack

/-- Up to infinity, only the pattern of infinity makes an infinite double. -/
theorem isInf_ofBits {bits : Nat} (h : bits ≤ infinityBits) :
    (Float.ofBits (UInt64.ofNat bits)).isInf ↔ bits = infinityBits := by
  have hbits := toBits_ofBits h
  generalize Float.ofBits (UInt64.ofNat bits) = x at hbits
  have hx : x.toBits.toBitVec.toNat = bits := hbits
  show (UnpackedFloat.unpack Format.binary64 x.toBits.toBitVec).isInf ↔ _
  generalize x.toBits.toBitVec = b at hx
  rcases Nat.lt_or_eq_of_le h with hlt | heq
  · have hne : bits ≠ infinityBits := Nat.ne_of_lt hlt
    rcases unpack_finite (hx.symm ▸ hlt) with ⟨-, hb⟩ | ⟨m, e, hm, biased, hb, -⟩
    · rw [hb]
      exact iff_of_false Bool.false_ne_true hne
    · rw [hb]
      exact iff_of_false Bool.false_ne_true hne
  · have hb : b = BitVec.ofNat 64 infinityBits := BitVec.eq_of_toNat_eq (hx.trans heq)
    have hinf : (UnpackedFloat.unpack Format.binary64 (BitVec.ofNat 64 infinityBits)).isInf := by
      decide
    rw [hb]
    exact iff_of_true hinf heq

/-- Up to infinity, doubles are equal as numbers only if they have the same pattern. -/
theorem beq_ofBits {bits bits' : Nat} (h : bits ≤ infinityBits) (h' : bits' ≤ infinityBits) :
    Float.ofBits (UInt64.ofNat bits) == Float.ofBits (UInt64.ofNat bits') ↔ bits = bits' := by
  have hbits := toBits_ofBits h
  have hbits' := toBits_ofBits h'
  generalize Float.ofBits (UInt64.ofNat bits) = x at hbits
  generalize Float.ofBits (UInt64.ofNat bits') = y at hbits'
  have hx : x.toBits.toBitVec.toNat = bits := hbits
  have hy : y.toBits.toBitVec.toNat = bits' := hbits'
  show (UnpackedFloat.unpack Format.binary64 x.toBits.toBitVec).compare
    (UnpackedFloat.unpack Format.binary64 y.toBits.toBitVec) == some .eq ↔ _
  generalize x.toBits.toBitVec = b at hx
  generalize y.toBits.toBitVec = b' at hy
  subst hx hy
  rw [beq_iff_eq]
  constructor
  · intro heq
    have hsame := (Magnitude.of_unpack h).eq_of_compare (.of_unpack h') heq
    rw [← toNat_pack_unpack h, hsame, toNat_pack_unpack h']
  · intro heq
    obtain rfl : b = b' := BitVec.eq_of_toNat_eq heq
    exact (Magnitude.of_unpack h).compare_self

end Lox.Number
