import Mathlib.Data.EReal.Operations
import Mathlib.Data.Nat.Bitwise
import RecordStore.Proofs.Key
/-!
# The order of float keys

A double is told from its pattern by sign and magnitude. `Binary64.Precedes` orders patterns that
way, `Binary64.band` says where in that order zeros, infinities and NaNs stand
(`precedes_iff_band`), and `Binary64.value?` is the number that a pattern stands for, none for a
NaN.

A float key holds the rank of a pattern (`Key.rank`), and the rank is an isomorphism from that order
onto the order of 64-bit numbers: it can be undone, and no number is left out. So float keys are
ordered as numbers are, but for `-0.0`, which comes before `+0.0` (`Key.ofBits_isomorphism`).
-/

namespace RecordStore

namespace Binary64

/-- Whether a pattern comes before another one by sign and magnitude. Among negative patterns the
larger magnitude comes first. -/
def Precedes (x y : UInt64) : Prop :=
  match isNegative x, isNegative y with
  | true, true => magnitude y < magnitude x
  | true, false => True
  | false, true => False
  | false, false => magnitude x < magnitude y

/-- The kinds of pattern, in their order. -/
inductive Band where
  | negativeNan
  | negativeInfinity
  | negative
  | negativeZero
  | positiveZero
  | positive
  | positiveInfinity
  | positiveNan
  deriving DecidableEq

/-- The place of a band in the order. -/
def Band.place : Band → Nat
  | .negativeNan => 0
  | .negativeInfinity => 1
  | .negative => 2
  | .negativeZero => 3
  | .positiveZero => 4
  | .positive => 5
  | .positiveInfinity => 6
  | .positiveNan => 7

def band (bits : UInt64) : Band :=
  match isNegative bits, classify (magnitude bits) with
  | true, .nan => .negativeNan
  | true, .infinite => .negativeInfinity
  | true, .finite 0 _ => .negativeZero
  | true, .finite _ _ => .negative
  | false, .finite 0 _ => .positiveZero
  | false, .finite _ _ => .positive
  | false, .infinite => .positiveInfinity
  | false, .nan => .positiveNan

/-- The absolute value of a magnitude. -/
noncomputable def absolute? (magnitude : Nat) : Option EReal :=
  match classify magnitude with
  | .finite significand place => some ((significand * 2 ^ place / 2 ^ 1074 : ℝ) : EReal)
  | .infinite => some ⊤
  | .nan => none

/-- The number that a pattern stands for. Both zeros stand for the same one. -/
noncomputable def value? (bits : UInt64) : Option EReal :=
  (absolute? (magnitude bits)).map fun v => if isNegative bits then -v else v

/-! ## Magnitudes -/

/-- A finite magnitude in units of the smallest positive double. -/
def units (magnitude : Nat) : Nat :=
  if magnitude < 2 ^ 52 then magnitude
  else (2 ^ 52 + magnitude % 2 ^ 52) * 2 ^ (magnitude / 2 ^ 52 - 1)

/-- A fraction that overflows carries into the exponent, so the next magnitude is always the larger
one. -/
theorem units_lt_succ (m : Nat) : units m < units (m + 1) := by
  unfold units
  by_cases hm : m + 1 < 2 ^ 52
  · rw [if_pos (by omega), if_pos hm]
    omega
  by_cases hfirst : m + 1 = 2 ^ 52
  · rw [if_pos (by omega), hfirst]
    norm_num
    omega
  rw [if_neg (by omega), if_neg hm]
  obtain ⟨e, he⟩ : ∃ e, m / 2 ^ 52 = e + 1 := ⟨m / 2 ^ 52 - 1, by omega⟩
  have hpos : 0 < 2 ^ e := Nat.two_pow_pos e
  by_cases hcarry : m % 2 ^ 52 + 1 < 2 ^ 52
  · have hfraction : (m + 1) % 2 ^ 52 = m % 2 ^ 52 + 1 := by omega
    have hexponent : (m + 1) / 2 ^ 52 = e + 1 := by omega
    rw [hfraction, hexponent, he, Nat.add_sub_cancel]
    exact Nat.mul_lt_mul_of_pos_right (by omega) hpos
  · have hfraction : (m + 1) % 2 ^ 52 = 0 := by omega
    have hexponent : (m + 1) / 2 ^ 52 = e + 2 := by omega
    have hfull : m % 2 ^ 52 = 2 ^ 52 - 1 := by omega
    have hdouble : 2 ^ (e + 1) = 2 * 2 ^ e := by rw [Nat.pow_succ, Nat.mul_comm]
    rw [hfraction, hexponent, he, hfull, Nat.add_sub_cancel, show e + 2 - 1 = e + 1 from rfl, hdouble]
    omega

theorem strictMono_units : StrictMono units :=
  strictMono_nat_of_lt_succ units_lt_succ

/-- The four kinds of magnitude. -/
theorem classify_cases (m : Nat) :
    (m = 0 ∧ classify m = .finite 0 0) ∨
      (0 < m ∧ m < infinity ∧ ∃ significand place, significand ≠ 0 ∧
        classify m = .finite significand place ∧ significand * 2 ^ place = units m) ∨
      (m = infinity ∧ classify m = .infinite) ∨
      (infinity < m ∧ classify m = .nan) := by
  have hinfinity : infinity = 2047 * 2 ^ 52 := rfl
  have hpow : Nat.pow 2 52 = 2 ^ 52 := rfl
  unfold classify
  rw [hpow]
  by_cases hsubnormal : m < 2 ^ 52
  · rw [if_pos hsubnormal]
    by_cases hzero : m = 0
    · exact .inl ⟨hzero, hzero ▸ rfl⟩
    · refine .inr (.inl ⟨by omega, by omega, m, 0, hzero, rfl, ?_⟩)
      rw [units, if_pos hsubnormal, Nat.pow_zero, Nat.mul_one]
  rw [if_neg hsubnormal]
  by_cases hfinite : m < infinity
  · rw [if_pos hfinite]
    refine .inr (.inl ⟨by omega, hfinite, _, _, by omega, rfl, ?_⟩)
    rw [units, if_neg hsubnormal]
  rw [if_neg hfinite]
  by_cases hinfinite : m = infinity
  · rw [if_pos hinfinite]
    exact .inr (.inr (.inl ⟨hinfinite, rfl⟩))
  · rw [if_neg hinfinite]
    exact .inr (.inr (.inr ⟨by omega, rfl⟩))

theorem absolute?_eq (m : Nat) :
    absolute? m =
      if m < infinity then some ((units m / 2 ^ 1074 : ℝ) : EReal)
      else if m = infinity then some ⊤ else none := by
  unfold absolute?
  rcases classify_cases m with ⟨rfl, hm⟩ | ⟨-, hlt, s, e, -, hm, hunits⟩ | ⟨rfl, hm⟩ | ⟨hgt, hm⟩
  · rw [hm, if_pos (show 0 < infinity by decide)]
    norm_num [units]
  · rw [hm, if_pos hlt, ← hunits]
    push_cast
    rfl
  · rw [hm, if_neg (lt_irrefl _), if_pos rfl]
  · rw [hm, if_neg (by omega), if_neg (by omega)]

variable {m n : Nat} {a b : EReal}

theorem lt_of_absolute? (ha : absolute? m = some a) (hb : absolute? n = some b) (h : m < n) :
    a < b := by
  rw [absolute?_eq] at ha hb
  by_cases hn : n < infinity
  · rw [if_pos (h.trans hn)] at ha
    rw [if_pos hn] at hb
    cases ha
    cases hb
    have hunits : (units m : ℝ) < units n := Nat.cast_lt.2 (strictMono_units h)
    exact EReal.coe_lt_coe_iff.2 (div_lt_div_of_pos_right hunits (by positivity))
  · rw [if_neg hn] at hb
    by_cases hinfinite : n = infinity
    · rw [if_pos hinfinite] at hb
      rw [if_pos (hinfinite ▸ h)] at ha
      cases ha
      cases hb
      exact EReal.coe_lt_top _
    · rw [if_neg hinfinite] at hb
      cases hb

theorem absolute?_lt_iff (ha : absolute? m = some a) (hb : absolute? n = some b) : a < b ↔ m < n := by
  refine ⟨fun hab => ?_, lt_of_absolute? ha hb⟩
  rcases lt_trichotomy m n with hlt | rfl | hgt
  · exact hlt
  · rw [ha, Option.some.injEq] at hb
    exact absurd (hb ▸ hab) (lt_irrefl a)
  · exact absurd (lt_of_absolute? hb ha hgt) hab.not_gt

theorem absolute?_zero : absolute? 0 = some 0 := by
  rw [absolute?_eq, if_pos (show 0 < infinity by decide)]
  norm_num [units]

theorem absolute?_nonneg (ha : absolute? m = some a) : 0 ≤ a := by
  rw [← not_lt, absolute?_lt_iff ha absolute?_zero]
  exact Nat.not_lt_zero m

theorem absolute?_pos_iff (ha : absolute? m = some a) : 0 < a ↔ m ≠ 0 := by
  rw [absolute?_lt_iff absolute?_zero ha]
  exact Nat.pos_iff_ne_zero

/-! ## Patterns -/

variable {x y : UInt64}

theorem isNegative_iff : isNegative x = true ↔ 2 ^ 63 ≤ x.toNat :=
  decide_eq_true_iff

theorem isNegative_eq_false_iff : isNegative x = false ↔ x.toNat < 2 ^ 63 := by
  rw [← Bool.not_eq_true, isNegative_iff, Nat.not_le]

theorem magnitude_eq (x : UInt64) : magnitude x = x.toNat % 2 ^ 63 := rfl

/-- How far the band of a magnitude is from that of zero. -/
def tier (magnitude : Nat) : Nat :=
  if magnitude = 0 then 0 else if magnitude < infinity then 1 else if magnitude = infinity then 2 else 3

theorem tier_le (m : Nat) : tier m ≤ 3 := by
  unfold tier
  split_ifs <;> omega

theorem tier_eq_zero_iff : tier m = 0 ↔ m = 0 := by
  unfold tier
  split_ifs with hzero <;> simp [hzero]

theorem tier_le_tier (h : m ≤ n) : tier m ≤ tier n := by
  unfold tier
  split_ifs <;> omega

/-- Magnitudes are ordered by their tiers first. -/
theorem lt_iff_tier (m n : Nat) : m < n ↔ tier m < tier n ∨ tier m = tier n ∧ m < n := by
  have hup : m ≤ n → tier m ≤ tier n := tier_le_tier
  have hdown : n ≤ m → tier n ≤ tier m := tier_le_tier
  omega

theorem place_band (x : UInt64) :
    (band x).place = if isNegative x then 3 - tier (magnitude x) else 4 + tier (magnitude x) := by
  have hinfinity : 0 < infinity := by decide
  unfold band
  rcases classify_cases (magnitude x) with
    ⟨hzero, hclass⟩ | ⟨hpos, hlt, s, e, hs, hclass, -⟩ | ⟨heq, hclass⟩ | ⟨hgt, hclass⟩
  · have htier : tier (magnitude x) = 0 := tier_eq_zero_iff.2 hzero
    rw [hclass, htier]
    cases isNegative x <;> rfl
  · have htier : tier (magnitude x) = 1 := by
      rw [tier, if_neg (Nat.ne_of_gt hpos), if_pos hlt]
    obtain ⟨s, rfl⟩ := Nat.exists_eq_succ_of_ne_zero hs
    rw [hclass, htier]
    cases isNegative x <;> rfl
  · have htier : tier (magnitude x) = 2 := by
      rw [tier, heq, if_neg (Nat.ne_of_gt hinfinity), if_neg (lt_irrefl _), if_pos rfl]
    rw [hclass, htier]
    cases isNegative x <;> rfl
  · have htier : tier (magnitude x) = 3 := by
      rw [tier, if_neg (by omega), if_neg (by omega), if_neg (by omega)]
    rw [hclass, htier]
    cases isNegative x <;> rfl

theorem Band.place_inj {s t : Band} : s.place = t.place ↔ s = t := by
  cases s <;> cases t <;> decide

theorem band_eq_negativeZero_iff :
    band x = .negativeZero ↔ isNegative x = true ∧ magnitude x = 0 := by
  have hle := tier_le (magnitude x)
  rw [← Band.place_inj, place_band, Band.place, ← tier_eq_zero_iff]
  cases isNegative x <;> simp <;> omega

theorem band_eq_positiveZero_iff :
    band x = .positiveZero ↔ isNegative x = false ∧ magnitude x = 0 := by
  have hle := tier_le (magnitude x)
  rw [← Band.place_inj, place_band, Band.place, ← tier_eq_zero_iff]
  cases isNegative x <;> simp
  omega

/-- The order by sign and magnitude is the order of the bands, and within a band that of the
magnitudes, the other way round below zero. -/
theorem precedes_iff_band (x y : UInt64) :
    Precedes x y ↔ (band x).place < (band y).place ∨ band x = band y ∧
      if isNegative x then magnitude y < magnitude x else magnitude x < magnitude y := by
  have hx := tier_le (magnitude x)
  have hy := tier_le (magnitude y)
  have hup := lt_iff_tier (magnitude x) (magnitude y)
  have hdown := lt_iff_tier (magnitude y) (magnitude x)
  rw [← Band.place_inj, place_band, place_band]
  unfold Precedes
  cases isNegative x <;> cases isNegative y <;>
    simp only [Bool.false_eq_true, if_true, if_false, true_iff, false_iff] <;> omega

theorem value?_eq_some_iff {v : EReal} :
    value? x = some v ↔ ∃ a, absolute? (magnitude x) = some a ∧ (if isNegative x then -a else a) = v :=
  Option.map_eq_some_iff

/-- Exactly the NaNs stand for no number. -/
theorem value?_eq_none_iff :
    value? x = none ↔ band x = .negativeNan ∨ band x = .positiveNan := by
  have hle := tier_le (magnitude x)
  have htier : absolute? (magnitude x) = none ↔ tier (magnitude x) = 3 := by
    have hpos : 0 < infinity := by decide
    rw [absolute?_eq, tier]
    split_ifs <;> simp
    all_goals omega
  rw [value?, Option.map_eq_none_iff, htier, ← Band.place_inj, ← Band.place_inj, place_band]
  cases isNegative x <;> simp [Band.place] <;> omega

/-- Patterns are ordered as the numbers that they stand for, but that the negative zero comes before
the positive one. -/
theorem precedes_iff_value? {v w : EReal} (hv : value? x = some v) (hw : value? y = some w) :
    Precedes x y ↔ v < w ∨ band x = .negativeZero ∧ band y = .positiveZero := by
  obtain ⟨a, ha, rfl⟩ := value?_eq_some_iff.1 hv
  obtain ⟨b, hb, rfl⟩ := value?_eq_some_iff.1 hw
  have ha0 := absolute?_nonneg ha
  have hb0 := absolute?_nonneg hb
  rw [band_eq_negativeZero_iff, band_eq_positiveZero_iff]
  unfold Precedes
  cases isNegative x <;> cases isNegative y <;>
    simp only [Bool.false_eq_true, if_true, if_false, true_and, false_and, and_false, or_false,
      reduceCtorEq]
  · exact (absolute?_lt_iff ha hb).symm
  · exact iff_of_false id (not_lt.2 ((EReal.neg_le_zero.2 hb0).trans ha0))
  · refine iff_of_true trivial ?_
    by_cases hx : magnitude x = 0
    · by_cases hy : magnitude y = 0
      · exact .inr ⟨hx, hy⟩
      · exact .inl ((EReal.neg_le_zero.2 ha0).trans_lt ((absolute?_pos_iff hb).2 hy))
    · exact .inl ((EReal.neg_lt_zero.2 ((absolute?_pos_iff ha).2 hx)).trans_le hb0)
  · rw [EReal.neg_lt_neg_iff]
    exact (absolute?_lt_iff hb ha).symm

end Binary64

namespace Key

open Binary64

/-! ## Ranks -/

/-- The rank of a pattern among all patterns. -/
def rank (bits : UInt64) : UInt64 :=
  if bits &&& signBit ≠ 0 then ~~~bits else bits ^^^ signBit

/-- The pattern of a rank. -/
def unrank (rank : UInt64) : UInt64 :=
  if rank &&& signBit ≠ 0 then rank ^^^ signBit else ~~~rank

theorem ofBits_eq (bits : UInt64) : ofBits bits = .float (rank bits) := rfl

theorem bits?_float (rank : UInt64) : bits? (.float rank) = some (unrank rank) := rfl

theorem and_signBit_ne_zero_iff (bits : UInt64) : bits &&& signBit ≠ 0 ↔ 2 ^ 63 ≤ bits.toNat := by
  have hlt := bits.toNat_lt
  have hand : (bits &&& signBit).toNat = (bits.toNat.testBit 63).toNat * 2 ^ 63 := by
    rw [UInt64.toNat_and]
    exact Nat.and_two_pow bits.toNat 63
  rw [ne_eq, ← UInt64.toNat_inj, hand, Nat.testBit_eq_decide_div_mod_eq]
  by_cases hbit : bits.toNat / 2 ^ 63 % 2 = 1
  · simp only [hbit]
    simp
    omega
  · simp only [hbit]
    simp
    omega

theorem toNat_xor_signBit (bits : UInt64) :
    (bits ^^^ signBit).toNat =
      if 2 ^ 63 ≤ bits.toNat then bits.toNat - 2 ^ 63 else bits.toNat + 2 ^ 63 := by
  have hlt := bits.toNat_lt
  have hxor : (bits ^^^ signBit).toNat = bits.toNat ^^^ 2 ^ 63 := UInt64.toNat_xor bits signBit
  have hlow : (bits.toNat ^^^ 2 ^ 63) % 2 ^ 63 = bits.toNat % 2 ^ 63 := by
    rw [Nat.xor_mod_two_pow, Nat.mod_self, Nat.xor_zero]
  have hhigh : (bits.toNat ^^^ 2 ^ 63) / 2 ^ 63 = bits.toNat / 2 ^ 63 ^^^ 1 := Nat.xor_div_two_pow
  rw [hxor]
  by_cases hneg : 2 ^ 63 ≤ bits.toNat
  · have hone : bits.toNat / 2 ^ 63 = 1 := by omega
    rw [hone, Nat.xor_self] at hhigh
    rw [if_pos hneg]
    omega
  · have hzero : bits.toNat / 2 ^ 63 = 0 := by omega
    rw [hzero, Nat.zero_xor] at hhigh
    rw [if_neg hneg]
    omega

theorem toNat_rank (bits : UInt64) :
    (rank bits).toNat =
      if 2 ^ 63 ≤ bits.toNat then 2 ^ 64 - 1 - bits.toNat else bits.toNat + 2 ^ 63 := by
  unfold rank
  by_cases hneg : 2 ^ 63 ≤ bits.toNat
  · rw [if_pos ((and_signBit_ne_zero_iff bits).2 hneg), if_pos hneg]
    exact UInt64.toNat_not bits
  · rw [if_neg (mt (and_signBit_ne_zero_iff bits).1 hneg), if_neg hneg, toNat_xor_signBit, if_neg hneg]

theorem toNat_unrank (rank : UInt64) :
    (unrank rank).toNat =
      if 2 ^ 63 ≤ rank.toNat then rank.toNat - 2 ^ 63 else 2 ^ 64 - 1 - rank.toNat := by
  unfold unrank
  by_cases htop : 2 ^ 63 ≤ rank.toNat
  · rw [if_pos ((and_signBit_ne_zero_iff rank).2 htop), if_pos htop, toNat_xor_signBit, if_pos htop]
  · rw [if_neg (mt (and_signBit_ne_zero_iff rank).1 htop), if_neg htop]
    exact UInt64.toNat_not rank

theorem unrank_rank (bits : UInt64) : unrank (rank bits) = bits := by
  have hlt := bits.toNat_lt
  rw [← UInt64.toNat_inj, toNat_unrank, toNat_rank]
  split_ifs <;> omega

theorem rank_unrank (r : UInt64) : rank (unrank r) = r := by
  have hlt := r.toNat_lt
  rw [← UInt64.toNat_inj, toNat_rank, toNat_unrank]
  split_ifs <;> omega

theorem rank_lt_rank_iff (x y : UInt64) : rank x < rank y ↔ Precedes x y := by
  have hx := x.toNat_lt
  have hy := y.toNat_lt
  rw [UInt64.lt_iff_toNat_lt, toNat_rank, toNat_rank]
  unfold Precedes
  rw [magnitude_eq, magnitude_eq]
  cases hxneg : isNegative x <;> cases hyneg : isNegative y <;>
    simp only [isNegative_iff, isNegative_eq_false_iff] at hxneg hyneg <;>
    split_ifs <;> simp only [iff_true, iff_false] <;> omega

theorem ofBits_inj {x y : UInt64} : ofBits x = ofBits y ↔ x = y := by
  rw [ofBits_eq, ofBits_eq, Key.float.injEq]
  exact ⟨fun h => by rw [← unrank_rank x, h, unrank_rank], congrArg rank⟩

theorem float_lt_float_iff (r s : UInt64) : Key.float r < Key.float s ↔ r < s := by
  rw [lt_iff_compare, compare_float]
  exact Std.compare_eq_lt

/-- Float keys are the doubles in the order by sign and magnitude. A pattern can be read back from
its key, and every float key is that of one pattern; keys are ordered as their patterns are: from
the negative NaNs over the negative infinity, the negative numbers and the two zeros to the positive
numbers, the positive infinity and the positive NaNs. On numbers this is the order of the numbers
themselves, but for the two zeros. -/
theorem ofBits_isomorphism (x y : UInt64) :
    (ofBits x).bits? = some x ∧
      (∀ r, ∃! bits, ofBits bits = .float r) ∧
      (ofBits x < ofBits y ↔ Precedes x y) ∧
      (Precedes x y ↔ (band x).place < (band y).place ∨ band x = band y ∧
        if isNegative x then magnitude y < magnitude x else magnitude x < magnitude y) ∧
      (value? x = none ↔ band x = .negativeNan ∨ band x = .positiveNan) ∧
      ∀ v w, value? x = some v → value? y = some w →
        (ofBits x < ofBits y ↔ v < w ∨ band x = .negativeZero ∧ band y = .positiveZero) := by
  have hlt : ofBits x < ofBits y ↔ Precedes x y :=
    (float_lt_float_iff (rank x) (rank y)).trans (rank_lt_rank_iff x y)
  refine ⟨?_, fun r => ?_, hlt, precedes_iff_band x y, value?_eq_none_iff, fun v w hv hw => ?_⟩
  · rw [ofBits_eq, bits?_float, unrank_rank]
  · refine ⟨unrank r, congrArg Key.float (rank_unrank r), fun bits hbits => ?_⟩
    have hrank : rank bits = r := Key.float.inj hbits
    rw [← hrank, unrank_rank]
  · rw [hlt]
    exact precedes_iff_value? hv hw

/-- Minus one and a half and two. -/
theorem ofBits_isomorphism_numbers :
    value? 0xbff8000000000000 = some ((-1.5 : ℝ) : EReal) ∧
      value? 0x4000000000000000 = some ((2 : ℝ) : EReal) ∧
      (ofBits 0xbff8000000000000 < ofBits 0x4000000000000000 ↔
        ((-1.5 : ℝ) : EReal) < ((2 : ℝ) : EReal) ∨ band 0xbff8000000000000 = .negativeZero ∧
          band 0x4000000000000000 = .positiveZero) := by
  have hscale (s : ℝ) (e f : Nat) : s * 2 ^ e / 2 ^ (f + e) = s / 2 ^ f := by
    rw [pow_add, mul_div_mul_right _ _ (by positivity)]
  have hleft : value? 0xbff8000000000000 = some ((-1.5 : ℝ) : EReal) := by
    have hclass : classify (magnitude 0xbff8000000000000) = .finite (2 ^ 52 + 2 ^ 51) 1022 := by
      decide +kernel
    have hneg : isNegative 0xbff8000000000000 = true := by decide
    rw [value?_eq_some_iff, absolute?, hclass]
    refine ⟨_, rfl, ?_⟩
    rw [if_pos hneg, ← EReal.coe_neg, hscale _ 1022 52]
    norm_num
  have hright : value? 0x4000000000000000 = some ((2 : ℝ) : EReal) := by
    have hclass : classify (magnitude 0x4000000000000000) = .finite (2 ^ 52) 1023 := by decide +kernel
    have hneg : ¬ isNegative 0x4000000000000000 = true := by decide
    rw [value?_eq_some_iff, absolute?, hclass]
    refine ⟨_, rfl, ?_⟩
    rw [if_neg hneg, hscale _ 1023 51]
    norm_num
  exact ⟨hleft, hright, (ofBits_isomorphism _ _).2.2.2.2.2 _ _ hleft hright⟩

end Key

end RecordStore
