import Mathlib.Data.Nat.Digits.Defs
import Mathlib.Data.Nat.ModEq
import Mathlib.Data.UInt
import Mathlib.Tactic.Common

/-!
# Ones' complement sums

A sum of words of base `w` whose carries are added in again is a residue modulo `w - 1`, with two
representatives of zero: `0` when nothing was added, and `w - 1` else. `onesSum m v` is this
representative for the modulus `m`. Folding a number into a word does not change it
(`onesSum_fold`), and a number of two words is folded twice (`fold_fold`).

For numbers of base `b` and words of two digits the position of a digit counts only modulo two, and
exchanging the two digits of a word is multiplication by `b` (`swapDigits_onesSum`).
-/

namespace Enc28j60Udp

/-- The ones' complement sum of `v` for the modulus `m`. -/
def onesSum (m v : ℕ) : ℕ := if v = 0 then 0 else (v - 1) % m + 1

/-- What overflows a word of base `w` is added in again. -/
def fold (w u : ℕ) : ℕ := u / w + u % w

/-- A word of two digits with its digits exchanged. -/
def swapDigits (b x : ℕ) : ℕ := x % b * b + x / b

section OnesSum

variable {m v u r : ℕ}

@[simp] theorem onesSum_zero : onesSum m 0 = 0 := if_pos rfl

theorem onesSum_of_pos (hv : 0 < v) : onesSum m v = (v - 1) % m + 1 := if_neg hv.ne'

@[simp] theorem onesSum_eq_zero : onesSum m v = 0 ↔ v = 0 := by
  rcases Nat.eq_zero_or_pos v with rfl | hv
  · rw [onesSum_zero]
  · rw [onesSum_of_pos hv]
    exact iff_of_false (Nat.succ_ne_zero _) hv.ne'

theorem onesSum_le (hm : 0 < m) (v : ℕ) : onesSum m v ≤ m := by
  unfold onesSum
  split_ifs
  · exact Nat.zero_le m
  · exact Nat.mod_lt _ hm

theorem onesSum_modEq (m v : ℕ) : onesSum m v ≡ v [MOD m] := by
  unfold onesSum
  split_ifs with hv
  · rw [hv]
  · have h := (Nat.mod_modEq (v - 1) m).add_right 1
    rwa [Nat.sub_add_cancel (Nat.pos_of_ne_zero hv)] at h

/-- The sum is the only word that is congruent, and zero when nothing was added. -/
theorem eq_onesSum (hr : r ≤ m) (hmod : r ≡ v [MOD m]) (hzero : r = 0 ↔ v = 0) :
    r = onesSum m v := by
  rcases Nat.eq_zero_or_pos v with rfl | hv
  · rw [onesSum_zero, hzero]
  · have hr₀ : 0 < r := Nat.pos_of_ne_zero fun h => hv.ne' (hzero.mp h)
    have hpred : r - 1 ≡ v - 1 [MOD m] := by
      refine Nat.ModEq.add_right_cancel' 1 ?_
      rwa [Nat.sub_add_cancel hr₀, Nat.sub_add_cancel hv]
    have hlt : r - 1 < m := by omega
    rw [onesSum_of_pos hv, ← hpred, Nat.mod_eq_of_lt hlt, Nat.sub_add_cancel hr₀]

theorem onesSum_of_le (hv : v ≤ m) : onesSum m v = v := (eq_onesSum hv rfl Iff.rfl).symm

theorem onesSum_congr (hm : 0 < m) (hmod : u ≡ v [MOD m]) (hzero : u = 0 ↔ v = 0) :
    onesSum m u = onesSum m v :=
  eq_onesSum (onesSum_le hm u) ((onesSum_modEq m u).trans hmod) (onesSum_eq_zero.trans hzero)

/-- Sums may be taken of sums. -/
theorem onesSum_add (hm : 0 < m) (u v : ℕ) :
    onesSum m (onesSum m u + onesSum m v) = onesSum m (u + v) := by
  refine onesSum_congr hm ((onesSum_modEq m u).add (onesSum_modEq m v)) ?_
  rw [Nat.add_eq_zero_iff, onesSum_eq_zero, onesSum_eq_zero, Nat.add_eq_zero_iff]

theorem onesSum_add_onesSum (hm : 0 < m) (u v : ℕ) :
    onesSum m (u + onesSum m v) = onesSum m (u + v) := by
  refine onesSum_congr hm ((onesSum_modEq m v).add_left u) ?_
  rw [Nat.add_eq_zero_iff, onesSum_eq_zero, Nat.add_eq_zero_iff]

/-- The sum is the modulus when something was added, and that is a multiple of it. -/
theorem onesSum_eq_self_iff (hm : 0 < m) : onesSum m v = m ↔ 0 < v ∧ m ∣ v := by
  constructor
  · intro h
    refine ⟨Nat.pos_of_ne_zero ?_, ?_⟩
    · rintro rfl
      exact hm.ne (onesSum_zero.symm.trans h)
    · have hmod := onesSum_modEq m v
      rw [h] at hmod
      exact (Nat.modEq_zero_iff_dvd).mp (hmod.symm.trans (Nat.modEq_zero_iff_dvd.mpr dvd_rfl))
  · rintro ⟨hv, hdvd⟩
    refine (eq_onesSum (Nat.le_refl m) ?_ (iff_of_false hm.ne' hv.ne')).symm
    exact (Nat.modEq_zero_iff_dvd.mpr dvd_rfl).trans (Nat.modEq_zero_iff_dvd.mpr hdvd).symm

end OnesSum

/-! ## Folding -/

section Fold

variable {w u v : ℕ}

theorem fold_modEq (hw : 0 < w) (u : ℕ) : fold w u ≡ u [MOD w - 1] := by
  have hu : u = (w - 1) * (u / w) + fold w u := by
    have hdiv := Nat.div_add_mod u w
    have hmul : w * (u / w) = (w - 1) * (u / w) + u / w := by
      rw [← Nat.succ_mul, Nat.succ_eq_add_one, Nat.sub_add_cancel hw]
    unfold fold
    omega
  rw [Nat.ModEq, hu, Nat.mul_add_mod, ← hu]

theorem fold_eq_zero (hw : 0 < w) : fold w u = 0 ↔ u = 0 := by
  rw [fold, Nat.add_eq_zero_iff, Nat.div_eq_zero_iff]
  constructor
  · rintro ⟨rfl | hlt, hmod⟩
    · exact absurd hw (Nat.lt_irrefl 0)
    · rwa [Nat.mod_eq_of_lt hlt] at hmod
  · rintro rfl
    exact ⟨.inr hw, Nat.zero_mod w⟩

theorem onesSum_fold (hw : 1 < w) (u : ℕ) : onesSum (w - 1) (fold w u) = onesSum (w - 1) u :=
  onesSum_congr (Nat.sub_pos_of_lt hw) (fold_modEq (Nat.zero_lt_of_lt hw) u)
    (fold_eq_zero (Nat.zero_lt_of_lt hw))

/-- The sum of two words is folded once. -/
theorem fold_of_le (hw : 1 < w) (hu : u ≤ 2 * (w - 1)) : fold w u = onesSum (w - 1) u := by
  rw [← onesSum_fold hw, onesSum_of_le]
  rcases Nat.lt_or_ge u w with hlt | hge
  · rw [fold, Nat.div_eq_of_lt hlt, Nat.mod_eq_of_lt hlt]
    omega
  · have hdiv : u / w = 1 := Nat.div_eq_of_lt_le (by omega) (by omega)
    rw [fold, hdiv, Nat.mod_eq_sub_mod hge, Nat.mod_eq_of_lt (by omega)]
    omega

/-- A number of two words is folded twice. -/
theorem fold_fold (hw : 1 < w) (hu : u < w * w) : fold w (fold w u) = onesSum (w - 1) u := by
  rw [fold_of_le hw, onesSum_fold hw]
  have hdiv : u / w < w := Nat.div_lt_of_lt_mul hu
  have hmod : u % w < w := Nat.mod_lt u (Nat.zero_lt_of_lt hw)
  unfold fold
  omega

end Fold

/-! ## Digits -/

section Digits

variable {b : ℕ}

theorem sq_modEq_one (hb : 0 < b) : b * b ≡ 1 [MOD b * b - 1] :=
  (Nat.modEq_iff_dvd' (Nat.mul_pos hb hb)).mpr dvd_rfl |>.symm

theorem swapDigits_modEq (hb : 0 < b) (x : ℕ) : swapDigits b x ≡ b * x [MOD b * b - 1] := by
  calc swapDigits b x ≡ x % b * b + b * b * (x / b) [MOD b * b - 1] := by
        have h := (sq_modEq_one hb).mul_right (x / b)
        rw [Nat.one_mul] at h
        exact h.symm.add_left _
    _ = b * x := by
        conv_rhs => rw [← Nat.div_add_mod x b]
        rw [Nat.mul_add, Nat.mul_assoc, Nat.mul_comm (x % b), Nat.add_comm]

/-- Exchanging the digits of a sum is multiplication by the base. -/
theorem swapDigits_onesSum (hb : 1 < b) (v : ℕ) :
    swapDigits b (onesSum (b * b - 1) v) = onesSum (b * b - 1) (b * v) := by
  have hpos : 0 < b := Nat.zero_lt_of_lt hb
  have hsq : 1 < b * b := Nat.one_lt_mul_iff.mpr ⟨hpos, hpos, .inl hb⟩
  set x := onesSum (b * b - 1) v with hx
  have hlt : x < b * b := by
    have hle := onesSum_le (Nat.sub_pos_of_lt hsq) v
    omega
  have hdiv : x / b < b := Nat.div_lt_of_lt_mul hlt
  have hmod : x % b < b := Nat.mod_lt x hpos
  refine eq_onesSum ?_ ?_ ?_
  · have hmul : x % b * b ≤ (b - 1) * b := Nat.mul_le_mul_right b (by omega)
    have hsub : (b - 1) * b + b = b * b := by
      rw [← Nat.succ_mul, Nat.succ_eq_add_one, Nat.sub_add_cancel hpos]
    unfold swapDigits
    omega
  · exact (swapDigits_modEq hpos x).trans ((onesSum_modEq _ v).mul_left b)
  · have hx₀ : x = 0 ↔ v = 0 := onesSum_eq_zero
    rw [Nat.mul_eq_zero, ← hx₀, swapDigits, Nat.add_eq_zero_iff, Nat.mul_eq_zero]
    have hadd := Nat.div_add_mod x b
    constructor
    · rintro ⟨hmod₀ | hb₀, hdiv₀⟩
      · rw [hmod₀, hdiv₀, Nat.mul_zero] at hadd
        exact .inr hadd.symm
      · exact .inl hb₀
    · rintro (hb₀ | hx)
      · exact absurd hb₀ hpos.ne'
      · rw [hx]
        exact ⟨.inl (Nat.zero_mod b), Nat.zero_div b⟩

/-- Two digits further on a number counts the same. -/
theorem onesSum_add_sq_mul (hb : 1 < b) (u v : ℕ) :
    onesSum (b * b - 1) (u + b * b * v) = onesSum (b * b - 1) (u + v) := by
  have hpos : 0 < b := Nat.zero_lt_of_lt hb
  have hsq : 1 < b * b := Nat.one_lt_mul_iff.mpr ⟨hpos, hpos, .inl hb⟩
  refine onesSum_congr (Nat.sub_pos_of_lt hsq) (Nat.ModEq.add_left u ?_) ?_
  · have h := (sq_modEq_one hpos).mul_right v
    rwa [Nat.one_mul] at h
  · rw [Nat.add_eq_zero_iff, Nat.add_eq_zero_iff, Nat.mul_eq_zero,
      or_iff_right (Nat.mul_pos hpos hpos).ne']

/-- A power of the base counts only modulo two. -/
theorem pow_modEq (hb : 0 < b) (n : ℕ) : b ^ n ≡ b ^ (n % 2) [MOD b * b - 1] := by
  have hpow : (b * b) ^ (n / 2) * b ^ (n % 2) = b ^ n := by
    rw [← Nat.pow_two, ← Nat.pow_mul, ← Nat.pow_add, Nat.div_add_mod]
  have hsq := ((sq_modEq_one hb).pow (n / 2)).mul_right (b ^ (n % 2))
  rwa [hpow, Nat.one_pow, Nat.one_mul] at hsq

/-- Two numbers count the same at places that agree modulo two. -/
theorem onesSum_pow_mul_add (hb : 1 < b) {i i' j j' : ℕ} (hi : i % 2 = i' % 2)
    (hj : j % 2 = j' % 2) (u v : ℕ) :
    onesSum (b * b - 1) (b ^ i * u + b ^ j * v) =
      onesSum (b * b - 1) (b ^ i' * u + b ^ j' * v) := by
  have hpos : 0 < b := Nat.zero_lt_of_lt hb
  have hsq : 1 < b * b := Nat.one_lt_mul_iff.mpr ⟨hpos, hpos, .inl hb⟩
  have hpow {k k' : ℕ} (hk : k % 2 = k' % 2) (x : ℕ) : b ^ k * x ≡ b ^ k' * x [MOD b * b - 1] := by
    have h := pow_modEq hpos k
    rw [hk] at h
    exact (h.trans (pow_modEq hpos k').symm).mul_right x
  have hzero (k x : ℕ) : b ^ k * x = 0 ↔ x = 0 := by
    rw [Nat.mul_eq_zero, or_iff_right (Nat.pow_pos hpos).ne']
  refine onesSum_congr (Nat.sub_pos_of_lt hsq) ((hpow hi u).add (hpow hj v)) ?_
  rw [Nat.add_eq_zero_iff, Nat.add_eq_zero_iff, hzero, hzero, hzero, hzero]

end Digits

/-! ## Bytes -/

/-- The value of bytes, the low one first. -/
def littleEndian (bs : List UInt8) : ℕ := Nat.ofDigits 256 (bs.map UInt8.toNat)

/-- The ones' complement sum of the words of 16 bits. -/
def wordSum (bs : List UInt8) : ℕ := onesSum 65535 (littleEndian bs)

section Bytes

variable {xs ys zs : List UInt8}

@[simp] theorem littleEndian_nil : littleEndian [] = 0 := rfl

@[simp] theorem littleEndian_cons (b : UInt8) (bs : List UInt8) :
    littleEndian (b :: bs) = b.toNat + 256 * littleEndian bs := Nat.ofDigits_cons

theorem littleEndian_append (xs ys : List UInt8) :
    littleEndian (xs ++ ys) = littleEndian xs + 256 ^ xs.length * littleEndian ys := by
  rw [littleEndian, List.map_append, Nat.ofDigits_append, List.length_map, littleEndian,
    littleEndian]

theorem wordSum_le (bs : List UInt8) : wordSum bs ≤ 65535 := onesSum_le (by decide) _

/-- The place of a byte counts only modulo two. -/
theorem onesSum_littleEndian_append (i : ℕ) (xs ys : List UInt8) {j : ℕ}
    (hj : j % 2 = (i + xs.length) % 2) :
    onesSum 65535 (256 ^ i * littleEndian (xs ++ ys)) =
      onesSum 65535 (256 ^ (i % 2) * littleEndian xs + 256 ^ j * littleEndian ys) := by
  rw [littleEndian_append, Nat.mul_add, ← Nat.mul_assoc, ← Nat.pow_add]
  exact onesSum_pow_mul_add (by decide : 1 < 256) (by omega) hj.symm _ _

theorem wordSum_cons_cons (b₀ b₁ : UInt8) (bs : List UInt8) :
    wordSum (b₀ :: b₁ :: bs) = onesSum 65535 (b₀.toNat + 256 * b₁.toNat + wordSum bs) := by
  have hsq := onesSum_add_sq_mul (by decide : 1 < 256) (b₀.toNat + 256 * b₁.toNat)
    (littleEndian bs)
  rw [wordSum, littleEndian_cons, littleEndian_cons, Nat.mul_add, ← Nat.mul_assoc, ← Nat.add_assoc,
    wordSum, onesSum_add_onesSum (by decide)]
  exact hsq

/-- The sum of two parts, the first of whole words. -/
theorem wordSum_append_of_even (hxs : xs.length % 2 = 0) (ys : List UInt8) :
    wordSum (xs ++ ys) = onesSum 65535 (wordSum xs + wordSum ys) := by
  have h := @onesSum_littleEndian_append 0 xs ys 0 (by omega)
  rw [Nat.pow_zero, Nat.one_mul, Nat.one_mul, Nat.one_mul] at h
  rw [wordSum, h, wordSum, wordSum, onesSum_add (by decide)]

/-- A word that was zero is set. -/
theorem wordSum_set_word (hxs : xs.length % 2 = 0) (b₀ b₁ : UInt8) (ys : List UInt8) :
    wordSum (xs ++ b₀ :: b₁ :: ys) =
      onesSum 65535 (wordSum (xs ++ 0 :: 0 :: ys) + (b₀.toNat + 256 * b₁.toNat)) := by
  have hm : 0 < 65535 := by decide
  rw [wordSum_append_of_even hxs, wordSum_append_of_even hxs, wordSum_cons_cons, wordSum_cons_cons,
    onesSum_add_onesSum hm, onesSum_add_onesSum hm, Nat.add_comm (onesSum _ _),
    onesSum_add_onesSum hm, UInt8.toNat_zero]
  congr 1
  omega

end Bytes

end Enc28j60Udp
