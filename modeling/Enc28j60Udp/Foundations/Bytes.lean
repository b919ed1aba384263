import Mathlib.Data.UInt
import Mathlib.Tactic.Common

/-!
# Bytes

Facts about bytes as counters, which count as long as they do not wrap, and as sets of bits, which
masks take apart.
-/

namespace Enc28j60Udp

theorem forall_byte {p : UInt8 → Prop} (h : ∀ n < 256, p (UInt8.ofNat n)) (a : UInt8) : p a := by
  have ha := h a.toNat a.toNat_lt
  rwa [UInt8.ofNat_toNat] at ha

/-- A counter that is not at its end. -/
theorem toNat_add_one {e : UInt8} (h : e.toNat + 1 < 256) : (e + 1).toNat = e.toNat + 1 := by
  rw [UInt8.toNat_add]
  exact Nat.mod_eq_of_lt h

/-- A counter that stops at zero. -/
theorem toNat_sub_one (e : UInt8) : (if e = 0 then 0 else e - 1 : UInt8).toNat = e.toNat - 1 := by
  split_ifs with h
  · rw [h]
    rfl
  · have hpos : e.toNat ≠ 0 := fun h₀ => h (UInt8.toNat_inj.mp h₀)
    have hle : (1 : UInt8) ≤ e := by
      rw [UInt8.le_iff_toNat_le]
      exact Nat.one_le_iff_ne_zero.mpr hpos
    exact UInt8.toNat_sub_of_le _ _ hle

theorem or_and_distrib (a b c : UInt8) : (a ||| b) &&& c = (a &&& c) ||| (b &&& c) := by
  rw [← UInt8.toBitVec_inj]
  simp only [UInt8.toBitVec_and, UInt8.toBitVec_or, BitVec.and_or_distrib_right]

theorem and_not_of_disjoint {a d m : UInt8} (h : d &&& m = 0) : a &&& ~~~d &&& m = a &&& m := by
  rw [← UInt8.toBitVec_inj] at h ⊢
  ext i hi
  have hbit := congrArg (fun v => v[i]) h
  simp only [UInt8.toBitVec_and, UInt8.toBitVec_not, BitVec.getElem_and, BitVec.getElem_not] at *
  cases hd : d.toBitVec[i] <;> simp_all

end Enc28j60Udp
