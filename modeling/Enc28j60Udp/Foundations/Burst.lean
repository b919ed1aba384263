import Enc28j60Udp.Foundations.OnesSum
import Mathlib.Data.Nat.GCD.Basic

/-!
# Bursts of errors

A burst changes at most two adjacent bytes. The ones' complement sum of words sees every burst but
the exchange of `0x0000` and `0xffff`, the two representatives of zero, wherever it is
(`Burst.eq_of_wordSum_eq`). What is cut out of two lists that differ by a burst differs by one.
-/

namespace Enc28j60Udp

/-- The lists differ in at most two adjacent bytes, and not by the two representatives of zero. -/
def Burst (xs ys : List UInt8) : Prop :=
  ∃ pre us vs post, xs = pre ++ us ++ post ∧ ys = pre ++ vs ++ post ∧ us.length = vs.length ∧
    us.length ≤ 2 ∧ ¬(us = [0, 0] ∧ vs = [255, 255]) ∧ ¬(us = [255, 255] ∧ vs = [0, 0])

section Burst

variable {xs ys us vs : List UInt8}

theorem Burst.length_eq (h : Burst xs ys) : xs.length = ys.length := by
  obtain ⟨pre, us, vs, post, rfl, rfl, hlen, -⟩ := h
  simp only [List.length_append, hlen]

theorem Burst.append_left (h : Burst xs ys) (zs : List UInt8) : Burst (zs ++ xs) (zs ++ ys) := by
  obtain ⟨pre, us, vs, post, rfl, rfl, h⟩ := h
  exact ⟨zs ++ pre, us, vs, post, by simp, by simp, h⟩

/-- A part of the two bytes is all of them, or at most one. -/
theorem Burst.of_part {us' vs' : List UInt8} (pre post : List UInt8)
    (hlen : us.length = vs.length) (htwo : us.length ≤ 2)
    (hne : ¬(us = [0, 0] ∧ vs = [255, 255])) (hne' : ¬(us = [255, 255] ∧ vs = [0, 0]))
    (hlen' : us'.length = vs'.length)
    (hpart : us' = us ∧ vs' = vs ∨ us'.length ≤ 1) :
    Burst (pre ++ us' ++ post) (pre ++ vs' ++ post) := by
  refine ⟨pre, us', vs', post, rfl, rfl, hlen', ?_⟩
  rcases hpart with ⟨rfl, rfl⟩ | hone
  · exact ⟨htwo, hne, hne'⟩
  · refine ⟨by omega, ?_, ?_⟩
    · rintro ⟨rfl, -⟩
      exact absurd hone (by decide)
    · rintro ⟨rfl, -⟩
      exact absurd hone (by decide)

theorem Burst.take (h : Burst xs ys) (n : ℕ) : Burst (xs.take n) (ys.take n) := by
  obtain ⟨pre, us, vs, post, rfl, rfl, hlen, htwo, hne, hne'⟩ := h
  have hxs : (pre ++ us ++ post).take n = pre.take n ++ us.take (n - pre.length) ++
      post.take (n - (pre ++ us).length) := by rw [List.take_append, List.take_append]
  have hys : (pre ++ vs ++ post).take n = pre.take n ++ vs.take (n - pre.length) ++
      post.take (n - (pre ++ us).length) := by
    rw [List.take_append, List.take_append, List.length_append, List.length_append, hlen]
  rw [hxs, hys]
  refine Burst.of_part _ _ hlen htwo hne hne' (by simp [hlen]) ?_
  by_cases hn : us.length ≤ n - pre.length
  · exact .inl ⟨List.take_of_length_le hn, List.take_of_length_le (hlen ▸ hn)⟩
  · refine .inr ?_
    rw [List.length_take]
    omega

theorem Burst.drop (h : Burst xs ys) (n : ℕ) : Burst (xs.drop n) (ys.drop n) := by
  obtain ⟨pre, us, vs, post, rfl, rfl, hlen, htwo, hne, hne'⟩ := h
  have hxs : (pre ++ us ++ post).drop n = pre.drop n ++ us.drop (n - pre.length) ++
      post.drop (n - (pre ++ us).length) := by rw [List.drop_append, List.drop_append]
  have hys : (pre ++ vs ++ post).drop n = pre.drop n ++ vs.drop (n - pre.length) ++
      post.drop (n - (pre ++ us).length) := by
    rw [List.drop_append, List.drop_append, List.length_append, List.length_append, hlen]
  rw [hxs, hys]
  refine Burst.of_part _ _ hlen htwo hne hne' (by simp [hlen]) ?_
  rcases Nat.eq_zero_or_pos (n - pre.length) with hn | hn
  · rw [hn]
    exact .inl ⟨rfl, rfl⟩
  · refine .inr ?_
    rw [List.length_drop]
    omega

theorem littleEndian_lt (xs : List UInt8) : littleEndian xs < 256 ^ xs.length := by
  have h := Nat.ofDigits_lt_base_pow_length (b := 256) (l := xs.map UInt8.toNat) (by decide)
    (by simpa using fun x _ => x.toNat_lt)
  rwa [List.length_map] at h

theorem littleEndian_inj (hlen : xs.length = ys.length) (h : littleEndian xs = littleEndian ys) :
    xs = ys := by
  have hlt (zs : List UInt8) : ∀ d ∈ zs.map UInt8.toNat, d < 256 := by
    simpa using fun x _ => x.toNat_lt
  have hmap : xs.map UInt8.toNat = ys.map UInt8.toNat :=
    Nat.ofDigits_inj_of_len_eq (by decide) (by simpa using hlen) (hlt xs) (hlt ys) h
  exact List.map_injective_iff.mpr (fun _ _ => UInt8.toNat_inj.mp) hmap

/-- The two representatives of zero. -/
theorem eq_of_littleEndian (hlen : us.length = vs.length) (htwo : us.length ≤ 2)
    (hus : littleEndian us = 0) (hvs : littleEndian vs = 65535) :
    us = [0, 0] ∧ vs = [255, 255] := by
  have hvs₂ : vs.length = 2 := by
    have hlt := littleEndian_lt vs
    by_contra hne
    have hpow := Nat.pow_le_pow_right (by decide : 0 < 256) (show vs.length ≤ 1 by omega)
    rw [hvs] at hlt
    exact absurd (hlt.trans_le hpow) (by decide)
  exact ⟨littleEndian_inj (hlen.trans hvs₂) hus,
    littleEndian_inj hvs₂ hvs⟩

/-- **A burst changes the sum.** -/
theorem Burst.eq_of_wordSum_eq (h : Burst xs ys) (hsum : wordSum xs = wordSum ys) : xs = ys := by
  obtain ⟨pre, us, vs, post, rfl, rfl, hlen, htwo, hne, hne'⟩ := h
  suffices us = vs by rw [this]
  have hmod : littleEndian us ≡ littleEndian vs [MOD 65535] := by
    have hall : littleEndian (pre ++ us ++ post) ≡ littleEndian (pre ++ vs ++ post) [MOD 65535] :=
      (onesSum_modEq _ _).symm.trans ((congrArg (· % 65535) hsum).trans (onesSum_modEq _ _))
    simp only [List.append_assoc, littleEndian_append, hlen] at hall
    have hcop : Nat.gcd 65535 (256 ^ pre.length) = 1 :=
      Nat.Coprime.pow_right _ (by decide : Nat.Coprime 65535 256)
    exact ((hall.add_left_cancel' _).cancel_left_of_coprime hcop).add_right_cancel' _
  have hlt := (littleEndian_lt us).trans_le (Nat.pow_le_pow_right (by decide : 0 < 256) htwo)
  have hlt' := (littleEndian_lt vs).trans_le
    (Nat.pow_le_pow_right (by decide : 0 < 256) (hlen ▸ htwo))
  rw [Nat.ModEq] at hmod
  rcases (by omega : littleEndian us = littleEndian vs ∨
      littleEndian us = 0 ∧ littleEndian vs = 65535 ∨
        littleEndian vs = 0 ∧ littleEndian us = 65535) with heq | ⟨hus, hvs⟩ | ⟨hvs, hus⟩
  · exact littleEndian_inj hlen heq
  · exact absurd (eq_of_littleEndian hlen htwo hus hvs) hne
  · exact absurd (eq_of_littleEndian hlen.symm (hlen ▸ htwo) hvs hus).symm hne'

end Burst

end Enc28j60Udp
