import Mathlib.Logic.Function.Basic
import Mathlib.Tactic.Common

/-!
# Copying forwards

`copyFwd des src i n mem` is the memory after the loop that copies position `src j` to position
`des j` for `j = i, …, i + n - 1`, in this order and one after the other. The source positions may
be destinations as well: what counts for a position that is read is whether the loop writes it
(`copyFwd_apply`), and the other positions keep their contents (`copyFwd_of_ne`).
-/

namespace Enc28j60Udp

section Copy

variable {ι β : Type*} [DecidableEq ι] (des src : ℕ → ι)

/-- The memory after a forward copy. -/
def copyFwd : ℕ → ℕ → (ι → β) → ι → β
  | _, 0, mem => mem
  | i, n + 1, mem => copyFwd (i + 1) n (Function.update mem (des i) (mem (src i)))

variable {des src} {mem : ι → β} {i n : ℕ}

/-- A position that is no destination is not changed. -/
theorem copyFwd_of_ne {a : ι} (h : ∀ j, i ≤ j → j < i + n → des j ≠ a) :
    copyFwd des src i n mem a = mem a := by
  induction n generalizing i mem with
  | zero => rfl
  | succ n ih =>
    have hi : a ≠ des i := (h i (Nat.le_refl i) (by omega)).symm
    rw [copyFwd, ih fun j h₁ h₂ => h j (by omega) (by omega), Function.update_of_ne hi]

/-- A position whose source is no destination receives what its source held at the start. -/
theorem copyFwd_apply {k : ℕ} (hk : i ≤ k) (hkn : k < i + n)
    (hinj : ∀ j, i ≤ j → j < i + n → j ≠ k → des j ≠ des k)
    (hsrc : ∀ j, i ≤ j → j < i + n → des j ≠ src k) :
    copyFwd des src i n mem (des k) = mem (src k) := by
  induction n generalizing i mem with
  | zero => omega
  | succ n ih =>
    rw [copyFwd]
    by_cases hik : i = k
    · subst hik
      rw [copyFwd_of_ne fun j h₁ h₂ => hinj j (by omega) (by omega) (by omega),
        Function.update_self]
    · rw [ih (by omega) (by omega) (fun j h₁ h₂ => hinj j (by omega) (by omega))
        fun j h₁ h₂ => hsrc j (by omega) (by omega)]
      exact Function.update_of_ne (hsrc i (Nat.le_refl i) (by omega)).symm _ _

end Copy

end Enc28j60Udp
