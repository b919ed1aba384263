import Mathlib.Algebra.BigOperators.Group.List.Basic
import Mathlib.Algebra.GroupWithZero.Nat
import Mathlib.Data.Set.Lattice
import Mathlib.Order.CompletePartialOrder
import Mathlib.Order.Interval.Set.Basic
import Mathlib.Tactic.Common

/-!
# Carving slots out of a region

`carve a l` cuts consecutive slots from the address `a` on, one for each entry of `l`, which brings
its own size. The slots are pairwise disjoint (`carve_pairwise`) and fill the region from `a` to
`a` plus the sum of the sizes (`carve_within`).
-/

namespace Enc28j60Udp

section Carve

variable {ι : Type*} (size : ι → ℕ)

/-- The bytes from `a` on, `n` of them. -/
def span (a n : ℕ) : Set ℕ := Set.Ico a (a + n)

/-- The slots cut from the address `a` on: what each is for, and its address. -/
def carve : ℕ → List ι → List (ι × ℕ)
  | _, [] => []
  | a, p :: l => (p, a) :: carve (a + size p) l

/-- What the entries of a list need together. -/
def demand (l : List ι) : ℕ := (l.map size).sum

variable {size} {a : ℕ} {l m : List ι}

@[simp] theorem demand_nil : demand size ([] : List ι) = 0 := rfl

@[simp] theorem demand_cons (p : ι) : demand size (p :: l) = size p + demand size l := by
  simp [demand]

@[simp] theorem demand_append : demand size (l ++ m) = demand size l + demand size m := by
  simp [demand]

@[simp] theorem demand_replicate (n : ℕ) (p : ι) :
    demand size (List.replicate n p) = n * size p := by
  simp [demand]

theorem carve_append :
    carve size a (l ++ m) = carve size a l ++ carve size (a + demand size l) m := by
  induction l generalizing a with
  | nil => simp [carve]
  | cons p l ih => simp [carve, ih, Nat.add_assoc]

/-- Every slot lies between the start and the end of what is carved. -/
theorem carve_within {s : ι × ℕ} (hs : s ∈ carve size a l) :
    a ≤ s.2 ∧ s.2 + size s.1 ≤ a + demand size l := by
  induction l generalizing a with
  | nil => simp [carve] at hs
  | cons p l ih =>
    rw [demand_cons]
    rcases List.mem_cons.1 hs with rfl | hs
    · exact ⟨Nat.le_refl a, by simp only; omega⟩
    · have hrest := ih hs
      omega

/-- The slots are pairwise disjoint. -/
theorem carve_pairwise (size : ι → ℕ) (a : ℕ) (l : List ι) :
    (carve size a l).Pairwise fun s t => Disjoint (span s.2 (size s.1)) (span t.2 (size t.1)) := by
  induction l generalizing a with
  | nil => simp [carve]
  | cons p l ih =>
    refine List.pairwise_cons.2 ⟨fun t ht => ?_, ih (a + size p)⟩
    -- all later slots start behind this one
    have hbehind : a + size p ≤ t.2 := (carve_within ht).1
    rw [Set.disjoint_left]
    intro x hx hx'
    have hlow : x < a + size p := hx.2
    have hhigh : t.2 ≤ x := hx'.1
    omega

end Carve

end Enc28j60Udp
