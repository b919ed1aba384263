import Mathlib.Data.List.Basic
import Mathlib.Tactic.Common

/-!
# Scanners

A scanner is a partial step function `step : σ → α → Option σ`: it reads a text character by
character and stops at the first character that it has no step for. `Scans step s l t` says that it
reads all of `l` from the state `s` and is in the state `t` behind it.

The place where a scanner stops in a text is determined (`Scans.stop_unique`), so that two scanners
of one text agree on their results as soon as they stop at the same place. `Scans.foldl_rel` is the
rule for comparing a scanner with a loop that reads the same text.
-/

namespace Enc28j60Udp

section Scanner

variable {σ α τ : Type*} {step : σ → α → Option σ} {s t u : σ} {l m : List α}

/-- The scanner reads the text from `s` to `t`. -/
def Scans (step : σ → α → Option σ) (s : σ) (l : List α) (t : σ) : Prop :=
  l.foldlM step s = some t

instance [DecidableEq σ] : Decidable (Scans step s l t) :=
  inferInstanceAs (Decidable (_ = _))

@[simp] theorem scans_nil : Scans step s [] t ↔ s = t := by simp [Scans]

theorem scans_cons {a : α} :
    Scans step s (a :: l) t ↔ ∃ s', step s a = some s' ∧ Scans step s' l t := by
  simp [Scans, List.foldlM_cons, Option.bind_eq_some_iff]

theorem scans_append :
    Scans step s (l ++ m) t ↔ ∃ s', Scans step s l s' ∧ Scans step s' m t := by
  simp [Scans, List.foldlM_append, Option.bind_eq_some_iff]

namespace Scans

theorem nil : Scans step s [] s := scans_nil.mpr rfl

theorem cons {a : α} {s' : σ} (ha : step s a = some s') (hl : Scans step s' l t) :
    Scans step s (a :: l) t := scans_cons.mpr ⟨s', ha, hl⟩

theorem append (hl : Scans step s l t) (hm : Scans step t m u) : Scans step s (l ++ m) u :=
  scans_append.mpr ⟨t, hl, hm⟩

theorem det (ht : Scans step s l t) (hu : Scans step s l u) : t = u :=
  Option.some_inj.mp (ht.symm.trans hu)

/-- What every step keeps holds behind the text. -/
theorem inv {P : σ → Prop} (hstep : ∀ s a s', step s a = some s' → P s → P s')
    (hl : Scans step s l t) (hs : P s) : P t := by
  induction l generalizing s with
  | nil => rwa [← scans_nil.mp hl]
  | cons a l ih =>
    obtain ⟨s', ha, hl⟩ := scans_cons.mp hl
    exact ih hl (hstep s a s' ha hs)

/-- A map of the states that follows every step. -/
theorem hom {step' : τ → α → Option τ} {f : σ → τ}
    (hstep : ∀ s a s', step s a = some s' → step' (f s) a = some (f s')) (hl : Scans step s l t) :
    Scans step' (f s) l (f t) := by
  induction l generalizing s with
  | nil => rw [scans_nil.mp hl]; exact nil
  | cons a l ih =>
    obtain ⟨s', ha, hl⟩ := scans_cons.mp hl
    exact cons (hstep s a s' ha) (ih hl)

/-- A scanner that stops behind `l` does not read a text that goes on there. -/
theorem length_le {a : α} {l' m' : List α} (hl : Scans step s l t) (ha : step t a = none)
    (hm : Scans step s m u) (he : l ++ a :: l' = m ++ m') : m.length ≤ l.length := by
  induction l generalizing s m with
  | nil =>
    cases m with
    | nil => simp
    | cons b m =>
      obtain ⟨s', hb, -⟩ := scans_cons.mp hm
      obtain ⟨rfl, -⟩ := List.cons.inj he
      rw [scans_nil.mp hl, ha] at hb
      cases hb
  | cons b l ih =>
    cases m with
    | nil => simp
    | cons c m =>
      obtain ⟨s₁, hb, hl⟩ := scans_cons.mp hl
      obtain ⟨s₂, hc, hm⟩ := scans_cons.mp hm
      obtain ⟨rfl, htail⟩ := List.cons.inj he
      obtain rfl : s₁ = s₂ := Option.some_inj.mp (hb.symm.trans hc)
      exact Nat.succ_le_succ (ih hl hm htail)

/-- The place where a scanner stops is determined. -/
theorem stop_unique {a b : α} {l' m' : List α} (hl : Scans step s l t) (ha : step t a = none)
    (hm : Scans step s m u) (hb : step u b = none) (he : l ++ a :: l' = m ++ b :: m') :
    l = m ∧ a :: l' = b :: m' := by
  have hle : m.length ≤ l.length := hl.length_le ha hm he
  have hge : l.length ≤ m.length := hm.length_le hb hl he.symm
  exact List.append_inj he (Nat.le_antisymm hge hle)

/-- A relation between the scanner and a loop over the same text, which may depend on how much of
the text is left. -/
theorem foldl_rel {R : ℕ → τ → σ → Prop} {f : τ → α → τ}
    (hstep : ∀ n x s a s', R (n + 1) x s → step s a = some s' → R n (f x a) s') {x : τ}
    (hl : Scans step s l t) (h : R l.length x s) : R 0 (l.foldl f x) t := by
  induction l generalizing s x with
  | nil => rwa [← scans_nil.mp hl]
  | cons a l ih =>
    obtain ⟨s', ha, hl⟩ := scans_cons.mp hl
    exact ih hl (hstep _ x s a s' h ha)

end Scans

/-- The first occurrence of a character is determined. -/
theorem first_unique {a : α} {p q l m : List α} (hp : a ∉ p) (hq : a ∉ q)
    (he : p ++ a :: l = q ++ a :: m) : p = q ∧ l = m := by
  induction p generalizing q with
  | nil =>
    cases q with
    | nil => exact ⟨rfl, (List.cons.inj he).2⟩
    | cons b q => exact absurd (List.cons.inj he).1 fun h => hq (by simp [h])
  | cons b p ih =>
    cases q with
    | nil => exact absurd (List.cons.inj he).1 fun h => hp (by simp [h])
    | cons c q =>
      rw [List.mem_cons, not_or] at hp hq
      obtain ⟨rfl, htail⟩ := List.cons.inj he
      obtain ⟨rfl, rfl⟩ := ih hp.2 hq.2 htail
      exact ⟨rfl, rfl⟩

end Scanner

end Enc28j60Udp
