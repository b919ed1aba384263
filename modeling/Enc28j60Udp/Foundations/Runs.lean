import Mathlib.Data.List.Basic
import Mathlib.Tactic.Common

/-!
# Runs of a system

A system is a step function `step : σ → ε → σ` on states and events; a run is the list of its
events. `Always P s es` says that `P` holds in every state of the run `es` from `s`, and
`Along G s es` that every step of the run meets the guard `G`, a condition on the event and the
state before it.

`always_of_along` is the invariant rule for guarded runs. When the guard is exactly what a step
needs to keep `P`, `always_iff_along` turns it into an equivalence: the runs that stay in `P` are
the runs whose steps all meet the guard.
-/

namespace Enc28j60Udp

namespace Runs

variable {σ ε : Type*} (step : σ → ε → σ)

/-- The last state of a run. -/
def exec (s : σ) (es : List ε) : σ := es.foldl step s

@[simp] theorem exec_nil (s : σ) : exec step s [] = s := rfl

@[simp] theorem exec_cons (s : σ) (e : ε) (es : List ε) :
    exec step s (e :: es) = exec step (step s e) es := rfl

theorem exec_append (s : σ) (es fs : List ε) :
    exec step s (es ++ fs) = exec step (exec step s es) fs := List.foldl_append

/-- `P` holds in every state of the run. -/
def Always (P : σ → Prop) (s : σ) (es : List ε) : Prop :=
  ∀ pre post, es = pre ++ post → P (exec step s pre)

/-- Every step of the run meets the guard `G`. -/
def Along (G : σ → ε → Prop) (s : σ) (es : List ε) : Prop :=
  ∀ pre e post, es = pre ++ e :: post → G (exec step s pre) e

variable {step} {P : σ → Prop} {G : σ → ε → Prop} {s : σ}

theorem Always.last {es : List ε} (h : Always step P s es) : P (exec step s es) :=
  h es [] (by simp)

theorem always_nil : Always step P s [] ↔ P s := by
  refine ⟨fun h => h [] [] rfl, fun h pre post e => ?_⟩
  obtain ⟨rfl, -⟩ := List.append_eq_nil_iff.mp e.symm
  exact h

theorem always_cons {e : ε} {es : List ε} :
    Always step P s (e :: es) ↔ P s ∧ Always step P (step s e) es := by
  constructor
  · refine fun h => ⟨h [] (e :: es) rfl, fun pre post hp => ?_⟩
    exact h (e :: pre) post (by rw [hp, List.cons_append])
  · rintro ⟨h₀, h⟩ pre post hp
    cases pre with
    | nil => exact h₀
    | cons e' pre =>
      obtain ⟨rfl, rfl⟩ := List.cons.inj hp
      exact h pre post rfl

theorem always_append {es fs : List ε} :
    Always step P s (es ++ fs) ↔ Always step P s es ∧ Always step P (exec step s es) fs := by
  induction es generalizing s with
  | nil =>
    rw [List.nil_append, always_nil, exec_nil]
    exact ⟨fun h => ⟨h [] fs rfl, h⟩, fun h => h.2⟩
  | cons e es ih => rw [List.cons_append, always_cons, always_cons, ih, exec_cons, and_assoc]

theorem along_nil : Along step G s [] := by
  intro pre e post h
  simp at h

theorem along_cons {e : ε} {es : List ε} :
    Along step G s (e :: es) ↔ G s e ∧ Along step G (step s e) es := by
  constructor
  · refine fun h => ⟨h [] e es rfl, fun pre f post hp => ?_⟩
    exact h (e :: pre) f post (by rw [hp, List.cons_append])
  · rintro ⟨h₀, h⟩ pre f post hp
    cases pre with
    | nil =>
      obtain ⟨rfl, -⟩ := List.cons.inj hp
      exact h₀
    | cons e' pre =>
      obtain ⟨rfl, rfl⟩ := List.cons.inj hp
      exact h pre f post rfl

/-- Whether a given run meets a guard can be computed. -/
instance Along.decidable [∀ s e, Decidable (G s e)] (s : σ) :
    (es : List ε) → Decidable (Along step G s es)
  | [] => isTrue along_nil
  | e :: es =>
    have := Along.decidable (step s e) es
    decidable_of_iff _ along_cons.symm

/-- The invariant rule: `P` holds along a run whose steps all meet the guard. -/
theorem always_of_along (hstep : ∀ s e, P s → G s e → P (step s e)) {es : List ε} (hs : P s)
    (hG : Along step G s es) : Always step P s es := by
  induction es generalizing s with
  | nil => exact always_nil.mpr hs
  | cons e es ih =>
    obtain ⟨he, hG⟩ := along_cons.mp hG
    exact always_cons.mpr ⟨hs, ih (hstep s e hs he) hG⟩

/-- An invariant of every step holds in every state. -/
theorem always_of_inv (hstep : ∀ s e, P s → P (step s e)) (hs : P s) (es : List ε) :
    Always step P s es :=
  always_of_along (G := fun _ _ => True) (fun s e h _ => hstep s e h) hs fun _ _ _ _ => trivial

theorem Always.imp {Q : σ → Prop} {es : List ε} (h : Always step P s es) (hQ : ∀ s, P s → Q s) :
    Always step Q s es :=
  fun pre post hp => hQ _ (h pre post hp)

/-- What an invariant gives for each step. -/
theorem along_of_inv (hstep : ∀ s e, P s → P (step s e)) (hG : ∀ s e, P s → G s e) (hs : P s)
    (es : List ε) : Along step G s es :=
  fun pre e post hp => hG _ e (always_of_inv hstep hs es pre (e :: post) hp)

/-- When the guard is what a step needs to keep `P`, the runs that stay in `P` are the runs that
meet the guard; here among the runs whose steps all meet a condition `H`. -/
theorem always_iff_along_of_along {H : σ → ε → Prop}
    (hstep : ∀ s e, H s e → P s → (P (step s e) ↔ G s e)) {es : List ε} (hH : Along step H s es)
    (hs : P s) : Always step P s es ↔ Along step G s es := by
  induction es generalizing s with
  | nil => exact iff_of_true (always_nil.mpr hs) along_nil
  | cons e es ih =>
    obtain ⟨he, hH⟩ := along_cons.mp hH
    rw [always_cons, along_cons, and_iff_right hs, ← hstep s e he hs]
    constructor
    · intro h
      have hP : P (step s e) := h [] es rfl
      exact ⟨hP, (ih hH hP).mp h⟩
    · exact fun ⟨hP, h⟩ => (ih hH hP).mpr h

/-- The same with an invariant `J` at hand. -/
theorem always_iff_along_of_inv {J : σ → Prop} (hJ : ∀ s e, J s → J (step s e))
    (hstep : ∀ s e, J s → P s → (P (step s e) ↔ G s e)) {es : List ε} (hJs : J s) (hs : P s) :
    Always step P s es ↔ Along step G s es :=
  always_iff_along_of_along (H := fun s _ => J s) hstep (along_of_inv hJ (fun _ _ h => h) hJs es) hs

/-- The same for all runs. -/
theorem always_iff_along (hstep : ∀ s e, P s → (P (step s e) ↔ G s e)) {es : List ε} (hs : P s) :
    Always step P s es ↔ Along step G s es :=
  always_iff_along_of_along (H := fun _ _ => True) (fun s e _ => hstep s e)
    (fun _ _ _ _ => trivial) hs

/-- Two guards that agree as long as `P` holds, where a step that meets the first keeps `P`: the
same runs meet them. -/
theorem along_iff_along {G' : σ → ε → Prop} (hG : ∀ s e, P s → (G s e ↔ G' s e))
    (hstep : ∀ s e, P s → G s e → P (step s e)) {es : List ε} (hs : P s) :
    Along step G s es ↔ Along step G' s es := by
  induction es generalizing s with
  | nil => exact iff_of_true along_nil along_nil
  | cons e es ih =>
    rw [along_cons, along_cons, ← hG s e hs]
    exact and_congr_right fun he => ih (hstep s e hs he)

end Runs

end Enc28j60Udp
