import Enc28j60Udp.Foundations.Prog

/-!
# Programs under arbitrary interrupts

A program that may be interrupted between any two of its operations is judged by the part of the
state that no interrupt changes. A `Scope` names this part (`view`), an invariant that interrupts
keep, and whether the program may hang. `Leads S p w Q` says that from every state with the part
`w`, and under all interrupts that keep the invariant and the part, `p` returns with `Q` of its
result and the part it leaves. There is a rule for each way programs are built, so that a program
is proved by following its text.
-/

namespace Enc28j60Udp

namespace Prog

variable {Op : Type} {Res : Op → Type} {α β σ : Type}

/-- From `s`, and whatever interrupts do before each operation, as far as `I` allows it, the
program returns with `Q`; it may hang if `H`. -/
def Withstands (h : (o : Op) → σ → Res o × σ) (I : σ → σ → Prop) (H : Prop) :
    Prog Op Res α → (α → σ → Prop) → σ → Prop
  | .ret a, Q, s => Q a s
  | .hang, _, _ => H
  | .op o k, Q, s => ∀ s', I s s' → Withstands h I H (k (h o s').1) Q (h o s').2

namespace Withstands

variable {h : (o : Op) → σ → Res o × σ} {irq : ℕ → σ → σ} {I : σ → σ → Prop} {H : Prop} {s : σ}

theorem imp {Q R : α → σ → Prop} {p : Prog Op Res α} (hp : Withstands h I H p R s)
    (hQ : ∀ a s', R a s' → Q a s') : Withstands h I H p Q s := by
  induction p generalizing s with
  | ret a => exact hQ a s hp
  | hang => exact hp
  | op o k ih => exact fun s' hs => ih _ (hp s' hs)

theorem bind {R : α → σ → Prop} {Q : β → σ → Prop} {p : Prog Op Res α}
    {f : α → Prog Op Res β} (hp : Withstands h I H p R s)
    (hf : ∀ a s', R a s' → Withstands h I H (f a) Q s') : Withstands h I H (p >>= f) Q s := by
  change Withstands h I H (p.bind f) Q s
  induction p generalizing s with
  | ret a => exact hf a s hp
  | hang => exact hp
  | op o k ih => exact fun s' hs => ih _ (hp s' hs)

end Withstands

/-- What interrupted programs are judged by. -/
structure Scope (Op : Type) (Res : Op → Type) (σ ω : Type) where
  step : (o : Op) → σ → Res o × σ
  inv : σ → Prop
  view : σ → ω
  mayHang : Prop

variable {ω : Type}

/-- An interrupt that keeps the invariant and the part. -/
def Scope.Allows (S : Scope Op Res σ ω) (s s' : σ) : Prop :=
  S.inv s → S.inv s' ∧ S.view s' = S.view s

/-- From every state with the part `w`, the program returns with `Q`. -/
def Leads (S : Scope Op Res σ ω) (p : Prog Op Res α) (w : ω) (Q : α → ω → Prop) : Prop :=
  ∀ s, S.inv s → S.view s = w →
    Withstands S.step S.Allows S.mayHang p (fun a s' => S.inv s' ∧ Q a (S.view s')) s

namespace Leads

variable {S : Scope Op Res σ ω} {w : ω} {Q : α → ω → Prop}

theorem pure {a : α} (h : Q a w) : Leads S (Pure.pure a) w Q := by
  rintro s hs rfl
  exact ⟨hs, h⟩

theorem hang (h : S.mayHang) : Leads S .hang w Q := fun _ _ _ => h

theorem bind {R : α → ω → Prop} {Q : β → ω → Prop} {p : Prog Op Res α} {f : α → Prog Op Res β}
    (hp : Leads S p w R) (hf : ∀ a w', R a w' → Leads S (f a) w' Q) : Leads S (p >>= f) w Q :=
  fun s hs hw => (hp s hs hw).bind fun a s' h => hf a _ h.2 s' h.1 rfl

/-- A program whose result determines the part it leaves, and another behind it. -/
theorem seq {g : α → ω} {Q : β → ω → Prop} {p : Prog Op Res α} {f : α → Prog Op Res β}
    (hp : Leads S p w fun a w' => w' = g a) (hf : ∀ a, Leads S (f a) (g a) Q) :
    Leads S (p >>= f) w Q := by
  refine hp.bind ?_
  rintro a _ rfl
  exact hf a

theorem imp {R : α → ω → Prop} {p : Prog Op Res α} (hp : Leads S p w R)
    (h : ∀ a w', R a w' → Q a w') : Leads S p w Q :=
  fun s hs hw => (hp s hs hw).imp fun a _ h' => ⟨h'.1, h a _ h'.2⟩

theorem ite {c : Prop} [Decidable c] {p q : Prog Op Res α} (hp : c → Leads S p w Q)
    (hq : ¬c → Leads S q w Q) : Leads S (if c then p else q) w Q := by
  split
  · exact hp ‹_›
  · exact hq ‹_›

theorem when {c : Prop} [Decidable c] {p : Prog Op Res Unit} {Q : Unit → ω → Prop}
    (hp : c → Leads S p w Q) (hq : ¬c → Q () w) : Leads S (Prog.when c p) w Q :=
  ite hp fun h => pure (hq h)

/-- An operation: what it returns, and what it does to the part. -/
theorem lift {o : Op} {R : Res o → ω → Prop}
    (h : ∀ s, S.inv s → S.view s = w →
      S.inv (S.step o s).2 ∧ R (S.step o s).1 (S.view (S.step o s).2)) :
    Leads S (Prog.lift o) w R := by
  rintro s hs rfl _ hs'
  obtain ⟨hinv, hview⟩ := hs' hs
  exact h _ hinv hview

/-- An operation that changes the part by `g`, whatever it returns. -/
theorem does {o : Op} (g : ω → ω)
    (h : ∀ s, S.inv s → S.inv (S.step o s).2 ∧ S.view (S.step o s).2 = g (S.view s)) :
    Leads S (Prog.lift o) w fun _ w' => w' = g w :=
  lift fun s hs hw => ⟨(h s hs).1, (h s hs).2.trans (congrArg g hw)⟩

/-- An operation that keeps the part. -/
theorem keeps {o : Op}
    (h : ∀ s, S.inv s → S.inv (S.step o s).2 ∧ S.view (S.step o s).2 = S.view s) :
    Leads S (Prog.lift o) w fun _ w' => w' = w :=
  does id h

/-- What holds of an interrupted run. -/
theorem runIrq {irq : ℕ → σ → σ} {p : Prog Op Res α} (hp : Leads S p w Q)
    (hirq : ∀ t s, S.Allows s (irq t s)) {s : σ} (hs : S.inv s) (hw : S.view s = w) (t : ℕ) :
    (∃ a s', Prog.runIrq S.step irq t p s = (some a, s') ∧ S.inv s' ∧ Q a (S.view s')) ∨
      S.mayHang ∧ (Prog.runIrq S.step irq t p s).1 = none := by
  have key : ∀ {p : Prog Op Res α} {Q : α → σ → Prop} {s : σ} (t : ℕ),
      Withstands S.step S.Allows S.mayHang p Q s →
      (∃ a s', Prog.runIrq S.step irq t p s = (some a, s') ∧ Q a s') ∨
        S.mayHang ∧ (Prog.runIrq S.step irq t p s).1 = none := by
    intro p Q
    induction p with
    | ret a => exact fun t h => Or.inl ⟨a, _, rfl, h⟩
    | hang => exact fun t h => Or.inr ⟨h, rfl⟩
    | op o k ih => exact fun {s} t h => ih _ (t + 1) (h _ (hirq t s))
  exact key t (hp s hs hw)

end Leads

end Prog

end Enc28j60Udp
