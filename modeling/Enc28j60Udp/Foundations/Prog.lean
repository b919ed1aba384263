import Mathlib.Data.List.Basic
import Mathlib.Tactic.Common

/-!
# Programs of atomic operations

A program is a finite tree of atomic operations on a shared state: it returns, hangs, or issues
one operation and continues with its reply. The state is not part of the program, so one program
has several executions:

* `run`: uninterrupted, with a handler that gives the meaning of each operation;
* `runIrq`: an interrupt routine may transform the state before every operation.

`runIrq_eq_run` says that an interrupt routine that restores every state it can find is invisible
to the interrupted program. `Only` bounds the operations that a program may issue, whatever the
replies are. `Meets` is the precondition of a program for a property of each of its operations and
of its result, with a rule for each way programs are built; `Through` speaks of the states a run
passes through. A run that hangs is covered by both.
-/

namespace Enc28j60Udp

/-- Programs over the operations `Op`, with replies `Res o` and result `α`. -/
inductive Prog (Op : Type) (Res : Op → Type) (α : Type) : Type
  /-- The program returns. -/
  | ret (a : α)
  /-- The program does not return: it is still polling when its fuel is used up. -/
  | hang
  /-- Issue `o`, continue with its reply. -/
  | op (o : Op) (k : Res o → Prog Op Res α)

namespace Prog

variable {Op : Type} {Res : Op → Type} {α β γ σ : Type}

/-- Sequencing. -/
def bind : Prog Op Res α → (α → Prog Op Res β) → Prog Op Res β
  | .ret a, f => f a
  | .hang, _ => .hang
  | .op o k, f => .op o fun r => bind (k r) f

/-- A single operation. -/
def lift (o : Op) : Prog Op Res (Res o) := .op o .ret

instance : Monad (Prog Op Res) where
  pure := .ret
  bind := bind

theorem bind_assoc (p : Prog Op Res α) (f : α → Prog Op Res β) (g : β → Prog Op Res γ) :
    (p.bind f).bind g = p.bind fun a => (f a).bind g := by
  induction p with
  | ret a => rfl
  | hang => rfl
  | op o k ih => simp only [bind, ih]

theorem bind_ret (p : Prog Op Res α) : p.bind .ret = p := by
  induction p with
  | ret a => rfl
  | hang => rfl
  | op o k ih => simp only [bind, ih]

instance : LawfulMonad (Prog Op Res) :=
  LawfulMonad.mk' _ (fun p => bind_ret p) (fun _ _ => rfl) fun p f g => bind_assoc p f g

/-! ## Conditionals and loops -/

/-- `if (c) p`. -/
def when (c : Prop) [Decidable c] (p : Prog Op Res Unit) : Prog Op Res Unit :=
  if c then p else pure ()

/-- `for (i = start; i < start + n; i++) body(i)`. -/
def forFrom (body : ℕ → Prog Op Res Unit) : ℕ → ℕ → Prog Op Res Unit
  | _, 0 => .ret ()
  | i, n + 1 => do body i; forFrom body (i + 1) n

/-- `while (cond && retry < limit) retry++`, with `limit - retry` rounds left; the result is
`retry`. The condition is evaluated before the bound, as in the source. -/
def retryWhile (cond : Prog Op Res Bool) (limit : ℕ) : ℕ → Prog Op Res ℕ
  | 0 => do let _ ← cond; pure limit
  | k + 1 => do if ← cond then retryWhile cond limit k else pure (limit - (k + 1))

/-- `while (cond) body`, hanging when the condition still holds after `fuel` rounds. -/
def whileDo (cond : Prog Op Res Bool) (body : Prog Op Res Unit) : ℕ → Prog Op Res Unit
  | 0 => do if ← cond then .hang else pure ()
  | n + 1 => do if ← cond then do body; whileDo cond body n else pure ()

/-! ## The operations of a program -/

/-- Every operation that the program may issue satisfies `A`, whatever the replies are. -/
def Only (A : Op → Prop) : Prog Op Res α → Prop
  | .ret _ => True
  | .hang => True
  | .op o k => A o ∧ ∀ r, Only A (k r)

namespace Only

variable {A : Op → Prop}

theorem pure (a : α) : Only A (Pure.pure a : Prog Op Res α) := trivial

theorem lift {o : Op} (ho : A o) : Only A (Prog.lift o : Prog Op Res _) := ⟨ho, fun _ => trivial⟩

theorem bind {p : Prog Op Res α} {f : α → Prog Op Res β} (hp : Only A p)
    (hf : ∀ a, Only A (f a)) : Only A (p >>= f) := by
  change Only A (p.bind f)
  induction p with
  | ret a => exact hf a
  | hang => trivial
  | op o k ih => exact ⟨hp.1, fun r => ih r (hp.2 r)⟩

theorem ite {c : Prop} [Decidable c] {p q : Prog Op Res α} (hp : Only A p) (hq : Only A q) :
    Only A (if c then p else q) := by
  split
  · exact hp
  · exact hq

theorem forFrom {body : ℕ → Prog Op Res Unit} (hb : ∀ i, Only A (body i)) (i n : ℕ) :
    Only A (Prog.forFrom body i n) := by
  induction n generalizing i with
  | zero => trivial
  | succ n ih => exact (hb i).bind fun _ => ih (i + 1)

theorem whileDo {cond : Prog Op Res Bool} {body : Prog Op Res Unit} (hc : Only A cond)
    (hb : Only A body) (fuel : ℕ) : Only A (Prog.whileDo cond body fuel) := by
  induction fuel with
  | zero => exact hc.bind fun _ => ite trivial trivial
  | succ n ih => exact hc.bind fun _ => ite (hb.bind fun _ => ih) trivial

end Only

/-! ## Uninterrupted runs -/

section Run

variable (h : (o : Op) → σ → Res o × σ)

/-- The uninterrupted run: the result, `none` when the program hangs, and the last state. -/
def run : Prog Op Res α → σ → Option α × σ
  | .ret a, s => (some a, s)
  | .hang, s => (none, s)
  | .op o k, s => run (k (h o s).1) (h o s).2

@[simp] theorem run_ret (a : α) (s : σ) : run h (.ret a : Prog Op Res α) s = (some a, s) := rfl

@[simp] theorem run_pure (a : α) (s : σ) : run h (pure a : Prog Op Res α) s = (some a, s) := rfl

@[simp] theorem run_hang (s : σ) : run h (.hang : Prog Op Res α) s = (none, s) := rfl

@[simp] theorem run_lift (o : Op) (s : σ) :
    run h (lift o : Prog Op Res _) s = (some (h o s).1, (h o s).2) := rfl

theorem run_bind (p : Prog Op Res α) (f : α → Prog Op Res β) (s : σ) :
    run h (p >>= f) s =
      match run h p s with
      | (some a, s') => run h (f a) s'
      | (none, s') => (none, s') := by
  change run h (p.bind f) s = _
  induction p generalizing s with
  | ret a => rfl
  | hang => rfl
  | op o k ih => exact ih _ _

/-- A run of a sequence whose first part returns. -/
theorem run_bind_of {p : Prog Op Res α} {s s' : σ} {a : α} (hp : run h p s = (some a, s'))
    (f : α → Prog Op Res β) : run h (p >>= f) s = run h (f a) s' := by
  rw [run_bind, hp]

@[simp] theorem run_lift_bind (o : Op) (f : Res o → Prog Op Res β) (s : σ) :
    run h (lift o >>= f) s = run h (f (h o s).1) (h o s).2 := rfl

theorem run_ite (c : Prop) [Decidable c] (p q : Prog Op Res α) (s : σ) :
    run h (if c then p else q) s = if c then run h p s else run h q s := by
  split <;> rfl

/-- The operations of a run, each with the state it finds. -/
def performed : Prog Op Res α → σ → List (Op × σ)
  | .ret _, _ => []
  | .hang, _ => []
  | .op o k, s => (o, s) :: performed (k (h o s).1) (h o s).2

/-- The operations of a sequence whose first part returns. -/
theorem performed_bind_of {p : Prog Op Res α} {s s' : σ} {a : α}
    (hp : run h p s = (some a, s')) (f : α → Prog Op Res β) :
    performed h (p >>= f) s = performed h p s ++ performed h (f a) s' := by
  change performed h (p.bind f) s = _
  induction p generalizing s with
  | ret b =>
    simp only [run_ret, Prod.mk.injEq, Option.some.injEq] at hp
    obtain ⟨rfl, rfl⟩ := hp
    rfl
  | hang => simp at hp
  | op o k ih => exact congrArg (List.cons (o, s)) (ih _ hp)

/-- A handler that counts the operations in `A`. -/
def counted (A : Op → Bool) (o : Op) (s : σ × ℕ) : Res o × σ × ℕ :=
  ((h o s.1).1, (h o s.1).2, s.2 + (A o).toNat)

theorem run_counted (A : Op → Bool) (p : Prog Op Res α) (s : σ) (c : ℕ) :
    run (counted h A) p (s, c) =
      ((run h p s).1, (run h p s).2, c + (performed h p s).countP fun x => A x.1) := by
  induction p generalizing s c with
  | ret a => rfl
  | hang => rfl
  | op o k ih =>
    rw [run, run, counted, ih, performed, List.countP_cons, Nat.add_assoc, Nat.add_comm (A o).toNat]
    cases A o <;> rfl

/-- From `s`, every operation of `p` satisfies `A` in the state that it finds, and `Q` holds of
the result and the last state if `p` returns. -/
def Meets (A : Op → σ → Prop) : Prog Op Res α → (α → σ → Prop) → σ → Prop
  | .ret a, Q, s => Q a s
  | .hang, _, _ => True
  | .op o k, Q, s => A o s ∧ Meets A (k (h o s).1) Q (h o s).2

variable {h}

namespace Meets

variable {A : Op → σ → Prop} {Q : α → σ → Prop} {I : σ → Prop} {s : σ}

theorem lift {o : Op} {Q : Res o → σ → Prop} (ho : A o s) (hQ : Q (h o s).1 (h o s).2) :
    Meets h A (Prog.lift o) Q s :=
  ⟨ho, hQ⟩

theorem lift_bind {o : Op} {f : Res o → Prog Op Res α} (ho : A o s)
    (hf : Meets h A (f (h o s).1) Q (h o s).2) : Meets h A (Prog.lift o >>= f) Q s :=
  ⟨ho, hf⟩

theorem imp {R : α → σ → Prop} {p : Prog Op Res α} (hp : Meets h A p R s)
    (hQ : ∀ a s', R a s' → Q a s') : Meets h A p Q s := by
  induction p generalizing s with
  | ret a => exact hQ a s hp
  | hang => trivial
  | op o k ih => exact ⟨hp.1, ih _ hp.2⟩

theorem bind {R : α → σ → Prop} {Q : β → σ → Prop} {p : Prog Op Res α}
    {f : α → Prog Op Res β} (hp : Meets h A p R s)
    (hf : ∀ a s', R a s' → Meets h A (f a) Q s') : Meets h A (p >>= f) Q s := by
  change Meets h A (p.bind f) Q s
  induction p generalizing s with
  | ret a => exact hf a s hp
  | hang => trivial
  | op o k ih => exact ⟨hp.1, ih _ hp.2⟩

theorem ite {c : Prop} [Decidable c] {p q : Prog Op Res α} (hp : c → Meets h A p Q s)
    (hq : ¬c → Meets h A q Q s) : Meets h A (if c then p else q) Q s := by
  split
  · exact hp ‹_›
  · exact hq ‹_›

/-- A loop whose condition, evaluated at least once, leads from `I` to `J`. -/
theorem retryWhile {J : σ → Prop} {cond : Prog Op Res Bool}
    (hc : ∀ s, I s → Meets h A cond (fun _ => J) s) (hJ : ∀ s, J s → I s) (limit k : ℕ) (hs : I s) :
    Meets h A (Prog.retryWhile cond limit k) (fun _ => J) s := by
  induction k generalizing s with
  | zero => exact (hc s hs).bind fun _ _ h => h
  | succ k ih => exact (hc s hs).bind fun b _ h => ite (fun _ => ih (hJ _ h)) fun _ => h

/-- A loop whose condition and body keep the invariant. -/
theorem whileDo {cond : Prog Op Res Bool} {body : Prog Op Res Unit}
    (hc : ∀ s, I s → Meets h A cond (fun _ => I) s)
    (hb : ∀ s, I s → Meets h A body (fun _ => I) s) (fuel : ℕ) (hs : I s) :
    Meets h A (Prog.whileDo cond body fuel) (fun _ => I) s := by
  induction fuel generalizing s with
  | zero => exact (hc s hs).bind fun b _ h => ite (fun _ => trivial) fun _ => h
  | succ n ih =>
    exact (hc s hs).bind fun b _ h => ite (fun _ => (hb _ h).bind fun _ _ h => ih h) fun _ => h

/-- A list of commands, each of which keeps the invariant. -/
theorem forM {f : γ → Prog Op Res PUnit} {xs : List γ}
    (hf : ∀ x ∈ xs, ∀ s, I s → Meets h A (f x) (fun _ => I) s) (hs : I s) :
    Meets h A (xs.forM f) (fun _ => I) s := by
  induction xs generalizing s with
  | nil => exact hs
  | cons x xs ih =>
    change Meets h A (f x >>= fun _ => xs.forM f) (fun _ => I) s
    exact (hf x List.mem_cons_self s hs).bind fun _ _ h =>
      ih (fun y hy => hf y (List.mem_cons_of_mem _ hy)) h

/-- What the last state satisfies. -/
theorem of_run {p : Prog Op Res α} {a : α} {s' : σ} (hp : Meets h A p Q s)
    (hr : run h p s = (some a, s')) : Q a s' := by
  induction p generalizing s with
  | ret b =>
    obtain ⟨rfl, rfl⟩ := Prod.mk.inj hr |>.imp Option.some.inj id
    exact hp
  | hang => cases hr
  | op o k ih => exact ih _ hp.2 hr

theorem of_performed {p : Prog Op Res α} (hp : Meets h A p Q s) :
    ∀ x ∈ performed h p s, A x.1 x.2 := by
  induction p generalizing s with
  | ret a => simp [performed]
  | hang => simp [performed]
  | op o k ih =>
    simp only [performed, List.mem_cons, forall_eq_or_imp]
    exact ⟨hp.1, ih _ hp.2⟩

end Meets

namespace Only

variable {A : Op → Prop}

theorem performed {p : Prog Op Res α} (hp : Only A p) (s : σ) :
    ∀ x ∈ Prog.performed h p s, A x.1 := by
  induction p generalizing s with
  | ret a => simp [Prog.performed]
  | hang => simp [Prog.performed]
  | op o k ih =>
    simp only [Prog.performed, List.mem_cons, forall_eq_or_imp]
    exact ⟨hp.1, ih _ (hp.2 _) _⟩

/-- When the operations that the program may issue keep an invariant, the program keeps it. -/
theorem meets {B : Op → σ → Prop} {I : σ → Prop} {p : Prog Op Res α} (hp : Only A p)
    (hA : ∀ o s, A o → I s → B o s ∧ I (h o s).2) {s : σ} (hs : I s) :
    Meets h B p (fun _ => I) s := by
  induction p generalizing s with
  | ret a => exact hs
  | hang => trivial
  | op o k ih =>
    obtain ⟨hB, hI⟩ := hA o s hp.1 hs
    exact ⟨hB, ih _ (hp.2 _) hI⟩

/-- The run with another handler on states that contain those of the first, when the handlers
agree on the operations that the program may issue. -/
theorem run_map {τ : Type} {h' : (o : Op) → τ → Res o × τ} {f : σ → τ} {p : Prog Op Res α}
    (hp : Only A p) (hf : ∀ o s, A o → h' o (f s) = ((h o s).1, f (h o s).2)) (s : σ) :
    run h' p (f s) = ((run h p s).1, f (run h p s).2) := by
  induction p generalizing s with
  | ret a => rfl
  | hang => rfl
  | op o k ih =>
    rw [run, run, hf o s hp.1]
    exact ih _ (hp.2 _) _

end Only

end Run

/-! ## Interrupted runs -/

section Irq

variable (h : (o : Op) → σ → Res o × σ) (irq : ℕ → σ → σ)

/-- The run in which the interrupt routine `irq t` is executed before operation number `t`. -/
def runIrq : ℕ → Prog Op Res α → σ → Option α × σ
  | _, .ret a, s => (some a, s)
  | _, .hang, s => (none, s)
  | t, .op o k, s => runIrq (t + 1) (k (h o (irq t s)).1) (h o (irq t s)).2

/-- The interruption points of a run, each with the state the interrupt routine finds. -/
def irqPoints : ℕ → Prog Op Res α → σ → List (ℕ × σ)
  | _, .ret _, _ => []
  | _, .hang, _ => []
  | t, .op o k, s => (t, s) :: irqPoints (t + 1) (k (h o (irq t s)).1) (h o (irq t s)).2

/-- Every state in which the uninterrupted run issues an operation satisfies `J`. -/
def Through (J : σ → Prop) : Prog Op Res α → σ → Prop
  | .ret _, _ => True
  | .hang, _ => True
  | .op o k, s => J s ∧ Through J (k (h o s).1) (h o s).2

variable {h irq}

/-- An interrupt routine that restores the states it finds does not change the run. -/
theorem runIrq_eq_run {I : σ → Prop} (hI : ∀ o s, I s → I (h o s).2)
    (hirq : ∀ t s, I s → irq t s = s) (t : ℕ) (p : Prog Op Res α) {s : σ} (hs : I s) :
    runIrq h irq t p s = run h p s := by
  induction p generalizing t s with
  | ret a => rfl
  | hang => rfl
  | op o k ih =>
    simp only [runIrq, run, hirq t s hs]
    exact ih _ _ (hI o s hs)

/-- An interrupt routine that restores the states it finds finds only states of the
uninterrupted run. -/
theorem forall_irqPoints_of_through {I J : σ → Prop} (hI : ∀ o s, I s → I (h o s).2)
    (hirq : ∀ t s, I s → irq t s = s) (t : ℕ) (p : Prog Op Res α) {s : σ} (hs : I s)
    (hJ : Through h J p s) : ∀ x ∈ irqPoints h irq t p s, I x.2 ∧ J x.2 := by
  induction p generalizing t s with
  | ret a => simp [irqPoints]
  | hang => simp [irqPoints]
  | op o k ih =>
    simp only [irqPoints, hirq t s hs, List.mem_cons, forall_eq_or_imp]
    exact ⟨⟨hs, hJ.1⟩, ih _ _ (hI o s hs) hJ.2⟩

theorem Through.bind {J : σ → Prop} {p : Prog Op Res α} {f : α → Prog Op Res β} {s : σ}
    (hp : Through h J p s) (hf : ∀ a s', run h p s = (some a, s') → Through h J (f a) s') :
    Through h J (p >>= f) s := by
  change Through h J (p.bind f) s
  induction p generalizing s with
  | ret a => exact hf a s rfl
  | hang => trivial
  | op o k ih => exact ⟨hp.1, ih _ hp.2 hf⟩

theorem Through.forFrom {J : σ → Prop} {body : ℕ → Prog Op Res Unit} {i n : ℕ}
    (hb : ∀ j s, i ≤ j → j < i + n → J s → Through h J (body j) s ∧ J (run h (body j) s).2)
    {s : σ} (hs : J s) : Through h J (Prog.forFrom body i n) s := by
  induction n generalizing i s with
  | zero => trivial
  | succ n ih =>
    obtain ⟨h₁, h₂⟩ := hb i s (Nat.le_refl i) (by omega) hs
    refine h₁.bind fun _ s' hr => ih (fun j s hj hjn => hb j s (by omega) (by omega)) ?_
    rw [hr] at h₂
    exact h₂

end Irq

end Prog

end Enc28j60Udp
