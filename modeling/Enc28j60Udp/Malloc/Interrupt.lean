import Enc28j60Udp.Malloc.Session

/-!
# The allocator under interrupts

The allocator takes no lock. An interrupt handler that runs between two accesses of an interrupted
call may find a table that is half marked or half cleared; what makes this safe is that a handler
that frees what it allocates restores any table exactly (`handler_eq`), so that by
`Prog.runIrq_eq_run` the interrupted call does not notice it.

A handler is the sequence of its calls followed by the frees of what it still holds. This fails
when the handler asks for so many bytes that the block count wraps to `0`: `mymalloc` then returns
the address of a used block, and the handler's `myfree` clears that block.
-/

namespace Enc28j60Udp

section Handler

variable (P : Placement) (x : MemX)

/-- Free the first held allocation, `n` times. -/
def freeAll : ℕ → Session → Session
  | 0, s => s
  | n + 1, s => freeAll n (callStep P x s (.free 0))

/-- A handler that frees all that it allocated: its calls, then the frees that are left. -/
def handler (script : List Call) (d : MallcoDev) : MallcoDev :=
  let s := Runs.exec (callStep P x) ⟨d, []⟩ script
  (freeAll P x s.live.length s).dev

/-- Every `mymalloc` of the handler has a block count that fits in the `u16` variable. -/
def ScriptFits (script : List Call) : Prop := ∀ size, Call.malloc size ∈ script → size ≤ maxRequest

variable {P x} {base : ℕ → ℕ} {s : Session}

namespace Overlay

/-- The calls of a session do not touch the pool's bytes. -/
theorem mem_callStep (h : Overlay P x base s) (c : Call) :
    (callStep P x s c).dev.mem = s.dev.mem := by
  cases c with
  | malloc size =>
    cases hg : grant x s.dev.memmap size with
    | none => rw [callStep_malloc_of_none h.rdy hg]
    | some o => rw [callStep_malloc_of_some h.rdy hg]
  | free i =>
    cases hi : s.live[i]? with
    | none => simp only [callStep, hi]
    | some a => rw [h.callStep_free hi]

/-- The calls of a handler keep the invariant. -/
theorem exec (h : Overlay P x base s) {script : List Call} (hs : ScriptFits script) :
    Overlay P x base (Runs.exec (callStep P x) s script) ∧
      (Runs.exec (callStep P x) s script).dev.mem = s.dev.mem := by
  induction script generalizing s with
  | nil => exact ⟨h, rfl⟩
  | cons c cs ih =>
    have hc : Overlay P x base (callStep P x s c) := by
      cases c with
      | malloc size => exact h.malloc (hs size List.mem_cons_self)
      | free i => exact h.free i
    obtain ⟨h₁, h₂⟩ := ih hc fun size hm => hs size (List.mem_cons_of_mem c hm)
    exact ⟨h₁, h₂.trans (h.mem_callStep c)⟩

/-- Freeing all that is held leads back to `base`. -/
theorem freeAll (h : Overlay P x base s) {n : ℕ} (hn : n = s.live.length) :
    (freeAll P x n s).dev = ⟨base, true, s.dev.mem⟩ := by
  induction n generalizing s with
  | zero =>
    have hl : s.live = [] := List.length_eq_zero_iff.mp hn.symm
    have hmap : s.dev.memmap = base := funext fun i => h.rest i (by simp [hl])
    rw [← hmap, ← h.rdy]
    rfl
  | succ n ih =>
    have hlen : n = (callStep P x s (.free 0)).live.length := by
      have hlt : 0 < s.live.length := by omega
      rw [h.callStep_free (List.getElem?_eq_getElem hlt), List.length_eraseIdx_of_lt hlt]
      omega
    rw [Enc28j60Udp.freeAll, ih (h.free 0) hlen, h.mem_callStep]

end Overlay

/-- A handler whose requests fit restores any table. -/
theorem handler_eq {script : List Call} (hs : ScriptFits script) {d : MallcoDev}
    (hd : d.memrdy = true) : handler P x script d = d := by
  obtain ⟨h₁, h₂⟩ := (Overlay.start (P := P) (x := x) hd).exec hs
  rw [handler, h₁.freeAll rfl, h₂, ← hd]

/-! ## The interrupted call -/

/-- A call of the main code. -/
inductive MainCall
  | malloc (size : ℕ)
  | free (offset : ℕ)

variable (P x) in
/-- The program of a main call. -/
def MainCall.prog : MainCall → MemProg ℕ
  | .malloc size => myMemMalloc P x size
  | .free offset => myMemFree P x offset

variable (x) in
/-- The cells a main call is about to clear. -/
def MainCall.frees (d : MallcoDev) : MainCall → Finset ℕ
  | .malloc _ => ∅
  | .free offset =>
    if offset < memsize x then Finset.Ico (offset / 32) (offset / 32 + d.memmap (offset / 32))
    else ∅

variable (P x) in
/-- `b` is marked when the call `c` starts, and `c` does not free it. -/
def StillLive (d : MallcoDev) (c : MainCall) (b : Alloc) : Prop :=
  ∀ i ∈ b.cells P x, d.memmap i ≠ 0 ∧ i ∉ c.frees x d

section Through

variable {α : Type} {J : MallcoDev → Prop} {d : MallcoDev}

theorem through_rdMap_bind {i : ℕ} {f : ℕ → MemProg α} :
    Prog.Through memStep J (rdMap i >>= f) d ↔ J d ∧ Prog.Through memStep J (f (d.memmap i)) d :=
  Iff.rfl

theorem through_rdRdy_bind {f : Bool → MemProg α} :
    Prog.Through memStep J (rdRdy >>= f) d ↔ J d ∧ Prog.Through memStep J (f d.memrdy) d :=
  Iff.rfl

/-- The scan only reads. -/
theorem through_scanLoop (hJ : J d) (n k c : ℕ) : Prog.Through memStep J (scanLoop n k c) d := by
  induction k generalizing c with
  | zero => trivial
  | succ k ih =>
    rw [scanLoop, through_rdMap_bind]
    refine ⟨hJ, ?_⟩
    dsimp only
    generalize (if d.memmap k = 0 then (c + 1) % 2 ^ 16 else 0) = c'
    by_cases hn : c' = n
    · rw [if_pos hn]
      trivial
    · rw [if_neg hn]
      exact ih c'

end Through

/-- The cells of `L` stay used when a loop writes a count, or writes elsewhere. -/
theorem through_forFrom_wrMap {L : Set ℕ} {v o n : ℕ}
    (hv : ∀ j, o ≤ j → j < o + n → v ≠ 0 ∨ j ∉ L) {d : MallcoDev} (hd : ∀ i ∈ L, d.memmap i ≠ 0) :
    Prog.Through memStep (fun s => ∀ i ∈ L, s.memmap i ≠ 0)
      (Prog.forFrom (fun i => wrMap i v) o n) d := by
  refine Prog.Through.forFrom ?_ hd
  refine fun j s hj hjn hs => ⟨⟨hs, trivial⟩, fun i hi => ?_⟩
  change Function.update s.memmap j v i ≠ 0
  by_cases hij : i = j
  · rw [hij, Function.update_self]
    exact (hv j hj hjn).resolve_right (not_not.mpr (hij ▸ hi))
  · rw [Function.update_of_ne hij]
    exact hs i hi

/-- The cells that are marked and not being freed stay marked during the whole call. -/
theorem through_main {d : MallcoDev} (hd : d.memrdy = true) (c : MainCall) :
    Prog.Through memStep (fun s => ∀ i ∈ {i | d.memmap i ≠ 0 ∧ i ∉ c.frees x d}, s.memmap i ≠ 0)
      (c.prog P x) d := by
  have hJ : ∀ i ∈ {i | d.memmap i ≠ 0 ∧ i ∉ c.frees x d}, d.memmap i ≠ 0 := fun i hi => hi.1
  cases c with
  | malloc size =>
    rw [MainCall.prog, myMemMalloc, through_rdRdy_bind, if_pos hd]
    refine ⟨hJ, ?_⟩
    by_cases h0 : size = 0
    · rw [if_pos h0]
      trivial
    · rw [if_neg h0]
      refine (through_scanLoop hJ _ _ _).bind fun r s' hr => ?_
      rw [run_scanLoop, Prod.mk.injEq] at hr
      obtain ⟨-, rfl⟩ := hr
      cases r with
      | none => trivial
      | some o =>
        refine (through_forFrom_wrMap (fun j hj hjn => Or.inl ?_) hJ).bind fun _ _ _ => trivial
        -- the loop makes no round when the count is `0`
        omega
  | free offset =>
    rw [MainCall.prog, myMemFree, through_rdRdy_bind, if_pos hd]
    refine ⟨hJ, ?_⟩
    by_cases ho : offset < memsize x
    · rw [if_pos ho, memblksize_eq, through_rdMap_bind]
      refine ⟨hJ, (through_forFrom_wrMap (fun j hj hjn => Or.inr ?_) hJ).bind fun _ _ _ => trivial⟩
      rintro ⟨-, hj'⟩
      rw [MainCall.frees, if_pos ho, Finset.mem_Ico] at hj'
      exact hj' ⟨hj, hjn⟩
    · rw [if_neg ho]
      trivial

theorem memrdy_memStep (o : MemOp) (d : MallcoDev) (hd : d.memrdy = true) :
    (memStep o d).2.memrdy = true := by
  cases o <;> first | exact hd | rfl

/-- **The allocator under interrupts.** Whatever handlers run between the accesses of a main call,
the call returns the same value and leaves the same table, and no handler ever holds a block that
overlaps a live allocation of the main code, provided that every request of a handler has a block
count that fits. -/
theorem interrupted_call (P : Placement) (x : MemX) {d : MallcoDev} (hd : d.memrdy = true)
    (c : MainCall) (irq : ℕ → List Call) (hirq : ∀ t, ScriptFits (irq t)) :
    Prog.runIrq memStep (fun t => handler P x (irq t)) 0 (c.prog P x) d =
        Prog.run memStep (c.prog P x) d ∧
      ∀ pt ∈ Prog.irqPoints memStep (fun t => handler P x (irq t)) 0 (c.prog P x) d,
        ∀ calls, calls <+: irq pt.1 →
          ∀ a ∈ (Runs.exec (callStep P x) ⟨pt.2, []⟩ calls).live, ∀ b, StillLive P x d c b →
            Disjoint (a.cells P x) (b.cells P x) := by
  have hrestore : ∀ t s, s.memrdy = true → handler P x (irq t) s = s := fun t s hs =>
    handler_eq (hirq t) hs
  refine ⟨Prog.runIrq_eq_run (memrdy_memStep) hrestore 0 _ hd, ?_⟩
  intro pt hpt calls hcalls a ha b hb
  obtain ⟨hrdy, hused⟩ := Prog.forall_irqPoints_of_through memrdy_memStep hrestore 0 _ hd
    (through_main hd c) pt hpt
  have hfits : ScriptFits calls := fun size hm => hirq pt.1 size (hcalls.subset hm)
  obtain ⟨hov, -⟩ := (Overlay.start (P := P) (x := x) hrdy).exec hfits
  exact Finset.disjoint_left.mpr fun i hia hib =>
    hused i (hb i hib) (hov.wasFree a ha i hia)

/-- A ready pool whose top block is allocated. -/
def topUsed : MallcoDev := ⟨fun i => if i = 1279 then 1 else 0, true, fun _ => 0⟩

/-- A handler that takes one block and gives it back, at every interruption point. -/
theorem interrupted_call_topUsed :
    Prog.runIrq memStep (fun t => handler imagePlacement .sramin ((fun _ => [.malloc 32]) t)) 0
        ((MainCall.malloc 32).prog imagePlacement .sramin) topUsed =
      Prog.run memStep ((MainCall.malloc 32).prog imagePlacement .sramin) topUsed :=
  (interrupted_call imagePlacement .sramin rfl (.malloc 32) (fun _ => [.malloc 32]) (by
    intro t size hm
    obtain rfl := Call.malloc.inj (List.mem_singleton.mp hm)
    decide)).1

/-- A handler that asks for `2 ^ 21` bytes is granted a used block, and frees it: the main call
then takes that block. -/
theorem interrupted_call_wrapped :
    (Prog.runIrq memStep (fun _ => handler imagePlacement .sramin [.malloc (2 ^ 21)]) 0
        ((MainCall.malloc 32).prog imagePlacement .sramin) topUsed).1 ≠
      (Prog.run memStep ((MainCall.malloc 32).prog imagePlacement .sramin) topUsed).1 := by
  decide +kernel

end Handler

end Enc28j60Udp
