import Enc28j60Udp.Enc28j60.Start

/-!
# The interrupt service routine

`EXTI1_IRQHandler` runs the handler as long as the chip holds `INT` low. The pending work is
measured by `Node.work`: a packet counts four, a flag one. A handler run that takes a packet makes
it smaller even if the answer it sends raises both transmission flags.

When the pool has no room for the receive buffer no packet is taken, and nothing that the loop does
changes that. `exti1_ends_iff` says when the loop ends all the same: when no packet is pending, or
when the branch for a receive error discards the only one.
-/

namespace Enc28j60Udp

namespace Enc28j60

/-- The pending work: the packets and the flags of `EIR`. -/
def Node.work (n : Node) : ℕ :=
  4 * n.epktcnt.toNat + n.txif.toNat + n.txerif.toNat + n.rxerif.toNat

/-- Cache and chip agree, and the interrupts are enabled as by `ENC28J60_Init`. -/
def Ready (w : World) : Prop := w.Coh ∧ w.node.regs 0x1B = 0xCB

/-- What a run of the handler does to the pending work. -/
structure Effect (n m : Node) : Prop where
  eie : m.regs 0x1B = 0xCB
  memmap : m.memmap = n.memmap
  rxerif : m.rxerif = false
  taken : n.HasRoom → n.epktcnt ≠ 0 → m.epktcnt.toNat < n.epktcnt.toNat
  left : ¬n.HasRoom ∨ n.epktcnt = 0 →
    m.epktcnt.toNat = n.epktcnt.toNat - n.rxerif.toNat ∧ m.txif = false ∧ m.txerif = false

section Effect

variable {env : Env} {n l : Node}

/-- The flags and `EIE` as the rest of the handler finds them. -/
theorem Handled.keeps (h : Handled env (n.setEie 0x4B) l) :
    l.regs 0x1B = 0x4B ∧ l.memmap = n.memmap ∧ l.rxerif = n.rxerif := by
  have heie : (n.setEie 0x4B).regs 0x1B = 0x4B := Function.update_self 0x1B 0x4B n.regs
  obtain ⟨-, -, hsame⟩ | ⟨-, rfl⟩ := h
  · have hregs := hsame.regs 0x1B (by omega) (by omega) (by omega) (by omega)
    exact ⟨hregs.trans heie, hsame.memmap, hsame.rxerif⟩
  · exact ⟨heie, rfl, rfl⟩

/-- The effect of the handler, whether it takes a packet or not. -/
theorem Handled.effect (h : Handled env (n.setEie 0x4B) l) : Effect n (l.finish n) := by
  obtain ⟨htxif, htxerif, hrxerif⟩ := l.finish_flags n
  obtain ⟨heie, hmemmap, hrx⟩ := h.keeps
  have hcount := l.finish_epktcnt n
  refine ⟨?_, ?_, ?_, fun hroom hne => ?_, fun hleft => ?_⟩
  · rw [Node.finish_eie, heie]
    rfl
  · rw [Node.finish_memmap, hmemmap]
  · rw [hrxerif, hrx, Bool.not_and_self]
  · obtain ⟨-, -, hsame⟩ | ⟨hleft, -⟩ := h
    · have hl : l.epktcnt.toNat = n.epktcnt.toNat - 1 := by
        rw [hsame.epktcnt]
        exact Node.toNat_pktdec n
      have hpos : n.epktcnt.toNat ≠ 0 := fun he => hne (UInt8.toNat_inj.mp he)
      rw [hcount]
      split
      · rw [Node.toNat_pktdec]
        omega
      · omega
    · exact absurd hleft (not_or.mpr ⟨not_not.mpr hroom, hne⟩)
  · obtain ⟨hroom, hne, -⟩ | ⟨-, rfl⟩ := h
    · exact absurd hleft (not_or.mpr ⟨not_not.mpr hroom, hne⟩)
    · refine ⟨?_, htxif.trans (Bool.not_and_self _), htxerif.trans (Bool.not_and_self _)⟩
      rw [hcount]
      cases n.rxerif
      · rfl
      · exact Node.toNat_pktdec n

theorem handlerRun_effect (env : Env) (fuel : ℕ) {w : World} (hw : Ready w) :
    Ready (handlerRun env fuel w) ∧ Effect w.node (handlerRun env fuel w).node := by
  obtain ⟨-, hcoh, l, hnode, hhandled⟩ := run_isrHandler env fuel hw.1
  have hclear : w.node.regs 0x1B &&& ~~~0x80 = 0x4B := by
    rw [hw.2]
    rfl
  rw [hclear] at hhandled
  rw [hnode]
  exact ⟨⟨hcoh, hnode ▸ hhandled.effect.eie⟩, hhandled.effect⟩

end Effect

/-! ## The loop -/

section Loop

variable (env : Env) (fuel : ℕ)

/-- The loop of `EXTI1_IRQHandler` comes to an end. -/
def Ends (w : World) : Prop :=
  ∃ rounds, (Prog.run (boardStep env) (exti1IrqHandler fuel rounds) w).1 = some ()

/-- Every run of the handler that the loop makes lessens the pending work. -/
def EachRunDecreases (w : World) : Prop :=
  ∀ k, (∀ j ≤ k, ((handlerRun env fuel)^[j] w).node.intLow = true) →
    ((handlerRun env fuel)^[k + 1] w).node.work < ((handlerRun env fuel)^[k] w).node.work

/-- Every pending packet can be taken, or the branch for a receive error discards the only one. -/
def Drainable (n : Node) : Prop :=
  n.HasRoom ∨ n.epktcnt = 0 ∨ n.epktcnt = 1 ∧ n.rxerif = true

variable {env fuel} {w : World}

/-- `INT` is low exactly while some work is pending. -/
theorem intLow_iff (hw : Ready w) : w.node.intLow = true ↔ w.node.work ≠ 0 := by
  have hpos : w.node.epktcnt ≠ 0 → w.node.epktcnt.toNat ≠ 0 := fun hne h =>
    hne (UInt8.toNat_inj.mp h)
  unfold Node.intLow Node.work Node.eirBits
  rw [hw.2]
  by_cases he : w.node.epktcnt = 0
  · rw [he]
    cases w.node.txif <;> cases w.node.txerif <;> cases w.node.rxerif <;> decide
  · refine iff_of_true ?_ (by have := hpos he; omega)
    rw [if_pos he]
    cases w.node.txif <;> cases w.node.txerif <;> cases w.node.rxerif <;> decide

theorem run_intPin (w : World) : Prog.run (boardStep env)
    (do let level ← perform .intPin; pure (level == false)) w = (some w.node.intLow, w) := by
  refine (Prog.run_lift_bind _ _ _ _).trans ?_
  have h : ((!w.node.intLow) == false) = w.node.intLow := by cases w.node.intLow <;> rfl
  rw [Prog.run_pure]
  exact congrArg (fun b => (some b, w)) h

/-- The loop ends at once while `INT` is high. -/
theorem run_exti1_of_high (hhigh : w.node.intLow = false) (rounds : ℕ) :
    Prog.run (boardStep env) (exti1IrqHandler fuel rounds) w = (some (), w) := by
  cases rounds with
  | zero => exact (Prog.run_bind_of _ (run_intPin w) _).trans (by rw [hhigh]; rfl)
  | succ k => exact (Prog.run_bind_of _ (run_intPin w) _).trans (by rw [hhigh]; rfl)

/-- A round of the loop. -/
theorem run_exti1_of_low (hw : Ready w) (hlow : w.node.intLow = true) (rounds : ℕ) :
    Prog.run (boardStep env) (exti1IrqHandler fuel (rounds + 1)) w =
      Prog.run (boardStep env) (exti1IrqHandler fuel rounds) (handlerRun env fuel w) := by
  refine (Prog.run_bind_of _ (run_intPin w) _).trans ?_
  rw [hlow, if_pos rfl, Prog.run_bind_of _ (run_isrHandler env fuel hw.1).1]
  rfl

theorem run_exti1_zero (hlow : w.node.intLow = true) :
    (Prog.run (boardStep env) (exti1IrqHandler fuel 0) w).1 = none := by
  rw [exti1IrqHandler, Prog.whileDo, Prog.run_bind_of _ (run_intPin w), hlow]
  rfl

/-- A run of the handler keeps the condition, and lessens the work under it. -/
theorem Effect.drainable {n m : Node} (h : Effect n m) (hn : Drainable n) :
    Drainable m ∧ (n.work ≠ 0 → m.work < n.work) := by
  have hflags : m.txif.toNat ≤ 1 ∧ m.txerif.toNat ≤ 1 := ⟨Bool.toNat_le _, Bool.toNat_le _⟩
  have hgrants : n.HasRoom → m.HasRoom := fun hg => by rwa [Node.HasRoom, h.memmap]
  have hrx : m.rxerif.toNat = 0 := by rw [h.rxerif]; rfl
  by_cases hg : n.HasRoom ∧ n.epktcnt ≠ 0
  · have htaken := h.taken hg.1 hg.2
    refine ⟨.inl (hgrants hg.1), fun _ => ?_⟩
    unfold Node.work
    omega
  · rw [not_and_or, not_not] at hg
    obtain ⟨hcount, htx, htxer⟩ := h.left hg
    have hzero : m.epktcnt.toNat = 0 := by
      rcases hn with hn | hn | ⟨hn, hrx⟩
      · rw [hcount, hg.resolve_left (not_not.mpr hn)]
        exact Nat.zero_sub _
      · rw [hcount, hn]
        exact Nat.zero_sub _
      · rw [hcount, hn, hrx]
        rfl
    refine ⟨.inr (.inl (UInt8.toNat_inj.mp hzero)), fun hpos => ?_⟩
    unfold Node.work at *
    rw [hzero, htx, htxer, hrx]
    exact Nat.pos_of_ne_zero hpos

/-- Otherwise the work is not done: packets are left, and only packets. -/
theorem Effect.stuck {n m : Node} (h : Effect n m) (hn : ¬Drainable n) :
    ¬Drainable m ∧ m.work = 4 * m.epktcnt.toNat ∧
      (n.work = 4 * n.epktcnt.toNat → m.work = n.work) := by
  have hgrants : ¬n.HasRoom := fun hg => hn (.inl hg)
  have hne : n.epktcnt.toNat ≠ 0 := fun he => hn (.inr (.inl (UInt8.toNat_inj.mp he)))
  obtain ⟨hcount, htx, htxer⟩ := h.left (.inl hgrants)
  have hone : n.epktcnt.toNat = 1 → n.rxerif = false := fun he =>
    Bool.eq_false_iff.mpr fun hrx => hn (.inr (.inr ⟨UInt8.toNat_inj.mp he, hrx⟩))
  have hle := Bool.toNat_le n.rxerif
  have hpos : m.epktcnt.toNat ≠ 0 := by
    by_cases he : n.epktcnt.toNat = 1
    · rw [hcount, hone he, he]
      decide
    · omega
  have hwork : m.work = 4 * m.epktcnt.toNat := by
    rw [Node.work, htx, htxer, h.rxerif]
    rfl
  refine ⟨?_, hwork, fun hn' => ?_⟩
  · rintro (hg | he | ⟨-, hrx⟩)
    · rw [Node.HasRoom, h.memmap] at hg
      exact hgrants hg
    · exact hpos (by rw [he]; rfl)
    · rw [h.rxerif] at hrx
      cases hrx
  · unfold Node.work at hn'
    rw [hwork, hcount, Node.work]
    omega

theorem ready_iterate (hw : Ready w) (k : ℕ) : Ready ((handlerRun env fuel)^[k] w) := by
  induction k with
  | zero => exact hw
  | succ k ih =>
    rw [Function.iterate_succ_apply']
    exact (handlerRun_effect env fuel ih).1

theorem ends_of_drainable (hw : Ready w) (hd : Drainable w.node) : Ends env fuel w := by
  suffices h : ∀ rounds (w : World), Ready w → Drainable w.node → w.node.work ≤ rounds →
      (Prog.run (boardStep env) (exti1IrqHandler fuel rounds) w).1 = some () from
    ⟨w.node.work, h _ w hw hd (Nat.le_refl _)⟩
  intro rounds
  induction rounds with
  | zero =>
    intro w hw hd hle
    have hhigh : w.node.intLow = false :=
      Bool.eq_false_iff.mpr fun hlow => (intLow_iff hw).mp hlow (by omega)
    rw [run_exti1_of_high hhigh]
  | succ rounds ih =>
    intro w hw hd hle
    cases hlow : w.node.intLow with
    | false => rw [run_exti1_of_high hlow]
    | true =>
      obtain ⟨hready, heffect⟩ := handlerRun_effect env fuel hw
      obtain ⟨hd', hlt⟩ := heffect.drainable hd
      have := hlt ((intLow_iff hw).mp hlow)
      rw [run_exti1_of_low hw hlow]
      exact ih _ hready hd' (by omega)

theorem intLow_of_not_drainable (hw : Ready w) (hd : ¬Drainable w.node) :
    w.node.intLow = true := by
  rw [intLow_iff hw]
  have hne : w.node.epktcnt.toNat ≠ 0 := fun he => hd (.inr (.inl (UInt8.toNat_inj.mp he)))
  unfold Node.work
  omega

theorem drainable_of_ends (hw : Ready w) (he : Ends env fuel w) : Drainable w.node := by
  obtain ⟨rounds, hr⟩ := he
  by_contra hd
  suffices h : ∀ rounds (w : World), Ready w → ¬Drainable w.node →
      (Prog.run (boardStep env) (exti1IrqHandler fuel rounds) w).1 = none by
    rw [h rounds w hw hd] at hr
    cases hr
  intro rounds
  induction rounds with
  | zero => exact fun w hw hd => run_exti1_zero (intLow_of_not_drainable hw hd)
  | succ rounds ih =>
    intro w hw hd
    obtain ⟨hready, heffect⟩ := handlerRun_effect env fuel hw
    rw [run_exti1_of_low hw (intLow_of_not_drainable hw hd)]
    exact ih _ hready (heffect.stuck hd).1

theorem eachRunDecreases_of_drainable (hw : Ready w) (hd : Drainable w.node) :
    EachRunDecreases env fuel w := by
  intro k hlow
  have hdk : Drainable ((handlerRun env fuel)^[k] w).node := by
    clear hlow
    induction k with
    | zero => exact hd
    | succ k ih =>
      rw [Function.iterate_succ_apply']
      exact ((handlerRun_effect env fuel (ready_iterate hw k)).2.drainable ih).1
  have hk : Ready ((handlerRun env fuel)^[k] w) := ready_iterate hw k
  rw [Function.iterate_succ_apply']
  have hpos := (intLow_iff hk).mp (hlow k (Nat.le_refl k))
  exact ((handlerRun_effect env fuel hk).2.drainable hdk).2 hpos

theorem drainable_of_eachRunDecreases (hw : Ready w) (hdec : EachRunDecreases env fuel w) :
    Drainable w.node := by
  by_contra hd
  obtain ⟨hready, heffect⟩ := handlerRun_effect env fuel hw
  obtain ⟨hd₁, hwork, -⟩ := heffect.stuck hd
  obtain ⟨-, -, hsame⟩ := (handlerRun_effect env fuel hready).2.stuck hd₁
  have hlow : ∀ j ≤ 1, ((handlerRun env fuel)^[j] w).node.intLow = true := by
    intro j hj
    obtain rfl | rfl : j = 0 ∨ j = 1 := by omega
    · exact intLow_of_not_drainable hw hd
    · exact intLow_of_not_drainable hready hd₁
  have hlt := hdec 1 hlow
  rw [Function.iterate_succ_apply', Function.iterate_one] at hlt
  exact absurd (hsame hwork) (Nat.ne_of_lt hlt)

/-- The loop of `EXTI1_IRQHandler` ends, with every run of the handler lessening the pending work,
exactly when the pool has room for the receive buffer, or no packet is pending, or one is and a
receive error with it. -/
theorem exti1_ends_iff (env : Env) (fuel : ℕ) {w : World} (hw : Ready w) :
    (Ends env fuel w ↔ Drainable w.node) ∧ (EachRunDecreases env fuel w ↔ Drainable w.node) :=
  ⟨⟨drainable_of_ends hw, ends_of_drainable hw⟩,
    ⟨drainable_of_eachRunDecreases hw, eachRunDecreases_of_drainable hw⟩⟩

end Loop

/-- A board with `count` pending packets, `EIE` as after `ENC28J60_Init`, and all cells of the
pool holding `cell`. -/
def pendingBoard (count : UInt8) (cell : ℕ) : World :=
  { powerOn with node :=
    { powerOn.node with epktcnt := count, memmap := fun _ => cell }.setEie 0xCB }

theorem ready_pendingBoard (count : UInt8) (cell : ℕ) : Ready (pendingBoard count cell) :=
  ⟨⟨0, rfl, rfl⟩, rfl⟩

theorem exti1_ends_iff_three :
    (Ends quietEnv 0 (pendingBoard 3 0) ↔ Drainable (pendingBoard 3 0).node) ∧
      (EachRunDecreases quietEnv 0 (pendingBoard 3 0) ↔ Drainable (pendingBoard 3 0).node) :=
  exti1_ends_iff quietEnv 0 (ready_pendingBoard 3 0)

/-- One packet is pending and the pool is full: the loop does not end. -/
theorem exti1_not_ends_full : ¬Ends quietEnv 0 (pendingBoard 1 1) := by
  intro h
  obtain ⟨o, -, hfree⟩ | h | ⟨-, h⟩ := drainable_of_ends (ready_pendingBoard 1 1) h
  · exact absurd (hfree o (Nat.le_refl o) (Nat.lt_add_of_pos_right (by decide))) Nat.one_ne_zero
  · exact absurd h (by decide)
  · exact absurd h (by decide)

end Enc28j60

end Enc28j60Udp
