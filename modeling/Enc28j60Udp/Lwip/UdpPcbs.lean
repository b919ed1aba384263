import Enc28j60Udp.Foundations.Runs
import Enc28j60Udp.Lwip.Udp
import Mathlib.Data.List.Nodup
import Mathlib.Data.List.Perm.Subperm

/-!
# The PCBs over a run

A PCB is bound when it is in the list `udp_pcbs`. No two of the PCBs that are bound have the same
port and addresses that overlap (`Udp.Inv`), whatever the clients do and whatever arrives. So the
order of the list, which every datagram may change, does not matter for who gets a datagram
(`demux_unicast`), and since the pool has fewer PCBs than there are ports, a port is always found
(`udpBind_spec`).
-/

namespace Enc28j60Udp

namespace Lwip

/-! ## The list -/

section Demux

variable {pcb : ℕ → UdpPcb} {inp : Netif} {srcIp destIp : UInt32} {src dest : ℕ}

/-- The first PCB that is connected to the source, and else the first that is not connected. -/
theorem demuxLoop_fst (l prev : List ℕ) (unconPcb : Option ℕ) :
    (demuxLoop pcb inp srcIp destIp src dest l prev unconPcb).1 =
      (l.find? fun c => (pcb c).localMatch inp destIp dest && (pcb c).remoteMatch srcIp src).or
        (unconPcb.or (l.find? fun c =>
          (pcb c).localMatch inp destIp dest && !(pcb c).connected)) := by
  induction l generalizing prev unconPcb with
  | nil => simp [demuxLoop]
  | cons c l ih =>
    rw [demuxLoop, List.find?_cons, List.find?_cons]
    generalize (pcb c).localMatch inp destIp dest = localMatch
    generalize (pcb c).remoteMatch srcIp src = remoteMatch
    generalize (pcb c).connected = connected
    cases localMatch with
    | false => simp [ih]
    | true =>
      cases remoteMatch with
      | true => simp
      | false => cases connected <;> cases unconPcb <;> simp [ih]

/-- The PCB that gets a datagram is moved to the front, and nothing else. -/
theorem demuxLoop_perm (l prev : List ℕ) (unconPcb : Option ℕ) :
    (demuxLoop pcb inp srcIp destIp src dest l prev unconPcb).2.Perm (prev ++ l) := by
  induction l generalizing prev unconPcb with
  | nil =>
    rw [demuxLoop, List.append_nil]
    exact List.reverse_perm prev
  | cons c l ih =>
    rw [demuxLoop]
    split
    · exact ((List.reverse_perm prev).append_right l |>.cons c).trans List.perm_middle.symm
    · exact (ih (c :: prev) _).trans List.perm_middle.symm

theorem demux_perm (s : Udp) (dhcp : Option ℕ) :
    (demux s dhcp inp srcIp destIp src dest).2.Perm s.pcbs := by
  rw [demux]
  split_ifs
  · exact List.Perm.refl _
  · exact List.Perm.refl _
  · exact demuxLoop_perm s.pcbs [] none

end Demux

/-! ## Ports -/

section Port

variable {used : ℕ → Bool} {left port i : ℕ}

/-- The port that is tried in a round. -/
def triedPort (port round : ℕ) : ℕ := 0xc000 + (port - 0xc000 + round) % 0x4000

theorem triedPort_mem (port round : ℕ) :
    0xc000 ≤ triedPort port round ∧ triedPort port round ≤ 0xffff := by
  rw [triedPort]
  omega

theorem triedPort_one (hport : 0xc000 ≤ port ∧ port ≤ 0xffff) :
    triedPort port 1 = if port = 0xffff then 0xc000 else port + 1 := by
  rw [triedPort]
  split_ifs <;> omega

theorem triedPort_triedPort (port i j : ℕ) :
    triedPort (triedPort port i) j = triedPort port (i + j) := by
  rw [triedPort, triedPort, triedPort]
  omega

/-- The loop takes the first port that is not used, and gives up when all that it tries are. -/
theorem newPortLoop_spec (hport : 0xc000 ≤ port ∧ port ≤ 0xffff) :
    (∃ i ≤ left, newPortLoop used left port = (triedPort port (i + 1), triedPort port (i + 1)) ∧
        used (triedPort port (i + 1)) = false) ∨
      newPortLoop used left port = (0, triedPort port (left + 1)) ∧
        ∀ i ≤ left, used (triedPort port (i + 1)) = true := by
  induction left generalizing port with
  | zero =>
    rw [newPortLoop, ← triedPort_one hport]
    cases hused : used (triedPort port 1) with
    | false => exact .inl ⟨0, Nat.le_refl 0, by simp, hused⟩
    | true =>
      refine .inr ⟨by simp, fun i hi => ?_⟩
      rw [Nat.le_zero.mp hi]
      exact hused
  | succ left ih =>
    rw [newPortLoop, ← triedPort_one hport]
    cases hused : used (triedPort port 1) with
    | false => exact .inl ⟨0, Nat.zero_le _, by simp, hused⟩
    | true =>
      have hnext (i : ℕ) : triedPort (triedPort port 1) (i + 1) = triedPort port (i + 1 + 1) := by
        rw [triedPort_triedPort, Nat.add_comm 1]
      simp only [if_true]
      rcases ih (triedPort_mem port 1) with ⟨i, hi, hloop, hfree⟩ | ⟨hloop, hall⟩
      · rw [hnext] at hloop hfree
        exact .inl ⟨i + 1, Nat.succ_le_succ hi, hloop, hfree⟩
      · rw [hnext] at hloop
        refine .inr ⟨hloop, fun i hi => ?_⟩
        cases i with
        | zero => exact hused
        | succ i => exact hnext i ▸ hall i (Nat.le_of_succ_le_succ hi)

/-- All ports are tried. -/
theorem exists_triedPort (hport : 0xc000 ≤ port ∧ port ≤ 0xffff) (hi : 0xc000 ≤ i ∧ i ≤ 0xffff) :
    ∃ round ≤ 0x3fff, triedPort port (round + 1) = i := by
  refine ⟨(i - 0xc000 + 0x4000 - (port - 0xc000) + 0x3fff) % 0x4000, by omega, ?_⟩
  rw [triedPort]
  omega

/-- `udp_new_port` fails only when every local port is in use. -/
theorem udpNewPort_spec {s : Udp} (hport : 0xc000 ≤ s.port ∧ s.port ≤ 0xffff) :
    ∃ port udpPort, udpNewPort s = (port, { s with port := udpPort }) ∧
      (0xc000 ≤ udpPort ∧ udpPort ≤ 0xffff) ∧
      ((0xc000 ≤ port ∧ port ≤ 0xffff) ∧ (∀ c ∈ s.pcbs, (s.pcb c).localPort ≠ port) ∨
        port = 0 ∧ ∀ i, 0xc000 ≤ i → i ≤ 0xffff → ∃ c ∈ s.pcbs, (s.pcb c).localPort = i) := by
  rw [udpNewPort]
  rcases @newPortLoop_spec (fun port => s.pcbs.any fun c => (s.pcb c).localPort == port) 0x3fff
    s.port hport with ⟨i, -, hloop, hfree⟩ | ⟨hloop, hall⟩
  · refine ⟨_, _, by rw [hloop], triedPort_mem _ _, .inl ⟨triedPort_mem _ _, ?_⟩⟩
    simpa using hfree
  · refine ⟨_, _, by rw [hloop], triedPort_mem _ _, .inr ⟨rfl, fun i hlo hhi => ?_⟩⟩
    obtain ⟨round, hround, hi⟩ := exists_triedPort hport ⟨hlo, hhi⟩
    simpa [hi] using hall round hround

end Port

/-! ## The invariant -/

/-- The PCB is bound to the port, at an address that is not apart from `ipaddr`. -/
def UdpPcb.Overlaps (c : UdpPcb) (ipaddr : UInt32) (port : ℕ) : Prop :=
  c.localPort = port ∧ (isAny c.localIp ∨ isAny ipaddr ∨ c.localIp = ipaddr)

instance (c : UdpPcb) (ipaddr : UInt32) (port : ℕ) : Decidable (c.Overlaps ipaddr port) :=
  inferInstanceAs (Decidable (_ ∧ _))

/-- What holds between the list and the PCBs that are taken from the pool. -/
structure Udp.Inv (s : Udp) (live : List ℕ) : Prop where
  nodup : s.pcbs.Nodup
  nodup_live : live.Nodup
  length_le : live.length ≤ 6
  mem_iff : ∀ c, c ∈ s.pcbs ↔ c ∈ live ∧ (s.pcb c).localPort ≠ 0
  localPort_lt : ∀ c ∈ live, (s.pcb c).localPort < 2 ^ 16
  apart : ∀ c ∈ s.pcbs, ∀ c' ∈ s.pcbs, c' ≠ c →
    ¬(s.pcb c').Overlaps (s.pcb c).localIp (s.pcb c).localPort
  port_mem : 0xc000 ≤ s.port ∧ s.port ≤ 0xffff

section Inv

variable {s : Udp} {live : List ℕ} {pcb : ℕ} {ipaddr : UInt32} {port : ℕ}

theorem Udp.Inv.length_pcbs_le (hs : s.Inv live) : s.pcbs.length ≤ 6 :=
  (hs.nodup.subperm fun c hc => ((hs.mem_iff c).mp hc).1).length_le.trans hs.length_le

/-- The list may be in any order. -/
theorem Udp.Inv.perm {pcbs : List ℕ} (hs : s.Inv live) (hperm : pcbs.Perm s.pcbs) :
    Udp.Inv { s with pcbs := pcbs } live where
  nodup := hperm.nodup_iff.mpr hs.nodup
  nodup_live := hs.nodup_live
  length_le := hs.length_le
  mem_iff c := hperm.mem_iff.trans (hs.mem_iff c)
  localPort_lt := hs.localPort_lt
  apart c hc c' hc' := hs.apart c (hperm.mem_iff.mp hc) c' (hperm.mem_iff.mp hc')
  port_mem := hs.port_mem

/-- There are fewer PCBs than ports. -/
theorem Udp.Inv.exists_free (hs : s.Inv live) :
    ∃ i, 0xc000 ≤ i ∧ i ≤ 0xffff ∧ ∀ c ∈ s.pcbs, (s.pcb c).localPort ≠ i := by
  by_contra hall
  have hsub : List.range' 0xc000 0x4000 ⊆ s.pcbs.map fun c => (s.pcb c).localPort := by
    intro i hi
    rw [List.mem_range'_1] at hi
    by_contra hfree
    refine hall ⟨i, hi.1, by omega, fun c hc heq => hfree ?_⟩
    exact List.mem_map.mpr ⟨c, hc, heq⟩
  have hlen := ((List.nodup_range' (s := 0xc000) (n := 0x4000)).subperm hsub).length_le
  rw [List.length_range', List.length_map] at hlen
  have hpcbs := hs.length_pcbs_le
  omega

/-! ## `udp_bind` -/

theorem bindLoop_eq_none_iff (l : List ℕ) (rebind : Bool) :
    bindLoop s pcb ipaddr port l rebind = none ↔
      ∃ c ∈ l, c ≠ pcb ∧ (s.pcb c).Overlaps ipaddr port := by
  induction l generalizing rebind with
  | nil => simp [bindLoop]
  | cons c l ih =>
    rw [bindLoop]
    split_ifs with hself hover
    · subst hself
      simp [ih]
    · exact iff_of_true rfl ⟨c, List.mem_cons_self, Ne.symm hself, hover⟩
    · have hover : ¬(s.pcb c).Overlaps ipaddr port := hover
      simp [ih, hover]

theorem bindLoop_eq_some {l : List ℕ} {rebind rebind' : Bool}
    (h : bindLoop s pcb ipaddr port l rebind = some rebind') :
    rebind' = (rebind || decide (pcb ∈ l)) := by
  induction l generalizing rebind with
  | nil =>
    rw [bindLoop, Option.some.injEq] at h
    simp [h]
  | cons c l ih =>
    rw [bindLoop] at h
    split_ifs at h with hself
    · simp [ih h, hself]
    · simp [ih h, hself]

/-- The PCB is bound. -/
def Udp.bound (s : Udp) (pcb : ℕ) (ipaddr : UInt32) (port udpPort : ℕ) : Udp :=
  { s.set pcb fun c => { c with localIp := ipaddr, localPort := port } with
    pcbs := if pcb ∈ s.pcbs then s.pcbs else pcb :: s.pcbs
    port := udpPort }

/-- **`udp_bind`** fails when another PCB is bound to the port at an address that overlaps, and
changes nothing then. Else the PCB is bound, to a port that no PCB has when none was given. -/
theorem udpBind_spec (hs : s.Inv live) (hport : port < 2 ^ 16) :
    ((∃ c ∈ s.pcbs, c ≠ pcb ∧ (s.pcb c).Overlaps ipaddr port) ∧
        udpBind s pcb ipaddr port = (.use, s)) ∨
      (¬∃ c ∈ s.pcbs, c ≠ pcb ∧ (s.pcb c).Overlaps ipaddr port) ∧
        ∃ localPort udpPort,
          udpBind s pcb ipaddr port = (.ok, s.bound pcb ipaddr localPort udpPort) ∧
          (0xc000 ≤ udpPort ∧ udpPort ≤ 0xffff) ∧ (0 < localPort ∧ localPort < 2 ^ 16) ∧
          (localPort = port ∨
            port = 0 ∧ 0xc000 ≤ localPort ∧ ∀ c ∈ s.pcbs, (s.pcb c).localPort ≠ localPort) := by
  rw [udpBind]
  cases hloop : bindLoop s pcb ipaddr port s.pcbs false with
  | none => exact .inl ⟨(bindLoop_eq_none_iff _ _).mp hloop, rfl⟩
  | some rebind =>
    have hfree : ¬∃ c ∈ s.pcbs, c ≠ pcb ∧ (s.pcb c).Overlaps ipaddr port := by
      rw [← bindLoop_eq_none_iff s.pcbs false, hloop]
      exact Option.some_ne_none rebind
    have hrebind := bindLoop_eq_some hloop
    rw [Bool.false_or] at hrebind
    have hbound (localPort udpPort : ℕ) :
        (let s := (⟨(s.set pcb fun c => { c with localIp := ipaddr }).pcb, s.pcbs, udpPort⟩ :
          Udp).set pcb fun c => { c with localPort }
        if rebind then s else { s with pcbs := pcb :: s.pcbs }) =
          s.bound pcb ipaddr localPort udpPort := by
      have hset := congrArg Udp.pcb (@Udp.set_set s pcb (fun c => { c with localIp := ipaddr })
        fun c => { c with localPort })
      rw [Udp.bound, ← hset, hrebind]
      by_cases hmem : pcb ∈ s.pcbs
      · rw [decide_eq_true hmem, if_pos rfl, if_pos hmem]
        rfl
      · rw [decide_eq_false hmem, if_neg hmem]
        rfl
    refine .inr ⟨hfree, ?_⟩
    by_cases hzero : port = 0
    · -- the ports are the same after the address is set
      have hports (c : ℕ) : ((s.set pcb fun c => { c with localIp := ipaddr }).pcb c).localPort =
          (s.pcb c).localPort := by
        refine Udp.set_pcb_of_eq UdpPcb.localPort ?_ c
        exact fun _ => rfl
      obtain ⟨localPort, udpPort, hnew, hudpPort, ⟨hmem, hunused⟩ | ⟨-, hall⟩⟩ :=
        @udpNewPort_spec (s.set pcb fun c => { c with localIp := ipaddr }) hs.port_mem
      · have hpos : localPort ≠ 0 := by omega
        refine ⟨localPort, udpPort, ?_, hudpPort, by omega,
          .inr ⟨hzero, hmem.1, fun c hc => ?_⟩⟩
        · simp only [hzero, if_true, hnew, if_neg hpos]
          exact congrArg (Prod.mk Err.ok) (hbound localPort udpPort)
        · exact hports c ▸ hunused c hc
      · obtain ⟨i, hlo, hhi, hfree⟩ := hs.exists_free
        obtain ⟨c, hc, hi⟩ := hall i hlo hhi
        exact absurd (hports c ▸ hi) (hfree c hc)
    · refine ⟨port, s.port, ?_, hs.port_mem, ⟨Nat.pos_of_ne_zero hzero, hport⟩, .inl rfl⟩
      simp only [if_neg hzero]
      exact congrArg (Prod.mk Err.ok) (hbound port s.port)

/-! ## Every operation keeps the invariant -/

theorem UdpPcb.overlaps_comm {a b : UdpPcb} :
    a.Overlaps b.localIp b.localPort ↔ b.Overlaps a.localIp a.localPort := by
  unfold UdpPcb.Overlaps
  rw [eq_comm, or_left_comm, eq_comm (a := a.localIp)]

/-- Other fields than the local address are set. -/
theorem Udp.Inv.set {f : UdpPcb → UdpPcb} (hs : s.Inv live)
    (hip : ∀ c, (f c).localIp = c.localIp) (hport : ∀ c, (f c).localPort = c.localPort) :
    (s.set pcb f).Inv live := by
  have hips := @Udp.set_pcb_of_eq s pcb f _ UdpPcb.localIp hip
  have hports := @Udp.set_pcb_of_eq s pcb f _ UdpPcb.localPort hport
  refine ⟨hs.nodup, hs.nodup_live, hs.length_le, fun c => ?_, fun c hc => ?_,
    fun c hc c' hc' hne => ?_, hs.port_mem⟩
  · rw [hports, Udp.set_pcbs, hs.mem_iff]
  · rw [hports]
    exact hs.localPort_lt c hc
  · have h := hs.apart c hc c' hc' hne
    rwa [UdpPcb.Overlaps, hports, hports, hips, hips]

theorem Udp.Inv.bound {udpPort : ℕ} (hs : s.Inv live) (hpcb : pcb ∈ live)
    (hfree : ∀ c ∈ s.pcbs, c ≠ pcb → ¬(s.pcb c).Overlaps ipaddr port)
    (hport : 0 < port ∧ port < 2 ^ 16) (hudpPort : 0xc000 ≤ udpPort ∧ udpPort ≤ 0xffff) :
    (s.bound pcb ipaddr port udpPort).Inv live := by
  have hself : (s.bound pcb ipaddr port udpPort).pcb pcb =
      { s.pcb pcb with localIp := ipaddr, localPort := port } := Function.update_self ..
  have hother {c : ℕ} (hc : c ≠ pcb) : (s.bound pcb ipaddr port udpPort).pcb c = s.pcb c :=
    Function.update_of_ne hc ..
  have hmem (c : ℕ) : c ∈ (s.bound pcb ipaddr port udpPort).pcbs ↔ c = pcb ∨ c ∈ s.pcbs := by
    rw [Udp.bound]
    split_ifs with hin
    · exact ⟨.inr, fun h => h.elim (fun heq => heq ▸ hin) id⟩
    · exact List.mem_cons
  have hold {c : ℕ} (hc : c ∈ (s.bound pcb ipaddr port udpPort).pcbs) (hne : c ≠ pcb) :
      c ∈ s.pcbs := ((hmem c).mp hc).resolve_left hne
  refine ⟨?_, hs.nodup_live, hs.length_le, fun c => ?_, fun c hc => ?_, fun c hc c' hc' hne => ?_,
    hudpPort⟩
  · rw [Udp.bound]
    split_ifs with hin
    · exact hs.nodup
    · exact List.nodup_cons.mpr ⟨hin, hs.nodup⟩
  · rw [hmem]
    by_cases hc : c = pcb
    · rw [hc, hself]
      exact iff_of_true (.inl rfl) ⟨hpcb, hport.1.ne'⟩
    · rw [hother hc, or_iff_right hc, hs.mem_iff]
  · by_cases hc' : c = pcb
    · rw [hc', hself]
      exact hport.2
    · rw [hother hc']
      exact hs.localPort_lt c hc
  · by_cases hcp : c = pcb
    · subst hcp
      rw [hself, hother hne]
      exact hfree c' (hold hc' hne) hne
    · by_cases hcp' : c' = pcb
      · subst hcp'
        rw [UdpPcb.overlaps_comm, hself, hother hcp]
        exact hfree c (hold hc hcp) hcp
      · rw [hother hcp, hother hcp']
        exact hs.apart c (hold hc hcp) c' (hold hc' hcp') hne

theorem Udp.Inv.udpBind (hs : s.Inv live) (hpcb : pcb ∈ live) (hport : port < 2 ^ 16) :
    (udpBind s pcb ipaddr port).2.Inv live := by
  rcases udpBind_spec hs hport with ⟨-, hbind⟩ |
    ⟨hfree, localPort, udpPort, hbind, hudpPort, hlocalPort, hnew⟩
  · rw [hbind]
    exact hs
  · rw [hbind]
    refine hs.bound hpcb (fun c hc hne hover => ?_) hlocalPort hudpPort
    rcases hnew with rfl | ⟨-, -, hnew⟩
    · exact hfree ⟨c, hc, hne, hover⟩
    · exact hnew c hc hover.1

theorem Udp.Inv.udpDisconnect (hs : s.Inv live) : (udpDisconnect s pcb).Inv live := by
  refine hs.set ?_ ?_
  · exact fun _ => rfl
  · exact fun _ => rfl

theorem Udp.Inv.udpRecv {recv : Bool} (hs : s.Inv live) : (udpRecv s pcb recv).Inv live := by
  refine hs.set ?_ ?_
  · exact fun _ => rfl
  · exact fun _ => rfl

/-- A PCB is bound before it is connected, and before it sends. -/
theorem Udp.Inv.bindAny (hs : s.Inv live) (hpcb : pcb ∈ live) :
    (if (s.pcb pcb).localPort = 0 then Lwip.udpBind s pcb (s.pcb pcb).localIp 0 else (.ok, s)).2.Inv
      live := by
  split_ifs
  · exact hs.udpBind hpcb (by decide)
  · exact hs

theorem Udp.Inv.udpSendto {ipId dstPort : ℕ} {p : List Pbuf} {hdr : Option Pbuf} {dstIp : UInt32}
    {netif : Netif} (hs : s.Inv live) (hpcb : pcb ∈ live) :
    (udpSendto s ipId pcb p hdr dstIp dstPort netif).2.1.Inv live := by
  have hbind := hs.bindAny hpcb
  rw [Lwip.udpSendto]
  cases ipRoute netif dstIp with
  | none => exact hs
  | some netif =>
    dsimp only
    rw [udpSendtoIf]
    generalize (if (s.pcb pcb).localPort = 0 then _ else _ : Err × Udp) = r at hbind ⊢
    obtain ⟨err, s⟩ := r
    dsimp only at hbind ⊢
    cases headerChain p hdr with
    | none => split_ifs <;> exact hbind
    | some q => split_ifs <;> exact hbind

/-- A PCB that was bound is in the list. -/
theorem Udp.Inv.mem_bindAny {r : Err × Udp} (hs : s.Inv live) (hpcb : pcb ∈ live)
    (hr : r = if (s.pcb pcb).localPort = 0 then Lwip.udpBind s pcb (s.pcb pcb).localIp 0
      else (.ok, s)) (hok : r.1 = .ok) : pcb ∈ r.2.pcbs := by
  have hinv := hs.bindAny hpcb
  rw [← hr] at hinv
  refine (hinv.mem_iff pcb).mpr ⟨hpcb, ?_⟩
  split_ifs at hr with hzero
  · rcases udpBind_spec hs (by decide : 0 < 2 ^ 16) with ⟨-, hbind⟩ |
      ⟨-, localPort, udpPort, hbind, -, hlocalPort, -⟩
    · rw [hr, hbind] at hok
      cases hok
    · rw [hr, hbind,
        show (s.bound pcb _ localPort udpPort).pcb pcb = _ from Function.update_self ..]
      exact hlocalPort.1.ne'
  · rw [hr]
    exact hzero

/-- `udp_connect` does not find the PCB outside the list. -/
theorem Udp.Inv.udpConnect (hs : s.Inv live) (hpcb : pcb ∈ live) :
    (udpConnect s pcb ipaddr port).2.Inv live := by
  have hbind := hs.bindAny hpcb
  have hmem := hs.mem_bindAny hpcb rfl
  rw [Lwip.udpConnect]
  generalize (if (s.pcb pcb).localPort = 0 then _ else _ : Err × Udp) = r at hbind hmem ⊢
  obtain ⟨err, s⟩ := r
  by_cases herr : err = .ok
  · subst herr
    dsimp only at hbind hmem ⊢
    rw [if_neg (by decide)]
    dsimp only
    rw [Udp.set_pcbs, if_pos (hmem rfl)]
    exact hbind.set (fun _ => rfl) fun _ => rfl
  · dsimp only at hbind ⊢
    rw [if_pos herr]
    exact hbind

/-- `udp_remove` takes the PCB off the list, at most once. -/
theorem removeLoop_eq_erase {l : List ℕ} (hl : l.Nodup) (hhead : l.head? ≠ some pcb) :
    removeLoop pcb l = l.erase pcb := by
  induction l using removeLoop.induct pcb with
  | case1 c l ih =>
    have hc : c ≠ pcb := fun heq => hhead (congrArg some heq)
    obtain ⟨-, hl⟩ := List.nodup_cons.mp hl
    obtain ⟨hpcb, hl⟩ := List.nodup_cons.mp hl
    have hne : l.head? ≠ some pcb := fun heq => hpcb (List.mem_of_head? heq)
    rw [removeLoop, if_pos rfl, List.erase_cons_tail (by simpa using hc), List.erase_cons_head,
      ih hl hne, List.erase_of_not_mem hpcb]
  | case2 c d l hne ih =>
    have hc : c ≠ pcb := fun heq => hhead (congrArg some heq)
    have hd : (d :: l).head? ≠ some pcb := fun heq => hne (Option.some.inj heq)
    rw [removeLoop, if_neg hne, List.erase_cons_tail (by simpa using hc), ih hl.of_cons hd]
  | case3 l h =>
    match l with
    | [] => rfl
    | [c] =>
      have hc : c ≠ pcb := fun heq => hhead (congrArg some heq)
      rw [List.erase_of_not_mem (by simpa using hc.symm)]
      rfl
    | c :: d :: l => exact (h c d l rfl).elim

theorem udpRemove_pcbs (hl : s.pcbs.Nodup) : (udpRemove s pcb).pcbs = s.pcbs.erase pcb := by
  rw [udpRemove]
  split_ifs with hhead
  · obtain ⟨l, hl⟩ := List.head?_eq_some_iff.mp hhead
    rw [hl, List.tail_cons, List.erase_cons_head]
  · exact removeLoop_eq_erase hl hhead

theorem Udp.Inv.udpRemove (hs : s.Inv live) : (udpRemove s pcb).Inv (live.erase pcb) := by
  have hpcbs : (Lwip.udpRemove s pcb).pcbs = s.pcbs.erase pcb := udpRemove_pcbs hs.nodup
  have hmem (c : ℕ) : c ∈ (Lwip.udpRemove s pcb).pcbs ↔ c ≠ pcb ∧ c ∈ s.pcbs := by
    rw [hpcbs, hs.nodup.mem_erase_iff]
  refine ⟨?_, hs.nodup_live.erase pcb, ?_, fun c => ?_, fun c hc => ?_, fun c hc c' hc' => ?_,
    hs.port_mem⟩
  · rw [hpcbs]
    exact hs.nodup.erase pcb
  · exact List.erase_sublist.length_le.trans hs.length_le
  · rw [hmem, hs.nodup_live.mem_erase_iff, hs.mem_iff, and_assoc]
    rfl
  · exact hs.localPort_lt c (List.mem_of_mem_erase hc)
  · exact hs.apart c ((hmem c).mp hc).2 c' ((hmem c').mp hc').2

theorem Udp.Inv.udpNew (hs : s.Inv live) (hpcb : pcb ∉ live) (hroom : live.length < 6) :
    (udpNew s pcb).Inv (pcb :: live) := by
  have hself : ((Lwip.udpNew s pcb).pcb pcb).localPort = 0 :=
    congrArg UdpPcb.localPort Udp.set_pcb_self
  have hother {c : ℕ} (hc : c ≠ pcb) : (Lwip.udpNew s pcb).pcb c = s.pcb c := Udp.set_pcb_of_ne hc
  have hne {c : ℕ} (hc : c ∈ s.pcbs) : c ≠ pcb := by
    rintro rfl
    exact hpcb ((hs.mem_iff c).mp hc).1
  refine ⟨hs.nodup, List.nodup_cons.mpr ⟨hpcb, hs.nodup_live⟩, hroom, fun c => ?_, fun c hc => ?_,
    fun c hc c' hc' => ?_, hs.port_mem⟩
  · by_cases hc : c = pcb
    · subst hc
      rw [hself]
      exact iff_of_false (fun h => hne h rfl) fun h => h.2 rfl
    · rw [hother hc, List.mem_cons, or_iff_right hc]
      exact hs.mem_iff c
  · by_cases hc' : c = pcb
    · rw [hc', hself]
      decide
    · rw [hother hc']
      exact hs.localPort_lt c (List.mem_of_ne_of_mem hc' hc)
  · rw [hother (hne hc), hother (hne hc')]
    exact hs.apart c hc c' hc'

/-! ## Who gets a datagram -/

/-- The PCB is bound to the destination of a datagram, and not connected to another source. -/
def UdpPcb.Receives (c : UdpPcb) (srcIp destIp : UInt32) (src dest : ℕ) : Prop :=
  0 < c.localPort ∧ c.localPort = dest ∧ (isAny c.localIp ∨ c.localIp = destIp) ∧
    (c.connected → c.remotePort = src ∧ (isAny c.remoteIp ∨ c.remoteIp = srcIp))

/-- A datagram to an address that is not a broadcast address goes to the PCB that receives it, of
which there is at most one: the order of the list does not matter. -/
theorem demux_unicast {dhcp : Option ℕ} {inp : Netif} {srcIp destIp : UInt32} {src dest c : ℕ}
    (hs : s.Inv live) (hunicast : isBroadcast destIp inp = false) (hdest : dest ≠ 68) :
    (demux s dhcp inp srcIp destIp src dest).1 = some c ↔
      c ∈ live ∧ (s.pcb c).Receives srcIp destIp src dest := by
  have hlocal (c : ℕ) : (s.pcb c).localMatch inp destIp dest = true ↔
      (s.pcb c).localPort = dest ∧ (isAny (s.pcb c).localIp ∨ (s.pcb c).localIp = destIp) := by
    simp [UdpPcb.localMatch, hunicast]
  have hremote (c : ℕ) : (s.pcb c).remoteMatch srcIp src = true ↔
      (s.pcb c).remotePort = src ∧ (isAny (s.pcb c).remoteIp ∨ (s.pcb c).remoteIp = srcIp) := by
    simp [UdpPcb.remoteMatch]
  have hunique {c c' : ℕ} (hc : c ∈ s.pcbs) (hm : (s.pcb c).localMatch inp destIp dest = true)
      (hc' : c' ∈ s.pcbs) (hm' : (s.pcb c').localMatch inp destIp dest = true) : c' = c := by
    by_contra hne
    obtain ⟨hport, hip⟩ := (hlocal c).mp hm
    obtain ⟨hport', hip'⟩ := (hlocal c').mp hm'
    refine hs.apart c hc c' hc' hne ⟨hport'.trans hport.symm, ?_⟩
    rcases hip with hany | heq
    · exact .inr (.inl hany)
    · rw [heq]
      exact hip'.imp_right .inr
  have hiff : c ∈ live ∧ (s.pcb c).Receives srcIp destIp src dest ↔
      c ∈ s.pcbs ∧ (s.pcb c).localMatch inp destIp dest = true ∧
        ((s.pcb c).connected = true → (s.pcb c).remoteMatch srcIp src = true) := by
    rw [hs.mem_iff, hlocal, hremote, UdpPcb.Receives, Nat.pos_iff_ne_zero]
    tauto
  rw [hiff, demux, if_neg hdest, demuxLoop_fst, Option.none_or]
  cases hfull : s.pcbs.find? fun c =>
      (s.pcb c).localMatch inp destIp dest && (s.pcb c).remoteMatch srcIp src with
  | some c' =>
    have hc' := List.mem_of_find?_eq_some hfull
    have hm' := List.find?_some hfull
    rw [Bool.and_eq_true] at hm'
    rw [Option.some_or, Option.some.injEq]
    constructor
    · rintro rfl
      exact ⟨hc', hm'.1, fun _ => hm'.2⟩
    · rintro ⟨hc, hm, -⟩
      exact hunique hc hm hc' hm'.1
  | none =>
    rw [Option.none_or]
    constructor
    · intro huncon
      have hm := List.find?_some huncon
      rw [Bool.and_eq_true, Bool.not_eq_true'] at hm
      exact ⟨List.mem_of_find?_eq_some huncon, hm.1, fun hcon => absurd hcon (by simp [hm.2])⟩
    · rintro ⟨hc, hm, hcon⟩
      have hnot : ¬(s.pcb c).remoteMatch srcIp src = true := by
        have h := List.find?_eq_none.mp hfull c hc
        rw [Bool.and_eq_true] at h
        exact fun hr => h ⟨hm, hr⟩
      have huncon : (s.pcb c).connected = false := by
        rw [← Bool.not_eq_true]
        exact fun h => hnot (hcon h)
      cases hfind : s.pcbs.find? fun c =>
          (s.pcb c).localMatch inp destIp dest && !(s.pcb c).connected with
      | none =>
        have h := List.find?_eq_none.mp hfind c hc
        rw [hm, huncon] at h
        exact absurd rfl h
      | some c' =>
        have hm' := List.find?_some hfind
        rw [Bool.and_eq_true] at hm'
        rw [hunique hc hm (List.mem_of_find?_eq_some hfind) hm'.1]

/-- A datagram whose headers are in the first buffer is read within the buffer, and changes only the
order of the list. -/
theorem udpInput_pcbs {q : Pbuf} {p : List Pbuf} (dhcp : Option ℕ) (inp : Netif)
    (srcIp destIp : UInt32) (hlen : 20 ≤ (chainData (q :: p)).length)
    (htot : (chainData (q :: p)).length < 2 ^ 16)
    (hq : min 68 (chainData (q :: p)).length ≤ q.len) :
    ∃ r pcbs, udpInput s dhcp inp (q :: p) srcIp destIp = some (r, { s with pcbs := pcbs }) ∧
      pcbs.Perm s.pcbs := by
  obtain ⟨vhl, hvhl⟩ := Pbuf.byte_isSome (q := q) (n := 0) (by omega)
  simp only [udpInput, List.head?_cons, Option.bind_eq_bind, Option.bind_some, hvhl, totLen_eq htot]
  have hhlen : (vhl &&& 0x0f).toNat * 4 ≤ 60 := by
    have h := Nat.and_le_right (n := vhl.toNat) (m := 15)
    rw [UInt8.toNat_and]
    exact Nat.mul_le_mul_right 4 h
  generalize (vhl &&& 0x0f).toNat * 4 = hlen at hhlen ⊢
  by_cases hshort : (chainData (q :: p)).length < hlen + 8
  · rw [if_pos hshort]
    exact ⟨_, _, rfl, List.Perm.refl _⟩
  rw [if_neg hshort]
  obtain ⟨u, hu, hdata⟩ := pbufHeader_neg (p := p) (show hlen ≤ q.len by omega)
  have hulen : 8 ≤ u.len := by
    rw [Pbuf.len, hdata, List.length_drop]
    rw [Pbuf.len] at hq
    omega
  obtain ⟨src, hsrc⟩ := Pbuf.ntohs_isSome (q := u) (n := 0) (by omega)
  obtain ⟨dest, hdest⟩ := Pbuf.ntohs_isSome (q := u) (n := 2) (by omega)
  obtain ⟨chksum, hchksum⟩ := Pbuf.ntohs_isSome (q := u) (n := 6) (by omega)
  have hperm := @demux_perm inp srcIp destIp src dest s dhcp
  simp only [hu, List.head?_cons, Option.bind_some, hsrc, hdest, hchksum]
  generalize demux s dhcp inp srcIp destIp src dest = r at hperm ⊢
  obtain ⟨found, pcbs⟩ := r
  -- every way out keeps the list of `demux`
  have hout (d : UdpInput) :
      ∃ r pcbs', (pure (d, { s with pcbs := pcbs }) : Option (UdpInput × Udp)) =
      some (r, { s with pcbs := pcbs' }) ∧ pcbs'.Perm s.pcbs := ⟨d, pcbs, rfl, hperm⟩
  cases pbufHeader (-8) (u :: p) with
  | none =>
    dsimp only
    split_ifs <;> exact hout _
  | some data =>
    cases found with
    | none =>
      dsimp only
      split_ifs <;> exact hout _
    | some c =>
      dsimp only
      split_ifs <;> exact hout _

end Inv

end Lwip

end Enc28j60Udp
