import Sv32.Proofs.Commands

/-! # How stale an answer may be

Memory may change under the buffer at any time here. What is left of the truth is that every answer comes
from a walk: for the same side, under the same `satp`, not flushed since, and the last one of its page. -/
namespace Sv32

structure Run (instruction data : Nat) (ram : Ram) (command : Nat → Command) where
  state : Nat → Machine
  answer : Nat → Machine.Answer
  start : (Mmu.new instruction data).map (Machine.mk · ram) = .ok (state 0)
  next : ∀ k, ∃ events, (state k).step (command k).op = .ok ⟨answer k, state (k + 1), events⟩

namespace Run

variable {instruction data : Nat} {ram : Ram} {command : Nat → Command}

theorem nonempty_of_pos (hi : 0 < instruction) (hd : 0 < data) (ram : Ram) (command : Nat → Command) :
    Nonempty (Run instruction data ram command) := by
  obtain ⟨m, hm, -⟩ := Machine.new_mmu hi hd
  obtain ⟨state, answer, h0, hnext⟩ := Effect.endless (fun k s => by
    obtain ⟨a, t, events, h, -⟩ := s.step_eq_ok (command k)
    exact ⟨_, h⟩) (Machine.mk m ram)
  exact ⟨state, answer, h0 ▸ congrArg (Except.map (Machine.mk · ram)) hm, hnext⟩

variable (ρ : Run instruction data ram command)

def satp (k : Nat) : Satp := (ρ.state k).plain.registers.satp

def FlushesAt (k : Nat) : Prop := (command k).flushes (ρ.satp k) = true

def WalksAt (k : Nat) (q : Request) (l : Leaf) : Prop :=
  command k = .translate q ∧ (ρ.state k).Walks q l

/-- Of the walks before `k` for this side, the one at `j` was the last to find this page. -/
def LastWalk (j k : Nat) (side : Side) (vpn : Word) (level : PageLevel) : Prop :=
  ∀ i q l, j < i → i < k → ρ.WalksAt i q l → q.access.side = side → l.level = level →
    q.vaddr.pageNumber level ≠ vpn

/-- The walk at `j` is the origin of an entry that is held at `k`. -/
structure Origin (k : Nat) (side : Side) (e : Entry) (j : Nat) (q : Request) : Prop where
  earlier : j < k
  walked : ρ.WalksAt j q e.leaf
  same_side : q.access.side = side
  same_satp : ρ.satp j = ρ.satp k
  page : e.vpn = q.vaddr.pageNumber e.leaf.level
  unflushed : ∀ i, j < i → i < k → ¬ ρ.FlushesAt i
  last : ρ.LastWalk j k side e.vpn e.leaf.level

/-- What stands behind the address `x` that the request `q` is given at `k`: a walk at `j`, which is its
own or an earlier one. Only the rights that an entry lends have to be those of the request exactly. -/
structure Source (k : Nat) (q : Request) (x : PhysAddr) (j : Nat) (q' : Request) (l : Leaf) : Prop where
  by_now : j ≤ k
  walked : ρ.WalksAt j q' l
  same_side : q'.access.side = q.access.side
  same_satp : ρ.satp j = ρ.satp k
  unflushed : ∀ i, j < i → i < k → ¬ ρ.FlushesAt i
  same_page : q.vaddr.pageNumber l.level = q'.vaddr.pageNumber l.level
  address : x.val = l.ppn.val ||| q.vaddr.pageOffset l.level
  last : j < k → ρ.LastWalk j k q.access.side (q.vaddr.pageNumber l.level) l.level
  lent : j < k → l.rights.permits q.access = true ∧ (l.rights.user = true ↔ q.privilege = .user)
  user : q.privilege = .user → l.rights.user = true
  write : q.access = .write → l.rights.write = true
  fetch : q.access = .fetch → l.rights.exec = true

structure Traced (k : Nat) : Prop where
  sound : (ρ.state k).Sound
  origin : ∀ side, ∀ e ∈ ((ρ.state k).held side).entries, e.valid = true →
    ∃ j q, ρ.Origin k side e j q

variable {ρ}

theorem step (ρ : Run instruction data ram command) (k : Nat) :
    (ρ.state k).Step (command k) (ρ.answer k) (ρ.state (k + 1)) := by
  obtain ⟨events, h⟩ := ρ.next k
  exact .of_step h

theorem satp_succ {k : Nat} (h : ¬ ρ.FlushesAt k) : ρ.satp (k + 1) = ρ.satp k :=
  (ρ.step k).satp.trans (Command.satpAfter_of_not_flushes (Bool.of_not_eq_true h))

theorem Origin.succ {j k : Nat} {side : Side} {e : Entry} {q : Request} (h : ρ.Origin k side e j q)
    (hf : ¬ ρ.FlushesAt k)
    (hn : ∀ q l, ρ.WalksAt k q l → q.access.side = side → l.level = e.leaf.level →
      q.vaddr.pageNumber e.leaf.level ≠ e.vpn) : ρ.Origin (k + 1) side e j q where
  earlier := Nat.lt_succ_of_lt h.earlier
  walked := h.walked
  same_side := h.same_side
  same_satp := h.same_satp.trans (satp_succ hf).symm
  page := h.page
  unflushed i hj hk := by
    rcases Nat.lt_succ_iff_lt_or_eq.mp hk with hk | rfl
    · exact h.unflushed i hj hk
    · exact hf
  last i q' l hj hk hw := by
    rcases Nat.lt_succ_iff_lt_or_eq.mp hk with hk | rfl
    · exact h.last i q' l hj hk hw
    · exact hn q' l hw

theorem WalksAt.origin {k : Nat} {q : Request} {l : Leaf} (h : ρ.WalksAt k q l) :
    ρ.Origin (k + 1) q.access.side ⟨q.vaddr.pageNumber l.level, l, true⟩ k q where
  earlier := Nat.lt_succ_self k
  walked := h
  same_side := rfl
  same_satp := by
    refine (satp_succ ?_).symm
    simp only [FlushesAt, h.1]
    exact Bool.noConfusion
  page := rfl
  unflushed i hj hk := absurd hj (by omega)
  last i q' l' hj hk := absurd hj (by omega)

theorem start_eq (hi : 0 < instruction) (hd : 0 < data) (ρ : Run instruction data ram command) :
    (ρ.state 0).plain = ⟨default, ram⟩ ∧ (ρ.state 0).Sound ∧
      ∀ side, ((ρ.state 0).held side).entries = [] := by
  obtain ⟨m, hm, hnew⟩ := Machine.new_mmu hi hd
  have hstate : Machine.mk m ram = ρ.state 0 := by
    have hs := ρ.start
    rw [hm] at hs
    exact Except.ok.inj hs
  rw [← hstate]
  exact hnew ram

theorem traced (hi : 0 < instruction) (hd : 0 < data) (ρ : Run instruction data ram command)
    (k : Nat) : ρ.Traced k := by
  induction k with
  | zero =>
    obtain ⟨-, hsound, hempty⟩ := ρ.start_eq hi hd
    refine ⟨hsound, ?_⟩
    intro side e he
    rw [hempty] at he
    cases he
  | succ k ih =>
    refine ⟨(ρ.step k).sound ih.sound, ?_⟩
    intro side e he hv
    rcases (ρ.step k).entry he hv with ⟨q, l, hc, hw, rfl, rfl⟩ | ⟨he, hf, hn⟩
    · exact ⟨k, q, WalksAt.origin ⟨hc, hw⟩⟩
    · obtain ⟨j, q, ho⟩ := ih.origin side e he hv
      refine ⟨j, q, ho.succ (Bool.not_eq_true _ ▸ hf) ?_⟩
      rintro q' l ⟨hc, hw⟩ hs hl hp
      exact hn ih.sound q' l hc hw hs ⟨hv, hl.symm, by rw [hl, hp]⟩

theorem Origin.source {k j : Nat} {q q' : Request} {e : Entry}
    (h : ρ.Origin k q.access.side e j q') (hs : e.serves q = true) :
    ρ.Source k q (e.translate q.vaddr) j q' e.leaf := by
  obtain ⟨-, hpage, hright, huser⟩ := (e.serves_iff q).mp hs
  constructor
  · exact Nat.le_of_lt h.earlier
  · exact h.walked
  · exact h.same_side
  · exact h.same_satp
  · exact h.unflushed
  · exact hpage.symm.trans h.page
  · rfl
  · intro _
    exact hpage ▸ h.last
  · intro _
    rw [huser, beq_iff_eq]
    exact ⟨hright, Iff.rfl⟩
  · intro hu
    rw [huser, hu]
    rfl
  · intro hw
    rw [hw] at hright
    exact hright
  · intro hf
    rw [hf] at hright
    exact hright

theorem WalksAt.source {k : Nat} {q : Request} {l : Leaf} (h : ρ.WalksAt k q l) :
    ρ.Source k q (l.translate q.vaddr) k q l := by
  obtain ⟨huser, hwrite, hfetch⟩ := walk_grants (Prod.ext h.2.found rfl)
  constructor
  · exact Nat.le_refl k
  · exact h
  · rfl
  · rfl
  · intro i hj hk
    exact absurd (Nat.lt_trans hj hk) (Nat.lt_irrefl k)
  · rfl
  · rfl
  · intro hk
    exact absurd hk (Nat.lt_irrefl k)
  · intro hk
    exact absurd hk (Nat.lt_irrefl k)
  · exact huser
  · exact hwrite
  · exact hfetch

end Run

/-- Whatever memory does between requests, a request that is mapped and answered with an address is
answered by a walk: its own, or the last walk of that page for that side, made under this `satp` and not
flushed since. -/
theorem answers_come_from_walks (instruction data : Nat) (hi : 0 < instruction) (hd : 0 < data)
    (ram : Ram) (command : Nat → Command) :
    Nonempty (Run instruction data ram command) ∧
      ∀ (ρ : Run instruction data ram command) (k : Nat) (q : Request) (x : PhysAddr),
        command k = .translate q → (ρ.satp k).mode = .sv32 → q.privilege ≠ .machine →
        ρ.answer k = .mmu (.translated (.ok x)) → ∃ j q' l, ρ.Source k q x j q' l := by
  refine ⟨Run.nonempty_of_pos hi hd ram command, ?_⟩
  intro ρ k q x hc hmode hpriv ha
  have hmapped : (ρ.state k).plain.registers.bypasses q.privilege = false := by
    have hm : (ρ.state k).plain.registers.satp.mode = .sv32 := hmode
    simp [Registers.bypasses, hm, hpriv]
  obtain ⟨y, hy, h⟩ := (ρ.step k).translated hc
  rw [ha] at hy
  have hx : y = .ok x := (Mmu.Answer.translated.inj (Machine.Answer.mmu.inj hy)).symm
  cases h with
  | bypassed hb _ _ => simp [hb] at hmapped
  | @hit e _ _ served _ _ =>
    obtain ⟨hmem, hserves⟩ := (ρ.state k).mem_of_served served
    have hvalid := ((e.serves_iff q).mp hserves).1
    obtain ⟨j, q', ho⟩ := (ρ.traced hi hd k).origin _ e hmem hvalid
    cases hx
    exact ⟨j, q', e.leaf, ho.source hserves⟩
  | @walked l _ _ _ missed found _ _ =>
    have hw : ρ.WalksAt k q l := ⟨hc, hmapped, missed, congrArg Prod.fst found⟩
    cases hx
    exact ⟨k, q, l, hw.source⟩
  | failed => cases hx

theorem answers_come_from_walks_when_stale :
    let q : Request := ⟨⟨0x00401abc⟩, .read, .supervisor⟩
    let cs : List Command :=
      [.writeSatp 0x80000001, .writeWord ⟨0x1004⟩ 0x801, .writeWord ⟨0x2004⟩ 0x1407, .translate q,
        .writeWord ⟨0x2004⟩ 0x1807, .translate q]
    ∃ ρ : Run 1 1 (.new ⟨0⟩ 0x4000) fun k => cs.getD k (.fence .all),
      ρ.answer 5 = .mmu (.translated (.ok ⟨0x5abc⟩)) ∧
        ∃ j q' l, ρ.Source 5 q ⟨0x5abc⟩ j q' l := by
  intro q cs
  obtain ⟨⟨ρ⟩, h⟩ := answers_come_from_walks 1 1 (by decide) (by decide) (.new ⟨0⟩ 0x4000)
    fun k => cs.getD k (.fence .all)
  have hrun : ((Mmu.new 1 1).bind fun m =>
      Effect.run Machine.step ⟨m, .new ⟨0⟩ 0x4000⟩
        ((List.range 6).map fun k => (cs.getD k (.fence .all)).op)).toOption.map (fun e =>
      (e.answer[5]?.bind (·.address?), e.state.plain.registers.satp)) =
      some (some ⟨0x5abc⟩, ⟨0x80000001⟩) := by
    decide +kernel
  have hs := ρ.start
  obtain ⟨events, hr⟩ := Effect.run_range ρ.next 6
  cases hm : Mmu.new 1 1 with
  | error => rw [hm] at hs; cases hs
  | ok m =>
    rw [hm] at hs hrun
    have hs : Machine.mk m (.new ⟨0⟩ 0x4000) = ρ.state 0 := Except.ok.inj hs
    simp only [Except.bind, hs, hr, Except.toOption, Option.map_some, Option.some.injEq,
      Prod.mk.injEq] at hrun
    have ha : ρ.answer 5 = .mmu (.translated (.ok ⟨0x5abc⟩)) :=
      Machine.Answer.address?_eq_some (by simpa using hrun.1)
    have hsatp : ρ.satp 5 = ⟨0x80000001⟩ := (ρ.step 5).satp.symm.trans hrun.2
    have hmode : (ρ.satp 5).mode = .sv32 := by
      rw [hsatp]
      rfl
    obtain ⟨j, q', l, hsource⟩ := h ρ 5 q ⟨0x5abc⟩ rfl hmode nofun ha
    exact ⟨ρ, ha, j, q', l, hsource⟩

end Sv32
