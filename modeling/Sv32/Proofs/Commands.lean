import Sv32.Machine
import Sv32.Proofs.Outcomes

/-! # What each command does

A program translates, writes registers, fences, changes privilege and writes memory. Beside the machine
stands the same machine without a buffer. What one command does to the entries that are held is said here
once. -/
namespace Sv32

inductive Command where
  | translate (q : Request)
  | writeSatp (raw : Word)
  | writeSstatus (raw : Word)
  | fence (f : Fence)
  | changePrivilege (old new : Privilege)
  | writeWord (a : PhysAddr) (w : Word)
  | writeBytes (a : PhysAddr) (bs : List Byte)
  deriving DecidableEq, Repr

namespace Command

def op : Command → Machine.Op
  | translate q => .mmu (.translate q)
  | writeSatp raw => .mmu (.writeSatp raw)
  | writeSstatus raw => .mmu (.writeSstatus raw)
  | fence f => .mmu (.fence f)
  | changePrivilege old new => .mmu (.changePrivilege old new)
  | writeWord a w => .ram (.writeWord a w)
  | writeBytes a bs => .ram (.writeBytes a bs)

/-- A fence, whatever its operands; and a change of `satp` or of the privilege that is one. -/
def flushes (satp : Satp) : Command → Bool
  | writeSatp raw => satp.raw != raw
  | fence _ => true
  | changePrivilege old new => old != new
  | _ => false

def translates : Command → Bool
  | translate _ => true
  | _ => false

def writes : Command → Bool
  | writeWord .. | writeBytes .. => true
  | _ => false

def satpAfter (satp : Satp) : Command → Satp
  | writeSatp raw => ⟨raw⟩
  | _ => satp

theorem satpAfter_of_not_flushes {c : Command} {satp : Satp} (h : c.flushes satp = false) :
    c.satpAfter satp = satp := by
  cases c with
  | writeSatp raw =>
    simp only [flushes, bne_eq_false_iff_eq] at h
    exact congrArg Satp.mk h.symm
  | _ => rfl

end Command

/-- The machine without a buffer. -/
structure Plain where
  registers : Registers
  ram : Ram

namespace Plain

def step (s : Plain) : Command → Machine.Answer × Plain
  | .translate q =>
    let (x, ram) := s.registers.translate q s.ram
    (.mmu (.translated x), { s with ram })
  | .writeSatp raw => (.mmu (.satp ⟨raw⟩), { s with registers := { s.registers with satp := ⟨raw⟩ } })
  | .writeSstatus raw =>
    (.mmu (.status (.ofSstatus raw)),
      { s with registers := { s.registers with status := .ofSstatus raw } })
  | .fence _ => (.mmu .done, s)
  | .changePrivilege .. => (.mmu .done, s)
  | .writeWord a w =>
    let (x, ram) := s.ram.step (.writeWord a w)
    (.ram x, { s with ram })
  | .writeBytes a bs =>
    let (x, ram) := s.ram.step (.writeBytes a bs)
    (.ram x, { s with ram })

theorem satp_step (s : Plain) (c : Command) :
    (s.step c).2.registers.satp = c.satpAfter s.registers.satp := by
  cases c <;> rfl

end Plain

namespace Machine

/-- The address that a request was given, if that is what was answered. -/
def Answer.address? : Answer → Option PhysAddr
  | .mmu (.translated (.ok x)) => some x
  | _ => none

theorem Answer.address?_eq_some {a : Answer} {x : PhysAddr} (h : a.address? = some x) :
    a = .mmu (.translated (.ok x)) := by
  unfold address? at h
  split at h <;> cases h
  rfl

def plain (s : Machine) : Plain := ⟨s.mmu.registers, s.ram⟩

def held (s : Machine) (side : Side) : Fifo := (s.mmu.tlb.bank side).cache.fifo

def served (s : Machine) (q : Request) : Option Entry :=
  (s.held q.access.side).entries.find? (·.serves q)

/-- The request is not left alone, no entry serves it, and the walk finds `l`. -/
structure Walks (s : Machine) (q : Request) (l : Leaf) : Prop where
  mapped : s.plain.registers.bypasses q.privilege = false
  missed : s.served q = none
  found : (walk s.plain.registers q s.plain.ram).1 = .ok l

inductive Translated (s : Machine) (q : Request) : Except Trap PhysAddr → Machine → Prop where
  | bypassed {t : Machine} (h : s.plain.registers.bypasses q.privilege = true)
      (plain : t.plain = s.plain) (held : t.held = s.held) :
      Translated s q (.ok ⟨q.vaddr.val⟩) t
  | hit {e : Entry} {t : Machine} (h : s.plain.registers.bypasses q.privilege = false)
      (served : s.served q = some e) (plain : t.plain = s.plain) (held : t.held = s.held) :
      Translated s q (.ok (e.translate q.vaddr)) t
  | walked {l : Leaf} {ram : Ram} {t : Machine} (h : s.plain.registers.bypasses q.privilege = false)
      (missed : s.served q = none) (found : walk s.plain.registers q s.plain.ram = (.ok l, ram))
      (plain : t.plain = { s.plain with ram })
      (held : ∀ side, t.held side =
        if side = q.access.side then ((s.held side).refill q.vaddr l).2 else s.held side) :
      Translated s q (.ok (l.translate q.vaddr)) t
  | failed {f : Fault} {ram : Ram} {t : Machine}
      (h : s.plain.registers.bypasses q.privilege = false) (missed : s.served q = none)
      (fault : walk s.plain.registers q s.plain.ram = (.error f, ram))
      (plain : t.plain = { s.plain with ram }) (held : t.held = s.held) :
      Translated s q (.error (f.trap q)) t

/-- Every command, with the answer that it gives and the state that it leaves. -/
inductive Step (s : Machine) : Command → Answer → Machine → Prop where
  | translate {q : Request} {x : Except Trap PhysAddr} {t : Machine} (h : s.Translated q x t) :
      Step s (.translate q) (.mmu (.translated x)) t
  | other {c : Command} {t : Machine} (hc : c.translates = false)
      (plain : t.plain = (s.plain.step c).2)
      (held : ∀ side, t.held side =
        if c.flushes s.plain.registers.satp then (s.held side).flush else s.held side) :
      Step s c (s.plain.step c).1 t

def Sound (s : Machine) : Prop := ∀ side, (s.held side).Invariant

end Machine

namespace Machine

variable (s : Machine)

theorem capacity_held_pos (side : Side) : 0 < (s.held side).capacity :=
  (s.mmu.tlb.bank side).cache.ring.capacity_pos

theorem mem_of_served {q : Request} {e : Entry} (h : s.served q = some e) :
    e ∈ (s.held q.access.side).entries ∧ e.serves q = true := by
  have hs := List.find?_some h
  exact ⟨List.mem_of_find?_eq_some h, hs⟩

theorem peek_eq_served (q : Request) :
    s.mmu.tlb.peek q.access.side q = (s.served q).map (·.translate q.vaddr) := rfl

theorem held_lookup (side : Side) (q : Request) (m : Mmu) (ram : Ram)
    (h : m.tlb = (s.mmu.tlb.lookup side q).2) : (Machine.mk m ram).held = s.held := by
  funext other
  simp only [held, h, Tlb.cache_lookup]

theorem step_of_translate {s : Machine} {q : Request} {x : Except Trap PhysAddr} {m : Mmu} {ram : Ram}
    {events : List Event} (h : s.mmu.translate q s.ram = .ok ⟨x, (m, ram), events⟩) :
    s.step (.mmu (.translate q)) = .ok ⟨.mmu (.translated x), ⟨m, ram⟩, events⟩ := by
  simp only [step, Mmu.step, h, bind, Except.bind, pure, Except.pure]

theorem step_translate (q : Request) :
    ∃ x t events, s.step (.mmu (.translate q)) = .ok ⟨.mmu (.translated x), t, events⟩ ∧
      s.Translated q x t := by
  obtain ⟨e, he, h⟩ := s.mmu.translate_eq_ok q s.ram
  refine ⟨e.answer, ⟨e.state.1, e.state.2⟩, e.events, step_of_translate he, ?_⟩
  have hlookup : ∀ m ram, m.tlb = (s.mmu.tlb.lookup q.access.side q).2 →
      (Machine.mk m ram).held = s.held := s.held_lookup q.access.side q
  cases h with
  | bypassed h => exact .bypassed h rfl rfl
  | hit h found =>
    rw [peek_eq_served] at found
    obtain ⟨entry, hserved, rfl⟩ := Option.map_eq_some_iff.mp found
    exact .hit h hserved rfl (hlookup _ _ rfl)
  | @walked l ram e h missed found refilled =>
    rw [peek_eq_served, Option.map_eq_none_iff] at missed
    refine .walked h missed found rfl ?_
    intro side
    rw [← hlookup ⟨(s.mmu.tlb.lookup q.access.side q).2, s.mmu.registers, 0, 0⟩ s.ram rfl]
    exact Tlb.fifo_of_refill (walk_isAligned found) refilled side
  | failed h missed fault =>
    rw [peek_eq_served, Option.map_eq_none_iff] at missed
    exact .failed h missed fault rfl (hlookup _ _ rfl)

theorem held_fence (f : Fence) (m : Mmu) (side : Side) :
    (Machine.mk (m.fence f).state s.ram).held side = ((Machine.mk m s.ram).held side).flush := by
  simp only [held, Mmu.fence, Tlb.cache_flush, Cache.flush_fifo]

theorem writeSatp_leaves (new : Satp) :
    let t := Machine.mk (s.mmu.writeSatp new).state s.ram
    t.plain = { s.plain with registers := { s.plain.registers with satp := new } } ∧
      ∀ side, t.held side =
        if s.plain.registers.satp.raw != new.raw then (s.held side).flush else s.held side := by
  intro t
  by_cases h : new = s.mmu.registers.satp
  · have hm : (s.mmu.writeSatp new).state = s.mmu := by
      simp only [Mmu.writeSatp, h, ↓reduceIte]
    have hr : (s.plain.registers.satp.raw != s.mmu.registers.satp.raw) = false :=
      bne_self_eq_false _
    have ht : t = s := by simp only [t, hm]
    rw [ht, h, hr]
    exact ⟨rfl, fun side => rfl⟩
  · have hr : (s.plain.registers.satp.raw != new.raw) = true := by
      rw [bne_iff_ne]
      exact fun hr => h (congrArg Satp.mk hr).symm
    simp only [t, Mmu.writeSatp, h, hr, ↓reduceIte]
    exact ⟨rfl, fun side => s.held_fence _ _ side⟩

theorem changePrivilege_leaves (old new : Privilege) :
    let t := Machine.mk (s.mmu.changePrivilege old new).state s.ram
    t.plain = s.plain ∧
      ∀ side, t.held side = if old != new then (s.held side).flush else s.held side := by
  intro t
  by_cases h : new = old
  · have hm : (s.mmu.changePrivilege old new).state = s.mmu := by
      simp only [Mmu.changePrivilege, h, ↓reduceIte]
    have ht : t = s := by simp only [t, hm]
    rw [ht, h, bne_self_eq_false]
    exact ⟨rfl, fun side => rfl⟩
  · simp only [t, Mmu.changePrivilege, h, bne_iff_ne.mpr (Ne.symm h), ↓reduceIte]
    exact ⟨rfl, fun side => s.held_fence _ _ side⟩

theorem step_other {c : Command} (hc : c.translates = false) :
    ∃ t events, s.step c.op = .ok ⟨(s.plain.step c).1, t, events⟩ ∧ t.plain = (s.plain.step c).2 ∧
      ∀ side, t.held side =
        if c.flushes s.plain.registers.satp then (s.held side).flush else s.held side := by
  cases c with
  | translate q => cases hc
  | writeSatp raw =>
    obtain ⟨hplain, hheld⟩ := s.writeSatp_leaves ⟨raw⟩
    have hsatp : (s.mmu.writeSatp ⟨raw⟩).state.registers.satp = ⟨raw⟩ :=
      congrArg (·.registers.satp) hplain
    refine ⟨_, (s.mmu.writeSatp ⟨raw⟩).events, ?_, hplain, hheld⟩
    simp only [Command.op, step, Mmu.step, hsatp]
    rfl
  | writeSstatus raw => exact ⟨_, _, rfl, rfl, fun side => rfl⟩
  | fence f => exact ⟨_, _, rfl, rfl, s.held_fence f s.mmu⟩
  | changePrivilege old new =>
    obtain ⟨hplain, hheld⟩ := s.changePrivilege_leaves old new
    exact ⟨_, _, rfl, hplain, hheld⟩
  | writeWord a w => exact ⟨_, _, rfl, rfl, fun side => rfl⟩
  | writeBytes a bs => exact ⟨_, _, rfl, rfl, fun side => rfl⟩

theorem step_eq_ok (c : Command) :
    ∃ a t events, s.step c.op = .ok ⟨a, t, events⟩ ∧ s.Step c a t := by
  cases hc : c.translates with
  | true =>
    cases c with
    | translate q =>
      obtain ⟨x, t, events, hstep, ht⟩ := s.step_translate q
      exact ⟨_, t, events, hstep, .translate ht⟩
    | _ => cases hc
  | false =>
    obtain ⟨t, events, hstep, hplain, hheld⟩ := s.step_other hc
    exact ⟨_, t, events, hstep, .other hc hplain hheld⟩

variable {s} {t : Machine} {c : Command} {a : Answer}

theorem Step.of_step {events : List Event} (h : s.step c.op = .ok ⟨a, t, events⟩) : s.Step c a t := by
  obtain ⟨a', t', events', hstep, ht⟩ := s.step_eq_ok c
  rw [h] at hstep
  cases hstep
  exact ht

theorem Step.translated {q : Request} (h : s.Step c a t) (hc : c = .translate q) :
    ∃ x, a = .mmu (.translated x) ∧ s.Translated q x t := by
  cases h with
  | translate h =>
    cases hc
    exact ⟨_, rfl, h⟩
  | other ht _ _ =>
    rw [hc] at ht
    cases ht

theorem Step.satp (h : s.Step c a t) :
    t.plain.registers.satp = c.satpAfter s.plain.registers.satp := by
  cases h with
  | translate h => cases h <;> simp only [*] <;> rfl
  | other _ plain _ =>
    rw [plain]
    exact s.plain.satp_step c

theorem Step.sound (h : s.Step c a t) (hs : s.Sound) : t.Sound := by
  intro side
  cases h with
  | translate h =>
    cases h with
    | bypassed _ _ held | hit _ _ _ held | failed _ _ _ _ held =>
      rw [held]
      exact hs side
    | walked _ _ _ _ held =>
      rw [held]
      split
      · exact Fifo.refill_invariant (s.capacity_held_pos side) (hs side) _ _
      · exact hs side
  | other _ _ held =>
    rw [held]
    split
    · exact Fifo.flush_invariant (hs side)
    · exact hs side

/-- A valid entry is the leaf of a walk just made, or it was held before and no flush has come over it.
Nor has such a walk, where pages are distinct. -/
theorem Step.entry (h : s.Step c a t) {side : Side} {e : Entry}
    (he : e ∈ (t.held side).entries) (hv : e.valid = true) :
    (∃ q l, c = .translate q ∧ s.Walks q l ∧ q.access.side = side ∧
        e = ⟨q.vaddr.pageNumber l.level, l, true⟩) ∨
      e ∈ (s.held side).entries ∧ c.flushes s.plain.registers.satp = false ∧
        (s.Sound → ∀ q l, c = .translate q → s.Walks q l → q.access.side = side →
          ¬ Fifo.Maps (q.vaddr.pageNumber l.level) l.level e) := by
  cases h with
  | @translate q _ _ h =>
    cases h with
    | bypassed hb _ held =>
      rw [held] at he
      refine Or.inr ⟨he, rfl, ?_⟩
      intro _ q' l hc hw
      cases hc
      exact absurd hw.mapped (by simp [hb])
    | hit _ served _ held =>
      rw [held] at he
      refine Or.inr ⟨he, rfl, ?_⟩
      intro _ q' l hc hw
      cases hc
      exact absurd hw.missed (by simp [served])
    | failed _ _ fault _ held =>
      rw [held] at he
      refine Or.inr ⟨he, rfl, ?_⟩
      intro _ q' l hc hw
      cases hc
      exact absurd hw.found (by simp [fault])
    | @walked l _ _ hb missed found _ held =>
      have hw : s.Walks q l := ⟨hb, missed, congrArg Prod.fst found⟩
      rw [held] at he
      split at he
      · rename_i hside
        rcases Fifo.mem_refill he with rfl | ⟨he, hn⟩
        · exact Or.inl ⟨q, l, rfl, hw, hside.symm, rfl⟩
        · refine Or.inr ⟨he, rfl, ?_⟩
          intro hs q' l' hc hw' _
          cases hc
          cases Except.ok.inj (hw.found.symm.trans hw'.found)
          exact hn (hs side).distinct
      · rename_i hside
        refine Or.inr ⟨he, rfl, ?_⟩
        intro _ q' l' hc _ hs'
        cases hc
        exact absurd hs'.symm hside
  | other hc _ held =>
    rw [held] at he
    split at he
    · rw [Fifo.mem_flush he] at hv
      cases hv
    · rename_i hf
      refine Or.inr ⟨he, Bool.of_not_eq_true hf, ?_⟩
      intro _ q l hc'
      rw [hc'] at hc
      cases hc

theorem new_mmu {instruction data : Nat} (hi : 0 < instruction) (hd : 0 < data) :
    ∃ m, Mmu.new instruction data = .ok m ∧ ∀ ram, (Machine.mk m ram).plain = ⟨default, ram⟩ ∧
      (Machine.mk m ram).Sound ∧ ∀ side, ((Machine.mk m ram).held side).entries = [] := by
  obtain ⟨tlb, hnew, hempty⟩ := Tlb.new_fifo hi hd
  refine ⟨⟨tlb, default, 0, 0⟩, ?_, ?_⟩
  · simp only [Mmu.new, hnew, bind, Except.bind, pure, Except.pure]
  · intro ram
    have held : ∀ side, ∃ capacity, (Machine.mk ⟨tlb, default, 0, 0⟩ ram).held side = .initial capacity :=
      hempty
    refine ⟨rfl, ?_, ?_⟩
    · intro side
      obtain ⟨capacity, h⟩ := held side
      rw [h]
      exact Fifo.initial_invariant capacity
    · intro side
      obtain ⟨capacity, h⟩ := held side
      rw [h]
      rfl

end Machine

end Sv32
