import Sv32.Proofs.Marks

/-! # Edits that need no fence

A machine is coherent when a walk would find what every valid entry says, and write nothing. Two kinds of
edit need no fence for this: an entry that is not valid is filled in, or a leaf is widened. -/
namespace Sv32

theorem Pte.WidenedTo.allows {p new : Pte} (h : p.WidenedTo new) {s : Status} {q : Request}
    (hp : p.Allows s q) : new.Allows s q where
  fetch hf := h.executable (hp.fetch hf)
  read hr := (hp.read hr).imp h.readable (And.imp_right h.executable)
  write hw := h.writable (hp.write hw)
  user hu := h.user ▸ hp.user hu
  above hn hu := hp.above hn (h.user ▸ hu)

section

variable {μ : Type} [WordMemory μ]

/-- Wherever the entry would serve, whatever `sum` and `mxr` are, the walk finds its page and writes
nothing. -/
def Entry.Agrees (e : Entry) (m : μ) (satp : Satp) : Prop :=
  ∀ (v : VirtAddr) (status : Status) (access : Access) (privilege : Privilege),
    v.pageNumber e.leaf.level = e.vpn → e.permits access privilege = true →
      Finds m ⟨satp, status⟩ ⟨v, access, privilege⟩ e.leaf.ppn e.leaf.level

variable [LawfulWordMemory μ] {m m' : μ} {r : Registers} {q : Request} {ppn : PhysAddr}
  {level : PageLevel} {a : PhysAddr} {p : Pte} {x : Word} {access : Access} {e : Entry} {satp : Satp}

theorem Finds.overwritten (hf : Finds m r q ppn level) (hw : writeWord a x m = (.ok (), m'))
    (safe : ∀ p, EntryAt m a p → p.GrantsSome ∧ p.WidenedTo ⟨x⟩) : Finds m' r q ppn level := by
  obtain ⟨b, p, leaf, allowed, accessed, dirty, rfl⟩ := finds_iff.mp hf
  have leaf' := leaf.overwritten hw safe
  by_cases hba : b = a
  · rw [if_pos hba] at leaf'
    obtain ⟨-, hx⟩ := safe p (hba ▸ leaf.entry)
    exact finds_iff.mpr ⟨b, _, leaf', hx.allows allowed, hx.accessed accessed,
      fun hs => hx.dirty (dirty hs), congrArg PhysAddr.ofPageNumber hx.page.symm⟩
  · rw [if_neg hba] at leaf'
    exact finds_iff.mpr ⟨b, p, leaf', allowed, accessed, dirty, rfl⟩

theorem Finds.written (hf : Finds m r q ppn level) (h : EntryAt m a p) (leaf : p.GrantsSome)
    (hw : WrittenBack m a p (p.touch access) m') : Finds m' r q ppn level := by
  rcases hw with ⟨-, rfl⟩ | ⟨-, hw⟩
  · exact hf
  · exact hf.overwritten hw (h.widens leaf access)

theorem Backed.agrees (h : Backed m satp.rootPage e) (hv : e.valid = true) : e.Agrees m satp := by
  intro v status access privilege hp hperm
  have hs : e.serves ⟨v, access, privilege⟩ = true := by
    simp only [Entry.serves, Entry.covers, hv, hp, hperm, beq_self_eq_true, Bool.and_self]
  have h : Backed m (Registers.mk satp status).satp.rootPage e := h
  exact h.finds hs

end

/-- The two edits of a table that need no fence: any word may take the place of one that is not valid, and
a leaf may be widened. -/
inductive Ram.Harmless (m : Ram) (a : PhysAddr) (x : Word) : Prop where
  | install {old : Word} (read : m.readWord a = .ok old) (clear : (Pte.mk old).valid = false)
  | widen {p : Pte} (entry : EntryAt m a p) (leaf : p.GrantsSome) (wider : p.WidenedTo ⟨x⟩)

namespace Ram

variable {m : Ram} {a : PhysAddr} {x : Word}

theorem Harmless.safe (h : m.Harmless a x) {p : Pte} (hp : EntryAt m a p) :
    p.GrantsSome ∧ p.WidenedTo ⟨x⟩ := by
  cases h with
  | install read clear =>
    have hw := Except.ok.inj (read.symm.trans hp.readWord_eq)
    rw [hw] at clear
    exact absurd hp.valid (Bool.eq_false_iff.mp clear)
  | widen entry leaf wider =>
    rw [entry.unique hp]
    exact ⟨leaf, wider⟩

theorem step_writeWord (m : Ram) (a : PhysAddr) (x : Word) :
    WordMemory.writeWord a x m = (.ok (), (m.step (.writeWord a x)).2) ∨ (m.step (.writeWord a x)).2 = m := by
  simp only [WordMemory.writeWord, step]
  cases m.writeWord a x with
  | ok m' => exact Or.inl rfl
  | error e => exact Or.inr rfl

end Ram

namespace Plain

/-- The command writes no memory of its own, or it makes one of the two edits. -/
def Harmless (s : Plain) (c : Command) : Prop :=
  c.writes = false ∨ ∃ a x, c = .writeWord a x ∧ s.ram.Harmless a x

def HarmlessRun (s : Plain) : List Command → Prop
  | [] => True
  | c :: cs => s.Harmless c ∧ (s.step c).2.HarmlessRun cs

variable {s : Plain} {c : Command} {e : Entry}

/-- What can be found under any root can be found after a harmless command too. -/
theorem step_finds (hc : s.Harmless c) {r : Registers} {q : Request} {ppn : PhysAddr}
    {level : PageLevel} (hf : Finds s.ram r q ppn level) :
    Finds (s.step c).2.ram r q ppn level := by
  rcases hc with hw | ⟨a, x, rfl, hx⟩
  · rcases ram_step hw with hram | ⟨q', l, hwalk⟩
    · rw [hram]
      exact hf
    · -- the leaf that is marked may be the one that is found
      obtain ⟨a, p, leaf, -, written, -⟩ := walk_found hwalk
      exact hf.written leaf.entry leaf.grantsSome written
  · rcases s.ram.step_writeWord a x with hw | hram
    · exact hf.overwritten hw fun _ => hx.safe
    · have hram : (s.step (.writeWord a x)).2.ram = s.ram := hram
      rw [hram]
      exact hf

theorem step_agrees (hc : s.Harmless c) (hf : c.flushes s.registers.satp = false)
    (he : e.Agrees s.ram s.registers.satp) :
    e.Agrees (s.step c).2.ram (s.step c).2.registers.satp := by
  rw [satp_step, Command.satpAfter_of_not_flushes hf]
  intro v status access privilege hp hperm
  exact step_finds hc (he v status access privilege hp hperm)

end Plain

namespace Machine

def Coherent (s : Machine) : Prop :=
  ∀ side, ∀ e ∈ (s.held side).entries, e.valid = true → e.Agrees s.ram s.mmu.registers.satp

variable {s t : Machine} {c : Command} {a : Answer}

theorem Step.eq_plain_of_coherent (h : s.Step c a t) (hs : s.Coherent) :
    s.plain.step c = (a, t.plain) := by
  apply h.eq_plain_of_walk
  rintro q e - served
  obtain ⟨hmem, hserves⟩ := s.mem_of_served served
  obtain ⟨hv, hp, -⟩ := (e.serves_iff q).mp hserves
  have hperm := (Bool.and_eq_true_iff.mp hserves).2
  exact hs _ e hmem hv q.vaddr s.mmu.registers.status q.access q.privilege hp.symm hperm

theorem Step.coherent (h : s.Step c a t) (hc : s.plain.Harmless c) (hs : s.Coherent) : t.Coherent := by
  have hplain : (s.plain.step c).2 = t.plain := congrArg Prod.snd (h.eq_plain_of_coherent hs)
  intro side e he hv
  change e.Agrees t.plain.ram t.plain.registers.satp
  rw [← hplain]
  rcases h.entry he hv with ⟨q, l, rfl, walks, -, rfl⟩ | ⟨he, hf, -⟩
  · exact walks.backed.agrees rfl
  · exact Plain.step_agrees hc hf (hs side e he hv)

theorem Step.harmless {cs : List Command} (h : s.Step c a t)
    (hs : s.Coherent ∧ s.plain.HarmlessRun (c :: cs)) :
    s.plain.step c = (a, t.plain) ∧ t.Coherent ∧ t.plain.HarmlessRun cs := by
  obtain ⟨hs, hc, hcs⟩ := hs
  have hplain := h.eq_plain_of_coherent hs
  rw [hplain] at hcs
  exact ⟨hplain, h.coherent hc hs, hcs⟩

theorem run_harmless {cs : List Command} (hs : s.Coherent) (hc : s.plain.HarmlessRun cs) :
    ∃ e, Effect.run watch s cs = .ok e ∧ e.answer = s.plain.run cs := by
  obtain ⟨e, hrun, ha, -⟩ := run_eq_plain (P := fun s cs => s.Coherent ∧ s.plain.HarmlessRun cs)
    (fun hs h => h.harmless hs) ⟨hs, hc⟩
  exact ⟨e, hrun, ha⟩

end Machine

/-- A new unit is coherent, and in a coherent state every harmless command leaves the machine coherent and
is answered as it is without a buffer. So a program of harmless commands runs as without one, whether it
fences or not. -/
theorem harmless_edits_need_no_fence :
    (∀ instruction data, 0 < instruction → 0 < data →
      ∃ m, Mmu.new instruction data = .ok m ∧ ∀ ram, (Machine.mk m ram).Coherent) ∧
    ∀ s : Machine, s.Coherent →
      (∀ c, s.plain.Harmless c →
        ∃ a t events, s.step c.op = .ok ⟨a, t, events⟩ ∧ t.Coherent) ∧
      (∀ q, ∃ x t events, s.step (.mmu (.translate q)) = .ok ⟨.mmu (.translated x), t, events⟩ ∧
        s.mmu.registers.translate q s.ram = (x, t.ram)) ∧
      ∀ cs, s.plain.HarmlessRun cs →
        ∃ e, Effect.run Machine.watch s cs = .ok e ∧ e.answer = s.plain.run cs := by
  refine ⟨?_, fun s hs => ⟨?_, ?_, ?_⟩⟩
  · intro instruction data hi hd
    obtain ⟨m, hm, hnew⟩ := Machine.new_mmu hi hd
    refine ⟨m, hm, ?_⟩
    intro ram side e he
    rw [(hnew ram).2.2] at he
    cases he
  · intro c hc
    obtain ⟨a, t, events, hstep, h⟩ := s.step_eq_ok c
    exact ⟨a, t, events, hstep, h.coherent hc hs⟩
  · intro q
    obtain ⟨_, t, events, hstep, h⟩ := s.step_eq_ok (.translate q)
    obtain ⟨x, rfl, -⟩ := h.translated rfl
    have hplain := h.eq_plain_of_coherent hs
    obtain ⟨hx, ht⟩ := Prod.mk.inj hplain
    refine ⟨x, t, events, hstep, Prod.ext ?_ (congrArg Plain.ram ht)⟩
    exact Mmu.Answer.translated.inj (Machine.Answer.mmu.inj hx)
  · intro cs hc
    exact Machine.run_harmless hs hc

theorem harmless_edits_need_no_fence_on_one_page :
    let cs : List Command :=
      [.writeSatp 0x80000001, .writeWord ⟨0x1004⟩ 0x801, .writeWord ⟨0x2004⟩ 0x1403,
        .translate ⟨⟨0x00401abc⟩, .read, .supervisor⟩, .writeWord ⟨0x2004⟩ 0x1447,
        .translate ⟨⟨0x00401def⟩, .write, .supervisor⟩]
    (Plain.mk default (.new ⟨0⟩ 0x4000)).HarmlessRun cs ∧
      ∃ m e, Mmu.new 1 1 = .ok m ∧ (Machine.mk m (.new ⟨0⟩ 0x4000)).Coherent ∧
        Effect.run Machine.watch ⟨m, .new ⟨0⟩ 0x4000⟩ cs = .ok e ∧
        e.answer.filterMap (·.1.address?) = [⟨0x5abc⟩, ⟨0x5def⟩] := by
  intro cs
  have read : ∀ {x : Except BusError Word} {w}, x.toOption = some w → x = .ok w := by
    intro x w h
    cases x <;> cases h
    rfl
  have hc : (Plain.mk default (.new ⟨0⟩ 0x4000)).HarmlessRun cs := by
    refine ⟨Or.inl rfl, Or.inr ⟨_, _, rfl, ?_⟩, Or.inr ⟨_, _, rfl, ?_⟩, Or.inl rfl,
      Or.inr ⟨_, _, rfl, ?_⟩, Or.inl rfl, trivial⟩
    · exact @Ram.Harmless.install _ _ _ 0 (read (by decide +kernel)) rfl
    · exact @Ram.Harmless.install _ _ _ 0 (read (by decide +kernel)) rfl
    · refine @Ram.Harmless.widen _ _ _ ⟨0x1443⟩ ⟨read (by decide +kernel), rfl, by decide⟩ (Or.inl rfl) ?_
      constructor <;> decide
  obtain ⟨hnew, hcoherent⟩ := harmless_edits_need_no_fence
  obtain ⟨m, hm, hm'⟩ := hnew 1 1 (by decide) (by decide)
  have hs := hm' (.new ⟨0⟩ 0x4000)
  have hplain : (Machine.mk m (.new ⟨0⟩ 0x4000)).plain = ⟨default, .new ⟨0⟩ 0x4000⟩ := by
    obtain ⟨m', h, hp⟩ := @Machine.new_mmu 1 1 (by decide) (by decide)
    cases hm.symm.trans h
    exact (hp _).1
  obtain ⟨-, -, hrun⟩ := hcoherent _ hs
  obtain ⟨e, he, ha⟩ := hrun cs (hplain ▸ hc)
  refine ⟨hc, m, e, hm, hs, he, ?_⟩
  rw [ha, hplain]
  decide +kernel

end Sv32
