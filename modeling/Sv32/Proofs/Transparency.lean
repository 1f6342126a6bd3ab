import Sv32.Proofs.Commands

/-! # The buffer cannot be seen

A program is fenced when it flushes between a write to memory and the next translation. It sees no buffer,
because the tables back every valid entry: walks mark leaves, and marking turns no leaf into anything else.
-/
namespace Sv32

/-- What the cache may remember of a leaf in the tables: nothing more than it grants by now. -/
structure Pte.Backs (p : Pte) (l : Leaf) : Prop where
  accessed : p.accessed = true
  page : l.ppn = .ofPageNumber p.pageNumber
  read : l.rights.read = p.readable
  exec : l.rights.exec = p.executable
  user : l.rights.user = p.user
  write : l.rights.write = true → p.writable = true ∧ p.dirty = true

section

variable {μ : Type} [WordMemory μ]

def Backed (m : μ) (root : BitVec 22) (e : Entry) : Prop :=
  ∀ v : VirtAddr, v.pageNumber e.leaf.level = e.vpn →
    ∃ a p, LeafAt m root v e.leaf.level a p ∧ p.Backs e.leaf

def Finds (m : μ) (r : Registers) (q : Request) (ppn : PhysAddr) (level : PageLevel) : Prop :=
  ∃ l : Leaf, walk r q m = (.ok l, m) ∧ l.ppn = ppn ∧ l.level = level

end

theorem vpn_congr {v w : VirtAddr} {level table : PageLevel}
    (h : v.pageNumber level = w.pageNumber level) (hl : level.offsetBits ≤ table.offsetBits) :
    v.vpn table = w.vpn table := by
  rw [← toNat_tableIndex, ← toNat_tableIndex]
  congr 1
  apply BitVec.eq_of_getLsbD_eq
  intro i hi
  have hb := congrArg (BitVec.getLsbD · (table.offsetBits + i)) h
  have hn : ¬ table.offsetBits + i < level.offsetBits := by omega
  have hw : table.offsetBits + i < 32 := by cases table <;> simp only [PageLevel.offsetBits] <;> omega
  simp only [VirtAddr.pageNumber, BitVec.getLsbD_and, BitVec.getLsbD_not, hw,
    level.getLsbD_offsetMask, hn, decide_true, decide_false, Bool.not_false, Bool.and_true] at hb
  simp only [VirtAddr.tableIndex, BitVec.getLsbD_extractLsb', hi, hb]

section

variable {μ : Type} [WordMemory μ] {m m' : μ} {root : BitVec 22} {v w : VirtAddr} {level : PageLevel}
  {a b : PhysAddr} {p p' : Pte} {access : Access}

theorem LeafAt.congr (h : LeafAt m root v level a p) (hw : w.pageNumber level = v.pageNumber level) :
    LeafAt m root w level a p := by
  cases h with
  | super entry leaf aligned =>
    have hs := vpn_congr hw (Nat.le_refl _)
    rw [← hs] at entry ⊢
    exact .super entry leaf aligned
  | base top pointer entry leaf =>
    have hs : w.vpn .super = v.vpn .super := vpn_congr hw (by decide)
    have hb : w.vpn .base = v.vpn .base := vpn_congr hw (Nat.le_refl _)
    rw [← hs] at top
    rw [← hb] at entry ⊢
    exact .base top pointer entry leaf

theorem Pte.Backs.touch {l : Leaf} (h : p.Backs l) (access : Access) : (p.touch access).Backs l where
  accessed := p.accessed_touch access
  page := by rw [h.page, p.pageNumber_touch]
  read := by rw [h.read, p.readable_touch]
  exec := by rw [h.exec, p.executable_touch]
  user := by rw [h.user, p.user_touch]
  write hw := by
    obtain ⟨hp, hd⟩ := h.write hw
    simp [hp, hd]

theorem Pte.backs_leaf (h : p.accessed = true) (level : PageLevel) : p.Backs (p.leaf level) where
  accessed := h
  page := rfl
  read := by rw [p.rights_leaf]
  exec := by rw [p.rights_leaf]
  user := by rw [p.rights_leaf]
  write hw := by
    rw [p.rights_leaf] at hw
    exact Bool.and_eq_true_iff.mp hw

theorem Pte.Backs.allows {l : Leaf} (h : p.Backs l) {q : Request}
    (right : l.rights.permits q.access = true) (user : l.rights.user = (q.privilege == .user))
    (s : Status) : p.Allows s q ∧ (q.access = .write → p.dirty = true) := by
  have huser : p.user = (q.privilege == .user) := h.user.symm.trans user
  have hwrite : q.access = .write → p.writable = true ∧ p.dirty = true := by
    intro hq
    rw [hq] at right
    exact h.write right
  refine ⟨?_, fun hq => (hwrite hq).2⟩
  constructor
  · intro hq
    rw [hq] at right
    exact h.exec.symm.trans right
  · intro hq
    rw [hq] at right
    exact Or.inl (h.read.symm.trans right)
  · intro hq
    exact (hwrite hq).1
  · intro hq
    rw [huser, hq]
    rfl
  · intro hq hu
    rw [huser, beq_false_of_ne hq] at hu
    cases hu

theorem Pte.Allows.touch {s : Status} {q : Request} (h : p.Allows s q) (access : Access) :
    (p.touch access).Allows s q where
  fetch := by simpa using h.fetch
  read := by simpa using h.read
  write := by simpa using h.write
  user := by simpa using h.user
  above := by simpa using h.above

/-- `new` is a leaf of the same page that grants no less and is marked no less. -/
structure Pte.WidenedTo (p new : Pte) : Prop where
  valid : new.valid = true
  not_reserved : new.writable = true → new.readable = true
  page : new.pageNumber = p.pageNumber
  user : new.user = p.user
  readable : p.readable = true → new.readable = true
  writable : p.writable = true → new.writable = true
  executable : p.executable = true → new.executable = true
  accessed : p.accessed = true → new.accessed = true
  dirty : p.dirty = true → new.dirty = true

theorem Pte.WidenedTo.grantsSome {new : Pte} (h : p.WidenedTo new) (hp : p.GrantsSome) :
    new.GrantsSome :=
  hp.imp h.readable h.executable

theorem EntryAt.widens (h : EntryAt m a p) (leaf : p.GrantsSome) (access : Access) :
    ∀ p', EntryAt m a p' → p'.GrantsSome ∧ p'.WidenedTo (p.touch access) := by
  intro p' hp
  rw [h.unique hp]
  refine ⟨leaf, ?_⟩
  constructor
  · rw [p.valid_touch]
    exact h.valid
  · simpa using h.not_reserved
  · exact p.pageNumber_touch access
  · exact p.user_touch access
  · simp
  · simp
  · simp
  · simp
  · intro hd
    simp [hd]

variable [LawfulWordMemory μ] {x : Word}

/-- A word that is written over shows at its own address and at no other. -/
theorem EntryAt.overwritten (hw : writeWord a x m = (.ok (), m'))
    (safe : ∀ p, EntryAt m a p → p.WidenedTo ⟨x⟩) (hb : EntryAt m b p') :
    EntryAt m' b (if b = a then ⟨x⟩ else p') := by
  have hread := LawfulWordMemory.readWord_writeWord b (congrArg Prod.fst hw)
  rw [hw] at hread
  split at hread
  · rename_i hba
    rw [if_pos hba]
    have hx := safe p' (hba ▸ hb)
    exact ⟨hread, hx.valid, hx.not_reserved⟩
  · rename_i hba
    rw [if_neg hba]
    exact ⟨hread.trans hb.readWord_eq, hb.valid, hb.not_reserved⟩

/-- What is written over is a leaf or no entry, so it is no table on the way to any leaf: all leaves stay
where they were. -/
theorem LeafAt.overwritten (hw : writeWord a x m = (.ok (), m'))
    (safe : ∀ p, EntryAt m a p → p.GrantsSome ∧ p.WidenedTo ⟨x⟩) (hb : LeafAt m root v level b p') :
    LeafAt m' root v level b (if b = a then ⟨x⟩ else p') := by
  have widens : ∀ p, EntryAt m a p → p.WidenedTo ⟨x⟩ := fun p hp => (safe p hp).2
  have kept : ∀ {b p'}, EntryAt m b p' → p'.GrantsSome →
      (if b = a then ⟨x⟩ else p').GrantsSome ∧
        (if b = a then ⟨x⟩ else p').pageNumber = p'.pageNumber := by
    intro b p' hp hs
    split
    · rename_i hba
      have hx := widens p' (hba ▸ hp)
      exact ⟨hx.grantsSome hs, hx.page⟩
    · exact ⟨hs, rfl⟩
  cases hb with
  | super entry leaf aligned =>
    obtain ⟨hs, hn⟩ := kept entry leaf
    refine .super (entry.overwritten hw widens) hs ?_
    rw [hn]
    exact aligned
  | @base t _ top pointer entry leaf =>
    -- a pointer grants nothing, so it is not what is written over
    have ht : tableWord root (v.vpn .super) ≠ a := by
      rintro rfl
      exact (t.grantsSome_iff top.not_reserved).mp (safe t top).1 pointer
    have htop := top.overwritten hw widens
    rw [if_neg ht] at htop
    exact .base htop pointer (entry.overwritten hw widens) (kept entry leaf).1

theorem LeafAt.written (h : EntryAt m a p) (leaf : p.GrantsSome)
    (hw : WrittenBack m a p (p.touch access) m') (hb : LeafAt m root v level b p') :
    LeafAt m' root v level b (if b = a then p.touch access else p') := by
  rcases hw with ⟨he, rfl⟩ | ⟨-, hw⟩
  · split
    · rename_i hba
      rw [he, ← h.unique (hba ▸ hb.entry)]
      exact hb
    · exact hb
  · exact hb.overwritten hw (h.widens leaf access)

theorem LeafAt.backed (h : LeafAt m root v level a p)
    (hw : WrittenBack m a p (p.touch access) m') :
    Backed m' root ⟨v.pageNumber level, (p.touch access).leaf level, true⟩ := by
  intro w hv
  have hl := (h.congr hv).written h.entry h.grantsSome hw
  rw [if_pos rfl] at hl
  exact ⟨a, p.touch access, hl, Pte.backs_leaf (p.accessed_touch access) level⟩

variable {e : Entry} {r : Registers} {q : Request} {l : Leaf}

theorem Backed.written (he : Backed m root e) (h : EntryAt m a p) (leaf : p.GrantsSome)
    (hw : WrittenBack m a p (p.touch access) m') : Backed m' root e := by
  intro v hv
  obtain ⟨b, p', hl, hb⟩ := he v hv
  refine ⟨b, _, hl.written h leaf hw, ?_⟩
  split
  · rename_i hba
    have hp : p' = p := h.unique (hba ▸ hl.entry)
    exact hp ▸ hb.touch access
  · exact hb

theorem walk_backed (h : walk r q m = (.ok l, m')) :
    Backed m' r.satp.rootPage ⟨q.vaddr.pageNumber l.level, l, true⟩ ∧
      ∀ e, Backed m r.satp.rootPage e → Backed m' r.satp.rootPage e := by
  obtain ⟨a, p, leaf, -, written, hl⟩ := walk_found h
  refine ⟨?_, fun e he => he.written leaf.entry leaf.grantsSome written⟩
  have hb := leaf.backed written
  rw [← hl] at hb
  exact hb

theorem LeafAt.walk_eq (h : LeafAt m r.satp.rootPage q.vaddr level a p) (allowed : p.Allows r.status q)
    (accessed : p.accessed = true) (dirty : q.access = .write → p.dirty = true) :
    walk r q m = (.ok (p.leaf level), m) := by
  have same := p.touch_eq_self q.access accessed dirty
  have hw := walk_eq_ok h allowed (Or.inl ⟨same, rfl⟩)
  rw [same] at hw
  exact hw

theorem walk_leaves (h : walk r q m = (.ok l, m')) :
    ∃ a p, LeafAt m' r.satp.rootPage q.vaddr l.level a p ∧ p.Allows r.status q ∧
      p.accessed = true ∧ (q.access = .write → p.dirty = true) ∧ l = p.leaf l.level := by
  obtain ⟨a, p, leaf, allowed, written, hl⟩ := walk_found h
  have hmarked := leaf.written leaf.entry leaf.grantsSome written
  rw [if_pos rfl] at hmarked
  refine ⟨a, _, hmarked, allowed.touch q.access, p.accessed_touch q.access, ?_, hl⟩
  intro hw
  rw [p.dirty_touch, hw]
  exact Bool.or_true _

theorem finds_iff {ppn : PhysAddr} {level : PageLevel} : Finds m r q ppn level ↔
    ∃ a p, LeafAt m r.satp.rootPage q.vaddr level a p ∧ p.Allows r.status q ∧ p.accessed = true ∧
      (q.access = .write → p.dirty = true) ∧ ppn = .ofPageNumber p.pageNumber := by
  constructor
  · rintro ⟨l, h, rfl, rfl⟩
    obtain ⟨a, p, leaf, allowed, accessed, dirty, hl⟩ := walk_leaves h
    exact ⟨a, p, leaf, allowed, accessed, dirty, congrArg Leaf.ppn hl⟩
  · rintro ⟨a, p, leaf, allowed, accessed, dirty, rfl⟩
    exact ⟨_, leaf.walk_eq allowed accessed dirty, rfl, rfl⟩

theorem Backed.finds (he : Backed m r.satp.rootPage e) (hs : e.serves q = true) :
    Finds m r q e.leaf.ppn e.leaf.level := by
  obtain ⟨-, hpage, hright, huser⟩ := (e.serves_iff q).mp hs
  obtain ⟨a, p, hl, hb⟩ := he q.vaddr hpage.symm
  obtain ⟨allowed, dirty⟩ := hb.allows hright huser r.status
  exact finds_iff.mpr ⟨a, p, hl, allowed, hb.accessed, dirty, hb.page⟩

end

/-- No request meets a memory that was written since the last flush. -/
def fenced (satp : Satp) (pending : Bool) : List Command → Bool
  | [] => true
  | c :: cs =>
    !(c.translates && pending) &&
      fenced (c.satpAfter satp) (c.writes || pending && !c.flushes satp) cs

/-- After these commands some write to memory has not been flushed yet. -/
def awaiting (satp : Satp) (pending : Bool) : List Command → Bool
  | [] => pending
  | c :: cs => awaiting (c.satpAfter satp) (c.writes || pending && !c.flushes satp) cs

namespace Plain

def run (s : Plain) : List Command → List (Machine.Answer × Ram)
  | [] => []
  | c :: cs => ((s.step c).1, (s.step c).2.ram) :: (s.step c).2.run cs

def after (s : Plain) : List Command → Plain
  | [] => s
  | c :: cs => (s.step c).2.after cs

variable {s : Plain}

theorem step_bypassed {q : Request} (h : s.registers.bypasses q.privilege = true) :
    s.step (.translate q) = (.mmu (.translated (.ok ⟨q.vaddr.val⟩)), s) := by
  simp only [step, Registers.translate, h, ↓reduceIte]

theorem step_walked {q : Request} {l : Leaf} {ram : Ram}
    (h : s.registers.bypasses q.privilege = false) (hw : walk s.registers q s.ram = (.ok l, ram)) :
    s.step (.translate q) = (.mmu (.translated (.ok (l.translate q.vaddr))), { s with ram }) := by
  simp only [step, Registers.translate, h, hw, Bool.false_eq_true, ↓reduceIte]

theorem step_failed {q : Request} {f : Fault} {ram : Ram}
    (h : s.registers.bypasses q.privilege = false) (hw : walk s.registers q s.ram = (.error f, ram)) :
    s.step (.translate q) = (.mmu (.translated (.error (f.trap q))), { s with ram }) := by
  simp only [step, Registers.translate, h, hw, Bool.false_eq_true, ↓reduceIte]

theorem ram_step {c : Command} (hw : c.writes = false) :
    (s.step c).2.ram = s.ram ∨ ∃ q l, walk s.registers q s.ram = (.ok l, (s.step c).2.ram) := by
  cases c with
  | translate q =>
    cases hb : s.registers.bypasses q.privilege with
    | true =>
      rw [step_bypassed hb]
      exact Or.inl rfl
    | false =>
      cases hwalk : walk s.registers q s.ram with
      | mk result ram =>
        cases result with
        | ok l =>
          rw [step_walked hb hwalk]
          exact Or.inr ⟨q, l, hwalk⟩
        | error f =>
          rw [step_failed hb hwalk]
          exact Or.inl (walk_failed hwalk).1
  | writeWord | writeBytes => cases hw
  | _ => exact Or.inl rfl

theorem step_backed {c : Command} {e : Entry} (hw : c.writes = false)
    (hf : c.flushes s.registers.satp = false) (he : Backed s.ram s.registers.satp.rootPage e) :
    Backed (s.step c).2.ram (s.step c).2.registers.satp.rootPage e := by
  rw [satp_step, Command.satpAfter_of_not_flushes hf]
  rcases ram_step hw with hr | ⟨q, l, hwalk⟩
  · rw [hr]
    exact he
  · exact (walk_backed hwalk).2 e he

end Plain

namespace Machine

def watch (s : Machine) (c : Command) : Except Violation (Effect Machine (Answer × Ram)) :=
  (s.step c.op).map fun e => ⟨(e.answer, e.state.ram), e.state, e.events⟩

/-- Unless memory was written since the last flush, every valid entry is backed. -/
structure Synced (s : Machine) (pending : Bool) : Prop where
  sound : s.Sound
  backed : pending = false → ∀ side, ∀ e ∈ (s.held side).entries, e.valid = true →
    Backed s.plain.ram s.plain.registers.satp.rootPage e

variable {s t : Machine} {c : Command} {a : Answer} {pending : Bool}

theorem synced_of_empty (hs : s.Sound) (hempty : ∀ side, (s.held side).entries = []) :
    s.Synced pending := by
  refine ⟨hs, ?_⟩
  intro _ side e he
  rw [hempty] at he
  cases he

theorem Step.eq_plain_of_walk (h : s.Step c a t)
    (hits : ∀ q e, c = .translate q → s.served q = some e →
      Finds s.plain.ram s.plain.registers q e.leaf.ppn e.leaf.level) :
    s.plain.step c = (a, t.plain) := by
  cases h with
  | @translate q _ _ h =>
    cases h with
    | bypassed hb plain _ => rw [plain, Plain.step_bypassed hb]
    | @hit e _ hb served plain _ =>
      obtain ⟨l, hwalk, hppn, hlevel⟩ := hits q e rfl served
      rw [plain, Plain.step_walked hb hwalk, Leaf.translate, hppn, hlevel]
      rfl
    | walked hb _ found plain _ => rw [plain, Plain.step_walked hb found]
    | failed hb _ fault plain _ => rw [plain, Plain.step_failed hb fault]
  | other _ plain _ => rw [plain]

theorem Step.eq_plain (h : s.Step c a t) (hs : s.Synced pending)
    (hc : c.translates = true → pending = false) : s.plain.step c = (a, t.plain) := by
  apply h.eq_plain_of_walk
  rintro q e rfl served
  obtain ⟨hmem, hserves⟩ := s.mem_of_served served
  have hvalid := ((e.serves_iff q).mp hserves).1
  exact (hs.backed (hc rfl) _ e hmem hvalid).finds hserves

theorem Walks.backed {q : Request} {l : Leaf} (h : s.Walks q l) :
    let after := (s.plain.step (.translate q)).2
    Backed after.ram after.registers.satp.rootPage ⟨q.vaddr.pageNumber l.level, l, true⟩ := by
  cases hwalk : walk s.plain.registers q s.plain.ram with
  | mk result ram =>
    have hr := h.found
    rw [hwalk] at hr
    cases hr
    rw [Plain.step_walked h.mapped hwalk]
    exact (walk_backed hwalk).1

theorem Step.synced (h : s.Step c a t) (hs : s.Synced pending)
    (hc : c.translates = true → pending = false) :
    t.Synced (c.writes || pending && !c.flushes s.plain.registers.satp) := by
  have hplain := congrArg Prod.snd (h.eq_plain hs hc)
  refine ⟨h.sound hs.sound, ?_⟩
  intro hp side e he hv
  obtain ⟨hw, hp⟩ := Bool.or_eq_false_iff.mp hp
  simp only at hplain
  rw [← hplain]
  rcases h.entry he hv with ⟨q, l, rfl, walks, -, rfl⟩ | ⟨he, hf, -⟩
  · exact walks.backed
  · rw [hf, Bool.not_false, Bool.and_true] at hp
    exact Plain.step_backed hw hf (hs.backed hp side e he hv)

/-- While each step does what it does without the buffer, so does the run. `P` speaks of the machine and
of what is still to come. -/
theorem run_eq_plain {P : Machine → List Command → Prop}
    (next : ∀ {s c cs a t}, P s (c :: cs) → s.Step c a t → s.plain.step c = (a, t.plain) ∧ P t cs)
    {cs : List Command} (h : P s cs) :
    ∃ e, Effect.run watch s cs = .ok e ∧ e.answer = s.plain.run cs ∧
      e.state.plain = s.plain.after cs ∧ P e.state [] := by
  induction cs generalizing s with
  | nil => exact ⟨_, rfl, rfl, rfl, h⟩
  | cons c cs ih =>
    obtain ⟨a, t, events, hstep, ht⟩ := s.step_eq_ok c
    obtain ⟨hplain, ht⟩ := next h ht
    obtain ⟨e, hrun, ha, hafter, he⟩ := ih ht
    refine ⟨⟨(a, t.ram) :: e.answer, e.state, events ++ e.events⟩, ?_, ?_, ?_, he⟩
    · simp only [Effect.run, watch, hstep, Except.map, bind, Except.bind, hrun, pure, Except.pure]
    · rw [Plain.run, hplain, ha]
      rfl
    · rw [Plain.after, hplain, hafter]

/-- What is left of a fenced program, on a machine that is in step with it; `last` tells whether a write
will await its flush in the end. -/
def Fenced (last : Bool) (s : Machine) (cs : List Command) : Prop :=
  ∃ pending, s.Synced pending ∧ fenced s.plain.registers.satp pending cs = true ∧
    awaiting s.plain.registers.satp pending cs = last

theorem Fenced.step {last : Bool} {cs : List Command} (hf : Fenced last s (c :: cs)) (h : s.Step c a t) :
    s.plain.step c = (a, t.plain) ∧ Fenced last t cs := by
  obtain ⟨pending, hs, hf, hlast⟩ := hf
  simp only [fenced, Bool.and_eq_true, Bool.not_eq_true', Bool.and_eq_false_iff] at hf
  obtain ⟨hc, hf⟩ := hf
  have hc : c.translates = true → pending = false := fun ht => hc.resolve_left (by simp [ht])
  rw [awaiting, ← h.satp] at hlast
  rw [← h.satp] at hf
  exact ⟨h.eq_plain hs hc, _, h.synced hs hc, hf, hlast⟩

theorem run_fenced {cs : List Command} (hs : s.Synced pending)
    (hf : fenced s.plain.registers.satp pending cs = true) :
    ∃ e, Effect.run watch s cs = .ok e ∧ e.answer = s.plain.run cs ∧
      e.state.plain = s.plain.after cs ∧
      e.state.Synced (awaiting s.plain.registers.satp pending cs) := by
  obtain ⟨e, hrun, ha, hafter, _, hsync, -, hlast⟩ := run_eq_plain Fenced.step ⟨pending, hs, hf, rfl⟩
  exact ⟨e, hrun, ha, hafter, hlast ▸ hsync⟩

theorem new_fenced {instruction data : Nat} (hi : 0 < instruction) (hd : 0 < data) :
    ∃ m, Mmu.new instruction data = .ok m ∧
      (∀ ram side, ((Machine.mk m ram).held side).entries = []) ∧
      ∀ ram cs, fenced default false cs = true →
        ∃ e, Effect.run watch ⟨m, ram⟩ cs = .ok e ∧ e.answer = (Plain.mk default ram).run cs ∧
          e.state.plain = (Plain.mk default ram).after cs ∧
          e.state.Synced (awaiting default false cs) := by
  obtain ⟨m, hm, hnew⟩ := new_mmu hi hd
  refine ⟨m, hm, fun ram => (hnew ram).2.2, ?_⟩
  intro ram cs hf
  obtain ⟨hplain, hsound, hempty⟩ := hnew ram
  have hs : (Machine.mk m ram).Synced false := synced_of_empty hsound hempty
  have hf : fenced (Machine.mk m ram).plain.registers.satp false cs = true := by
    rw [hplain]
    exact hf
  have hrun := run_fenced hs hf
  rw [hplain] at hrun
  exact hrun

end Machine

/-- A fenced program gets from a new machine what it gets from one without a buffer: the same answer and
the same memory after every command, whatever the two capacities and whatever memory holds at first. -/
theorem fenced_programs_see_no_buffer (instruction data : Nat) (hi : 0 < instruction) (hd : 0 < data)
    (ram : Ram) (cs : List Command) (hf : fenced default false cs = true) :
    ∃ m e, Mmu.new instruction data = .ok m ∧ Effect.run Machine.watch ⟨m, ram⟩ cs = .ok e ∧
      e.answer = (Plain.mk default ram).run cs := by
  obtain ⟨m, hm, -, hrun⟩ := Machine.new_fenced hi hd
  obtain ⟨e, he, ha, -⟩ := hrun ram cs hf
  exact ⟨m, e, hm, he, ha⟩

theorem fenced_programs_see_no_buffer_when_a_page_moves :
    let q : Request := ⟨⟨0x00401abc⟩, .write, .supervisor⟩
    let cs : List Command :=
      [.writeSatp 0x80000001, .writeWord ⟨0x1004⟩ 0x801, .writeWord ⟨0x2004⟩ 0x1407,
        .fence .all, .translate q, .translate q, .writeWord ⟨0x2004⟩ 0x1807,
        .fence ⟨some 3, none⟩, .translate q]
    fenced default false cs = true ∧
      ∃ m e, Mmu.new 1 1 = .ok m ∧ Effect.run Machine.watch ⟨m, .new ⟨0⟩ 0x4000⟩ cs = .ok e ∧
        e.answer.filterMap (·.1.address?) = [⟨0x5abc⟩, ⟨0x5abc⟩, ⟨0x6abc⟩] := by
  intro q cs
  have hf : fenced default false cs = true := by decide
  obtain ⟨m, e, hm, hrun, he⟩ :=
    fenced_programs_see_no_buffer 1 1 (by decide) (by decide) (.new ⟨0⟩ 0x4000) cs hf
  have hp : ((Plain.mk default (.new ⟨0⟩ 0x4000)).run cs).filterMap (·.1.address?) =
      [⟨0x5abc⟩, ⟨0x5abc⟩, ⟨0x6abc⟩] := by decide
  rw [← he] at hp
  exact ⟨hf, m, e, hm, hrun, hp⟩

end Sv32
