import Sv32.Proofs.Marks
import Sv32.Proofs.Staleness

/-! # Upgrades in place

In a fenced program a page that is cached may still be walked for. Its entry is backed, so the walk finds
the page of the entry, and the refill updates it where it stands: all that it can gain is the right to
write. -/
namespace Sv32

theorem Pte.Backs.leaf_touch {p : Pte} {l : Leaf} (h : p.Backs l) (access : Access) :
    let new := (p.touch access).leaf l.level
    new = { l with rights := { l.rights with write := new.rights.write } } ∧
      (l.rights.write = true → new.rights.write = true) := by
  intro new
  have hrights : new.rights =
      ⟨l.rights.read, p.writable && (p.dirty || access == .write), l.rights.exec, l.rights.user⟩ := by
    rw [h.read, h.exec, h.user]
    simp [new, rights_leaf]
  have hppn : new.ppn = l.ppn := by
    rw [h.page]
    simp only [new, leaf, pageNumber_touch]
  constructor
  · rw [hrights, ← hppn]
    exact congrArg (Leaf.mk new.ppn · l.level) hrights
  · intro hw
    obtain ⟨writable, dirty⟩ := h.write hw
    rw [hrights, writable, dirty]
    rfl

theorem Backed.walked {μ : Type} [WordMemory μ] [LawfulWordMemory μ] {m m' : μ} {r : Registers}
    {q : Request} {e : Entry} {l : Leaf} (he : Backed m r.satp.rootPage e)
    (page : q.vaddr.pageNumber e.leaf.level = e.vpn) (h : walk r q m = (.ok l, m')) :
    ∃ a p, LeafAt m r.satp.rootPage q.vaddr e.leaf.level a p ∧ p.Allows r.status q ∧ p.Backs e.leaf ∧
      l = (p.touch q.access).leaf e.leaf.level := by
  obtain ⟨a, p, leaf, backs⟩ := he q.vaddr page
  obtain ⟨a', p', leaf', allowed, -, hl⟩ := walk_found h
  obtain ⟨level, rfl, rfl⟩ := leaf.unique leaf'
  rw [level] at hl
  exact ⟨a', p', leaf, allowed, backs, hl⟩

theorem Pte.Allows.passed_over {p : Pte} {s : Status} {q : Request} {e : Entry} (h : p.Allows s q)
    (backs : p.Backs e.leaf) (mapped : q.privilege ≠ .machine)
    (hn : e.permits q.access q.privilege = false) :
    (q.privilege = .supervisor ∧ e.leaf.rights.user = true ∧ s.sum = true ∧ q.access ≠ .fetch) ∨
      (q.access = .read ∧ e.leaf.rights.read = false ∧ e.leaf.rights.exec = true ∧ s.mxr = true) ∨
      (q.access = .write ∧ e.leaf.rights.write = false) := by
  by_cases user : e.leaf.rights.user = (q.privilege == .user)
  · have lacks : e.leaf.rights.permits q.access = false := by
      simpa [Entry.permits, user] using hn
    cases haccess : q.access with
    | fetch =>
      rw [haccess] at lacks
      have hexec : e.leaf.rights.exec = true := backs.exec.trans (h.fetch haccess)
      exact absurd (hexec.symm.trans lacks) Bool.noConfusion
    | read =>
      rw [haccess] at lacks
      have unreadable : e.leaf.rights.read = false := lacks
      rcases h.read haccess with readable | ⟨mxr, exec⟩
      · exact absurd ((backs.read.trans readable).symm.trans unreadable) Bool.noConfusion
      · exact Or.inr (Or.inl ⟨rfl, unreadable, backs.exec.trans exec, mxr⟩)
    | write =>
      rw [haccess] at lacks
      exact Or.inr (Or.inr ⟨rfl, lacks⟩)
  · cases hpriv : q.privilege with
    | user =>
      rw [backs.user, hpriv, h.user hpriv] at user
      exact absurd rfl user
    | supervisor =>
      rw [hpriv] at user
      have page : e.leaf.rights.user = true := Bool.of_not_eq_false user
      obtain ⟨sum, data⟩ := h.above (by simp [hpriv]) (backs.user.symm.trans page)
      exact Or.inl ⟨rfl, page, sum, data⟩
    | machine => exact absurd hpriv mapped

namespace Machine

variable {s t : Machine} {c : Command} {a : Answer}

theorem Step.ram_alike (h : s.Step c a t) (hw : c.writes = false) : s.ram.Alike t.ram := by
  have same : ∀ {ram}, t.plain.ram = ram → s.plain.ram.Alike ram → s.ram.Alike t.ram := by
    rintro _ rfl h
    exact h
  cases h with
  | translate h =>
    cases h with
    | bypassed _ plain _ | hit _ _ plain _ => exact same (congrArg Plain.ram plain) s.ram.alike_refl
    | walked _ _ found plain _ => exact same (congrArg Plain.ram plain) (Ram.alike_of_walk found)
    | failed _ _ fault plain _ => exact same (congrArg Plain.ram plain) (Ram.alike_of_walk fault)
  | other _ plain _ =>
    apply same (congrArg Plain.ram plain)
    rcases Plain.ram_step hw with hr | ⟨q, l, hwalk⟩
    · rw [hr]
      exact s.ram.alike_refl
    · exact Ram.alike_of_walk hwalk

theorem Walks.step {q : Request} {l : Leaf} (h : s.Walks q l) :
    ∃ t, s.step (.mmu (.translate q)) =
      .ok ⟨.mmu (.translated (.ok (l.translate q.vaddr))), t,
        [Tlb.refillEvent q.access.side q.vaddr l ((s.held q.access.side).refill q.vaddr l).1]⟩ := by
  obtain ⟨e, he, outcome⟩ := s.mmu.translate_eq_ok q s.ram
  have missed : s.mmu.tlb.peek q.access.side q = none := by
    rw [peek_eq_served, h.missed]
    rfl
  have hstep := step_of_translate he
  cases outcome with
  | bypassed hb => exact absurd (hb.symm.trans h.mapped) Bool.noConfusion
  | hit _ found => exact nomatch missed.symm.trans found
  | failed _ _ fault => exact nomatch h.found.symm.trans (congrArg Prod.fst fault)
  | walked _ _ found refilled =>
    obtain rfl := Except.ok.inj ((congrArg Prod.fst found).symm.trans h.found)
    obtain ⟨e', he', answer, -⟩ := (s.mmu.tlb.lookup q.access.side q).2.refill_of_isAligned
      q.access.side q.vaddr (walk_isAligned found)
    obtain rfl := Except.ok.inj (he'.symm.trans refilled)
    rw [Tlb.cache_lookup] at answer
    rw [Tlb.events_refill refilled, answer] at hstep
    exact ⟨_, hstep⟩

end Machine

namespace Run

variable {instruction data : Nat} {ram : Ram} {command : Nat → Command}

def commands (command : Nat → Command) (n : Nat) : List Command := (List.range n).map command

theorem commands_succ (n : Nat) : commands command (n + 1) = commands command n ++ [command n] := by
  simp only [commands, List.range_succ, List.map_append, List.map_cons, List.map_nil]

theorem fenced_succ (n : Nat) : fenced default false (commands command (n + 1)) =
    (fenced default false (commands command n) &&
      !((command n).translates && awaiting default false (commands command n))) := by
  rw [commands_succ, fenced_append]
  simp only [fenced, Bool.and_true]

variable (ρ : Run instruction data ram command)

theorem run_commands (n : Nat) : ∃ events, ((Mmu.new instruction data).bind fun m =>
      Effect.run Machine.step ⟨m, ram⟩ ((commands command n).map Command.op)) =
    .ok ⟨(List.range n).map ρ.answer, ρ.state n, events⟩ := by
  obtain ⟨events, hrun⟩ := Effect.run_range ρ.next n
  refine ⟨events, ?_⟩
  have hs := ρ.start
  cases hm : Mmu.new instruction data with
  | error =>
    rw [hm] at hs
    cases hs
  | ok m =>
    rw [hm] at hs
    have hs : Machine.mk m ram = ρ.state 0 := Except.ok.inj hs
    rw [commands, List.map_map, Except.bind, hs]
    exact hrun

theorem ram_alike {j n : Nat} (hj : j ≤ n) (hw : ∀ i, j ≤ i → i < n → (command i).writes = false) :
    (ρ.state j).ram.Alike (ρ.state n).ram := by
  induction hj with
  | refl => exact Ram.alike_refl _
  | @step n hj ih =>
    have hstep := (ρ.step n).ram_alike (hw n hj (Nat.lt_succ_self n))
    exact (ih fun i hj hi => hw i hj (Nat.lt_succ_of_lt hi)).trans hstep

variable {ρ}

theorem WalksAt.walk_eq {k : Nat} {q : Request} {l : Leaf} (h : ρ.WalksAt k q l) :
    walk (ρ.state k).plain.registers q (ρ.state k).ram = (.ok l, (ρ.state (k + 1)).ram) := by
  obtain ⟨x, -, outcome⟩ := (ρ.step k).translated h.1
  obtain ⟨mapped, missed, found⟩ := h.2
  cases outcome with
  | bypassed hb => exact absurd (hb.symm.trans mapped) Bool.noConfusion
  | hit _ served => exact nomatch missed.symm.trans served
  | failed _ _ fault => exact nomatch found.symm.trans (congrArg Prod.fst fault)
  | walked _ _ walked plain =>
    obtain rfl := Except.ok.inj ((congrArg Prod.fst walked).symm.trans found)
    have hram : (ρ.state (k + 1)).ram = _ := congrArg Plain.ram plain
    rw [hram]
    exact walked

variable (ρ)

/-- Why the entry `e` is passed over at `k` by a request that its page allows: it is a user page, and the
flags open it to the supervisor; or it can only be executed, and the flags let that be read; or it is to be
written, and was clean when the entry was last refilled. -/
inductive PassesOver (k : Nat) (q : Request) (e : Entry) : Prop where
  | user (privilege : q.privilege = .supervisor) (page : e.leaf.rights.user = true)
      (sum : (ρ.state k).mmu.registers.status.sum = true) (data : q.access ≠ .fetch)
  | executable (access : q.access = .read) (unreadable : e.leaf.rights.read = false)
      (exec : e.leaf.rights.exec = true) (mxr : (ρ.state k).mmu.registers.status.mxr = true)
  | clean {j : Nat} {q' : Request} {a : PhysAddr} {p : Pte} (access : q.access = .write)
      (unwritable : e.leaf.rights.write = false) (origin : ρ.Origin k q.access.side e j q')
      (leaf : LeafAt (ρ.state (j + 1)).ram (ρ.satp k).rootPage q.vaddr e.leaf.level a p)
      (writable : p.writable = true) (undirtied : p.dirty = false)

variable (hi : 0 < instruction) (hd : 0 < data)

include hi hd

theorem satpAfter_commands (n : Nat) :
    (commands command n).foldl (fun s c => c.satpAfter s) default = ρ.satp n := by
  induction n with
  | zero =>
    have h := (ρ.start_eq hi hd).1
    rw [satp, h]
    rfl
  | succ n ih =>
    rw [commands_succ, List.foldl_append, ih]
    exact (ρ.step n).satp.symm

theorem awaiting_succ (n : Nat) :
    awaiting default false (commands command (n + 1)) =
      ((command n).writes ||
        awaiting default false (commands command n) && !(command n).flushes (ρ.satp n)) := by
  rw [commands_succ, awaiting_append, ρ.satpAfter_commands hi hd]
  rfl

theorem synced {n : Nat} (hf : fenced default false (commands command n) = true) :
    (ρ.state n).Synced (awaiting default false (commands command n)) := by
  induction n with
  | zero =>
    obtain ⟨-, hsound, hempty⟩ := ρ.start_eq hi hd
    exact Machine.synced_of_empty hsound hempty
  | succ n ih =>
    rw [fenced_succ, Bool.and_eq_true, Bool.not_eq_true'] at hf
    obtain ⟨hf, hc⟩ := hf
    rw [ρ.awaiting_succ hi hd]
    apply (ρ.step n).synced (ih hf)
    intro ht
    rw [ht, Bool.true_and] at hc
    exact hc

/-- Where no write awaits its flush, none has come after the last flush. -/
theorem no_write {j n : Nat} (hn : awaiting default false (commands command n) = false)
    (unflushed : ∀ i, j < i → i < n → ¬ ρ.FlushesAt i) :
    ∀ i, j < i → i < n → (command i).writes = false := by
  induction n with
  | zero =>
    intro i _ hi
    cases hi
  | succ n ih =>
    rw [ρ.awaiting_succ hi hd, Bool.or_eq_false_iff] at hn
    obtain ⟨hw, hn⟩ := hn
    intro i hj hi'
    rcases Nat.lt_succ_iff_lt_or_eq.mp hi' with hlt | rfl
    · have hflush : (command n).flushes (ρ.satp n) = false :=
        Bool.of_not_eq_true (unflushed n (Nat.lt_trans hj hlt) (Nat.lt_succ_self n))
      -- what awaits its flush before a command that flushes nothing still does after it
      rw [hflush, Bool.not_false, Bool.and_true] at hn
      exact ih hn (fun i hj hi => unflushed i hj (Nat.lt_succ_of_lt hi)) i hj hlt
    · exact hw

variable {ρ} {k : Nat} {q : Request} {e : Entry}

/-- Where no write awaits its flush and the leaf of a page is writable, an entry for the page that lacks the
right to write comes from a walk that has left the leaf clean. -/
theorem Origin.clean {side : Side} {j : Nat} {q' : Request} {a : PhysAddr} {p : Pte}
    (h : ρ.Origin k side e j q')
    (hp : awaiting default false (commands command k) = false)
    (page : e.vpn = q.vaddr.pageNumber e.leaf.level)
    (leaf : LeafAt (ρ.state k).ram (ρ.satp k).rootPage q.vaddr e.leaf.level a p)
    (writable : p.writable = true) (lacks : e.leaf.rights.write = false) :
    ∃ p', LeafAt (ρ.state (j + 1)).ram (ρ.satp k).rootPage q.vaddr e.leaf.level a p' ∧
      p'.writable = true ∧ p'.dirty = false := by
  obtain ⟨a', p', walked, -, -, -, hl⟩ := walk_leaves h.walked.walk_eq
  have walked := walked.congr (page.symm.trans h.page)
  have hroot : (ρ.state j).plain.registers.satp.rootPage = (ρ.satp k).rootPage :=
    congrArg Satp.rootPage h.same_satp
  rw [hroot] at walked
  -- only marks have been made since the walk, so its leaf is the one that is there now
  have quiet := ρ.no_write hi hd hp h.unflushed
  have alike := ρ.ram_alike (Nat.succ_le_of_lt h.earlier) quiet
  obtain ⟨p'', leaf', hmarks⟩ := alike.leafAt walked
  obtain ⟨-, rfl, rfl⟩ := leaf.unique leaf'
  have hwritable : p'.writable = true := hmarks.writable.symm.trans writable
  refine ⟨p', walked, hwritable, ?_⟩
  rw [hl, p'.rights_leaf, hwritable, Bool.true_and] at lacks
  exact lacks

theorem WalksAt.upgrade {l : Leaf}
    (hf : fenced default false (commands command (k + 1)) = true) (h : ρ.WalksAt k q l)
    (he : e ∈ ((ρ.state k).held q.access.side).entries) (covers : e.covers q.vaddr = true) :
    ρ.PassesOver k q e ∧
      l = { e.leaf with rights := { e.leaf.rights with write := l.rights.write } } ∧
      (e.leaf.rights.write = true → l.rights.write = true) := by
  obtain ⟨hv, page⟩ := (e.covers_iff q.vaddr).mp covers
  rw [fenced_succ, h.1, Bool.and_eq_true] at hf
  obtain ⟨hf, hp⟩ := hf
  have hp : awaiting default false (commands command k) = false := by
    simpa [Command.translates] using hp
  have backed := (ρ.synced hi hd hf).backed hp _ e he hv
  obtain ⟨a, p, leaf, allowed, backs, hl⟩ := backed.walked page h.walk_eq
  have gain := backs.leaf_touch q.access
  rw [← hl] at gain
  refine ⟨?_, gain⟩
  have mapped : q.privilege ≠ .machine := (Registers.bypasses_eq_false_iff _ _).mp h.2.mapped |>.2
  have unserved : e.permits q.access q.privilege = false := by
    have hn := List.find?_eq_none.mp h.2.missed e he
    simpa [Entry.serves, covers] using hn
  rcases allowed.passed_over backs mapped unserved with
    ⟨privilege, user, sum, access⟩ | ⟨access, unreadable, exec, mxr⟩ | ⟨access, lacks⟩
  · exact .user privilege user sum access
  · exact .executable access unreadable exec mxr
  · obtain ⟨j, q', origin⟩ := (ρ.traced hi hd k).origin _ e he hv
    obtain ⟨p', leaf', writable, clean⟩ := origin.clean hi hd hp page.symm leaf (allowed.write access) lacks
    exact .clean access lacks origin leaf' writable clean

end Run

/-- In a fenced run, a request that finds no entry to serve it and is answered, while its side holds a valid
entry for its address, updates this entry in place. All that the entry can gain is the right to write, and
it was passed over for one of three reasons. -/
theorem cached_pages_are_upgraded_in_place (instruction data : Nat) (hi : 0 < instruction) (hd : 0 < data)
    (ram : Ram) (command : Nat → Command) :
    Nonempty (Run instruction data ram command) ∧
      ∀ (ρ : Run instruction data ram command) (k : Nat) (q : Request) (x : PhysAddr) (e : Entry),
        fenced default false (Run.commands command (k + 1)) = true → command k = .translate q →
        (ρ.satp k).mode = .sv32 → q.privilege ≠ .machine →
        (ρ.state k).mmu.tlb.peek q.access.side q = none → ρ.answer k = .mmu (.translated (.ok x)) →
        e ∈ ((ρ.state k).held q.access.side).entries → e.covers q.vaddr = true →
        ρ.PassesOver k q e ∧
          ∃ l before after,
            (ρ.state k).step (command k).op =
              .ok ⟨ρ.answer k, ρ.state (k + 1), [.replaced q.access.side q.vaddr l]⟩ ∧
            ((ρ.state k).held q.access.side).entries = before ++ e :: after ∧
            (∀ side, (ρ.state (k + 1)).held side =
              if side = q.access.side then
                { (ρ.state k).held side with entries := before ++ { e with leaf := l } :: after }
              else (ρ.state k).held side) ∧
            l = { e.leaf with rights := { e.leaf.rights with write := l.rights.write } } ∧
            (e.leaf.rights.write = true → l.rights.write = true) := by
  refine ⟨Run.nonempty_of_pos hi hd ram command, ?_⟩
  intro ρ k q x e hf hc hmode hpriv missed ha he covers
  have hmapped : (ρ.state k).plain.registers.bypasses q.privilege = false :=
    (Registers.bypasses_eq_false_iff _ _).mpr ⟨hmode, hpriv⟩
  rw [Machine.peek_eq_served, Option.map_eq_none_iff] at missed
  obtain ⟨y, hy, outcome⟩ := (ρ.step k).translated hc
  cases outcome with
  | bypassed hb => exact absurd (hb.symm.trans hmapped) Bool.noConfusion
  | hit _ served => exact nomatch missed.symm.trans served
  | failed => exact nomatch ha.symm.trans hy
  | @walked l _ _ _ _ found _ held =>
    have walks : ρ.WalksAt k q l := ⟨hc, hmapped, missed, congrArg Prod.fst found⟩
    obtain ⟨reason, hl, hwrite⟩ := walks.upgrade hi hd hf he covers
    refine ⟨reason, l, ?_⟩
    have hlevel : l.level = e.leaf.level := by rw [hl]
    obtain ⟨hv, page⟩ := (e.covers_iff q.vaddr).mp covers
    rw [← hlevel] at page
    obtain ⟨before, after, hsplit, hrefill⟩ := Fifo.refill_of_mem
      ((ρ.traced hi hd k).sound q.access.side).distinct he ⟨hv, hlevel.symm, page.symm⟩
    have hentry : (⟨q.vaddr.pageNumber l.level, l, true⟩ : Entry) = { e with leaf := l } := by
      rw [page, ← hv]
    refine ⟨before, after, ?_, hsplit, ?_, hl, hwrite⟩
    · obtain ⟨t, hstep⟩ := walks.2.step
      obtain ⟨events, hnext⟩ := ρ.next k
      rw [hrefill] at hstep
      rw [hc] at hnext ⊢
      have same := hnext.symm.trans hstep
      simp only [Except.ok.injEq, Effect.mk.injEq] at same
      obtain ⟨-, -, rfl⟩ := same
      exact hnext
    · intro side
      rw [held]
      split
      · rename_i hside
        rw [hside, hrefill, hentry]
      · rfl

theorem cached_pages_are_upgraded_in_place_at_first_store :
    let readable : Rights := ⟨true, false, false, false⟩
    let first : Entry := ⟨0x401000, ⟨⟨0x5000⟩, readable, .base⟩, true⟩
    let second : Entry := ⟨0x402000, ⟨⟨0x6000⟩, readable, .base⟩, true⟩
    let q : Request := ⟨⟨0x00401abc⟩, .write, .supervisor⟩
    let cs : List Command :=
      [.writeSatp 0x80000001, .writeWord ⟨0x1004⟩ 0x801, .writeWord ⟨0x2004⟩ 0x1407,
        .writeWord ⟨0x2008⟩ 0x1807, .fence .all, .translate ⟨⟨0x00401000⟩, .read, .supervisor⟩,
        .translate ⟨⟨0x00402000⟩, .read, .supervisor⟩, .translate q]
    let command k := cs.getD k (.fence .all)
    fenced default false (Run.commands command 8) = true ∧
      ∃ ρ : Run 1 2 (.new ⟨0⟩ 0x4000) command,
        ((ρ.state 7).held .data).entries = [first, second] ∧ ρ.PassesOver 7 q first ∧
        (∃ l, (ρ.state 7).step (.mmu (.translate q)) =
            .ok ⟨.mmu (.translated (.ok ⟨0x5abc⟩)), ρ.state 8, [.replaced .data q.vaddr l]⟩ ∧
          l = { first.leaf with rights := { readable with write := l.rights.write } }) ∧
        ((ρ.state 8).held .data).entries =
          [{ first with leaf := ⟨⟨0x5000⟩, ⟨true, true, false, false⟩, .base⟩ }, second] := by
  intro readable first second q cs command
  have hf : fenced default false (Run.commands command 8) = true := by decide
  obtain ⟨⟨ρ⟩, h⟩ :=
    cached_pages_are_upgraded_in_place 1 2 (by decide) (by decide) (.new ⟨0⟩ 0x4000) command
  have hbefore : ((Mmu.new 1 2).bind fun m =>
      Effect.run Machine.step ⟨m, .new ⟨0⟩ 0x4000⟩ ((Run.commands command 7).map Command.op)).toOption.map
      (fun e => (e.state.plain.registers.satp, (e.state.held .data).entries,
        e.state.mmu.tlb.peek .data q)) = some (⟨0x80000001⟩, [first, second], none) := by
    decide +kernel
  have hafter : ((Mmu.new 1 2).bind fun m =>
      Effect.run Machine.step ⟨m, .new ⟨0⟩ 0x4000⟩ ((Run.commands command 8).map Command.op)).toOption.map
      (fun e => (e.answer[7]?.bind (·.address?), (e.state.held .data).entries)) =
      some (some ⟨0x5abc⟩,
        [{ first with leaf := ⟨⟨0x5000⟩, ⟨true, true, false, false⟩, .base⟩ }, second]) := by
    decide +kernel
  obtain ⟨_, hrun⟩ := ρ.run_commands 7
  obtain ⟨_, hrun'⟩ := ρ.run_commands 8
  rw [hrun] at hbefore
  rw [hrun'] at hafter
  simp only [Except.toOption, Option.map_some, Option.some.injEq, Prod.mk.injEq] at hbefore hafter
  obtain ⟨hsatp, hentries, hpeek⟩ := hbefore
  obtain ⟨ha, hentries'⟩ := hafter
  have ha : ρ.answer 7 = .mmu (.translated (.ok ⟨0x5abc⟩)) :=
    Machine.Answer.address?_eq_some (by simpa using ha)
  have hmode : (ρ.satp 7).mode = .sv32 := by
    rw [Run.satp, hsatp]
    rfl
  have hmem : first ∈ ((ρ.state 7).held .data).entries := by
    rw [hentries]
    exact List.mem_cons_self
  obtain ⟨reason, l, -, -, hstep, -, -, hl, -⟩ :=
    h ρ 7 q ⟨0x5abc⟩ first hf rfl hmode (by decide) hpeek ha hmem (by decide)
  rw [ha] at hstep
  exact ⟨hf, ρ, hentries, reason, ⟨l, hstep, hl⟩, hentries'⟩

end Sv32
