import Sv32.Proofs.Alike
import Sv32.Proofs.Transparency

/-! # Marks

All that a walk writes is marks. A fenced program never uses a page without leaving its marks in the tables,
and no walk depends on the marks that it finds, so requests may change places once every write has been
flushed. -/
namespace Sv32

theorem fenced_append (satp : Satp) (pending : Bool) (cs ds : List Command) :
    fenced satp pending (cs ++ ds) =
      (fenced satp pending cs &&
        fenced (cs.foldl (fun s c => c.satpAfter s) satp) (awaiting satp pending cs) ds) := by
  induction cs generalizing satp pending with
  | nil => rfl
  | cons c cs ih => simp only [List.cons_append, fenced, awaiting, List.foldl_cons, ih, Bool.and_assoc]

theorem awaiting_append (satp : Satp) (pending : Bool) (cs ds : List Command) :
    awaiting satp pending (cs ++ ds) =
      awaiting (cs.foldl (fun s c => c.satpAfter s) satp) (awaiting satp pending cs) ds := by
  induction cs generalizing satp pending with
  | nil => rfl
  | cons c cs ih => simp only [List.cons_append, awaiting, List.foldl_cons, ih]

namespace Plain

variable {s t : Plain}

theorem step_marks {q : Request} {x : PhysAddr} (hb : s.registers.bypasses q.privilege = false)
    (h : s.step (.translate q) = (.mmu (.translated (.ok x)), t)) :
    ∃ level a p, LeafAt t.ram t.registers.satp.rootPage q.vaddr level a p ∧ p.accessed = true ∧
      (q.access = .write → p.dirty = true) := by
  cases hw : walk s.registers q s.ram with
  | mk result ram =>
    cases result with
    | ok l =>
      rw [step_walked hb hw] at h
      obtain ⟨-, rfl⟩ := Prod.mk.inj h
      obtain ⟨a, p, leaf, -, accessed, dirty, -⟩ := walk_leaves hw
      exact ⟨l.level, a, p, leaf, accessed, dirty⟩
    | error f =>
      rw [step_failed hb hw] at h
      cases h

end Plain

namespace Machine

variable {s t : Machine} {c : Command} {a : Answer}

def Placed (s : Machine) : Prop :=
  ∀ side, ∀ e ∈ (s.held side).entries, e.valid = true → ∃ v : VirtAddr, v.pageNumber e.leaf.level = e.vpn

theorem Step.placed (h : s.Step c a t) (hs : s.Placed) : t.Placed := by
  intro side e he hv
  rcases h.entry he hv with ⟨q, l, -, -, -, rfl⟩ | ⟨he, -, -⟩
  · exact ⟨q.vaddr, rfl⟩
  · exact hs side e he hv

theorem step_of_watch {e : Effect Machine (Answer × Ram)} (h : s.watch c = .ok e) :
    s.Step c e.answer.1 e.state := by
  obtain ⟨a, t, events, hstep, ht⟩ := s.step_eq_ok c
  rw [watch, hstep] at h
  cases h
  exact ht

theorem run_placed {cs : List Command} {e : Effect Machine (List (Answer × Ram))} (hs : s.Placed)
    (h : Effect.run watch s cs = .ok e) : e.state.Placed :=
  Effect.run_invariant (fun _ _ _ hs h => (step_of_watch h).placed hs) hs h

end Machine

/-- At every point of a fenced program: unless a write awaits its flush, the page of every valid entry is
marked in the tables. And a request that comes next and is answered leaves the leaf of its address marked
for the access, whether it walks or not. -/
theorem pages_in_use_are_marked (instruction data : Nat) (hi : 0 < instruction) (hd : 0 < data)
    (ram : Ram) (cs : List Command) (hf : fenced default false cs = true) :
    ∃ m, Mmu.new instruction data = .ok m ∧ ∀ before after, cs = before ++ after →
      ∃ e, Effect.run Machine.watch ⟨m, ram⟩ before = .ok e ∧
        (awaiting default false before = false →
          ∀ side, ∀ entry ∈ (e.state.held side).entries, entry.valid = true →
            (∃ v : VirtAddr, v.pageNumber entry.leaf.level = entry.vpn) ∧
            ∀ v : VirtAddr, v.pageNumber entry.leaf.level = entry.vpn →
              ∃ a p, LeafAt e.state.ram e.state.mmu.registers.satp.rootPage v entry.leaf.level a p ∧
                p.valid = true ∧ p.accessed = true ∧
                (entry.leaf.rights.write = true → p.writable = true ∧ p.dirty = true)) ∧
        (∀ q rest, after = .translate q :: rest →
          ∃ x t events,
            e.state.step (.mmu (.translate q)) = .ok ⟨.mmu (.translated x), t, events⟩ ∧
            ∀ address, x = .ok address → e.state.mmu.registers.satp.mode = .sv32 →
              q.privilege ≠ .machine →
              ∃ level a p, LeafAt t.ram t.mmu.registers.satp.rootPage q.vaddr level a p ∧
                p.valid = true ∧ p.accessed = true ∧ (q.access = .write → p.dirty = true)) := by
  obtain ⟨m, hm, hempty, hrun⟩ := Machine.new_fenced hi hd
  refine ⟨m, hm, ?_⟩
  rintro before after rfl
  rw [fenced_append, Bool.and_eq_true] at hf
  obtain ⟨hbefore, hafter⟩ := hf
  obtain ⟨e, he, -, -, hsync⟩ := hrun ram before hbefore
  refine ⟨e, he, ?_, ?_⟩
  · intro hp side entry hmem hv
    have hstart : (Machine.mk m ram).Placed := by
      intro side e he
      rw [hempty] at he
      cases he
    refine ⟨Machine.run_placed hstart he side entry hmem hv, ?_⟩
    intro v hpage
    obtain ⟨a, p, leaf, hb⟩ := hsync.backed hp side entry hmem hv v hpage
    exact ⟨a, p, leaf, leaf.entry.valid, hb.accessed, hb.write⟩
  · rintro q rest rfl
    have hp : awaiting default false before = false := by
      simpa [fenced, Command.translates] using (Bool.and_eq_true_iff.mp hafter).1
    obtain ⟨_, t, events, hstep, h⟩ := e.state.step_eq_ok (.translate q)
    obtain ⟨x, rfl, -⟩ := h.translated rfl
    refine ⟨x, t, events, hstep, ?_⟩
    rintro address rfl hmode hpriv
    have hb : e.state.plain.registers.bypasses q.privilege = false := by
      simp [Registers.bypasses, Machine.plain, hmode, hpriv]
    obtain ⟨level, a, p, leaf, accessed, dirty⟩ :=
      Plain.step_marks hb (h.eq_plain hsync fun _ => hp)
    exact ⟨level, a, p, leaf, leaf.entry.valid, accessed, dirty⟩

theorem pages_in_use_are_marked_at_first_store :
    let q : Request := ⟨⟨0x00401abc⟩, .write, .supervisor⟩
    let before : List Command :=
      [.writeSatp 0x80000001, .writeWord ⟨0x1004⟩ 0x801, .writeWord ⟨0x2004⟩ 0x1407, .fence .all,
        .translate ⟨⟨0x00401000⟩, .read, .supervisor⟩]
    fenced default false (before ++ [.translate q]) = true ∧
      ∃ m e t events, Mmu.new 1 1 = .ok m ∧
        Effect.run Machine.watch ⟨m, .new ⟨0⟩ 0x4000⟩ before = .ok e ∧
        e.state.step (.mmu (.translate q)) =
          .ok ⟨.mmu (.translated (.ok ⟨0x5abc⟩)), t, events⟩ ∧
        ∃ level a p, LeafAt t.ram t.mmu.registers.satp.rootPage q.vaddr level a p ∧
          p.accessed = true ∧ p.dirty = true := by
  intro q before
  have hf : fenced default false (before ++ [.translate q]) = true := by decide
  obtain ⟨m, hm, h⟩ :=
    pages_in_use_are_marked 1 1 (by decide) (by decide) (.new ⟨0⟩ 0x4000) _ hf
  obtain ⟨e, he, -, hnext⟩ := h before [.translate q] rfl
  obtain ⟨x, t, events, hstep, hx⟩ := hnext q [] rfl
  have hrun : ((do
      let m ← Mmu.new 1 1
      let e ← Effect.run Machine.watch ⟨m, .new ⟨0⟩ 0x4000⟩ before
      let f ← e.state.step (.mmu (.translate q))
      return (e.state.mmu.registers.satp.mode, f.answer.address?) :
        Except Violation (PagingMode × Option PhysAddr))).toOption =
      some (.sv32, some ⟨0x5abc⟩) := by
    decide +kernel
  simp only [hm, he, hstep, bind, Except.bind, pure, Except.pure, Except.toOption, Option.some.injEq,
    Prod.mk.injEq] at hrun
  obtain ⟨hmode, ha⟩ := hrun
  obtain rfl : x = .ok ⟨0x5abc⟩ :=
    Mmu.Answer.translated.inj (Machine.Answer.mmu.inj (Machine.Answer.address?_eq_some ha))
  obtain ⟨level, a, p, leaf, -, accessed, dirty⟩ := hx _ rfl hmode nofun
  exact ⟨hf, m, e, t, events, hm, he, hstep, level, a, p, leaf, accessed, dirty rfl⟩

theorem Registers.translate_alike (r : Registers) (q : Request) (m : Ram) :
    ∃ answer leaf, ∀ m', m.Alike m' → r.translate q m' = (answer, m'.mark q.access leaf) := by
  cases hb : r.bypasses q.privilege with
  | true =>
    refine ⟨.ok ⟨q.vaddr.val⟩, none, ?_⟩
    intro m' _
    simp only [translate, hb, ↓reduceIte]
    rfl
  | false =>
    cases hw : walk r q m with
    | mk result n =>
    cases result with
    | ok l =>
      obtain ⟨a, p, leaf, -⟩ := walk_found hw
      refine ⟨.ok (l.ppn.splice l.level q.vaddr), some a, ?_⟩
      intro m' h
      have hends := Ram.walk_alike h r q
      rw [hw] at hends
      generalize hw' : walk r q m' = x' at hends
      cases hends with
      | found leaf₁ leaf' hp =>
        obtain ⟨-, rfl, rfl⟩ := leaf.unique leaf₁
        simp only [translate, hb, hw', Bool.false_eq_true, ↓reduceIte, Leaf.translate, Pte.leaf,
          Pte.pageNumber_touch, hp.pageNumber]
    | error f =>
      refine ⟨.error (f.trap q), none, ?_⟩
      intro m' h
      have hends := Ram.walk_alike h r q
      rw [hw] at hends
      generalize hw' : walk r q m' = x' at hends
      cases hends
      simp only [translate, hb, hw', Bool.false_eq_true, ↓reduceIte]
      rfl

/-- A request is answered as if the one before it had not been made, and the two may change places. -/
theorem Registers.translate_comm (r : Registers) (q q' : Request) (m : Ram) :
    (r.translate q' (r.translate q m).2).1 = (r.translate q' m).1 ∧
      (r.translate q' (r.translate q m).2).2 = (r.translate q (r.translate q' m).2).2 := by
  obtain ⟨x, a, hq⟩ := r.translate_alike q m
  obtain ⟨y, b, hq'⟩ := r.translate_alike q' m
  rw [hq m m.alike_refl, hq' m m.alike_refl, hq' _ (m.alike_mark _ _), hq _ (m.alike_mark _ _)]
  exact ⟨rfl, m.mark_comm _ _ _ _⟩

namespace Plain

theorem run_requests (s : Plain) (qs : List Request) :
    (s.run (qs.map .translate)).map (·.1) =
      qs.map fun q => .mmu (.translated (s.registers.translate q s.ram).1) := by
  induction qs generalizing s with
  | nil => rfl
  | cons q qs ih =>
    simp only [List.map_cons, run, ih, step, (s.registers.translate_comm q _ s.ram).1]

theorem after_perm {qs rs : List Request} (h : qs.Perm rs) (s : Plain) :
    s.after (qs.map .translate) = s.after (rs.map .translate) := by
  induction h generalizing s with
  | nil => rfl
  | cons q _ ih => exact ih _
  | swap q q' qs =>
    simp only [List.map_cons, after, step, (s.registers.translate_comm q' q s.ram).2]
  | trans _ _ ih ih' => exact (ih s).trans (ih' s)

end Plain

theorem fenced_requests (satp : Satp) (pending : Bool) (qs : List Request) :
    fenced satp pending (qs.map .translate) = (qs.isEmpty || !pending) := by
  induction qs generalizing pending with
  | nil => rfl
  | cons q qs ih =>
    have hc : (Command.translate q).satpAfter satp = satp := rfl
    simp only [List.map_cons, fenced, ih, hc]
    cases pending <;> simp [Command.translates, Command.writes, Command.flushes]

/-- Once every write has been flushed, the requests that end a fenced program may be made in any order: each
is answered as the tables answer it where the requests begin, and the memory left behind is the same. -/
theorem requests_may_change_places (instruction data : Nat) (hi : 0 < instruction) (hd : 0 < data)
    (ram : Ram) (cs : List Command) (qs rs : List Request) (hp : qs.Perm rs)
    (hf : fenced default false (cs ++ qs.map .translate) = true) :
    ∃ m e f g, Mmu.new instruction data = .ok m ∧ Effect.run Machine.watch ⟨m, ram⟩ cs = .ok e ∧
      Effect.run Machine.watch e.state (qs.map .translate) = .ok f ∧
      Effect.run Machine.watch e.state (rs.map .translate) = .ok g ∧
      (let answer (q : Request) := (e.state.mmu.registers.translate q e.state.ram).1
       f.answer.map (·.1) = qs.map (fun q => .mmu (.translated (answer q))) ∧
       g.answer.map (·.1) = rs.map (fun q => .mmu (.translated (answer q)))) ∧
      f.state.ram = g.state.ram := by
  obtain ⟨m, hm, -, hrun⟩ := Machine.new_fenced hi hd
  rw [fenced_append, Bool.and_eq_true] at hf
  obtain ⟨hcs, hqs⟩ := hf
  obtain ⟨e, he, -, hplain, hsync⟩ := hrun ram cs hcs
  rw [fenced_requests] at hqs
  have hrs : fenced e.state.plain.registers.satp (awaiting default false cs) (rs.map .translate) = true := by
    rw [fenced_requests, ← hp.isEmpty_eq]
    exact hqs
  rw [← fenced_requests e.state.plain.registers.satp] at hqs
  obtain ⟨f, hf, hfa, hfp, -⟩ := Machine.run_fenced hsync hqs
  obtain ⟨g, hg, hga, hgp, -⟩ := Machine.run_fenced hsync hrs
  refine ⟨m, e, f, g, hm, he, hf, hg, ⟨?_, ?_⟩, ?_⟩
  · rw [hfa]
    exact Plain.run_requests _ _
  · rw [hga]
    exact Plain.run_requests _ _
  · have hsame := hfp.trans ((Plain.after_perm hp _).trans hgp.symm)
    exact congrArg Plain.ram hsame

theorem requests_may_change_places_on_one_page :
    let read : Request := ⟨⟨0x00401abc⟩, .read, .supervisor⟩
    let store : Request := ⟨⟨0x00401abc⟩, .write, .supervisor⟩
    let cs : List Command :=
      [.writeSatp 0x80000001, .writeWord ⟨0x1004⟩ 0x801, .writeWord ⟨0x2004⟩ 0x1407, .fence .all]
    [read, store].Perm [store, read] ∧
      fenced default false (cs ++ [read, store].map .translate) = true ∧
      ∃ m e f g, Mmu.new 1 1 = .ok m ∧
        Effect.run Machine.watch ⟨m, .new ⟨0⟩ 0x4000⟩ cs = .ok e ∧
        Effect.run Machine.watch e.state ([read, store].map .translate) = .ok f ∧
        Effect.run Machine.watch e.state ([store, read].map .translate) = .ok g ∧
        f.answer.map (·.1.address?) = [some ⟨0x5abc⟩, some ⟨0x5abc⟩] ∧
        g.answer.map (·.1.address?) = [some ⟨0x5abc⟩, some ⟨0x5abc⟩] ∧
        f.state.ram = g.state.ram := by
  intro read store cs
  have hp : [read, store].Perm [store, read] := .swap store read []
  have hf : fenced default false (cs ++ [read, store].map .translate) = true := by decide
  obtain ⟨m, e, f, g, hm, he, hfr, hgr, -, hram⟩ :=
    requests_may_change_places 1 1 (by decide) (by decide) (.new ⟨0⟩ 0x4000) cs _ _ hp hf
  have hrun : ((do
      let m ← Mmu.new 1 1
      let e ← Effect.run Machine.watch ⟨m, .new ⟨0⟩ 0x4000⟩ cs
      let f ← Effect.run Machine.watch e.state ([read, store].map .translate)
      let g ← Effect.run Machine.watch e.state ([store, read].map .translate)
      return (f.answer.map (·.1.address?), g.answer.map (·.1.address?)) :
        Except Violation (List (Option PhysAddr) × List (Option PhysAddr)))).toOption =
      some ([some ⟨0x5abc⟩, some ⟨0x5abc⟩], [some ⟨0x5abc⟩, some ⟨0x5abc⟩]) := by
    decide +kernel
  simp only [hm, he, hfr, hgr, bind, Except.bind, pure, Except.pure, Except.toOption,
    Option.some.injEq, Prod.mk.injEq] at hrun
  exact ⟨hp, hf, m, e, f, g, hm, he, hfr, hgr, hrun.1, hrun.2, hram⟩

/-- A leaf was changed and the change still awaits its flush. One request finds the old page in the buffer if it
comes first, and the new one if another page has pushed the entry out before. -/
theorem requests_do_not_change_places_before_a_flush :
    let again : Request := ⟨⟨0x00401abc⟩, .read, .supervisor⟩
    let other : Request := ⟨⟨0x00402abc⟩, .read, .supervisor⟩
    let cs : List Command :=
      [.writeSatp 0x80000001, .writeWord ⟨0x1004⟩ 0x801, .writeWord ⟨0x2004⟩ 0x1407,
        .writeWord ⟨0x2008⟩ 0x1807, .fence .all, .translate again, .writeWord ⟨0x2004⟩ 0x1c07]
    [again, other].Perm [other, again] ∧ fenced default false cs = true ∧
      awaiting default false cs = true ∧
      ∃ m e f g, Mmu.new 1 1 = .ok m ∧
        Effect.run Machine.watch ⟨m, .new ⟨0⟩ 0x4000⟩ cs = .ok e ∧
        Effect.run Machine.watch e.state ([again, other].map .translate) = .ok f ∧
        Effect.run Machine.watch e.state ([other, again].map .translate) = .ok g ∧
        f.answer.map (·.1.address?) = [some ⟨0x5abc⟩, some ⟨0x6abc⟩] ∧
        g.answer.map (·.1.address?) = [some ⟨0x6abc⟩, some ⟨0x7abc⟩] := by
  intro again other cs
  have hrun : ((do
      let m ← Mmu.new 1 1
      let e ← Effect.run Machine.watch ⟨m, .new ⟨0⟩ 0x4000⟩ cs
      let f ← Effect.run Machine.watch e.state ([again, other].map .translate)
      let g ← Effect.run Machine.watch e.state ([other, again].map .translate)
      return (f.answer, g.answer) : Except Violation (List _ × List _)).map
        fun s => (s.1.map (·.1.address?), s.2.map (·.1.address?))).toOption =
      some ([some ⟨0x5abc⟩, some ⟨0x6abc⟩], [some ⟨0x6abc⟩, some ⟨0x7abc⟩]) := by
    decide +kernel
  obtain ⟨answers, hbind, haddresses⟩ := eq_ok_of_toOption hrun
  obtain ⟨m, hm, hbind⟩ := bind_eq_ok.mp hbind
  obtain ⟨e, he, hbind⟩ := bind_eq_ok.mp hbind
  obtain ⟨f, hf, hbind⟩ := bind_eq_ok.mp hbind
  obtain ⟨g, hg, hbind⟩ := bind_eq_ok.mp hbind
  obtain rfl := Except.ok.inj hbind
  obtain ⟨forward, backward⟩ := Prod.mk.inj haddresses
  exact ⟨.swap other again [], by decide, by decide, m, e, f, g, hm, he, hf, hg, forward, backward⟩

end Sv32
