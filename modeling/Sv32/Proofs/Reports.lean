import Sv32.Proofs.Calls

/-! # The log agrees with the counters

The reports of a run are shown as messages with fields. Each call reports what its answer and the counters
say, and over a run the messages of each kind are as many as the counter for it has grown. -/
namespace Sv32

namespace Event

/-- How often a message was reported. -/
def told (events : List Event) (message : String) : Nat :=
  events.countP (·.message == message)

def toldOf (side : Side) (events : List Event) (message : String) : Nat :=
  events.countP fun e => e.message == message && e.fields.contains ("kind", side.name)

variable {events : List Event} {message : String} {side : Side}

@[simp] theorem told_nil : told [] message = 0 := rfl

@[simp] theorem toldOf_nil : toldOf side [] message = 0 := rfl

theorem told_append (more : List Event) :
    told (events ++ more) message = told events message + told more message :=
  List.countP_append

theorem toldOf_append (more : List Event) :
    toldOf side (events ++ more) message = toldOf side events message + toldOf side more message :=
  List.countP_append

theorem told_eq_zero (h : ∀ e ∈ events, e.message ≠ message) : told events message = 0 := by
  rw [told, List.countP_eq_zero]
  intro e he hm
  exact h e he (beq_iff_eq.mp hm)

theorem toldOf_eq_zero (h : ∀ e ∈ events, e.message ≠ message) : toldOf side events message = 0 := by
  rw [toldOf, List.countP_eq_zero]
  intro e he hm
  exact h e he (beq_iff_eq.mp (Bool.and_eq_true_iff.mp hm).1)

theorem toldOf_refill (other : Side) (v : VirtAddr) (l : Leaf) (r : Refill) :
    toldOf other [Tlb.refillEvent side v l r] message =
      if other = side ∧ (Tlb.refillEvent side v l r).message = message then 1 else 0 := by
  have hside : (Tlb.refillEvent side v l r).fields.contains ("kind", other.name) = (other == side) := by
    cases r <;> cases side <;> cases other <;>
      simp [Tlb.refillEvent, fields, refillFields, Side.name]
  simp only [toldOf, List.countP_singleton, hside, Bool.and_eq_true, beq_iff_eq]
  exact if_congr and_comm rfl rfl

end Event

open Event (told toldOf)

/-- The counters of a side have grown by as much as was reported for it. -/
structure Counters.GrownBy (c : Counters) (side : Side) (events : List Event) (c' : Counters) : Prop where
  refills : c'.refills = c.refills + toldOf side events "tlb refill" +
    toldOf side events "tlb entry replaced" + toldOf side events "tlb refill evicted oldest entry"
  replacements : c'.replacements = c.replacements + toldOf side events "tlb entry replaced"
  evictions : c'.evictions = c.evictions + toldOf side events "tlb refill evicted oldest entry"
  flushes : c'.flushes = c.flushes + told events "tlb flush"

namespace Counters.GrownBy

variable {c c' c'' : Counters} {side : Side} {events more : List Event}

theorem nil : c.GrownBy side [] c := ⟨rfl, rfl, rfl, rfl⟩

theorem trans (h : c.GrownBy side events c') (h' : c'.GrownBy side more c'') :
    c.GrownBy side (events ++ more) c'' := by
  obtain ⟨hr, hp, he, hf⟩ := h
  obtain ⟨hr', hp', he', hf'⟩ := h'
  constructor <;> simp only [Event.told_append, Event.toldOf_append] <;> omega

theorem other (h : ∀ e ∈ events, e.message ∉ ["tlb refill", "tlb entry replaced",
    "tlb refill evicted oldest entry", "tlb flush"]) : c.GrownBy side events c := by
  have differs : ∀ message ∈ ["tlb refill", "tlb entry replaced", "tlb refill evicted oldest entry",
      "tlb flush"], ∀ e ∈ events, e.message ≠ message := by
    rintro message hm e he rfl
    exact h e he hm
  constructor
  · rw [Event.toldOf_eq_zero (differs _ (by simp)), Event.toldOf_eq_zero (differs _ (by simp)),
      Event.toldOf_eq_zero (differs _ (by simp))]
    rfl
  · rw [Event.toldOf_eq_zero (differs _ (by simp)), Nat.add_zero]
  · rw [Event.toldOf_eq_zero (differs _ (by simp)), Nat.add_zero]
  · rw [Event.told_eq_zero (differs _ (by simp)), Nat.add_zero]

theorem lookup (hit : Bool) : c.GrownBy side [] (c.countLookup hit) := by
  constructor <;> simp

theorem refill (v : VirtAddr) (l : Leaf) (r : Refill) :
    c.GrownBy side [Tlb.refillEvent side v l r] (c.countRefill r) := by
  cases r <;> constructor <;>
    simp [↓Event.toldOf_refill, told, countRefill, Tlb.refillEvent, Event.message]

theorem elsewhere {other : Side} (hne : other ≠ side) (v : VirtAddr) (l : Leaf) (r : Refill) :
    c.GrownBy other [Tlb.refillEvent side v l r] c := by
  cases r <;> constructor <;> simp [↓Event.toldOf_refill, told, Tlb.refillEvent, Event.message, hne]

theorem flush (f : Fence) (i d : Nat) :
    c.GrownBy side [.cacheFlushed f i, .cacheFlushed f d, .flushed f i d] c.countFlush := by
  constructor <;> simp [countFlush, told, toldOf, Event.message]

end Counters.GrownBy

namespace Mmu

/-- All counters have grown by as much as was reported, and what different parts report of one event is
reported equally often. -/
structure GrownBy (m : Mmu) (events : List Event) (m' : Mmu) : Prop where
  sides : ∀ side, (m.tlb.bank side).counters.GrownBy side events (m'.tlb.bank side).counters
  faults : m'.faults = m.faults + told events "translation fault"
  walker : told events "page fault" + told events "access fault on pte" = told events "translation fault"
  caches : told events "translation set flushed" = 2 * told events "tlb flush"

theorem GrownBy.trans {m m' m'' : Mmu} {events more : List Event} (h : m.GrownBy events m')
    (h' : m'.GrownBy more m'') : m.GrownBy (events ++ more) m'' := by
  have hf := h.faults
  have hf' := h'.faults
  have hw := h.walker
  have hw' := h'.walker
  have hc := h.caches
  have hc' := h'.caches
  refine ⟨fun side => (h.sides side).trans (h'.sides side), ?_, ?_, ?_⟩ <;>
    simp only [Event.told_append] <;> omega

section

variable {m m' : Mmu}

theorem grownBy_nil (tlb : m'.tlb = m.tlb) (faults : m'.faults = m.faults) : m.GrownBy [] m' := by
  refine ⟨?_, faults, rfl, rfl⟩
  intro side
  rw [tlb]
  exact .nil

theorem grownBy_lookup {side : Side} {q : Request} (tlb : m'.tlb = (m.tlb.lookup side q).2)
    (faults : m'.faults = m.faults) : m.GrownBy [] m' := by
  refine ⟨?_, faults, rfl, rfl⟩
  intro other
  rw [tlb, m.tlb.counters_lookup]
  split
  · exact .lookup _
  · exact .nil

theorem grownBy_refill {side : Side} {v : VirtAddr} {l : Leaf} {e : Effect Tlb Refill}
    (h : m.tlb.refill side v l = .ok e) (tlb : m'.tlb = e.state) (faults : m'.faults = m.faults) :
    m.GrownBy e.events m' := by
  rw [Tlb.events_refill h]
  have quiet : ∀ message ∈ ["translation fault", "page fault", "access fault on pte",
      "translation set flushed", "tlb flush"],
      told [Tlb.refillEvent side v l e.answer] message = 0 := by
    cases e.answer <;> simp [told, Tlb.refillEvent, Event.message]
  refine ⟨?_, ?_, ?_, ?_⟩
  · intro other
    rw [tlb, Tlb.counters_refill h]
    split
    · rename_i hside
      rw [hside]
      exact .refill v l e.answer
    · rename_i hside
      exact .elsewhere hside v l e.answer
  · rw [quiet _ (by simp), faults]
    rfl
  · rw [quiet _ (by simp), quiet _ (by simp), quiet _ (by simp)]
  · rw [quiet _ (by simp), quiet _ (by simp)]

theorem grownBy_flush {f : Fence} {first : List Event} (tlb : m'.tlb = (m.tlb.flush f).state)
    (faults : m'.faults = m.faults)
    (hfirst : ∀ e ∈ first, e.message = "satp write" ∨ e.message = "privilege change") :
    m.GrownBy (first ++ (m.tlb.flush f).events) m' := by
  have uncounted : ∀ message, message ≠ "satp write" → message ≠ "privilege change" →
      told first message = 0 := by
    intro message hs hp
    apply Event.told_eq_zero
    rintro e he rfl
    exact (hfirst e he).elim hs hp
  have before : m.GrownBy first m := by
    refine ⟨?_, ?_, ?_, ?_⟩
    · intro side
      apply Counters.GrownBy.other
      intro e he
      rcases hfirst e he with h | h <;> simp [h]
    · rw [uncounted _ (by simp) (by simp)]
      rfl
    · rw [uncounted _ (by simp) (by simp), uncounted _ (by simp) (by simp),
        uncounted _ (by simp) (by simp)]
    · rw [uncounted _ (by simp) (by simp), uncounted _ (by simp) (by simp)]
  rw [Tlb.events_flush]
  refine before.trans ⟨?_, faults, rfl, rfl⟩
  intro side
  rw [tlb, Tlb.counters_flush]
  exact .flush f _ _

theorem grownBy_fault {q : Request} {f : Fault} (tlb : m'.tlb = m.tlb) (faults : m'.faults = m.faults + 1) :
    m.GrownBy [.walkFailed q f, .trapRaised q.access.side (f.trap q)] m' := by
  refine ⟨?_, ?_, ?_, ?_⟩
  · intro side
    rw [tlb]
    apply Counters.GrownBy.other
    cases f <;> simp [Event.message]
  · rw [faults]
    cases f <;> rfl
  · cases f <;> rfl
  · cases f <;> rfl

end

def Op.fence? (satp : Satp) : Op → Option Fence
  | .fence f | .tlb (.flush f) => some f
  | .writeSatp raw =>
    if (⟨raw⟩ : Satp) = satp then none else some ⟨some ((Satp.mk raw).asid.setWidth 16), none⟩
  | .changePrivilege old new => if new = old then none else some .all
  | _ => none

def Op.mayCache : Op → Bool
  | .translate _ | .tlb (.refill ..) => true
  | _ => false

def Op.announced : Op → List String
  | .writeSatp _ => ["satp write"]
  | .changePrivilege .. => ["privilege change"]
  | _ => []

def walkerMessage : FaultKind → String
  | .page => "page fault"
  | .access => "access fault on pte"

/-- The last three events of a flush with the operands `f`, before which the sides had `i` and `d` valid
entries. -/
def flushShown (f : Fence) (i d : Nat) : List (String × List (String × String)) :=
  let operands := [("asid", f.asidText), ("vaddr", f.vaddrText)]
  [("translation set flushed", operands ++ [("invalidated", Nat.repr i)]),
    ("translation set flushed", operands ++ [("invalidated", Nat.repr d)]),
    ("tlb flush", operands ++ [("itlb", Nat.repr i), ("dtlb", Nat.repr d)])]

def RefillTold (c c' : Counters) (message : String) : Prop :=
  c'.refills = c.refills + 1 ∧
    ((message = "tlb refill" ∧ c'.replacements = c.replacements ∧ c'.evictions = c.evictions) ∨
      (message = "tlb entry replaced" ∧ c'.replacements = c.replacements + 1 ∧
        c'.evictions = c.evictions) ∨
      (message = "tlb refill evicted oldest entry" ∧ c'.replacements = c.replacements ∧
        c'.evictions = c.evictions + 1))

/-- All that a call can report, with the answer and the state that it leaves. -/
inductive Reports (m : Mmu) : Op → Effect Mmu Answer → Prop where
  | failed {q : Request} {t : Trap} {m' : Mmu} {walker unit : Event}
      (walker_message : walker.message = walkerMessage t.kind)
      (unit_message : unit.message = "translation fault")
      (unit_fields : unit.fields = [("kind", q.access.side.name), ("vaddr", t.addr.text),
        ("cause", Nat.repr t.cause)]) :
      Reports m (.translate q) ⟨.translated (.error t), m', [walker, unit]⟩
  | walked {q : Request} {x : PhysAddr} {m' : Mmu} {refill : Event} (walks : m'.walks = m.walks + 1)
      (told : RefillTold (m.tlb.bank q.access.side).counters (m'.tlb.bank q.access.side).counters
        refill.message) :
      Reports m (.translate q) ⟨.translated (.ok x), m', [refill]⟩
  | served {q : Request} {x : PhysAddr} {m' : Mmu} (walks : m'.walks = m.walks) :
      Reports m (.translate q) ⟨.translated (.ok x), m', []⟩
  | refilled {side : Side} {v : VirtAddr} {l : Leaf} {a : Answer} {m' : Mmu} {refill : Event}
      (told : RefillTold (m.tlb.bank side).counters (m'.tlb.bank side).counters refill.message) :
      Reports m (.tlb (.refill side v l)) ⟨a, m', [refill]⟩
  | flushed {op : Op} {f : Fence} {a : Answer} {m' : Mmu} {first rest : List Event}
      (operands : op.fence? m.registers.satp = some f)
      (announced : first.map (·.message) = op.announced)
      (shown : rest.map (fun e => (e.message, e.fields)) =
        flushShown f m.tlb.instruction.cache.validSize m.tlb.data.cache.validSize) :
      Reports m op ⟨a, m', first ++ rest⟩
  | quiet {op : Op} {a : Answer} {m' : Mmu} (unflushed : op.fence? m.registers.satp = none)
      (uncached : op.mayCache = false) : Reports m op ⟨a, m', []⟩

theorem refillTold_of_refill {t : Tlb} {side : Side} {v : VirtAddr} {l : Leaf} {e : Effect Tlb Refill}
    (h : t.refill side v l = .ok e) :
    ∃ refill, e.events = [refill] ∧
      RefillTold (t.bank side).counters (e.state.bank side).counters refill.message := by
  refine ⟨_, Tlb.events_refill h, ?_⟩
  rw [Tlb.counters_refill h, if_pos rfl]
  cases e.answer <;> simp [RefillTold, Counters.countRefill, Tlb.refillEvent, Event.message]

theorem RefillTold.of_lookup {t : Tlb} {side : Side} {q : Request} {c : Counters} {message : String}
    (h : RefillTold ((t.lookup side q).2.bank side).counters c message) :
    RefillTold (t.bank side).counters c message := by
  rw [Tlb.counters_lookup, if_pos rfl] at h
  simpa only [RefillTold, Counters.refills_countLookup, Counters.replacements_countLookup,
    Counters.evictions_countLookup] using h

variable {μ : Type} [WordMemory μ]

theorem Translates.reports {m : Mmu} {q : Request} {mem : μ}
    {e : Effect (Mmu × μ) (Except Trap PhysAddr)} (h : m.Translates q mem e) :
    m.Reports (.translate q) ⟨.translated e.answer, e.state.1, e.events⟩ ∧
      m.GrownBy e.events e.state.1 := by
  cases h with
  | bypassed => exact ⟨.served rfl, grownBy_nil rfl rfl⟩
  | hit => exact ⟨.served rfl, grownBy_lookup rfl rfl⟩
  | walked _ _ _ refilled =>
    have looked : m.GrownBy [] { m with tlb := (m.tlb.lookup q.access.side q).2 } :=
      grownBy_lookup rfl rfl
    refine ⟨?_, looked.trans (grownBy_refill refilled rfl rfl)⟩
    obtain ⟨refill, hevents, htold⟩ := refillTold_of_refill refilled
    simp only [hevents]
    exact .walked rfl htold.of_lookup
  | @failed f =>
    have looked : m.GrownBy [] { m with tlb := (m.tlb.lookup q.access.side q).2 } :=
      grownBy_lookup rfl rfl
    refine ⟨.failed ?_ rfl rfl, looked.trans (grownBy_fault rfl rfl)⟩
    cases f <;> rfl

theorem flush_reports {m : Mmu} {op : Op} {f : Fence} (r : Registers) (a : Answer) (first : List Event)
    (operands : op.fence? m.registers.satp = some f)
    (announced : first.map (·.message) = op.announced) :
    m.Reports op
        ⟨a, { m with tlb := (m.tlb.flush f).state, registers := r }, first ++ (m.tlb.flush f).events⟩ ∧
      (op ≠ .tlb .resetCounters →
        m.GrownBy (first ++ (m.tlb.flush f).events)
          { m with tlb := (m.tlb.flush f).state, registers := r }) := by
  refine ⟨.flushed operands announced rfl, fun _ => grownBy_flush rfl rfl ?_⟩
  intro e he
  have hmem : e.message ∈ op.announced := announced ▸ List.mem_map_of_mem he
  cases op <;> simp_all [Op.announced]

theorem call_reports (m : Mmu) {c : Call μ}
    (aligned : ∀ side v l, c.op = .tlb (.refill side v l) → l.isAligned = true) :
    ∃ e, m.call c = .ok e ∧ m.Reports c.op e ∧
      (c.op ≠ .tlb .resetCounters → m.GrownBy e.events e.state) := by
  obtain ⟨op, mem⟩ := c
  cases op with
  | translate q =>
    obtain ⟨e, he, ht⟩ := m.translate_eq_ok q mem
    refine ⟨⟨.translated e.answer, e.state.1, e.events⟩, ?_, ht.reports.1, fun _ => ht.reports.2⟩
    simp only [call, step, he]
    rfl
  | writeSatp raw =>
    refine ⟨_, rfl, ?_⟩
    by_cases hsame : (⟨raw⟩ : Satp) = m.registers.satp
    · simp only [writeSatp, hsame, ↓reduceIte]
      exact ⟨.quiet (if_pos hsame) rfl, fun _ => grownBy_nil rfl rfl⟩
    · simp only [writeSatp, hsame, ↓reduceIte]
      exact flush_reports { m.registers with satp := ⟨raw⟩ } (.satp ⟨raw⟩)
        [.satpWritten m.registers.satp ⟨raw⟩] (if_neg hsame) rfl
  | changePrivilege old new =>
    refine ⟨_, rfl, ?_⟩
    by_cases hsame : new = old
    · simp only [changePrivilege, hsame, ↓reduceIte]
      exact ⟨.quiet (if_pos rfl) rfl, fun _ => grownBy_nil rfl rfl⟩
    · simp only [changePrivilege, hsame, ↓reduceIte]
      exact flush_reports m.registers .done [.privilegeChanged old new] (if_neg hsame) rfl
  | fence f => exact ⟨_, rfl, flush_reports m.registers .done [] rfl rfl⟩
  | writeSstatus raw => exact ⟨_, rfl, .quiet rfl rfl, fun _ => grownBy_nil rfl rfl⟩
  | stats => exact ⟨_, rfl, .quiet rfl rfl, fun _ => grownBy_nil rfl rfl⟩
  | tlb op =>
    cases op with
    | lookup side q => exact ⟨_, rfl, .quiet rfl rfl, fun _ => grownBy_lookup rfl rfl⟩
    | peek | counters => exact ⟨_, rfl, .quiet rfl rfl, fun _ => grownBy_nil rfl rfl⟩
    | refill side v l =>
      obtain ⟨e, he, -⟩ := m.tlb.refill_of_isAligned side v (aligned side v l rfl)
      refine ⟨⟨.tlb .done, { m with tlb := e.state }, e.events⟩, ?_, ?_, fun _ => grownBy_refill he rfl rfl⟩
      · simp only [call, step, Tlb.step, he, bind, Except.bind, pure, Except.pure, Except.map]
      · obtain ⟨refill, hevents, htold⟩ := refillTold_of_refill he
        rw [hevents]
        exact .refilled htold
    | flush f => exact ⟨_, rfl, flush_reports m.registers (.tlb .done) [] rfl rfl⟩
    | resetCounters => exact ⟨_, rfl, .quiet rfl rfl, fun h => absurd rfl h⟩

theorem run_grownBy {m : Mmu} {calls : List (Call μ)} {e : Effect Mmu (List Answer)}
    (aligned : ∀ c ∈ calls, ∀ side v l, c.op = .tlb (.refill side v l) → l.isAligned = true)
    (unreset : ∀ c ∈ calls, c.op ≠ .tlb .resetCounters) (h : Effect.run call m calls = .ok e) :
    m.GrownBy e.events e.state := by
  induction calls generalizing m e with
  | nil =>
    cases h
    exact grownBy_nil rfl rfl
  | cons c calls ih =>
    obtain ⟨first, rest, hfirst, hrest, rfl⟩ := Effect.run_cons_eq_ok.mp h
    obtain ⟨e, he, -, hgrown⟩ := m.call_reports (aligned c List.mem_cons_self)
    obtain rfl := Except.ok.inj (he.symm.trans hfirst)
    have later := ih (fun c hc => aligned c (List.mem_cons_of_mem _ hc))
      (fun c hc => unreset c (List.mem_cons_of_mem _ hc)) hrest
    exact (hgrown (unreset c List.mem_cons_self)).trans later

end Mmu

/-- From any state, under any calls that refill the buffer with aligned pages if they reach for it at all,
with any memories: each call reports what its answer and the counters say, and over a run without a reset
the counters grow by the number of these messages. -/
theorem log_agrees_with_counters {μ : Type} [WordMemory μ] (m : Mmu) (calls : List (Call μ))
    (aligned : ∀ c ∈ calls, ∀ side v l, c.op = .tlb (.refill side v l) → l.isAligned = true) :
    ∃ e, Effect.run Mmu.call m calls = .ok e ∧
      (∀ before c after, calls = before ++ c :: after →
        ∃ front one back, Effect.run Mmu.call m before = .ok front ∧ front.state.call c = .ok one ∧
          Effect.run Mmu.call one.state after = .ok back ∧
          e = ⟨front.answer ++ one.answer :: back.answer, back.state,
            front.events ++ (one.events ++ back.events)⟩ ∧
          front.state.Reports c.op one) ∧
      ((∀ c ∈ calls, c.op ≠ .tlb .resetCounters) → m.GrownBy e.events e.state) := by
  obtain ⟨e, he⟩ : ∃ e, Effect.run Mmu.call m calls = .ok e := by
    refine Effect.run_eq_ok ?_ m
    intro m c hc
    obtain ⟨e, he, -⟩ := m.call_reports (aligned c hc)
    exact ⟨e, he⟩
  refine ⟨e, he, ?_, fun unreset => Mmu.run_grownBy aligned unreset he⟩
  rintro before c after rfl
  obtain ⟨front, one, back, hfront, hone, hback, hsplit⟩ := Effect.run_split he
  obtain ⟨e', he', hreports, -⟩ := front.state.call_reports (aligned c (by simp))
  obtain rfl := Except.ok.inj (he'.symm.trans hone)
  exact ⟨front, e', back, hfront, hone, hback, hsplit, hreports⟩

theorem log_agrees_with_counters_past_an_eviction :
    let ram := ((Ram.new ⟨0⟩ 0x4000).setBytes 0x1004 (Word.littleEndian 0x801)).setBytes 0x2004
      (Word.littleEndian 0x1407)
    let later := ram.setBytes 0x2008 (Word.littleEndian 0x1803)
    let calls : List (Call Ram) := [
      ⟨.writeSatp 0x80000001, ram⟩, ⟨.translate ⟨⟨0x00402abc⟩, .read, .supervisor⟩, ram⟩,
      ⟨.translate ⟨⟨0x00401abc⟩, .read, .supervisor⟩, ram⟩,
      ⟨.translate ⟨⟨0x00401abc⟩, .write, .supervisor⟩, ram⟩,
      ⟨.translate ⟨⟨0x00401abc⟩, .read, .supervisor⟩, ram⟩,
      ⟨.translate ⟨⟨0x00402abc⟩, .read, .supervisor⟩, later⟩, ⟨.fence ⟨some 7, none⟩, later⟩,
      ⟨.tlb (.refill .instruction ⟨0x1000⟩ ⟨⟨0xa000⟩, ⟨true, false, true, false⟩, .base⟩), later⟩]
    (∀ c ∈ calls, ∀ side v l, c.op = .tlb (.refill side v l) → l.isAligned = true) ∧
      (∀ c ∈ calls, c.op ≠ .tlb .resetCounters) ∧
      ∃ m e, Mmu.new 1 1 = .ok m ∧ Effect.run Mmu.call m calls = .ok e ∧
        e.events.map (·.message) =
          ["satp write", "translation set flushed", "translation set flushed", "tlb flush", "page fault",
            "translation fault", "tlb refill", "tlb entry replaced", "tlb refill evicted oldest entry",
            "translation set flushed", "translation set flushed", "tlb flush", "tlb refill"] ∧
        m.GrownBy e.events e.state := by
  intro ram later calls
  have aligned : ∀ c ∈ calls, ∀ side v l, c.op = .tlb (.refill side v l) → l.isAligned = true := by
    intro c hc side v l h
    simp only [calls, List.mem_cons, List.not_mem_nil, or_false] at hc
    rcases hc with rfl | rfl | rfl | rfl | rfl | rfl | rfl | rfl <;> cases h
    decide
  have unreset : ∀ c ∈ calls, c.op ≠ .tlb .resetCounters := by
    intro c hc h
    simp only [calls, List.mem_cons, List.not_mem_nil, or_false] at hc
    rcases hc with rfl | rfl | rfl | rfl | rfl | rfl | rfl | rfl <;> cases h
  have hrun : ((Mmu.new 1 1).bind fun m =>
      (Effect.run Mmu.call m calls).map fun e => e.events.map (·.message)).toOption =
      some ["satp write", "translation set flushed", "translation set flushed", "tlb flush",
        "page fault", "translation fault", "tlb refill", "tlb entry replaced",
        "tlb refill evicted oldest entry", "translation set flushed", "translation set flushed",
        "tlb flush", "tlb refill"] := by
    decide +kernel
  cases hm : Mmu.new 1 1 with
  | error =>
    rw [hm] at hrun
    cases hrun
  | ok m =>
    obtain ⟨e, he, -, hgrown⟩ := log_agrees_with_counters m calls aligned
    simp only [hm, Except.bind, he, Except.map, Except.toOption, Option.some.injEq] at hrun
    exact ⟨aligned, unreset, m, e, rfl, he, hrun, hgrown unreset⟩

end Sv32
