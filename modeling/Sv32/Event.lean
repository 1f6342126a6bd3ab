import Sv32.Tlb.Entry

/-! # Events

Every operation reports what it did as a list of events, in the order in which they happened. An
event is shown as a severity, a message and named fields. -/
namespace Sv32

inductive Event where
  | cacheFlushed (fence : Fence) (invalidated : Nat)
  | refilled (side : Side) (vaddr : VirtAddr) (leaf : Leaf)
  | replaced (side : Side) (vaddr : VirtAddr) (leaf : Leaf)
  | evicted (side : Side) (vaddr : VirtAddr) (leaf : Leaf) (victim : Entry)
  | flushed (fence : Fence) (instruction data : Nat)
  | walkFailed (request : Request) (fault : Fault)
  | trapRaised (side : Side) (trap : Trap)
  | satpWritten (old new : Satp)
  | privilegeChanged (old new : Privilege)
  | mmuShutDown (walks faults : Nat)
  | tlbDeleted (instruction data : Nat)
  deriving DecidableEq, Repr

inductive Severity where
  | debug
  | trace
  deriving DecidableEq, Repr

def Severity.name : Severity → String
  | debug => "DEBUG"
  | trace => "TRACE"

namespace Fence

def asidText (f : Fence) : String :=
  match f.asid with
  | none => "None"
  | some a => "Some(" ++ Nat.repr a.toNat ++ ")"

def vaddrText (f : Fence) : String :=
  match f.vaddr with
  | none => "None"
  | some v => "Some(VirtAddr(" ++ Nat.repr v.val.toNat ++ "))"

end Fence

namespace Event

def severity : Event → Severity
  | cacheFlushed .. | refilled .. | replaced .. | evicted .. => .trace
  | _ => .debug

def message : Event → String
  | cacheFlushed .. => "translation set flushed"
  | refilled .. => "tlb refill"
  | replaced .. => "tlb entry replaced"
  | evicted .. => "tlb refill evicted oldest entry"
  | flushed .. => "tlb flush"
  | walkFailed _ (.refused _) => "page fault"
  | walkFailed _ (.unreachable _) => "access fault on pte"
  | trapRaised .. => "translation fault"
  | satpWritten .. => "satp write"
  | privilegeChanged .. => "privilege change"
  | mmuShutDown .. => "mmu shutdown"
  | tlbDeleted .. => "tlb deleted"

def refillFields (side : Side) (vaddr : VirtAddr) (leaf : Leaf) : List (String × String) :=
  [("kind", side.name), ("vaddr", vaddr.text), ("ppn", leaf.ppn.text), ("level", leaf.level.name)]

def fields : Event → List (String × String)
  | cacheFlushed f n => [("asid", f.asidText), ("vaddr", f.vaddrText), ("invalidated", Nat.repr n)]
  | refilled s v l | replaced s v l => refillFields s v l ++ [("rights", l.rights.text)]
  | evicted s v l victim =>
    refillFields s v l ++
      [("victim_vpn", Word.text victim.vpn), ("victim_level", victim.leaf.level.name)]
  | flushed f i d =>
    [("asid", f.asidText), ("vaddr", f.vaddrText), ("itlb", Nat.repr i), ("dtlb", Nat.repr d)]
  | walkFailed q (.refused why) =>
    [("vaddr", q.vaddr.text), ("access", q.access.name), ("privilege", q.privilege.name),
      ("reason", why.text)]
  | walkFailed q (.unreachable pte) =>
    [("vaddr", q.vaddr.text), ("pte_addr", pte.text), ("access", q.access.name)]
  | trapRaised s t =>
    [("kind", s.name), ("vaddr", t.addr.text), ("cause", Nat.repr t.cause)]
  | satpWritten old new =>
    [("old", Word.text old.raw), ("new", Word.text new.raw), ("mode", new.mode.name),
      ("asid", Nat.repr new.asid.toNat)]
  | privilegeChanged old new => [("from", old.name), ("to", new.name)]
  | mmuShutDown walks faults => [("walks", Nat.repr walks), ("faults", Nat.repr faults)]
  | tlbDeleted i d => [("itlb_resident", Nat.repr i), ("dtlb_resident", Nat.repr d)]

end Event

/-- What an operation gives back: its answer, the state that it leaves, and what it reported. -/
structure Effect (σ α : Type) where
  answer : α
  state : σ
  events : List Event

namespace Effect

variable {σ α ω : Type}

def run (step : σ → ω → Except Violation (Effect σ α)) (s : σ) :
    List ω → Except Violation (Effect σ (List α))
  | [] => .ok ⟨[], s, []⟩
  | op :: ops => do
    let first ← step s op
    let rest ← run step first.state ops
    return ⟨first.answer :: rest.answer, rest.state, first.events ++ rest.events⟩

@[simp] theorem run_nil (step : σ → ω → Except Violation (Effect σ α)) (s : σ) :
    run step s [] = .ok ⟨[], s, []⟩ := rfl

theorem run_append (step : σ → ω → Except Violation (Effect σ α)) (s : σ) (ops more : List ω) :
    run step s (ops ++ more) = do
      let front ← run step s ops
      let back ← run step front.state more
      return ⟨front.answer ++ back.answer, back.state, front.events ++ back.events⟩ := by
  induction ops generalizing s with
  | nil =>
    simp only [List.nil_append, run, bind, Except.bind, pure, Except.pure]
    cases run step s more <;> rfl
  | cons op ops ih =>
    simp only [List.cons_append, run, ih, bind, Except.bind, pure, Except.pure]
    cases step s op with
    | error => rfl
    | ok first =>
      cases hf : run step first.state ops with
      | error => simp only [hf]
      | ok front => cases hb : run step front.state more <;> simp [hf, hb]

theorem run_cons_eq_ok {step : σ → ω → Except Violation (Effect σ α)} {s : σ} {op : ω} {ops : List ω}
    {e : Effect σ (List α)} : run step s (op :: ops) = .ok e ↔
      ∃ first rest, step s op = .ok first ∧ run step first.state ops = .ok rest ∧
        e = ⟨first.answer :: rest.answer, rest.state, first.events ++ rest.events⟩ := by
  simp only [run, bind_eq_ok, pure, Except.pure, Except.ok.injEq]
  constructor
  · rintro ⟨first, hf, rest, hr, rfl⟩
    exact ⟨first, rest, hf, hr, rfl⟩
  · rintro ⟨first, rest, hf, hr, rfl⟩
    exact ⟨first, hf, rest, hr, rfl⟩

theorem run_split {step : σ → ω → Except Violation (Effect σ α)} {s : σ} {before after : List ω} {op : ω}
    {e : Effect σ (List α)} (h : run step s (before ++ op :: after) = .ok e) :
    ∃ front one back, run step s before = .ok front ∧ step front.state op = .ok one ∧
      run step one.state after = .ok back ∧
      e = ⟨front.answer ++ one.answer :: back.answer, back.state,
        front.events ++ (one.events ++ back.events)⟩ := by
  rw [run_append] at h
  obtain ⟨front, hfront, h⟩ := bind_eq_ok.mp h
  obtain ⟨rest, hrest, h⟩ := bind_eq_ok.mp h
  obtain ⟨one, back, hone, hback, rfl⟩ := run_cons_eq_ok.mp hrest
  exact ⟨front, one, back, hfront, hone, hback, (Except.ok.inj h).symm⟩

theorem run_eq_ok {step : σ → ω → Except Violation (Effect σ α)} {ops : List ω}
    (total : ∀ s, ∀ op ∈ ops, ∃ e, step s op = .ok e) (s : σ) : ∃ e, run step s ops = .ok e := by
  induction ops generalizing s with
  | nil => exact ⟨_, rfl⟩
  | cons op ops ih =>
    obtain ⟨first, hf⟩ := total s op List.mem_cons_self
    obtain ⟨rest, hr⟩ := ih (fun s op hop => total s op (List.mem_cons_of_mem _ hop)) first.state
    exact ⟨_, run_cons_eq_ok.mpr ⟨first, rest, hf, hr, rfl⟩⟩

theorem length_answer {step : σ → ω → Except Violation (Effect σ α)} {s : σ} {ops : List ω}
    {e : Effect σ (List α)} (h : run step s ops = .ok e) : e.answer.length = ops.length := by
  induction ops generalizing s e with
  | nil =>
    cases h
    rfl
  | cons op ops ih =>
    obtain ⟨first, rest, -, hr, rfl⟩ := run_cons_eq_ok.mp h
    rw [List.length_cons, List.length_cons, ih hr]

/-- What every step preserves a run preserves. -/
theorem run_invariant {step : σ → ω → Except Violation (Effect σ α)} {P : σ → Prop}
    (preserved : ∀ s op e, P s → step s op = .ok e → P e.state) {s : σ} {ops : List ω}
    {e : Effect σ (List α)} (hs : P s) (h : run step s ops = .ok e) : P e.state := by
  induction ops generalizing s e with
  | nil =>
    cases h
    exact hs
  | cons op ops ih =>
    obtain ⟨first, rest, hf, hr, rfl⟩ := run_cons_eq_ok.mp h
    have hp := ih (preserved s op first hs hf) hr
    exact hp

/-- Operations that never end; a finite run is the beginning of many. -/
structure History (step : σ → ω → Except Violation (Effect σ α)) (s : σ) (op : Nat → ω) where
  state : Nat → σ
  answer : Nat → α
  start : state 0 = s
  next : ∀ k, ∃ events, step (state k) (op k) = .ok ⟨answer k, state (k + 1), events⟩

theorem History.nonempty {step : σ → ω → Except Violation (Effect σ α)} {op : Nat → ω}
    {P : Nat → σ → Prop} (total : ∀ k s, P k s → ∃ e, step s (op k) = .ok e ∧ P (k + 1) e.state)
    {s : σ} (hs : P 0 s) : Nonempty (History step s op) := by
  let effect k (s : { s // P k s }) := Classical.choose (total k s.1 s.2)
  have succeeds k s : step s.1 (op k) = .ok (effect k s) ∧ P (k + 1) (effect k s).state :=
    Classical.choose_spec (total k s.1 s.2)
  let state : (k : Nat) → { s // P k s } :=
    Nat.rec ⟨s, hs⟩ fun k s => ⟨(effect k s).state, (succeeds k s).2⟩
  exact ⟨fun k => (state k).1, fun k => (effect k (state k)).answer, rfl,
    fun k => ⟨_, (succeeds k (state k)).1⟩⟩

theorem endless {step : σ → ω → Except Violation (Effect σ α)} {op : Nat → ω}
    (total : ∀ k s, ∃ e, step s (op k) = .ok e) (s : σ) :
    ∃ (state : Nat → σ) (answer : Nat → α), state 0 = s ∧
      ∀ k, ∃ events, step (state k) (op k) = .ok ⟨answer k, state (k + 1), events⟩ := by
  obtain ⟨ρ⟩ : Nonempty (History step s op) := by
    refine History.nonempty (P := fun _ _ => True) ?_ trivial
    intro k s _
    obtain ⟨e, he⟩ := total k s
    exact ⟨e, he, trivial⟩
  exact ⟨ρ.state, ρ.answer, ρ.start, ρ.next⟩

theorem run_range {step : σ → ω → Except Violation (Effect σ α)} {op : Nat → ω} {state : Nat → σ}
    {answer : Nat → α} (next : ∀ k, ∃ events, step (state k) (op k) = .ok ⟨answer k, state (k + 1), events⟩)
    (n : Nat) : ∃ events, run step (state 0) ((List.range n).map op) =
      .ok ⟨(List.range n).map answer, state n, events⟩ := by
  induction n with
  | zero => exact ⟨[], rfl⟩
  | succ n ih =>
    obtain ⟨events, hn⟩ := ih
    obtain ⟨last, hs⟩ := next n
    refine ⟨events ++ last, ?_⟩
    simp only [List.range_succ, List.map_append, List.map_cons, List.map_nil, run_append, hn, run, hs,
      bind, Except.bind, pure, Except.pure, List.append_nil]

end Effect

end Sv32
