import Mathlib.Logic.Relation
import StackCode.Proofs.Machine.History

/-!
# The life of a machine

A machine is given one task after the other, and its caller makes objects of its own at any time.
What each turn keeps of the machine is kept for life, whether tasks are answered or fail. So a text
that was loaded once has its object for ever, and an object that was none of a text never becomes one.
-/

namespace StackCode

/-! ## Turns -/

namespace Progress

def creating (content : Content) : Progress → Progress
  | running c => running { c with machine := (c.machine.allocate content).2 }
  | stopped m outcome => stopped (m.allocate content).2 outcome

theorem machine_creating (content : Content) (p : Progress) :
    (p.creating content).machine = (p.machine.allocate content).2 := by
  cases p <;> rfl

inductive Turn : Progress → Progress → Prop
  | step (c : Configuration) : Turn (.running c) c.step
  | task (m : Machine) (outcome : Outcome) (t : Machine.Task) : Turn (.stopped m outcome) (m.begin t)
  | create (content : Content) (p : Progress) : Turn p (p.creating content)

def Later : Progress → Progress → Prop := Relation.ReflTransGen Turn

theorem later_after (p : Progress) (n : Nat) : p.Later (p.after n) := by
  induction n generalizing p with
  | zero => exact .refl
  | succ n ih =>
    cases p with
    | running c => exact .head (.step c) (ih c.step)
    | stopped m outcome => exact .refl

end Progress

namespace Machine

variable {P : Machine → Prop} {m : Machine} {text : String} {n : Nat}

theorem Invariant.turn (hP : Invariant fun m _ => P m) {p q : Progress} (h : p.Turn q)
    (hp : P p.machine) : P q.machine := by
  cases h with
  | step c => exact Progress.keeps_machine.mp (hP.step (c := c) hp)
  | task m outcome t => exact Progress.keeps_machine.mp (hP.begin hp t)
  | create content p =>
    rw [Progress.machine_creating]
    exact hP.allocate p.machine 0 content hp

theorem Invariant.later (hP : Invariant fun m _ => P m) {p q : Progress} (h : p.Later q)
    (hp : P p.machine) : P q.machine := by
  induction h with
  | refl => exact hp
  | tail _ hturn ih => exact hP.turn hturn ih

theorem Invariant.born (hP : Invariant fun m _ => P m) {l : Loader} {options : ExecutionOptions}
    {supply : Nat} (h : P (initial l options supply)) {task : Task} {p : Progress}
    (hp : ((initial l options supply).begin task).Later p) : P p.machine :=
  hP.later hp (Progress.keeps_machine.mp (hP.begin h task))

theorem numbered_invariant : Invariant fun m _ => m.Numbered where
  enter := fun _ _ h _ => h.withDepth _
  leave := fun _ _ _ h => h.withDepth _
  allocate := fun _ _ content h => h.allocate content
  literal := fun _ _ text h => h.literal text

/-- A machine at some moment of its life. -/
def Lived (m : Machine) : Prop :=
  ∃ (l : Loader) (options : ExecutionOptions) (supply : Nat) (task : Task) (p : Progress),
    ((initial l options supply).begin task).Later p ∧ p.machine = m

theorem History.later {start : Machine} (h : start.History m) (t : Task) :
    ∃ task, (start.begin task).Later (m.begin t) := by
  induction h generalizing t with
  | fresh => exact ⟨t, .refl⟩
  | @answered m m' outcome task fuel _ hrun _ ih =>
    obtain ⟨first, hfirst⟩ := ih task
    have hstopped := Progress.later_after (m.begin task) fuel
    rw [Progress.run_eq_some.mp hrun] at hstopped
    exact ⟨first, (hfirst.trans hstopped).tail (.task m' outcome t)⟩

theorem History.lived {l : Loader} {options : ExecutionOptions} {supply : Nat}
    (h : (initial l options supply).History m) : m.Lived := by
  obtain ⟨task, hlater⟩ := h.later (.execute ⟨#[], #[], #[], [], [], 0, 0⟩ [])
  exact ⟨l, options, supply, task, _, hlater, rfl⟩

theorem Lived.numbered (h : m.Lived) : m.Numbered := by
  obtain ⟨l, options, supply, task, p, hp, rfl⟩ := h
  exact numbered_invariant.born (numbered_initial l options supply) hp

/-! ## Numbers of texts and of other objects -/

structure Remembers (text : String) (n : Nat) (m : Machine) : Prop where
  numbered : m.Numbered
  lookup : m.literals.lookup text = some n

theorem remembers_literal (h : m.Numbered) (text : String) :
    (m.literal text).2.Remembers text (m.literal text).1.number :=
  ⟨h.literal text, by rw [lookup_literal, if_pos rfl]⟩

theorem remembers_invariant (text : String) (n : Nat) : Invariant fun m _ => m.Remembers text n where
  enter := fun _ _ h _ => ⟨h.numbered.withDepth _, h.lookup⟩
  leave := fun _ _ _ h => ⟨h.numbered.withDepth _, h.lookup⟩
  allocate := fun _ _ content h => ⟨h.numbered.allocate content, h.lookup⟩
  literal := by
    intro m _ other h
    refine ⟨h.numbered.literal other, ?_⟩
    rw [lookup_literal]
    -- loading the same text again finds its number
    split
    · rename_i heq
      rw [literal_of_lookup (heq ▸ h.lookup)]
    · exact h.lookup

theorem Remembers.number_eq_iff (h : m.Remembers text n) (other : String) :
    n = (m.literal other).1.number ↔ text = other := by
  constructor
  · intro hn
    exact h.numbered.eq_of_literal (hn ▸ h.lookup)
  · rintro rfl
    rw [literal_of_lookup h.lookup]

/-- The number is taken by an object that is no literal. -/
structure Spares (n : Nat) (m : Machine) : Prop where
  numbered : m.Numbered
  below : n < m.supply
  unused : ∀ text, m.literals.lookup text ≠ some n

theorem spares_initial (l : Loader) (options : ExecutionOptions) {supply : Nat} (h : n < supply) :
    (initial l options supply).Spares n :=
  ⟨numbered_initial l options supply, h, nofun⟩

theorem spares_allocate (h : m.Numbered) (content : Content) :
    (m.allocate content).2.Spares (m.allocate content).1.number :=
  ⟨h.allocate content, Nat.lt_succ_self _,
    fun text hn => absurd (h.below text _ hn) (Nat.lt_irrefl _)⟩

theorem Spares.number_ne (h : m.Spares n) (text : String) : (m.literal text).1.number ≠ n := by
  cases hl : m.literals.lookup text with
  | some k =>
    rw [literal_of_lookup hl]
    exact fun hk => h.unused text (hl.trans (congrArg some hk))
  | none =>
    rw [literal_of_none hl]
    exact Nat.ne_of_gt h.below

theorem spares_invariant (n : Nat) : Invariant fun m _ => m.Spares n where
  enter := fun _ _ h _ => ⟨h.numbered.withDepth _, h.below, h.unused⟩
  leave := fun _ _ _ h => ⟨h.numbered.withDepth _, h.below, h.unused⟩
  allocate := fun _ _ content h =>
    ⟨h.numbered.allocate content, Nat.lt_succ_of_lt h.below, h.unused⟩
  literal := by
    intro m _ text h
    obtain ⟨hle, -⟩ := h.numbered.literal_number text
    refine ⟨h.numbered.literal text, Nat.lt_of_lt_of_le h.below hle, fun other => ?_⟩
    rw [lookup_literal]
    split
    · exact fun hn => h.number_ne text (Option.some.inj hn)
    · exact h.unused other

end Machine

/-! ## Loads of texts -/

theorem Stack.values_of_push {s t : Stack} {v : Value} (h : s.push v = .ok t) :
    t.values = v :: s.values := by
  simp only [push] at h
  split at h <;> cases h
  rfl

/-- The active instruction loads a text and pushes a value for it. -/
structure Configuration.LoadsText (c : Configuration) (text : String) (v : Value) : Prop where
  loads : ∃ index, (c.active.code.instructions[c.active.pc]? = some (.ldc index) ∨
    c.active.code.instructions[c.active.pc]? = some (.ldc2 index)) ∧
      c.active.code.constant? index = some (.string text)
  pushes : ∃ c', c.step = .running c' ∧ c'.active.stack.values = v :: c.active.stack.values

theorem Configuration.LoadsText.literal {c : Configuration} {text : String} {v : Value}
    (h : c.LoadsText text v) : v = .object (c.machine.literal text).1 ∧
      c.step.machine = (c.machine.literal text).2 := by
  obtain ⟨index, hi, hconstant⟩ := h.loads
  obtain ⟨c', hc', hvalues⟩ := h.pushes
  have hperform : ∀ i, i = .ldc index ∨ i = .ldc2 index →
      c.machine.perform c.active i = .ok (.pushLiteral c.active.stack text) := by
    rintro i (rfl | rfl) <;> simp only [Machine.perform, Machine.load, hconstant]
  have hstep : c.step = c.act (.pushLiteral c.active.stack text) := by
    rcases hi with hi | hi <;> simp only [step, hi, hperform, true_or, or_true]
  rw [hstep] at hc' ⊢
  simp only [act, resume] at hc' ⊢
  cases hpush : c.active.stack.push (.object (c.machine.literal text).1) with
  | error f =>
    rw [hpush] at hc'
    cases f <;> cases hc'
  | ok stack =>
    rw [hpush] at hc'
    cases hc'
    exact ⟨(List.cons.inj (hvalues.symm.trans (Stack.values_of_push hpush))).1, rfl⟩

end StackCode
