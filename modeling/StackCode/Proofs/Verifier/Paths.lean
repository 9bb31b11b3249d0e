import Mathlib.Order.Bounds.Basic
import StackCode.Verifier.Check

/-!
# Paths through a body

The abstract machine starts at the first instruction on an empty stack of kinds. It runs one
instruction at a time and follows both arms of a branch, so a body may have paths of any length.
`SoundPaths` says what all of them have to keep to.
-/

namespace StackCode

def Flow.target? : Flow → Option Label
  | branch l | jump l => some l
  | next | exit => none

/-- The positions that control may go to after the instruction at `pc`. A label that was never
marked leads nowhere. -/
inductive Flow.Leads (code : Code) (pc : Nat) : Flow → Nat → Prop
  | next : Leads code pc .next (pc + 1)
  | past (l : Label) : Leads code pc (.branch l) (pc + 1)
  | taken {l : Label} {p : Nat} : code.position? l = some p → Leads code pc (.branch l) p
  | jumped {l : Label} {p : Nat} : code.position? l = some p → Leads code pc (.jump l) p

def Code.IsTarget (code : Code) (l : Label) : Prop :=
  ∃ p, code.labelInfo? l = some ⟨some p, false⟩ ∧ p < code.instructions.size

namespace Body

variable (body : Body)

def entry : Array (Option Kind) := (entryLocals body.access body.signature).toArray

/-- Some path brings a stack to a position. -/
inductive Reaches : Nat → List Kind → Prop
  | start : Reaches 0 []
  | move {pc next : Nat} {before after : List Kind} {i : Instruction} {flow : Flow} :
      Reaches pc before → body.code.instructions[pc]? = some i →
      body.step body.entry pc before i = .ok (after, flow) → flow.Leads body.code pc next →
      Reaches next after

def Leaves (pc : Nat) (after : List Kind) (flow : Flow) : Prop :=
  ∃ before i, body.Reaches pc before ∧ body.code.instructions[pc]? = some i ∧
    body.step body.entry pc before i = .ok (after, flow)

/-- The slots under the stacks that the instructions on all paths leave. -/
def heights : Set Nat := {n | ∃ pc after flow, body.Leaves pc after flow ∧ slotHeight after = n}

/-- Every path is well shaped: its instructions fit the stacks they meet, its branches go to labels
that carry a frame, it stays inside the code, and it agrees with the other paths on the stack at
every position. -/
structure SoundPaths : Prop where
  nonempty : 0 < body.code.instructions.size
  runs : ∀ pc before i, body.Reaches pc before → body.code.instructions[pc]? = some i →
    ∃ after flow, body.step body.entry pc before i = .ok (after, flow)
  targets : ∀ pc after flow l, body.Leaves pc after flow → flow.target? = some l →
    body.code.IsTarget l
  inside : ∀ pc after flow next, body.Leaves pc after flow → flow.Leads body.code pc next →
    next < body.code.instructions.size
  agree : ∀ pc s t, body.Reaches pc s → body.Reaches pc t → s = t

variable {body}

theorem Leaves.reaches {pc next : Nat} {after : List Kind} {flow : Flow}
    (h : body.Leaves pc after flow) (hl : flow.Leads body.code pc next) :
    body.Reaches next after := by
  obtain ⟨before, i, hr, hi, hs⟩ := h
  exact .move hr hi hs hl

theorem Reaches.cases_leaves {pc : Nat} {s : List Kind} (h : body.Reaches pc s) :
    (pc = 0 ∧ s = []) ∨ ∃ p flow, body.Leaves p s flow ∧ flow.Leads body.code p pc := by
  cases h with
  | start => exact .inl ⟨rfl, rfl⟩
  | move hr hi hs hl => exact .inr ⟨_, _, ⟨_, _, hr, hi, hs⟩, hl⟩

theorem SoundPaths.lt_size (h : body.SoundPaths) {pc : Nat} {s : List Kind}
    (hr : body.Reaches pc s) : pc < body.code.instructions.size := by
  rcases hr.cases_leaves with ⟨rfl, _⟩ | ⟨p, flow, hv, hl⟩
  · exact h.nonempty
  · exact h.inside p s flow pc hv hl

/-! ## Successors -/

theorem branchTarget_eq_ok {pc p : Nat} {l : Label} (h : body.branchTarget pc l = .ok p) :
    body.code.labelInfo? l = some ⟨some p, false⟩ ∧ p < body.code.instructions.size := by
  unfold branchTarget at h
  split at h
  · rename_i hl
    split at h
    · rename_i hp
      cases h
      exact ⟨hl, hp⟩
    · cases h
  · cases h

theorem branchTarget_of_isTarget {pc : Nat} {l : Label} (h : body.code.IsTarget l) :
    ∃ p, body.branchTarget pc l = .ok p := by
  obtain ⟨p, hl, hp⟩ := h
  exact ⟨p, by simp [branchTarget, hl, hp]⟩

theorem position?_of_labelInfo? {code : Code} {l : Label} {p : Nat}
    (h : code.labelInfo? l = some ⟨some p, false⟩) : code.position? l = some p := by
  simp [Code.position?, h]

theorem mem_successors {pc : Nat} {flow : Flow} {targets : List Nat}
    (h : body.successors pc flow = .ok targets) (next : Nat) :
    next ∈ targets ↔ flow.Leads body.code pc next := by
  cases flow with
  | next =>
    cases h
    rw [List.mem_singleton]
    exact ⟨fun e => e ▸ .next, fun hl => by cases hl; rfl⟩
  | branch l =>
    cases hb : body.branchTarget pc l with
    | error e => simp [successors, hb, bind, Except.bind] at h
    | ok p =>
      simp [successors, hb, bind, Except.bind, pure, Except.pure] at h
      subst h
      have hp := position?_of_labelInfo? (branchTarget_eq_ok hb).1
      constructor
      · intro hm
        rcases List.mem_cons.mp hm with rfl | hm
        · exact .taken hp
        · rw [List.mem_singleton.mp hm]
          exact .past l
      · intro hl
        cases hl with
        | past => simp
        | taken hq => rw [hp] at hq; cases hq; simp
  | jump l =>
    cases hb : body.branchTarget pc l with
    | error e => simp [successors, hb, bind, Except.bind] at h
    | ok p =>
      simp [successors, hb, bind, Except.bind, pure, Except.pure] at h
      subst h
      have hp := position?_of_labelInfo? (branchTarget_eq_ok hb).1
      rw [List.mem_singleton]
      constructor
      · rintro rfl
        exact .jumped hp
      · intro hl
        cases hl with
        | jumped hq => rw [hp] at hq; cases hq; rfl
  | exit =>
    cases h
    constructor
    · intro hm; cases hm
    · intro hl; cases hl

theorem successors_ok_iff {pc : Nat} {flow : Flow} :
    (∃ targets, body.successors pc flow = .ok targets) ↔
      ∀ l, flow.target? = some l → body.code.IsTarget l := by
  have hb (l : Label) : (∃ p, body.branchTarget pc l = .ok p) ↔ body.code.IsTarget l :=
    ⟨fun ⟨p, hp⟩ => ⟨p, branchTarget_eq_ok hp⟩, branchTarget_of_isTarget⟩
  cases flow with
  | next | exit =>
    constructor
    · intro _ l hl; cases hl
    · intro _; exact ⟨_, rfl⟩
  | branch l | jump l =>
    simp only [Flow.target?, Option.some.injEq, forall_eq', ← hb]
    constructor
    · rintro ⟨targets, h⟩
      cases hp : body.branchTarget pc l with
      | error e => simp [successors, hp, bind, Except.bind] at h
      | ok p => exact ⟨p, rfl⟩
    · rintro ⟨p, hp⟩
      exact ⟨_, by simp [successors, hp, bind, Except.bind, pure, Except.pure]; rfl⟩

end Body

end StackCode
