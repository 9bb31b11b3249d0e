import StackCode.Proofs.Machine.Frame

/-!
# What a run keeps of its machine

A step changes the depth of a machine with the number of active calls, and gives objects new
numbers; it does nothing else to a machine. What these changes keep, a run keeps.
-/

namespace StackCode

theorem callCount_cons (a : Activation) (rest : List Activation) :
    callCount (a :: rest) = callCount rest + callCount [a] :=
  (callCount_append [a] rest).trans (Nat.add_comm _ _)

theorem Machine.start_of_enter {m : Machine} {d : MethodDefinition} {vs : List Value} {a : Activation}
    (h : m.enter d vs = .ok (.started a)) : m.depth < m.options.maxDepth ∧
      ∃ code, d.body = .code code ∧ a = .start code (some d.method) (argumentSlots vs) := by
  unfold enter at h
  split at h
  · cases h
  · rename_i hdepth
    refine ⟨Nat.lt_of_not_le hdepth, ?_⟩
    split at h
    · split at h <;> cases h
    · rename_i code hcode
      cases h
      exact ⟨code, hcode, rfl⟩

theorem Machine.enter_eq_started {m : Machine} {d : MethodDefinition} {vs : List Value}
    {a : Activation} (h : m.enter d vs = .ok (.started a)) :
    m.depth < m.options.maxDepth ∧ callCount [a] = 1 := by
  obtain ⟨hdepth, _, -, rfl⟩ := start_of_enter h
  exact ⟨hdepth, rfl⟩

/-- What is known of a machine while some number of calls is active. -/
structure Machine.Invariant (P : Machine → Nat → Prop) : Prop where
  enter : ∀ m calls, P m calls → m.depth < m.options.maxDepth →
    P { m with depth := m.depth + 1 } (calls + 1)
  leave : ∀ m calls left, P m (calls + left) → P { m with depth := m.depth - left } calls
  allocate : ∀ m calls content, P m calls → P (m.allocate content).2 calls
  literal : ∀ m calls text, P m calls → P (m.literal text).2 calls

def Configuration.Keeps (P : Machine → Nat → Prop) (c : Configuration) : Prop :=
  P c.machine (callCount (c.active :: c.callers))

/-- What is known during a run, and of the machine that it leaves: no call is active any more, unless
a stack overflowed. -/
def Progress.Keeps (P : Machine → Nat → Prop) : Progress → Prop
  | .running c => c.Keeps P
  | .stopped m (.overflowed _ _) => ∃ calls, P m calls
  | .stopped m _ => P m 0

namespace Machine.Invariant

variable {P : Machine → Nat → Prop} (hP : Invariant P) {c : Configuration}
include hP

theorem stop (h : c.Keeps P) (f : Fault) : (c.stop f).Keeps P := by
  cases f with
  | error e => exact hP.leave _ 0 _ (by rwa [Nat.zero_add])
  | overflow slots limit => exact ⟨_, h⟩

theorem resume (h : c.Keeps P) (stack : Stack) (v : Option Value) : (c.resume stack v).Keeps P := by
  cases v with
  | none => exact h
  | some v =>
    simp only [Configuration.resume]
    cases stack.push v with
    | ok stack => exact h
    | error f => exact hP.stop h f

theorem finish (h : c.Keeps P) (completion : Completion) : (c.finish completion).Keeps P := by
  obtain ⟨m, active, callers⟩ := c
  have hleft : P { m with depth := m.depth - callCount [active] } (callCount callers) :=
    hP.leave m _ _ (callCount_cons active callers ▸ h)
  cases callers with
  | nil => exact hleft
  | cons a callers => exact hP.resume (c := ⟨_, a, callers⟩) hleft _ _

theorem act (h : c.Keeps P) (action : Action) : (c.act action).Keeps P := by
  cases action with
  | proceed stack => exact h
  | pushLiteral stack text =>
    exact hP.resume (c := { c with machine := (c.machine.literal text).2 }) (hP.literal _ _ text h)
      stack (some (.object (c.machine.literal text).1))
  | pushInstance stack ofClass =>
    exact hP.resume (c := { c with machine := (c.machine.allocate (.instance ofClass)).2 })
      (hP.allocate _ _ (.instance ofClass) h) stack (some (.object (c.machine.allocate (.instance ofClass)).1))
  | jump stack target =>
    simp only [Configuration.act]
    cases c.active.code.position? target with
    | some pc => exact h
    | none => exact hP.stop h _
  | call stack callee arguments =>
    simp only [Configuration.act]
    cases hentered : c.machine.enter callee arguments with
    | error e => exact hP.stop h _
    | ok entered =>
      cases entered with
      | finished v => exact hP.resume h _ _
      | started a =>
        obtain ⟨hdepth, hcall⟩ := Machine.enter_eq_started hentered
        rw [Progress.Keeps, Configuration.Keeps, callCount_cons, hcall]
        exact hP.enter _ _ h hdepth
  | leave v => exact hP.finish h _

theorem step (h : c.Keeps P) : c.step.Keeps P := by
  simp only [Configuration.step]
  cases c.active.code.instructions[c.active.pc]? with
  | some i =>
    simp only
    cases c.machine.perform c.active i with
    | ok action => exact hP.act h action
    | error f => exact hP.stop h f
  | none =>
    simp only
    cases c.active.method with
    | some m => exact hP.stop h _
    | none => exact hP.finish h _

theorem after {p : Progress} (h : p.Keeps P) (n : Nat) : (p.after n).Keeps P :=
  Progress.after_induction (fun _ hc => hP.step hc) h n

theorem run {p : Progress} (h : p.Keeps P) {n : Nat} {m : Machine} {outcome : Outcome}
    (hr : p.run n = some (m, outcome)) : (Progress.stopped m outcome).Keeps P :=
  Progress.run_eq_some.mp hr ▸ hP.after h n

theorem call {m : Machine} (h : P m 0) (d : MethodDefinition) (vs : List Value) :
    (m.call d vs).Keeps P := by
  simp only [Machine.call]
  cases hentered : m.enter d vs with
  | error e => exact h
  | ok entered =>
    cases entered with
    | finished v => exact h
    | started a =>
      obtain ⟨hdepth, hcall⟩ := Machine.enter_eq_started hentered
      rw [Progress.Keeps, Configuration.Keeps, hcall]
      exact hP.enter _ _ h hdepth

end Machine.Invariant

namespace Progress

def machine : Progress → Machine
  | running c => c.machine
  | stopped m _ => m

theorem keeps_machine {P : Machine → Prop} {p : Progress} :
    p.Keeps (fun m _ => P m) ↔ P p.machine := by
  cases p with
  | running c => rfl
  | stopped m outcome =>
    cases outcome with
    | completed | failed => rfl
    | overflowed => exact exists_const Nat

end Progress

/-! ## The loader of a run -/

theorem Machine.loader_invariant (l : Loader) : Invariant fun m _ => m.loader = l where
  enter := fun _ _ h _ => h
  leave := fun _ _ _ h => h
  allocate := fun _ _ _ h => h
  literal := fun m _ text h => (m.literal_loader text).trans h

namespace Progress

def loader : Progress → Loader
  | running c => c.machine.loader
  | stopped m _ => m.loader

theorem keeps_loader {p : Progress} {l : Loader} :
    p.Keeps (fun m _ => m.loader = l) ↔ p.loader = l := by
  rw [keeps_machine (P := fun m => m.loader = l)]
  cases p <;> rfl

theorem Leads.loader {p q : Progress} (h : p.Leads q) : q.loader = p.loader := by
  obtain ⟨n, rfl⟩ := h
  exact keeps_loader.mp ((Machine.loader_invariant p.loader).after (keeps_loader.mpr rfl) n)

end Progress

end StackCode
