import StackCode.Machine.Run
import StackCode.Proofs.Sequence

/-!
# Calls inside runs

A call in the middle of a body runs as the same call from outside does, on top of the activations
that wait for it. So what is known of `invokeStatic` alone holds of the instruction, step for step.
-/

namespace StackCode

namespace Progress

def after : Nat → Progress → Progress
  | 0, p => p
  | n + 1, running c => c.step.after n
  | _, stopped m outcome => stopped m outcome

@[simp] theorem after_stopped (n : Nat) (m : Machine) (outcome : Outcome) :
    (stopped m outcome).after n = stopped m outcome := by
  cases n <;> rfl

theorem after_add (a b : Nat) (p : Progress) : p.after (a + b) = (p.after a).after b := by
  induction a generalizing p with
  | zero => rw [Nat.zero_add]; rfl
  | succ a ih =>
    cases p with
    | stopped m outcome => simp
    | running c =>
      rw [Nat.add_right_comm]
      exact ih c.step

theorem run_eq_some {n : Nat} {p : Progress} {m : Machine} {outcome : Outcome} :
    p.run n = some (m, outcome) ↔ p.after n = stopped m outcome := by
  induction n generalizing p with
  | zero => cases p <;> simp [run, after]
  | succ n ih =>
    cases p with
    | stopped m' o => simp [run]
    | running c => exact ih

theorem run_eq_none {n : Nat} {p : Progress} : p.run n = none ↔ ∃ c, p.after n = running c := by
  induction n generalizing p with
  | zero => cases p <;> simp [run, after]
  | succ n ih =>
    cases p with
    | stopped m' o => simp [run]
    | running c => exact ih

theorem after_induction {P : Progress → Prop} (hstep : ∀ c, P (running c) → P c.step) {p : Progress}
    (h : P p) (n : Nat) : P (p.after n) := by
  induction n generalizing p with
  | zero => exact h
  | succ n ih =>
    cases p with
    | running c => exact ih (hstep c h)
    | stopped m outcome => exact h

theorem stops_iff {c : Configuration} {m : Machine} {outcome : Outcome} :
    (∃ fuel, (running c).run fuel = some (m, outcome)) ↔
      ∃ n c', (running c).after n = running c' ∧ c'.step = stopped m outcome := by
  constructor
  · rintro ⟨fuel, hrun⟩
    induction fuel generalizing c with
    | zero => cases hrun
    | succ fuel ih =>
      have hrest : c.step.run fuel = some (m, outcome) := hrun
      cases hstep : c.step with
      | stopped m' outcome' =>
        rw [hstep] at hrest
        cases fuel <;> cases hrest <;> exact ⟨0, c, rfl, hstep⟩
      | running c₁ =>
        obtain ⟨n, c', hc', hlast⟩ := ih (hstep ▸ hrest)
        refine ⟨n + 1, c', ?_, hlast⟩
        rw [after, hstep]
        exact hc'
  · rintro ⟨n, c', hc', hlast⟩
    refine ⟨n + 1, run_eq_some.mpr ?_⟩
    rw [after_add, hc', after, hlast]
    rfl

def Leads (p q : Progress) : Prop := ∃ n, p.after n = q

theorem Leads.refl (p : Progress) : p.Leads p := ⟨0, rfl⟩

theorem Leads.trans {p q r : Progress} (h : p.Leads q) (h' : q.Leads r) : p.Leads r := by
  obtain ⟨a, rfl⟩ := h
  obtain ⟨b, rfl⟩ := h'
  exact ⟨a + b, after_add a b p⟩

theorem leads_step {c : Configuration} {q : Progress} (h : c.step.Leads q) :
    (running c).Leads q := by
  obtain ⟨n, hn⟩ := h
  exact ⟨n + 1, hn⟩

/-- A run still goes on after some steps. -/
def Lasts (n : Nat) (p : Progress) : Prop := ∃ c, p.after n = running c

theorem Lasts.of_leads {n : Nat} {p q : Progress} (h : p.Leads q) (hq : q.Lasts n) : p.Lasts n := by
  obtain ⟨a, rfl⟩ := h
  obtain ⟨c, hc⟩ := hq
  rw [← after_add, Nat.add_comm, after_add] at hc
  cases hp : p.after n with
  | running c' => exact ⟨c', hp⟩
  | stopped m outcome => rw [hp, after_stopped] at hc; cases hc

/-! ## Progress on top of waiting activations -/

/-- What a call leads to where activations wait for it: `caller`, and below it `rest`. -/
def under (caller : Activation) (rest : List Activation) : Progress → Progress
  | running c => running { c with callers := c.callers ++ caller :: rest }
  | stopped m (.completed completion) =>
    (Configuration.mk m caller rest).resume caller.stack completion.value?
  | stopped m (.failed e) =>
    stopped { m with depth := m.depth - callCount (caller :: rest) } (.failed e)
  | stopped m (.overflowed slots limit) => stopped m (.overflowed slots limit)

end Progress

variable {caller : Activation} {rest : List Activation}

theorem callCount_append (a b : List Activation) : callCount (a ++ b) = callCount a + callCount b :=
  List.countP_append

namespace Configuration

variable (c : Configuration)

theorem stop_under (f : Fault) :
    (c.stop f).under caller rest =
      Configuration.stop { c with callers := c.callers ++ caller :: rest } f := by
  cases f with
  | error e =>
    simp only [stop, Progress.under]
    rw [← List.cons_append, callCount_append, Nat.sub_sub]
  | overflow slots limit => rfl

theorem resume_under (stack : Stack) (v : Option Value) :
    (c.resume stack v).under caller rest =
      Configuration.resume { c with callers := c.callers ++ caller :: rest } stack v := by
  cases v with
  | none => rfl
  | some v =>
    simp only [resume]
    cases stack.push v with
    | ok stack => rfl
    | error f => exact stop_under c f

theorem finish_under (completion : Completion) :
    (c.finish completion).under caller rest =
      Configuration.finish { c with callers := c.callers ++ caller :: rest } completion := by
  obtain ⟨m, active, callers⟩ := c
  cases callers with
  | nil => rfl
  | cons a callers => exact resume_under _ _ _

theorem act_under (action : Action) :
    (c.act action).under caller rest =
      Configuration.act { c with callers := c.callers ++ caller :: rest } action := by
  cases action with
  | proceed stack => rfl
  | pushLiteral stack text =>
    exact resume_under { c with machine := (c.machine.literal text).2 } stack
      (some (.object (c.machine.literal text).1))
  | pushInstance stack ofClass =>
    exact resume_under { c with machine := (c.machine.allocate (.instance ofClass)).2 } stack
      (some (.object (c.machine.allocate (.instance ofClass)).1))
  | jump stack target =>
    simp only [act]
    cases c.active.code.position? target with
    | some pc => rfl
    | none => exact stop_under c _
  | call stack callee arguments =>
    simp only [act]
    cases c.machine.enter callee arguments with
    | error e => exact stop_under c _
    | ok entered =>
      cases entered with
      | finished v => exact resume_under _ _ _
      | started a => rfl
  | leave v => exact finish_under _ _

theorem step_under :
    c.step.under caller rest =
      Configuration.step { c with callers := c.callers ++ caller :: rest } := by
  simp only [step]
  cases c.active.code.instructions[c.active.pc]? with
  | some i =>
    simp only
    cases c.machine.perform c.active i with
    | ok action => exact act_under c action
    | error f => exact stop_under c f
  | none =>
    simp only
    cases c.active.method with
    | some m => exact stop_under c _
    | none => exact finish_under _ _

end Configuration

namespace Progress

theorem after_under {n : Nat} {p : Progress} {c : Configuration} (h : p.after n = running c) :
    (p.under caller rest).after n = (running c).under caller rest := by
  induction n generalizing p with
  | zero => rw [← h]; rfl
  | succ n ih =>
    cases p with
    | stopped m outcome => rw [after_stopped] at h; cases h
    | running c' =>
      rw [← ih (p := c'.step) h, Configuration.step_under]
      rfl

theorem leads_under {n : Nat} {p : Progress} {m : Machine} {outcome : Outcome}
    (h : p.after n = stopped m outcome) :
    (p.under caller rest).Leads ((stopped m outcome).under caller rest) := by
  induction n generalizing p with
  | zero =>
    cases h
    exact .refl _
  | succ n ih =>
    cases p with
    | stopped m' outcome' =>
      rw [after_stopped] at h
      cases h
      exact .refl _
    | running c =>
      obtain ⟨k, hk⟩ := ih (p := c.step) h
      rw [Configuration.step_under] at hk
      exact ⟨k + 1, hk⟩

theorem Lasts.under {n : Nat} {p : Progress} (h : p.Lasts n) : (p.under caller rest).Lasts n := by
  obtain ⟨c, hc⟩ := h
  exact ⟨_, after_under hc⟩

end Progress

/-! ## Calls -/

namespace Machine

variable {m : Machine} {d : MethodDefinition} {vs : List Value}

theorem call_of_full (h : ¬m.depth < m.options.maxDepth) :
    m.call d vs = .stopped m (.failed (.callDepthExceeded m.options.maxDepth)) := by
  simp only [call, enter, Nat.le_of_not_lt h, if_true]

theorem call_native {run : NativeMethod} {v : Option Value} (h : m.depth < m.options.maxDepth)
    (hb : d.body = .native run) (hr : run vs = .ok v) :
    m.call d vs = .stopped m (.completed (.returned v)) := by
  simp only [call, enter, Nat.not_le_of_lt h, if_false, hb, hr]

theorem call_code {code : Code} (h : m.depth < m.options.maxDepth) (hb : d.body = .code code) :
    m.call d vs = .running ⟨{ m with depth := m.depth + 1 },
      .start code (some d.method) (argumentSlots vs), []⟩ := by
  simp only [call, enter, Nat.not_le_of_lt h, if_false, hb]

end Machine

namespace Configuration

variable {c : Configuration} {index : UInt16} {ref : MethodRef} {vs : List Value} {t : Stack}

/-- A call inside a body is the call from outside, on top of the body. -/
theorem act_call (t : Stack) (d : MethodDefinition) (vs : List Value) :
    c.act (.call t d vs) = (c.machine.call d vs).under { c.active with stack := t } c.callers := by
  simp only [act, Machine.call]
  cases c.machine.enter d vs with
  | error e => rfl
  | ok entered =>
    cases entered with
    | finished v => rfl
    | started a => rfl

theorem methodRef_of_constant (href : c.active.code.constant? index = some (.method ref)) :
    Machine.methodRef c.active index = .ok ref := by
  simp only [Machine.methodRef, href]

theorem step_invokeStatic
    (hi : c.active.code.instructions[c.active.pc]? = some (.invokeStatic index))
    (href : c.active.code.constant? index = some (.method ref))
    (hpop : c.active.stack.popMany c.active.pc ref.method.signature.params.length [] =
      .ok (vs, t)) :
    c.step = (c.machine.invokeStatic ref vs).under { c.active with stack := t } c.callers := by
  simp only [step, hi, Machine.perform, methodRef_of_constant href, ok_bind, hpop,
    Machine.invokeStatic]
  cases c.machine.staticMethod ref with
  | error e => rfl
  | ok d => exact act_call t d vs

theorem step_invokeSpecial {u : Stack} {o : Object} {d : MethodDefinition}
    (hi : c.active.code.instructions[c.active.pc]? = some (.invokeSpecial index))
    (href : c.active.code.constant? index = some (.method ref))
    (hpop : c.active.stack.popMany c.active.pc ref.method.signature.params.length [] = .ok (vs, u))
    (hreceiver : u.pop c.active.pc = .ok (.object o, t))
    (hd : c.machine.specialMethod ref = .ok d) :
    c.step = (c.machine.call d (.object o :: vs)).under { c.active with stack := t } c.callers := by
  simp only [step, hi, Machine.perform, methodRef_of_constant href, ok_bind, hpop, hreceiver,
    Value.isNull, Bool.false_eq_true, if_false, hd]
  exact act_call t d (.object o :: vs)

end Configuration

end StackCode
