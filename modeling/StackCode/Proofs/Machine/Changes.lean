import StackCode.Proofs.Machine.History
import StackCode.Proofs.Machine.Kinds

/-!
# What steps do to operand stacks

A step pops values and pushes values, one after the other, and may begin or end a body. Which values
these are follows from the values at hand; neither the counters nor the limits matter.
`step_traces`: a step overflows exactly where its changes do, and otherwise leaves the stacks that
they lead to.
-/

namespace StackCode

/-! ## Changes -/

structure StackFrame where
  code : Code
  stack : Stack

def Activation.frame (a : Activation) : StackFrame := ⟨a.code, a.stack⟩

/-- The frames of the active bodies; the body that runs comes first. -/
def Configuration.frames (c : Configuration) : List StackFrame :=
  (c.active :: c.callers).map Activation.frame

inductive StackChange where
  | pop
  | push (v : Value)
  /-- A body begins to run, on an empty stack. -/
  | enter (code : Code)
  /-- The body that runs ends, and its stack is dropped. -/
  | leave

namespace StackChange

def apply (pc : Nat) : StackChange → List StackFrame → Except Fault (List StackFrame)
  | pop, f :: rest => do return { f with stack := (← f.stack.pop pc).2 } :: rest
  | push v, f :: rest => do return { f with stack := ← f.stack.push v } :: rest
  | enter code, frames => .ok (⟨code, .empty code.maxStack⟩ :: frames)
  | leave, _ :: rest => .ok rest
  | _, [] => .ok []

def applyAll (pc : Nat) : List StackChange → List StackFrame → Except Fault (List StackFrame)
  | [], frames => .ok frames
  | change :: changes, frames => do applyAll pc changes (← change.apply pc frames)

theorem applyAll_append (pc : Nat) (before after : List StackChange) (frames : List StackFrame) :
    applyAll pc (before ++ after) frames = applyAll pc before frames >>= applyAll pc after := by
  induction before generalizing frames with
  | nil => rfl
  | cons change before ih =>
    rw [List.cons_append, applyAll, applyAll, bind_assoc]
    exact bind_congr fun frames => ih frames

def pops (n : Nat) : List StackChange := List.replicate n pop

def pushAny (v : Option Value) : List StackChange := v.toList.map push

end StackChange

open StackChange (applyAll pops pushAny)

/-- What an instruction takes from the stack and then puts there. One that ends in an error makes some
of the pops only. -/
def Activation.changes (a : Activation) : Instruction → List StackChange
  | .nop | .goto _ | .new _ | .leave none => []
  | .aconstNull => [.push .null]
  | .iconst v | .bipush v => [.push (.int v.toInt32)]
  | .sipush v => [.push (.int v.toInt32)]
  | .lconst v => [.push (.long (.ofNat v.toNat))]
  | .fconst v => [.push (.float (.ofInt v.toNat))]
  | .dconst v => [.push (.double (.ofInt v.toNat))]
  | .ldc index | .ldc2 index => pushAny ((a.code.constant? index).bind Constant.number?)
  | .load _ index => pushAny a.locals[index.toNat]?
  | .pop | .ifZero _ _ | .ifNull _ | .ifNonNull _ | .leave (some _) => [.pop]
  | .ifInt _ _ | .ifSame _ _ => [.pop, .pop]
  | .pop2 => .pop :: if a.stack.values.head?.any (·.size = 2) then [] else [.pop]
  | .dup => pushAny a.stack.values.head?
  | .dup2 => .pop ::
    match a.stack.values with
    | [] => []
    | v :: values =>
      if v.size = 2 then [.push v, .push v]
      else .pop ::
        match values with
        | [] => []
        | w :: _ => [.push w, .push v, .push w, .push v]
  | .convert c => .pop :: pushAny (a.stack.values.head?.bind (Value.convert c))
  | .reduce r => .pop :: .pop ::
    match a.stack.values with
    | y :: x :: _ => pushAny (Value.reduce r x y)
    | _ => []
  | .invokeSpecial index =>
    match a.code.constant? index with
    | some (.method ref) => pops ref.method.signature.params.length ++ [.pop]
    | _ => []
  | .invokeStatic index =>
    match a.code.constant? index with
    | some (.method ref) => pops ref.method.signature.params.length
    | _ => []

namespace Configuration

variable (c : Configuration)

def changesOnLeaving (v : Option Value) : List StackChange :=
  .leave ::
    match c.callers with
    | [] => []
    | _ :: _ => pushAny v

def changesAfter : Except Fault Action → List StackChange
  | .error _ | .ok (.proceed _) | .ok (.jump _ _) => []
  | .ok (.pushLiteral _ text) => [.push (.object (c.machine.literal text).1)]
  | .ok (.pushInstance _ ofClass) => [.push (.object (c.machine.allocate (.instance ofClass)).1)]
  | .ok (.call _ callee arguments) =>
    match c.machine.enter callee arguments with
    | .error _ => []
    | .ok (.finished v) => pushAny v
    | .ok (.started a) => [.enter a.code]
  | .ok (.leave v) => c.changesOnLeaving v

def changes : List StackChange :=
  match c.active.code.instructions[c.active.pc]? with
  | some i => c.active.changes i ++ c.changesAfter (c.machine.perform c.active i)
  | none =>
    match c.active.method with
    | some _ => []
    | none => c.changesOnLeaving (Completion.fellThrough c.active.stack.contents).value?

end Configuration

/-! ## Pops and pushes -/

namespace Stack

theorem pop_cases (s : Stack) (pc : Nat) :
    (∃ (v : Value) (t : Stack), s.values = v :: t.values ∧ s.pop pc = .ok (v, t)) ∨
      s.values = [] ∧ s.pop pc = .error (.error (.stackUnderflow pc)) := by
  cases h : s.values with
  | nil => exact .inr ⟨rfl, by simp only [pop, h]⟩
  | cons v values => exact .inl ⟨v, ⟨values, s.slots - v.size, s.limit⟩, rfl, by simp only [pop, h]⟩

theorem push_cases (s : Stack) (v : Value) : (∃ t, s.push v = .ok t) ∨
    s.push v = .error (.overflow (s.slots + v.size) s.limit) := by
  by_cases h : s.slots + v.size ≤ s.limit
  · exact .inl ⟨_, if_pos h⟩
  · exact .inr (if_neg h)

end Stack

namespace StackChange

variable {pc slots limit : Nat} {frames : List StackFrame}

theorem apply_eq_overflow {change : StackChange}
    (h : change.apply pc frames = .error (.overflow slots limit)) :
    ∃ v f rest, change = .push v ∧ frames = f :: rest ∧
      f.stack.push v = .error (.overflow slots limit) := by
  cases frames with
  | nil => cases change <;> cases h
  | cons f rest =>
    cases change with
    | enter | leave => cases h
    | pop =>
      rcases f.stack.pop_cases pc with ⟨v, t, -, hp⟩ | ⟨-, hp⟩
      · simp only [apply, hp] at h
        cases h
      · simp only [apply, hp] at h
        cases h
    | push v =>
      cases hp : f.stack.push v with
      | ok t =>
        simp only [apply, hp] at h
        cases h
      | error fault =>
        simp only [apply, hp] at h
        cases h
        exact ⟨v, f, rest, rfl, rfl, hp⟩

theorem applyAll_ne_overflow {changes : List StackChange} (h : ∀ v, .push v ∉ changes)
    (frames : List StackFrame) : applyAll pc changes frames ≠ .error (.overflow slots limit) := by
  induction changes generalizing frames with
  | nil => exact nofun
  | cons change changes ih =>
    rw [applyAll]
    cases hchange : change.apply pc frames with
    | ok between => exact ih (fun v hv => h v (List.mem_cons_of_mem change hv)) between
    | error f =>
      intro ho
      cases ho
      obtain ⟨v, -, -, rfl, -⟩ := apply_eq_overflow hchange
      exact h v List.mem_cons_self

end StackChange

/-! ## Instructions -/

/-- A request overflows exactly where changes do, and if it gives a result, they lead to frames that
belong to it. -/
inductive Traces {α : Type} (P : α → List StackFrame → Prop) :
    Except Fault α → Except Fault (List StackFrame) → Prop
  | ok {a : α} {frames : List StackFrame} : P a frames → Traces P (.ok a) (.ok frames)
  | error (e : ExecutionError) {r : Except Fault (List StackFrame)} :
      (∀ slots limit, r ≠ .error (.overflow slots limit)) → Traces P (.error (.error e)) r
  | overflow (slots limit : Nat) :
      Traces P (.error (.overflow slots limit)) (.error (.overflow slots limit))

def Action.stack? : Action → Option Stack
  | .proceed t | .pushLiteral t _ | .pushInstance t _ | .jump t _ | .call t _ _ => some t
  | .leave _ => none

def Action.Holds (code : Code) (rest : List StackFrame) (action : Action)
    (frames : List StackFrame) : Prop :=
  ∃ t, (∀ u ∈ action.stack?, u = t) ∧ frames = ⟨code, t⟩ :: rest

section
variable {pc : Nat} {code : Code} {rest : List StackFrame} {s : Stack} {changes : List StackChange}

theorem Action.holds_of_stack? {action : Action} (h : action.stack? = some s) :
    action.Holds code rest (⟨code, s⟩ :: rest) :=
  ⟨s, fun _ hu => Option.some.inj (hu.symm.trans h), rfl⟩

theorem Action.holds_leave (v : Option Value) :
    (Action.leave v).Holds code rest (⟨code, s⟩ :: rest) :=
  ⟨s, nofun, rfl⟩

variable {P : Action → List StackFrame → Prop}

theorem Traces.failed (e : ExecutionError) (frames : List StackFrame) :
    Traces P (.error (.error e)) (.ok frames) :=
  .error e fun _ _ => ok_ne_error

theorem Traces.push {v : Value} {k : Stack → Except Fault Action}
    (h : ∀ t, Traces P (k t) (applyAll pc changes (⟨code, t⟩ :: rest))) :
    Traces P (s.push v >>= k) (applyAll pc (.push v :: changes) (⟨code, s⟩ :: rest)) := by
  simp only [applyAll, StackChange.apply]
  rcases s.push_cases v with ⟨t, ht⟩ | ht
  · rw [ht]
    exact h t
  · rw [ht]
    exact .overflow _ _

theorem Traces.pop {k : Value × Stack → Except Fault Action}
    (h : ∀ (v : Value) (t : Stack), s.values = v :: t.values →
      Traces P (k (v, t)) (applyAll pc changes (⟨code, t⟩ :: rest))) :
    Traces P (s.pop pc >>= k) (applyAll pc (.pop :: changes) (⟨code, s⟩ :: rest)) := by
  simp only [applyAll, StackChange.apply]
  rcases s.pop_cases pc with ⟨v, t, hv, hp⟩ | ⟨-, hp⟩
  · rw [hp]
    exact h v t hv
  · rw [hp]
    exact .error _ fun _ _ h => by cases h

/-- Nothing is pushed once a value was of the wrong kind. -/
theorem Traces.popAs {α : Type} {kind : Kind} {view : Value → Option α}
    {k : α × Stack → Except Fault Action}
    (hwrong : ∀ (v : Value) (t : Stack), s.values = v :: t.values → view v = none →
      ∀ w, .push w ∉ changes)
    (h : ∀ (v : Value) (t : Stack) (x : α), s.values = v :: t.values → view v = some x →
      Traces P (k (x, t)) (applyAll pc changes (⟨code, t⟩ :: rest))) :
    Traces P (s.popAs pc kind view >>= k) (applyAll pc (.pop :: changes) (⟨code, s⟩ :: rest)) := by
  rw [Stack.popAs, bind_assoc]
  refine .pop fun v t hv => ?_
  simp only
  cases hview : view v with
  | some x => exact h v t x hv hview
  | none => exact .error _ fun _ _ => StackChange.applyAll_ne_overflow (hwrong v t hv hview) _

theorem Traces.popMany {n : Nat} {taken : List Value}
    {k : List Value × Stack → Except Fault Action}
    (h : ∀ arguments t, Traces P (k (arguments, t)) (applyAll pc changes (⟨code, t⟩ :: rest))) :
    Traces P (s.popMany pc n taken >>= k)
      (applyAll pc (pops n ++ changes) (⟨code, s⟩ :: rest)) := by
  induction n generalizing s taken with
  | zero => exact h taken s
  | succ n ih =>
    rw [Stack.popMany, bind_assoc]
    exact .pop fun v t _ => ih

theorem traces_push (v : Value) :
    Traces (Action.Holds code rest) (do return .proceed (← s.push v))
      (applyAll pc [.push v] (⟨code, s⟩ :: rest)) :=
  .push fun _ => .ok (Action.holds_of_stack? rfl)

theorem traces_branchIf (condition : Bool) (l : Label) :
    Traces (Action.Holds code rest) (.ok (Machine.branchIf condition s l))
      (.ok (⟨code, s⟩ :: rest)) := by
  cases condition with
  | true => exact .ok (Action.holds_of_stack? rfl)
  | false => exact .ok (Action.holds_of_stack? rfl)

end

namespace Machine

variable {m : Machine} {a : Activation} {rest : List StackFrame}

theorem load_traces (index : UInt16) :
    Traces (Action.Holds a.code rest) (load a index)
      (applyAll a.pc (pushAny ((a.code.constant? index).bind Constant.number?))
        (a.frame :: rest)) := by
  cases hk : a.code.constant? index with
  | none =>
    simp only [load, hk]
    exact .failed _ _
  | some k =>
    cases hv : k.number? with
    | some v =>
      rw [load_number hk hv, Option.bind_some, hv]
      exact traces_push v
    | none =>
      rw [Option.bind_some, hv]
      cases k with
      | string text =>
        simp only [load, hk]
        exact .ok (Action.holds_of_stack? rfl)
      | classRef | method =>
        simp only [load, hk]
        exact .failed _ _
      | int | float | long | double => cases hv

theorem perform_traces (i : Instruction) : Traces (Action.Holds a.code rest) (m.perform a i)
    (applyAll a.pc (a.changes i) (a.frame :: rest)) := by
  cases i with
  | nop | goto => exact .ok (Action.holds_of_stack? rfl)
  | aconstNull | iconst | bipush | sipush | lconst | fconst | dconst => exact traces_push _
  | ldc | ldc2 => exact load_traces _
  | load k index =>
    simp only [perform, Activation.changes]
    cases a.locals[index.toNat]? with
    | some v => exact traces_push v
    | none => exact .failed _ _
  | new index =>
    simp only [perform, Activation.changes]
    split
    · split
      · exact .ok (Action.holds_of_stack? rfl)
      · exact .failed _ _
    · exact .failed _ _
  | pop => exact .pop fun v t _ => .ok (Action.holds_of_stack? rfl)
  | pop2 =>
    refine .pop fun v t hv => ?_
    simp only [hv, List.head?_cons, Option.any_some, decide_eq_true_eq]
    by_cases hsize : v.size = 2
    · simp only [hsize, if_true]
      exact .ok (Action.holds_of_stack? rfl)
    · simp only [hsize, if_false]
      exact .pop fun w u _ => .ok (Action.holds_of_stack? rfl)
  | dup =>
    simp only [perform, Activation.changes]
    rcases a.stack.pop_cases a.pc with ⟨v, t, hv, hp⟩ | ⟨hv, hp⟩
    · rw [hv, hp]
      exact traces_push v
    · rw [hv, hp]
      exact .failed _ _
  | dup2 =>
    refine .pop fun v t hv => ?_
    simp only [hv]
    by_cases hsize : v.size = 2
    · simp only [hsize, if_true]
      exact .push fun u => traces_push v
    · simp only [hsize, if_false]
      refine .pop fun w u hw => ?_
      simp only [hw]
      exact .push fun s₁ => .push fun s₂ => .push fun s₃ => traces_push v
  | convert c =>
    refine .popAs (fun v t hv hview => ?_) fun v t w hv hview => ?_
    · rw [hv, List.head?_cons, Option.bind_some, hview]
      exact fun _ => List.not_mem_nil
    · rw [hv, List.head?_cons, Option.bind_some, hview]
      exact traces_push w
  | reduce r =>
    simp only [perform, Stack.popKind]
    refine .popAs (fun y t hy hkind => ?_) fun y t y' hy hkind => ?_
    · have hwrong : y.kind? ≠ some r.operand := by simpa using hkind
      rw [hy]
      cases t.values with
      | nil => simp
      | cons x values => simp [Value.reduce_eq_none hwrong x, pushAny]
    · obtain ⟨-, rfl⟩ := Option.ite_some_none_eq_some.mp hkind
      refine .popAs (fun x u hx hreduce => ?_) fun x u w hx hreduce => ?_
      · rw [hy, hx]
        simp only [hreduce]
        exact fun _ => List.not_mem_nil
      · rw [hy, hx]
        simp only [hreduce]
        exact traces_push w
  | ifZero op l | ifNull l | ifNonNull l =>
    exact .popAs (fun _ _ _ _ _ => List.not_mem_nil) fun v t x _ _ => traces_branchIf _ l
  | ifInt op l =>
    refine .popAs (fun _ _ _ _ => by simp) fun v t x _ _ => ?_
    exact .popAs (fun _ _ _ _ _ => List.not_mem_nil) fun w u y _ _ => traces_branchIf _ l
  | ifSame op l =>
    refine .pop fun y t _ => .pop fun x u _ => ?_
    have hexpects (v : Value) {k : Unit → Except Fault Action}
        (h : Traces (Action.Holds a.code rest) (k ()) (.ok (⟨a.code, u⟩ :: rest))) :
        Traces (Action.Holds a.code rest)
          ((if v.kind? = some .reference then .ok ()
            else .error (.error (.unexpectedValue a.pc .reference v.kind?)) : Except Fault Unit) >>=
              k)
          (.ok (⟨a.code, u⟩ :: rest)) := by
      split
      · exact h
      · exact .failed _ _
    refine hexpects x (hexpects y ?_)
    cases op with
    | eq | ne => exact traces_branchIf _ l
    | _ => exact .failed _ _
  | invokeSpecial index =>
    simp only [perform, Activation.changes, methodRef]
    cases a.code.constant? index with
    | none => exact .failed _ _
    | some k =>
      cases k with
      | method ref =>
        refine Traces.popMany (s := a.stack) fun arguments t => .pop fun receiver u _ => ?_
        by_cases hnull : receiver.isNull = true
        · simp only [hnull, if_true]
          exact .failed _ _
        · simp only [hnull]
          cases m.specialMethod ref with
          | ok d => exact .ok (Action.holds_of_stack? rfl)
          | error e => exact .failed e _
      | _ => exact .failed _ _
  | invokeStatic index =>
    simp only [perform, Activation.changes, methodRef]
    cases a.code.constant? index with
    | none => exact .failed _ _
    | some k =>
      cases k with
      | method ref =>
        simp only
        rw [← List.append_nil (pops _)]
        refine Traces.popMany (s := a.stack) fun arguments t => ?_
        cases m.staticMethod ref with
        | ok d => exact .ok (Action.holds_of_stack? rfl)
        | error e => exact .failed e _
      | _ => exact .failed _ _
  | leave result =>
    cases result with
    | none => exact .ok (Action.holds_leave none)
    | some k => exact .pop fun v t _ => .ok (Action.holds_leave (some v))

end Machine

/-! ## Steps -/

inductive Progress.Traces : Progress → Except Fault (List StackFrame) → Prop
  | running (c : Configuration) : Traces (.running c) (.ok c.frames)
  | answered {m : Machine} {outcome : Outcome} {r : Except Fault (List StackFrame)} :
      outcome.isAnswer = true → (∀ slots limit, r ≠ .error (.overflow slots limit)) →
      Traces (.stopped m outcome) r
  | overflowed (m : Machine) (slots limit : Nat) :
      Traces (.stopped m (.overflowed slots limit)) (.error (.overflow slots limit))

theorem Progress.Traces.stopped {m : Machine} {outcome : Outcome} (h : outcome.isAnswer = true)
    (frames : List StackFrame) : (Progress.stopped m outcome).Traces (.ok frames) :=
  .answered h fun _ _ => ok_ne_error

theorem Progress.Traces.eq_frames {c : Configuration} {r : Except Fault (List StackFrame)}
    (h : (Progress.running c).Traces r) : r = .ok c.frames := by
  cases h
  rfl

theorem Progress.Traces.overflowed_iff {p : Progress} {r : Except Fault (List StackFrame)}
    (h : p.Traces r) {slots limit : Nat} :
    (∃ m, p = .stopped m (.overflowed slots limit)) ↔ r = .error (.overflow slots limit) := by
  cases h with
  | running c => exact ⟨nofun, nofun⟩
  | answered hanswer hr =>
    refine ⟨?_, fun h => absurd h (hr slots limit)⟩
    rintro ⟨m, h⟩
    cases h
    cases hanswer
  | overflowed m =>
    constructor
    · rintro ⟨m, h⟩
      cases h
      rfl
    · intro h
      cases h
      exact ⟨m, rfl⟩

namespace Configuration

variable (c : Configuration) (pc : Nat)

theorem resume_traces (s : Stack) (v : Option Value) : (c.resume s v).Traces
    (applyAll pc (pushAny v) (⟨c.active.code, s⟩ :: c.callers.map Activation.frame)) := by
  cases v with
  | none => exact .running _
  | some v =>
    simp only [resume, pushAny, Option.toList, List.map_cons, List.map_nil, applyAll,
      StackChange.apply]
    rcases s.push_cases v with ⟨t, ht⟩ | ht
    · rw [ht]
      exact .running _
    · rw [ht]
      exact .overflowed _ _ _

theorem finish_traces (f : StackFrame) (completion : Completion) : (c.finish completion).Traces
    (applyAll pc (c.changesOnLeaving completion.value?)
      (f :: c.callers.map Activation.frame)) := by
  obtain ⟨m, active, callers⟩ := c
  cases callers with
  | nil => exact .stopped rfl _
  | cons a callers =>
    exact resume_traces ⟨{ m with depth := m.depth - callCount [active] }, a, callers⟩ pc a.stack _

theorem act_traces {action : Action} {frames : List StackFrame}
    (h : action.Holds c.active.code (c.callers.map Activation.frame) frames) :
    (c.act action).Traces (applyAll pc (c.changesAfter (.ok action)) frames) := by
  obtain ⟨t, ht, rfl⟩ := h
  cases action with
  | proceed u =>
    obtain rfl := ht u rfl
    exact .running _
  | pushLiteral u text =>
    obtain rfl := ht u rfl
    exact resume_traces { c with machine := (c.machine.literal text).2 } pc _ (some _)
  | pushInstance u ofClass =>
    obtain rfl := ht u rfl
    exact resume_traces { c with machine := (c.machine.allocate (.instance ofClass)).2 } pc _
      (some _)
  | jump u l =>
    obtain rfl := ht u rfl
    simp only [act]
    split
    · exact .running _
    · exact .stopped rfl _
  | call u d arguments =>
    obtain rfl := ht u rfl
    simp only [act, changesAfter]
    cases hentered : c.machine.enter d arguments with
    | error e => exact .stopped rfl _
    | ok entered =>
      cases entered with
      | finished v => exact c.resume_traces pc _ v
      | started a =>
        obtain ⟨-, code, -, rfl⟩ := Machine.start_of_enter hentered
        exact .running _
  | leave v => exact c.finish_traces pc _ _

theorem traces_of_perform {x : Except Fault Action} {r : Except Fault (List StackFrame)}
    (h : Traces (Action.Holds c.active.code (c.callers.map Activation.frame)) x r) :
    (match x with
      | .ok action => c.act action
      | .error f => c.stop f).Traces (r >>= applyAll pc (c.changesAfter x)) := by
  cases h with
  | ok h => exact c.act_traces pc h
  | overflow slots limit => exact .overflowed _ _ _
  | @error e r h =>
    have hr : r >>= applyAll pc [] = r := by cases r <;> rfl
    refine .answered rfl ?_
    rw [changesAfter, hr]
    exact h

/-- **What a step does to the stacks.** -/
theorem step_traces : c.step.Traces (applyAll c.active.pc c.changes c.frames) := by
  simp only [step, changes]
  cases c.active.code.instructions[c.active.pc]? with
  | some i =>
    simp only
    rw [StackChange.applyAll_append]
    exact c.traces_of_perform c.active.pc (Machine.perform_traces i)
  | none =>
    simp only
    cases c.active.method with
    | some m => exact .stopped rfl _
    | none => exact c.finish_traces _ _ _

end Configuration

end StackCode
