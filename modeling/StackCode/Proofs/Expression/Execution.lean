import StackCode.Proofs.Expression.Evaluation
import StackCode.Proofs.Expression.Placement
import StackCode.Proofs.Machine.Frame
import StackCode.Proofs.Machine.Kinds
import StackCode.Proofs.Verifier.Paths

/-!
# Runs of single requests

What the machine does, on a stack given by its values, with the instruction that a request has put
in its place.
-/

namespace StackCode

/-! ## Stacks by their values -/

namespace Stack

def holding (values : List Value) (limit : Nat) : Stack := ⟨values, slotsOf values, limit⟩

variable {v : Value} {values : List Value} {limit : Nat}

theorem push_holding (h : slotsOf values + v.size ≤ limit) :
    (holding values limit).push v = .ok (holding (v :: values) limit) := by
  simp only [push, holding, slotsOf_cons, Nat.add_comm v.size]
  exact if_pos h

theorem pop_holding (pc : Nat) :
    (holding (v :: values) limit).pop pc = .ok (v, holding values limit) := by
  simp only [pop, holding, slotsOf_cons, Nat.add_sub_cancel_left]

theorem popAs_holding {α : Type} {a : α} {view : Value → Option α} (pc : Nat) (k : Kind)
    (h : view v = some a) :
    (holding (v :: values) limit).popAs pc k view = .ok (a, holding values limit) := by
  simp only [popAs, pop_holding, ok_bind, h]
  rfl

theorem popMany_holding (pc : Nat) (ws : List Value) (taken : List Value) :
    (holding (ws ++ values) limit).popMany pc ws.length taken =
      .ok (ws.reverse ++ taken, holding values limit) := by
  induction ws generalizing taken with
  | nil => rfl
  | cons w ws ih =>
    rw [List.length_cons, popMany, List.cons_append, pop_holding, ok_bind]
    exact (ih (w :: taken)).trans (by simp)

end Stack

/-! ## Instructions on such stacks -/

namespace Machine

variable {m : Machine} {a : Activation} {v w : Value} {values : List Value} {limit : Nat}

theorem perform_convert {conv : Conversion} (hs : a.stack = .holding (v :: values) limit)
    (hv : v.convert conv = some w) (hroom : slotsOf values + w.size ≤ limit) :
    m.perform a (.convert conv) = .ok (.proceed (.holding (w :: values) limit)) := by
  have hpop : a.stack.popAs a.pc conv.source (Value.convert conv) =
      .ok (w, .holding values limit) :=
    hs ▸ Stack.popAs_holding _ _ hv
  simp only [perform, hpop, ok_bind, Stack.push_holding hroom]
  rfl

theorem perform_reduce {r : Reduction} {u : Value}
    (hs : a.stack = .holding (w :: v :: values) limit) (hw : w.kind? = some r.operand)
    (hu : Value.reduce r v w = some u) (hroom : slotsOf values + u.size ≤ limit) :
    m.perform a (.reduce r) = .ok (.proceed (.holding (u :: values) limit)) := by
  have hpop : a.stack.popKind a.pc r.operand = .ok (w, .holding (v :: values) limit) :=
    hs ▸ Stack.popAs_holding _ _ (if_pos hw)
  have hpop' : (Stack.holding (v :: values) limit).popAs a.pc r.operand
      (fun x => Value.reduce r x w) =
      .ok (u, .holding values limit) := Stack.popAs_holding _ _ hu
  simp only [perform, hpop, ok_bind, hpop', Stack.push_holding hroom]
  rfl

theorem perform_ifZero {op : Comparison} {l : Label} {n : Int32}
    (hs : a.stack = .holding (.int n :: values) limit) :
    m.perform a (.ifZero op l) =
      .ok (branchIf (op.holds (compare n.toInt 0)) (.holding values limit) l) := by
  have hpop : a.stack.popInt a.pc = .ok (n, .holding values limit) :=
    hs ▸ Stack.popAs_holding _ _ rfl
  simp only [perform, hpop]
  rfl

theorem perform_ifInt {op : Comparison} {l : Label} {x y : Int32}
    (hs : a.stack = .holding (.int y :: .int x :: values) limit) :
    m.perform a (.ifInt op l) =
      .ok (branchIf (op.holds (compare x.toInt y.toInt)) (.holding values limit) l) := by
  have hpop : a.stack.popInt a.pc = .ok (y, .holding (.int x :: values) limit) :=
    hs ▸ Stack.popAs_holding _ _ rfl
  have hpop' : (Stack.holding (.int x :: values) limit).popInt a.pc =
      .ok (x, .holding values limit) :=
    Stack.popAs_holding _ _ rfl
  simp only [perform, hpop, ok_bind, hpop']
  rfl

theorem decide?_references {op : Comparison} (hv : v.kind? = some .reference)
    (hw : w.kind? = some .reference) : op.decide? v w = match op with
      | .eq => some (v.same w)
      | .ne => some (!v.same w)
      | _ => none := by
  cases v <;> cases hv <;> cases w <;> cases hw <;> rfl

theorem decide?_of_kind {op : Comparison} {k : Kind} (hv : v.kind? = some k) (hw : w.kind? = some k)
    (hop : ¬(k = .reference ∧ op.isOrdering = true)) : ∃ b, op.decide? v w = some b := by
  cases k with
  | reference =>
    rw [decide?_references hv hw]
    cases op with
    | eq | ne => exact ⟨_, rfl⟩
    | lt | le | gt | ge => exact absurd ⟨rfl, rfl⟩ hop
  | int | long | float | double =>
    cases v <;> cases hv
    cases w <;> cases hw
    exact ⟨_, rfl⟩

theorem perform_ifSame {op : Comparison} {l : Label} {condition : Bool}
    (hs : a.stack = .holding (w :: v :: values) limit) (hv : v.kind? = some .reference)
    (hw : w.kind? = some .reference) (hop : op.decide? v w = some condition) :
    m.perform a (.ifSame op l) = .ok (branchIf condition (.holding values limit) l) := by
  have hpop : a.stack.pop a.pc = .ok (w, .holding (v :: values) limit) := hs ▸ Stack.pop_holding _
  have hpop' : (Stack.holding (v :: values) limit).pop a.pc = .ok (v, .holding values limit) :=
    Stack.pop_holding _
  rw [decide?_references hv hw] at hop
  simp only [perform, hpop, hpop', ok_bind, hv, hw, if_true]
  cases op <;> cases hop <;> rfl

theorem perform_dup (hs : a.stack = .holding (v :: values) limit)
    (hroom : slotsOf (v :: values) + v.size ≤ limit) :
    m.perform a .dup = .ok (.proceed (.holding (v :: v :: values) limit)) := by
  have hpop : a.stack.pop a.pc = .ok (v, .holding values limit) := hs ▸ Stack.pop_holding _
  simp only [perform, hpop, ok_bind]
  rw [hs, Stack.push_holding hroom]
  rfl

theorem perform_dup2 (hs : a.stack = .holding (v :: values) limit) (hv : v.size = 2)
    (hroom : slotsOf (v :: values) + v.size ≤ limit) :
    m.perform a .dup2 = .ok (.proceed (.holding (v :: v :: values) limit)) := by
  have hpop : a.stack.pop a.pc = .ok (v, .holding values limit) := hs ▸ Stack.pop_holding _
  have hroom' : slotsOf values + v.size ≤ limit := by
    rw [slotsOf_cons] at hroom
    omega
  simp only [perform, hpop, ok_bind, hv, if_true, Stack.push_holding hroom',
    Stack.push_holding hroom]
  rfl

end Machine

/-! ## Steps on such stacks -/

/-- The configuration with its active body at a position, with values on its stack. -/
def Configuration.holding (c : Configuration) (m : Machine) (pc : Nat) (values : List Value) :
    Configuration :=
  { c with
    machine := m
    active := { c.active with pc := pc, stack := .holding values c.active.code.maxStack } }

/-- The active body comes from one position and stack to others. -/
def Configuration.Moves (c : Configuration) (m : Machine) (pc : Nat) (values : List Value)
    (m' : Machine) (pc' : Nat) (values' : List Value) : Prop :=
  (Progress.running (c.holding m pc values)).Leads (.running (c.holding m' pc' values'))

namespace Configuration

variable {c : Configuration} {m : Machine} {pc : Nat} {values : List Value} {i : Instruction}

theorem Moves.trans {m₁ m₂ m₃ : Machine} {p₁ p₂ p₃ : Nat} {s₁ s₂ s₃ : List Value}
    (h : c.Moves m₁ p₁ s₁ m₂ p₂ s₂) (h' : c.Moves m₂ p₂ s₂ m₃ p₃ s₃) : c.Moves m₁ p₁ s₁ m₃ p₃ s₃ :=
  Progress.Leads.trans h h'

theorem step_holding (hi : c.active.code.instructions[pc]? = some i) {action : Action}
    (hp : m.perform (c.holding m pc values).active i = .ok action) :
    (c.holding m pc values).step = (c.holding m pc values).act action := by
  have hi' : (c.holding m pc values).active.code.instructions[(c.holding m pc values).active.pc]? =
      some i := hi
  have hp' : (c.holding m pc values).machine.perform (c.holding m pc values).active i =
      .ok action := hp
  simp only [step, hi', hp']

theorem moves_of_act (hi : c.active.code.instructions[pc]? = some i) {action : Action}
    {m' : Machine} {pc' : Nat} {values' : List Value}
    (hp : m.perform (c.holding m pc values).active i = .ok action)
    (ha : (c.holding m pc values).act action = .running (c.holding m' pc' values')) :
    c.Moves m pc values m' pc' values' :=
  Progress.leads_step (by rw [step_holding hi hp, ha]; exact .refl _)

theorem moves_proceed (hi : c.active.code.instructions[pc]? = some i) {values' : List Value}
    (hp : m.perform (c.holding m pc values).active i =
      .ok (.proceed (.holding values' c.active.code.maxStack))) :
    c.Moves m pc values m (pc + 1) values' :=
  moves_of_act hi hp rfl

theorem moves_push (hi : c.active.code.instructions[pc]? = some i) {v : Value}
    (hp : m.perform (c.holding m pc values).active i =
      (do return .proceed (← (Stack.holding values c.active.code.maxStack).push v)))
    (hroom : slotsOf values + v.size ≤ c.active.code.maxStack) :
    c.Moves m pc values m (pc + 1) (v :: values) := by
  rw [Stack.push_holding hroom] at hp
  exact moves_proceed hi hp

theorem moves_jump (hi : c.active.code.instructions[pc]? = some i) {values' : List Value}
    {l : Label} {p : Nat} (hl : c.active.code.position? l = some p)
    (hp : m.perform (c.holding m pc values).active i =
      .ok (.jump (.holding values' c.active.code.maxStack) l)) :
    c.Moves m pc values m p values' := by
  refine moves_of_act hi hp ?_
  have hl' : (c.holding m pc values).active.code.position? l = some p := hl
  simp only [act, hl']
  rfl

theorem moves_branch (hi : c.active.code.instructions[pc]? = some i) {values' : List Value}
    {l : Label} {p : Nat} {condition : Bool} (hl : c.active.code.position? l = some p)
    (hp : m.perform (c.holding m pc values).active i =
      .ok (Machine.branchIf condition (.holding values' c.active.code.maxStack) l)) :
    c.Moves m pc values m (if condition then p else pc + 1) values' := by
  cases condition with
  | true => exact moves_jump hi hl hp
  | false => exact moves_proceed hi hp

theorem moves_iconst {b : Bool}
    (hi : c.active.code.instructions[pc]? = some (.iconst (if b then 1 else 0)))
    (hroom : slotsOf values + 1 ≤ c.active.code.maxStack) :
    c.Moves m pc values m (pc + 1) (.ofBool b :: values) := by
  have hv : Value.ofBool b = .int (if b then (1 : Int8) else 0).toInt32 := by cases b <;> rfl
  rw [hv]
  exact moves_push hi rfl hroom

theorem moves_select {n : Nat} {taken condition : Bool} {operands : List Value}
    (hs : c.active.code.Selects pc i n taken) (hroom : slotsOf values + 1 ≤ c.active.code.maxStack)
    (hp : m.perform (c.holding m pc (operands ++ values)).active i =
      .ok (Machine.branchIf condition (.holding values c.active.code.maxStack) ⟨n⟩)) :
    c.Moves m pc (operands ++ values) m (pc + 4) (.ofBool (condition == taken) :: values) := by
  have hbranch := moves_branch hs.branch (Body.position?_of_labelInfo? hs.target) hp
  cases condition with
  | true =>
    have hchosen : c.Moves m (pc + 3) values m (pc + 4) (.ofBool taken :: values) :=
      moves_iconst hs.chosen hroom
    have hv : (true == taken) = taken := by cases taken <;> rfl
    rw [hv]
    exact hbranch.trans hchosen
  | false =>
    have hpast : c.Moves m (pc + 1) values m (pc + 2) (.ofBool (!taken) :: values) := by
      refine moves_iconst ?_ hroom
      rw [hs.past]
      cases taken <;> rfl
    have hskip : c.Moves m (pc + 2) (.ofBool (!taken) :: values) m (pc + 4)
        (.ofBool (!taken) :: values) :=
      moves_jump hs.skip (Body.position?_of_labelInfo? hs.stop) rfl
    have hv : (false == taken) = !taken := by cases taken <;> rfl
    rw [hv]
    exact (hbranch.trans hpast).trans hskip

end Configuration

end StackCode
