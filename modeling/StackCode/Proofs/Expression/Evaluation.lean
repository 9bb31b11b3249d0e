import StackCode.Expression.Emission
import StackCode.Machine.Run
import StackCode.Proofs.Sequence

/-!
# Values of expressions

A reference evaluator. It works on expressions, from left to right, and knows nothing of
instructions, labels or positions: calls are calls from outside, conversions and comparisons are
those of numbers and references. `Built` are the expressions that the builders give, and `Suits` are
the locals and the stack that one can be evaluated on.
-/

namespace StackCode

/-! ## How an evaluation ends -/

inductive Evaluation (α : Type) where
  | value (m : Machine) (a : α)
  /-- A call ended the run. -/
  | stopped (outcome : Outcome)
  /-- A call takes more steps than were allowed. -/
  | unfinished
  /-- An operand is missing or is none of its kind, or a call gave no value of its type. -/
  | undefined

namespace Evaluation

variable {α β : Type}

def bind (r : Evaluation α) (f : Machine → α → Evaluation β) : Evaluation β :=
  match r with
  | value m a => f m a
  | stopped outcome => stopped outcome
  | unfinished => unfinished
  | undefined => undefined

def ofOption (m : Machine) : Option α → Evaluation α
  | some a => value m a
  | none => undefined

end Evaluation

/-! ## Comparisons, conversions and literals -/

/-- Whether an operator holds of two numbers. NaN has no order and only differs from all numbers. -/
def Comparison.holdsOf (op : Comparison) : Option Ordering → Bool
  | some o => op.holds o
  | none => op == .ne

/-- Whether an operator holds of two values of one kind. References are the same or not. -/
def Comparison.decide? (op : Comparison) : Value → Value → Option Bool
  | .int a, .int b => some (op.holds (compare a.toInt b.toInt))
  | .long a, .long b => some (op.holds (compare a.toInt b.toInt))
  | .float a, .float b => some (op.holdsOf (a.compare? b))
  | .double a, .double b => some (op.holdsOf (a.compare? b))
  | v, w =>
    if v.kind? = some .reference ∧ w.kind? = some .reference then
      match op with
      | .eq => some (v.same w)
      | .ne => some (!v.same w)
      | _ => none
    else none

def Conversion.between? (source target : Kind) : Option Conversion :=
  if source = target then none
  else Conversion.all.find? fun c => c.source = source ∧ c.target = target

def Primitive.narrow? (p : Primitive) (v : Value) : Option Value :=
  match p with
  | .byte => v.convert .i2b
  | .short => v.convert .i2s
  | .char => v.convert .i2c
  | _ => some v

/-- A number of one type as one of another: first between the kinds, then down to the type. -/
def Value.cast? (v : Value) : Descriptor → Descriptor → Option Value
  | .primitive source, .primitive target =>
    match Conversion.between? source.kind target.kind with
    | some c => (v.convert c).bind target.narrow?
    | none => target.narrow? v
  | _, _ => none

def Literal.evaluate (m : Machine) : Literal → Evaluation Value
  | .bool b => .value m (.ofBool b)
  | .char u => .value m (.int (.ofNat u.toNat))
  | .int v => .value m (.int v)
  | .long v => .value m (.long v)
  | .float v => .value m (.float v)
  | .double v => .value m (.double v)
  | .string s => .value (m.literal s).2 (.object (m.literal s).1)

def Evaluation.ofCall (fuel : Nat) (m : Machine) (ref : MethodRef) (arguments : List Value) :
    Evaluation Value :=
  match (m.invokeStatic ref arguments).run fuel with
  | none => unfinished
  | some (m', .completed completion) =>
    match completion.value? with
    | some v => if v.kind? = ref.method.signature.returns.kind? then value m' v else undefined
    | none => undefined
  | some (_, outcome) => stopped outcome

/-- Some call on arguments of its parameters' kinds completes without a value of its type. -/
def Loader.Misanswers (l : Loader) : Prop :=
  ∃ (m m' : Machine) (ref : MethodRef) (arguments : List Value) (fuel : Nat)
      (completion : Completion),
    m.loader = l ∧ ref.method.signature.returns.isValueType = true ∧
      arguments.map Value.kind? = ref.method.signature.params.map Descriptor.kind? ∧
      (m.invokeStatic ref arguments).run fuel = some (m', .completed completion) ∧
      ∀ v, completion.value? = some v → v.kind? ≠ ref.method.signature.returns.kind?

namespace Expression

section
variable (fuel : Nat) (locals : Array Value)

mutual

/-- The value of an expression over a stack, top first. -/
def evaluate : Expression → Machine → List Value → Evaluation Value
  | constant l, m, _ => l.evaluate m
  | null _, m, _ => .value m .null
  | load _ index, m, _ => .ofOption m locals[index.toNat]?
  | convert type operand, m, stack =>
    (operand.evaluate m stack).bind fun m v => .ofOption m (v.cast? operand.resultType type)
  | dup _, m, stack => .ofOption m stack.head?
  | compare op left right, m, stack =>
    (left.evaluate m stack).bind fun m v =>
      (right.evaluate m (v :: stack)).bind fun m w =>
        .ofOption m ((op.decide? v w).map Value.ofBool)
  | negate operand, m, stack =>
    (operand.evaluate m stack).bind fun m v => .ofOption m (v.bool?.map fun b => Value.ofBool !b)
  | call ref arguments, m, stack =>
    (evaluateAll arguments m stack).bind fun m vs => .ofCall fuel m ref vs

def evaluateAll : List Expression → Machine → List Value → Evaluation (List Value)
  | [], m, _ => .value m []
  | x :: xs, m, stack =>
    (x.evaluate m stack).bind fun m v =>
      (evaluateAll xs m (v :: stack)).bind fun m vs => .value m (v :: vs)

end

end

/-! ## Expressions that the builders give -/

/-- What the builders give, nested as one likes. -/
inductive Built : Expression → Prop
  | constant (l : Literal) : Built (.constant l)
  | null {type : Descriptor} {x : Expression} : nullOf type = .ok x → Built x
  | slot (v : LocalVariable) : v.type.isValueType = true → Built v.expression
  | dup {type : Descriptor} {x : Expression} : copying type = .ok x → Built x
  | convert {operand x : Expression} {type : Descriptor} : Built operand →
      operand.convertTo type = .ok x → Built x
  | compare {op : Comparison} {left right x : Expression} : Built left → Built right →
      comparing op left right = .ok x → Built x
  | negate {operand x : Expression} : Built operand → operand.negated = .ok x → Built x
  | call {ref : MethodRef} {arguments : List Expression} {x : Expression} :
      (∀ a ∈ arguments, Built a) → calling ref arguments = .ok x → Built x

mutual

def Typed : Expression → Prop
  | constant _ => True
  | null type => type.isReference = true
  | load type _ | dup type => type.isValueType = true
  | convert type operand =>
    operand.Typed ∧ operand.resultType ≠ type ∧ operand.resultType.isNumeric = true ∧
      type.isNumeric = true
  | compare op left right => left.Typed ∧ right.Typed ∧ left.resultType = right.resultType ∧
      left.resultType.isValueType = true ∧
        ¬(left.resultType.isReference = true ∧ op.isOrdering = true)
  | negate operand => operand.Typed ∧ operand.resultType = .boolean
  | call ref arguments =>
    TypedAll arguments ∧ arguments.map resultType = ref.method.signature.params ∧
      ref.method.signature.returns.isValueType = true

def TypedAll : List Expression → Prop
  | [] => True
  | x :: xs => x.Typed ∧ TypedAll xs

end

theorem typedAll_of_forall {xs : List Expression} (h : ∀ x ∈ xs, x.Typed) : TypedAll xs := by
  induction xs with
  | nil => trivial
  | cons x xs ih => exact ⟨h x (by simp), ih fun y hy => h y (by simp [hy])⟩

theorem checkType_eq_ok {x : Expression} {type : Descriptor} (h : x.checkType type = .ok ()) :
    x.resultType = type := by
  unfold checkType at h
  split at h
  · assumption
  · cases h

theorem checkArguments_eq_ok {xs : List Expression} {ds : List Descriptor}
    (hlen : xs.length = ds.length) (h : checkArguments xs ds = .ok ()) :
    xs.map resultType = ds := by
  induction xs generalizing ds with
  | nil =>
    cases ds with
    | nil => rfl
    | cons => cases hlen
  | cons x xs ih =>
    cases ds with
    | nil => cases hlen
    | cons d ds =>
      obtain ⟨_, hx, hxs⟩ := bind_eq_ok.mp h
      rw [List.map_cons, checkType_eq_ok hx, ih (Nat.succ.inj hlen) hxs]

section
variable {type : Descriptor} {x operand left right : Expression} {op : Comparison} {ref : MethodRef}
  {arguments : List Expression}

theorem nullOf_eq_ok (h : nullOf type = .ok x) : x = .null type ∧ type.isReference = true := by
  unfold nullOf at h
  split at h
  · rename_i hreference
    cases h
    exact ⟨rfl, (Bool.and_eq_true_iff.mp hreference).1⟩
  · cases h

theorem copying_eq_ok (h : copying type = .ok x) : x = .dup type ∧ type.isValueType = true := by
  unfold copying at h
  split at h
  · rename_i hcopyable
    cases h
    exact ⟨rfl, (Bool.and_eq_true_iff.mp hcopyable).1⟩
  · cases h

theorem convertTo_eq_ok (h : operand.convertTo type = .ok x) :
    x = operand ∨ x = .convert type operand ∧ operand.resultType ≠ type ∧
      operand.resultType.isNumeric = true ∧ type.isNumeric = true := by
  unfold convertTo at h
  split at h
  · cases h
    exact .inl rfl
  · rename_i hne
    split at h
    · rename_i hnumeric
      cases h
      exact .inr ⟨rfl, hne, Bool.and_eq_true_iff.mp hnumeric⟩
    · cases h

theorem comparing_eq_ok (h : comparing op left right = .ok x) :
    x = .compare op left right ∧ left.resultType = right.resultType ∧
      left.resultType.isValueType = true ∧
        ¬(left.resultType.isReference = true ∧ op.isOrdering = true) := by
  simp only [comparing] at h
  split at h
  · cases h
  · rename_i heq
    split at h
    · cases h
    · rename_i hcomparable
      cases h
      exact ⟨rfl, Decidable.not_not.mp heq, by simpa using hcomparable⟩

theorem negated_eq_ok (h : operand.negated = .ok x) :
    x = .negate operand ∧ operand.resultType = .boolean := by
  obtain ⟨_, hcheck, he⟩ := bind_eq_ok.mp h
  exact ⟨(pure_eq_ok.mp he).symm, checkType_eq_ok hcheck⟩

theorem calling_eq_ok (h : calling ref arguments = .ok x) :
    x = .call ref arguments ∧ arguments.map resultType = ref.method.signature.params ∧
      ref.method.signature.returns.isValueType = true := by
  simp only [calling] at h
  split at h
  · cases h
  · rename_i hvalue
    split at h
    · cases h
    · rename_i hlen
      obtain ⟨_, hcheck, he⟩ := bind_eq_ok.mp h
      exact ⟨(pure_eq_ok.mp he).symm, checkArguments_eq_ok (Decidable.not_not.mp hlen) hcheck,
        by simpa using hvalue⟩

end

theorem Built.typed {x : Expression} (h : x.Built) : x.Typed := by
  induction h with
  | constant => trivial
  | null h =>
    obtain ⟨rfl, hreference⟩ := nullOf_eq_ok h
    exact hreference
  | slot v hv => exact hv
  | dup h =>
    obtain ⟨rfl, hvalue⟩ := copying_eq_ok h
    exact hvalue
  | convert _ h ih =>
    rcases convertTo_eq_ok h with rfl | ⟨rfl, htypes⟩
    · exact ih
    · exact ⟨ih, htypes⟩
  | compare _ _ h ihl ihr =>
    obtain ⟨rfl, htypes⟩ := comparing_eq_ok h
    exact ⟨ihl, ihr, htypes⟩
  | negate _ h ih =>
    obtain ⟨rfl, htype⟩ := negated_eq_ok h
    exact ⟨ih, htype⟩
  | call _ h ih =>
    obtain ⟨rfl, htypes⟩ := calling_eq_ok h
    exact ⟨typedAll_of_forall ih, htypes⟩

/-! ## Kinds of values -/

theorem Typed.kind {x : Expression} (h : x.Typed) : ∃ k, x.resultType.kind? = some k := by
  rw [← Option.isSome_iff_exists, Descriptor.isSome_kind?]
  cases x with
  | constant l => cases l <;> rfl
  | null type => cases type <;> first | rfl | cases h
  | load | dup => exact h
  | convert type operand => cases type <;> first | rfl | cases h.2.2.2
  | compare | negate => rfl
  | call ref arguments => exact h.2.2

mutual

/-- Locals that are loaded are of their kinds, and so is what lies on top of the stack where it is
copied. The stack is given by its kinds. -/
def Suits (locals : Array Value) : Expression → List (Option Kind) → Prop
  | constant _, _ | null _, _ => True
  | load type index, _ => ∃ v, locals[index.toNat]? = some v ∧ v.kind? = type.kind?
  | dup type, kinds => kinds.head? = some type.kind?
  | convert _ operand, kinds | negate operand, kinds => operand.Suits locals kinds
  | compare _ left right, kinds =>
    left.Suits locals kinds ∧ right.Suits locals (left.resultType.kind? :: kinds)
  | call _ arguments, kinds => SuitsAll locals arguments kinds

def SuitsAll (locals : Array Value) : List Expression → List (Option Kind) → Prop
  | [], _ => True
  | x :: xs, kinds => x.Suits locals kinds ∧ SuitsAll locals xs (x.resultType.kind? :: kinds)

end

end Expression

end StackCode
