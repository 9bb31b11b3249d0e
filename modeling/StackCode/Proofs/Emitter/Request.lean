import Mathlib.Tactic.SplitIfs
import StackCode.Proofs.Emitter.Steps

/-!
# Elementary requests

Every operation on an emitter comes down to a few elementary requests, each of which appends one
instruction at most. `Operation.requests` lists those of an operation; `apply_requests` says that an
operation that goes through does what they do one after the other.
-/

namespace StackCode

inductive PoolUse where
  | narrow | wide | new | special | static
deriving DecidableEq

def PoolUse.instruction : PoolUse → UInt16 → Instruction
  | narrow => .ldc
  | wide => .ldc2
  | new => .new
  | special => .invokeSpecial
  | static => .invokeStatic

inductive Request where
  /-- An instruction that pops and then pushes slots; control goes on behind it. -/
  | plain (i : Instruction) (pops pushes : Nat)
  /-- Likewise, of an instruction that names a constant. -/
  | pooled (use : PoolUse) (c : Constant) (pops pushes : Nat)
  /-- A conditional branch that pops slots. -/
  | branch (i : Instruction) (pops : Nat) (target : Label)
  | goto (target : Label)
  | leave (result : Option Kind) (pops : Nat)
  | newLabel (debugOnly : Bool)
  | mark (l : Label)
  | reserve (index : UInt16) (type : Descriptor)
  | visitLocal (entry : LocalVariable)
  | visitLine (line : Nat) (start : Label)

namespace Request

def apply (r : Request) (e : Emitter) : Except Misuse Emitter :=
  match r with
  | plain i pops pushes => e.effect i pops pushes
  | pooled use c pops pushes =>
    do return (← (e.withConstant c use.instruction).shrink pops).grow pushes
  | branch i pops target => e.branch i pops target
  | goto target => e.goto target
  | leave result pops => do return { ← e.effect (.leave result) pops 0 with depth := none }
  | newLabel debugOnly => .ok (e.allocateLabel debugOnly).2
  | mark l => e.mark l
  | reserve index type => .ok (e.reserve index type)
  | visitLocal v => v.declare e
  | visitLine line start => e.visitLine line start

def applyAll : List Request → Emitter → Except Misuse Emitter
  | [], e => .ok e
  | r :: rs, e => do applyAll rs (← r.apply e)

theorem applyAll_cons (r : Request) (rs : List Request) (e : Emitter) :
    applyAll (r :: rs) e = (r.apply e >>= applyAll rs) := rfl

theorem applyAll_append (rs ss : List Request) (e : Emitter) :
    applyAll (rs ++ ss) e = (applyAll rs e >>= applyAll ss) := by
  induction rs generalizing e with
  | nil => rfl
  | cons r rs ih =>
    rw [List.cons_append, applyAll_cons, applyAll_cons]
    cases r.apply e with
    | error m => rfl
    | ok e' => exact ih e'

theorem applyAll_singleton (r : Request) (e : Emitter) : applyAll [r] e = r.apply e := by
  rw [applyAll_cons]
  cases r.apply e <;> rfl

end Request

/-! ## Literals and comparisons -/

/-- Pushes an int by the shortest instruction for it. -/
def intRequest (v : Int32) : Request :=
  if -1 ≤ v.toInt ∧ v.toInt ≤ 5 then .plain (.iconst v.toInt8) 0 1
  else if -128 ≤ v.toInt ∧ v.toInt < 128 then .plain (.bipush v.toInt8) 0 1
  else if -32768 ≤ v.toInt ∧ v.toInt < 32768 then .plain (.sipush v.toInt16) 0 1
  else .pooled .narrow (.int v) 0 1

def boolRequest (b : Bool) : Request := .plain (.iconst (if b then 1 else 0)) 0 1

def Literal.request : Literal → Request
  | .bool b => boolRequest b
  | .char u => intRequest (.ofNat u.toNat)
  | .int v => intRequest v
  | .long v =>
    if v = 0 then .plain (.lconst 0) 0 2
    else if v = 1 then .plain (.lconst 1) 0 2
    else .pooled .wide (.long v) 0 2
  | .float v =>
    match ([0, 1, 2] : List UInt8).find? fun n => Single.ofInt n.toNat == v with
    | some n => .plain (.fconst n) 0 1
    | none => .pooled .narrow (.float v) 0 1
  | .double v =>
    match ([0, 1] : List UInt8).find? fun n => Double.ofInt n.toNat == v with
    | some n => .plain (.dconst n) 0 2
    | none => .pooled .wide (.double v) 0 2
  | .string s => .pooled .narrow (.string s) 0 1

def defaultRequest : Descriptor → Request
  | .primitive .long => Literal.request (.long 0)
  | .primitive .float => Literal.request (.float (.ofInt 0))
  | .primitive .double => Literal.request (.double (.ofInt 0))
  | .primitive _ => Literal.request (.int 0)
  | _ => .plain .aconstNull 0 1

def convertRequest (c : Conversion) : Request := .plain (.convert c) c.source.size c.target.size

def castRequests : Descriptor → Descriptor → List Request
  | .primitive s, .primitive t => (Emitter.conversions s t).map convertRequest
  | _, _ => []

def zeroRequest (op : Comparison) (l : Label) : Request := .branch (.ifZero op l) 1 l

def reducedRequests (r : Reduction) (op : Comparison) (l : Label) : List Request :=
  [.plain (.reduce r) (2 * r.operand.size) 1, zeroRequest op l]

def compareRequests (type : Descriptor) (op : Comparison) (l : Label) : List Request :=
  match type with
  | .primitive .long => reducedRequests .lcmp op l
  | .primitive .double => reducedRequests (if op.isGreater then .dcmpl else .dcmpg) op l
  | .primitive .float => reducedRequests (if op.isGreater then .fcmpl else .fcmpg) op l
  | .primitive _ => [.branch (.ifInt op l) 2 l]
  | _ => [.branch (.ifSame op l) 2 l]

/-- Turns a branch into a boolean; the two labels are the next ones, from number `n` on. -/
def booleanRequests (branch : List Request) (taken : Bool) (n : Nat) : List Request :=
  [.newLabel false, .newLabel false] ++ branch ++
    [boolRequest !taken, .goto ⟨n + 1⟩, .mark ⟨n⟩, boolRequest taken, .mark ⟨n + 1⟩]

def loadRequests (type : Descriptor) (index : UInt16) : List Request :=
  match type.kind? with
  | some kind => [.plain (.load kind index) 0 type.size, .reserve index type]
  | none => []

def dupRequest (type : Descriptor) : Request :=
  if type.size = 2 then .plain .dup2 0 2 else .plain .dup 0 1

def callRequest (ref : MethodRef) : Request :=
  .pooled .static (.method ref) ref.method.signature.argumentSlots ref.method.signature.returns.size

/-! ## Expressions and operations -/

namespace Expression

mutual

def labelCount : Expression → Nat
  | constant _ | null _ | load _ _ | dup _ => 0
  | convert _ operand => operand.labelCount
  | compare _ left right => left.labelCount + right.labelCount + 2
  | negate operand => operand.labelCount + 2
  | call _ arguments => labelCountAll arguments

def labelCountAll : List Expression → Nat
  | [] => 0
  | x :: xs => x.labelCount + labelCountAll xs

end

mutual

/-- The requests for the code of an expression; its labels are numbered from `n` on. -/
def requests : Expression → Nat → List Request
  | constant l, _ => [l.request]
  | null _, _ => [.plain .aconstNull 0 1]
  | load type index, _ => loadRequests type index
  | convert type operand, n => operand.requests n ++ castRequests operand.resultType type
  | dup type, _ => [dupRequest type]
  | compare op left right, n =>
    left.requests n ++ right.requests (n + left.labelCount) ++
      booleanRequests
        (compareRequests left.resultType op ⟨n + left.labelCount + right.labelCount⟩) true
        (n + left.labelCount + right.labelCount)
  | negate operand, n =>
    operand.requests n ++
      booleanRequests [zeroRequest .ne ⟨n + operand.labelCount⟩] false (n + operand.labelCount)
  | call ref arguments, n => requestsAll arguments n ++ [callRequest ref]

def requestsAll : List Expression → Nat → List Request
  | [], _ => []
  | x :: xs, n => x.requests n ++ requestsAll xs (n + x.labelCount)

end

end Expression

def Operation.requests (e : Emitter) : Operation → List Request
  | push literal => [literal.request]
  | pushNull => [.plain .aconstNull 0 1]
  | pushDefault type => [defaultRequest type]
  | cast source target => castRequests source target
  | dup => [.plain .dup 0 1]
  | dup2 => [.plain .dup2 0 2]
  | pop => [.plain .pop 1 0]
  | pop2 => [.plain .pop2 2 0]
  | ifCompare type op target => compareRequests type op target
  | ifZero op target => [zeroRequest op target]
  | ifNull target => [.branch (.ifNull target) 1 target]
  | ifNonNull target => [.branch (.ifNonNull target) 1 target]
  | goto target => [.goto target]
  | newLabel => [.newLabel false]
  | newDebugLabel => [.newLabel true]
  | mark label => [.mark label]
  | markNew => [.newLabel false, .mark ⟨e.labels.size⟩]
  | loadThis => [.plain (.load .reference 0) 0 1]
  | loadLocal index type => loadRequests type index
  | newInstance type =>
    match type with
    | .object name => [.pooled .new (.classRef name) 0 1]
    | _ => []
  | invokeConstructor owner m =>
    match owner with
    | .object name =>
      [.pooled .special (.method ⟨name, m⟩) (1 + m.signature.argumentSlots)
        m.signature.returns.size]
    | _ => []
  | invokeStatic ref => [callRequest ref]
  | returnValue => [.leave e.method.signature.returns.kind? e.method.signature.returns.size]
  | visitLocal entry => [.visitLocal entry]
  | visitLine line start => [.visitLine line start]
  | generate expression => expression.requests e.labels.size

/-! ## Operations as requests -/

namespace Emitter

theorem shrink_zero (e : Emitter) : e.shrink 0 = .ok e := by
  cases hd : e.depth with
  | none => simp [shrink, hd]
  | some d =>
    simp only [shrink, hd, Nat.zero_le, if_true, Nat.sub_zero]
    rw [← hd]

theorem apply_plain_push (i : Instruction) (pushes : Nat) (e : Emitter) :
    (Request.plain i 0 pushes).apply e = .ok ((e.append i).grow pushes) := by
  simp only [Request.apply, effect, shrink_zero]
  rfl

theorem apply_pooled_push (use : PoolUse) (c : Constant) (pushes : Nat) (e : Emitter) :
    (Request.pooled use c 0 pushes).apply e =
      .ok ((e.withConstant c use.instruction).grow pushes) := by
  simp only [Request.apply, shrink_zero]
  rfl

theorem apply_intRequest (v : Int32) (e : Emitter) :
    (intRequest v).apply e = .ok (e.pushInt v) := by
  simp only [intRequest, pushInt]
  split_ifs <;> first | exact apply_plain_push .. | exact apply_pooled_push ..

theorem apply_literal (l : Literal) (e : Emitter) : l.request.apply e = .ok (e.pushLiteral l) := by
  cases l with
  | bool b => exact apply_plain_push ..
  | char u => exact apply_intRequest ..
  | int v => exact apply_intRequest ..
  | long v =>
    simp only [Literal.request, pushLiteral, pushLong]
    split_ifs <;> first | exact apply_plain_push .. | exact apply_pooled_push ..
  | float v =>
    simp only [Literal.request, pushLiteral, pushFloat]
    cases ([0, 1, 2] : List UInt8).find? fun n => Single.ofInt n.toNat == v with
    | some n => exact apply_plain_push ..
    | none => exact apply_pooled_push ..
  | double v =>
    simp only [Literal.request, pushLiteral, pushDouble]
    cases ([0, 1] : List UInt8).find? fun n => Double.ofInt n.toNat == v with
    | some n => exact apply_plain_push ..
    | none => exact apply_pooled_push ..
  | string s => exact apply_pooled_push ..

theorem apply_default {type : Descriptor} {e e' : Emitter} (h : e.pushDefault type = .ok e') :
    (defaultRequest type).apply e = .ok e' := by
  unfold pushDefault at h
  split at h
  · rw [← h]
    cases type with
    | primitive p =>
      cases p <;> first
        | exact apply_literal (.int 0) e
        | exact apply_literal (.long 0) e
        | exact apply_literal (.float (.ofInt 0)) e
        | exact apply_literal (.double (.ofInt 0)) e
    | _ => exact apply_plain_push ..
  · cases h

theorem applyAll_conversions (cs : List Conversion) (e : Emitter) :
    Request.applyAll (cs.map convertRequest) e = e.convertAll cs := by
  induction cs generalizing e with
  | nil => rfl
  | cons c cs ih =>
    rw [List.map_cons, Request.applyAll_cons, convertAll]
    exact congrArg (e.effect (.convert c) c.source.size c.target.size >>= ·) (funext ih)

theorem applyAll_cast {source target : Descriptor} {e e' : Emitter}
    (h : e.cast source target = .ok e') :
    Request.applyAll (castRequests source target) e = .ok e' := by
  unfold cast at h
  split at h
  · rename_i s t
    rw [castRequests, applyAll_conversions]
    split at h
    · rename_i hst
      rw [← h, hst, conversions, if_pos rfl]
      rfl
    · split at h
      · exact h
      · cases h
  · cases h

theorem applyAll_compare {type : Descriptor} {op : Comparison} {l : Label} {e e' : Emitter}
    (h : e.ifCompare type op l = .ok e') :
    Request.applyAll (compareRequests type op l) e = .ok e' := by
  have hreduced (r : Reduction) :
      Request.applyAll (reducedRequests r op l) e = e.ifReduced r op l := by
    rw [reducedRequests, Request.applyAll_cons]
    exact congrArg (e.effect (.reduce r) (2 * r.operand.size) 1 >>= ·)
      (funext (Request.applyAll_singleton _))
  cases type with
  | primitive p =>
    cases p <;> first | exact (hreduced _).trans h | exact (Request.applyAll_singleton _ _).trans h
  | object | array =>
    simp only [ifCompare] at h
    split at h
    · cases h
    · exact (Request.applyAll_singleton _ _).trans h
  | void | method => cases h

theorem applyAll_load {type : Descriptor} {index : UInt16} {e e' : Emitter}
    (h : e.loadLocal index type = .ok e') :
    Request.applyAll (loadRequests type index) e = .ok e' := by
  unfold loadLocal at h
  cases hk : type.kind? with
  | some k =>
    rw [hk] at h
    simp only [loadRequests, hk, Request.applyAll_cons, apply_plain_push, ok_bind]
    exact h
  | none =>
    rw [hk] at h
    cases h

theorem apply_dup (type : Descriptor) (e : Emitter) :
    (dupRequest type).apply e = .ok (if type.size = 2 then e.dup2 else e.dup) := by
  unfold dupRequest
  split_ifs <;> exact apply_plain_push ..

end Emitter

/-! ## Labels in use -/

def Request.labels : Request → Nat
  | newLabel _ => 1
  | _ => 0

theorem Emitter.size_setLabel (l : Label) (s : LabelState) (e : Emitter) :
    (e.setLabel l s).labels.size = e.labels.size := Array.size_setIfInBounds

theorem Emitter.size_branchTo {l : Label} {e e' : Emitter} (h : e.branchTo l = .ok e') :
    e'.labels.size = e.labels.size := by
  obtain ⟨s, _, _, rfl⟩ := branchTo_eq_ok h
  exact size_setLabel ..

theorem Emitter.Annotates.size {e e' : Emitter} (h : e.Annotates e') :
    e'.labels.size = e.labels.size := by
  simpa using congrArg Array.size h.labels

theorem Request.size_apply {r : Request} {e e' : Emitter} (h : r.apply e = .ok e') :
    e'.labels.size = e.labels.size + r.labels := by
  cases r with
  | plain i pops pushes =>
    obtain ⟨_, rfl⟩ := Emitter.effect_eq_ok.mp h
    rfl
  | pooled use c pops pushes =>
    obtain ⟨_, rfl⟩ := Emitter.shrink_grow_eq_ok.mp h
    rfl
  | branch i pops target =>
    have hsize := Emitter.size_branchTo (Emitter.branch_eq_ok h).2
    exact hsize
  | goto target =>
    obtain ⟨e₁, h₁, rfl⟩ := Emitter.goto_eq_ok h
    have hsize := Emitter.size_branchTo h₁
    exact hsize
  | leave result pops =>
    obtain ⟨e₁, h₁, h⟩ := bind_eq_ok.mp h
    obtain ⟨_, rfl⟩ := Emitter.effect_eq_ok.mp h₁
    cases h
    rfl
  | newLabel debugOnly =>
    cases h
    exact Array.size_push _
  | mark l =>
    obtain ⟨s, _, _, ⟨_, rfl⟩ | ⟨_, _, rfl⟩⟩ := Emitter.mark_eq_ok h <;>
      exact Emitter.size_setLabel ..
  | reserve index type =>
    cases h
    rfl
  | visitLocal v => exact (Emitter.annotates_of_visitLocal h).size
  | visitLine line start => exact (Emitter.annotates_of_visitLine h).size

def Request.labelsAll : List Request → Nat
  | [] => 0
  | r :: rs => r.labels + labelsAll rs

theorem Request.size_applyAll {rs : List Request} {e e' : Emitter} (h : applyAll rs e = .ok e') :
    e'.labels.size = e.labels.size + labelsAll rs := by
  induction rs generalizing e with
  | nil => cases h; rfl
  | cons r rs ih =>
    obtain ⟨e₁, h₁, h⟩ := bind_eq_ok.mp h
    rw [ih h, size_apply h₁, labelsAll, Nat.add_assoc]

theorem Request.labelsAll_append (rs ss : List Request) :
    labelsAll (rs ++ ss) = labelsAll rs + labelsAll ss := by
  induction rs with
  | nil => exact (Nat.zero_add _).symm
  | cons r rs ih => rw [List.cons_append, labelsAll, labelsAll, ih, Nat.add_assoc]

theorem labels_intRequest (v : Int32) : (intRequest v).labels = 0 := by
  unfold intRequest
  split_ifs <;> rfl

theorem labels_literal (l : Literal) : l.request.labels = 0 := by
  cases l with
  | bool | string => rfl
  | char | int => exact labels_intRequest _
  | long v =>
    simp only [Literal.request]
    split_ifs <;> rfl
  | float v | double v =>
    simp only [Literal.request]
    split <;> rfl

theorem labelsAll_cast (source target : Descriptor) :
    Request.labelsAll (castRequests source target) = 0 := by
  unfold castRequests
  split
  · induction Emitter.conversions _ _ with
    | nil => rfl
    | cons c cs ih => simpa [Request.labelsAll, convertRequest, Request.labels] using ih
  · rfl

theorem labelsAll_compare (type : Descriptor) (op : Comparison) (l : Label) :
    Request.labelsAll (compareRequests type op l) = 0 := by
  cases type with
  | primitive p => cases p <;> rfl
  | _ => rfl

theorem labelsAll_boolean {branch : List Request} (h : Request.labelsAll branch = 0) (taken : Bool)
    (n : Nat) : Request.labelsAll (booleanRequests branch taken n) = 2 := by
  rw [booleanRequests, Request.labelsAll_append, Request.labelsAll_append, h]
  rfl

namespace Expression

mutual

theorem labels_requests (x : Expression) (n : Nat) :
    Request.labelsAll (x.requests n) = x.labelCount := by
  match x with
  | constant l => simp [requests, labelCount, Request.labelsAll, labels_literal]
  | null _ => rfl
  | load type index =>
    simp only [requests, labelCount, loadRequests]
    split <;> rfl
  | convert type operand =>
    rw [requests, labelCount, Request.labelsAll_append, labels_requests operand, labelsAll_cast,
      Nat.add_zero]
  | dup type =>
    simp only [requests, labelCount, dupRequest]
    split_ifs <;> rfl
  | compare op left right =>
    rw [requests, labelCount, Request.labelsAll_append, Request.labelsAll_append,
      labels_requests left, labels_requests right, labelsAll_boolean (labelsAll_compare ..)]
  | negate operand =>
    rw [requests, labelCount, Request.labelsAll_append, labels_requests operand,
      labelsAll_boolean rfl]
  | call ref arguments =>
    rw [requests, labelCount, Request.labelsAll_append, labels_requestsAll arguments]
    rfl

theorem labels_requestsAll (xs : List Expression) (n : Nat) :
    Request.labelsAll (requestsAll xs n) = labelCountAll xs := by
  match xs with
  | [] => rfl
  | x :: xs =>
    rw [requestsAll, labelCountAll, Request.labelsAll_append, labels_requests x,
      labels_requestsAll xs]

end

theorem size_applyAll_requests {x : Expression} {n : Nat} {e e' : Emitter}
    (h : Request.applyAll (x.requests n) e = .ok e') :
    e'.labels.size = e.labels.size + x.labelCount := by
  rw [Request.size_applyAll h, labels_requests]

/-! ## Expressions as requests -/

theorem checkHeight_eq_ok {x : Expression} {before : Option Nat} {e e' : Emitter}
    (h : x.checkHeight before e = .ok e') : e = e' := by
  unfold checkHeight at h
  split at h
  · split at h
    · cases h; rfl
    · cases h
  · cases h; rfl

/-- What is emitted for an expression, before its height is checked. -/
def emission (x : Expression) (e : Emitter) : Except Misuse Emitter :=
  match x with
  | constant l => .ok (e.pushLiteral l)
  | null _ => .ok e.pushNull
  | load type index => e.loadLocal index type
  | convert type operand => operand.generate e >>= Emitter.cast operand.resultType type
  | dup type => .ok (if type.size = 2 then e.dup2 else e.dup)
  | compare op left right =>
    left.generate e >>= fun e =>
      right.generate e >>= Emitter.pushBranch (Emitter.ifCompare left.resultType op) true
  | negate operand => operand.generate e >>= Emitter.pushBranch (Emitter.ifZero .ne) false
  | call ref arguments => generateAll arguments e >>= Emitter.invokeStatic ref

theorem generate_eq (x : Expression) (e : Emitter) :
    x.generate e = (x.emission e >>= x.checkHeight e.depth) := by
  cases x <;> simp only [generate, emission, bind_assoc]

theorem emission_of_generate {x : Expression} {e e' : Emitter} (h : x.generate e = .ok e') :
    x.emission e = .ok e' := by
  rw [generate_eq] at h
  obtain ⟨e₁, h₁, h⟩ := bind_eq_ok.mp h
  rw [← checkHeight_eq_ok h]
  exact h₁

theorem applyAll_boolean {branch : Label → Emitter → Except Misuse Emitter} {rs : List Request}
    {taken : Bool} {e e' : Emitter}
    (hbranch : ∀ e₁ e₂, branch ⟨e.labels.size⟩ e₁ = .ok e₂ → Request.applyAll rs e₁ = .ok e₂)
    (h : e.pushBranch branch taken = .ok e') :
    Request.applyAll (booleanRequests rs taken e.labels.size) e = .ok e' := by
  -- the labels are made first, so the requests can name them by number
  have hsize : (e.allocateLabel false).2.labels.size = e.labels.size + 1 := Array.size_push _
  simp only [Emitter.pushBranch, Emitter.newLabel, bind_eq_ok] at h
  obtain ⟨e₁, h₁, e₂, h₂, e₃, h₃, h₄⟩ := h
  rw [booleanRequests, Request.applyAll_append, Request.applyAll_append]
  have hlabels : Request.applyAll [.newLabel false, .newLabel false] e =
      .ok ((e.allocateLabel false).2.allocateLabel false).2 := rfl
  rw [hlabels, ok_bind, hbranch _ _ h₁, ok_bind]
  have hbool (b : Bool) (e : Emitter) : (boolRequest b).apply e = .ok (e.pushBool b) :=
    Emitter.apply_plain_push ..
  rw [Request.applyAll_cons, hbool, ok_bind, Request.applyAll_cons]
  have hgoto : (Request.goto ⟨e.labels.size + 1⟩).apply (e₁.pushBool !taken) = .ok e₂ := by
    rw [← hsize]
    exact h₂
  have hmark : (Request.mark ⟨e.labels.size⟩).apply e₂ = .ok e₃ := h₃
  have hstop : (Request.mark ⟨e.labels.size + 1⟩).apply (e₃.pushBool taken) = .ok e' := by
    rw [← hsize]
    exact h₄
  rw [hgoto, ok_bind, Request.applyAll_cons, hmark, ok_bind, Request.applyAll_cons, hbool, ok_bind,
    Request.applyAll_cons, hstop]
  rfl

mutual

theorem applyAll_generate {x : Expression} {e e' : Emitter} (h : x.generate e = .ok e') :
    Request.applyAll (x.requests e.labels.size) e = .ok e' := by
  have h₁ := emission_of_generate h
  match x with
  | constant l =>
    rw [requests, Request.applyAll_singleton, Emitter.apply_literal]
    exact h₁
  | null _ =>
    rw [requests, Request.applyAll_singleton, Emitter.apply_plain_push]
    exact h₁
  | load type index => exact Emitter.applyAll_load h₁
  | convert type operand =>
    obtain ⟨e₂, h₂, h₁⟩ := bind_eq_ok.mp h₁
    rw [requests, Request.applyAll_append, applyAll_generate h₂, ok_bind]
    exact Emitter.applyAll_cast h₁
  | dup type =>
    rw [requests, Request.applyAll_singleton, Emitter.apply_dup]
    exact h₁
  | compare op left right =>
    obtain ⟨e₂, h₂, h₁⟩ := bind_eq_ok.mp h₁
    obtain ⟨e₃, h₃, h₁⟩ := bind_eq_ok.mp h₁
    have hleft := applyAll_generate h₂
    have hright := applyAll_generate h₃
    rw [requests, Request.applyAll_append, Request.applyAll_append, hleft, ok_bind,
      ← size_applyAll_requests hleft, hright, ok_bind, ← size_applyAll_requests hright]
    exact applyAll_boolean (fun _ _ => Emitter.applyAll_compare) h₁
  | negate operand =>
    obtain ⟨e₂, h₂, h₁⟩ := bind_eq_ok.mp h₁
    have hoperand := applyAll_generate h₂
    rw [requests, Request.applyAll_append, hoperand, ok_bind, ← size_applyAll_requests hoperand]
    exact applyAll_boolean (fun _ _ hb => (Request.applyAll_singleton _ _).trans hb) h₁
  | call ref arguments =>
    obtain ⟨e₂, h₂, h₁⟩ := bind_eq_ok.mp h₁
    rw [requests, Request.applyAll_append, applyAll_generateAll h₂, ok_bind,
      Request.applyAll_singleton]
    exact h₁

theorem applyAll_generateAll {xs : List Expression} {e e' : Emitter}
    (h : generateAll xs e = .ok e') :
    Request.applyAll (requestsAll xs e.labels.size) e = .ok e' := by
  match xs with
  | [] => exact h
  | x :: xs =>
    rw [generateAll] at h
    obtain ⟨e₁, h₁, h⟩ := bind_eq_ok.mp h
    have hx := applyAll_generate h₁
    rw [requestsAll, Request.applyAll_append, hx, ok_bind, ← size_applyAll_requests hx]
    exact applyAll_generateAll h

end

end Expression

/-- **An operation that goes through does what its requests do.** -/
theorem Operation.apply_requests {o : Operation} {e e' : Emitter} (h : o.apply e = .ok e') :
    Request.applyAll (o.requests e) e = .ok e' := by
  have single {r : Request} (hr : r.apply e = .ok e') : Request.applyAll [r] e = .ok e' :=
    (Request.applyAll_singleton r e).trans hr
  cases o with
  | push literal => exact single ((Emitter.apply_literal ..).trans h)
  | pushNull | dup | dup2 => exact single ((Emitter.apply_plain_push ..).trans h)
  | pushDefault type => exact single (Emitter.apply_default h)
  | cast source target => exact Emitter.applyAll_cast h
  | pop | pop2 | ifZero | ifNull | ifNonNull | goto | newLabel | newDebugLabel | mark | visitLocal
  | visitLine =>
    exact single h
  | ifCompare type op target => exact Emitter.applyAll_compare h
  | markNew =>
    obtain ⟨⟨l, e₁⟩, h₁, h⟩ := bind_eq_ok.mp h
    obtain ⟨e₂, h₂, h₁⟩ := bind_eq_ok.mp h₁
    cases h₁
    cases h
    rw [requests, Request.applyAll_cons, Request.apply, ok_bind, Request.applyAll_singleton]
    exact h₂
  | loadThis =>
    simp only [apply, Emitter.loadThis] at h
    split at h
    · cases h
    · exact single ((Emitter.apply_plain_push ..).trans h)
  | loadLocal index type => exact Emitter.applyAll_load h
  | newInstance type =>
    cases type with
    | object name => exact single ((Emitter.apply_pooled_push ..).trans h)
    | _ => cases h
  | invokeConstructor owner m =>
    cases owner with
    | object name => exact single h
    | _ => cases h
  | invokeStatic ref => exact single h
  | returnValue =>
    simp only [apply, Emitter.returnValue] at h
    split at h
    · cases h
    · exact single h
  | generate x => exact Expression.applyAll_generate h

namespace Operation

def requestsAll : List Operation → Emitter → List Request
  | [], _ => []
  | o :: os, e =>
    match o.apply e with
    | .ok e' => o.requests e ++ requestsAll os e'
    | .error _ => []

theorem applyAll_requests {os : List Operation} {e e' : Emitter} (h : e.applyAll os = .ok e') :
    Request.applyAll (requestsAll os e) e = .ok e' := by
  induction os generalizing e with
  | nil => exact h
  | cons o os ih =>
    obtain ⟨e₁, h₁, h⟩ := bind_eq_ok.mp h
    simp only [requestsAll, h₁]
    rw [Request.applyAll_append, apply_requests h₁, ok_bind, ih h]

end Operation

end StackCode
