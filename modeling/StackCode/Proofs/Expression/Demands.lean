import StackCode.Proofs.Emitter.Finish

/-!
# What the code of an expression asks for

The constants that an expression names are those of its literals and calls, whatever numbers its
labels get. Every label that its code names is marked in it.
-/

namespace StackCode

namespace Expression

mutual

def constants : Expression → List Constant
  | constant l => l.request.constant?.toList
  | null _ | load _ _ | dup _ => []
  | convert _ operand | negate operand => operand.constants
  | compare _ left right => left.constants ++ right.constants
  | call ref arguments => constantsAll arguments ++ [.method ref]

def constantsAll : List Expression → List Constant
  | [] => []
  | x :: xs => x.constants ++ constantsAll xs

end

end Expression

theorem named_intRequest (v : Int32) (b : Bool) : (intRequest v).named b = [] := by
  unfold intRequest
  split_ifs <;> rfl

theorem named_literal (l : Literal) (b : Bool) : l.request.named b = [] := by
  cases l with
  | bool | string => rfl
  | char | int => exact named_intRequest _ b
  | long v =>
    simp only [Literal.request]
    split_ifs <;> rfl
  | float v | double v =>
    simp only [Literal.request]
    split <;> rfl

namespace Request

theorem constants_append (rs ss : List Request) :
    constants (rs ++ ss) = constants rs ++ constants ss := List.filterMap_append

theorem constants_cast (source target : Descriptor) :
    constants (castRequests source target) = [] := by
  unfold castRequests
  split
  · rw [constants, List.filterMap_eq_nil_iff]
    intro r hr
    obtain ⟨c, _, rfl⟩ := List.mem_map.mp hr
    rfl
  · rfl

theorem constants_compare (type : Descriptor) (op : Comparison) (l : Label) :
    constants (compareRequests type op l) = [] := by
  cases type with
  | primitive p => cases p <;> rfl
  | _ => rfl

theorem constants_boolean {branch : List Request} (h : constants branch = []) (taken : Bool)
    (n : Nat) : constants (booleanRequests branch taken n) = [] := by
  rw [booleanRequests, constants_append, constants_append, h]
  rfl

theorem constants_load (type : Descriptor) (index : UInt16) :
    constants (loadRequests type index) = [] := by
  unfold loadRequests
  split <;> rfl

/-- All labels that requests name are marked by them. -/
def Closed (rs : List Request) : Prop :=
  ∀ r ∈ rs, ∀ debugInfo, ∀ l ∈ r.named debugInfo, .mark l ∈ rs

theorem Closed.append {rs ss : List Request} (h : Closed rs) (h' : Closed ss) :
    Closed (rs ++ ss) := by
  intro r hr b l hl
  rcases List.mem_append.mp hr with hr | hr
  · exact List.mem_append_left _ (h r hr b l hl)
  · exact List.mem_append_right _ (h' r hr b l hl)

theorem closed_of_unnamed {rs : List Request} (h : ∀ r ∈ rs, ∀ b, r.named b = []) : Closed rs := by
  intro r hr b l hl
  rw [h r hr b] at hl
  cases hl

theorem closed_boolean {branch : List Request} {taken : Bool} {n : Nat}
    (h : ∀ r ∈ branch, ∀ b, ∀ l ∈ r.named b, l = ⟨n⟩) :
    Closed (booleanRequests branch taken n) := by
  intro r hr b l hl
  have hmarks : .mark ⟨n⟩ ∈ booleanRequests branch taken n ∧
      .mark ⟨n + 1⟩ ∈ booleanRequests branch taken n := by
    simp [booleanRequests]
  simp only [booleanRequests, List.mem_append, List.mem_cons, List.not_mem_nil, or_false] at hr
  rcases hr with ((rfl | rfl) | hr) | rfl | rfl | rfl | rfl | rfl
  · cases hl
  · cases hl
  · rw [h r hr b l hl]
    exact hmarks.1
  · cases hl
  · rw [List.mem_singleton.mp hl]
    exact hmarks.2
  · cases hl
  · cases hl
  · cases hl

theorem named_compare {type : Descriptor} {op : Comparison} {l k : Label} {r : Request} {b : Bool}
    (hr : r ∈ compareRequests type op l) (hk : k ∈ r.named b) : k = l := by
  have single {s : Request} (hs : s.named b = [l]) (hr : r ∈ [s]) : k = l := by
    rw [List.mem_singleton.mp hr, hs] at hk
    exact List.mem_singleton.mp hk
  have reduced {s : Reduction} (hr : r ∈ reducedRequests s op l) : k = l := by
    rcases List.mem_cons.mp hr with rfl | hr
    · cases hk
    · exact single rfl hr
  cases type with
  | primitive p => cases p <;> first | exact single rfl hr | exact reduced hr
  | _ => exact single rfl hr

end Request

mutual

theorem Expression.constants_requests (x : Expression) (n : Nat) :
    Request.constants (x.requests n) = x.constants := by
  match x with
  | .constant l =>
    rw [Expression.requests, Expression.constants, Request.constants, List.filterMap_cons]
    cases l.request.constant? <;> rfl
  | .null _ => rfl
  | .load type index => exact Request.constants_load type index
  | .dup type =>
    rw [Expression.requests, dupRequest]
    split <;> rfl
  | .convert type operand =>
    rw [Expression.requests, Request.constants_append, operand.constants_requests,
      Request.constants_cast, List.append_nil, Expression.constants]
  | .compare op left right =>
    rw [Expression.requests, Request.constants_append, Request.constants_append,
      left.constants_requests, right.constants_requests,
      Request.constants_boolean (Request.constants_compare ..), List.append_nil,
      Expression.constants]
  | .negate operand =>
    rw [Expression.requests, Request.constants_append, operand.constants_requests,
      Request.constants_boolean (by rfl), List.append_nil, Expression.constants]
  | .call ref arguments =>
    rw [Expression.requests, Request.constants_append, Expression.constants_requestsAll arguments,
      Expression.constants]
    rfl

theorem Expression.constants_requestsAll (xs : List Expression) (n : Nat) :
    Request.constants (Expression.requestsAll xs n) = Expression.constantsAll xs := by
  match xs with
  | [] => rfl
  | x :: xs =>
    rw [Expression.requestsAll, Request.constants_append, x.constants_requests,
      Expression.constants_requestsAll xs, Expression.constantsAll]

end

mutual

theorem Expression.closed_requests (x : Expression) (n : Nat) : Request.Closed (x.requests n) := by
  match x with
  | .constant l =>
    refine Request.closed_of_unnamed fun r hr b => ?_
    rw [List.mem_singleton.mp hr]
    exact named_literal l b
  | .null _ =>
    refine Request.closed_of_unnamed fun r hr b => ?_
    rw [List.mem_singleton.mp hr]
    rfl
  | .load type index =>
    refine Request.closed_of_unnamed fun r hr b => ?_
    simp only [Expression.requests, loadRequests] at hr
    split at hr
    · rcases List.mem_cons.mp hr with rfl | hr
      · rfl
      · rw [List.mem_singleton.mp hr]
        rfl
    · cases hr
  | .dup type =>
    refine Request.closed_of_unnamed fun r hr b => ?_
    rw [List.mem_singleton.mp hr, dupRequest]
    split <;> rfl
  | .convert type operand =>
    refine (operand.closed_requests n).append (Request.closed_of_unnamed fun r hr b => ?_)
    unfold castRequests at hr
    split at hr
    · obtain ⟨c, _, rfl⟩ := List.mem_map.mp hr
      rfl
    · cases hr
  | .compare op left right =>
    exact ((left.closed_requests n).append (right.closed_requests _)).append
      (Request.closed_boolean fun r hr b l hl => Request.named_compare hr hl)
  | .negate operand =>
    refine (operand.closed_requests n).append (Request.closed_boolean fun r hr b l hl => ?_)
    rw [List.mem_singleton.mp hr] at hl
    exact List.mem_singleton.mp hl
  | .call ref arguments =>
    refine (Expression.closed_requestsAll arguments n).append
      (Request.closed_of_unnamed fun r hr b => ?_)
    rw [List.mem_singleton.mp hr]
    rfl

theorem Expression.closed_requestsAll (xs : List Expression) (n : Nat) :
    Request.Closed (Expression.requestsAll xs n) := by
  match xs with
  | [] => exact fun r hr => by cases hr
  | x :: xs => exact (x.closed_requests n).append (Expression.closed_requestsAll xs _)

end

end StackCode
