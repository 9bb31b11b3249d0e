import StackCode.Proofs.Emitter.Finish

/-!
# What operations ask for

Operations draw their requests from a fixed repertoire: those of `Request.Usual` singly, a load of a
local with the slots it needs, and a load of the receiver. What holds of these and is kept when
requests are put one after the other holds of every emission.
-/

namespace StackCode

/-- The requests that operations make singly. -/
inductive Request.Usual : Request → Prop
  | literal (l : Literal) : Usual l.request
  | null : Usual (.plain .aconstNull 0 1)
  | convert (c : Conversion) : Usual (convertRequest c)
  | reduce (r : Reduction) : Usual (.plain (.reduce r) (2 * r.operand.size) 1)
  | dup : Usual (.plain .dup 0 1)
  | dup2 : Usual (.plain .dup2 0 2)
  | pop : Usual (.plain .pop 1 0)
  | pop2 : Usual (.plain .pop2 2 0)
  | ifZero (op : Comparison) (l : Label) : Usual (zeroRequest op l)
  | ifInt (op : Comparison) (l : Label) : Usual (.branch (.ifInt op l) 2 l)
  | ifSame (op : Comparison) (l : Label) : Usual (.branch (.ifSame op l) 2 l)
  | ifNull (l : Label) : Usual (.branch (.ifNull l) 1 l)
  | ifNonNull (l : Label) : Usual (.branch (.ifNonNull l) 1 l)
  | goto (l : Label) : Usual (.goto l)
  | leave (type : Descriptor) : Usual (.leave type.kind? type.size)
  | newLabel (debugOnly : Bool) : Usual (.newLabel debugOnly)
  | mark (l : Label) : Usual (.mark l)
  | new (name : String) : Usual (.pooled .new (.classRef name) 0 1)
  | special (ref : MethodRef) :
    Usual (.pooled .special (.method ref) (1 + ref.method.signature.argumentSlots)
      ref.method.signature.returns.size)
  | call (ref : MethodRef) : Usual (callRequest ref)
  | visitLocal (entry : LocalVariable) : Usual (.visitLocal entry)
  | visitLine (line : Nat) (start : Label) : Usual (.visitLine line start)

theorem Request.Usual.default (type : Descriptor) : (defaultRequest type).Usual := by
  cases type with
  | primitive p =>
    cases p with
    | long => exact .literal (.long 0)
    | float => exact .literal (.float (.ofInt 0))
    | double => exact .literal (.double (.ofInt 0))
    | boolean | byte | short | char | int => exact .literal (.int 0)
  | _ => exact .null

def thisRequest : Request := .plain (.load .reference 0) 0 1

/-- A property of lists that the repertoire has, and that is kept by putting lists one after the
other. Only the receiver is left out, for not every method has one. -/
structure Request.Hereditary (Q : List Request → Prop) : Prop where
  nil : Q []
  append : ∀ {rs ss : List Request}, Q rs → Q ss → Q (rs ++ ss)
  usual : ∀ {r : Request}, r.Usual → Q [r]
  load : ∀ {type : Descriptor} {kind : Kind} (index : UInt16), type.kind? = some kind →
    Q [.plain (.load kind index) 0 type.size, .reserve index type]

namespace Request.Hereditary

theorem of_forall {P : Request → Prop} (usual : ∀ {r : Request}, r.Usual → P r)
    (load : ∀ {type : Descriptor} {kind : Kind} (index : UInt16), type.kind? = some kind →
      P (.plain (.load kind index) 0 type.size) ∧ P (.reserve index type)) :
    Hereditary fun rs => ∀ r ∈ rs, P r where
  nil r hr := by cases hr
  append h h' r hr := (List.mem_append.mp hr).elim (h r) (h' r)
  usual hu r hr := List.mem_singleton.mp hr ▸ usual hu
  load index hk r hr := by
    simp only [List.mem_cons, List.not_mem_nil, or_false] at hr
    rcases hr with rfl | rfl
    · exact (load index hk).1
    · exact (load index hk).2

variable {Q : List Request → Prop} (h : Hereditary Q)
include h

theorem of_usual {rs : List Request} (hu : ∀ r ∈ rs, r.Usual) : Q rs := by
  induction rs with
  | nil => exact h.nil
  | cons r rs ih =>
    have hr : Q [r] := h.usual (hu r List.mem_cons_self)
    exact h.append hr (ih fun s hs => hu s (List.mem_cons_of_mem r hs))

theorem cast (source target : Descriptor) : Q (castRequests source target) := by
  refine h.of_usual fun r hr => ?_
  unfold castRequests at hr
  split at hr
  · obtain ⟨c, _, rfl⟩ := List.mem_map.mp hr
    exact .convert c
  · cases hr

theorem compare (type : Descriptor) (op : Comparison) (l : Label) :
    Q (compareRequests type op l) := by
  have reduced (r : Reduction) : Q (reducedRequests r op l) :=
    h.append (h.usual (.reduce r)) (h.usual (.ifZero op l))
  cases type with
  | primitive p => cases p <;> first | exact reduced _ | exact h.usual (.ifInt op l)
  | _ => exact h.usual (.ifSame op l)

theorem boolean {branch : List Request} (hb : Q branch) (taken : Bool) (n : Nat) :
    Q (booleanRequests branch taken n) := by
  have hlabels : Q [.newLabel false, .newLabel false] :=
    h.append (h.usual (.newLabel false)) (h.usual (.newLabel false))
  refine h.append (h.append hlabels hb) (h.of_usual fun r hr => ?_)
  simp only [List.mem_cons, List.not_mem_nil, or_false] at hr
  rcases hr with rfl | rfl | rfl | rfl | rfl
  · exact .literal (.bool !taken)
  · exact .goto _
  · exact .mark _
  · exact .literal (.bool taken)
  · exact .mark _

theorem loadLocal (type : Descriptor) (index : UInt16) : Q (loadRequests type index) := by
  unfold loadRequests
  split
  · rename_i kind hk
    exact h.load index hk
  · exact h.nil

mutual

theorem expression (x : Expression) (n : Nat) : Q (x.requests n) := by
  match x with
  | .constant l => exact h.usual (.literal l)
  | .null _ => exact h.usual .null
  | .load type index => exact h.loadLocal type index
  | .dup type =>
    rw [Expression.requests, dupRequest]
    split_ifs
    · exact h.usual .dup2
    · exact h.usual .dup
  | .convert type operand => exact h.append (expression operand n) (h.cast _ _)
  | .compare op left right =>
    exact h.append (h.append (expression left _) (expression right _))
      (h.boolean (h.compare _ op _) true _)
  | .negate operand =>
    exact h.append (expression operand n) (h.boolean (h.usual (.ifZero .ne _)) false _)
  | .call ref arguments => exact h.append (expressions arguments n) (h.usual (.call ref))

theorem expressions (xs : List Expression) (n : Nat) : Q (Expression.requestsAll xs n) := by
  match xs with
  | [] => exact h.nil
  | x :: xs => exact h.append (expression x n) (expressions xs _)

end

theorem operation {o : Operation} (this : o = .loadThis → Q [thisRequest]) (e : Emitter) :
    Q (o.requests e) := by
  cases o with
  | push literal => exact h.usual (.literal literal)
  | pushNull => exact h.usual .null
  | pushDefault type => exact h.usual (.default type)
  | cast source target => exact h.cast source target
  | dup => exact h.usual .dup
  | dup2 => exact h.usual .dup2
  | pop => exact h.usual .pop
  | pop2 => exact h.usual .pop2
  | ifCompare type op target => exact h.compare type op target
  | ifZero op target => exact h.usual (.ifZero op target)
  | ifNull target => exact h.usual (.ifNull target)
  | ifNonNull target => exact h.usual (.ifNonNull target)
  | goto target => exact h.usual (.goto target)
  | newLabel => exact h.usual (.newLabel false)
  | newDebugLabel => exact h.usual (.newLabel true)
  | mark label => exact h.usual (.mark label)
  | markNew => exact h.append (h.usual (.newLabel false)) (h.usual (.mark _))
  | loadThis => exact this rfl
  | loadLocal index type => exact h.loadLocal type index
  | newInstance type =>
    cases type with
    | object name => exact h.usual (.new name)
    | _ => exact h.nil
  | invokeConstructor owner m =>
    cases owner with
    | object name => exact h.usual (.special ⟨name, m⟩)
    | _ => exact h.nil
  | invokeStatic ref => exact h.usual (.call ref)
  | returnValue => exact h.usual (.leave _)
  | visitLocal entry => exact h.usual (.visitLocal entry)
  | visitLine line start => exact h.usual (.visitLine line start)
  | generate x => exact h.expression x _

theorem operations {os : List Operation} {e : Emitter}
    (this : e.access.isStatic = false → Q [thisRequest]) : Q (Operation.requestsAll os e) := by
  induction os generalizing e with
  | nil => exact h.nil
  | cons o os ih =>
    rw [Operation.requestsAll]
    split
    · rename_i e₁ h₁
      have haccess : e₁.access = e.access :=
        congrArg Prod.fst (header_applyAll (Operation.apply_requests h₁))
      refine h.append (h.operation (fun ho => this ?_) e) (ih fun hs => this (haccess ▸ hs))
      rw [ho, Operation.apply, Emitter.loadThis] at h₁
      split at h₁
      · cases h₁
      · rename_i hs
        exact Bool.eq_false_iff.mpr hs
    · exact h.nil

end Request.Hereditary

end StackCode
