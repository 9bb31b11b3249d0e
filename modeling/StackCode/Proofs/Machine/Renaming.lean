import Mathlib.Data.List.Forall2
import Mathlib.Data.Option.Basic
import StackCode.Proofs.Loader.Linking

/-!
# Renamed objects

Two activations that differ in the numbers of their objects only perform an instruction alike, as
long as the renaming never confuses two objects. Nothing but the comparison of references looks at
numbers.
-/

namespace StackCode

theorem rel_getElem? {α β : Type} {R : α → β → Prop} {xs : List α} {ys : List β}
    (h : List.Forall₂ R xs ys) (k : Nat) : Option.Rel R xs[k]? ys[k]? := by
  induction h generalizing k with
  | nil => exact .none
  | cons hx _ ih =>
    cases k with
    | zero => exact .some hx
    | succ k => exact ih k

/-- A renaming pairs each number with one other at most, both ways. -/
def Paired (r : Nat → Nat → Prop) : Prop := ∀ a b c d, r a b → r c d → (a = c ↔ b = d)

namespace Value

def isPlain : Value → Bool
  | object _ => false
  | _ => true

/-- The same number or null, or objects of renamed numbers and the same content. -/
inductive Renames (r : Nat → Nat → Prop) : Value → Value → Prop
  | plain {v : Value} : v.isPlain = true → Renames r v v
  | object {a b : Nat} (content : Content) : r a b →
    Renames r (.object ⟨a, content⟩) (.object ⟨b, content⟩)

variable {r : Nat → Nat → Prop} {v w v' w' : Value}

theorem Renames.mono {r' : Nat → Nat → Prop} (h : v.Renames r w) (hr : ∀ a b, r a b → r' a b) :
    v.Renames r' w := by
  cases h with
  | plain hv => exact .plain hv
  | object content hab => exact .object content (hr _ _ hab)

theorem renames_object {o p : Object} (hc : p.content = o.content) (hr : r o.number p.number) :
    (object o).Renames r (object p) := by
  obtain ⟨b, content⟩ := p
  cases hc
  exact .object o.content hr

theorem Renames.kind? (h : v.Renames r w) : w.kind? = v.kind? := by
  cases h <;> rfl

theorem Renames.eq_of_kind {k : Kind} (h : v.Renames r w) (hv : v.kind? = some k)
    (hk : k ≠ .reference) : w = v := by
  cases h with
  | plain => rfl
  | object => exact absurd (Option.some.inj hv).symm hk

theorem isPlain_of_kind {k : Kind} (hv : v.kind? = some k) (hk : k ≠ .reference) :
    v.isPlain = true := by
  cases v with
  | object => exact absurd (Option.some.inj hv).symm hk
  | _ => rfl

theorem Renames.size (h : v.Renames r w) : w.size = v.size := by
  cases h <;> rfl

theorem Renames.isNull (h : v.Renames r w) : w.isNull = v.isNull := by
  cases h <;> rfl

theorem Renames.int? (h : v.Renames r w) : w.int? = v.int? := by
  cases h <;> rfl

theorem Renames.convert (h : v.Renames r w) (c : Conversion) :
    Value.convert c w = Value.convert c v := by
  cases h with
  | plain => rfl
  | object => cases c <;> rfl

theorem Renames.reduce (h : v.Renames r w) (h' : v'.Renames r w') (s : Reduction) :
    Value.reduce s w w' = Value.reduce s v v' := by
  cases h with
  | plain =>
    cases h' with
    | plain => rfl
    | object => cases s <;> cases v <;> rfl
  | object => cases s <;> rfl

theorem isPlain_of_convert {c : Conversion} (h : Value.convert c v = some w) : w.isPlain = true := by
  cases c <;> cases v <;> cases h <;> rfl

theorem isPlain_ofOrdering (o : Ordering) : (ofOrdering o).isPlain = true := by
  cases o <;> rfl

theorem isPlain_of_reduce {s : Reduction} (h : Value.reduce s v w = some v') :
    v'.isPlain = true := by
  cases s <;> cases v <;> cases w <;> cases h <;> exact isPlain_ofOrdering _

theorem same_objects (o p : Object) : same (object o) (object p) = (o.number == p.number) := rfl

theorem same_object (v : Value) (hv : v.isPlain = true) (o : Object) :
    v.same (.object o) = false ∧ Value.same (.object o) v = false := by
  cases v <;> first | exact ⟨rfl, rfl⟩ | cases hv

theorem Renames.same (hr : Paired r) (h : v.Renames r w) (h' : v'.Renames r w') :
    w.same w' = v.same v' := by
  cases h with
  | plain hv =>
    cases h' with
    | plain => rfl
    | object => rw [(same_object v hv _).1, (same_object v hv _).1]
  | object content hab =>
    cases h' with
    | plain hv => rw [(same_object v' hv _).2, (same_object v' hv _).2]
    | object content' hcd =>
      rw [same_objects, same_objects, Bool.eq_iff_iff, beq_iff_eq, beq_iff_eq]
      exact (hr _ _ _ _ hab hcd).symm

end Value

/-! ## Stacks -/

namespace Stack

structure Renames (r : Nat → Nat → Prop) (s t : Stack) : Prop where
  values : List.Forall₂ (Value.Renames r) s.values t.values
  slots : t.slots = s.slots
  limit : t.limit = s.limit

variable {r : Nat → Nat → Prop} {s t : Stack} {v w : Value}

theorem Renames.mono {r' : Nat → Nat → Prop} (h : s.Renames r t) (hr : ∀ a b, r a b → r' a b) :
    s.Renames r' t :=
  ⟨h.values.imp fun _ _ hv => hv.mono hr, h.slots, h.limit⟩

theorem renames_empty (limit : Nat) : (empty limit).Renames r (empty limit) := ⟨.nil, rfl, rfl⟩

theorem Renames.push (h : s.Renames r t) (hv : v.Renames r w) :
    Agrees (Renames r) (s.push v) (t.push w) := by
  simp only [Stack.push, h.slots, h.limit, hv.size]
  split
  · exact .ok ⟨.cons hv h.values, rfl, rfl⟩
  · exact .error _

theorem Renames.pop (h : s.Renames r t) (pc : Nat) :
    Agrees (fun p q => p.1.Renames r q.1 ∧ p.2.Renames r q.2) (s.pop pc) (t.pop pc) := by
  obtain ⟨vs, slots, limit⟩ := s
  obtain ⟨ws, slots', limit'⟩ := t
  obtain ⟨hvalues, rfl, rfl⟩ := h
  cases hvalues with
  | nil => exact .error _
  | cons hv hvs => exact .ok ⟨hv, hvs, by rw [hv.size], rfl⟩

theorem Renames.popAs {α β : Type} {R : α → β → Prop} (h : s.Renames r t) (pc : Nat) (k : Kind)
    {view : Value → Option α} {view' : Value → Option β}
    (hview : ∀ v w, v.Renames r w → Option.Rel R (view v) (view' w)) :
    Agrees (fun p q => R p.1 q.1 ∧ p.2.Renames r q.2) (s.popAs pc k view) (t.popAs pc k view') := by
  refine (h.pop pc).bind fun ⟨v, s'⟩ ⟨w, t'⟩ ⟨hv, hst⟩ => ?_
  have hrel := hview v w hv
  cases hx : view v with
  | some a =>
    cases hy : view' w with
    | some b =>
      rw [hx, hy] at hrel
      cases hrel with
      | some hab => simp only [hx, hy]; exact .ok ⟨hab, hst⟩
    | none => rw [hx, hy] at hrel; cases hrel
  | none =>
    cases hy : view' w with
    | some b => rw [hx, hy] at hrel; cases hrel
    | none => simp only [hx, hy, hv.kind?]; exact .error _

theorem Renames.popInt (h : s.Renames r t) (pc : Nat) :
    Agrees (fun p q => p.1 = q.1 ∧ p.2.Renames r q.2) (s.popInt pc) (t.popInt pc) := by
  refine h.popAs pc .int fun v w hv => ?_
  rw [hv.int?]
  cases v.int? with
  | none => exact .none
  | some i => exact .some rfl

theorem Renames.popKind (h : s.Renames r t) (pc : Nat) (k : Kind) :
    Agrees (fun p q => p.1.Renames r q.1 ∧ p.2.Renames r q.2) (s.popKind pc k) (t.popKind pc k) := by
  refine h.popAs pc k fun v w hv => ?_
  rw [hv.kind?]
  split
  · exact .some hv
  · exact .none

theorem Renames.popReference (h : s.Renames r t) (pc : Nat) :
    Agrees (fun p q => p.1.isNone = q.1.isNone ∧ p.2.Renames r q.2) (s.popReference pc)
      (t.popReference pc) := by
  refine h.popAs (R := fun (o p : Option Object) => o.isNone = p.isNone) pc .reference
    fun v w hv => ?_
  cases hv with
  | plain => cases v <;> first | exact .none | exact .some rfl
  | object => exact .some rfl

theorem Renames.popMany (h : s.Renames r t) (pc n : Nat) {vs ws : List Value}
    (hv : List.Forall₂ (Value.Renames r) vs ws) :
    Agrees (fun p q => List.Forall₂ (Value.Renames r) p.1 q.1 ∧ p.2.Renames r q.2)
      (s.popMany pc n vs) (t.popMany pc n ws) := by
  induction n generalizing s t vs ws with
  | zero => exact .ok ⟨hv, h⟩
  | succ n ih => exact (h.pop pc).bind fun _ _ ⟨hx, hst⟩ => ih hst (.cons hx hv)

end Stack

/-! ## Activations and actions -/

structure Activation.Renames (r : Nat → Nat → Prop) (a b : Activation) : Prop where
  code : b.code = a.code
  method : b.method = a.method
  pc : b.pc = a.pc
  locals : List.Forall₂ (Value.Renames r) a.locals.toList b.locals.toList
  stack : a.stack.Renames r b.stack

/-- The same action on renamed values. A method of the host that is called does nothing. -/
inductive Action.Renames (r : Nat → Nat → Prop) : Action → Action → Prop
  | proceed {s t : Stack} : s.Renames r t → Renames r (.proceed s) (.proceed t)
  | pushLiteral {s t : Stack} (text : String) : s.Renames r t →
    Renames r (.pushLiteral s text) (.pushLiteral t text)
  | pushInstance {s t : Stack} (c : ClassIdentity) : s.Renames r t →
    Renames r (.pushInstance s c) (.pushInstance t c)
  | jump {s t : Stack} (l : Label) : s.Renames r t → Renames r (.jump s l) (.jump t l)
  | call {s t : Stack} {vs ws : List Value} (d : MethodDefinition) : s.Renames r t →
    d.Ordinary → List.Forall₂ (Value.Renames r) vs ws → Renames r (.call s d vs) (.call t d ws)
  | leave {v w : Option Value} : Option.Rel (Value.Renames r) v w →
    Renames r (.leave v) (.leave w)

namespace Machine

variable {r : Nat → Nat → Prop} {m : Machine} {a b : Activation}

section
variable {s t : Stack} {x y : Except Fault Stack}

theorem proceed_renames (h : Agrees (Stack.Renames r) x y) :
    Agrees (Action.Renames r) (do return .proceed (← x)) (do return .proceed (← y)) :=
  h.bind fun _ _ hs => .ok (.proceed hs)

theorem branchIf_renames (h : s.Renames r t) (condition : Bool) (l : Label) :
    (branchIf condition s l).Renames r (branchIf condition t l) := by
  cases condition with
  | false => exact .proceed h
  | true => exact .jump l h

theorem push_renames {v w : Value} (h : s.Renames r t) (hv : v.Renames r w) :
    Agrees (Action.Renames r) (do return .proceed (← s.push v)) (do return .proceed (← t.push w)) :=
  proceed_renames (h.push hv)

end

theorem ordinary_of_loaded (hl : m.loader.Ordinary) {ref : MethodRef} {sort : ReferenceSort}
    {d : MethodDefinition} (h : m.loader.loadedMethod? ref.owner ref.method sort = some d) :
    d.Ordinary :=
  (Loader.AllMethods.loadedMethod? hl h).1

theorem load_renames (h : a.Renames r b) (index : UInt16) :
    Agrees (Action.Renames r) (load a index) (load b index) := by
  simp only [load, h.code, h.pc]
  cases a.code.constant? index with
  | none => exact .error _
  | some c =>
    cases c with
    | int | float | long | double => exact push_renames h.stack (.plain rfl)
    | string text => exact .ok (.pushLiteral text h.stack)
    | classRef | method => exact .error _

theorem perform_renames (hr : Paired r) (hl : m.loader.Ordinary) (h : a.Renames r b)
    (i : Instruction) : Agrees (Action.Renames r) (m.perform a i) (m.perform b i) := by
  have hload := load_renames h
  obtain ⟨code, method, pc, locals, stack⟩ := a
  obtain ⟨code', method', pc', locals', stack'⟩ := b
  obtain ⟨rfl, rfl, rfl, hlocals, hstack⟩ := h
  cases i with
  | nop => exact .ok (.proceed hstack)
  | aconstNull | iconst | lconst | fconst | dconst | bipush | sipush =>
    exact push_renames hstack (.plain rfl)
  | ldc index | ldc2 index => exact hload index
  | load kind index =>
    simp only [perform]
    have hlocal := rel_getElem? hlocals index.toNat
    rw [Array.getElem?_toList, Array.getElem?_toList] at hlocal
    generalize locals[index.toNat]? = v at hlocal
    generalize locals'[index.toNat]? = w at hlocal
    cases hlocal with
    | none => exact .error _
    | some hvw => exact push_renames hstack hvw
  | pop => exact (hstack.pop pc').bind fun _ _ ⟨_, ht⟩ => .ok (.proceed ht)
  | pop2 =>
    refine (hstack.pop pc').bind fun ⟨v, s⟩ ⟨w, t⟩ ⟨hv, ht⟩ => ?_
    simp only [hv.size]
    split
    · exact .ok (.proceed ht)
    · exact (ht.pop pc').bind fun _ _ ⟨_, hu⟩ => .ok (.proceed hu)
  | dup => exact (hstack.pop pc').bind fun _ _ ⟨hv, _⟩ => push_renames hstack hv
  | dup2 =>
    refine (hstack.pop pc').bind fun ⟨v, s⟩ ⟨w, t⟩ ⟨hv, ht⟩ => ?_
    simp only [hv.size]
    split
    · exact (ht.push hv).bind fun _ _ hu => push_renames hu hv
    · refine (ht.pop pc').bind fun ⟨x, s⟩ ⟨y, t⟩ ⟨hx, hs⟩ => ?_
      refine (hs.push hx).bind fun _ _ h₁ => (h₁.push hv).bind fun _ _ h₂ => ?_
      exact (h₂.push hx).bind fun _ _ h₃ => push_renames h₃ hv
  | convert c =>
    refine (hstack.popAs pc' c.source fun v w hv => ?_).bind fun ⟨v, s⟩ ⟨w, t⟩ ⟨hv, ht⟩ =>
      push_renames ht hv
    rw [hv.convert c]
    cases hc : Value.convert c v with
    | none => exact .none
    | some x => exact .some (.plain (Value.isPlain_of_convert hc))
  | reduce s =>
    refine (hstack.popKind pc' s.operand).bind fun ⟨y, s₁⟩ ⟨y', t₁⟩ ⟨hy, h₁⟩ => ?_
    refine (h₁.popAs pc' s.operand fun x x' hx => ?_).bind fun _ _ ⟨hv, h₂⟩ => push_renames h₂ hv
    rw [hx.reduce hy s]
    cases hs : Value.reduce s x y with
    | none => exact .none
    | some v => exact .some (.plain (Value.isPlain_of_reduce hs))
  | ifZero op target =>
    refine (hstack.popInt pc').bind fun ⟨v, s⟩ ⟨w, t⟩ ⟨hv, ht⟩ => ?_
    cases hv
    exact .ok (branchIf_renames ht _ _)
  | ifInt op target =>
    refine (hstack.popInt pc').bind fun ⟨y, s₁⟩ ⟨y', t₁⟩ ⟨hy, h₁⟩ => ?_
    refine (h₁.popInt pc').bind fun ⟨x, s₂⟩ ⟨x', t₂⟩ ⟨hx, h₂⟩ => ?_
    cases hy
    cases hx
    exact .ok (branchIf_renames h₂ _ _)
  | ifSame op target =>
    refine (hstack.pop pc').bind fun ⟨y, s₁⟩ ⟨y', t₁⟩ ⟨hy, h₁⟩ => ?_
    refine (h₁.pop pc').bind fun ⟨x, s₂⟩ ⟨x', t₂⟩ ⟨hx, h₂⟩ => ?_
    simp only [hx.kind?, hy.kind?, hx.same hr hy]
    refine Agrees.bind (R := fun _ _ => True) ?_ fun _ _ _ =>
      Agrees.bind (R := fun _ _ => True) ?_ fun _ _ _ => ?_
    · exact .refl (fun _ => trivial) _
    · exact .refl (fun _ => trivial) _
    · cases op with
      | eq | ne => exact .ok (branchIf_renames h₂ _ _)
      | lt | le | gt | ge => exact .error _
  | ifNull target | ifNonNull target =>
    refine (hstack.popReference pc').bind fun ⟨o, s⟩ ⟨p, t⟩ ⟨ho, ht⟩ => ?_
    simp only [← Option.not_isNone, ho]
    exact .ok (branchIf_renames ht _ _)
  | goto target => exact .ok (.jump target hstack)
  | new index =>
    simp only [perform]
    split
    · split
      · exact .ok (.pushInstance _ hstack)
      · exact .error _
    · exact .error _
  | invokeSpecial index =>
    refine (Agrees.refl (R := Eq) (fun _ => rfl) _).bind fun ref _ href => ?_
    cases href
    refine (hstack.popMany pc' _ .nil).bind fun ⟨vs, s⟩ ⟨ws, t⟩ ⟨hvs, ht⟩ => ?_
    refine (ht.pop pc').bind fun ⟨v, s₁⟩ ⟨w, t₁⟩ ⟨hv, h₁⟩ => ?_
    simp only [hv.isNull]
    split
    · exact .error _
    · cases hd : m.specialMethod ref with
      | ok d =>
        exact .ok (.call d h₁ (ordinary_of_loaded hl (specialMethod_eq_ok.mp hd)) (.cons hv hvs))
      | error e => exact .error _
  | invokeStatic index =>
    refine (Agrees.refl (R := Eq) (fun _ => rfl) _).bind fun ref _ href => ?_
    cases href
    refine (hstack.popMany pc' _ .nil).bind fun ⟨vs, s⟩ ⟨ws, t⟩ ⟨hvs, ht⟩ => ?_
    cases hd : m.staticMethod ref with
    | ok d => exact .ok (.call d ht (ordinary_of_loaded hl (staticMethod_eq_ok.mp hd).1) hvs)
    | error e => exact .error _
  | leave kind =>
    cases kind with
    | none => exact .ok (.leave .none)
    | some kind => exact (hstack.pop pc').bind fun _ _ ⟨hv, _⟩ => .ok (.leave (.some hv))

end Machine

end StackCode
