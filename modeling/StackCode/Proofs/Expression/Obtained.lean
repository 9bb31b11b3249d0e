import StackCode.Emitter.Misuse
import StackCode.Proofs.Expression.Generation

/-!
# Expressions of slots of any type

A local variable may be described with a type that has no values, and its expression is given
unchecked. No other builder makes an operand of such an expression. It alone cannot be emitted.
-/

namespace StackCode

namespace Expression

/-- What can be had from the builders and from local variables of any type. -/
inductive Obtained : Expression → Prop
  | constant (l : Literal) : Obtained (.constant l)
  | null {type : Descriptor} {x : Expression} : nullOf type = .ok x → Obtained x
  | slot (v : LocalVariable) : Obtained v.expression
  | dup {type : Descriptor} {x : Expression} : copying type = .ok x → Obtained x
  | convert {operand x : Expression} {type : Descriptor} : Obtained operand →
      operand.convertTo type = .ok x → Obtained x
  | compare {op : Comparison} {left right x : Expression} : Obtained left → Obtained right →
      comparing op left right = .ok x → Obtained x
  | negate {operand x : Expression} : Obtained operand → operand.negated = .ok x → Obtained x
  | call {ref : MethodRef} {arguments : List Expression} {x : Expression} :
      (∀ a ∈ arguments, Obtained a) → calling ref arguments = .ok x → Obtained x

mutual

/-- The type of the first slot, in the order of emission, that is loaded without having values. -/
def unloadable? : Expression → Option Descriptor
  | constant _ | null _ | dup _ => none
  | load type _ => if type.isValueType then none else some type
  | convert _ operand | negate operand => operand.unloadable?
  | compare _ left right => left.unloadable?.or right.unloadable?
  | call _ arguments => unloadableAll? arguments

def unloadableAll? : List Expression → Option Descriptor
  | [] => none
  | x :: xs => x.unloadable?.or (unloadableAll? xs)

end

/-! ## Slots of types without values -/

mutual

theorem Typed.unloadable?_eq_none : ∀ {x : Expression}, x.Typed → x.unloadable? = none
  | constant _, _ | null _, _ | dup _, _ => rfl
  | load _ _, h => if_pos h
  | convert _ operand, h | negate operand, h => Typed.unloadable?_eq_none (x := operand) h.1
  | compare _ _ _, h => Option.or_eq_none_iff.mpr
      ⟨Typed.unloadable?_eq_none h.1, Typed.unloadable?_eq_none h.2.1⟩
  | call _ _, h => TypedAll.unloadableAll?_eq_none h.1

theorem TypedAll.unloadableAll?_eq_none : ∀ {xs : List Expression}, TypedAll xs →
    unloadableAll? xs = none
  | [], _ => rfl
  | _ :: _, h => Option.or_eq_none_iff.mpr
      ⟨Typed.unloadable?_eq_none h.1, TypedAll.unloadableAll?_eq_none h.2⟩

end

theorem Obtained.built_or_slot {x : Expression} (hx : x.Obtained) :
    x.Built ∨ ∃ v : LocalVariable, v.type.isValueType = false ∧ x = v.expression := by
  induction hx with
  | constant l => exact .inl (.constant l)
  | null hx => exact .inl (.null hx)
  | dup hx => exact .inl (.dup hx)
  | slot v =>
    cases hv : v.type.isValueType with
    | true => exact .inl (.slot v hv)
    | false => exact .inr ⟨v, hv, rfl⟩
  | convert _ hx ih =>
    rcases convertTo_eq_ok hx with rfl | ⟨-, -, hnumeric, -⟩
    · exact ih
    · rcases ih with hbuilt | ⟨v, hv, rfl⟩
      · exact .inl (.convert hbuilt hx)
      · obtain ⟨p, hp⟩ := Descriptor.eq_primitive_of_isNumeric hnumeric
        cases (congrArg Descriptor.isValueType hp).symm.trans hv
  | compare _ _ hx ihl ihr =>
    obtain ⟨-, htypes, hvalue, -⟩ := comparing_eq_ok hx
    rcases ihl with hl | ⟨v, hv, rfl⟩
    · rcases ihr with hr | ⟨v, hv, rfl⟩
      · exact .inl (.compare hl hr hx)
      · cases hvalue.symm.trans ((congrArg Descriptor.isValueType htypes).trans hv)
    · cases hvalue.symm.trans hv
  | negate _ hx ih =>
    obtain ⟨-, htype⟩ := negated_eq_ok hx
    rcases ih with hbuilt | ⟨v, hv, rfl⟩
    · exact .inl (.negate hbuilt hx)
    · cases (congrArg Descriptor.isValueType htype).symm.trans hv
  | @call ref arguments x _ hx ih =>
    obtain ⟨-, htypes, -⟩ := calling_eq_ok hx
    refine .inl (.call (fun a ha => ?_) hx)
    rcases ih a ha with hbuilt | ⟨v, hv, rfl⟩
    · exact hbuilt
    · -- an argument is of the type of its parameter, which has values
      have hparam : v.type ∈ ref.method.signature.params :=
        htypes ▸ List.mem_map_of_mem ha
      cases (ref.method.signature.params_isValueType _ hparam).symm.trans hv

theorem Obtained.built {x : Expression} (hx : x.Obtained) (h : x.unloadable? = none) : x.Built := by
  rcases hx.built_or_slot with hbuilt | ⟨v, hv, rfl⟩
  · exact hbuilt
  · simp [LocalVariable.expression, unloadable?, hv] at h

theorem Obtained.eq_slot {x : Expression} (hx : x.Obtained) {type : Descriptor}
    (h : x.unloadable? = some type) :
    ∃ v : LocalVariable, x = v.expression ∧ v.type = type ∧ type.isValueType = false := by
  rcases hx.built_or_slot with hbuilt | ⟨v, hv, rfl⟩
  · cases hbuilt.typed.unloadable?_eq_none.symm.trans h
  · have htype : v.type = type := by
      simpa [LocalVariable.expression, unloadable?, hv] using h
    exact ⟨v, rfl, htype, htype ▸ hv⟩

theorem generate_slot {v : LocalVariable} (h : v.type.isValueType = false) (e : Emitter) :
    v.expression.generate e = .error (.notLoadable v.type) := by
  have hkind : v.type.kind? = none := by
    rw [← Option.not_isSome_iff_eq_none, Descriptor.isSome_kind?, h]
    exact Bool.false_ne_true
  rw [generate_eq]
  simp only [LocalVariable.expression, emission, Emitter.loadLocal, hkind]
  rfl

/-- **Emission fails exactly at slots without values.** Wherever an emitter stands, an expression
that loads no such slot is emitted and raises the height by the size of its type. Any other is the
expression of such a slot by itself, and fails. -/
theorem Obtained.generates_or_fails {x : Expression} (hx : x.Obtained) (e : Emitter) :
    (x.unloadable? = none →
      ∃ e', x.generate e = .ok e' ∧ e'.depth = e.depth.map (· + x.resultType.size)) ∧
    ∀ type, x.unloadable? = some type → x.generate e = .error (.notLoadable type) ∧
      ∃ v : LocalVariable, x = v.expression ∧ v.type = type := by
  refine ⟨fun h => (hx.built h).typed.generates e, fun type h => ?_⟩
  obtain ⟨v, rfl, rfl, hv⟩ := hx.eq_slot h
  exact ⟨generate_slot hv e, v, rfl, rfl⟩

def voidSlot : LocalVariable := ⟨"x", .void, 0, ⟨0⟩, ⟨0⟩⟩

def sevenIsLess : Expression := .compare .lt (.constant (.int 7)) (.constant (.int 8))

def freshEmitter : Emitter := .initial .staticFlag ⟨"f", .nullaryVoid⟩ {}

theorem Obtained.generates_or_fails_voidSlot :
    voidSlot.expression.convertTo .void = .ok voidSlot.expression ∧ voidSlot.expression.Obtained ∧
      voidSlot.expression.generate freshEmitter = .error (.notLoadable .void) ∧
      sevenIsLess.Obtained ∧
      ∃ e, sevenIsLess.generate freshEmitter = .ok e ∧ e.depth = some 1 := by
  have hconverted : voidSlot.expression.convertTo .void = .ok voidSlot.expression := rfl
  have hslot : voidSlot.expression.Obtained := .convert (.slot voidSlot) hconverted
  have hcompared :
      comparing .lt (.constant (.int 7)) (.constant (.int 8)) = .ok sevenIsLess := rfl
  have hless : sevenIsLess.Obtained := .compare (.constant _) (.constant _) hcompared
  exact ⟨hconverted, hslot, ((hslot.generates_or_fails freshEmitter).2 .void rfl).1, hless,
    (hless.generates_or_fails freshEmitter).1 rfl⟩

theorem generate_voidSlot : voidSlot.expression.Obtained ∧
    freshEmitter.depth = some 0 ∧
      voidSlot.expression.generate freshEmitter = .error (.notLoadable .void) :=
  ⟨.slot _, rfl, rfl⟩

end Expression

end StackCode
