import StackCode.Expression.Node
import StackCode.Proofs.Expression.Obtained
import StackCode.Proofs.Expression.WrapAround
import StackCode.Proofs.Machine.Life

/-!
# Constant expressions

An expression is constant if no part of it looks at locals, at the stack or at what a method returns.
Two machines, whatever they ran before, then give it values alike: texts that one of them loads are
paired with those that the other loads, so comparisons of references come out the same. What is left
to differ is the number of a text.
-/

namespace StackCode

/-! ## Parts -/

namespace Expression

inductive PartOf (y : Expression) : Expression → Prop
  | self : PartOf y y
  | converted {operand : Expression} (type : Descriptor) : PartOf y operand →
    PartOf y (.convert type operand)
  | left {l : Expression} (op : Comparison) (r : Expression) : PartOf y l → PartOf y (.compare op l r)
  | right {r : Expression} (op : Comparison) (l : Expression) : PartOf y r →
    PartOf y (.compare op l r)
  | negated {operand : Expression} : PartOf y operand → PartOf y (.negate operand)
  | argument {a : Expression} {arguments : List Expression} (ref : MethodRef) : a ∈ arguments →
    PartOf y a → PartOf y (.call ref arguments)

/-- Whether an expression itself, apart from its operands, looks at the state of a run. -/
def looksAround : Expression → Bool
  | load _ _ | dup _ | call _ _ => true
  | _ => false

theorem PartOf.looksAround {x y : Expression} (h : y.PartOf x) (hx : x.isConstant = true) :
    y.looksAround = false := by
  induction h with
  | self =>
    cases y with
    | load | dup | call => cases hx
    | _ => rfl
  | converted type _ ih => exact ih hx
  | left op r _ ih => exact ih (Bool.and_eq_true_iff.mp hx).1
  | right op l _ ih => exact ih (Bool.and_eq_true_iff.mp hx).2
  | negated _ ih => exact ih hx
  | argument ref ha _ ih => cases hx

theorem isConstant_of_parts {x : Expression}
    (h : ∀ y : Expression, y.PartOf x → y.looksAround = false) : x.isConstant = true := by
  match x with
  | .constant _ | .null _ => rfl
  | .load _ _ | .dup _ | .call _ _ => exact absurd (h _ .self) nofun
  | .convert type operand =>
    exact isConstant_of_parts (x := operand) fun y hy => h y (.converted type hy)
  | .compare op left right =>
    exact Bool.and_eq_true_iff.mpr ⟨isConstant_of_parts fun y hy => h y (.left op right hy),
      isConstant_of_parts fun y hy => h y (.right op left hy)⟩
  | .negate operand => exact isConstant_of_parts (x := operand) fun y hy => h y (.negated hy)

theorem unloadable?_of_isConstant {x : Expression} (h : x.isConstant = true) :
    x.unloadable? = none := by
  match x with
  | .constant _ | .null _ => rfl
  | .convert _ operand | .negate operand => exact unloadable?_of_isConstant (x := operand) h
  | .compare _ left right =>
    obtain ⟨hl, hr⟩ := Bool.and_eq_true_iff.mp h
    exact Option.or_eq_none_iff.mpr ⟨unloadable?_of_isConstant hl, unloadable?_of_isConstant hr⟩

theorem suits_of_isConstant {x : Expression} (h : x.isConstant = true) (locals : Array Value)
    (kinds : List (Option Kind)) : x.Suits locals kinds := by
  match x with
  | .constant _ | .null _ => trivial
  | .convert _ operand | .negate operand =>
    exact suits_of_isConstant (x := operand) h locals kinds
  | .compare _ left right =>
    obtain ⟨hl, hr⟩ := Bool.and_eq_true_iff.mp h
    exact ⟨suits_of_isConstant hl locals kinds, suits_of_isConstant hr locals _⟩

end Expression

/-! ## Operations on values that are alike -/

section
variable {r : Nat → Nat → Prop} {v w v' w' : Value}

theorem Descriptor.kind?_eq_reference {d : Descriptor} :
    d.kind? = some .reference ↔ d.isReference = true := by
  cases d with
  | primitive p => cases p <;> exact ⟨nofun, nofun⟩
  | object | array => exact ⟨fun _ => rfl, fun _ => rfl⟩
  | _ => exact ⟨nofun, nofun⟩

theorem Primitive.kind_ne_reference (p : Primitive) : p.kind ≠ .reference := by
  cases p <;> nofun

theorem Value.cast?_of_kind {s t : Primitive} (hs : s.isNumeric = true) (ht : t.isNumeric = true)
    (hne : s ≠ t) (hv : v.kind? = some s.kind) :
    ∃ w, v.cast? (.primitive s) (.primitive t) = some w ∧ w.kind? = some t.kind := by
  rw [← convertAll?_conversions hs ht hne v]
  exact convertAll?_of_kind (converts_conversions hs ht) hv

theorem Comparison.decide?_renames (op : Comparison) {k : Kind} (hr : Paired r)
    (hv : v.kind? = some k) (hv' : v'.kind? = some k) (h : v.Renames r w) (h' : v'.Renames r w') :
    op.decide? w w' = op.decide? v v' := by
  by_cases hk : k = .reference
  · subst hk
    rw [Machine.decide?_references hv hv', Machine.decide?_references (h.kind?.trans hv)
      (h'.kind?.trans hv'), h.same hr h']
  · rw [h.eq_of_kind hv hk, h'.eq_of_kind hv' hk]

end

/-! ## Machines with other histories -/

def Machine.shared (m m' : Machine) (a b : Nat) : Prop :=
  ∃ text, m.literals.lookup text = some a ∧ m'.literals.lookup text = some b

theorem Machine.flip_shared (m m' : Machine) : flip (m.shared m') = m'.shared m := by
  funext a b
  simp only [flip, shared, and_comm]

theorem Machine.Numbered.follows_shared {m : Machine} (h : m.Numbered) (m' : Machine) :
    Follows (m.shared m') m m' where
  numbered := h
  below := by
    rintro a b ⟨text, ha, -⟩
    exact h.below text a ha
  single := by
    rintro a b c ⟨text, ha, hb⟩ ⟨text', ha', hc⟩
    obtain rfl := h.distinct text text' a ha ha'
    exact Option.some.inj (hb.symm.trans hc)
  literals := by
    intro text a b ha
    constructor
    · rintro ⟨text', ha', hb⟩
      rwa [h.distinct text text' a ha ha']
    · exact fun hb => ⟨text, ha, hb⟩

namespace Machine

variable {m m' : Machine} {r : Nat → Nat → Prop}

theorem Numbered.mirrors (h : m.Numbered) (h' : m'.Numbered) : m.Mirrors (m.shared m') m' :=
  ⟨h.follows_shared m', m.flip_shared m' ▸ h'.follows_shared m⟩

end Machine

/-- Both evaluations end with a value of a kind, alike but for a renaming that has grown. -/
def Evaluation.Mirrors (r : Nat → Nat → Prop) (kind : Option Kind) (x y : Evaluation Value) : Prop :=
  ∃ m v m' w r', x = .value m v ∧ y = .value m' w ∧ v.kind? = kind ∧
    (∀ a b, r a b → r' a b) ∧ m.Mirrors r' m' ∧ v.Renames r' w

namespace Evaluation

variable {r : Nat → Nat → Prop} {m m' : Machine} {x y : Evaluation Value} {kind kind' : Option Kind}

theorem mirrors_plain (h : m.Mirrors r m') {v : Value} (hkind : v.kind? = kind)
    (hv : v.isPlain = true) : Mirrors r kind (.value m v) (.value m' v) :=
  ⟨m, v, m', v, r, rfl, rfl, hkind, fun _ _ => id, h, .plain hv⟩

theorem mirrors_ofOption (h : m.Mirrors r m') {o o' : Option Value} {v : Value} {k : Kind}
    (ho : o = some v) (ho' : o' = some v) (hkind : v.kind? = some k) (hk : k ≠ .reference) :
    Mirrors r (some k) (ofOption m o) (ofOption m' o') := by
  rw [ho, ho']
  exact mirrors_plain h hkind (Value.isPlain_of_kind hkind hk)

theorem Mirrors.bind {f g : Machine → Value → Evaluation Value} (h : Mirrors r kind x y)
    (hfg : ∀ m v m' w r', v.kind? = kind → (∀ a b, r a b → r' a b) → m.Mirrors r' m' →
      v.Renames r' w → Mirrors r' kind' (f m v) (g m' w)) :
    Mirrors r kind' (x.bind f) (y.bind g) := by
  obtain ⟨m, v, m', w, r', rfl, rfl, hkind, hr, hm, hv⟩ := h
  obtain ⟨n, u, n', u', r'', hx, hy, hkind', hr', hn, hu⟩ := hfg m v m' w r' hkind hr hm hv
  exact ⟨n, u, n', u', r'', hx, hy, hkind', fun a b hab => hr' a b (hr a b hab), hn, hu⟩

theorem mirrors_literal (h : m.Mirrors r m') (l : Literal) :
    Mirrors r l.type.kind? (l.evaluate m) (l.evaluate m') := by
  cases l with
  | string text =>
    exact ⟨_, _, _, _, _, rfl, rfl, rfl, fun _ _ => .inl, h.literal text, Value.renames_object
      (by rw [Machine.literal_content, Machine.literal_content]) (Machine.joined_self r _ _)⟩
  | _ => exact mirrors_plain h rfl rfl

theorem Mirrors.cast {p q : Primitive} (h : Mirrors r (some p.kind) x y)
    (hp : p.isNumeric = true) (hq : q.isNumeric = true) (hne : p ≠ q) :
    Mirrors r (some q.kind)
      (x.bind fun m v => .ofOption m (v.cast? (.primitive p) (.primitive q)))
      (y.bind fun m v => .ofOption m (v.cast? (.primitive p) (.primitive q))) := by
  refine h.bind fun n v n' v' r' hkind _ hn hv => ?_
  obtain ⟨w, hw, hwkind⟩ := Value.cast?_of_kind hp hq hne hkind
  rw [hv.eq_of_kind hkind p.kind_ne_reference]
  exact mirrors_ofOption hn hw hw hwkind q.kind_ne_reference

theorem Mirrors.negate (h : Mirrors r (some .int) x y) :
    Mirrors r (some .int) (x.bind fun m v => .ofOption m (v.bool?.map fun b => Value.ofBool !b))
      (y.bind fun m v => .ofOption m (v.bool?.map fun b => Value.ofBool !b)) := by
  refine h.bind fun n v n' v' r' hkind _ hn hv => ?_
  rw [hv.eq_of_kind hkind nofun]
  cases v <;> cases hkind
  exact mirrors_ofOption hn rfl rfl rfl nofun

theorem Mirrors.decide {k : Kind} {op : Comparison} (h : Mirrors r (some k) x y)
    {f g : Machine → Value → Evaluation Value}
    (hfg : ∀ m v m' w r', m.Mirrors r' m' → Mirrors r' (some k) (f m v) (g m' w))
    (hop : ¬(k = .reference ∧ op.isOrdering = true)) :
    Mirrors r (some .int)
      (x.bind fun m v => (f m v).bind fun m w => .ofOption m ((op.decide? v w).map Value.ofBool))
      (y.bind fun m v => (g m v).bind fun m w => .ofOption m ((op.decide? v w).map Value.ofBool)) := by
  refine h.bind fun n v n' v' r₁ hvk _ hn hv => ?_
  refine (hfg n v n' v' r₁ hn).bind fun n₁ w n₁' w' r₂ hwk hr hn₁ hw => ?_
  obtain ⟨b, hb⟩ := Machine.decide?_of_kind hvk hwk hop
  -- the left values were alike under a smaller renaming
  have hb' := (op.decide?_renames hn₁.paired hvk hwk (hv.mono hr) hw).trans hb
  exact mirrors_ofOption hn₁ (congrArg _ hb) (congrArg _ hb') rfl nofun

end Evaluation

namespace Expression

theorem Typed.mirrors {x : Expression} (hx : x.Typed) (hc : x.isConstant = true)
    {r : Nat → Nat → Prop} {m m' : Machine} (h : m.Mirrors r m') (fuel fuel' : Nat)
    (locals locals' : Array Value) (stack stack' : List Value) :
    Evaluation.Mirrors r x.resultType.kind? (x.evaluate fuel locals m stack)
      (x.evaluate fuel' locals' m' stack') := by
  match x with
  | .constant l =>
    rw [evaluate, evaluate]
    exact Evaluation.mirrors_literal h l
  | .null type =>
    rw [evaluate, evaluate]
    exact Evaluation.mirrors_plain h (Descriptor.kind?_eq_reference.mpr hx).symm rfl
  | .load _ _ | .dup _ | .call _ _ => cases hc
  | .convert type operand =>
    obtain ⟨hoperand, hne, hfrom, hto⟩ := hx
    have hmirrors := hoperand.mirrors (x := operand) hc h fuel fuel' locals locals' stack stack'
    obtain ⟨p, hp⟩ := Descriptor.eq_primitive_of_isNumeric hfrom
    obtain ⟨q, rfl⟩ := Descriptor.eq_primitive_of_isNumeric hto
    rw [hp] at hne hfrom hmirrors
    rw [evaluate, evaluate, hp]
    exact hmirrors.cast hfrom hto fun heq => hne (congrArg _ heq)
  | .compare op left right =>
    obtain ⟨hleft, hright, htypes, hvalue, hop⟩ := hx
    obtain ⟨hcl, hcr⟩ := Bool.and_eq_true_iff.mp hc
    obtain ⟨k, hk⟩ := hleft.kind
    have hmirrors := hleft.mirrors hcl h fuel fuel' locals locals' stack stack'
    rw [hk] at hmirrors
    have hop' : ¬(k = .reference ∧ op.isOrdering = true) := by
      rintro ⟨rfl, hordering⟩
      exact hop ⟨Descriptor.kind?_eq_reference.mp hk, hordering⟩
    rw [evaluate, evaluate]
    refine hmirrors.decide (fun n v n' v' r' hn => ?_) hop'
    rw [← hk, htypes]
    exact hright.mirrors hcr hn fuel fuel' locals locals' (v :: stack) (v' :: stack')
  | .negate operand =>
    obtain ⟨hoperand, htype⟩ := hx
    have hmirrors := hoperand.mirrors (x := operand) hc h fuel fuel' locals locals' stack stack'
    rw [htype] at hmirrors
    rw [evaluate, evaluate]
    exact hmirrors.negate

/-- Wherever an emitter of known height puts the expression, and whatever the machine ran before, the
code pushes the value, but for the numbers of objects. -/
def AlwaysPushes (x : Expression) (w : Value) : Prop :=
  ∀ (access : Access) (method : Method) (options : EmitOptions) (before : List Operation)
      (e : Emitter) (d : Nat),
    (Emitter.initial access method options).applyAll before = .ok e → e.depth = some d →
    ∃ e', x.generate e = .ok e' ∧
      ∀ (last : Emitter) (after : List Operation) (code : Code), e'.applyAll after = .ok last →
        last.finish = .ok code →
        ∀ (c : Configuration) (values : List Value), c.machine.Lived → c.active.code = code →
          c.active.pc = e.instructions.size → c.active.stack = .holding values code.maxStack →
          slotsOf values = d →
          ∃ m v, w.Renames (fun _ _ => True) v ∧
            (Progress.running c).Leads (.running { c with
              machine := m
              active := { c.active with
                pc := e'.instructions.size
                stack := .holding (v :: values) code.maxStack } })

theorem Typed.alwaysPushes {x : Expression} (hx : x.Typed)
    (hsuits : ∀ locals kinds, x.Suits locals kinds) {w : Value}
    (h : ∀ (m : Machine) (locals : Array Value) (stack : List Value), m.Numbered →
      ∃ m' v, x.evaluate 0 locals m stack = .value m' v ∧ w.Renames (fun _ _ => True) v) :
    x.AlwaysPushes w := by
  intro access method options before e d he hd
  have hs : e.Sound := (Emitter.sound_initial access method options).applyAll he
  obtain ⟨e', hg, -⟩ := hx.generates e
  refine ⟨e', hg, fun last after code hl hf c values hlived hcode hpc hstack hslots => ?_⟩
  obtain ⟨m', v, heval, hv⟩ := h c.machine c.active.locals values hlived.numbered
  exact ⟨m', v, hv, hx.leads_value hs hd hg hl hf hcode hpc hstack hslots (hsuits _ _) heval⟩

/-- **Constancy is sound and complete.** A node is flagged constant exactly if no part of its
expression is a local, a copy of the top of the stack or a call. The code of a constant expression
never fails and has one value, of the kind of its type: it is the same for all locals and stacks,
wherever an emitter puts the code, for all loaders and whatever a machine ran before, with texts for
their literals. -/
theorem constancy (n : Node) (hn : n.expression.Obtained) :
    (n.isConstant = true ↔ ∀ y : Expression, y.PartOf n.expression → y.looksAround = false) ∧
    (n.isConstant = true → ∃ w : Value, w.kind? = n.expression.resultType.kind? ∧
      n.expression.AlwaysPushes w) := by
  rw [n.isConstant_eq]
  refine ⟨⟨fun h y hy => hy.looksAround h, isConstant_of_parts⟩, fun h => ?_⟩
  have hx := (hn.built (unloadable?_of_isConstant h)).typed
  -- a machine of any kind will do to say what the value is
  let m₀ := Machine.initial (.initial 0 {}) {} 0
  have hm₀ : m₀.Numbered := Machine.numbered_initial _ _ _
  obtain ⟨m, w, _, _, _, hw, -, hkind, -⟩ := hx.mirrors h (hm₀.mirrors hm₀) 0 0 #[] #[] [] []
  refine ⟨w, hkind, hx.alwaysPushes (suits_of_isConstant h) fun m' locals stack hm' => ?_⟩
  obtain ⟨_, _, n', v, _, hw', hv, -, -, -, hwv⟩ :=
    hx.mirrors h (hm₀.mirrors hm') 0 0 #[] locals [] stack
  cases hw.symm.trans hw'
  exact ⟨n', v, hv, hwv.mono fun _ _ _ => trivial⟩

def otherThanA (text : Expression) : Expression :=
  .negate (.compare .eq (.constant (.string "a")) text)

theorem obtained_otherThanA {text : Expression} (h : text.Obtained)
    (htype : text.resultType = .string) : (otherThanA text).Obtained := by
  have hcompare : comparing .eq (.constant (.string "a")) text =
      .ok (.compare .eq (.constant (.string "a")) text) := by
    simp only [comparing, htype]
    rfl
  exact .negate (.compare (.constant _) h hcompare) rfl

theorem constancy_otherThanA :
    (otherThanA (.constant (.string "b"))).Obtained ∧ (otherThanA (.dup .string)).Obtained ∧
    (¬∀ y : Expression, y.PartOf (otherThanA (.dup .string)) → y.looksAround = false) ∧
    ∃ (w v : Value) (e' last : Emitter) (code : Code) (m : Machine), w.kind? = some .int ∧
      (otherThanA (.constant (.string "b"))).generate
        (.initial .staticFlag ⟨"f", .mk ⟨[], .boolean⟩⟩ {}) = .ok e' ∧
      e'.applyAll [.returnValue] = .ok last ∧ last.finish = .ok code ∧
      w.Renames (fun _ _ => True) v ∧
      (Progress.running ⟨Machine.greeted, .start code none [.null], []⟩).Leads
        (.running ⟨m, { Activation.start code none [.null] with
          pc := e'.instructions.size, stack := .holding [v] code.maxStack }, []⟩) := by
  have hconstant := obtained_otherThanA (.constant (.string "b")) rfl
  have hdup := obtained_otherThanA (@Obtained.dup .string _ rfl) rfl
  refine ⟨hconstant, hdup, fun h => ?_, ?_⟩
  · cases (constancy (.leaf 0 _) hdup).1.mpr h
  · obtain ⟨w, hkind, hpushes⟩ := (constancy (.leaf 0 _) hconstant).2 rfl
    obtain ⟨e', hg, hruns⟩ := hpushes .staticFlag ⟨"f", .mk ⟨[], .boolean⟩⟩ {} [] _ 0 rfl rfl
    obtain ⟨e'', last, code, hg', hl, hf⟩ : ∃ (e' last : Emitter) (code : Code),
        (otherThanA (.constant (.string "b"))).generate
          (.initial .staticFlag ⟨"f", .mk ⟨[], .boolean⟩⟩ {}) = .ok e' ∧
          e'.applyAll [.returnValue] = .ok last ∧ last.finish = .ok code :=
      ⟨_, _, _, by cbv, by cbv, by cbv⟩
    obtain rfl : e'' = e' := Except.ok.inj (hg'.symm.trans hg)
    obtain ⟨m, v, hv, hleads⟩ := hruns last [.returnValue] code hl hf
      ⟨Machine.greeted, .start code none [.null], []⟩ [] Machine.history_greeted.lived rfl rfl rfl rfl
    exact ⟨w, v, _, last, code, m, hkind, hg, hl, hf, hv, hleads⟩

end Expression

end StackCode
