import StackCode.Proofs.Expression.Evaluation
import StackCode.Proofs.Expression.Placement

/-!
# Emission does not fail

What the builders give can be emitted wherever an emitter stands, and raises the height by the size
of its type: every operation finds its operands, and the labels of the branches are new.
-/

namespace StackCode

namespace Emitter

/-! ## Operations that find their operands -/

section
variable {e : Emitter} {b : Option Nat} {pops : Nat} (hd : e.depth = b.map (· + pops))
include hd

theorem allows_of_depth : e.Allows pops := by
  intro d h
  rw [hd] at h
  cases b with
  | none => cases h
  | some b =>
    cases h
    exact Nat.le_add_left ..

theorem depth_shift (pushes : Nat) : (e.shift pops pushes).depth = b.map (· + pushes) := by
  simp only [shift, hd, Option.map_map]
  congr 1
  funext n
  exact congrArg (· + pushes) (Nat.add_sub_cancel ..)

theorem effect_ok (i : Instruction) (pushes : Nat) :
    e.effect i pops pushes = .ok ((e.append i).shift pops pushes) :=
  effect_eq_ok.mpr ⟨fun d h => allows_of_depth hd d h, rfl⟩

end

theorem depth_grow (e : Emitter) (slots : Nat) :
    (e.grow slots).depth = e.depth.map (· + slots) := by
  unfold grow
  cases hd : e.depth with
  | none => exact hd
  | some d => rfl

theorem labels_grow (e : Emitter) (slots : Nat) : (e.grow slots).labels = e.labels := by
  unfold grow
  split <;> rfl

theorem depth_pushLiteral (l : Literal) (e : Emitter) :
    (e.pushLiteral l).depth = e.depth.map (· + l.type.size) := by
  cases l with
  | bool | string => exact depth_grow ..
  | char | int =>
    refine (depth_grow _ _).trans ?_
    split_ifs <;> rfl
  | long =>
    refine (depth_grow _ _).trans ?_
    split_ifs <;> rfl
  | float | double =>
    refine (depth_grow _ _).trans ?_
    split <;> rfl

end Emitter

def Converts : List Conversion → Kind → Kind → Prop
  | [], source, target => source = target
  | c :: cs, source, target => c.source = source ∧ Converts cs c.target target

theorem Descriptor.eq_primitive_of_isNumeric {d : Descriptor} (h : d.isNumeric = true) :
    ∃ p, d = .primitive p := by
  cases d <;> first | exact ⟨_, rfl⟩ | cases h

theorem converts_conversions {s t : Primitive} (hs : s.isNumeric = true) (ht : t.isNumeric = true) :
    Converts (Emitter.conversions s t) s.kind t.kind := by
  cases s <;> cases t <;> first
    | exact absurd hs (by decide)
    | exact absurd ht (by decide)
    | rfl
    | exact ⟨rfl, rfl⟩
    | exact ⟨rfl, rfl, rfl⟩

namespace Emitter

theorem convertAll_ok {cs : List Conversion} {k k' : Kind} (hcs : Converts cs k k') {e : Emitter}
    {b : Option Nat} (hd : e.depth = b.map (· + k.size)) :
    ∃ e', e.convertAll cs = .ok e' ∧ e'.depth = b.map (· + k'.size) := by
  induction cs generalizing e k with
  | nil =>
    obtain rfl : k = k' := hcs
    exact ⟨e, rfl, hd⟩
  | cons c cs ih =>
    obtain ⟨rfl, hcs⟩ := hcs
    have hd' : (e.append (.convert c)).depth = b.map (· + c.source.size) := hd
    obtain ⟨e', he', hdepth⟩ := ih hcs (depth_shift hd' c.target.size)
    refine ⟨e', ?_, hdepth⟩
    rw [convertAll, effect_ok hd, ok_bind]
    exact he'

/-! ## Branches to new labels -/

theorem branchTo_ok {e : Emitter} {n : Nat} (hn : e.Fresh n) :
    ∃ e', e.branchTo ⟨n⟩ = .ok e' ∧ e'.depth = e.depth ∧
      ∀ k, e'.labels[k]? = if k = n then some ⟨none, false, e.depth, true⟩ else e.labels[k]? := by
  obtain ⟨referenced, hs⟩ := hn
  have hagree : Agree none e.depth := nofun
  exact ⟨_, branchTo_of_agree hs hagree, rfl, labels_setLabel hs⟩

/-- A label that is only branched to can be marked where the height is unknown or that of the
branches. -/
theorem mark_ok {e : Emitter} {n : Nat} {depth : Option Nat} {referenced : Bool}
    (hn : e.labels[n]? = some ⟨none, false, depth, referenced⟩)
    (hd : e.depth = none ∨ e.depth = depth) :
    ∃ e', e.mark ⟨n⟩ = .ok e' ∧ e'.depth = depth ∧ ∀ k, k ≠ n → e'.labels[k]? = e.labels[k]? := by
  have hagree : Agree depth e.depth := by
    rintro x y hx hy
    rcases hd with h | h
    · cases h.symm.trans hy
    · exact Option.some.inj (hx.symm.trans (h.symm.trans hy))
  refine ⟨_, mark_of_agree hn rfl rfl hagree, ?_, fun k hk => ?_⟩
  · rcases hd with h | h <;> simp [h]
  · exact (labels_setLabel (l := ⟨n⟩) hn k).trans (if_neg hk)

/-- A way to branch that pops slots and leaves a new label with the height below them. -/
def Branches (f : Label → Emitter → Except Misuse Emitter) (pops : Nat) : Prop :=
  ∀ (e : Emitter) (b : Option Nat) (n : Nat), e.depth = b.map (· + pops) → e.Fresh n →
    ∃ e', f ⟨n⟩ e = .ok e' ∧ e'.depth = b ∧
      ∀ k, e'.labels[k]? = if k = n then some ⟨none, false, b, true⟩ else e.labels[k]?

theorem branches_branch (i : Label → Instruction) (pops : Nat) :
    Branches (fun l => branch (i l) pops l) pops := by
  intro e b n hd hn
  have hb : ((e.append (i ⟨n⟩)).shift pops 0).depth = b := by
    refine (depth_shift (e := e.append (i ⟨n⟩)) hd 0).trans ?_
    cases b <;> rfl
  obtain ⟨e', he', hdepth, hlabels⟩ := branchTo_ok (e := (e.append (i ⟨n⟩)).shift pops 0) hn
  refine ⟨e', ?_, hdepth.trans hb, hb ▸ hlabels⟩
  simp only [branch, effect_ok hd, ok_bind]
  exact he'

theorem branches_reduced (r : Reduction) (op : Comparison) :
    Branches (ifReduced r op) (2 * r.operand.size) := by
  intro e b n hd hn
  obtain ⟨e', he', hdepth, hlabels⟩ := branches_branch (.ifZero op) 1
    ((e.append (.reduce r)).shift (2 * r.operand.size) 1) b n (depth_shift hd 1) hn
  refine ⟨e', ?_, hdepth, hlabels⟩
  simp only [ifReduced, effect_ok hd, ok_bind]
  exact he'

theorem branches_compare {type : Descriptor} {op : Comparison} (ht : type.isValueType = true)
    (hop : ¬(type.isReference = true ∧ op.isOrdering = true)) :
    Branches (ifCompare type op) (type.size + type.size) := by
  rw [← Nat.two_mul]
  cases type with
  | void | method => cases ht
  | object | array =>
    have horder : op.isOrdering = false := by simpa [Descriptor.isReference] using hop
    intro e b n hd hn
    simp only [ifCompare, horder]
    exact branches_branch (.ifSame op) 2 e b n hd hn
  | primitive p =>
    cases p with
    | boolean | byte | short | char | int => exact branches_branch (.ifInt op) 2
    | long => exact branches_reduced .lcmp op
    | float | double => cases op <;> exact branches_reduced _ _

theorem pushBranch_ok {f : Label → Emitter → Except Misuse Emitter} {pops : Nat}
    (hf : Branches f pops) (taken : Bool) {e : Emitter} {b : Option Nat}
    (hd : e.depth = b.map (· + pops)) :
    ∃ e', e.pushBranch f taken = .ok e' ∧ e'.depth = b.map (· + 1) := by
  have hsize : (e.allocateLabel false).2.labels.size = e.labels.size + 1 := Array.size_push _
  have hfresh := fresh_allocateLabel e
  have hfresh' := fresh_allocateLabel_succ e
  have hne : e.labels.size + 1 ≠ e.labels.size := Nat.succ_ne_self _
  -- the branch, the value past it and the jump
  obtain ⟨e₁, h₁, hd₁, hl₁⟩ :=
    hf ((e.allocateLabel false).2.allocateLabel false).2 b e.labels.size hd hfresh
  have hfresh₁ : (e₁.pushBool !taken).Fresh (e.labels.size + 1) := by
    obtain ⟨referenced, hs⟩ := hfresh'
    refine ⟨referenced, ?_⟩
    rw [pushBool, labels_grow]
    exact (hl₁ _).trans ((if_neg hne).trans hs)
  have hd₂ : (e₁.pushBool !taken).depth = (b.map (· + 1)).map (· + 0) := by
    rw [pushBool, depth_grow]
    simp only [append, hd₁]
    cases b <;> rfl
  obtain ⟨e₂, h₂, hd₂, hl₂⟩ :=
    branches_branch .goto 0 (e₁.pushBool !taken) (b.map (· + 1)) (e.labels.size + 1) hd₂ hfresh₁
  -- the path taken
  have hlabel : ({ e₂ with depth := none } : Emitter).labels[e.labels.size]? =
      some ⟨none, false, b, true⟩ := by
    refine (hl₂ _).trans ((if_neg hne.symm).trans ?_)
    rw [pushBool, labels_grow]
    exact (hl₁ _).trans (if_pos rfl)
  obtain ⟨e₃, h₃, hd₃, hl₃⟩ := mark_ok hlabel (.inl rfl)
  have hd₃' : (e₃.pushBool taken).depth = b.map (· + 1) := by
    rw [pushBool, depth_grow]
    simp only [append, hd₃]
  have hlabel' : (e₃.pushBool taken).labels[e.labels.size + 1]? =
      some ⟨none, false, b.map (· + 1), true⟩ := by
    rw [pushBool, labels_grow]
    exact (hl₃ _ hne).trans ((hl₂ _).trans (if_pos rfl))
  obtain ⟨e₄, h₄, hd₄, _⟩ := mark_ok hlabel' (.inr hd₃')
  refine ⟨e₄, ?_, hd₄⟩
  have hgoto : (e₁.pushBool !taken).goto ⟨e.labels.size + 1⟩ = .ok { e₂ with depth := none } := by
    simp only [goto, h₂, ok_bind]
    rfl
  simp only [pushBranch, newLabel]
  rw [← hsize] at hgoto h₄
  have h₁' : f (e.allocateLabel false).1 ((e.allocateLabel false).2.allocateLabel false).2 =
      .ok e₁ := h₁
  have h₃' : ({ e₂ with depth := none } : Emitter).mark (e.allocateLabel false).1 = .ok e₃ := h₃
  simp only [h₁', ok_bind]
  have hstop : ((e.allocateLabel false).2.allocateLabel false).1 =
      ⟨(e.allocateLabel false).2.labels.size⟩ := rfl
  rw [hstop, hgoto, ok_bind, h₃', ok_bind, h₄]

end Emitter

/-! ## All expressions -/

theorem Expression.checkHeight_ok {x : Expression} {before : Option Nat} {e : Emitter}
    (h : e.depth = before.map (· + x.resultType.size)) : x.checkHeight before e = .ok e := by
  unfold checkHeight
  rw [h]
  cases before with
  | none => rfl
  | some d => exact if_pos rfl

mutual

theorem Expression.Typed.generates {x : Expression} (hx : x.Typed) (e : Emitter) :
    ∃ e', x.generate e = .ok e' ∧ e'.depth = e.depth.map (· + x.resultType.size) := by
  suffices h : ∃ e', x.emission e = .ok e' ∧ e'.depth = e.depth.map (· + x.resultType.size) by
    obtain ⟨e', he', hd⟩ := h
    refine ⟨e', ?_, hd⟩
    rw [Expression.generate_eq, he', ok_bind]
    exact Expression.checkHeight_ok hd
  match x with
  | .constant l => exact ⟨_, rfl, Emitter.depth_pushLiteral l e⟩
  | .null type =>
    have hsize : type.size = 1 := by cases type <;> first | rfl | cases hx
    refine ⟨_, rfl, ?_⟩
    rw [Expression.resultType, hsize]
    exact Emitter.depth_grow ..
  | .load type index =>
    obtain ⟨k, hk⟩ := Expression.Typed.kind (x := .load type index) hx
    have hk' : type.kind? = some k := hk
    refine ⟨((e.append (.load k index)).grow type.size).reserve index type, ?_,
      Emitter.depth_grow ..⟩
    simp only [Expression.emission, Emitter.loadLocal, hk']
  | .dup type =>
    refine ⟨_, rfl, ?_⟩
    have hsize : type.size = 1 ∨ type.size = 2 := by
      obtain ⟨k, hk⟩ := Expression.Typed.kind (x := .dup type) hx
      have hk' : type.kind? = some k := hk
      rw [← Descriptor.size_kind? hk']
      cases k <;> first | exact .inl rfl | exact .inr rfl
    rcases hsize with h | h <;> simp only [h, Expression.resultType] <;> exact Emitter.depth_grow ..
  | .convert type operand =>
    obtain ⟨hoperand, hne, hs, ht⟩ := hx
    obtain ⟨e₁, h₁, hd₁⟩ := hoperand.generates e
    obtain ⟨p, hp⟩ := Descriptor.eq_primitive_of_isNumeric hs
    obtain ⟨q, rfl⟩ := Descriptor.eq_primitive_of_isNumeric ht
    rw [hp] at hne hs hd₁
    have hpq : p ≠ q := fun heq => hne (congrArg _ heq)
    have hd₁' : e₁.depth = e.depth.map (· + p.kind.size) := by rw [hd₁, Primitive.size_kind]; rfl
    obtain ⟨e', he', hd'⟩ := Emitter.convertAll_ok (converts_conversions hs ht) hd₁'
    refine ⟨e', ?_, by rw [hd', Primitive.size_kind]; rfl⟩
    have hnumeric : (p.isNumeric && q.isNumeric) = true := Bool.and_eq_true_iff.mpr ⟨hs, ht⟩
    rw [Expression.emission, h₁, ok_bind, hp]
    simp only [Emitter.cast, if_neg hpq, hnumeric, if_true]
    exact he'
  | .compare op left right =>
    obtain ⟨hleft, hright, htypes, hvalue, hop⟩ := hx
    obtain ⟨e₁, h₁, hd₁⟩ := hleft.generates e
    obtain ⟨e₂, h₂, hd₂⟩ := hright.generates e₁
    have hd₂' : e₂.depth = e.depth.map (· + (left.resultType.size + left.resultType.size)) := by
      rw [hd₂, hd₁, ← htypes]
      cases e.depth with
      | none => rfl
      | some d => exact congrArg some (Nat.add_assoc ..)
    obtain ⟨e', he', hd'⟩ := Emitter.pushBranch_ok (Emitter.branches_compare hvalue hop) true hd₂'
    refine ⟨e', ?_, hd'⟩
    rw [Expression.emission, h₁, ok_bind, h₂, ok_bind]
    exact he'
  | .negate operand =>
    obtain ⟨hoperand, htype⟩ := hx
    obtain ⟨e₁, h₁, hd₁⟩ := hoperand.generates e
    rw [htype] at hd₁
    obtain ⟨e', he', hd'⟩ :=
      Emitter.pushBranch_ok (Emitter.branches_branch (.ifZero .ne) 1) false hd₁
    refine ⟨e', ?_, hd'⟩
    rw [Expression.emission, h₁, ok_bind]
    exact he'
  | .call ref arguments =>
    obtain ⟨hall, htypes, _⟩ := hx
    obtain ⟨e₁, h₁, hd₁⟩ := hall.generates e
    rw [htypes] at hd₁
    have hd₁' : (e₁.withConstant (.method ref) .invokeStatic).depth =
        e.depth.map (· + ref.method.signature.argumentSlots) := hd₁
    refine ⟨_, ?_, Emitter.depth_shift hd₁' ref.method.signature.returns.size⟩
    rw [Expression.emission, h₁, ok_bind]
    exact Emitter.shrink_grow_eq_ok.mpr ⟨Emitter.allows_of_depth hd₁', rfl⟩

theorem Expression.TypedAll.generates {xs : List Expression} (hxs : Expression.TypedAll xs)
    (e : Emitter) :
    ∃ e', Expression.generateAll xs e = .ok e' ∧
      e'.depth = e.depth.map (· + Descriptor.slots (xs.map Expression.resultType)) := by
  match xs with
  | [] =>
    refine ⟨e, rfl, ?_⟩
    cases e.depth <;> rfl
  | x :: xs =>
    obtain ⟨hx, hxs⟩ := hxs
    obtain ⟨e₁, h₁, hd₁⟩ := hx.generates e
    obtain ⟨e', he', hd'⟩ := hxs.generates e₁
    refine ⟨e', ?_, ?_⟩
    · rw [Expression.generateAll, h₁, ok_bind]
      exact he'
    · rw [hd', hd₁]
      cases e.depth with
      | none => rfl
      | some d => exact congrArg some (Nat.add_assoc ..)

end

end StackCode
