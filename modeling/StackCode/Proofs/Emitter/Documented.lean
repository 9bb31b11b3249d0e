import StackCode.Proofs.Emitter.Request

/-!
# Emitters with and without tables

An emitter that records debug information differs from one that does not in its tables, and in the
labels that only tables name. Every request keeps the two side by side: what goes through on the
first goes through on the second, and emits the same.
-/

namespace StackCode

/-! ## Labels -/

/-- Two states of a label that differ at most in that only the first one is named. -/
def LabelState.Lightens (s t : LabelState) : Prop :=
  ∃ named, (named = true → s.referenced = true) ∧ t = { s with referenced := named }

theorem LabelState.Lightens.refl (s : LabelState) : s.Lightens s := ⟨s.referenced, id, rfl⟩

def Fewer (ss ts : Array LabelState) : Prop :=
  ∀ k : Nat, Option.Rel LabelState.Lightens ss[k]? ts[k]?

namespace Fewer

variable {ss ts : Array LabelState}

theorem refl (ss : Array LabelState) : Fewer ss ss := by
  intro k
  cases ss[k]? with
  | none => exact .none
  | some s => exact .some (.refl s)

theorem getElem? (h : Fewer ss ts) {k : Nat} {s : LabelState} (hs : ss[k]? = some s) :
    ∃ t, ts[k]? = some t ∧ s.Lightens t := by
  have hk := h k
  rw [hs] at hk
  generalize ts[k]? = o at hk
  cases hk with
  | some ht => exact ⟨_, rfl, ht⟩

theorem of_getElem? (h : Fewer ss ts) {k : Nat} {t : LabelState} (ht : ts[k]? = some t) :
    ∃ s, ss[k]? = some s ∧ s.Lightens t := by
  have hk := h k
  rw [ht] at hk
  generalize ss[k]? = o at hk
  cases hk with
  | some hs => exact ⟨_, rfl, hs⟩

theorem isSome_eq (h : Fewer ss ts) (k : Nat) : ss[k]?.isSome = ts[k]?.isSome := by
  have hk := h k
  generalize ss[k]? = o, ts[k]? = o' at hk
  cases hk <;> rfl

theorem size_eq (h : Fewer ss ts) : ts.size = ss.size := by
  have hlt (k : Nat) : k < ss.size ↔ k < ts.size := by
    have hk := Bool.eq_iff_iff.mp (h.isSome_eq k)
    simpa using hk
  have := hlt ss.size
  have := hlt ts.size
  omega

theorem push (h : Fewer ss ts) (s : LabelState) : Fewer (ss.push s) (ts.push s) := by
  intro k
  rw [Array.getElem?_push, Array.getElem?_push, h.size_eq]
  split
  · exact .some (.refl s)
  · exact h k

theorem setIfInBounds (h : Fewer ss ts) (k : Nat) {s t : LabelState} (hst : s.Lightens t) :
    Fewer (ss.setIfInBounds k s) (ts.setIfInBounds k t) := by
  intro j
  rw [Array.getElem?_setIfInBounds, Array.getElem?_setIfInBounds, h.size_eq]
  split
  · split
    · exact .some hst
    · exact .none
  · exact h j

theorem refer (h : Fewer ss ts) {k : Nat} {s : LabelState} (hs : ss[k]? = some s) :
    Fewer (ss.setIfInBounds k { s with referenced := true }) ts := by
  intro j
  by_cases hj : k = j
  · subst hj
    obtain ⟨t, ht, named, -, rfl⟩ := h.getElem? hs
    have hlt := (Array.getElem?_eq_some_iff.mp hs).1
    rw [ht, Array.getElem?_setIfInBounds_self_of_lt hlt]
    exact .some ⟨named, fun _ => rfl, rfl⟩
  · rw [Array.getElem?_setIfInBounds_ne hj]
    exact h j

end Fewer

/-! ## Emitters side by side -/

structure Tables where
  locals : Array PendingLocal
  lines : Array (Nat × Label)

namespace Emitter

def tables (e : Emitter) : Tables := ⟨e.locals, e.lines⟩

/-- The emitter without debug information, and with other notes on which labels are named. -/
def withoutTables (labels : Array LabelState) (e : Emitter) : Emitter :=
  { e with
    options := { e.options with debugInfo := false }
    labels := labels
    locals := #[]
    lines := #[] }

/-- The first emitter has recorded tables, the second is the same without any. -/
inductive Documented (T : Tables) : Emitter → Emitter → Prop
  | intro {e : Emitter} {labels : Array LabelState} : e.options.debugInfo = true → e.tables = T →
    Fewer e.labels labels → Documented T e (e.withoutTables labels)

/-- Where the first request goes through, so does the second, and leaves an emitter beside that of
the first. -/
def Parallel (T : Tables) (x y : Except Misuse Emitter) : Prop :=
  ∀ e, x = .ok e → ∃ e', y = .ok e' ∧ Documented T e e'

variable {T T' : Tables} {e e' : Emitter}

theorem Parallel.ok (h : Documented T e e') : Parallel T (.ok e) (.ok e') := by
  intro e₁ he
  cases he
  exact ⟨e', rfl, h⟩

theorem Parallel.error (m : Misuse) (y : Except Misuse Emitter) : Parallel T (.error m) y := nofun

theorem Parallel.bind {x y : Except Misuse Emitter} {f g : Emitter → Except Misuse Emitter}
    (h : Parallel T x y) (hf : ∀ {e e'}, Documented T e e' → Parallel T' (f e) (g e')) :
    Parallel T' (x >>= f) (y >>= g) := by
  intro e₁ he
  obtain ⟨e, rfl, he⟩ := bind_eq_ok.mp he
  obtain ⟨e', rfl, hd⟩ := h e rfl
  exact hf hd e₁ he

namespace Documented

/-! ## Elementary steps -/

section
variable (h : Documented T e e')
include h

theorem depth : e'.depth = e.depth := by cases h; rfl

theorem access : e'.access = e.access := by cases h; rfl

theorem method : e'.method = e.method := by cases h; rfl

theorem size_labels : e'.labels.size = e.labels.size := by
  cases h with
  | intro _ _ hl => exact hl.size_eq

theorem append (i : Instruction) : Documented T (e.append i) (e'.append i) := by
  cases h with
  | intro ho ht hl => exact .intro ho ht hl

theorem withConstant (c : Constant) (f : UInt16 → Instruction) :
    Documented T (e.withConstant c f) (e'.withConstant c f) := by
  cases h with
  | intro ho ht hl => exact .intro ho ht hl

theorem shift (pops pushes : Nat) : Documented T (e.shift pops pushes) (e'.shift pops pushes) := by
  cases h with
  | intro ho ht hl => exact .intro ho ht hl

theorem withDepth (depth : Option Nat) :
    Documented T { e with depth := depth } { e' with depth := depth } := by
  cases h with
  | intro ho ht hl => exact .intro ho ht hl

theorem reserve (index : UInt16) (type : Descriptor) :
    Documented T (e.reserve index type) (e'.reserve index type) := by
  cases h with
  | intro ho ht hl => exact .intro ho ht hl

theorem allocateLabel (debugOnly : Bool) :
    Documented T (e.allocateLabel debugOnly).2 (e'.allocateLabel debugOnly).2 := by
  cases h with
  | intro ho ht hl => exact .intro ho ht (hl.push _)

theorem setLabel (l : Label) {s t : LabelState} (hst : s.Lightens t) :
    Documented T (e.setLabel l s) (e'.setLabel l t) := by
  cases h with
  | intro ho ht hl => exact .intro ho ht (hl.setIfInBounds l.index hst)

theorem label {l : Label} {s : LabelState} (hs : e.labels[l.index]? = some s) :
    ∃ t, e'.labels[l.index]? = some t ∧ s.Lightens t := by
  cases h with
  | intro _ _ hl => exact hl.getElem? hs

theorem shrink_grow (pops pushes : Nat) :
    Parallel T (do return (← e.shrink pops).grow pushes)
      (do return (← e'.shrink pops).grow pushes) := by
  intro e₁ he
  obtain ⟨hallows, rfl⟩ := shrink_grow_eq_ok.mp he
  have hallows' : e'.Allows pops := fun d hd => hallows d (h.depth ▸ hd)
  exact ⟨_, shrink_grow_eq_ok.mpr ⟨hallows', rfl⟩, h.shift pops pushes⟩

theorem effect (i : Instruction) (pops pushes : Nat) :
    Parallel T (e.effect i pops pushes) (e'.effect i pops pushes) :=
  (h.append i).shrink_grow pops pushes

theorem branchTo (l : Label) : Parallel T (e.branchTo l) (e'.branchTo l) := by
  intro e₁ he
  obtain ⟨s, hs, hagree, rfl⟩ := branchTo_eq_ok he
  obtain ⟨t, ht, named, -, rfl⟩ := h.label hs
  refine ⟨_, branchTo_of_agree ht (by rw [h.depth]; exact hagree), ?_⟩
  rw [h.depth]
  exact h.setLabel l (.refl _)

theorem mark (l : Label) : Parallel T (e.mark l) (e'.mark l) := by
  intro e₁ he
  have hsize : e'.instructions.size = e.instructions.size := by cases h; rfl
  obtain ⟨s, hs, hp, ⟨hdebug, rfl⟩ | ⟨hdebug, hagree, rfl⟩⟩ := mark_eq_ok he
  · obtain ⟨t, ht, named, hnamed, rfl⟩ := h.label hs
    refine ⟨_, mark_debugOnly ht hp hdebug, ?_⟩
    rw [hsize]
    exact h.setLabel l ⟨named, hnamed, rfl⟩
  · obtain ⟨t, ht, named, hnamed, rfl⟩ := h.label hs
    refine ⟨_, mark_of_agree ht hp hdebug (by rw [h.depth]; exact hagree), ?_⟩
    rw [h.depth, hsize]
    have hset : Documented T
        (e.setLabel l
          { s with position := some e.instructions.size, depth := s.depth <|> e.depth })
        (e'.setLabel l
          { s with
            position := some e.instructions.size, depth := s.depth <|> e.depth
            referenced := named }) :=
      h.setLabel l ⟨named, hnamed, rfl⟩
    exact hset.withDepth _

theorem branch (i : Instruction) (pops : Nat) (l : Label) :
    Parallel T (e.branch i pops l) (e'.branch i pops l) :=
  (h.effect i pops 0).bind fun h => h.branchTo l

theorem goto (l : Label) : Parallel T (e.goto l) (e'.goto l) :=
  (h.branch (.goto l) 0 l).bind fun h => .ok (h.withDepth none)

end

/-! ## Operations -/

section
variable (h : Documented T e e')
include h

theorem grow (slots : Nat) : Documented T (e.grow slots) (e'.grow slots) := by
  have hshift (e : Emitter) : e.grow slots = e.shift 0 slots := by
    cases hd : e.depth with
    | none =>
      simp only [Emitter.grow, Emitter.shift, hd, Option.map_none, Option.elim_none]
      rw [← hd]
    | some d => simp only [Emitter.grow, Emitter.shift, hd]; rfl
  rw [hshift, hshift]
  exact h.shift 0 slots

theorem push (i : Instruction) (slots : Nat) :
    Documented T ((e.append i).grow slots) ((e'.append i).grow slots) := (h.append i).grow slots

theorem pushInt (v : Int32) : Documented T (e.pushInt v) (e'.pushInt v) := by
  refine grow ?_ 1
  split_ifs
  · exact h.append _
  · exact h.append _
  · exact h.append _
  · exact h.withConstant _ _

theorem pushLiteral (l : Literal) : Documented T (e.pushLiteral l) (e'.pushLiteral l) := by
  cases l with
  | bool b => exact h.push _ 1
  | char u => exact h.pushInt _
  | int v => exact h.pushInt v
  | long v =>
    refine grow ?_ 2
    split_ifs
    · exact h.append _
    · exact h.append _
    · exact h.withConstant _ _
  | float v =>
    refine grow ?_ 1
    split
    · exact h.append _
    · exact h.withConstant _ _
  | double v =>
    refine grow ?_ 2
    split
    · exact h.append _
    · exact h.withConstant _ _
  | string s => exact (h.withConstant _ _).grow 1

theorem pushDefault (type : Descriptor) :
    Parallel T (e.pushDefault type) (e'.pushDefault type) := by
  unfold Emitter.pushDefault
  split
  · split
    · exact .ok (h.pushLiteral (.long 0))
    · exact .ok (h.pushLiteral (.float (.ofInt 0)))
    · exact .ok (h.pushLiteral (.double (.ofInt 0)))
    · exact .ok (h.pushInt 0)
    · exact .ok (h.push .aconstNull 1)
  · exact .error _ _

theorem convertAll (cs : List Conversion) : Parallel T (e.convertAll cs) (e'.convertAll cs) := by
  induction cs generalizing e e' with
  | nil => exact .ok h
  | cons c cs ih => exact (h.effect _ _ _).bind fun h => ih h

theorem cast (source target : Descriptor) :
    Parallel T (e.cast source target) (e'.cast source target) := by
  unfold Emitter.cast
  split
  · split_ifs
    · exact .ok h
    · exact h.convertAll _
    · exact .error _ _
  · exact .error _ _

theorem ifReduced (r : Reduction) (op : Comparison) (l : Label) :
    Parallel T (e.ifReduced r op l) (e'.ifReduced r op l) :=
  (h.effect _ _ _).bind fun h => h.branch _ 1 l

theorem ifCompare (type : Descriptor) (op : Comparison) (l : Label) :
    Parallel T (e.ifCompare type op l) (e'.ifCompare type op l) := by
  unfold Emitter.ifCompare
  split
  · exact h.ifReduced _ op l
  · exact h.ifReduced _ op l
  · exact h.ifReduced _ op l
  · exact h.branch _ 2 l
  · split_ifs
    · exact .error _ _
    · exact h.branch _ 2 l
  · split_ifs
    · exact .error _ _
    · exact h.branch _ 2 l
  · exact .error _ _
  · exact .error _ _

theorem loadLocal (index : UInt16) (type : Descriptor) :
    Parallel T (e.loadLocal index type) (e'.loadLocal index type) := by
  unfold Emitter.loadLocal
  split
  · exact .ok ((h.push _ type.size).reserve index type)
  · exact .error _ _

theorem markNew : Parallel T (do return (← e.markNew).2) (do return (← e'.markNew).2) := by
  have hmark (e : Emitter) : (do return (← e.markNew).2 : Except Misuse Emitter) =
      (e.allocateLabel false).2.mark ⟨e.labels.size⟩ := by
    unfold Emitter.markNew newLabel Emitter.allocateLabel
    simp only [bind_assoc]
    generalize Emitter.mark _ _ = x
    cases x <;> rfl
  rw [hmark, hmark, h.size_labels]
  exact (h.allocateLabel false).mark _

theorem invokeStatic (ref : MethodRef) : Parallel T (e.invokeStatic ref) (e'.invokeStatic ref) :=
  (h.withConstant _ _).shrink_grow _ _

theorem pushBranch {f : Label → Emitter → Except Misuse Emitter}
    (hf : ∀ {e e'} l, Documented T e e' → Parallel T (f l e) (f l e')) (taken : Bool) :
    Parallel T (e.pushBranch f taken) (e'.pushBranch f taken) := by
  have hlabels := (h.allocateLabel false).allocateLabel false
  have hstop := (h.allocateLabel false).size_labels
  unfold Emitter.pushBranch
  simp only [newLabel]
  have hfirst : (e'.allocateLabel false).1 = (e.allocateLabel false).1 :=
    congrArg Label.mk h.size_labels
  have hsecond : ((e'.allocateLabel false).2.allocateLabel false).1 =
      ((e.allocateLabel false).2.allocateLabel false).1 := congrArg Label.mk hstop
  rw [hfirst, hsecond]
  refine (hf _ hlabels).bind fun h => ((h.push _ 1).goto _).bind fun h => ?_
  exact (h.mark _).bind fun h => (h.push _ 1).mark _

end

theorem checkHeight (h : Documented T e e') (x : Expression) (before : Option Nat) :
    Parallel T (x.checkHeight before e) (x.checkHeight before e') := by
  intro e₁ he
  obtain rfl := Expression.checkHeight_eq_ok he
  refine ⟨e', ?_, h⟩
  unfold Expression.checkHeight at he ⊢
  rw [h.depth]
  cases before with
  | none => rfl
  | some b =>
    cases hd : e.depth with
    | none => rfl
    | some d =>
      simp only [hd] at he ⊢
      split_ifs at he ⊢
      rfl

mutual

theorem generate {e e' : Emitter} (h : Documented T e e') (x : Expression) :
    Parallel T (x.generate e) (x.generate e') := by
  rw [Expression.generate_eq, Expression.generate_eq, h.depth]
  refine Parallel.bind (T := T) ?_ fun h => h.checkHeight x _
  match x with
  | .constant l => exact .ok (h.pushLiteral l)
  | .null _ => exact .ok (h.push _ 1)
  | .load type index => exact h.loadLocal index type
  | .dup type =>
    simp only [Expression.emission]
    split_ifs
    · exact .ok (h.push _ 2)
    · exact .ok (h.push _ 1)
  | .convert type operand => exact (h.generate operand).bind fun h => h.cast _ _
  | .compare op left right =>
    refine (h.generate left).bind fun h => (h.generate right).bind fun h => ?_
    exact h.pushBranch (fun l h => h.ifCompare _ op l) true
  | .negate operand =>
    refine (h.generate operand).bind fun h => ?_
    exact h.pushBranch (f := ifZero .ne) (fun l h => h.branch _ 1 l) false
  | .call ref arguments => exact (h.generateAll arguments).bind fun h => h.invokeStatic ref

theorem generateAll {e e' : Emitter} (h : Documented T e e') (xs : List Expression) :
    Parallel T (Expression.generateAll xs e) (Expression.generateAll xs e') := by
  match xs with
  | [] => exact .ok h
  | x :: xs => exact (h.generate x).bind fun h => h.generateAll xs

end

end Documented

end Emitter

/-! ## Whole emissions -/

def LocalVariable.pending (v : LocalVariable) : PendingLocal :=
  ⟨v.name, v.type, v.index, v.start, v.stop⟩

def Tables.record (T : Tables) : Operation → Tables
  | .visitLocal v => { T with locals := T.locals.push v.pending }
  | .visitLine line start => { T with lines := T.lines.push (line, start) }
  | _ => T

namespace Emitter.Documented

variable {T : Tables} {e e' : Emitter} (h : Documented T e e')
include h

theorem refer {l : Label} {e₁ : Emitter} (hr : e.refer l = .ok e₁) : Documented T e₁ e' := by
  obtain ⟨s, hs, rfl⟩ := refer_eq_ok hr
  cases h with
  | intro ho ht hl => exact .intro ho ht (hl.refer hs)

theorem recordLocal (v : PendingLocal) :
    Documented { T with locals := T.locals.push v } { e with locals := e.locals.push v } e' := by
  cases h with
  | intro ho ht hl => exact .intro ho (ht ▸ rfl) hl

theorem recordLine (line : Nat × Label) :
    Documented { T with lines := T.lines.push line } { e with lines := e.lines.push line } e' := by
  cases h with
  | intro ho ht hl => exact .intro ho (ht ▸ rfl) hl

theorem debugInfo : e.options.debugInfo = true ∧ e'.options.debugInfo = false := by
  cases h with
  | intro ho _ _ => exact ⟨ho, rfl⟩

theorem declare (v : LocalVariable) :
    Parallel (T.record (.visitLocal v)) (v.declare e) (v.declare e') := by
  intro e₁ he
  have hreserved := h.reserve v.index v.type
  obtain ⟨ho, ho'⟩ := hreserved.debugInfo
  simp only [LocalVariable.declare, visitLocal, ho, ho', Bool.not_true, Bool.not_false,
    Bool.false_eq_true, if_false, if_true, bind_eq_ok] at he ⊢
  obtain ⟨e₂, h₂, e₃, h₃, he⟩ := he
  cases he
  exact ⟨_, rfl, ((hreserved.refer h₂).refer h₃).recordLocal _⟩

theorem visitLine (line : Nat) (l : Label) :
    Parallel (T.record (.visitLine line l)) (e.visitLine line l) (e'.visitLine line l) := by
  intro e₁ he
  obtain ⟨ho, ho'⟩ := h.debugInfo
  simp only [Emitter.visitLine, ho, ho', Bool.not_true, Bool.not_false, Bool.false_eq_true,
    if_false, if_true, bind_eq_ok] at he ⊢
  obtain ⟨e₂, h₂, he⟩ := he
  cases he
  exact ⟨_, rfl, (h.refer h₂).recordLine _⟩

/-- **What goes through with debug information goes through without.** -/
theorem apply (o : Operation) : Parallel (T.record o) (o.apply e) (o.apply e') := by
  cases o with
  | push literal => exact .ok (h.pushLiteral literal)
  | pushNull => exact .ok (h.push _ 1)
  | pushDefault type => exact h.pushDefault type
  | cast source target => exact h.cast source target
  | dup => exact .ok (h.push _ 1)
  | dup2 => exact .ok (h.push _ 2)
  | pop => exact h.effect _ 1 0
  | pop2 => exact h.effect _ 2 0
  | ifCompare type op target => exact h.ifCompare type op target
  | ifZero op target => exact h.branch _ 1 target
  | ifNull target => exact h.branch _ 1 target
  | ifNonNull target => exact h.branch _ 1 target
  | goto target => exact h.goto target
  | newLabel => exact .ok (h.allocateLabel false)
  | newDebugLabel => exact .ok (h.allocateLabel true)
  | mark label => exact h.mark label
  | markNew => exact h.markNew
  | loadThis =>
    simp only [Operation.apply, Emitter.loadThis, h.access, h.method]
    split_ifs
    · exact .error _ _
    · exact .ok (h.push _ 1)
  | loadLocal index type => exact h.loadLocal index type
  | newInstance type =>
    cases type with
    | object name => exact .ok ((h.withConstant _ _).grow 1)
    | _ => exact .error _ _
  | invokeConstructor owner m =>
    cases owner with
    | object name => exact (h.withConstant _ _).shrink_grow _ _
    | _ => exact .error _ _
  | invokeStatic ref => exact h.invokeStatic ref
  | returnValue =>
    simp only [Operation.apply, Emitter.returnValue, h.method]
    split
    · exact .error _ _
    · exact (h.effect _ _ 0).bind fun h => .ok (h.withDepth none)
  | visitLocal v => exact h.declare v
  | visitLine line start => exact h.visitLine line start
  | generate x => exact h.generate x

theorem applyAll (os : List Operation) :
    Parallel (os.foldl Tables.record T) (e.applyAll os) (e'.applyAll os) := by
  induction os generalizing T e e' with
  | nil => exact .ok h
  | cons o os ih => exact (h.apply o).bind fun h => ih h

end Emitter.Documented

end StackCode
