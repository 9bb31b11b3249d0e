import StackCode.Class.Writer
import StackCode.Proofs.Descriptor.ClassName
import StackCode.Proofs.Emitter.Finish
import StackCode.Proofs.Loader.Linking
import StackCode.Proofs.Machine.Frame
import StackCode.Proofs.Verifier.Framed

/-!
# Default constructors

A default constructor calls the one of the class above, and that one the next, up to the root class.
So classes that are each written with a default constructor and extend one another can be defined in
order, and an instance of the last one takes one call for each of them and one for the root.
-/

namespace StackCode

/-- The body of a default constructor of a class that extends `superName`. -/
structure Code.Delegates (code : Code) (superName : String) : Prop where
  instructions : code.instructions = #[.load .reference 0, .invokeSpecial 0, .leave none]
  constants : code.constants = #[.method ⟨superName, .nullaryInit⟩]
  maxStack : code.maxStack = 1

def delegatingMethod (code : Code) : MethodDefinition := ⟨.publicFlag, .nullaryInit, .code code⟩

/-! ## Emission -/

theorem ConstantPool.add_empty (c : Constant) :
    empty.add c = (0, ⟨#[c], empty.index.insert c 0, false⟩) := by
  rcases empty.add_cases c with ⟨i, hi, _⟩ | ⟨_, _, he⟩ | ⟨_, hfull, _⟩
  · simp [empty] at hi
  · exact he
  · exact absurd hfull (by decide)

theorem Code.Delegates.verify {code : Code} {superName : String} (h : code.Delegates superName) :
    ∃ height, (Body.mk code .publicFlag Method.nullaryInit.signature).verify = .ok height := by
  let body : Body := ⟨code, .publicFlag, Method.nullaryInit.signature⟩
  have hi (pc : Nat) : body.code.instructions[pc]? =
      #[Instruction.load .reference 0, .invokeSpecial 0, .leave none][pc]? := by
    rw [h.instructions]
  have hthis : (entryLocals .publicFlag Method.nullaryInit.signature).toArray[0]? =
      some (some .reference) := by decide
  have hconstant : body.code.constant? 0 = some (.method ⟨superName, .nullaryInit⟩) := by
    rw [Code.constant?, h.constants]
    rfl
  have hload : body.Effect body.entry (.load .reference 0) [] [.reference] .next := .load hthis
  have hcall : body.Effect body.entry (.invokeSpecial 0) [.reference] [] .next :=
    .invokeSpecial hconstant (by rfl : _ = List.map some [])
  have hone : slotHeight [.reference] ≤ body.code.maxStack := Nat.le_of_eq h.maxStack.symm
  have hframed : body.Framed 0 [] 2 [] :=
    (Body.framed_effect (hi 0) hload hone).trans (Body.framed_effect (hi 1) hcall (Nat.zero_le _))
  exact Body.verify_of_framed hframed (by rw [h.instructions]; rfl) (hi 2) rfl (Nat.zero_le _)

namespace ClassWriter

variable (w : ClassWriter)

def constructorEmitter : Emitter :=
  let added := ConstantPool.empty.add (.method ⟨w.superType.internalName, .nullaryInit⟩)
  { access := .publicFlag
    method := .nullaryInit
    options := w.options
    instructions := #[.load .reference 0, .invokeSpecial added.1, .leave none]
    pool := added.2
    labels := #[⟨some 0, true, none, w.options.debugInfo⟩,
      ⟨some 3, true, none, w.options.debugInfo⟩]
    locals := if w.options.debugInfo then #[⟨"this", w.thisType.descriptor, 0, ⟨0⟩, ⟨1⟩⟩] else #[]
    lines := #[]
    depth := none
    maxStack := 1
    maxLocals := 1 }

theorem constructorBody_eq : w.constructorBody = .ok w.constructorEmitter := by
  obtain ⟨access, thisType, superType, ⟨debugInfo, verify⟩, methods⟩ := w
  cases debugInfo <;> rfl

theorem delegates_constructorEmitter :
    w.constructorEmitter.code.Delegates w.superType.internalName where
  instructions := by simp [constructorEmitter, Emitter.code, ConstantPool.add_empty]
  constants := by simp [constructorEmitter, Emitter.code, ConstantPool.add_empty]
  maxStack := rfl

theorem finish_constructorEmitter :
    w.constructorEmitter.finish = .ok w.constructorEmitter.code := by
  have ho : w.constructorEmitter.pool.overflowed = false := by
    simp [constructorEmitter, ConstantPool.add_empty]
  have hl : w.constructorEmitter.unmarkedLabel? = none := by
    simp [Emitter.unmarkedLabel?, constructorEmitter]
  rw [Emitter.finish, ho, hl]
  rfl

theorem addDefaultConstructor_eq (hw : findMethod? w.methods .nullaryInit = none) :
    ∃ code, code.Delegates w.superType.internalName ∧
      w.addDefaultConstructor = .ok { w with methods := w.methods ++ [delegatingMethod code] } := by
  have hd := w.delegates_constructorEmitter
  obtain ⟨height, hv⟩ := hd.verify
  have hend := Emitter.endMethod_eq_ok rfl rfl w.finish_constructorEmitter hv
  have hmethod : w.constructorEmitter.method = .nullaryInit := rfl
  refine ⟨_, hd, ?_⟩
  simp only [addDefaultConstructor, constructorBody_eq, addMethod, hmethod, hw, hend]
  rfl

end ClassWriter

/-! ## Definition -/

namespace Loader

variable {l : Loader} {name superName : String} {code : Code}
  {above : LoadedClass} (hfresh : l.class? name = none) (habove : l.class? superName = some above)
  (hopen : above.access.contains .finalFlag = false) (hcode : code.Delegates superName)

section
include hcode

theorem linkCode_delegating (d : ClassDefinition) :
    l.linkCode d code = l.linkReference d .special (some (.method ⟨superName, .nullaryInit⟩)) := by
  have hconstant : code.constant? 0 = some (.method ⟨superName, .nullaryInit⟩) := by
    rw [Code.constant?, hcode.constants]
    rfl
  simp only [linkCode, hcode.instructions, List.forM_eq_forM, List.forM_cons, List.forM_nil,
    Instruction.reference?, hconstant, ok_bind]
  cases l.linkReference d .special (some (.method ⟨superName, .nullaryInit⟩)) <;> rfl

theorem checkMethod_delegating (d : ClassDefinition) :
    l.checkMethod d (delegatingMethod code) = l.linkCode d code := by
  obtain ⟨height, hv⟩ := hcode.verify
  simp only [checkMethod, delegatingMethod, hv]
  split <;> rfl

include hfresh habove hopen

theorem define_delegating (access : Access) :
    l.define ⟨access, name, some superName, [delegatingMethod code]⟩ =
      match above.declaredMethod? .nullaryInit with
      | none => .error (.noSuchMethod name ⟨superName, .nullaryInit⟩)
      | some found =>
        if found.access.isStatic then
          .error (.incompatibleCall name ⟨superName, .nullaryInit⟩ .special)
        else
          .ok (⟨l.number, ⟨name, access, [delegatingMethod code]⟩, above.chain⟩,
            { l with classes :=
                ⟨l.number, ⟨name, access, [delegatingMethod code]⟩, above.chain⟩ :: l.classes }) := by
  have hne : superName ≠ name := by
    rintro rfl
    rw [hfresh] at habove
    cases habove
  have hsuper : l.superclass ⟨access, name, some superName, [delegatingMethod code]⟩ = .ok above := by
    simp [superclass, habove, hopen]
  have hlook : l.linkedMethod? ⟨access, name, some superName, [delegatingMethod code]⟩
      ⟨superName, .nullaryInit⟩ .special = above.declaredMethod? .nullaryInit := by
    simp [linkedMethod?, hne, loadedMethod?, habove]
  simp only [define, hfresh, Option.isSome_none, Bool.false_eq_true, if_false, hsuper, ok_bind,
    checkDistinct, List.not_mem_nil, List.forM_eq_forM, List.forM_cons, List.forM_nil,
    checkMethod_delegating hcode, linkCode_delegating hcode, linkReference, hlook]
  cases above.declaredMethod? .nullaryInit with
  | none => rfl
  | some found => cases hs : found.access.isStatic <;> simp [hs]

end

/-! ## Calls -/

/-- A constructor calls `k` further ones, the last of which does nothing. -/
inductive Initializes (l : Loader) : MethodDefinition → Nat → Prop
  | idle {d : MethodDefinition} {run : NativeMethod} (native : d.body = .native run)
      (idle : ∀ vs, run vs = .ok none) : Initializes l d 0
  | calls {code : Code} {superName : String} {found : MethodDefinition} {k : Nat}
      (delegates : code.Delegates superName)
      (declared : l.loadedMethod? superName .nullaryInit .special = some found)
      (above : Initializes l found k) : Initializes l (delegatingMethod code) (k + 1)

theorem Initializes.extends {l l' : Loader} {d : MethodDefinition} {k : Nat}
    (h : l.Initializes d k) (he : l.Extends l') : l'.Initializes d k := by
  induction h with
  | idle native idle => exact .idle native idle
  | calls delegates declared _ ih => exact .calls delegates (he.loadedMethod? declared) ih

end Loader

namespace Machine

/-- How a call ends that takes `k` more calls, one inside the other. -/
def nested (m : Machine) (k : Nat) : Outcome :=
  if m.depth + k < m.options.maxDepth then .completed (.returned none)
  else .failed (.callDepthExceeded m.options.maxDepth)

theorem nested_succ (m : Machine) (k : Nat) :
    m.nested (k + 1) = { m with depth := m.depth + 1 }.nested k := by
  simp only [nested, Nat.add_assoc, Nat.add_comm 1]

theorem leads_delegates {m m' : Machine} {code : Code} {superName : String}
    {found : MethodDefinition} {o : Object} {k : Nat} (hcode : code.Delegates superName)
    (hfound : m.specialMethod ⟨superName, .nullaryInit⟩ = .ok found)
    (hroom : m.depth < m.options.maxDepth)
    (h : ({ m with depth := m.depth + 1 }.call found [.object o]).Leads
      (.stopped m' (m.nested (k + 1)))) :
    ∃ m'', (m.call (delegatingMethod code) [.object o]).Leads (.stopped m'' (m.nested (k + 1))) := by
  obtain ⟨n, hn⟩ := h
  rw [call_code hroom rfl]
  obtain ⟨instructions, constants, labels, locals, lines, maxStack, maxLocals⟩ := code
  obtain ⟨rfl, rfl, rfl⟩ := hcode
  -- the receiver is loaded, and lies on the stack when the constructor above is called
  let loaded (stack : Stack) : Activation := ⟨⟨#[.load .reference 0, .invokeSpecial 0, .leave none],
    #[.method ⟨superName, .nullaryInit⟩], labels, locals, lines, 1, maxLocals⟩, some .nullaryInit, 1,
    #[.object o], stack⟩
  have hcall : Configuration.step ⟨{ m with depth := m.depth + 1 }, loaded ⟨[.object o], 1, 1⟩, []⟩ =
      ({ m with depth := m.depth + 1 }.call found [.object o]).under (loaded ⟨[], 0, 1⟩) [] :=
    Configuration.step_invokeSpecial rfl rfl rfl rfl hfound
  have hreturn : ∃ m'', ((Progress.stopped m' (m.nested (k + 1))).under (loaded ⟨[], 0, 1⟩) []).Leads
      (.stopped m'' (m.nested (k + 1))) := by
    unfold nested
    split
    · exact ⟨_, 1, rfl⟩
    · exact ⟨_, 0, rfl⟩
  obtain ⟨m'', hm''⟩ := hreturn
  refine ⟨m'', Progress.leads_step (Progress.leads_step ?_)⟩
  have hunder := (Progress.leads_under hn).trans hm''
  rw [← hcall] at hunder
  exact hunder

theorem leads_initializes {l : Loader} {d : MethodDefinition} {k : Nat} (h : l.Initializes d k)
    {m : Machine} (hm : m.loader = l) (o : Object) :
    ∃ m', (m.call d [.object o]).Leads (.stopped m' (m.nested k)) := by
  induction h generalizing m with
  | idle native idle =>
    refine ⟨m, 0, ?_⟩
    by_cases hroom : m.depth < m.options.maxDepth
    · rw [call_native hroom native (idle _), nested, if_pos (by omega)]
      rfl
    · rw [call_of_full hroom, nested, if_neg (by omega)]
      rfl
  | @calls code superName found k delegates declared above ih =>
    by_cases hroom : m.depth < m.options.maxDepth
    · obtain ⟨m', hm'⟩ := ih (m := { m with depth := m.depth + 1 }) hm
      rw [← nested_succ] at hm'
      exact leads_delegates delegates (specialMethod_eq_ok.mpr (hm ▸ declared)) hroom hm'
    · refine ⟨m, 0, ?_⟩
      rw [call_of_full hroom, nested, if_neg (by omega)]
      rfl

end Machine

/-! ## Classes on top of each other -/

/-- The definition of a class that was written with nothing but a default constructor. -/
def ClassType.writeConstructed (type above : ClassType) (access : Access) (options : EmitOptions) :
    Except WriteFailure ClassDefinition := do
  return (← (ClassWriter.initial access type above options).addDefaultConstructor).finish

theorem ClassType.writeConstructed_eq (type above : ClassType) (access : Access)
    (options : EmitOptions) : ∃ code, code.Delegates above.internalName ∧
      type.writeConstructed above access options =
        .ok ⟨access, type.internalName, some above.internalName, [delegatingMethod code]⟩ := by
  obtain ⟨code, hcode, hw⟩ :=
    (ClassWriter.initial access type above options).addDefaultConstructor_eq rfl
  refine ⟨code, hcode, ?_⟩
  rw [writeConstructed, hw]
  rfl

structure ClassPlan where
  name : String
  type : ClassType
  named : ClassType.ofName name = .ok type
  added : name ≠ "java.lang.Object" ∧ name ≠ "java.lang.String"
  access : Access
  extensible : access.contains .finalFlag = false
  options : EmitOptions

namespace ClassPlan

def writeAll : ClassType → List ClassPlan → Except WriteFailure (List ClassDefinition)
  | _, [] => .ok []
  | above, p :: ps => do
    let d ← p.type.writeConstructed above p.access p.options
    return d :: (← writeAll p.type ps)

def last : ClassType → List ClassPlan → ClassType
  | above, [] => above
  | _, p :: ps => last p.type ps

theorem name_eq (p : ClassPlan) : Descriptor.replaceChar '/' '.' p.type.internalName = p.name :=
  ClassType.className_of_ofName p.named

theorem internalName_ne (p : ClassPlan) : p.type.internalName ≠ Descriptor.rootClassName ∧
    p.type.internalName ≠ Descriptor.stringClassName := by
  have hname := p.name_eq
  constructor <;> intro he <;> rw [he] at hname
  · exact p.added.1 (hname.symm.trans (by decide))
  · exact p.added.2 (hname.symm.trans (by decide))

theorem nodup_internalNames {ps : List ClassPlan} (h : (ps.map name).Nodup) :
    (ps.map fun p => p.type.internalName).Nodup := by
  refine .of_map (Descriptor.replaceChar '/' '.') ?_
  rwa [List.map_map, List.map_congr_left fun p _ => p.name_eq]

end ClassPlan

namespace Loader

def defineEach (l : Loader) : List ClassDefinition → Except LinkError Loader
  | [] => .ok l
  | d :: ds => do
    let (_, l') ← l.define d
    l'.defineEach ds

/-- A class that can be extended, and `k` classes above it have constructors that it calls. -/
structure Constructs (l : Loader) (name : String) (c : LoadedClass) (k : Nat) : Prop where
  loaded : l.class? name = some c
  extensible : c.access.contains .finalFlag = false
  initializes : ∃ found, c.declaredMethod? .nullaryInit = some found ∧
    found.access.isStatic = false ∧ l.Initializes found k

theorem constructs_initial (number : Nat) (options : LoaderOptions) :
    (initial number options).Constructs Descriptor.rootClassName ⟨number, rootClass, []⟩ 0 where
  loaded := rfl
  extensible := show rootClass.access.contains .finalFlag = false by decide
  initializes := ⟨⟨.publicFlag, .nullaryInit, .native fun _ => .ok none⟩, by rfl, by decide,
    .idle rfl fun _ => rfl⟩

theorem Constructs.define {l : Loader} {superName : String} {above : LoadedClass} {k : Nat}
    (h : l.Constructs superName above k) {name : String} (hfresh : l.class? name = none)
    {access : Access} (hopen : access.contains .finalFlag = false) {code : Code}
    (hcode : code.Delegates superName) : ∃ c l',
      l.define ⟨access, name, some superName, [delegatingMethod code]⟩ = .ok (c, l') ∧
        l'.Constructs name c (k + 1) := by
  obtain ⟨found, hfound, hbound, hinit⟩ := h.initializes
  have hd := define_delegating hfresh h.loaded h.extensible hcode access
  simp only [hfound, hbound, Bool.false_eq_true, if_false] at hd
  have hdeclared : l.loadedMethod? superName .nullaryInit .special = some found :=
    Option.bind_eq_some_iff.mpr ⟨above, h.loaded, hfound⟩
  refine ⟨_, _, hd, (class?_of_define hd name).trans (if_pos rfl), hopen, delegatingMethod code, ?_,
    show Access.publicFlag.isStatic = false by decide, ?_⟩
  · simp [LoadedClass.declaredMethod?, DeclaredClass.method?, findMethod?, delegatingMethod]
  · exact (Initializes.calls hcode hdeclared hinit).extends (extends_of_define hd)

theorem Constructs.defineEach {ps : List ClassPlan} {l : Loader} {above : ClassType}
    {c : LoadedClass} {k : Nat} (h : l.Constructs above.internalName c k)
    (hnames : (ps.map fun p => p.type.internalName).Nodup)
    (hfree : ∀ p ∈ ps, l.class? p.type.internalName = none) :
    ∃ ds l' c', ClassPlan.writeAll above ps = .ok ds ∧ l.defineEach ds = .ok l' ∧
      l'.Constructs (ClassPlan.last above ps).internalName c' (k + ps.length) := by
  induction ps generalizing l above c k with
  | nil => exact ⟨[], l, c, rfl, rfl, h⟩
  | cons p ps ih =>
    -- once the first class is defined it is the class above for the second, one call deeper
    obtain ⟨hnew, hnames⟩ := List.nodup_cons.mp hnames
    obtain ⟨code, hcode, hw⟩ := p.type.writeConstructed_eq above p.access p.options
    obtain ⟨c₁, l₁, hd, h₁⟩ := h.define (hfree p List.mem_cons_self) p.extensible hcode
    have hfree₁ : ∀ q ∈ ps, l₁.class? q.type.internalName = none := by
      intro q hq
      have hne : q.type.internalName ≠ p.type.internalName := fun he =>
        hnew (List.mem_map.mpr ⟨q, hq, he⟩)
      rw [class?_of_define hd, if_neg hne]
      exact hfree q (List.mem_cons_of_mem p hq)
    obtain ⟨ds, l', c', hws, hds, hlast⟩ := ih h₁ hnames hfree₁
    refine ⟨⟨p.access, p.type.internalName, some above.internalName, [delegatingMethod code]⟩ :: ds,
      l', c', ?_, ?_, ?_⟩
    · rw [ClassPlan.writeAll, hw, hws]
      rfl
    · rw [Loader.defineEach, hd]
      exact hds
    · rw [List.length_cons, Nat.add_comm ps.length, ← Nat.add_assoc]
      exact hlast

theorem Constructs.newInstance {l : Loader} {name : String} {c : LoadedClass} {k : Nat}
    (h : l.Constructs name c k) {m : Machine} (hm : m.loader = l) :
    ∃ o p, m.newInstance name = .ok (o, p) ∧ o.content = .instance c.identity ∧
      ∃ fuel m', p.run fuel = some (m', m.nested k) := by
  obtain ⟨found, hfound, _, hinit⟩ := h.initializes
  have hnew : m.newInstance name = .ok ((m.allocate (.instance c.identity)).1,
      (m.allocate (.instance c.identity)).2.call found
        [.object (m.allocate (.instance c.identity)).1]) := by
    simp only [Machine.newInstance, hm, h.loaded, hfound]
  refine ⟨_, _, hnew, rfl, ?_⟩
  obtain ⟨m', n, hn⟩ := Machine.leads_initializes hinit
    (show (m.allocate (.instance c.identity)).2.loader = l from hm) _
  exact ⟨n, m', Progress.run_eq_some.mpr hn⟩

/-- **Default constructors compose.** Classes of distinct names at source level, each written with
nothing but a default constructor on the one before, the first on the root class, can all be
defined, and an instance of the last one is made if one call for each of them and one for the root
are allowed. On a class without a constructor to call, a default constructor does not link. -/
theorem newInstance_constructed (number : Nat) (options : LoaderOptions) (ps : List ClassPlan)
    (hnames : (ps.map ClassPlan.name).Nodup) :
    (∃ ds l c, ClassPlan.writeAll .root ps = .ok ds ∧
      (initial number options).defineEach ds = .ok l ∧
      l.class? (ClassPlan.last .root ps).internalName = some c ∧
      ∀ m : Machine, m.loader = l → m.depth = 0 →
        ∃ o p, m.newInstance (ClassPlan.last .root ps).internalName = .ok (o, p) ∧
          o.content = .instance c.identity ∧
          ∃ fuel m', p.run fuel = some (m', if ps.length + 1 ≤ m.options.maxDepth
            then .completed (.returned none)
            else .failed (.callDepthExceeded m.options.maxDepth))) ∧
    ∀ (l : Loader) (superName : String) (above : LoadedClass),
      l.class? superName = some above → above.access.contains .finalFlag = false →
      above.declaredMethod? .nullaryInit = none →
      ∀ (type : ClassType) (access : Access) (emit : EmitOptions),
        l.class? type.internalName = none →
        ∃ d, type.writeConstructed ⟨superName⟩ access emit = .ok d ∧
          l.define d = .error (.noSuchMethod type.internalName ⟨superName, .nullaryInit⟩) ∧
          l.after d = l := by
  constructor
  · have hfree : ∀ p ∈ ps, (initial number options).class? p.type.internalName = none := by
      intro p _
      obtain ⟨hroot, hstring⟩ := p.internalName_ne
      simp [class?, initial, LoadedClass.name, rootClass, stringClass, hroot.symm, hstring.symm]
    obtain ⟨ds, l, c, hws, hds, hlast⟩ := (constructs_initial number options).defineEach
      (ClassPlan.nodup_internalNames hnames) hfree
    refine ⟨ds, l, c, hws, hds, hlast.loaded, fun m hm hdepth => ?_⟩
    obtain ⟨o, p, hp, ho, fuel, m', hrun⟩ := hlast.newInstance hm
    rw [Machine.nested, hdepth, Nat.zero_add, Nat.zero_add] at hrun
    exact ⟨o, p, hp, ho, fuel, m', hrun⟩
  · intro l superName above habove hopen hnone type access emit hfresh
    obtain ⟨code, hcode, hw⟩ := type.writeConstructed_eq ⟨superName⟩ access emit
    have hd := define_delegating hfresh habove hopen hcode access
    rw [hnone] at hd
    exact ⟨_, hw, hd, by rw [after, hd]⟩

def twoPlans : List ClassPlan :=
  [⟨"A", ⟨"A"⟩, by decide, by decide, .publicFlag, by decide, {}⟩,
    ⟨"p.B", ⟨"p/B"⟩, by decide, by decide, .none, by decide, { debugInfo := false }⟩]

/-- A class with a static method and no constructor. -/
def bareClass : ClassDefinition where
  access := .publicFlag
  name := "A"
  superName := some Descriptor.rootClassName
  methods := [⟨.staticFlag, ⟨"f", .nullaryVoid⟩, .code ⟨#[.leave none], #[], #[], [], [], 0, 0⟩⟩]

def bareLoader : Loader := (initial 0 {}).defineAll [bareClass]

theorem newInstance_constructed_twoPlans : (twoPlans.map ClassPlan.name).Nodup ∧
    (∃ ds l c, ClassPlan.writeAll .root twoPlans = .ok ds ∧ (initial 0 {}).defineEach ds = .ok l ∧
      l.class? "p/B" = some c ∧
      (∃ o p fuel m', (Machine.initial l { maxDepth := 3 } 0).newInstance "p/B" = .ok (o, p) ∧
        o.content = .instance c.identity ∧
        p.run fuel = some (m', .completed (.returned none))) ∧
      ∃ o p fuel m', (Machine.initial l { maxDepth := 2 } 0).newInstance "p/B" = .ok (o, p) ∧
        p.run fuel = some (m', .failed (.callDepthExceeded 2))) ∧
    ∃ above d, bareLoader.class? "A" = some above ∧
      above.access.contains .finalFlag = false ∧ above.declaredMethod? .nullaryInit = none ∧
      bareLoader.class? "B" = none ∧
      (ClassType.mk "B").writeConstructed ⟨"A"⟩ .publicFlag {} = .ok d ∧
      bareLoader.define d = .error (.noSuchMethod "B" ⟨"A", .nullaryInit⟩) ∧
      bareLoader.after d = bareLoader := by
  have hnames : (twoPlans.map ClassPlan.name).Nodup := by decide
  obtain ⟨⟨ds, l, c, hws, hds, hc, hnew⟩, hrefused⟩ := newInstance_constructed 0 {} twoPlans hnames
  refine ⟨hnames, ⟨ds, l, c, hws, hds, hc, ?_, ?_⟩, ?_⟩
  · obtain ⟨o, p, hp, ho, fuel, m', hrun⟩ := hnew (.initial l { maxDepth := 3 } 0) rfl rfl
    exact ⟨o, p, fuel, m', hp, ho, hrun⟩
  · obtain ⟨o, p, hp, _, fuel, m', hrun⟩ := hnew (.initial l { maxDepth := 2 } 0) rfl rfl
    exact ⟨o, p, fuel, m', hp, hrun⟩
  · have habove : bareLoader.class? "A" =
        some ⟨0, ⟨"A", .publicFlag, bareClass.methods⟩, [rootClass]⟩ := by cbv
    have hfree : bareLoader.class? "B" = none := by cbv
    obtain ⟨d, hw, hd, hafter⟩ :=
      hrefused bareLoader "A" _ habove rfl rfl ⟨"B"⟩ .publicFlag {} hfree
    exact ⟨_, d, habove, rfl, rfl, hfree, hw, hd, hafter⟩

end Loader

end StackCode
