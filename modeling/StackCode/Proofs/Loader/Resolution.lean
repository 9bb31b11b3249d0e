import StackCode.Proofs.Loader.Hierarchy

/-!
# References stay resolved

What the linker finds for an instruction while its class is being defined, a machine finds for it
ever after. The linker goes through a definition that is not loaded yet, then through the loaded
classes above it; a machine goes along the finished chain of the class, in a loader that may have
grown. `finds_of_defineAll` says that both come to the same class or method.
-/

namespace StackCode

def ReferenceSort.Admits : ReferenceSort → Constant → Prop
  | new, .classRef _ | special, .method _ | static, .method _ => True
  | _, _ => False

/-- The class that a body of `d` names by the time `d` is there, as the class `c`. -/
def Loader.linkedClass? (l : Loader) (d : ClassDefinition) (c : LoadedClass) (name : String) :
    Option LoadedClass :=
  if name = d.name then some c else l.class? name

namespace Activation

variable (a : Activation) (ref : MethodRef) (found : MethodDefinition)

def callStatic : Except Fault Action := do
  let (arguments, stack) ← a.stack.popMany a.pc ref.method.signature.params.length []
  return .call stack found arguments

def callSpecial : Except Fault Action := do
  let (arguments, stack) ← a.stack.popMany a.pc ref.method.signature.params.length []
  let (receiver, stack) ← stack.pop a.pc
  if receiver.isNull then throw (.error (.nullReference a.pc (a.code.lineAt? a.pc)))
  return .call stack found (receiver :: arguments)

end Activation

/-- For an instruction of a body of `d` the machine finds what the linker found in `l`, where `d` was
defined as `c`, and goes on with it whenever it performs the instruction. -/
inductive Machine.Finds (m : Machine) (l : Loader) (d : ClassDefinition) (c : LoadedClass)
    (code : Code) : Instruction → Prop
  | new {index : UInt16} {name : String} {found : LoadedClass}
      (constant : code.constant? index = some (.classRef name))
      (linked : l.linkedClass? d c name = some found) (loaded : m.loader.class? name = some found)
      (performs : ∀ a : Activation, a.code = code →
        m.perform a (.new index) = .ok (.pushInstance a.stack found.identity)) :
      Finds m l d c code (.new index)
  | special {index : UInt16} {ref : MethodRef} {owner : LoadedClass} {found : MethodDefinition}
      (constant : code.constant? index = some (.method ref))
      (linked : l.linkedMethod? d ref .special = some found) (bound : found.access.isStatic = false)
      (loaded : m.loader.class? ref.owner = some owner)
      (declared : owner.declaredMethod? ref.method = some found)
      (performs : ∀ a : Activation, a.code = code →
        m.perform a (.invokeSpecial index) = a.callSpecial ref found) :
      Finds m l d c code (.invokeSpecial index)
  | static {index : UInt16} {ref : MethodRef} {found : MethodDefinition}
      (constant : code.constant? index = some (.method ref))
      (linked : l.linkedMethod? d ref .static = some found) (unbound : found.access.isStatic = true)
      (loaded : m.staticMethod ref = .ok found)
      (performs : ∀ a : Activation, a.code = code →
        m.perform a (.invokeStatic index) = a.callStatic ref found) :
      Finds m l d c code (.invokeStatic index)

namespace Loader

variable {l l' : Loader} {d : ClassDefinition} {c : LoadedClass}

/-! ## Where classes come from -/

theorem extends_defineAll (l : Loader) (ds : List ClassDefinition) : l.Extends (l.defineAll ds) :=
  defineAll_induction (.refl l) fun _ _ _ _ _ h hd => h.trans (extends_of_define hd)

theorem defineAll_append (l : Loader) (ds es : List ClassDefinition) :
    l.defineAll (ds ++ es) = (l.defineAll ds).defineAll es := List.foldl_append

theorem defined_of_mem {ds : List ClassDefinition} (h : c ∈ (l.defineAll ds).classes) :
    c ∈ l.classes ∨ ∃ before d later, ds = before ++ d :: later ∧
      (l.defineAll before).define d = .ok (c, l.defineAll (before ++ [d])) := by
  induction ds generalizing l with
  | nil => exact .inl h
  | cons d ds ih =>
    rcases ih h with hc | ⟨before, d', later, rfl, hd⟩
    · rcases addsAtMost l d with ⟨_, _, hsame⟩ | ⟨c', hd, _, _, hadded, _⟩
      · exact .inl (hsame ▸ hc)
      · rw [hadded] at hc
        rcases List.mem_cons.mp hc with rfl | hc
        · exact .inr ⟨[], d, ds, rfl, hd⟩
        · exact .inl hc
    · exact .inr ⟨d :: before, d', later, rfl, hd⟩

/-! ## Look-ups of the linker and of a machine -/

theorem class?_of_linked (h : l.define d = .ok (c, l')) (name : String) :
    l'.class? name = l.linkedClass? d c name := class?_of_define h name

theorem finds_of_define (h : l.define d = .ok (c, l')) {code : Code} (hl : l'.Links code)
    {m : Machine} (he : l'.Extends m.loader) {i : Instruction} (hi : i ∈ code.instructions)
    {sort : ReferenceSort} {index : UInt16} {k : Constant}
    (hr : i.reference? = some (sort, index)) (hk : code.constant? index = some k)
    (hsort : sort.Admits k) : m.Finds l d c code i := by
  have hresolves := hl i hi sort index k hr hk
  have href {ref : MethodRef} (hk : code.constant? index = some (.method ref)) {a : Activation}
      (ha : a.code = code) : Machine.methodRef a index = .ok ref := by
    simp only [Machine.methodRef, ha, hk]
  cases i <;> cases hr <;> cases k <;> cases hsort
  case new name =>
    obtain ⟨found, hfound⟩ := Option.isSome_iff_exists.mp hresolves
    have hloaded := he.class? name found hfound
    refine .new hk (class?_of_linked h name ▸ hfound) hloaded fun a ha => ?_
    simp only [Machine.perform, ha, hk, hloaded]
  case invokeSpecial ref =>
    obtain ⟨found, hfound, hstatic⟩ := hresolves
    obtain ⟨owner, howner, hdeclared⟩ := Option.bind_eq_some_iff.mp hfound
    have hspecial : m.specialMethod ref = .ok found :=
      Machine.specialMethod_eq_ok.mpr (he.loadedMethod? hfound)
    refine .special hk (linkedMethod?_of_define h ref .special ▸ hfound) hstatic
      (he.class? ref.owner owner howner) hdeclared fun a ha => ?_
    simp only [Machine.perform, href hk ha, ok_bind, hspecial]
    rfl
  case invokeStatic ref =>
    obtain ⟨found, hfound, hstatic⟩ := hresolves
    have hloaded : m.staticMethod ref = .ok found :=
      Machine.staticMethod_eq_ok.mpr ⟨he.loadedMethod? hfound, hstatic⟩
    refine .static hk (linkedMethod?_of_define h ref .static ▸ hfound) hstatic hloaded fun a ha => ?_
    simp only [Machine.perform, href hk ha, ok_bind, hloaded]
    rfl

/-- **What was linked stays found.** Every class of a loader that has a body was made by one of its
definitions. For each instruction of the body that refers to a class or a method, reached or not, a
machine finds what the linker found when that definition was made, in this loader and after any
further definitions. -/
theorem finds_of_defineAll (number : Nat) (options : LoaderOptions) (ds : List ClassDefinition)
    (c : LoadedClass) (hc : c ∈ ((initial number options).defineAll ds).classes)
    (method : MethodDefinition) (hm : method ∈ c.declared.methods) (code : Code)
    (hb : method.body = .code code) :
    ∃ before d later, ds = before ++ d :: later ∧
      ((initial number options).defineAll before).define d =
        .ok (c, (initial number options).defineAll (before ++ [d])) ∧
      ∀ i ∈ code.instructions, ∀ sort index k, i.reference? = some (sort, index) →
        code.constant? index = some k → sort.Admits k →
        ∀ (further : List ClassDefinition) (m : Machine),
          m.loader = ((initial number options).defineAll ds).defineAll further →
          m.Finds ((initial number options).defineAll before) d c code i := by
  rcases defined_of_mem hc with hinitial | ⟨before, d, later, rfl, hd⟩
  · -- the classes there from the start have no bodies
    exfalso
    have hnative : ∀ c ∈ (initial number options).classes, ∀ m ∈ c.declared.methods,
        m.code? = none := forall_mem_initial.mpr ⟨by simp [rootClass, MethodDefinition.code?],
          by simp [stringClass]⟩
    have := hnative c hinitial method hm
    rw [MethodDefinition.code?, hb] at this
    cases this
  · refine ⟨before, d, later, rfl, hd, fun i hi sort index k hr hk hsort further m hloader => ?_⟩
    obtain ⟨_, _, _, _, _, _, _, hclass, _⟩ := define_eq_ok hd
    have hmem : method ∈ d.methods := by
      rw [hclass] at hm
      exact hm
    have hgrown : ((initial number options).defineAll (before ++ [d])).Extends m.loader := by
      rw [hloader, ← defineAll_append, List.append_cons before d later, List.append_assoc,
        defineAll_append _ (before ++ [d]) (later ++ further)]
      exact extends_defineAll _ _
    exact finds_of_define hd (links_of_define hd hmem hb).1 hgrown hi hr hk hsort

def sharedRef : MethodRef := ⟨"B", ⟨"one", .mk ⟨[], .int⟩⟩⟩

def sharingClass : ClassDefinition where
  access := .publicFlag
  name := "A"
  superName := some Descriptor.rootClassName
  methods := [⟨.staticFlag, sharedRef.method,
    .code ⟨#[.iconst 1, .leave (some .int)], #[], #[], [], [], 1, 0⟩⟩]

def heirCode : Code :=
  ⟨#[.new 0, .pop, .invokeStatic 1, .leave (some .int)], #[.classRef "B", .method sharedRef], #[],
    [], [], 1, 0⟩

def heirMethod : MethodDefinition := ⟨.staticFlag, ⟨"f", .mk ⟨[], .int⟩⟩, .code heirCode⟩

def heirClass : ClassDefinition := ⟨.publicFlag, "B", some "A", [heirMethod]⟩

def heir : LoadedClass :=
  ⟨0, ⟨"B", .publicFlag, [heirMethod]⟩, [⟨"A", .publicFlag, sharingClass.methods⟩, rootClass]⟩

theorem finds_of_defineAll_heir :
    heir ∈ ((initial 0 {}).defineAll [sharingClass, heirClass]).classes ∧
      heirMethod ∈ heir.declared.methods ∧ .invokeStatic 1 ∈ heirCode.instructions ∧
      heirCode.constant? 1 = some (.method sharedRef) ∧
      ∀ d : ClassDefinition, ∀ m : Machine,
        m.loader = ((initial 0 {}).defineAll [sharingClass, heirClass]).defineAll [d] →
        ∃ found, m.staticMethod sharedRef = .ok found ∧ found.access.isStatic = true := by
  have hclass : ((initial 0 {}).defineAll [sharingClass, heirClass]).class? "B" = some heir := by cbv
  have hmem := mem_of_class? hclass
  have hi : .invokeStatic 1 ∈ heirCode.instructions := by simp [heirCode]
  refine ⟨hmem, List.mem_singleton_self _, hi, rfl, fun d m hm => ?_⟩
  obtain ⟨_, _, _, _, _, hfinds⟩ := finds_of_defineAll 0 {} _ heir hmem heirMethod
    (List.mem_singleton_self _) heirCode rfl
  cases hfinds _ hi .static 1 _ rfl rfl trivial [d] m hm with
  | static hconstant _ hstatic hloaded _ =>
    cases hconstant
    exact ⟨_, hloaded, hstatic⟩

end Loader

end StackCode
