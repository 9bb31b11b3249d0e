import StackCode.Class.Loaded
import StackCode.Options
import StackCode.Verifier.Check

/-!
# Class loaders

A loader holds the classes it has defined, each under its own name, and starts with the root class and
the class of texts. Defining a class checks its name, its superclass and its methods, verifies the
bodies, and links them: every class and method that a body refers to has to exist. A definition that
fails changes nothing.
-/

namespace StackCode

inductive ReferenceSort where
  | new | special | static
deriving DecidableEq

def ReferenceSort.name : ReferenceSort → String
  | new => "new"
  | special => "invokespecial"
  | static => "invokestatic"

def Instruction.reference? : Instruction → Option (ReferenceSort × UInt16)
  | new index => some (.new, index)
  | invokeSpecial index => some (.special, index)
  | invokeStatic index => some (.static, index)
  | _ => none

inductive LinkError where
  | duplicateClass (name : String)
  | noSuchClass (inClass name : String)
  | missingSuperclass (inClass : String)
  | finalSuperclass (inClass superName : String)
  | duplicateMethod (inClass : String) (method : Method)
  | noSuchMethod (inClass : String) (ref : MethodRef)
  | incompatibleCall (inClass : String) (ref : MethodRef) (sort : ReferenceSort)
  | verify (inClass : String) (method : Method) (error : VerifyError)
deriving DecidableEq

def LinkError.cause : LinkError → String
  | duplicateClass _ => "DuplicateClass"
  | noSuchClass _ _ => "NoSuchClass"
  | missingSuperclass _ => "MissingSuperclass"
  | finalSuperclass _ _ => "FinalSuperclass"
  | duplicateMethod _ _ => "DuplicateMethod"
  | noSuchMethod _ _ => "NoSuchMethod"
  | incompatibleCall _ _ _ => "IncompatibleCall"
  | verify _ _ _ => "Verify"

def LinkError.message : LinkError → String
  | duplicateClass name => s!"class {name} is already defined"
  | noSuchClass inClass name => s!"{inClass}: no class named {name}"
  | missingSuperclass inClass => s!"{inClass}: only the root class may omit a superclass"
  | finalSuperclass inClass superName => s!"{inClass}: cannot extend final class {superName}"
  | duplicateMethod inClass method => s!"{inClass}: method {method} is declared twice"
  | noSuchMethod inClass ref => s!"{inClass}: no such method {ref}"
  | incompatibleCall inClass ref sort => s!"{inClass}: {ref} cannot be called with {sort.name}"
  | verify inClass method error => s!"{inClass}.{method}: {error.message}"

structure Loader where
  /-- Tells this loader's classes from those of the same name in others. -/
  number : Nat
  options : LoaderOptions
  classes : List LoadedClass

namespace Loader

def rootClass : DeclaredClass :=
  ⟨Descriptor.rootClassName, .publicFlag,
    [⟨.publicFlag, .nullaryInit, .native fun _ => .ok none⟩]⟩

def stringClass : DeclaredClass :=
  ⟨Descriptor.stringClassName, .union .publicFlag .finalFlag, []⟩

def initial (number : Nat) (options : LoaderOptions) : Loader :=
  ⟨number, options, [⟨number, rootClass, []⟩, ⟨number, stringClass, [rootClass]⟩]⟩

variable (l : Loader)

def class? (name : String) : Option LoadedClass :=
  l.classes.find? fun c => c.name == name

def superclass (d : ClassDefinition) : Except LinkError LoadedClass :=
  match d.superName with
  | none => .error (.missingSuperclass d.name)
  | some superName =>
    match l.class? superName with
    | none => .error (.noSuchClass d.name superName)
    | some c =>
      if c.access.contains .finalFlag then .error (.finalSuperclass d.name superName) else .ok c

/-- A method of a class already loaded. Calls of static methods look above the class too. -/
def loadedMethod? (owner : String) (m : Method) (sort : ReferenceSort) : Option MethodDefinition :=
  (l.class? owner).bind fun c => if sort = .static then c.inheritedMethod? m else c.declaredMethod? m

/-- The method that a body of `d` refers to. The class itself is not loaded yet. -/
def linkedMethod? (d : ClassDefinition) (ref : MethodRef) (sort : ReferenceSort) :
    Option MethodDefinition :=
  if ref.owner = d.name then
    match d.method? ref.method with
    | some found => some found
    | none =>
      if sort = .static then
        d.superName.bind fun superName => l.loadedMethod? superName ref.method sort
      else none
  else l.loadedMethod? ref.owner ref.method sort

/-- Checks what one instruction refers to. Constants of other sorts are left to the verifier. -/
def linkReference (d : ClassDefinition) (sort : ReferenceSort) : Option Constant → Except LinkError Unit
  | some (.classRef name) =>
    if name ≠ d.name ∧ (l.class? name).isNone then .error (.noSuchClass d.name name) else .ok ()
  | some (.method ref) =>
    match l.linkedMethod? d ref sort with
    | none => .error (.noSuchMethod d.name ref)
    | some found =>
      if found.access.isStatic = (sort == .static) then .ok ()
      else .error (.incompatibleCall d.name ref sort)
  | _ => .ok ()

def linkCode (d : ClassDefinition) (code : Code) : Except LinkError Unit :=
  code.instructions.toList.forM fun i =>
    match i.reference? with
    | none => .ok ()
    | some (sort, index) => l.linkReference d sort (code.constant? index)

def checkMethod (d : ClassDefinition) (m : MethodDefinition) : Except LinkError Unit :=
  match m.body with
  | .native _ => .ok ()
  | .code code => do
    if l.options.verify then
      match (Body.mk code m.access m.method.signature).verify with
      | .error e => throw (.verify d.name m.method e)
      | .ok _ => pure ()
    l.linkCode d code

def checkDistinct (d : ClassDefinition) (seen : List Method) :
    List MethodDefinition → Except LinkError Unit
  | [] => .ok ()
  | m :: ms =>
    if m.method ∈ seen then .error (.duplicateMethod d.name m.method)
    else checkDistinct d (m.method :: seen) ms

def define (d : ClassDefinition) : Except LinkError (LoadedClass × Loader) := do
  if (l.class? d.name).isSome then throw (.duplicateClass d.name)
  let above ← l.superclass d
  checkDistinct d [] d.methods
  d.methods.forM (l.checkMethod d)
  let c : LoadedClass := ⟨l.number, ⟨d.name, d.access, d.methods⟩, above.chain⟩
  return (c, { l with classes := c :: l.classes })

end Loader

end StackCode
