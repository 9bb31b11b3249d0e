import StackCode.Class.Definition

/-!
# Loaded classes

A loaded class is a chain: what the class declares itself, then what each class above it declares, up
to the root. Chains are finite by construction.
-/

namespace StackCode

/-- What one class declares, its superclass left out. -/
structure DeclaredClass where
  name : String
  access : Access
  methods : List MethodDefinition

def DeclaredClass.method? (c : DeclaredClass) (m : Method) : Option MethodDefinition :=
  findMethod? c.methods m

structure LoadedClass where
  /-- The number of the loader that defined the class. -/
  loader : Nat
  declared : DeclaredClass
  /-- The classes above, nearest first. -/
  ancestors : List DeclaredClass

namespace LoadedClass

variable (c : LoadedClass)

def name : String := c.declared.name

def access : Access := c.declared.access

def chain : List DeclaredClass := c.declared :: c.ancestors

def superClass? : Option LoadedClass :=
  match c.ancestors with
  | [] => none
  | d :: ds => some ⟨c.loader, d, ds⟩

def declaredMethod? (m : Method) : Option MethodDefinition := c.declared.method? m

def inheritedMethod? (m : Method) : Option MethodDefinition :=
  c.chain.findSome? fun d => d.method? m

def isSubclassOf (name : String) : Bool :=
  c.chain.any fun d => d.name == name

def identity : ClassIdentity :=
  ⟨c.loader, c.name, c.ancestors.map DeclaredClass.name⟩

def structureText : String :=
  labelled "LoadedClass" [("name", quoted c.name),
    ("super", match c.superClass? with
      | some s => applied "Some" [quoted s.name]
      | none => "None"),
    ("methods", toString c.declared.methods.length)]

end LoadedClass

end StackCode
