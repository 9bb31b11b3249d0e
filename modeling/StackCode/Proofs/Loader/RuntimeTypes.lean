import StackCode.Class.RuntimeType
import StackCode.Proofs.Descriptor.ClassName
import StackCode.Proofs.Loader.Resolution

/-!
# Types at run time

A descriptor is resolved at what its arrays hold in the end: the levels are taken off before and put
back after. So a well-formed descriptor has a type at run time exactly if its class, when it has one,
is defined. The type spells the descriptor again, and stays what it is while the loader grows.
-/

namespace StackCode

namespace RuntimeType

def dimensions : RuntimeType → Nat
  | array element => element.dimensions + 1
  | _ => 0

def nest : Nat → RuntimeType → RuntimeType
  | 0, t => t
  | n + 1, t => array (nest n t)

@[simp] theorem dimensions_nest (n : Nat) (t : RuntimeType) :
    (nest n t).dimensions = t.dimensions + n := by
  induction n with
  | zero => rfl
  | succ n ih => rw [nest, dimensions, ih, Nat.add_assoc]

@[simp] theorem descriptor_nest (n : Nat) (t : RuntimeType) :
    (nest n t).descriptor = .nest n t.descriptor := by
  induction n with
  | zero => rfl
  | succ n ih => rw [nest, descriptor, ih, Descriptor.nest]

end RuntimeType

namespace Descriptor

theorem replaceChar_of_notMem {old new : Char} {name : String} (h : old ∉ name.toList) :
    replaceChar old new name = name := by
  rw [← String.toList_inj]
  simp only [replaceChar, String.toList_ofList]
  refine (List.map_congr_left fun c hc => ?_).trans (List.map_id _)
  have hne : c ≠ old := by
    rintro rfl
    exact h hc
  simp [hne]

/-- In what is well formed a method shape can only be the whole. -/
theorem innermost_eq_method {d : Descriptor} (hw : d.isWellFormed) (s : Signature) :
    d.innermost = s.toDescriptor ↔ d = s.toDescriptor := by
  refine ⟨fun hi => ?_, fun h => by rw [h]; rfl⟩
  by_cases hv : d.isValueType
  · have hinner := innermost_isValueType hw hv
    rw [hi] at hinner
    cases hinner
  · cases d with
    | method => exact hi
    | void => cases hi
    | primitive | object | array => exact absurd rfl hv

end Descriptor

namespace Loader

variable {l l' : Loader} {d : Descriptor} {t : RuntimeType}

/-! ## Through the array levels -/

theorem resolve_of_isWellFormed (l : Loader) (h : d.isWellFormed) :
    l.resolve d = (l.resolve d.innermost).map (.nest d.dimensions) := by
  induction d using Descriptor.innermost.induct with
  | case1 element ih =>
    rw [Descriptor.isWellFormed, Bool.and_eq_true] at h
    rw [resolve, if_pos h.1, ih h.2, Descriptor.innermost, Descriptor.dimensions]
    cases l.resolve element.innermost <;> rfl
  | case2 d hne =>
    rw [Descriptor.innermost.eq_2 d hne, Descriptor.dimensions.eq_2 d hne]
    cases l.resolve d <;> rfl

theorem resolve_of_not_isWellFormed (l : Loader) (h : d.isWellFormed = false) :
    l.resolve d = .error (.misplaced (.element d.innermost)) := by
  induction d using Descriptor.innermost.induct with
  | case1 element ih =>
    rw [resolve, Descriptor.innermost]
    by_cases hv : element.isValueType
    · rw [Descriptor.isWellFormed, hv, Bool.true_and] at h
      rw [if_pos hv, ih h]
    · rw [if_neg hv]
      cases element <;> first | rfl | exact absurd rfl hv
  | case2 d hne =>
    rw [Descriptor.isWellFormed.eq_2 d hne] at h
    cases h

inductive Bare (l : Loader) : Descriptor → RuntimeType → Prop
  | primitive (p : Primitive) : Bare l (.primitive p) (.primitive p)
  | void : Bare l .void .void
  | object {name : String} {c : LoadedClass} : l.class? name = some c →
    Bare l (.object name) (.ofClass c.identity)

theorem Bare.resolve (h : l.Bare d t) : l.resolve d = .ok t := by
  cases h with
  | primitive | void => rfl
  | object hc => rw [Loader.resolve, hc]

theorem bare_of_resolve (h : l.resolve d.innermost = .ok t) : l.Bare d.innermost t := by
  cases hi : d.innermost with
  | array element => exact absurd hi (d.innermost_ne_array element)
  | method => rw [hi] at h; cases h
  | primitive p => rw [hi] at h; cases h; exact .primitive p
  | void => rw [hi] at h; cases h; exact .void
  | object name =>
    rw [hi, Loader.resolve] at h
    split at h <;> cases h
    rename_i c hc
    exact .object hc

theorem resolve_eq_ok :
    l.resolve d = .ok t ↔
      d.isWellFormed ∧ ∃ r, l.Bare d.innermost r ∧ t = .nest d.dimensions r := by
  constructor
  · intro h
    by_cases hw : d.isWellFormed
    · rw [resolve_of_isWellFormed l hw] at h
      cases hr : l.resolve d.innermost with
      | error e => rw [hr] at h; cases h
      | ok r =>
        rw [hr] at h
        cases h
        exact ⟨hw, r, bare_of_resolve hr, rfl⟩
    · rw [resolve_of_not_isWellFormed l (Bool.eq_false_iff.mpr hw)] at h
      cases h
  · rintro ⟨hw, r, hr, rfl⟩
    rw [resolve_of_isWellFormed l hw, hr.resolve]
    rfl

/-! ## What a type at run time knows of its descriptor -/

theorem dimensions_of_resolve (h : l.resolve d = .ok t) : t.dimensions = d.dimensions := by
  obtain ⟨-, r, hr, rfl⟩ := resolve_eq_ok.mp h
  have hflat : r.dimensions = 0 := by
    generalize d.innermost = i at hr
    cases hr <;> rfl
  rw [RuntimeType.dimensions_nest, hflat, Nat.zero_add]

theorem descriptor_of_resolve (h : l.resolve d = .ok t)
    (hdots : ∀ name, d.innermost = .object name → '.' ∉ name.toList) : t.descriptor = d := by
  obtain ⟨-, r, hr, rfl⟩ := resolve_eq_ok.mp h
  have hspelt : r.descriptor = d.innermost := by
    generalize d.innermost = i at hr hdots
    cases hr with
    | primitive | void => rfl
    | @object name c hc =>
      -- the class is stored under the name it was asked for, and a name without dots is kept
      have hname : c.identity.name = name := name_of_class? hc
      rw [RuntimeType.descriptor, hname, Descriptor.ofName,
        Descriptor.replaceChar_of_notMem (hdots name rfl)]
  rw [RuntimeType.descriptor_nest, hspelt, Descriptor.nest_innermost]

theorem Extends.bare (he : l.Extends l') (h : l.Bare d t) : l'.Bare d t := by
  cases h with
  | primitive p => exact .primitive p
  | void => exact .void
  | object hc => exact .object (he.class? _ _ hc)

theorem Extends.resolve (he : l.Extends l') (h : l.resolve d = .ok t) : l'.resolve d = .ok t := by
  obtain ⟨hw, r, hr, ht⟩ := resolve_eq_ok.mp h
  exact resolve_eq_ok.mpr ⟨hw, r, he.bare hr, ht⟩

/-! ## What can be resolved -/

theorem Hierarchy.class?_eq_none (h : l.Hierarchy) (name : String) :
    l.class? name = none ↔ ∀ c ∈ l.classes, c.name ≠ name := by
  rw [Option.eq_none_iff_forall_ne_some]
  simp only [Ne, h.stored, not_and]

theorem Hierarchy.bare_iff (h : l.Hierarchy) (d : Descriptor) :
    (∃ r, l.Bare d.innermost r) ↔ (∀ s : Signature, d.innermost ≠ s.toDescriptor) ∧
      ∀ name, d.innermost = .object name → ∃ c ∈ l.classes, c.name = name := by
  constructor
  · rintro ⟨r, hr⟩
    generalize d.innermost = i at hr
    cases hr with
    | primitive | void => exact ⟨nofun, nofun⟩
    | object hc =>
      refine ⟨nofun, fun name hi => ?_⟩
      cases hi
      exact ⟨_, (h.stored _ _).mp hc⟩
  · rintro ⟨hmethod, hclass⟩
    cases hi : d.innermost with
    | array element => exact absurd hi (d.innermost_ne_array element)
    | method params returns => exact absurd hi (hmethod ⟨params, returns⟩)
    | primitive p => exact ⟨_, .primitive p⟩
    | void => exact ⟨_, .void⟩
    | object name =>
      obtain ⟨c, hc⟩ := hclass name hi
      exact ⟨_, .object ((h.stored c name).mpr hc)⟩

theorem Hierarchy.resolves_iff (h : l.Hierarchy) (d : Descriptor) :
    (∃ t, l.resolve d = .ok t) ↔ (∀ s : Signature, d ≠ s.toDescriptor) ∧ d.isWellFormed ∧
      ∀ name, d.innermost = .object name → ∃ c ∈ l.classes, c.name = name := by
  have hbare : (∃ t, l.resolve d = .ok t) ↔ d.isWellFormed ∧ ∃ r, l.Bare d.innermost r := by
    simp only [resolve_eq_ok]
    exact ⟨fun ⟨_, hw, r, hr, _⟩ => ⟨hw, r, hr⟩, fun ⟨hw, r, hr⟩ => ⟨_, hw, r, hr, rfl⟩⟩
  rw [hbare, h.bare_iff]
  constructor
  · rintro ⟨hw, hmethod, hclass⟩
    exact ⟨fun s hs => hmethod s ((Descriptor.innermost_eq_method hw s).mpr hs), hw, hclass⟩
  · rintro ⟨hmethod, hw, hclass⟩
    exact ⟨hw, fun s hs => hmethod s ((Descriptor.innermost_eq_method hw s).mp hs), hclass⟩

theorem resolve_of_unknown (hw : d.isWellFormed) {name : String} (hi : d.innermost = .object name)
    (hc : l.class? name = none) : l.resolve d = .error (.unknownClass d.innermost) := by
  rw [resolve_of_isWellFormed l hw, hi, resolve, hc]
  rfl

/-- **Types at run time are what well-formed types over defined classes stand for.** After any
definitions a descriptor is resolved exactly if it is no method shape, is well formed, and its class,
if it has one, is defined. A method shape and what is not well formed are refused as such, and what is
left for the class that is missing. The type has the array levels of the descriptor and is the same
after any more definitions, and it gives the descriptor back if the class is named without dots. -/
theorem resolve_exact (number : Nat) (options : LoaderOptions) (definitions : List ClassDefinition)
    (d : Descriptor) :
    let l := (initial number options).defineAll definitions
    ((∃ t, l.resolve d = .ok t) ↔ (∀ s : Signature, d ≠ s.toDescriptor) ∧ d.isWellFormed ∧
      ∀ name, d.innermost = .object name → ∃ c ∈ l.classes, c.name = name) ∧
    (∀ s : Signature, d = s.toDescriptor → l.resolve d = .error (.misplaced (.runtimeType d))) ∧
    (d.isWellFormed = false → l.resolve d = .error (.misplaced (.element d.innermost))) ∧
    (d.isWellFormed → ∀ name, d.innermost = .object name → (∀ c ∈ l.classes, c.name ≠ name) →
      l.resolve d = .error (.unknownClass d.innermost)) ∧
    ∀ t, l.resolve d = .ok t →
      t.dimensions = d.dimensions ∧
      (∀ further, (l.defineAll further).resolve d = .ok t) ∧
      ((∀ name, d.innermost = .object name → '.' ∉ name.toList) → t.descriptor = d) := by
  intro l
  have hl : l.Hierarchy := (hierarchy_initial number options).defineAll definitions
  refine ⟨hl.resolves_iff d, ?_, resolve_of_not_isWellFormed l, ?_, fun t ht => ⟨?_, ?_, ?_⟩⟩
  · rintro s rfl
    rfl
  · intro hw name hi hmissing
    exact resolve_of_unknown hw hi ((hl.class?_eq_none name).mpr hmissing)
  · exact dimensions_of_resolve ht
  · exact fun further => (extends_defineAll l further).resolve ht
  · exact descriptor_of_resolve ht

def pointClass : ClassDefinition :=
  ⟨.publicFlag, "geo/Point", some Descriptor.rootClassName, []⟩

def lineClass : ClassDefinition := ⟨.publicFlag, "geo/Line", some "geo/Point", []⟩

theorem resolve_exact_points :
    let l := (initial 0 {}).defineAll [pointClass]
    (∃ t, l.resolve (.nest 260 (.object "geo/Point")) = .ok t ∧ t.dimensions = 260 ∧
      t.descriptor = .nest 260 (.object "geo/Point") ∧
      (l.defineAll [lineClass]).resolve (.nest 260 (.object "geo/Point")) = .ok t) ∧
    l.resolve (.nest 2 (.object "geo/Line")) = .error (.unknownClass (.object "geo/Line")) ∧
    l.resolve (.nest 2 .void) = .error (.misplaced (.element .void)) := by
  intro l
  have hclasses : l.classes.map LoadedClass.name =
      ["geo/Point", Descriptor.rootClassName, Descriptor.stringClassName] := by decide
  obtain ⟨hiff, -, -, -, hknows⟩ :=
    resolve_exact 0 {} [pointClass] (.nest 260 (.object "geo/Point"))
  obtain ⟨-, -, -, hunknown, -⟩ := resolve_exact 0 {} [pointClass] (.nest 2 (.object "geo/Line"))
  obtain ⟨-, -, hmisplaced, -, -⟩ := resolve_exact 0 {} [pointClass] (.nest 2 .void)
  have hinnermost : (Descriptor.nest 260 (.object "geo/Point")).innermost = .object "geo/Point" := by
    rfl
  refine ⟨?_, ?_, hmisplaced rfl⟩
  · have hdefined : ∃ c ∈ l.classes, c.name = "geo/Point" :=
      List.mem_map.mp (hclasses ▸ List.mem_cons_self)
    have hw : (Descriptor.nest 260 (.object "geo/Point")).isWellFormed :=
      Descriptor.nest_isWellFormed.mpr ⟨rfl, .inr rfl⟩
    simp only [hinnermost, Descriptor.object.injEq, forall_eq'] at hiff hknows
    obtain ⟨t, ht⟩ := hiff.mpr ⟨nofun, hw, hdefined⟩
    obtain ⟨hdimensions, hstable, hspelt⟩ := hknows t ht
    rw [Descriptor.nest_dimensions] at hdimensions
    exact ⟨t, ht, hdimensions, hspelt (by decide), hstable [lineClass]⟩
  · refine hunknown rfl "geo/Line" rfl fun c hc hname => ?_
    have hmem : "geo/Line" ∈ l.classes.map LoadedClass.name := List.mem_map.mpr ⟨c, hc, hname⟩
    rw [hclasses] at hmem
    exact absurd hmem (by decide)

end Loader

end StackCode
