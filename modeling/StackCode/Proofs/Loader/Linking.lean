import StackCode.Class.Loader
import StackCode.Machine.Basic
import StackCode.Proofs.Sequence

/-!
# Linked classes

A definition that succeeds leaves a loader in which everything that the new bodies refer to can be
found, and later definitions never change what was found. So whatever a machine looks up for a call
is a method whose body was verified and linked.
-/

namespace StackCode

namespace Loader

/-- The loader after a definition was tried; one that fails changes nothing. -/
def after (l : Loader) (d : ClassDefinition) : Loader :=
  match l.define d with
  | .ok (_, l') => l'
  | .error _ => l

def defineAll (l : Loader) (ds : List ClassDefinition) : Loader := ds.foldl after l

theorem defineAll_induction {P : Loader → Prop} {ds : List ClassDefinition} {l : Loader} (h : P l)
    (hdefine : ∀ d ∈ ds, ∀ l c l', P l → l.define d = .ok (c, l') → P l') : P (l.defineAll ds) := by
  induction ds generalizing l with
  | nil => exact h
  | cons d ds ih =>
    refine ih ?_ fun d' hd' => hdefine d' (List.mem_cons_of_mem _ hd')
    cases hl : l.define d with
    | error e => rwa [after, hl]
    | ok p =>
      rw [after, hl]
      exact hdefine d List.mem_cons_self l p.1 p.2 h hl

/-- What a constant refers to can be found, in the way an instruction of the sort asks. -/
def Resolves (l : Loader) (sort : ReferenceSort) : Constant → Prop
  | .classRef name => (l.class? name).isSome
  | .method ref => ∃ d, l.loadedMethod? ref.owner ref.method sort = some d ∧
      d.access.isStatic = (sort == .static)
  | _ => True

def Links (l : Loader) (code : Code) : Prop :=
  ∀ i ∈ code.instructions, ∀ sort index c, i.reference? = some (sort, index) →
    code.constant? index = some c → l.Resolves sort c

/-- Nothing that can be found is lost or changed. -/
structure Extends (l l' : Loader) : Prop where
  options : l'.options = l.options
  class? : ∀ name c, l.class? name = some c → l'.class? name = some c

theorem Extends.refl (l : Loader) : l.Extends l := ⟨rfl, fun _ _ h => h⟩

theorem Extends.trans {l l' l'' : Loader} (h : l.Extends l') (h' : l'.Extends l'') : l.Extends l'' :=
  ⟨h'.options.trans h.options, fun name c hc => h'.class? name c (h.class? name c hc)⟩

theorem Extends.loadedMethod? {l l' : Loader} (h : l.Extends l') {owner : String} {m : Method}
    {sort : ReferenceSort} {d : MethodDefinition} (hd : l.loadedMethod? owner m sort = some d) :
    l'.loadedMethod? owner m sort = some d := by
  obtain ⟨c, hc, hm⟩ := Option.bind_eq_some_iff.mp hd
  exact Option.bind_eq_some_iff.mpr ⟨c, h.class? owner c hc, hm⟩

theorem Extends.resolves {l l' : Loader} (h : l.Extends l') {sort : ReferenceSort} {c : Constant}
    (hc : l.Resolves sort c) : l'.Resolves sort c := by
  cases c with
  | classRef name =>
    obtain ⟨c, hc⟩ := Option.isSome_iff_exists.mp hc
    exact Option.isSome_iff_exists.mpr ⟨c, h.class? name c hc⟩
  | method ref =>
    obtain ⟨d, hd, hs⟩ := hc
    exact ⟨d, h.loadedMethod? hd, hs⟩
  | int | float | long | double | string => trivial

theorem Extends.links {l l' : Loader} (h : l.Extends l') {code : Code} (hl : l.Links code) :
    l'.Links code :=
  fun i hi sort index c hr hc => h.resolves (hl i hi sort index c hr hc)

/-! ## A definition that succeeds -/

theorem superclass_eq_ok {l : Loader} {d : ClassDefinition} {above : LoadedClass}
    (h : l.superclass d = .ok above) :
    ∃ superName, d.superName = some superName ∧ l.class? superName = some above ∧
      above.access.contains .finalFlag = false := by
  unfold superclass at h
  split at h
  · cases h
  · rename_i superName hs
    split at h
    · cases h
    · rename_i c hc
      split at h
      · cases h
      · rename_i hextensible
        cases h
        exact ⟨superName, hs, hc, by simpa using hextensible⟩

theorem define_eq_ok {l l' : Loader} {d : ClassDefinition} {c : LoadedClass}
    (h : l.define d = .ok (c, l')) :
    l.class? d.name = none ∧ (∀ m ∈ d.methods, l.checkMethod d m = .ok ()) ∧
      ∃ superName above, d.superName = some superName ∧ l.class? superName = some above ∧
        above.access.contains .finalFlag = false ∧
        c = ⟨l.number, ⟨d.name, d.access, d.methods⟩, above.chain⟩ ∧
        l' = { l with classes := c :: l.classes } := by
  unfold define at h
  split at h
  · cases h
  · rename_i hfresh
    simp only [bind_eq_ok, pure_eq_ok] at h
    obtain ⟨above, habove, _, _, _, hm, he⟩ := h
    obtain ⟨superName, hs, hc, hextensible⟩ := superclass_eq_ok habove
    cases he
    exact ⟨by simpa using hfresh, forM_eq_ok.mp hm, superName, above, hs, hc, hextensible, rfl, rfl⟩

section
variable {l l' : Loader} {d : ClassDefinition} {c : LoadedClass} (h : l.define d = .ok (c, l'))
include h

theorem class?_of_define (name : String) :
    l'.class? name = if name = d.name then some c else l.class? name := by
  obtain ⟨_, _, _, _, _, _, _, rfl, rfl⟩ := define_eq_ok h
  by_cases hn : name = d.name
  · subst hn
    simp [class?, LoadedClass.name]
  · have hne : (d.name == name) = false := by simpa using Ne.symm hn
    simp [class?, LoadedClass.name, hn, hne]

theorem extends_of_define : l.Extends l' := by
  obtain ⟨hfresh, _, _, _, _, _, _, _, hl⟩ := define_eq_ok h
  refine ⟨by rw [hl], fun name c' hc => ?_⟩
  rw [class?_of_define h, if_neg, hc]
  rintro rfl
  rw [hfresh] at hc
  cases hc

theorem linkedMethod?_of_define (ref : MethodRef) (sort : ReferenceSort) :
    l.linkedMethod? d ref sort = l'.loadedMethod? ref.owner ref.method sort := by
  obtain ⟨_, _, superName, above, hs, habove, _, hc, _⟩ := define_eq_ok h
  unfold linkedMethod? loadedMethod?
  rw [class?_of_define h]
  by_cases ho : ref.owner = d.name
  · rw [if_pos ho, if_pos ho, Option.bind_some, hs, Option.bind_some, habove, Option.bind_some, hc]
    have hown : DeclaredClass.method? ⟨d.name, d.access, d.methods⟩ ref.method =
        d.method? ref.method := rfl
    simp only [LoadedClass.inheritedMethod?, LoadedClass.declaredMethod?, LoadedClass.chain,
      List.findSome?_cons, hown]
    cases d.method? ref.method <;> cases sort <;> rfl
  · rw [if_neg ho, if_neg ho]

theorem resolves_of_define {sort : ReferenceSort} {k : Constant}
    (hk : l.linkReference d sort (some k) = .ok ()) : l'.Resolves sort k := by
  cases k with
  | classRef name =>
    simp only [linkReference] at hk
    split at hk
    · cases hk
    · rename_i hname
      simp only [Resolves, class?_of_define h]
      by_cases hn : name = d.name
      · simp [hn]
      · simpa [hn, Option.isSome_iff_ne_none] using hname
  | method ref =>
    simp only [linkReference, linkedMethod?_of_define h] at hk
    split at hk
    · cases hk
    · rename_i found hfound
      split at hk
      · rename_i hs
        exact ⟨found, hfound, hs⟩
      · cases hk
  | int | float | long | double | string => trivial

theorem links_of_define {m : MethodDefinition} {code : Code} (hm : m ∈ d.methods)
    (hb : m.body = .code code) :
    l'.Links code ∧
      (l.options.verify = true →
        ∃ height, (Body.mk code m.access m.method.signature).verify = .ok height) := by
  obtain ⟨_, hcheck, _⟩ := define_eq_ok h
  have hcode := hcheck m hm
  have hlinks : l.linkCode d code = .ok () → l'.Links code := by
    intro hlink i hi sort index k hr hk
    have := forM_eq_ok.mp hlink i (by simpa using hi)
    simp only [hr, hk] at this
    exact resolves_of_define h this
  simp only [checkMethod, hb] at hcode
  by_cases hv : l.options.verify = true
  · cases hbody : (Body.mk code m.access m.method.signature).verify with
    | error e => simp [hv, hbody, bind_eq_ok, throw_ne_ok] at hcode
    | ok height =>
      simp only [hv, hbody, if_true] at hcode
      exact ⟨hlinks hcode, fun _ => ⟨height, rfl⟩⟩
  · simp only [hv] at hcode
    exact ⟨hlinks hcode, fun hv' => absurd hv' hv⟩

end

/-! ## What a machine may call -/

end Loader

def Code.LoadsNoClass (code : Code) : Prop :=
  ∀ index name, .ldc index ∈ code.instructions → code.constant? index ≠ some (.classRef name)

/-- All methods have bodies of instructions, which load no class as a constant. -/
def ClassDefinition.Plain (d : ClassDefinition) : Prop :=
  ∀ m ∈ d.methods, ∃ code, m.body = .code code ∧ code.LoadsNoClass

namespace Loader

/-- A method whose calls cannot go wrong: its body was verified and linked, or it does nothing, as
the initializer of the root class. -/
inductive Callable (l : Loader) (m : MethodDefinition) : Prop
  | code {code : Code} {height : Nat} : m.body = .code code →
      (Body.mk code m.access m.method.signature).verify = .ok height → l.Links code →
      code.LoadsNoClass → Callable l m
  | idle {run : NativeMethod} : m.body = .native run → (∀ vs, run vs = .ok none) →
      m.method.signature.returns.kind? = none → Callable l m

def Sound (l : Loader) : Prop := ∀ c ∈ l.classes, ∀ dc ∈ c.chain, ∀ m ∈ dc.methods, l.Callable m

theorem Callable.extends {l l' : Loader} {m : MethodDefinition} (h : l.Callable m)
    (he : l.Extends l') : l'.Callable m := by
  cases h with
  | code hb hv hl hc => exact .code hb hv (he.links hl) hc
  | idle hb hr hk => exact .idle hb hr hk

theorem mem_of_class? {l : Loader} {name : String} {c : LoadedClass} (h : l.class? name = some c) :
    c ∈ l.classes := List.mem_of_find?_eq_some h

def AllMethods (l : Loader) (P : MethodDefinition → Prop) : Prop :=
  ∀ c ∈ l.classes, ∀ dc ∈ c.chain, ∀ m ∈ dc.methods, P m

section
variable {P : MethodDefinition → Prop}

theorem allMethods_initial (number : Nat) (options : LoaderOptions)
    (hroot : ∀ m ∈ rootClass.methods, P m) : (initial number options).AllMethods P := by
  intro c hc dc hdc m hm
  simp only [initial, List.mem_cons, List.not_mem_nil, or_false] at hc
  rcases hc with rfl | rfl
  · rw [List.mem_singleton.mp hdc] at hm
    exact hroot m hm
  · simp only [LoadedClass.chain, List.mem_cons, List.not_mem_nil, or_false] at hdc
    rcases hdc with rfl | rfl
    · cases hm
    · exact hroot m hm

theorem AllMethods.define {l l' : Loader} {d : ClassDefinition} {c : LoadedClass}
    (h : l.AllMethods P) (hd : ∀ m ∈ d.methods, P m) (hl : l.define d = .ok (c, l')) :
    l'.AllMethods P := by
  obtain ⟨_, _, _, above, _, habove, _, hc, hclasses⟩ := define_eq_ok hl
  intro c' hc' dc hdc m hm
  rw [hclasses] at hc'
  -- the class is the new one or an old one; of the new one, a class above it is an old one
  rcases List.mem_cons.mp hc' with rfl | hc'
  · rw [hc] at hdc
    rcases List.mem_cons.mp hdc with rfl | hdc
    · exact hd m hm
    · exact h above (mem_of_class? habove) dc hdc m hm
  · exact h c' hc' dc hdc m hm

theorem method_of_findMethod? {ms : List MethodDefinition} {m : Method} {d : MethodDefinition}
    (h : findMethod? ms m = some d) : d ∈ ms ∧ d.method = m :=
  ⟨List.mem_of_find?_eq_some h, by simpa using List.find?_some h⟩

theorem AllMethods.loadedMethod? {l : Loader} (h : l.AllMethods P) {owner : String} {m : Method}
    {sort : ReferenceSort} {d : MethodDefinition} (hd : l.loadedMethod? owner m sort = some d) :
    P d ∧ d.method = m := by
  obtain ⟨c, hc, hm⟩ := Option.bind_eq_some_iff.mp hd
  split at hm
  · obtain ⟨dc, hdc, hfind⟩ := List.exists_of_findSome?_eq_some hm
    obtain ⟨hmem, hmethod⟩ := method_of_findMethod? hfind
    exact ⟨h c (mem_of_class? hc) dc hdc d hmem, hmethod⟩
  · obtain ⟨hmem, hmethod⟩ := method_of_findMethod? hm
    exact ⟨h c (mem_of_class? hc) c.declared (by simp [LoadedClass.chain]) d hmem, hmethod⟩

end

theorem sound_initial (number : Nat) (options : LoaderOptions) :
    (initial number options).Sound := by
  refine allMethods_initial number options fun m hm => ?_
  rw [List.mem_singleton.mp hm]
  exact .idle rfl (fun _ => rfl) rfl

theorem Sound.define {l l' : Loader} {d : ClassDefinition} {c : LoadedClass} (h : l.Sound)
    (hv : l.options.verify = true) (hd : d.Plain) (hl : l.define d = .ok (c, l')) : l'.Sound := by
  have hold : l.AllMethods l'.Callable :=
    fun c hc dc hdc m hm => (h c hc dc hdc m hm).extends (extends_of_define hl)
  refine hold.define (fun m hm => ?_) hl
  obtain ⟨code, hb, hplain⟩ := hd m hm
  obtain ⟨hlinks, hverify⟩ := links_of_define hl hm hb
  obtain ⟨height, hheight⟩ := hverify hv
  exact .code hb hheight hlinks hplain

theorem Sound.defineAll {l : Loader} {ds : List ClassDefinition} (h : l.Sound)
    (hv : l.options.verify = true) (hds : ∀ d ∈ ds, d.Plain) : (l.defineAll ds).Sound := by
  have hsound : (l.defineAll ds).Sound ∧ (l.defineAll ds).options.verify = true :=
    defineAll_induction (P := fun l => l.Sound ∧ l.options.verify = true) ⟨h, hv⟩
      fun d hd _ _ _ ⟨h, hv⟩ hl => ⟨h.define hv (hds d hd) hl, (extends_of_define hl).options ▸ hv⟩
  exact hsound.1

theorem Sound.loadedMethod? {l : Loader} (h : l.Sound) {owner : String} {m : Method}
    {sort : ReferenceSort} {d : MethodDefinition} (hd : l.loadedMethod? owner m sort = some d) :
    l.Callable d ∧ d.method = m :=
  AllMethods.loadedMethod? h hd

end Loader

def MethodDefinition.Ordinary (d : MethodDefinition) : Prop :=
  ∀ run, d.body = .native run → ∀ vs, run vs = .ok none

def ClassDefinition.Coded (d : ClassDefinition) : Prop := ∀ m ∈ d.methods, ∃ code, m.body = .code code

namespace Loader

/-- Classes without bodies of the host, but for the initializer of the root class. -/
def Ordinary (l : Loader) : Prop := l.AllMethods MethodDefinition.Ordinary

theorem ordinary_defineAll (number : Nat) (options : LoaderOptions) {ds : List ClassDefinition}
    (hds : ∀ d ∈ ds, d.Coded) : ((initial number options).defineAll ds).Ordinary := by
  refine defineAll_induction (P := Ordinary) ?_ fun d hd l c l' h hl => ?_
  · refine allMethods_initial number options fun m hm run hrun vs => ?_
    rw [List.mem_singleton.mp hm] at hrun
    cases hrun
    rfl
  · refine h.define (fun m hm run hrun => ?_) hl
    obtain ⟨code, hcode⟩ := hds d hd m hm
    rw [hcode] at hrun
    cases hrun

end Loader

/-! ## Look-ups of a machine -/

namespace Machine

variable {m : Machine} {ref : MethodRef} {d : MethodDefinition}

theorem staticMethod_eq_ok :
    m.staticMethod ref = .ok d ↔
      m.loader.loadedMethod? ref.owner ref.method .static = some d ∧ d.access.isStatic = true := by
  unfold staticMethod Loader.loadedMethod?
  cases m.loader.class? ref.owner with
  | none => simp
  | some c =>
    simp only [Option.bind_some, if_true]
    cases c.inheritedMethod? ref.method with
    | none => simp
    | some found =>
      by_cases hs : found.access.isStatic
      · simp only [hs, if_true, Except.ok.injEq, Option.some.injEq]
        exact ⟨fun he => ⟨he, he ▸ hs⟩, And.left⟩
      · simp only [hs, Option.some.injEq]
        exact ⟨fun he => (by cases he), fun ⟨he, hd⟩ => absurd (he ▸ hd) hs⟩

theorem specialMethod_eq_ok :
    m.specialMethod ref = .ok d ↔
      m.loader.loadedMethod? ref.owner ref.method .special = some d := by
  have hlook : m.loader.loadedMethod? ref.owner ref.method .special =
      (m.loader.class? ref.owner).bind fun c => c.declaredMethod? ref.method := rfl
  rw [hlook]
  unfold specialMethod
  cases (m.loader.class? ref.owner).bind fun c => c.declaredMethod? ref.method with
  | none => simp
  | some found => simp

end Machine

end StackCode
