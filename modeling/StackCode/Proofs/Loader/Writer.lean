import Mathlib
import StackCode.Emitter.Operation
import StackCode.Proofs.Loader.Constructor

/-!
# Written classes

A writer that verifies what it adds hands a loader nothing that the loader could find fault with in
the class itself. What is left to fail is what the class refers to: its name may be taken, and the
classes and methods it names may be missing or of another sort.
-/

namespace StackCode

/-! ## Additions -/

/-- What is asked of a class writer. Emitters are values of their own, so it makes no difference when
the writer began one, or what was done in between. -/
inductive Addition where
  /-- A method that is begun, emitted and handed back. -/
  | method (access : Access) (m : Method) (os : List Operation)
  | defaultConstructor

namespace ClassWriter

variable (w : ClassWriter)

def emit : Addition → Except Misuse Emitter
  | .method access m os => (w.beginMethod access m).applyAll os
  | .defaultConstructor => w.constructorBody

def tryAdd : Addition → Except WriteFailure ClassWriter
  | .method access m os =>
    match (w.beginMethod access m).applyAll os with
    | .error m => .error (.misuse m)
    | .ok e =>
      match w.addMethod e with
      | .error error => .error (.refused error)
      | .ok w => .ok w
  | .defaultConstructor => w.addDefaultConstructor

/-- The writer after an addition was tried; one that fails adds nothing. -/
def after (a : Addition) : ClassWriter :=
  match w.tryAdd a with
  | .ok w' => w'
  | .error _ => w

def afterAll (as : List Addition) : ClassWriter := as.foldl after w

def addedBy? (a : Addition) : Option MethodDefinition :=
  match w.tryAdd a, w.emit a with
  | .ok _, .ok e => e.endMethod.toOption
  | _, _ => none

def added : ClassWriter → List Addition → List MethodDefinition
  | _, [] => []
  | w, a :: as => (w.addedBy? a).toList ++ (w.after a).added as

end ClassWriter

def MethodDefinition.Verified (d : MethodDefinition) : Prop :=
  ∃ code height, d.body = .code code ∧
    (Body.mk code d.access d.method.signature).verify = .ok height

theorem Emitter.definition_of_endMethod {e : Emitter} {d : MethodDefinition}
    (h : e.endMethod = .ok d) :
    d.method = e.method ∧ (e.options.verify = true → d.Verified) := by
  obtain ⟨code, _, h⟩ := bind_eq_ok.mp h
  by_cases hv : e.options.verify = true
  · rw [if_pos hv] at h
    split at h
    · cases h
    · rename_i height hbody
      cases h
      exact ⟨rfl, fun _ => ⟨code, height, rfl, hbody⟩⟩
  · rw [if_neg hv] at h
    cases h
    exact ⟨rfl, fun hv' => absurd hv' hv⟩

namespace ClassWriter

variable {w w' : ClassWriter} {a : Addition}

theorem addMethod_eq_ok {e : Emitter} (h : w.addMethod e = .ok w') :
    findMethod? w.methods e.method = none ∧
      ∃ d, e.endMethod = .ok d ∧ w' = { w with methods := w.methods ++ [d] } := by
  unfold addMethod at h
  split at h
  · cases h
  · rename_i hnew
    split at h
    · cases h
    · rename_i d hd
      cases h
      exact ⟨by simpa using hnew, d, hd, rfl⟩

theorem tryAdd_eq_ok (h : w.tryAdd a = .ok w') :
    ∃ e, w.emit a = .ok e ∧ w.addMethod e = .ok w' := by
  have hadd : (match w.emit a with
      | .error m => .error (.misuse m)
      | .ok e =>
        match w.addMethod e with
        | .error error => .error (.refused error)
        | .ok w => .ok w) = Except.ok (ε := WriteFailure) w' := by
    cases a <;> exact h
  split at hadd
  · cases hadd
  · rename_i e he
    split at hadd
    · cases hadd
    · rename_i w₁ hw
      cases hadd
      exact ⟨e, he, hw⟩

theorem options_emit {e : Emitter} (h : w.emit a = .ok e) : e.options = w.options := by
  cases a with
  | method access m os =>
    have hheader := Request.header_applyAll (Operation.applyAll_requests h)
    exact congrArg (fun header => header.2.2) hheader
  | defaultConstructor =>
    cases (constructorBody_eq w).symm.trans h
    rfl

theorem after_cases (w : ClassWriter) (a : Addition) :
    (∃ failure, w.tryAdd a = .error failure ∧ w.after a = w ∧ w.addedBy? a = none) ∨
      ∃ e d, w.tryAdd a = .ok (w.after a) ∧ w.emit a = .ok e ∧ e.endMethod = .ok d ∧
        findMethod? w.methods e.method = none ∧
        w.after a = { w with methods := w.methods ++ [d] } ∧ w.addedBy? a = some d := by
  cases h : w.tryAdd a with
  | error failure => exact .inl ⟨failure, rfl, by rw [after, h], by simp [addedBy?, h]⟩
  | ok w' =>
    have hafter : w.after a = w' := by rw [after, h]
    obtain ⟨e, he, hadd⟩ := tryAdd_eq_ok h
    obtain ⟨hnew, d, hd, hw⟩ := addMethod_eq_ok hadd
    have hby : w.addedBy? a = some d := by simp [addedBy?, h, he, hd, Except.toOption]
    exact .inr ⟨e, d, by rw [hafter], he, hd, hnew, hafter.trans hw, hby⟩

structure Sound (w : ClassWriter) : Prop where
  verify : w.options.verify = true
  distinct : (w.methods.map MethodDefinition.method).Nodup
  verified : ∀ d ∈ w.methods, d.Verified

theorem Sound.after (h : w.Sound) (a : Addition) : (w.after a).Sound := by
  rcases w.after_cases a with ⟨_, _, hw, _⟩ | ⟨e, d, _, he, hd, hnew, hw, _⟩
  · rwa [hw]
  · obtain ⟨hmethod, hverified⟩ := Emitter.definition_of_endMethod hd
    -- the writer asks for the signature of the emitter, which is that of the finished method
    have hfresh : ∀ d' ∈ w.methods, d'.method ≠ d.method := by
      simpa [findMethod?, hmethod] using hnew
    rw [hw]
    refine ⟨h.verify, ?_, fun d' hd' => ?_⟩
    · rw [List.map_append, List.nodup_append]
      refine ⟨h.distinct, List.nodup_singleton _, fun m hm m' hm' => ?_⟩
      obtain ⟨d', hd', rfl⟩ := List.mem_map.mp hm
      rw [List.mem_singleton.mp hm']
      exact hfresh d' hd'
    · rcases List.mem_append.mp hd' with hold | hadded
      · exact h.verified d' hold
      · rw [List.mem_singleton.mp hadded]
        exact hverified (options_emit he ▸ h.verify)

theorem Sound.afterAll (h : w.Sound) (as : List Addition) : (w.afterAll as).Sound := by
  induction as generalizing w with
  | nil => exact h
  | cons a as ih => exact ih (h.after a)

theorem after_eq (w : ClassWriter) (a : Addition) :
    w.after a = { w with methods := w.methods ++ (w.addedBy? a).toList } := by
  rcases w.after_cases a with ⟨_, _, hw, hnone⟩ | ⟨_, d, _, _, _, _, hw, hsome⟩
  · simp [hw, hnone]
  · simp [hw, hsome]

theorem afterAll_eq (w : ClassWriter) (as : List Addition) :
    w.afterAll as = { w with methods := w.methods ++ w.added as } := by
  induction as generalizing w with
  | nil => simp [afterAll, added]
  | cons a as ih =>
    have hrest : w.afterAll (a :: as) = (w.after a).afterAll as := rfl
    rw [hrest, ih, added]
    generalize (w.after a).added as = ds
    rw [after_eq, List.append_assoc]

end ClassWriter

/-! ## Definition -/

/-- The errors that are not the class's own: what it refers to is taken, missing or of another sort. -/
inductive LinkError.External (l : Loader) (d : ClassDefinition) : LinkError → Prop
  | duplicateClass {c : LoadedClass} : l.class? d.name = some c → External l d (.duplicateClass d.name)
  | noSuchClass {name : String} : l.class? name = none → External l d (.noSuchClass d.name name)
  | finalSuperclass {superName : String} {c : LoadedClass} : d.superName = some superName →
      l.class? superName = some c → c.access.contains .finalFlag = true →
      External l d (.finalSuperclass d.name superName)
  | noSuchMethod {ref : MethodRef} {sort : ReferenceSort} : l.linkedMethod? d ref sort = none →
      External l d (.noSuchMethod d.name ref)
  | incompatibleCall {ref : MethodRef} {sort : ReferenceSort} {found : MethodDefinition} :
      l.linkedMethod? d ref sort = some found → found.access.isStatic ≠ (sort == .static) →
      External l d (.incompatibleCall d.name ref sort)

namespace Loader

variable (l : Loader) {d : ClassDefinition}

theorem gives_superclass {superName : String} (hs : d.superName = some superName) :
    Gives (fun _ => True) (LinkError.External l d) (l.superclass d) := by
  simp only [superclass, hs]
  split
  · rename_i hnone
    exact .noSuchClass hnone
  · rename_i c hc
    split
    · rename_i hfinal
      exact .finalSuperclass hs hc hfinal
    · trivial

theorem gives_linkReference (sort : ReferenceSort) (k : Option Constant) :
    Gives (fun _ => True) (LinkError.External l d) (l.linkReference d sort k) := by
  unfold linkReference
  split
  · rename_i name
    split
    · rename_i hname
      exact .noSuchClass (by simpa using hname.2)
    · trivial
  · rename_i ref
    split
    · rename_i hnone
      exact .noSuchMethod hnone
    · rename_i found hfound
      split
      · trivial
      · rename_i hsort
        exact .incompatibleCall hfound hsort
  · trivial

theorem gives_linkCode (code : Code) :
    Gives (fun _ => True) (LinkError.External l d) (l.linkCode d code) := by
  refine Gives.forM fun i _ => ?_
  split
  · trivial
  · exact l.gives_linkReference _ _

theorem gives_checkMethod {m : MethodDefinition} (hm : m.Verified) :
    Gives (fun _ => True) (LinkError.External l d) (l.checkMethod d m) := by
  obtain ⟨code, height, hb, hv⟩ := hm
  -- if the loader verifies, it sees the body that was verified when the method was added
  simp only [checkMethod, hb, hv]
  split <;> exact l.gives_linkCode code

theorem checkDistinct_of_nodup {seen : List Method} {ms : List MethodDefinition}
    (h : (ms.map MethodDefinition.method).Nodup) (hseen : ∀ m ∈ ms, m.method ∉ seen) :
    checkDistinct d seen ms = .ok () := by
  induction ms generalizing seen with
  | nil => rfl
  | cons m ms ih =>
    obtain ⟨hm, hms⟩ := List.nodup_cons.mp h
    rw [checkDistinct, if_neg (hseen m List.mem_cons_self)]
    refine ih hms fun m' hm' => ?_
    rw [List.mem_cons, not_or]
    exact ⟨fun he => hm (List.mem_map.mpr ⟨m', hm', he⟩), hseen m' (List.mem_cons_of_mem m hm')⟩

theorem gives_define {superName : String} (hs : d.superName = some superName)
    (hdistinct : (d.methods.map MethodDefinition.method).Nodup)
    (hverified : ∀ m ∈ d.methods, m.Verified) :
    Gives (fun _ => True) (LinkError.External l d) (l.define d) := by
  unfold define
  split
  · rename_i hname
    obtain ⟨c, hc⟩ := Option.isSome_iff_exists.mp hname
    exact .duplicateClass hc
  · rw [checkDistinct_of_nodup hdistinct fun _ _ => List.not_mem_nil]
    refine (l.gives_superclass hs).bind fun above => ?_
    exact (Gives.forM fun m hm => l.gives_checkMethod (hverified m hm)).bind fun _ => trivial

end Loader

/-- **Written classes load, or what they refer to is at fault.** Whatever was tried on a writer that
verifies, an addition that fails changes nothing and one that succeeds adds its method at the end.
The class that is finished has these methods, of distinct signatures, and no loader finds fault with
the class itself, whether it verifies or not. -/
theorem ClassWriter.define_finish (access : Access) (thisType superType : ClassType)
    (debugInfo : Bool) (as : List Addition) :
    let w := initial access thisType superType ⟨debugInfo, true⟩
    let w' := w.afterAll as
    w'.beginMethod = w.beginMethod ∧
    (∀ a, (∃ failure, w'.tryAdd a = .error failure ∧ w'.after a = w' ∧ w'.addedBy? a = none) ∨
      ∃ e d, w'.tryAdd a = .ok (w'.after a) ∧ w'.emit a = .ok e ∧ e.endMethod = .ok d ∧
        w'.after a = { w' with methods := w'.methods ++ [d] } ∧ w'.addedBy? a = some d) ∧
    w'.finish = ⟨access, thisType.internalName, some superType.internalName, w.added as⟩ ∧
    (w'.finish.methods.map MethodDefinition.method).Nodup ∧
    ∀ (l : Loader) (error : LinkError), l.define w'.finish = .error error →
      error.External l w'.finish := by
  intro w w'
  have hinitial : w.Sound := ⟨rfl, .nil, fun _ hd => by cases hd⟩
  have hsound : w'.Sound := hinitial.afterAll as
  have hw : w' = { w with methods := w.added as } := w.afterAll_eq as
  refine ⟨by rw [hw]; rfl, fun a => ?_, by rw [hw]; rfl, hsound.distinct, fun l error h => ?_⟩
  · rcases w'.after_cases a with ⟨failure, hfail, hsame⟩ | ⟨e, d, hok, he, hd, _, hadded⟩
    · exact .inl ⟨failure, hfail, hsame⟩
    · exact .inr ⟨e, d, hok, he, hd, hadded⟩
  · have hgives := l.gives_define (d := w'.finish) rfl hsound.distinct hsound.verified
    rwa [h] at hgives

def ClassWriter.someFailures : List Addition :=
  [.defaultConstructor, .defaultConstructor, .method .staticFlag ⟨"f", .nullaryVoid⟩ []]

theorem ClassWriter.define_finish_someFailures :
    let w := initial .publicFlag ⟨"A"⟩ ⟨Descriptor.stringClassName⟩ {}
    let d := (w.afterAll someFailures).finish
    d.methods.map MethodDefinition.method = [.nullaryInit] ∧
      (Loader.initial 0 {}).define d = .error (.finalSuperclass "A" Descriptor.stringClassName) ∧
      LinkError.External (.initial 0 {}) d (.finalSuperclass "A" Descriptor.stringClassName) := by
  intro w d
  obtain ⟨_, _, hd, _, hexternal⟩ :=
    define_finish .publicFlag ⟨"A"⟩ ⟨Descriptor.stringClassName⟩ true someFailures
  have herror : (Loader.initial 0 {}).define d =
      .error (.finalSuperclass "A" Descriptor.stringClassName) := by
    rw [show d = _ from hd]
    rfl
  exact ⟨by cbv, herror, hexternal _ _ herror⟩

end StackCode
