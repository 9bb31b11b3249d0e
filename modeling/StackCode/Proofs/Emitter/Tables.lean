import Mathlib
import StackCode.Proofs.Emitter.Documented
import StackCode.Proofs.Emitter.Faithful
import StackCode.Proofs.Verifier.Worklist

/-!
# Tables of finished bodies

Debug information is in the tables of a body and nowhere else. The tables have one entry for each
request to record a variable or a line, in that order, at the positions where the labels were
marked; without them the same requests give the same body.
-/

namespace StackCode

/-! ## Verifying without tables -/

def Code.withoutTables (code : Code) : Code := { code with locals := [], lines := [] }

namespace Body

def withoutTables (body : Body) : Body := { body with code := body.code.withoutTables }

variable (body : Body)

theorem step_withoutTables : body.withoutTables.step = body.step := by
  funext locals pc stack i
  cases i <;> rfl

theorem round_withoutTables : body.withoutTables.round = body.round := by
  funext locals s pc
  unfold round
  rw [step_withoutTables]
  rfl

theorem explore_withoutTables (locals : Array (Option Kind)) (s : Search) (height : Nat) :
    body.withoutTables.explore locals s height = body.explore locals s height := by
  induction s, height using Body.explore.induct body locals with
  | case1 s height hw => rw [explore_done height hw, explore_done height hw]
  | case2 s height pc rest hw e hr =>
    rw [explore_round height hw, explore_round height hw, round_withoutTables, hr]
  | case3 s height pc rest hw t reached hr _ ih =>
    rw [explore_round height hw, explore_round height hw, round_withoutTables, hr]
    exact ih

theorem verify_withoutTables : body.withoutTables.verify = body.verify := by
  unfold verify
  simp only [explore_withoutTables]
  rfl

end Body

/-! ## Finishing without tables -/

theorem Fewer.map_eq {ss ts : Array LabelState} (h : Fewer ss ts) {f : LabelState → α}
    (hf : ∀ s t, s.Lightens t → f t = f s) : ts.map f = ss.map f := by
  refine Array.ext_getElem? fun k => ?_
  have hk := h k
  rw [Array.getElem?_map, Array.getElem?_map]
  generalize ss[k]? = o, ts[k]? = o' at hk
  cases hk with
  | none => rfl
  | some hst => exact congrArg some (hf _ _ hst)

def MethodDefinition.withoutTables (d : MethodDefinition) : MethodDefinition :=
  { d with body := match d.body with
    | .code code => .code code.withoutTables
    | body => body }

namespace Emitter.Documented

variable {T : Tables} {e e' : Emitter} (h : Documented T e e')
include h

theorem code : e'.code = e.code.withoutTables := by
  cases h with
  | intro _ _ hl =>
    have hlabels := hl.map_eq (f := fun s => LabelInfo.mk s.position s.debugOnly)
      fun s t ⟨_, _, ht⟩ => by rw [ht]
    simp only [Emitter.code, Emitter.withoutTables, Code.withoutTables, hlabels]
    rfl

theorem unmarkedLabel? (hu : e.unmarkedLabel? = none) : e'.unmarkedLabel? = none := by
  rw [unmarkedLabel?_eq_none] at hu ⊢
  cases h with
  | intro _ _ hl =>
    rintro l ⟨t, ht, hnamed⟩
    -- a label that is named here is named in the first emitter, and so it is marked there
    obtain ⟨s, hs, named, hreferenced, rfl⟩ := hl.of_getElem? ht
    obtain ⟨s', hs', hmarked⟩ := hu l ⟨s, hs, hreferenced hnamed⟩
    obtain rfl := Option.some.inj (hs.symm.trans hs')
    exact ⟨_, ht, hmarked⟩

theorem finish {code : Code} (hf : e.finish = .ok code) : e'.finish = .ok code.withoutTables := by
  obtain ⟨ho, hu⟩ := finish_done_iff.mp ⟨code, hf⟩
  obtain ⟨rfl, -⟩ := finish_eq_ok hf
  have ho' : e'.pool.overflowed = false := by cases h; exact ho
  rw [← h.code, Emitter.finish, ho', h.unmarkedLabel? hu]
  rfl

theorem endMethod {code : Code} (hf : e.finish = .ok code) :
    e'.endMethod = e.endMethod.map MethodDefinition.withoutTables := by
  have hverify := (Body.mk code e.access e.method.signature).verify_withoutTables
  have hoptions : e'.options.verify = e.options.verify := by cases h; rfl
  unfold Emitter.endMethod
  rw [hf, h.finish hf, ok_bind, ok_bind, hoptions, h.access, h.method]
  have hsame : (Body.mk code.withoutTables e.access e.method.signature).verify =
      (Body.mk code e.access e.method.signature).verify := hverify
  rw [hsame]
  cases e.options.verify with
  | false => rfl
  | true => cases (Body.mk code e.access e.method.signature).verify <;> rfl

end Emitter.Documented

/-! ## Entries -/

def Operation.local? : Operation → Option LocalVariable
  | visitLocal v => some v
  | _ => none

def Operation.line? : Operation → Option (Nat × Label)
  | visitLine line start => some (line, start)
  | _ => none

theorem Operation.mem_variables {os : List Operation} {v : LocalVariable}
    (h : v ∈ os.filterMap local?) : .visitLocal v ∈ os := by
  obtain ⟨o, ho, hv⟩ := List.mem_filterMap.mp h
  cases o <;> cases hv
  exact ho

theorem Operation.mem_lines {os : List Operation} {line : Nat × Label}
    (h : line ∈ os.filterMap line?) : .visitLine line.1 line.2 ∈ os := by
  obtain ⟨o, ho, hl⟩ := List.mem_filterMap.mp h
  cases o <;> cases hl
  exact ho

theorem Tables.foldl_record (os : List Operation) (T : Tables) :
    (os.foldl record T).locals.toList =
        T.locals.toList ++ (os.filterMap Operation.local?).map LocalVariable.pending ∧
      (os.foldl record T).lines.toList = T.lines.toList ++ os.filterMap Operation.line? := by
  induction os generalizing T with
  | nil => simp
  | cons o os ih =>
    obtain ⟨hlocals, hlines⟩ := ih (T.record o)
    rw [List.foldl_cons, hlocals, hlines]
    cases o <;> simp [record, Operation.local?, Operation.line?, List.filterMap_cons]

def Request.MarksAfter (rs : List Request) (l : Label) (n : Nat) : Prop :=
  ∃ before later, rs = before ++ .mark l :: later ∧ before.countP emits = n

/-- The tables have one entry for each operation that asks for one, in order, at the positions where
the labels were marked. -/
structure Code.Records (code : Code) (os : List Operation) (rs : List Request) : Prop where
  locals : List.Forall₂ (fun v entry => entry.name = v.name ∧ entry.type = v.type ∧
      entry.index = v.index ∧ Request.MarksAfter rs v.start entry.start ∧
      Request.MarksAfter rs v.stop entry.stop)
    (os.filterMap Operation.local?) code.locals
  lines : List.Forall₂ (fun line entry => entry.line = line.1 ∧
      Request.MarksAfter rs line.2 entry.pc)
    (os.filterMap Operation.line?) code.lines

theorem Operation.mem_requestsAll {os : List Operation} {e e' : Emitter}
    (h : e.applyAll os = .ok e') {o : Operation} (ho : o ∈ os) :
    ∃ e₁, ∀ r ∈ o.requests e₁, r ∈ requestsAll os e := by
  induction os generalizing e with
  | nil => cases ho
  | cons p os ih =>
    obtain ⟨e₁, h₁, h⟩ := bind_eq_ok.mp h
    simp only [requestsAll, h₁]
    rcases List.mem_cons.mp ho with rfl | ho
    · exact ⟨e, fun r hr => List.mem_append_left _ hr⟩
    · obtain ⟨e₂, h₂⟩ := ih h ho
      exact ⟨e₂, fun r hr => List.mem_append_right _ (h₂ r hr)⟩

theorem Emitter.position_eq (e : Emitter) {l : Label} {n : Nat}
    (h : e.code.position? l = some n) : e.position l = n := by
  have hlabel : e.labels[l.index]?.bind LabelState.position = some n := by
    simp only [Code.position?, Code.labelInfo?, Emitter.code, Array.getElem?_map] at h
    cases hs : e.labels[l.index]? with
    | none => rw [hs] at h; cases h
    | some s => rw [hs] at h; exact h
  rw [position, hlabel]
  rfl

section
variable {access : Access} {method : Method} {verify : Bool} {os : List Operation} {e : Emitter}

theorem Code.records_of_finish {code : Code}
    (h : (Emitter.initial access method ⟨true, verify⟩).applyAll os = .ok e)
    (ht : e.tables = os.foldl Tables.record ⟨#[], #[]⟩) (hf : e.finish = .ok code) :
    code.Records os (Operation.requestsAll os (.initial access method ⟨true, verify⟩)) := by
  have hrequests := Operation.applyAll_requests h
  obtain ⟨hlocals, hlines⟩ := Tables.foldl_record os ⟨#[], #[]⟩
  obtain ⟨rfl, -⟩ := Emitter.finish_eq_ok hf
  rw [← ht] at hlocals hlines
  rw [List.nil_append] at hlocals hlines
  have hmarked {r : Request} {o : Operation} (ho : o ∈ os) (hr : ∀ e, r ∈ o.requests e)
      {l : Label} (hl : l ∈ r.named true) : Request.MarksAfter
        (Operation.requestsAll os (.initial access method ⟨true, verify⟩)) l (e.position l) := by
    obtain ⟨e₁, he₁⟩ := Operation.mem_requestsAll h ho
    obtain ⟨before, later, heq, hp⟩ := Request.exists_mark hrequests hf (he₁ r (hr e₁)) hl
    exact ⟨before, later, heq, (e.position_eq hp).symm⟩
  constructor
  · have heq : e.code.locals = (os.filterMap Operation.local?).map fun v =>
        ⟨v.name, v.type, v.index, e.position v.start, e.position v.stop⟩ := by
      have hlocals : e.locals.toList = _ := hlocals
      simp only [Emitter.code, hlocals, List.map_map]
      rfl
    rw [heq, List.forall₂_map_right_iff, List.forall₂_same]
    intro v hv
    have hv := Operation.mem_variables hv
    exact ⟨rfl, rfl, rfl, hmarked hv (fun _ => List.mem_singleton_self _) (by simp [Request.named]),
      hmarked hv (fun _ => List.mem_singleton_self _) (by simp [Request.named])⟩
  · have heq : e.code.lines = (os.filterMap Operation.line?).map fun line =>
        ⟨e.position line.2, line.1⟩ := by
      have hlines : e.lines.toList = _ := hlines
      simp only [Emitter.code, hlines]
    rw [heq, List.forall₂_map_right_iff, List.forall₂_same]
    intro line hline
    exact ⟨rfl, hmarked (Operation.mem_lines hline) (fun _ => List.mem_singleton_self _)
      (by simp [Request.named])⟩

theorem Emitter.documented_initial (access : Access) (method : Method) (verify : Bool) :
    Documented ⟨#[], #[]⟩ (initial access method ⟨true, verify⟩)
      (initial access method ⟨false, verify⟩) :=
  .intro rfl rfl (.refl #[])

/-- **Debug information does not change the code.** What is emitted and finished with it is, call for
call, emitted and finished without it, as the same body but for its tables: these have one entry for
each variable and line recorded, and neither the verifier nor the end of the method looks at them.
-/
theorem Emitter.finish_withoutTables {code : Code}
    (h : (initial access method ⟨true, verify⟩).applyAll os = .ok e) (hf : e.finish = .ok code) :
    code.Records os (Operation.requestsAll os (initial access method ⟨true, verify⟩)) ∧
    (∃ e', (initial access method ⟨false, verify⟩).applyAll os = .ok e' ∧
      e'.finish = .ok code.withoutTables ∧
      e'.endMethod = e.endMethod.map MethodDefinition.withoutTables) ∧
    (∀ access signature, (Body.mk code.withoutTables access signature).verify =
      (Body.mk code access signature).verify) ∧
    ∀ before later, os = before ++ later → ∃ e₁ e₁',
      (initial access method ⟨true, verify⟩).applyAll before = .ok e₁ ∧
      (initial access method ⟨false, verify⟩).applyAll before = .ok e₁' ∧
      e₁'.depth = e₁.depth ∧ e₁'.labels.size = e₁.labels.size := by
  have hinitial := documented_initial access method verify
  obtain ⟨e', he', hd⟩ := hinitial.applyAll os e h
  have ht : e.tables = os.foldl Tables.record ⟨#[], #[]⟩ := by
    cases hd with
    | intro _ ht _ => exact ht
  refine ⟨Code.records_of_finish h ht hf, ⟨e', he', hd.finish hf, hd.endMethod hf⟩,
    fun access signature => (Body.mk code access signature).verify_withoutTables,
    fun before later hos => ?_⟩
  rw [hos, applyAll_append] at h
  obtain ⟨e₁, h₁, -⟩ := bind_eq_ok.mp h
  obtain ⟨e₁', h₁', hd₁⟩ := hinitial.applyAll before e₁ h₁
  exact ⟨e₁, e₁', h₁, h₁', hd₁.depth, hd₁.size_labels⟩

end

def Emitter.commented : List Operation :=
  [.newDebugLabel, .newLabel, .mark ⟨0⟩, .visitLine 7 ⟨0⟩, .loadLocal 0 .int, .ifZero .eq ⟨1⟩,
    .mark ⟨1⟩, .visitLocal ⟨"x", .int, 0, ⟨0⟩, ⟨1⟩⟩, .returnValue]

theorem Emitter.finish_withoutTables_commented : ∃ e code,
    (initial .staticFlag ⟨"f", .mk ⟨[.int], .void⟩⟩ ⟨true, true⟩).applyAll commented = .ok e ∧
      e.finish = .ok code ∧ code.locals = [⟨"x", .int, 0, 0, 2⟩] ∧ code.lines = [⟨0, 7⟩] ∧
      ∃ e', (initial .staticFlag ⟨"f", .mk ⟨[.int], .void⟩⟩ ⟨false, true⟩).applyAll commented = .ok e' ∧
        e'.finish = .ok code.withoutTables ∧
        e'.endMethod = e.endMethod.map MethodDefinition.withoutTables := by
  obtain ⟨e, code, he, hf, hlocals, hlines⟩ : ∃ e code,
      (initial .staticFlag ⟨"f", .mk ⟨[.int], .void⟩⟩ ⟨true, true⟩).applyAll commented = .ok e ∧
      e.finish = .ok code ∧ code.locals = [⟨"x", .int, 0, 0, 2⟩] ∧ code.lines = [⟨0, 7⟩] :=
    ⟨_, _, by cbv, by cbv, by cbv, by cbv⟩
  exact ⟨e, code, he, hf, hlocals, hlines, (finish_withoutTables he hf).2.1⟩

end StackCode
