import StackCode.Proofs.Emitter.Repertoire
import StackCode.Proofs.Expression.Demands

/-!
# Finished bodies are faithful

What finishing answers is told by the operations alone, and a finished body has for every request
that emits an instruction just this instruction: its operand stands for the constant asked for, its
target for the place where the label was marked, and its local is among those declared.
-/

namespace StackCode

def Instruction.isImmediate : Instruction → Bool
  | iconst _ | lconst _ | fconst _ | dconst _ | bipush _ | sipush _ => true
  | _ => false

def PoolUse.Admits : PoolUse → Constant → Prop
  | narrow, .int _ | narrow, .float _ | narrow, .string _ => True
  | wide, .long _ | wide, .double _ => True
  | new, .classRef _ => True
  | special, .method _ | static, .method _ => True
  | _, _ => False

namespace Request

/-! ## What a request appends -/

def instruction? (e : Emitter) : Request → Option Instruction
  | plain i _ _ | branch i _ _ => some i
  | pooled use c _ _ => some (use.instruction (e.pool.add c).1)
  | goto l => some (.goto l)
  | leave result _ => some (.leave result)
  | _ => none

def emits : Request → Bool
  | plain _ _ _ | pooled _ _ _ _ | branch _ _ _ | goto _ | leave _ _ => true
  | _ => false

def locals : Request → Nat
  | reserve index type => index.toNat + type.size
  | visitLocal v => v.index.toNat + v.type.size
  | _ => 0

theorem isSome_instruction? (r : Request) (e : Emitter) : (r.instruction? e).isSome = r.emits := by
  cases r <;> rfl

section
variable {r : Request} {e e' : Emitter}

theorem instructions_branchTo {l : Label} (h : e.branchTo l = .ok e') :
    e'.instructions = e.instructions ∧ e'.maxLocals = e.maxLocals := by
  obtain ⟨s, _, _, rfl⟩ := Emitter.branchTo_eq_ok h
  exact ⟨rfl, rfl⟩

theorem instructions_apply (h : r.apply e = .ok e') :
    e'.instructions.toList = e.instructions.toList ++ (r.instruction? e).toList := by
  cases r with
  | plain i pops pushes =>
    obtain ⟨_, rfl⟩ := Emitter.effect_eq_ok.mp h
    exact Array.toList_push
  | pooled use c pops pushes =>
    obtain ⟨_, rfl⟩ := Emitter.shrink_grow_eq_ok.mp h
    exact Array.toList_push
  | branch i pops target =>
    rw [(instructions_branchTo (Emitter.branch_eq_ok h).2).1]
    exact Array.toList_push
  | goto target =>
    obtain ⟨e₁, h₁, rfl⟩ := Emitter.goto_eq_ok h
    have hi := (instructions_branchTo h₁).1
    simp only [hi]
    exact Array.toList_push
  | leave result pops =>
    obtain ⟨e₁, h₁, h⟩ := bind_eq_ok.mp h
    obtain ⟨_, rfl⟩ := Emitter.effect_eq_ok.mp h₁
    cases h
    exact Array.toList_push
  | newLabel | reserve =>
    cases h
    exact (List.append_nil _).symm
  | mark l =>
    obtain ⟨s, _, _, ⟨_, rfl⟩ | ⟨_, _, rfl⟩⟩ := Emitter.mark_eq_ok h <;>
      exact (List.append_nil _).symm
  | visitLocal v =>
    rw [(Emitter.annotates_of_visitLocal h).instructions]
    exact (List.append_nil _).symm
  | visitLine line start =>
    rw [(Emitter.annotates_of_visitLine h).instructions]
    exact (List.append_nil _).symm

theorem maxLocals_refer {l : Label} (h : e.refer l = .ok e') : e'.maxLocals = e.maxLocals := by
  obtain ⟨s, _, rfl⟩ := Emitter.refer_eq_ok h
  rfl

theorem maxLocals_apply (h : r.apply e = .ok e') : e'.maxLocals = max e.maxLocals r.locals := by
  cases r with
  | plain i pops pushes =>
    obtain ⟨_, rfl⟩ := Emitter.effect_eq_ok.mp h
    exact (Nat.max_zero _).symm
  | pooled use c pops pushes =>
    obtain ⟨_, rfl⟩ := Emitter.shrink_grow_eq_ok.mp h
    exact (Nat.max_zero _).symm
  | branch i pops target =>
    rw [(instructions_branchTo (Emitter.branch_eq_ok h).2).2]
    exact (Nat.max_zero _).symm
  | goto target =>
    obtain ⟨e₁, h₁, rfl⟩ := Emitter.goto_eq_ok h
    have hm := (instructions_branchTo h₁).2
    simp only [hm]
    exact (Nat.max_zero _).symm
  | leave result pops =>
    obtain ⟨e₁, h₁, h⟩ := bind_eq_ok.mp h
    obtain ⟨_, rfl⟩ := Emitter.effect_eq_ok.mp h₁
    cases h
    exact (Nat.max_zero _).symm
  | newLabel =>
    cases h
    exact (Nat.max_zero _).symm
  | mark l =>
    obtain ⟨s, _, _, ⟨_, rfl⟩ | ⟨_, _, rfl⟩⟩ := Emitter.mark_eq_ok h <;>
      exact (Nat.max_zero _).symm
  | reserve index type =>
    cases h
    rfl
  | visitLocal v =>
    simp only [apply, LocalVariable.declare, Emitter.visitLocal] at h
    split at h
    · cases h
      rfl
    · obtain ⟨e₁, h₁, h⟩ := bind_eq_ok.mp h
      obtain ⟨e₂, h₂, h⟩ := bind_eq_ok.mp h
      cases h
      have hm := (maxLocals_refer h₂).trans (maxLocals_refer h₁)
      exact hm
  | visitLine line start =>
    simp only [apply, Emitter.visitLine] at h
    split at h
    · cases h
      exact (Nat.max_zero _).symm
    · obtain ⟨e₁, h₁, h⟩ := bind_eq_ok.mp h
      cases h
      exact (maxLocals_refer h₁).trans (Nat.max_zero _).symm

end

/-! ## What requests append -/

section
variable {rs : List Request} {e e' : Emitter}

theorem size_instructions_applyAll (h : applyAll rs e = .ok e') :
    e'.instructions.size = e.instructions.size + rs.countP emits := by
  induction rs generalizing e with
  | nil =>
    cases h
    rfl
  | cons r rs ih =>
    obtain ⟨e₁, h₁, h⟩ := bind_eq_ok.mp h
    have hsize := congrArg List.length (instructions_apply h₁)
    rw [List.length_append, Array.length_toList, Array.length_toList, Option.length_toList,
      isSome_instruction?] at hsize
    rw [ih h, hsize, List.countP_cons]
    omega

theorem maxLocals_applyAll (h : applyAll rs e = .ok e') :
    e.maxLocals ≤ e'.maxLocals ∧ ∀ r ∈ rs, r.locals ≤ e'.maxLocals := by
  induction rs generalizing e with
  | nil =>
    cases h
    exact ⟨Nat.le_refl _, fun r hr => by cases hr⟩
  | cons r rs ih =>
    obtain ⟨e₁, h₁, h⟩ := bind_eq_ok.mp h
    obtain ⟨hle, hall⟩ := ih h
    rw [maxLocals_apply h₁] at hle
    refine ⟨(Nat.le_max_left ..).trans hle, fun s hs => ?_⟩
    rcases List.mem_cons.mp hs with rfl | hs
    · exact (Nat.le_max_right ..).trans hle
    · exact hall s hs

end

/-! ## What requests become -/

/-- The instruction that a request becomes in a finished body. -/
inductive Becomes (code : Code) : Request → Instruction → Prop
  | plain {i : Instruction} {pops pushes : Nat} : i.constantIndex? = none → i.target? = none →
    Becomes code (.plain i pops pushes) i
  | pooled {use : PoolUse} {c : Constant} {pops pushes : Nat} {index : UInt16} :
    code.constant? index = some c → use.Admits c →
    Becomes code (.pooled use c pops pushes) (use.instruction index)
  | branch {i : Instruction} {pops : Nat} {l : Label} : i.constantIndex? = none →
    i.target? = some l → Becomes code (.branch i pops l) i
  | goto (l : Label) : Becomes code (.goto l) (.goto l)
  | leave (result : Option Kind) (pops : Nat) : Becomes code (.leave result pops) (.leave result)

/-- The operand of the instruction is the one that the request names. -/
def Exact : Request → Prop
  | plain i _ _ => i.constantIndex? = none ∧ i.target? = none
  | pooled use c _ _ => use.Admits c
  | branch i _ l => i.constantIndex? = none ∧ i.target? = some l
  | _ => True

theorem int_cases (v : Int32) : (∃ i n, intRequest v = .plain i 0 n ∧ i.isImmediate = true) ∨
    ∃ use c n, intRequest v = .pooled use c 0 n ∧ use.Admits c := by
  unfold intRequest
  split_ifs
  · exact .inl ⟨_, _, rfl, rfl⟩
  · exact .inl ⟨_, _, rfl, rfl⟩
  · exact .inl ⟨_, _, rfl, rfl⟩
  · exact .inr ⟨_, _, _, rfl, trivial⟩

theorem literal_cases (l : Literal) :
    (∃ i n, l.request = .plain i 0 n ∧ i.isImmediate = true) ∨
      ∃ use c n, l.request = .pooled use c 0 n ∧ use.Admits c := by
  cases l with
  | bool b => exact .inl ⟨_, _, rfl, rfl⟩
  | char | int => exact int_cases _
  | long v =>
    simp only [Literal.request]
    split_ifs
    · exact .inl ⟨_, _, rfl, rfl⟩
    · exact .inl ⟨_, _, rfl, rfl⟩
    · exact .inr ⟨_, _, _, rfl, trivial⟩
  | float v | double v =>
    simp only [Literal.request]
    split
    · exact .inl ⟨_, _, rfl, rfl⟩
    · exact .inr ⟨_, _, _, rfl, trivial⟩
  | string text => exact .inr ⟨_, _, _, rfl, trivial⟩

theorem exact_literal (l : Literal) : l.request.Exact := by
  obtain ⟨i, n, hl, hi⟩ | ⟨use, c, n, hl, hc⟩ := literal_cases l
  · rw [hl]
    cases i <;> first | exact ⟨rfl, rfl⟩ | cases hi
  · rw [hl]
    exact hc

theorem Usual.exact {r : Request} (h : r.Usual) : r.Exact := by
  cases h with
  | literal l => exact exact_literal l
  | null | convert | reduce | dup | dup2 | pop | pop2 | ifZero | ifInt | ifSame | ifNull
  | ifNonNull => exact ⟨rfl, rfl⟩
  | _ => trivial

theorem exact_operations (os : List Operation) (e : Emitter) :
    ∀ r ∈ Operation.requestsAll os e, r.Exact := by
  have h : Hereditary fun rs => ∀ r ∈ rs, r.Exact :=
    .of_forall Usual.exact fun _ _ => ⟨⟨rfl, rfl⟩, trivial⟩
  refine h.operations fun _ r hr => ?_
  rw [List.mem_singleton.mp hr]
  exact ⟨rfl, rfl⟩

section
variable {code : Code}

theorem becomes_of_apply {r : Request} {e e' : Emitter} (hr : r.Exact) (hs : e.Sound)
    (hc : code.Carries e') (h : r.apply e = .ok e') {i : Instruction}
    (hi : r.instruction? e = some i) : r.Becomes code i := by
  cases r with
  | plain | branch => cases hi; exact (by constructor; exact hr.1; exact hr.2)
  | pooled use c pops pushes =>
    cases hi
    have hpool : e'.pool = (e.pool.add c).2 := (changes_apply h).pool
    refine .pooled (hc.constants _ c ?_) hr
    rw [hpool]
    exact hs.pool.getElem?_add_fst (hpool ▸ hc.overflowed)
  | goto l => cases hi; exact .goto l
  | leave result pops => cases hi; exact .leave result pops
  | _ => cases hi

variable {rs : List Request} {e e' : Emitter}

theorem exists_of_becomes {is : List Instruction} (h : List.Forall₂ (Becomes code) rs is)
    {i : Instruction} (hi : i ∈ is) : ∃ r ∈ rs, r.Becomes code i := by
  induction h with
  | nil => cases hi
  | cons hb _ ih =>
    rcases List.mem_cons.mp hi with rfl | hi
    · exact ⟨_, List.mem_cons_self, hb⟩
    · obtain ⟨r, hr, hb⟩ := ih hi
      exact ⟨r, List.mem_cons_of_mem _ hr, hb⟩

theorem Becomes.named {r : Request} {i : Instruction} (h : r.Becomes code i) {l : Label}
    (hl : i.target? = some l) (debugInfo : Bool) : l ∈ r.named debugInfo := by
  cases h with
  | plain _ hnone => rw [hnone] at hl; cases hl
  | @pooled use => cases use <;> cases hl
  | branch _ hsome =>
    rw [hsome] at hl
    cases hl
    exact List.mem_singleton_self l
  | goto k =>
    cases hl
    exact List.mem_singleton_self l
  | leave => cases hl

theorem Becomes.load {r : Request} {kind : Kind} {index : UInt16}
    (h : r.Becomes code (.load kind index)) :
    ∃ pops pushes, r = .plain (.load kind index) pops pushes := by
  generalize hi : Instruction.load kind index = i at h
  cases h with
  | plain => exact ⟨_, _, rfl⟩
  | @pooled use => cases use <;> cases hi
  | branch _ hl => subst hi; cases hl
  | goto | leave => cases hi

theorem becomes_applyAll (hr : ∀ r ∈ rs, r.Exact) (hs : e.Sound) (hc : code.Carries e')
    (h : applyAll rs e = .ok e') : ∃ is, e'.instructions.toList = e.instructions.toList ++ is ∧
      List.Forall₂ (Becomes code) (rs.filter emits) is := by
  induction rs generalizing e with
  | nil =>
    cases h
    exact ⟨[], (List.append_nil _).symm, .nil⟩
  | cons r rs ih =>
    obtain ⟨e₁, h₁, h⟩ := bind_eq_ok.mp h
    obtain ⟨is, his, hall⟩ := ih (fun s hs => hr s (List.mem_cons_of_mem r hs)) (hs.apply h₁) h
    have hi := isSome_instruction? r e
    rw [instructions_apply h₁, List.append_assoc] at his
    refine ⟨_, his, ?_⟩
    cases hri : r.instruction? e with
    | none =>
      rw [hri] at hi
      rw [List.filter_cons_of_neg (by simp [← hi])]
      exact hall
    | some i =>
      rw [hri] at hi
      rw [List.filter_cons_of_pos hi.symm]
      -- the rest of the requests only adds to what the emitter holds here
      have hc₁ : code.Carries e₁ := hc.of_extends (extends_applyAll h)
      exact .cons (becomes_of_apply (hr r List.mem_cons_self) hs hc₁ h₁ hri) hall

theorem position?_of_mark {before later : List Request} {l : Label} (hc : code.Carries e')
    (h : applyAll (before ++ .mark l :: later) e = .ok e') :
    code.position? l = some (e.instructions.size + before.countP emits) := by
  rw [applyAll_append] at h
  obtain ⟨e₁, h₁, h⟩ := bind_eq_ok.mp h
  obtain ⟨e₂, h₂, h⟩ := bind_eq_ok.mp h
  have hc₂ : code.Carries e₂ := hc.of_extends (extends_applyAll h)
  rw [← size_instructions_applyAll h₁]
  obtain ⟨s, hs, _, ⟨_, rfl⟩ | ⟨_, _, rfl⟩⟩ := Emitter.mark_eq_ok h₂
  · exact hc₂.position? ((Emitter.labels_setLabel hs _).trans (if_pos rfl)) rfl
  · exact hc₂.position? ((Emitter.labels_setLabel hs _).trans (if_pos rfl)) rfl

end

/-! ## Loads -/

/-- A load is followed by a request for the slots that it needs, or loads the receiver. -/
def Reserves (access : Access) (rs : List Request) : Prop :=
  ∀ (kind : Kind) (index : UInt16) (pops pushes : Nat), .plain (.load kind index) pops pushes ∈ rs →
    (∃ type, .reserve index type ∈ rs ∧ type.size = kind.size) ∨
      access.isStatic = false ∧ kind = .reference ∧ index = 0

theorem literal_ne_load (l : Literal) (kind : Kind) (index : UInt16) (pops pushes : Nat) :
    l.request ≠ .plain (.load kind index) pops pushes := by
  intro h
  obtain ⟨i, n, hl, hi⟩ | ⟨use, c, n, hl, _⟩ := literal_cases l
  · rw [hl] at h
    cases h
    cases hi
  · rw [hl] at h
    cases h

theorem hereditary_reserves (access : Access) : Hereditary (Reserves access) where
  nil kind index pops pushes hr := by cases hr
  append h h' kind index pops pushes hr := by
    rcases List.mem_append.mp hr with hr | hr
    · exact (h kind index pops pushes hr).imp_left fun ⟨type, hmem, hsize⟩ =>
        ⟨type, List.mem_append_left _ hmem, hsize⟩
    · exact (h' kind index pops pushes hr).imp_left fun ⟨type, hmem, hsize⟩ =>
        ⟨type, List.mem_append_right _ hmem, hsize⟩
  usual hu kind index pops pushes hr := by
    rw [← List.mem_singleton.mp hr] at hu
    generalize hr : Request.plain (.load kind index) pops pushes = r at hu
    cases hu with
    | literal l => exact absurd hr.symm (literal_ne_load l _ _ _ _)
    | _ => cases hr
  load index hk kind i pops pushes hr := by
    simp only [List.mem_cons, reduceCtorEq, or_false, List.not_mem_nil, plain.injEq,
      Instruction.load.injEq] at hr
    obtain ⟨⟨rfl, rfl⟩, _, _⟩ := hr
    exact .inl ⟨_, by simp, (Descriptor.size_kind? hk).symm⟩

theorem reserves_operations (os : List Operation) (e : Emitter) :
    Reserves e.access (Operation.requestsAll os e) := by
  refine (hereditary_reserves e.access).operations fun hs kind index pops pushes hr => ?_
  cases List.mem_singleton.mp hr
  exact .inr ⟨hs, rfl, rfl⟩

end Request

/-! ## What operations ask for -/

def Operation.constants : Operation → List Constant
  | push literal => literal.request.constant?.toList
  | pushDefault type => (defaultRequest type).constant?.toList
  | newInstance (.object name) => [.classRef name]
  | invokeConstructor (.object name) m => [.method ⟨name, m⟩]
  | invokeStatic ref => [.method ref]
  | generate x => x.constants
  | _ => []

theorem Operation.constants_requests (o : Operation) (e : Emitter) :
    Request.constants (o.requests e) = o.constants := by
  have single (r : Request) : Request.constants [r] = r.constant?.toList := by
    rw [Request.constants, List.filterMap_cons]
    cases r.constant? <;> rfl
  cases o with
  | push | pushDefault => exact single _
  | cast => exact Request.constants_cast ..
  | ifCompare => exact Request.constants_compare ..
  | loadLocal => exact Request.constants_load ..
  | newInstance type => cases type <;> rfl
  | invokeConstructor owner => cases owner <;> rfl
  | generate x => exact x.constants_requests _
  | _ => rfl

theorem Operation.constants_requestsAll {os : List Operation} {e e' : Emitter}
    (h : e.applyAll os = .ok e') :
    Request.constants (requestsAll os e) = os.flatMap Operation.constants := by
  induction os generalizing e with
  | nil => rfl
  | cons o os ih =>
    obtain ⟨e₁, h₁, h⟩ := bind_eq_ok.mp h
    simp only [requestsAll, h₁]
    rw [Request.constants_append, o.constants_requests, ih h, List.flatMap_cons]

/-- A label is named, by a branch or a table, and not marked. -/
def Request.Dangling (debugInfo : Bool) (rs : List Request) (l : Label) : Prop :=
  (∃ r ∈ rs, l ∈ r.named debugInfo) ∧ .mark l ∉ rs

namespace Emitter

def Dangles (e : Emitter) (l : Label) : Prop := e.Named l ∧ ¬e.Marked l

theorem dangles_iff_passes {e : Emitter} {l : Label} :
    e.Dangles l ↔ e.Passes (fun s => s.referenced && s.position.isNone) l := by
  unfold Dangles Named Marked Passes
  cases e.labels[l.index]? with
  | none => simp
  | some s => cases hp : s.position <;> simp [hp]

theorem unmarkedLabel?_eq_some {e : Emitter} {l : Label} :
    e.unmarkedLabel? = some l ↔ e.Dangles l ∧ ∀ k, e.Dangles k → l.index ≤ k.index := by
  simp only [dangles_iff_passes, unmarkedLabel?, Option.map_eq_some_iff,
    Array.findIdx?_eq_some_iff_getElem]
  constructor
  · rintro ⟨n, ⟨hlt, hn, hbefore⟩, rfl⟩
    refine ⟨⟨_, Array.getElem?_eq_getElem hlt, hn⟩, fun k ⟨s, hs, hk⟩ => ?_⟩
    by_contra hgt
    obtain ⟨hlt', rfl⟩ := Array.getElem?_eq_some_iff.mp hs
    exact hbefore k.index (Nat.lt_of_not_le hgt) hk
  · rintro ⟨⟨s, hs, hl⟩, hleast⟩
    obtain ⟨hlt, rfl⟩ := Array.getElem?_eq_some_iff.mp hs
    refine ⟨l.index, ⟨hlt, hl, fun n hn hbefore => ?_⟩, rfl⟩
    have hle := hleast ⟨n⟩ ⟨_, Array.getElem?_eq_getElem (hn.trans hlt), hbefore⟩
    exact Nat.not_le_of_lt hn hle

theorem finish_tooMany_iff {e : Emitter} :
    e.finish = .error (.tooManyConstants ConstantPool.capacity) ↔ e.pool.overflowed = true := by
  unfold finish
  cases e.pool.overflowed <;> cases e.unmarkedLabel? <;> simp

theorem finish_unmarked_iff {e : Emitter} {l : Label} : e.finish = .error (.unmarkedLabel l) ↔
    e.pool.overflowed = false ∧ e.unmarkedLabel? = some l := by
  unfold finish
  cases e.pool.overflowed <;> cases e.unmarkedLabel? <;> simp

theorem finish_done_iff {e : Emitter} :
    (∃ code, e.finish = .ok code) ↔ e.pool.overflowed = false ∧ e.unmarkedLabel? = none := by
  unfold finish
  cases e.pool.overflowed <;> cases e.unmarkedLabel? <;> simp

end Emitter

/-! ## Finished bodies -/

/-- A body is what requests ask for: each constant once, the instructions asked for with their
constants and targets, and the slots of all loads. -/
structure Code.Faithful (code : Code) (rs : List Request) : Prop where
  distinct : code.constants.toList.Nodup
  asked : ∀ c, c ∈ code.constants ↔ c ∈ Request.constants rs
  instructions : List.Forall₂ (Request.Becomes code) (rs.filter Request.emits)
    code.instructions.toList
  targets : ∀ i ∈ code.instructions, ∀ l, i.target? = some l → ∃ before later,
    rs = before ++ .mark l :: later ∧ code.position? l = some (before.countP Request.emits)
  loads : ∀ kind index, .load kind index ∈ code.instructions →
    index.toNat + kind.size ≤ code.maxLocals

/-- What finishing answers on requests, for constants that operations name in all. -/
structure Emitter.Finishes (e : Emitter) (cs : List Constant) (rs : List Request) : Prop where
  tooMany : e.finish = .error (.tooManyConstants ConstantPool.capacity) ↔
    ConstantPool.capacity < cs.toFinset.card
  unmarked : ∀ l, e.finish = .error (.unmarkedLabel l) ↔
    cs.toFinset.card ≤ ConstantPool.capacity ∧ Request.Dangling e.options.debugInfo rs l ∧
      ∀ k, Request.Dangling e.options.debugInfo rs k → l.index ≤ k.index
  done : (∃ code, e.finish = .ok code) ↔
    cs.toFinset.card ≤ ConstantPool.capacity ∧ ∀ l, ¬Request.Dangling e.options.debugInfo rs l
  faithful : ∀ code, e.finish = .ok code → code.Faithful rs

section
variable {access : Access} {method : Method} {options : EmitOptions} {os : List Operation}
  {e : Emitter}

namespace Request

section
variable {rs : List Request} (h : applyAll rs (.initial access method options) = .ok e)
include h

theorem dangles_iff (l : Label) : e.Dangles l ↔ Dangling options.debugInfo rs l := by
  have hempty (test : LabelState → Bool) : ¬(Emitter.initial access method options).Passes test l :=
    fun ⟨s, hs, _⟩ => by simp [Emitter.initial] at hs
  have hnamed := (named_applyAll h l).trans (or_iff_right (hempty _))
  have hmarked := (marked_applyAll h l).trans (or_iff_right (hempty _))
  exact and_congr hnamed (not_congr hmarked)

variable {code : Code} (hf : e.finish = .ok code)
include hf

theorem distinct_constants : code.constants.toList.Nodup ∧
    ∀ c, c ∈ code.constants ↔ c ∈ constants rs := by
  obtain ⟨rfl, ho⟩ := Emitter.finish_eq_ok hf
  have hs := Emitter.sound_initial access method options
  have hp : e.pool.Holds (constants rs) := holds_applyAll hs ConstantPool.holds_empty h
  refine ⟨hp.nodup, fun c => ?_⟩
  rw [← Array.mem_toList_iff]
  exact ⟨hp.asked c, hp.complete ho c⟩

theorem becomes_instructions (hr : ∀ r ∈ rs, r.Exact) :
    List.Forall₂ (Becomes code) (rs.filter emits) code.instructions.toList := by
  have hs := Emitter.sound_initial access method options
  obtain ⟨is, his, hall⟩ := becomes_applyAll hr hs (Emitter.carries_of_finish hf) h
  obtain ⟨rfl, _⟩ := Emitter.finish_eq_ok hf
  have heq : e.code.instructions.toList = is := his
  rwa [heq]

theorem exists_mark {r : Request} (hr : r ∈ rs) {l : Label}
    (hl : l ∈ r.named options.debugInfo) : ∃ before later,
      rs = before ++ .mark l :: later ∧ code.position? l = some (before.countP emits) := by
  -- a label that is named and not marked would have kept the body from being finished
  have hmark : .mark l ∈ rs := by
    by_contra hmark
    have hnone := (Emitter.finish_done_iff.mp ⟨code, hf⟩).2
    obtain ⟨hnamed, hunmarked⟩ := (dangles_iff h l).mpr ⟨⟨r, hr, hl⟩, hmark⟩
    exact hunmarked (Emitter.unmarkedLabel?_eq_none.mp hnone l hnamed)
  obtain ⟨before, later, rfl⟩ := List.append_of_mem hmark
  have hp := position?_of_mark (Emitter.carries_of_finish hf) h
  have hzero : (Emitter.initial access method options).instructions.size = 0 := rfl
  rw [hzero, Nat.zero_add] at hp
  exact ⟨before, later, rfl, hp⟩

theorem loads_declared (hr : ∀ r ∈ rs, r.Exact) (hl : Reserves access rs) {kind : Kind}
    {index : UInt16} (hi : .load kind index ∈ code.instructions) :
    index.toNat + kind.size ≤ code.maxLocals := by
  obtain ⟨hle, hlocals⟩ := maxLocals_applyAll h
  obtain ⟨r, hr, hb⟩ :=
    exists_of_becomes (becomes_instructions h hf hr) (Array.mem_toList_iff.mpr hi)
  obtain ⟨pops, pushes, rfl⟩ := hb.load
  obtain ⟨rfl, _⟩ := Emitter.finish_eq_ok hf
  obtain ⟨type, hmem, hsize⟩ | ⟨hs, rfl, rfl⟩ :=
    hl kind index pops pushes (List.mem_of_mem_filter hr)
  · have hlocal := hlocals _ hmem
    rwa [← hsize]
  · -- the receiver lies in the slot that an instance method has from the start
    have hone : 1 ≤ (Emitter.initial access method options).maxLocals := by
      simp [Emitter.initial, hs]
    exact hone.trans hle

theorem faithful_of_finish (hr : ∀ r ∈ rs, r.Exact) (hl : Reserves access rs) :
    code.Faithful rs where
  distinct := (distinct_constants h hf).1
  asked := (distinct_constants h hf).2
  instructions := becomes_instructions h hf hr
  targets i hi l hit := by
    obtain ⟨r, hmem, hb⟩ :=
      exists_of_becomes (becomes_instructions h hf hr) (Array.mem_toList_iff.mpr hi)
    exact exists_mark h hf (List.mem_of_mem_filter hmem) (hb.named hit _)
  loads kind index hi := loads_declared h hf hr hl hi

end

end Request

/-! ## All operations -/

theorem Emitter.applyAll_append (os ps : List Operation) (e : Emitter) :
    e.applyAll (os ++ ps) = (e.applyAll os >>= Emitter.applyAll ps) := by
  induction os generalizing e with
  | nil => rfl
  | cons o os ih =>
    rw [List.cons_append, Emitter.applyAll, Emitter.applyAll]
    cases o.apply e with
    | error m => rfl
    | ok e' => exact ih e'

theorem prefix_of_getElem? {α : Type} {xs ys : Array α}
    (h : ∀ (k : Nat) (x : α), xs[k]? = some x → ys[k]? = some x) : xs.toList <+: ys.toList := by
  rw [List.prefix_iff_getElem?]
  intro k hk
  rw [Array.getElem?_toList]
  exact h k _ (by simp)

/-- **Finishing answers as the operations tell, and what it finishes is faithful to them. No later
operation changes what was emitted.** -/
theorem Emitter.finishes_of_applyAll (h : (initial access method options).applyAll os = .ok e) :
    e.Finishes (os.flatMap Operation.constants)
        (Operation.requestsAll os (initial access method options)) ∧
      ∀ before later, os = before ++ later →
        ∃ e₁, (initial access method options).applyAll before = .ok e₁ ∧
          e₁.instructions.toList <+: e.instructions.toList ∧
          e₁.pool.entries.toList <+: e.pool.entries.toList := by
  have hr := Operation.applyAll_requests h
  have hoptions : e.options = options :=
    congrArg (fun header => header.2.2) (Request.header_applyAll hr)
  have hcard := overflowed_iff hr
  rw [Operation.constants_requestsAll h] at hcard
  have hroom : e.pool.overflowed = false ↔
      (os.flatMap Operation.constants).toFinset.card ≤ ConstantPool.capacity := by
    rw [← Nat.not_lt, ← hcard, Bool.not_eq_true]
  refine ⟨⟨finish_tooMany_iff.trans hcard, fun l => ?_, ?_, fun code hf => ?_⟩,
    fun before later hos => ?_⟩
  · simp only [finish_unmarked_iff, hroom, unmarkedLabel?_eq_some, Request.dangles_iff hr, hoptions]
  · simp only [finish_done_iff, hroom, hoptions, ← Request.dangles_iff hr, unmarkedLabel?_eq_none,
      Dangles, not_and_not_right]
  · exact Request.faithful_of_finish hr hf (Request.exact_operations os _)
      (Request.reserves_operations os _)
  · rw [hos, applyAll_append] at h
    obtain ⟨e₁, h₁, h⟩ := bind_eq_ok.mp h
    have hx := extends_applyAll h
    exact ⟨e₁, h₁, prefix_of_getElem? hx.instructions, prefix_of_getElem? hx.constants⟩

end

def Emitter.guarded : List Operation :=
  [.newLabel, .loadLocal 0 .int, .ifZero .eq ⟨0⟩, .newInstance (.object "A"), .pop, .mark ⟨0⟩,
    .returnValue]

theorem Emitter.finishes_of_applyAll_guarded :
    ∃ e, (initial .staticFlag ⟨"f", .mk ⟨[.int], .void⟩⟩ {}).applyAll guarded = .ok e ∧
      ∃ code, e.finish = .ok code ∧ code.Faithful
        (Operation.requestsAll guarded (initial .staticFlag ⟨"f", .mk ⟨[.int], .void⟩⟩ {})) := by
  obtain ⟨e, he⟩ :
      ∃ e, (initial .staticFlag ⟨"f", .mk ⟨[.int], .void⟩⟩ {}).applyAll guarded = .ok e := ⟨_, rfl⟩
  have hrs : Operation.requestsAll guarded (initial .staticFlag ⟨"f", .mk ⟨[.int], .void⟩⟩ {}) =
      [.newLabel false, .plain (.load .int 0) 0 1, .reserve 0 .int, zeroRequest .eq ⟨0⟩,
        .pooled .new (.classRef "A") 0 1, .plain .pop 1 0, .mark ⟨0⟩, .leave none 0] := rfl
  have h := (finishes_of_applyAll he).1
  have hcard : (guarded.flatMap Operation.constants).toFinset.card ≤ ConstantPool.capacity := by
    decide
  have hmarked : ∀ l, ¬Request.Dangling e.options.debugInfo
      (Operation.requestsAll guarded (initial .staticFlag ⟨"f", .mk ⟨[.int], .void⟩⟩ {})) l := by
    simp [hrs, Request.Dangling, Request.named, zeroRequest]
  obtain ⟨code, hf⟩ := h.done.mpr ⟨hcard, hmarked⟩
  exact ⟨e, he, code, hf, h.faithful code hf⟩

end StackCode
