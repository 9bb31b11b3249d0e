import StackCode.Proofs.Emitter.Repertoire
import StackCode.Proofs.Machine.Kinds
import StackCode.Proofs.Verifier.Effect

/-!
# What requests say of their instructions

A request names the slots that its instruction pops and pushes, and the verifier finds the kinds.
Every request that an operation makes names as many slots as the verifier's effect moves, whatever
the body.
-/

namespace StackCode

/-- The slots named are those that the verifier moves, and control goes where the request says. -/
def Request.Honest : Request → Prop
  | plain i pops pushes =>
    ∀ (body : Body) (locals : Array (Option Kind)) (takes puts : List Kind) (flow : Flow),
      body.Effect locals i takes puts flow → slotHeight puts + pops = slotHeight takes + pushes ∧
        flow = .next
  | pooled use c pops pushes =>
    ∀ (body : Body) (locals : Array (Option Kind)) (index : UInt16) (takes puts : List Kind)
        (flow : Flow),
      body.code.constant? index = some c →
      body.Effect locals (use.instruction index) takes puts flow →
      slotHeight puts + pops = slotHeight takes + pushes ∧ flow = .next
  | branch i pops target =>
    ∀ (body : Body) (locals : Array (Option Kind)) (takes puts : List Kind) (flow : Flow),
      body.Effect locals i takes puts flow → slotHeight puts + pops = slotHeight takes ∧
        flow = .branch target
  | leave result pops => slotHeight result.toList = pops
  | _ => True

/-! ## Slots of kinds -/

theorem slotHeight_kind {d : Descriptor} {k : Kind} (h : d.kind? = some k) :
    slotHeight [k] = d.size := by
  rw [← Descriptor.size_kind? h]
  rfl

theorem slotHeight_toList (d : Descriptor) : slotHeight d.kind?.toList = d.size := by
  cases hk : d.kind? with
  | some k => exact slotHeight_kind hk
  | none => cases d <;> first | rfl | cases hk

theorem slotHeight_reverse (ks : List Kind) : slotHeight ks.reverse = slotHeight ks := by
  induction ks with
  | nil => rfl
  | cons k ks ih =>
    rw [List.reverse_cons, slotHeight_append, ih, slotHeight, slotHeight, slotHeight, Nat.add_zero,
      Nat.add_comm]

theorem slotHeight_params {ds : List Descriptor} {ks : List Kind}
    (h : ds.map Descriptor.kind? = ks.map some) : slotHeight ks = Descriptor.slots ds := by
  induction ds generalizing ks with
  | nil =>
    cases ks with
    | nil => rfl
    | cons => cases h
  | cons d ds ih =>
    cases ks with
    | nil => cases h
    | cons k ks =>
      obtain ⟨hk, hks⟩ : d.kind? = some k ∧ ds.map Descriptor.kind? = ks.map some := by
        simpa using h
      rw [slotHeight, ih hks, Descriptor.slots, Descriptor.size_kind? hk]

theorem slotHeight_arguments {s : Signature} {ks : List Kind}
    (h : s.params.reverse.map Descriptor.kind? = ks.map some) :
    slotHeight ks = s.argumentSlots := by
  have hks : s.params.map Descriptor.kind? = ks.reverse.map some := by
    rw [List.map_reverse, ← h, List.map_reverse, List.reverse_reverse]
  rw [← slotHeight_reverse, slotHeight_params hks, Signature.argumentSlots]

/-! ## Literals, conversions and comparisons -/

theorem honest_int (v : Int32) : (intRequest v).Honest := by
  unfold intRequest
  split_ifs
  · intro body locals takes puts flow h; cases h; exact ⟨rfl, rfl⟩
  · intro body locals takes puts flow h; cases h; exact ⟨rfl, rfl⟩
  · intro body locals takes puts flow h; cases h; exact ⟨rfl, rfl⟩
  · intro body locals index takes puts flow hc h
    cases h with
    | ldc hc' hk =>
      rw [hc] at hc'
      cases hc'
      cases hk
      exact ⟨rfl, rfl⟩

theorem honest_bool (b : Bool) : (boolRequest b).Honest := by
  intro body locals takes puts flow h; cases h; exact ⟨rfl, rfl⟩

theorem honest_literal (l : Literal) : l.request.Honest := by
  have narrow {c : Constant} {k : Kind} (hk : Body.narrowKind? c = some k) :
      (Request.pooled .narrow c 0 k.size).Honest := by
    intro body locals index takes puts flow hc h
    cases h with
    | ldc hc' hk' =>
      rw [hc] at hc'
      cases hc'
      rw [hk] at hk'
      cases hk'
      exact ⟨(Nat.zero_add _).symm, rfl⟩
  have wide {c : Constant} {k : Kind} (hk : Body.wideKind? c = some k) :
      (Request.pooled .wide c 0 k.size).Honest := by
    intro body locals index takes puts flow hc h
    cases h with
    | ldc2 hc' hk' =>
      rw [hc] at hc'
      cases hc'
      rw [hk] at hk'
      cases hk'
      exact ⟨(Nat.zero_add _).symm, rfl⟩
  cases l with
  | bool b => exact honest_bool b
  | char | int => exact honest_int _
  | long v =>
    simp only [Literal.request]
    split_ifs
    · intro body locals takes puts flow h; cases h; exact ⟨rfl, rfl⟩
    · intro body locals takes puts flow h; cases h; exact ⟨rfl, rfl⟩
    · exact wide (c := .long v) rfl
  | float v =>
    simp only [Literal.request]
    split
    · intro body locals takes puts flow h; cases h; exact ⟨rfl, rfl⟩
    · exact narrow (c := .float v) rfl
  | double v =>
    simp only [Literal.request]
    split
    · intro body locals takes puts flow h; cases h; exact ⟨rfl, rfl⟩
    · exact wide (c := .double v) rfl
  | string text => exact narrow (c := .string text) rfl

theorem honest_null : (Request.plain .aconstNull 0 1).Honest := by
  intro body locals takes puts flow h; cases h; exact ⟨rfl, rfl⟩

theorem honest_convert (c : Conversion) : (convertRequest c).Honest := by
  intro body locals takes puts flow h; cases h; exact ⟨by simp only [slotHeight]; omega, rfl⟩

theorem honest_reduce (r : Reduction) :
    (Request.plain (.reduce r) (2 * r.operand.size) 1).Honest := by
  intro body locals takes puts flow h
  cases h
  have hint : Kind.int.size = 1 := rfl
  exact ⟨by simp only [slotHeight, hint]; omega, rfl⟩

theorem honest_ifZero (op : Comparison) (l : Label) : (zeroRequest op l).Honest := by
  intro body locals takes puts flow h; cases h; exact ⟨rfl, rfl⟩

theorem honest_ifInt (op : Comparison) (l : Label) : (Request.branch (.ifInt op l) 2 l).Honest := by
  intro body locals takes puts flow h; cases h; exact ⟨rfl, rfl⟩

theorem honest_ifSame (op : Comparison) (l : Label) :
    (Request.branch (.ifSame op l) 2 l).Honest := by
  intro body locals takes puts flow h; cases h; exact ⟨rfl, rfl⟩

/-! ## Loads, stack operations and calls -/

theorem honest_plain_load {type : Descriptor} {kind : Kind} (index : UInt16)
    (hk : type.kind? = some kind) : (Request.plain (.load kind index) 0 type.size).Honest := by
  intro body locals takes puts flow h
  cases h
  exact ⟨(slotHeight_kind hk).trans (Nat.zero_add _).symm, rfl⟩

-- A copy counts as pushed, and what is copied does not count as popped.
theorem honest_dup : (Request.plain .dup 0 1).Honest := by
  intro body locals takes puts flow h
  cases h with
  | dup hk => exact ⟨by simp only [slotHeight]; omega, rfl⟩

theorem honest_dup2 : (Request.plain .dup2 0 2).Honest := by
  intro body locals takes puts flow h
  cases h with
  | dup2Wide hk => exact ⟨by simp only [slotHeight]; omega, rfl⟩
  | dup2Narrow hk hj => exact ⟨by simp only [slotHeight]; omega, rfl⟩

theorem honest_pop : (Request.plain .pop 1 0).Honest := by
  intro body locals takes puts flow h
  cases h with
  | pop hk => exact ⟨by simp only [slotHeight]; omega, rfl⟩

theorem honest_pop2 : (Request.plain .pop2 2 0).Honest := by
  intro body locals takes puts flow h
  cases h with
  | pop2Wide hk => exact ⟨by simp only [slotHeight]; omega, rfl⟩
  | pop2Narrow hk hj => exact ⟨by simp only [slotHeight]; omega, rfl⟩

theorem honest_ifNull (l : Label) : (Request.branch (.ifNull l) 1 l).Honest := by
  intro body locals takes puts flow h; cases h; exact ⟨rfl, rfl⟩

theorem honest_ifNonNull (l : Label) : (Request.branch (.ifNonNull l) 1 l).Honest := by
  intro body locals takes puts flow h; cases h; exact ⟨rfl, rfl⟩

theorem honest_this : thisRequest.Honest := by
  intro body locals takes puts flow h; cases h; exact ⟨rfl, rfl⟩

theorem honest_new (name : String) : (Request.pooled .new (.classRef name) 0 1).Honest := by
  intro body locals index takes puts flow hc h; cases h; exact ⟨rfl, rfl⟩

theorem honest_call (ref : MethodRef) : (callRequest ref).Honest := by
  intro body locals index takes puts flow hc h
  cases h with
  | invokeStatic hc' hks =>
    rw [hc] at hc'
    cases hc'
    exact ⟨by rw [slotHeight_toList, slotHeight_arguments hks, Nat.add_comm], rfl⟩

theorem honest_construct (ref : MethodRef) :
    (Request.pooled .special (.method ref) (1 + ref.method.signature.argumentSlots)
      ref.method.signature.returns.size).Honest := by
  intro body locals index takes puts flow hc h
  cases h with
  | invokeSpecial hc' hks =>
    rw [hc] at hc'
    cases hc'
    refine ⟨?_, rfl⟩
    rw [slotHeight_toList, slotHeight_append, slotHeight_arguments hks]
    simp only [slotHeight, Kind.size]
    omega

/-! ## Operations -/

theorem Request.Usual.honest {r : Request} (h : r.Usual) : r.Honest := by
  cases h with
  | literal l => exact honest_literal l
  | null => exact honest_null
  | convert c => exact honest_convert c
  | reduce s => exact honest_reduce s
  | dup => exact honest_dup
  | dup2 => exact honest_dup2
  | pop => exact honest_pop
  | pop2 => exact honest_pop2
  | ifZero op l => exact honest_ifZero op l
  | ifInt op l => exact honest_ifInt op l
  | ifSame op l => exact honest_ifSame op l
  | ifNull l => exact honest_ifNull l
  | ifNonNull l => exact honest_ifNonNull l
  | leave type => exact slotHeight_toList type
  | new name => exact honest_new name
  | special ref => exact honest_construct ref
  | call ref => exact honest_call ref
  | goto | newLabel | mark | visitLocal | visitLine => trivial

theorem hereditary_honest : Request.Hereditary fun rs => ∀ r ∈ rs, r.Honest :=
  .of_forall Request.Usual.honest fun index hk => ⟨honest_plain_load index hk, trivial⟩

theorem honest_compare {type : Descriptor} {op : Comparison} {l : Label} {r : Request}
    (h : r ∈ compareRequests type op l) : r.Honest := hereditary_honest.compare type op l r h

theorem honest_load {type : Descriptor} {index : UInt16} {r : Request}
    (h : r ∈ loadRequests type index) : r.Honest := hereditary_honest.loadLocal type index r h

/-- **Operations count slots as the verifier does.** -/
theorem Operation.honestAll {os : List Operation} {e : Emitter} {r : Request}
    (h : r ∈ Operation.requestsAll os e) : r.Honest := by
  refine hereditary_honest.operations (fun _ s hs => ?_) r h
  rw [List.mem_singleton.mp hs]
  exact honest_this

end StackCode
