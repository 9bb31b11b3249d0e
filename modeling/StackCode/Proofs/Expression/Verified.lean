import StackCode.Proofs.Emitter.Honesty
import StackCode.Proofs.Expression.Demands
import StackCode.Proofs.Expression.Shapes
import StackCode.Proofs.Verifier.Framed

/-!
# Compiled expressions verify

A method that gives back an expression without copies, whose locals are the receiver and the
parameters, always verifies. The code of every part is framed over any stack: it ends on that stack
with the kind of the part on top.
-/

namespace StackCode

/-! ## What a method finds in its locals -/

namespace ProperSignature

/-- Parameters at the slots where they begin, from slot `next` on; a long or a double takes two. -/
def paramSlots (next : Nat) : List Descriptor → List (Nat × Option Kind)
  | [] => []
  | d :: ds => (next, d.kind?) :: paramSlots (next + if d.size = 2 then 2 else 1) ds

def arrivals (access : Access) (s : ProperSignature) : List (Nat × Option Kind) :=
  if access.isStatic then paramSlots 0 s.params
  else (0, some .reference) :: paramSlots 1 s.params

theorem getElem?_of_mem_paramSlots {ds : List Descriptor} {next n : Nat} {k : Kind}
    (h : (n, some k) ∈ paramSlots next ds) :
    next ≤ n ∧ (ds.flatMap parameterSlots)[n - next]? = some (some k) := by
  induction ds generalizing next with
  | nil => cases h
  | cons d ds ih =>
    have hlength : (parameterSlots d).length = if d.size = 2 then 2 else 1 := by
      unfold parameterSlots
      split <;> rfl
    rw [List.flatMap_cons]
    rcases List.mem_cons.mp h with heq | hrest
    · obtain ⟨rfl, hk⟩ := Prod.mk.inj heq
      refine ⟨Nat.le_refl _, ?_⟩
      have hhead : (parameterSlots d)[0]? = some d.kind? := by
        unfold parameterSlots
        split <;> rfl
      rw [Nat.sub_self, List.getElem?_append_left (by rw [hlength]; split <;> omega), hhead, ← hk]
    · obtain ⟨hle, hget⟩ := ih hrest
      refine ⟨by omega, ?_⟩
      rw [List.getElem?_append_right (by rw [hlength]; omega), hlength, ← hget]
      congr 1
      omega

theorem getElem?_of_mem_arrivals {access : Access} {s : ProperSignature} {n : Nat} {k : Kind}
    (h : (n, some k) ∈ s.arrivals access) : (entryLocals access s)[n]? = some (some k) := by
  unfold arrivals at h
  unfold entryLocals
  split at h
  · rename_i hstatic
    rw [if_pos hstatic, List.nil_append]
    exact (getElem?_of_mem_paramSlots h).2
  · rename_i hstatic
    rw [if_neg hstatic]
    rcases List.mem_cons.mp h with heq | hrest
    · obtain ⟨rfl, rfl⟩ : n = 0 ∧ k = .reference := by simpa using heq
      rfl
    · obtain ⟨hle, hget⟩ := getElem?_of_mem_paramSlots hrest
      rwa [List.getElem?_append_right hle]

end ProperSignature

namespace Expression

mutual

/-- Nothing is copied from the stack below, and all that is loaded is among the arrivals. -/
def SelfContained (arrivals : List (Nat × Option Kind)) : Expression → Prop
  | constant _ | null _ => True
  | load type index => (index.toNat, type.kind?) ∈ arrivals
  | dup _ => False
  | convert _ operand | negate operand => operand.SelfContained arrivals
  | compare _ left right => left.SelfContained arrivals ∧ right.SelfContained arrivals
  | call _ arguments => SelfContainedAll arrivals arguments

def SelfContainedAll (arrivals : List (Nat × Option Kind)) : List Expression → Prop
  | [] => True
  | x :: xs => x.SelfContained arrivals ∧ SelfContainedAll arrivals xs

end

end Expression

/-! ## Requests on stacks of kinds -/

/-- The kinds that the instruction of a request takes off the stack and puts on it. -/
def Request.Shifts (body : Body) (takes puts : List Kind) : Request → Prop
  | plain i _ _ => body.Effect body.entry i takes puts .next
  | pooled use c _ _ => ∀ index, body.code.constant? index = some c →
    body.Effect body.entry (use.instruction index) takes puts .next
  | _ => False

/-- The code between two emitters takes one stack to another, and the later emitter has the height
of that. -/
structure Body.Joins (body : Body) (e : Emitter) (s : List Kind) (e' : Emitter) (t : List Kind) :
    Prop where
  framed : body.Framed e.instructions.size s e'.instructions.size t
  depth : e'.depth = some (slotHeight t)

namespace Body

variable {body : Body} {e e' : Emitter}

theorem Joins.trans {e₁ : Emitter} {s t u : List Kind} (h : body.Joins e s e₁ t)
    (h' : body.Joins e₁ t e' u) : body.Joins e s e' u :=
  ⟨h.framed.trans h'.framed, h'.depth⟩

theorem joins_places {i : Instruction} {pops pushes : Nat} {takes puts rest : List Kind}
    (hplace : body.code.Places i pops pushes (slotHeight (takes ++ rest)) e e')
    (he : body.Effect body.entry i takes puts .next)
    (hcount : slotHeight puts + pops = slotHeight takes + pushes) :
    body.Joins e (takes ++ rest) e' (puts ++ rest) := by
  have hheight : slotHeight (takes ++ rest) - pops + pushes = slotHeight (puts ++ rest) := by
    have hle := hplace.pops_le
    rw [slotHeight_append] at hle ⊢
    rw [slotHeight_append]
    omega
  have hroom := hplace.room
  rw [hheight] at hroom
  refine ⟨?_, hplace.depth.trans (congrArg some hheight)⟩
  rw [hplace.size]
  exact framed_effect hplace.instruction he hroom

theorem joins_request {r : Request} (takes puts : List Kind) {rest : List Kind} (hr : r.Honest)
    (hp : r.Shifts body takes puts) (hc : body.code.Carries e') (hs : e.Sound)
    (hd : e.depth = some (slotHeight (takes ++ rest))) (h : r.apply e = .ok e') :
    body.Joins e (takes ++ rest) e' (puts ++ rest) := by
  cases r with
  | plain i pops pushes =>
    exact joins_places (hc.places_plain hd h) hp (hr body body.entry takes puts .next hp).1
  | pooled use c pops pushes =>
    obtain ⟨index, hplace, hconstant⟩ := hc.places_pooled hs hd h
    have he := hp index hconstant
    exact joins_places hplace he (hr body body.entry index takes puts .next hconstant he).1
  | _ => cases hp

end Body

section
variable {body : Body}

theorem shifts_int (v : Int32) : (intRequest v).Shifts body [] [.int] := by
  unfold intRequest
  split_ifs
  · exact .iconst _
  · exact .bipush _
  · exact .sipush _
  · exact fun index hc => .ldc hc rfl

theorem shifts_literal {l : Literal} {k : Kind} (hk : l.type.kind? = some k) :
    l.request.Shifts body [] [k] := by
  cases l with
  | bool b =>
    cases hk
    exact .iconst _
  | char | int =>
    cases hk
    exact shifts_int _
  | long v =>
    cases hk
    simp only [Literal.request]
    split_ifs
    · exact .lconst _
    · exact .lconst _
    · exact fun index hc => .ldc2 hc rfl
  | float v =>
    cases hk
    simp only [Literal.request]
    split
    · exact .fconst _
    · exact fun index hc => .ldc hc rfl
  | double v =>
    cases hk
    simp only [Literal.request]
    split
    · exact .dconst _
    · exact fun index hc => .ldc2 hc rfl
  | string text =>
    cases hk
    exact fun index hc => .ldc hc rfl

end

/-! ## Booleans -/

def selectFrame (pc : Nat) (operands rest : List Kind) (p : Nat) : List Kind :=
  match p - pc with
  | 0 => operands ++ rest
  | 1 | 3 => rest
  | _ => .int :: rest

namespace Body

variable {body : Body}

theorem framed_select {pc n : Nat} {i : Instruction} {taken : Bool} {operands rest : List Kind}
    (hs : body.code.Selects pc i n taken)
    (he : body.Effect body.entry i operands [] (.branch ⟨n⟩))
    (hroom : slotHeight rest + 1 ≤ body.code.maxStack) :
    body.Framed pc (operands ++ rest) (pc + 4) (.int :: rest) := by
  have hframe (k : Nat) : selectFrame pc operands rest (pc + k) =
      selectFrame 0 operands rest k := by
    simp [selectFrame]
  have hint : slotHeight (.int :: rest) ≤ body.code.maxStack := by
    have : slotHeight (.int :: rest) = 1 + slotHeight rest := rfl
    omega
  have pushed {k : Nat} {v : Int8} (hi : body.code.instructions[pc + k]? = some (.iconst v))
      (hk : k ≤ 3) (hbefore : selectFrame 0 operands rest k = rest)
      (hafter : selectFrame 0 operands rest (k + 1) = .int :: rest) :
      body.Fits (selectFrame pc operands rest) pc (pc + 4) (pc + k) := by
    refine ⟨_, .int :: rest, .next, hi, ?_, hint, fun l hl => (by cases hl), fun next hl => ?_⟩
    · rw [hframe, hbefore]
      rfl
    · cases hl
      exact ⟨by omega, by omega, (hframe (k + 1)).trans hafter⟩
  refine ⟨by omega, selectFrame pc operands rest, hframe 0, hframe 4, fun p hge hlt => ?_⟩
  obtain rfl | rfl | rfl | rfl : p = pc ∨ p = pc + 1 ∨ p = pc + 2 ∨ p = pc + 3 := by omega
  · refine ⟨i, rest, .branch ⟨n⟩, hs.branch, ?_, by omega, fun l hl => ?_, fun next hl => ?_⟩
    · have hentry : selectFrame p operands rest p = operands ++ rest := hframe 0
      rw [hentry]
      exact step_of_effect he p rest
    · cases hl
      exact ⟨_, hs.target⟩
    · cases hl with
      | past => exact ⟨by omega, by omega, hframe 1⟩
      | taken hp =>
        rw [position?_of_labelInfo? hs.target] at hp
        cases hp
        exact ⟨by omega, by omega, hframe 3⟩
  · exact pushed hs.past (by omega) rfl rfl
  · refine ⟨_, .int :: rest, .jump ⟨n + 1⟩, hs.skip, ?_, hint, fun l hl => ?_, fun next hl => ?_⟩
    · rw [hframe]
      rfl
    · cases hl
      exact ⟨_, hs.stop⟩
    · cases hl with
      | jumped hp =>
        rw [position?_of_labelInfo? hs.stop] at hp
        cases hp
        exact ⟨by omega, by omega, hframe 4⟩
  · exact pushed hs.chosen (by omega) rfl rfl

section
variable {e e' : Emitter} {rest : List Kind}

theorem joins_select {i : Instruction} {pops n : Nat} {taken : Bool} (operands : List Kind)
    (he : body.Effect body.entry i operands [] (.branch ⟨n⟩)) (hpops : slotHeight operands = pops)
    (hc : body.code.Carries e') (hd : e.depth = some (slotHeight (operands ++ rest)))
    (hn : e.Fresh n) (hn' : e.Fresh (n + 1))
    (h : Request.applyAll (selectRequests i pops taken n) e = .ok e') :
    body.Joins e (operands ++ rest) e' (.int :: rest) := by
  obtain ⟨hselects, hsize, _, hdepth, hroom⟩ := hc.selects hd hn hn' h
  rw [slotHeight_append, hpops, Nat.add_sub_cancel_left] at hdepth hroom
  refine ⟨?_, by rw [hdepth, slotHeight, Nat.add_comm]; rfl⟩
  rw [hsize]
  exact framed_select hselects he hroom

theorem joins_compare {type : Descriptor} {k : Kind} {op : Comparison} {n : Nat}
    (hk : type.kind? = some k) (hop : ¬(type.isReference = true ∧ op.isOrdering = true))
    (hc : body.code.Carries e') (hs : e.Sound)
    (hd : e.depth = some (slotHeight (k :: k :: rest))) (hn : e.Fresh n) (hn' : e.Fresh (n + 1))
    (h : Request.applyAll (compareRequests type op ⟨n⟩ ++
      [boolRequest false, .goto ⟨n + 1⟩, .mark ⟨n⟩, boolRequest true, .mark ⟨n + 1⟩]) e = .ok e') :
    body.Joins e (k :: k :: rest) e' (.int :: rest) := by
  rcases compareRequests_cases hk op ⟨n⟩ with ⟨i, hi, hcase⟩ | ⟨r, hr, rfl, _⟩
  · rw [hi] at h
    have heffect : body.Effect body.entry i [k, k] [] (.branch ⟨n⟩) ∧ slotHeight [k, k] = 2 := by
      rcases hcase with ⟨rfl, rfl⟩ | ⟨rfl, href, rfl⟩
      · exact ⟨.ifInt op _, rfl⟩
      · exact ⟨.ifSame _ (by simpa [href] using hop), rfl⟩
    have hselect : Request.applyAll (selectRequests i 2 true n) e = .ok e' := h
    exact joins_select [k, k] heffect.1 heffect.2 hc hd hn hn' hselect
  · rw [hr] at h
    obtain ⟨e₁, h₁, h⟩ := bind_eq_ok.mp h
    have hselect : Request.applyAll (selectRequests (.ifZero op ⟨n⟩) 1 true n) e₁ = .ok e' := h
    have hc₁ := hc.of_extends (Request.extends_applyAll hselect)
    have hmem : .plain (.reduce r) (2 * r.operand.size) 1 ∈ compareRequests type op ⟨n⟩ := by
      rw [hr]
      simp [reducedRequests]
    have hjoins : body.Joins e (r.operand :: r.operand :: rest) e₁ (.int :: rest) :=
      joins_request [r.operand, r.operand] [.int] (honest_compare hmem)
        (.reduce r) hc₁ hs hd h₁
    have hlabels : e₁.labels = e.labels := by
      obtain ⟨_, rfl⟩ := Emitter.effect_eq_ok.mp h₁
      rfl
    have hn₁ : e₁.Fresh n := by unfold Emitter.Fresh; rw [hlabels]; exact hn
    have hn₁' : e₁.Fresh (n + 1) := by unfold Emitter.Fresh; rw [hlabels]; exact hn'
    exact hjoins.trans (joins_select [.int] (.ifZero op _) rfl hc hjoins.depth hn₁
      hn₁' hselect)

/-! ## Conversions and calls -/

theorem joins_convert {cs : List Conversion} {k k' : Kind} (hcs : Converts cs k k')
    (hc : body.code.Carries e') (hs : e.Sound) (hd : e.depth = some (slotHeight (k :: rest)))
    (h : Request.applyAll (cs.map convertRequest) e = .ok e') :
    body.Joins e (k :: rest) e' (k' :: rest) := by
  induction cs generalizing e k with
  | nil =>
    cases h
    obtain rfl : k = k' := hcs
    exact ⟨.refl _ _, hd⟩
  | cons c cs ih =>
    obtain ⟨rfl, hcs⟩ := hcs
    obtain ⟨e₁, h₁, h⟩ := bind_eq_ok.mp h
    have hc₁ := hc.of_extends (Request.extends_applyAll h)
    have hfirst : body.Joins e (c.source :: rest) e₁ (c.target :: rest) :=
      joins_request [c.source] [c.target] (honest_convert c) (.convert c) hc₁
        hs hd h₁
    exact hfirst.trans (ih hcs (hs.apply h₁) hfirst.depth h)

theorem joins_call {ref : MethodRef} {ks : List Kind} {k : Kind}
    (hks : ref.method.signature.params.map Descriptor.kind? = ks.map some)
    (hk : ref.method.signature.returns.kind? = some k) (hc : body.code.Carries e') (hs : e.Sound)
    (hd : e.depth = some (slotHeight (ks.reverse ++ rest)))
    (h : (callRequest ref).apply e = .ok e') :
    body.Joins e (ks.reverse ++ rest) e' (k :: rest) := by
  refine joins_request _ [k] (honest_call ref) (fun index hconstant => ?_) hc hs hd h
  have hreverse : ref.method.signature.params.reverse.map Descriptor.kind? =
      ks.reverse.map some := by
    rw [List.map_reverse, hks, List.map_reverse]
  have heffect : body.Effect body.entry (.invokeStatic index) ks.reverse
      ref.method.signature.returns.kind?.toList .next := .invokeStatic hconstant hreverse
  rwa [hk] at heffect

end

end Body

/-! ## All expressions -/

section
variable {body : Body} {arrivals : List (Nat × Option Kind)}

mutual

theorem Expression.Typed.joins {x : Expression} (hx : x.Typed)
    (harrive : ∀ n k, (n, some k) ∈ arrivals → body.entry[n]? = some (some k))
    (hself : x.SelfContained arrivals) {k : Kind} (hk : x.resultType.kind? = some k)
    {e e' : Emitter} {s : List Kind} (hc : body.code.Carries e') (hs : e.Sound)
    (hd : e.depth = some (slotHeight s))
    (h : Request.applyAll (x.requests e.labels.size) e = .ok e') :
    body.Joins e s e' (k :: s) := by
  match x with
  | .constant l =>
    exact Body.joins_request [] [k] (honest_literal l) (shifts_literal hk) hc
      hs hd ((Request.applyAll_singleton _ _).symm.trans h)
  | .null type =>
    obtain rfl : k = .reference := by
      cases type <;> first | exact (Option.some.inj hk).symm | cases hx
    exact Body.joins_request [] [.reference] honest_null .aconstNull hc hs hd
      ((Request.applyAll_singleton _ _).symm.trans h)
  | .load type index =>
    have hk' : type.kind? = some k := hk
    have harrival : (index.toNat, type.kind?) ∈ arrivals := hself
    rw [hk'] at harrival
    have hmem : .plain (.load k index) 0 type.size ∈ loadRequests type index := by
      simp [loadRequests, hk']
    simp only [Expression.requests, loadRequests, hk'] at h
    obtain ⟨e₁, h₁, h⟩ := bind_eq_ok.mp h
    have hc₁ := hc.of_extends (Request.extends_applyAll h)
    have hjoins : body.Joins e s e₁ (k :: s) :=
      Body.joins_request [] [k] (honest_load hmem) (.load (harrive _ _ harrival)) hc₁ hs
        hd h₁
    cases h
    exact ⟨hjoins.framed, hjoins.depth⟩
  | .dup type => exact hself.elim
  | .convert type operand =>
    obtain ⟨hoperand, hne, hfrom, hto⟩ := hx
    obtain ⟨p, hp⟩ := Descriptor.eq_primitive_of_isNumeric hfrom
    obtain ⟨q, rfl⟩ := Descriptor.eq_primitive_of_isNumeric hto
    rw [Expression.requests, Request.applyAll_append] at h
    obtain ⟨e₁, h₁, h⟩ := bind_eq_ok.mp h
    have hc₁ := hc.of_extends (Request.extends_applyAll h)
    have hfirst := hoperand.joins harrive hself (k := p.kind) (by rw [hp]; rfl) hc₁ hs hd h₁
    rw [hp] at h hfrom
    obtain rfl : q.kind = k := Option.some.inj hk
    exact hfirst.trans (Body.joins_convert (converts_conversions hfrom hto) hc
      (hs.applyAll_requests h₁) hfirst.depth h)
  | .compare op left right =>
    obtain ⟨hleft, hright, htypes, hvalue, hop⟩ := hx
    obtain ⟨j, hj⟩ := hleft.kind
    obtain rfl : .int = k := Option.some.inj hk
    rw [Expression.requests, Request.applyAll_append, Request.applyAll_append] at h
    obtain ⟨e₂, h₂, h⟩ := bind_eq_ok.mp h
    obtain ⟨e₁, h₁, h₂⟩ := bind_eq_ok.mp h₂
    -- each operand numbers its labels from where the one before left off
    rw [← Expression.size_applyAll_requests h₁] at h₂ h
    rw [← Expression.size_applyAll_requests h₂] at h
    have hc₂ := hc.of_extends (Request.extends_applyAll h)
    have hc₁ := hc₂.of_extends (Request.extends_applyAll h₂)
    have hs₁ := hs.applyAll_requests h₁
    have hs₂ := hs₁.applyAll_requests h₂
    have hl := hleft.joins harrive hself.1 hj hc₁ hs hd h₁
    have hr := hright.joins harrive hself.2 (htypes ▸ hj) hc₂ hs₁ hl.depth h₂
    rw [booleanRequests, List.append_assoc] at h
    obtain ⟨e₃, h, hs₃, hinstr, hdepth₃, hn, hn'⟩ := Emitter.fresh_labels hs₂ h
    have hcompare := Body.joins_compare hj hop hc hs₃ (hdepth₃.trans hr.depth) hn hn' h
    have hbranch : body.Joins e₂ (j :: j :: s) e' (.int :: s) :=
      ⟨hinstr ▸ hcompare.framed, hcompare.depth⟩
    exact (hl.trans hr).trans hbranch
  | .negate operand =>
    obtain ⟨hoperand, htype⟩ := hx
    obtain rfl : .int = k := Option.some.inj hk
    rw [Expression.requests, Request.applyAll_append] at h
    obtain ⟨e₁, h₁, h⟩ := bind_eq_ok.mp h
    rw [← Expression.size_applyAll_requests h₁] at h
    have hc₁ := hc.of_extends (Request.extends_applyAll h)
    have hfirst := hoperand.joins harrive hself (k := .int) (by rw [htype]; rfl) hc₁ hs hd h₁
    rw [booleanRequests, List.append_assoc] at h
    obtain ⟨e₂, h, _, hinstr, hdepth₂, hn, hn'⟩ :=
      Emitter.fresh_labels (hs.applyAll_requests h₁) h
    have hselect : body.Joins e₂ (.int :: s) e' (.int :: s) :=
      Body.joins_select [.int] (.ifZero .ne _) rfl hc (hdepth₂.trans hfirst.depth) hn hn' h
    have hbranch : body.Joins e₁ (.int :: s) e' (.int :: s) :=
      ⟨hinstr ▸ hselect.framed, hselect.depth⟩
    exact hfirst.trans hbranch
  | .call ref arguments =>
    obtain ⟨hall, htypes, hvalue⟩ := hx
    rw [Expression.requests, Request.applyAll_append] at h
    obtain ⟨e₁, h₁, h⟩ := bind_eq_ok.mp h
    have hc₁ := hc.of_extends (Request.extends_applyAll h)
    obtain ⟨ks, hks, hfirst⟩ := hall.joins harrive hself hc₁ hs hd h₁
    rw [htypes] at hks
    exact hfirst.trans (Body.joins_call hks hk hc (hs.applyAll_requests h₁) hfirst.depth
      ((Request.applyAll_singleton _ _).symm.trans h))

theorem Expression.TypedAll.joins {xs : List Expression} (hxs : Expression.TypedAll xs)
    (harrive : ∀ n k, (n, some k) ∈ arrivals → body.entry[n]? = some (some k))
    (hself : Expression.SelfContainedAll arrivals xs) {e e' : Emitter} {s : List Kind}
    (hc : body.code.Carries e') (hs : e.Sound) (hd : e.depth = some (slotHeight s))
    (h : Request.applyAll (Expression.requestsAll xs e.labels.size) e = .ok e') :
    ∃ ks : List Kind, (xs.map Expression.resultType).map Descriptor.kind? = ks.map some ∧
      body.Joins e s e' (ks.reverse ++ s) := by
  match xs with
  | [] =>
    cases h
    exact ⟨[], rfl, .refl _ _, hd⟩
  | x :: xs =>
    obtain ⟨hx, hxs⟩ := hxs
    obtain ⟨k, hk⟩ := hx.kind
    rw [Expression.requestsAll, Request.applyAll_append] at h
    obtain ⟨e₁, h₁, h⟩ := bind_eq_ok.mp h
    rw [← Expression.size_applyAll_requests h₁] at h
    have hc₁ := hc.of_extends (Request.extends_applyAll h)
    have hfirst := hx.joins harrive hself.1 hk hc₁ hs hd h₁
    obtain ⟨ks, hks, hrest⟩ := hxs.joins harrive hself.2 hc (hs.applyAll_requests h₁) hfirst.depth h
    refine ⟨k :: ks, by rw [List.map_cons, List.map_cons, hk, hks, List.map_cons], ?_⟩
    rw [List.reverse_cons, List.append_assoc]
    exact hfirst.trans hrest

end

end

/-! ## Methods that give back an expression -/

namespace Emitter

theorem returnValue_eq {e : Emitter} {k : Kind} (hk : e.method.signature.returns.kind? = some k) :
    e.returnValue = (Request.leave (some k) k.size).apply e := by
  rw [Descriptor.size_kind? hk, ← hk]
  unfold returnValue
  cases hr : e.method.signature.returns with
  | method => rw [hr] at hk; cases hk
  | _ => rfl

end Emitter

theorem Expression.Typed.verifies_code {x : Expression} (hx : x.Typed) {access : Access}
    {method : Method} {options : EmitOptions}
    (hself : x.SelfContained (method.signature.arrivals access)) {k : Kind}
    (hk : x.resultType.kind? = some k) (hresult : method.signature.returns.kind? = some k)
    {e e' : Emitter}
    (he : Request.applyAll (x.requests 0) (.initial access method options) = .ok e)
    (he' : (Request.leave (some k) k.size).apply e = .ok e') (hf : e'.finish = .ok e'.code) :
    ∃ h, (Body.mk e'.code access method.signature).verify = .ok h := by
  have hc' : (Body.mk e'.code access method.signature).code.Carries e' :=
    Emitter.carries_of_finish hf
  have hjoins : (Body.mk e'.code access method.signature).Joins
      (.initial access method options) [] e [k] := by
    refine hx.joins (fun n j hn => ?_) hself hk (hc'.of_extends (Request.extends he'))
      (Emitter.sound_initial access method options) rfl he
    rw [Body.entry, List.getElem?_toArray]
    exact ProperSignature.getElem?_of_mem_arrivals hn
  have hlast : (Body.mk e'.code access method.signature).step
      (Body.mk e'.code access method.signature).entry e.instructions.size [k] (.leave (some k)) =
        .ok ([], .exit) := Body.step_of_effect (.leave hresult) _ []
  obtain ⟨e₁, h₁, he'⟩ := bind_eq_ok.mp he'
  obtain ⟨_, rfl⟩ := Emitter.effect_eq_ok.mp h₁
  cases he'
  refine Body.verify_of_framed hjoins.framed ?_ ?_ hlast ?_
  · simp [Emitter.code, Emitter.shift, Emitter.append]
  · simp [Emitter.code, Emitter.shift, Emitter.append]
  · exact Nat.zero_le _

/-- **Compiled expressions verify.** An expression that the builders give, that copies nothing and
loads only the receiver and parameters, is emitted without misuse, and raises the height by the size
of its type. The method that returns it is finished, and its body verifies, unless the expression
names more different constants than can be addressed. -/
theorem Expression.Built.verifies {x : Expression} (hx : x.Built) (access : Access)
    (method : Method) (options : EmitOptions)
    (hself : x.SelfContained (method.signature.arrivals access))
    (hreturns : method.signature.returns.kind? = x.resultType.kind?) :
    ∃ e e', x.generate (.initial access method options) = .ok e ∧
      e.depth = some x.resultType.size ∧ e.returnValue = .ok e' ∧
      (x.constants.toFinset.card ≤ ConstantPool.capacity →
        e'.endMethod = .ok ⟨access, method, .code e'.code⟩ ∧
          ∃ h, (Body.mk e'.code access method.signature).verify = .ok h) ∧
      (ConstantPool.capacity < x.constants.toFinset.card →
        e'.endMethod = .error (.tooManyConstants ConstantPool.capacity)) := by
  obtain ⟨k, hk⟩ := hx.typed.kind
  have hresult := hreturns.trans hk
  obtain ⟨e, he, hdepth⟩ := hx.typed.generates (.initial access method options)
  have hd : e.depth = some (0 + k.size) := by
    rw [hdepth, Descriptor.size_kind? hk]
    rfl
  have hrequests : Request.applyAll (x.requests 0) (.initial access method options) = .ok e :=
    applyAll_generate he
  obtain ⟨e', he'⟩ : ∃ e', (Request.leave (some k) k.size).apply e = .ok e' := by
    have hpops : e.depth = (some 0).map (· + k.size) := hd
    exact ⟨_, by simp only [Request.apply, Emitter.effect_ok hpops, ok_bind]; rfl⟩
  have hreturn : e.returnValue = .ok e' := by
    have hmethod : e.method = method :=
      congrArg (fun header => header.2.1) (Request.header_applyAll hrequests)
    rw [Emitter.returnValue_eq (hmethod ▸ hresult), he']
  have hall : Request.applyAll (x.requests 0 ++ [.leave (some k) k.size])
      (.initial access method options) = .ok e' := by
    rw [Request.applyAll_append, hrequests, ok_bind, Request.applyAll_singleton, he']
  have hconstants :
      Request.constants (x.requests 0 ++ [.leave (some k) k.size]) = x.constants := by
    rw [Request.constants_append, constants_requests]
    exact List.append_nil _
  refine ⟨e, e', he, ?_, hreturn, fun hfew => ?_, fun hmany => ?_⟩
  · rw [hd, Nat.zero_add, Descriptor.size_kind? hk]
  · have hclosed : Request.Closed (x.requests 0 ++ [.leave (some k) k.size]) := by
      refine (closed_requests x 0).append (Request.closed_of_unnamed fun r hr b => ?_)
      rw [List.mem_singleton.mp hr]
      rfl
    have hfinish := Emitter.finish_ok hall (hconstants ▸ hfew) fun r hr => hclosed r hr _
    obtain ⟨h, hv⟩ := hx.typed.verifies_code hself hk hresult hrequests he' hfinish
    have hheader := Request.header_applyAll hall
    exact ⟨Emitter.endMethod_eq_ok (congrArg Prod.fst hheader)
      (congrArg (fun header => header.2.1) hheader) hfinish hv, h, hv⟩
  · exact Emitter.endMethod_eq_error (Emitter.finish_tooMany hall (hconstants ▸ hmany))

def receivingMethod : Method := ⟨"f", .mk ⟨[.long, .int], .boolean⟩⟩

def mixRef : MethodRef := ⟨"A", ⟨"mix", .mk ⟨[.long, .int], .int⟩⟩⟩

def differing : Expression :=
  .negate (.compare .eq (.convert .int (.load .long 1))
    (.call mixRef [.load .long 1, .load .int 3]))

theorem differing_built : differing.Built := by
  have hlong : (Expression.load .long 1).Built := .slot ⟨"x", .long, 1, ⟨0⟩, ⟨1⟩⟩ rfl
  have hint : (Expression.load .int 3).Built := .slot ⟨"y", .int, 3, ⟨0⟩, ⟨1⟩⟩ rfl
  have harguments : ∀ a ∈ [Expression.load .long 1, .load .int 3], a.Built := by
    simpa using ⟨hlong, hint⟩
  have hcall : Expression.calling mixRef [.load .long 1, .load .int 3] =
      .ok (.call mixRef [.load .long 1, .load .int 3]) := by
    cbv
  have hconvert : (Expression.load .long 1).convertTo .int =
      .ok (.convert .int (.load .long 1)) := by
    cbv
  have hcompare : (Expression.compare .eq (.convert .int (.load .long 1))
      (.call mixRef [.load .long 1, .load .int 3])).Built :=
    .compare (.convert hlong hconvert) (.call harguments hcall) rfl
  exact .negate hcompare rfl

theorem Expression.Built.verifies_differing :
    differing.SelfContained (receivingMethod.signature.arrivals .none) ∧
      ∃ e e', differing.generate (.initial .none receivingMethod {}) = .ok e ∧
        e.depth = some 1 ∧ e.returnValue = .ok e' ∧
        e'.endMethod = .ok ⟨.none, receivingMethod, .code e'.code⟩ := by
  have hself : differing.SelfContained (receivingMethod.signature.arrivals .none) := by
    have harrivals : receivingMethod.signature.arrivals .none =
        [(0, some .reference), (1, some .long), (3, some .int)] := by decide
    rw [harrivals]
    simp [differing, SelfContained, SelfContainedAll, Descriptor.kind?, Primitive.kind]
  obtain ⟨e, e', he, hd, hreturn, hfew, _⟩ :=
    verifies differing_built .none receivingMethod {} hself rfl
  have hconstants : differing.constants.toFinset.card ≤ ConstantPool.capacity :=
    (List.toFinset_card_le _).trans (by decide)
  exact ⟨hself, e, e', he, hd, hreturn, (hfew hconstants).1⟩

end StackCode
