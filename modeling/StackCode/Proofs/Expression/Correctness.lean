import StackCode.Proofs.Expression.Shapes
import StackCode.Proofs.Machine.Invariant
import StackCode.Proofs.Machine.Safety

/-!
# Compiled expressions compute their values

The code of an expression, wherever an emitter put it, takes any stack of the tracked height to the
same stack with the expression's value on top. The proof goes along the expression; what an
evaluation tells of a run is handed from operand to operand.
-/

namespace StackCode

/-! ## What an evaluation tells of a run -/

namespace Evaluation

variable {α β : Type}

/-- A value is reached as `goal` says, an end is the run's end, an evaluation that takes more steps
leaves the run going for as long, and only a call that misanswers leaves a value open. -/
def Tells (fuel : Nat) (start : Progress) (goal : Machine → α → Prop) : Evaluation α → Prop
  | value m a => goal m a
  | stopped outcome => ∃ m, start.Leads (.stopped m outcome)
  | unfinished => start.Lasts fuel
  | undefined => start.loader.Misanswers

theorem Tells.bind {fuel : Nat} {start : Progress} {goal : Machine → α → Prop}
    {goal' : Machine → β → Prop} {r : Evaluation α} {f : Machine → α → Evaluation β}
    (h : r.Tells fuel start goal) (hf : ∀ m a, goal m a → (f m a).Tells fuel start goal') :
    (r.bind f).Tells fuel start goal' := by
  cases r with
  | value m a => exact hf m a h
  | stopped | unfinished | undefined => exact h

theorem Tells.of_leads {fuel : Nat} {start mid : Progress} {goal goal' : Machine → α → Prop}
    {r : Evaluation α} (hl : start.Leads mid) (h : r.Tells fuel mid goal)
    (hg : ∀ m a, goal m a → goal' m a) : r.Tells fuel start goal' := by
  cases r with
  | value m a => exact hg m a h
  | stopped outcome =>
    obtain ⟨m, hm⟩ := h
    exact ⟨m, hl.trans hm⟩
  | unfinished => exact Progress.Lasts.of_leads hl h
  | undefined =>
    have hmid : mid.loader.Misanswers := h
    rw [hl.loader] at hmid
    exact hmid

end Evaluation

/-- The code between two emitters does what an evaluation tells: with a value, it pushes it. -/
def Configuration.Computes (c : Configuration) (e e' : Emitter) (fuel : Nat) (m : Machine)
    (values : List Value) (kind : Option Kind) (r : Evaluation Value) : Prop :=
  r.Tells fuel (.running (c.holding m e.instructions.size values)) fun m' v =>
    v.kind? = kind ∧ c.Moves m e.instructions.size values m' e'.instructions.size (v :: values)

/-! ## Expressions without operands -/

/-- What holds of the code of an expression: it raises the height by the size of the type, and
computes what the expression evaluates to. -/
def Configuration.Realizes (c : Configuration) (fuel : Nat) (x : Expression) (e e' : Emitter)
    (d : Nat) : Prop :=
  e'.depth = some (d + x.resultType.size) ∧
    ∀ (m : Machine) (values : List Value), slotsOf values = d →
      x.Suits c.active.locals (values.map Value.kind?) →
      c.Computes e e' fuel m values x.resultType.kind? (x.evaluate fuel c.active.locals m values)

def Configuration.RealizesAll (c : Configuration) (fuel : Nat) (xs : List Expression)
    (e e' : Emitter) (d : Nat) : Prop :=
  e'.depth = some (d + Descriptor.slots (xs.map Expression.resultType)) ∧
    ∀ (m : Machine) (values : List Value), slotsOf values = d →
      Expression.SuitsAll c.active.locals xs (values.map Value.kind?) →
      (Expression.evaluateAll fuel c.active.locals xs m values).Tells fuel
        (.running (c.holding m e.instructions.size values)) fun m' vs =>
          vs.map Value.kind? = xs.map (fun x => x.resultType.kind?) ∧
            c.Moves m e.instructions.size values m' e'.instructions.size (vs.reverse ++ values)

section
variable {c : Configuration} {e e' : Emitter} {d fuel : Nat} (hc : c.active.code.Carries e')
  (hs : e.Sound) (hd : e.depth = some d)
include hc hs hd

theorem realizes_constant (l : Literal) (h : l.request.apply e = .ok e') :
    c.Realizes fuel (.constant l) e e' d := by
  have hdepth : e'.depth = some (d + l.type.size) := by
    rw [← Except.ok.inj ((Emitter.apply_literal l e).symm.trans h), Emitter.depth_pushLiteral, hd]
    rfl
  refine ⟨hdepth, fun m values hv _ => ?_⟩
  rw [Expression.evaluate]
  change c.Computes e e' fuel m values l.type.kind? (l.evaluate m)
  cases l with
  | bool b =>
    refine ⟨rfl, Configuration.moves_plain hc hd h rfl hv ?_⟩
    cases b <;> rfl
  | char u => exact ⟨rfl, Configuration.moves_int hc hs hd h hv⟩
  | int v => exact ⟨rfl, Configuration.moves_int hc hs hd h hv⟩
  | long v =>
    refine ⟨rfl, ?_⟩
    simp only [Literal.request] at h
    split_ifs at h with h₀ h₁
    · exact Configuration.moves_plain hc hd h rfl hv (by rw [h₀]; rfl)
    · exact Configuration.moves_plain hc hd h rfl hv (by rw [h₁]; rfl)
    · exact Configuration.moves_number hc hs hd (.inr rfl) h rfl rfl hv
  | float v =>
    refine ⟨rfl, ?_⟩
    simp only [Literal.request] at h
    split at h
    · rename_i n hn
      have hround : Single.ofInt n.toNat = v := by simpa using List.find?_some hn
      exact Configuration.moves_plain hc hd h rfl hv (by simp only [Machine.perform, hround]; rfl)
    · exact Configuration.moves_number hc hs hd (.inl rfl) h rfl rfl hv
  | double v =>
    refine ⟨rfl, ?_⟩
    simp only [Literal.request] at h
    split at h
    · rename_i n hn
      have hround : Double.ofInt n.toNat = v := by simpa using List.find?_some hn
      exact Configuration.moves_plain hc hd h rfl hv (by simp only [Machine.perform, hround]; rfl)
    · exact Configuration.moves_number hc hs hd (.inr rfl) h rfl rfl hv
  | string text => exact ⟨rfl, Configuration.moves_string hc hs hd h hv⟩

omit hs in
theorem realizes_null {type : Descriptor} (ht : type.isReference = true)
    (h : (Request.plain .aconstNull 0 1).apply e = .ok e') :
    c.Realizes fuel (.null type) e e' d := by
  have hsize : type.size = 1 ∧ type.kind? = some .reference := by
    cases type <;> first | exact ⟨rfl, rfl⟩ | cases ht
  refine ⟨?_, fun m values hv _ => ⟨hsize.2.symm, Configuration.moves_plain hc hd h rfl hv rfl⟩⟩
  rw [(hc.places_plain hd h).depth, Expression.resultType, hsize.1]
  rfl

omit hs in
theorem realizes_load {type : Descriptor} {index : UInt16} (ht : type.isValueType = true)
    (h : Request.applyAll (loadRequests type index) e = .ok e') :
    c.Realizes fuel (.load type index) e e' d := by
  obtain ⟨k, hk⟩ := Option.isSome_iff_exists.mp ((Descriptor.isSome_kind? type).trans ht)
  simp only [loadRequests, hk] at h
  obtain ⟨e₁, h₁, h⟩ := bind_eq_ok.mp h
  have hc₁ := hc.of_extends (Request.extends_applyAll h)
  cases h
  have hplace := hc₁.places_plain hd h₁
  refine ⟨hplace.depth, fun m values hv hlocal => ?_⟩
  obtain ⟨v, hlocal, hkind⟩ := hlocal
  have hsize : v.size = type.size :=
    (Value.size_of_kind? (hkind.trans hk)).trans (Descriptor.size_kind? hk)
  rw [Expression.evaluate, hlocal]
  refine ⟨hkind, Configuration.moves_plain hc₁ hd h₁ hsize hv ?_⟩
  have hlocal' : (c.holding m e.instructions.size values).active.locals[index.toNat]? = some v :=
    hlocal
  simp only [Machine.perform, hlocal']
  rfl

omit hs in
theorem realizes_dup {type : Descriptor} (ht : type.isValueType = true)
    (h : (dupRequest type).apply e = .ok e') : c.Realizes fuel (.dup type) e e' d := by
  obtain ⟨k, hk⟩ := Option.isSome_iff_exists.mp ((Descriptor.isSome_kind? type).trans ht)
  have hsize := Descriptor.size_kind? hk
  have hpushes : ∃ i, dupRequest type = .plain i 0 type.size ∧
      (i = .dup ∨ type.size = 2 ∧ i = .dup2) := by
    unfold dupRequest
    split_ifs with h2
    · exact ⟨_, by rw [h2], .inr ⟨h2, rfl⟩⟩
    · have h1 : type.size = 1 := by
        rw [← hsize] at h2 ⊢
        cases k <;> first | rfl | exact absurd rfl h2
      exact ⟨_, by rw [h1], .inl rfl⟩
  obtain ⟨i, hr, hi⟩ := hpushes
  rw [hr] at h
  have hplace := hc.places_plain hd h
  refine ⟨hplace.depth, fun m values hv htop => ?_⟩
  cases values with
  | nil => cases htop
  | cons v values =>
    have hkind : v.kind? = type.kind? := Option.some.inj htop
    have hvsize : v.size = type.size := (Value.size_of_kind? (hkind.trans hk)).trans hsize
    have hroom : slotsOf (v :: values) + v.size ≤ c.active.code.maxStack := by
      rw [hv, hvsize]
      exact hplace.room
    refine ⟨hkind, ?_⟩
    rw [hplace.size]
    rcases hi with rfl | ⟨h2, rfl⟩
    · exact Configuration.moves_proceed hplace.instruction (Machine.perform_dup rfl hroom)
    · exact Configuration.moves_proceed hplace.instruction
        (Machine.perform_dup2 rfl (hvsize.trans h2) hroom)

end

/-! ## Expressions with operands -/

theorem holds_ne_zero (n : Int32) : Comparison.ne.holds (compare n.toInt 0) = (n != 0) := by
  have hzero : compare n.toInt 0 = .eq ↔ n = 0 := by
    rw [Std.compare_eq_eq_iff_eq, ← Int32.toInt_inj]
    rfl
  by_cases hn : n = 0
  · rw [hzero.mpr hn, hn]
    rfl
  · rw [bne_iff_ne.mpr hn]
    cases ho : compare n.toInt 0 <;> first | rfl | exact absurd (hzero.mp ho) hn

theorem realizes_convert {c : Configuration} {fuel d : Nat} {operand : Expression}
    {type : Descriptor} {e e₁ e' : Emitter} (hop : c.Realizes fuel operand e e₁ d)
    (hne : operand.resultType ≠ type) (hs : operand.resultType.isNumeric = true)
    (ht : type.isNumeric = true) (hc : c.active.code.Carries e')
    (h : Request.applyAll (castRequests operand.resultType type) e₁ = .ok e') :
    c.Realizes fuel (.convert type operand) e e' d := by
  obtain ⟨hdepth, hop⟩ := hop
  obtain ⟨p, hp⟩ := Descriptor.eq_primitive_of_isNumeric hs
  obtain ⟨q, rfl⟩ := Descriptor.eq_primitive_of_isNumeric ht
  rw [hp] at hne hs h hdepth
  have hpq : p ≠ q := fun heq => hne (congrArg _ heq)
  have hd₁ : e₁.depth = some (d + p.kind.size) := by rw [hdepth, Primitive.size_kind]; rfl
  obtain ⟨hdepth', hconvert⟩ := Configuration.moves_convert (converts_conversions hs ht) hc hd₁ h
  refine ⟨?_, fun m values hv hsuits => ?_⟩
  · rw [hdepth', Primitive.size_kind]
    rfl
  · rw [Expression.evaluate]
    refine (hop m values hv hsuits).bind fun m' v hgoal => ?_
    obtain ⟨hkind, hmoves⟩ := hgoal
    rw [hp] at hkind
    obtain ⟨w, hw, hkind', hmoves'⟩ := hconvert m' v values hkind hv
    rw [convertAll?_conversions hs ht hpq] at hw
    rw [hp, hw]
    exact ⟨hkind', hmoves.trans hmoves'⟩

theorem realizes_compare {c : Configuration} {fuel d : Nat} {op : Comparison}
    {left right : Expression} {e e₁ e₂ e' : Emitter} (hleft : c.Realizes fuel left e e₁ d)
    (hright : c.Realizes fuel right e₁ e₂ (d + left.resultType.size))
    (htypes : left.resultType = right.resultType) (hvalue : left.resultType.isValueType = true)
    (hop : ¬(left.resultType.isReference = true ∧ op.isOrdering = true)) (hs : e₂.Sound)
    (hc : c.active.code.Carries e')
    (h : Request.applyAll
      (booleanRequests (compareRequests left.resultType op ⟨e₂.labels.size⟩) true e₂.labels.size)
      e₂ = .ok e') :
    c.Realizes fuel (.compare op left right) e e' d := by
  obtain ⟨k, hk⟩ := Option.isSome_iff_exists.mp ((Descriptor.isSome_kind? _).trans hvalue)
  have hsize := Descriptor.size_kind? hk
  obtain ⟨-, hleft⟩ := hleft
  obtain ⟨hdepth, hright⟩ := hright
  rw [← htypes, ← hsize] at hdepth
  rw [booleanRequests, List.append_assoc] at h
  obtain ⟨e₃, h, -, hinstr, hdepth₃, hn, hn'⟩ := Emitter.fresh_labels hs h
  rw [hdepth] at hdepth₃
  obtain ⟨⟨b, hb, hdepth'⟩, hcompare⟩ := Configuration.compares_requests hc hdepth₃ hn hn' hk hop h
  obtain rfl : d = b := by omega
  refine ⟨hdepth', fun m values hv hsuits => ?_⟩
  rw [Expression.evaluate]
  refine (hleft m values hv hsuits.1).bind fun m₁ v hgoal => ?_
  obtain ⟨hkv, hmoves⟩ := hgoal
  have hv' : slotsOf (v :: values) = d + left.resultType.size := by
    rw [slotsOf_cons, hv, Value.size_of_kind? (hkv.trans hk), hsize, Nat.add_comm]
  have hsuits' : right.Suits c.active.locals ((v :: values).map Value.kind?) := by
    rw [List.map_cons, hkv]
    exact hsuits.2
  -- the right operand runs from where the left one ended, one value higher
  have hsecond := Evaluation.Tells.of_leads hmoves (hright m₁ (v :: values) hv' hsuits')
      fun m₂ w hgoal =>
    And.intro hgoal.1 (hmoves.trans hgoal.2)
  refine hsecond.bind fun m₂ w hgoal => ?_
  obtain ⟨hkw, hmoves'⟩ := hgoal
  rw [← htypes] at hkw
  have hslots : slotsOf (w :: v :: values) = d + k.size + k.size := by
    rw [slotsOf_cons, hv', Value.size_of_kind? (hkw.trans hk), hsize, Nat.add_comm]
  obtain ⟨b, hb, hmoves''⟩ := hcompare m₂ v w values (hkv.trans hk) (hkw.trans hk) hslots
  rw [hb]
  rw [hinstr] at hmoves''
  exact ⟨rfl, hmoves'.trans hmoves''⟩

theorem realizes_negate {c : Configuration} {fuel d : Nat} {operand : Expression}
    {e e₁ e' : Emitter} (hop : c.Realizes fuel operand e e₁ d)
    (htype : operand.resultType = .boolean) (hs : e₁.Sound) (hc : c.active.code.Carries e')
    (h : Request.applyAll (booleanRequests [zeroRequest .ne ⟨e₁.labels.size⟩] false e₁.labels.size)
      e₁ = .ok e') :
    c.Realizes fuel (.negate operand) e e' d := by
  obtain ⟨hdepth, hop⟩ := hop
  rw [htype] at hdepth
  rw [booleanRequests, List.append_assoc] at h
  obtain ⟨e₂, h, -, hinstr, hdepth₂, hn, hn'⟩ := Emitter.fresh_labels hs h
  rw [hdepth] at hdepth₂
  have hselect : Request.applyAll
      (selectRequests (.ifZero .ne ⟨e₁.labels.size⟩) 1 false e₁.labels.size) e₂ = .ok e' := h
  obtain ⟨_, _, _, hdepth', _⟩ := hc.selects hdepth₂ hn hn' hselect
  refine ⟨hdepth', fun m values hv hsuits => ?_⟩
  rw [Expression.evaluate]
  refine (hop m values hv hsuits).bind fun m' v hgoal => ?_
  obtain ⟨hkind, hmoves⟩ := hgoal
  rw [htype] at hkind
  cases v <;> cases hkind
  rename_i n
  have hbool : Comparison.ne.holds (compare n.toInt 0) = (n != 0) := holds_ne_zero n
  have hzero := Configuration.moves_zero hc hdepth₂ hn hn' m' n values hselect
    (congrArg (· + 1) hv)
  rw [hbool, hinstr, beq_false] at hzero
  exact ⟨rfl, hmoves.trans hzero⟩

/-! ## Calls -/

theorem Configuration.tells_call {c : Configuration} (m : Machine) (fuel : Nat) {pc : Nat}
    {index : UInt16} {ref : MethodRef} {vs values : List Value}
    (hi : c.active.code.instructions[pc]? = some (.invokeStatic index))
    (hk : c.active.code.constant? index = some (.method ref))
    (hvalue : ref.method.signature.returns.isValueType = true)
    (hkinds : vs.map Value.kind? = ref.method.signature.params.map Descriptor.kind?)
    (hroom : ∀ v : Value, v.kind? = ref.method.signature.returns.kind? →
      slotsOf values + v.size ≤ c.active.code.maxStack) :
    (Evaluation.ofCall fuel m ref vs).Tells fuel (.running (c.holding m pc (vs.reverse ++ values)))
      fun m' v =>
      v.kind? = ref.method.signature.returns.kind? ∧
        c.Moves m pc (vs.reverse ++ values) m' (pc + 1) (v :: values) := by
  have hlen : vs.length = ref.method.signature.params.length := by
    simpa using congrArg List.length hkinds
  have hpop : (Stack.holding (vs.reverse ++ values) c.active.code.maxStack).popMany pc
      ref.method.signature.params.length [] = .ok (vs, .holding values c.active.code.maxStack) := by
    have hmany : (Stack.holding (vs.reverse ++ values) c.active.code.maxStack).popMany pc
        vs.reverse.length [] =
          .ok (vs.reverse.reverse ++ [], .holding values c.active.code.maxStack) :=
      Stack.popMany_holding pc vs.reverse []
    simpa [hlen] using hmany
  have hstep := Configuration.step_invokeStatic (c := c.holding m pc (vs.reverse ++ values))
    hi hk hpop
  -- the instruction starts the call from outside, with this body below
  have hlead : (Progress.running (c.holding m pc (vs.reverse ++ values))).Leads
      ((m.invokeStatic ref vs).under (c.holding m pc values).active c.callers) :=
    Progress.leads_step (by rw [hstep]; exact .refl _)
  unfold Evaluation.ofCall
  cases hrun : (m.invokeStatic ref vs).run fuel with
  | none =>
    exact Progress.Lasts.of_leads hlead (Progress.Lasts.under (Progress.run_eq_none.mp hrun))
  | some result =>
    obtain ⟨m', outcome⟩ := result
    have hend := hlead.trans (Progress.leads_under (Progress.run_eq_some.mp hrun))
    cases outcome with
    | failed error => exact ⟨_, hend⟩
    | overflowed slots limit => exact ⟨_, hend⟩
    | completed completion =>
      have misanswers (hnone : ∀ v, completion.value? = some v →
          v.kind? ≠ ref.method.signature.returns.kind?) :
          m.loader.Misanswers :=
            ⟨m, m', ref, vs, fuel, completion, rfl, hvalue, hkinds, hrun, hnone⟩
      cases hresult : completion.value? with
      | none =>
        simp only [hresult]
        exact misanswers fun v hv => by rw [hresult] at hv; cases hv
      | some v =>
        simp only [hresult]
        split_ifs with hkind
        · refine ⟨hkind, ?_⟩
          simp only [Progress.under, hresult, Configuration.resume] at hend
          have hpush : (c.holding m pc values).active.stack.push v =
              .ok (.holding (v :: values) c.active.code.maxStack) :=
            Stack.push_holding (hroom v hkind)
          rw [hpush] at hend
          exact hend
        · exact misanswers fun u hu => by
            rw [hresult] at hu
            cases hu
            exact hkind

theorem realizes_call {c : Configuration} {fuel d : Nat} {ref : MethodRef}
    {arguments : List Expression} {e e₁ e' : Emitter} (hargs : c.RealizesAll fuel arguments e e₁ d)
    (htypes : arguments.map Expression.resultType = ref.method.signature.params)
    (hvalue : ref.method.signature.returns.isValueType = true) (hs : e₁.Sound)
    (hc : c.active.code.Carries e') (h : (callRequest ref).apply e₁ = .ok e') :
    c.Realizes fuel (.call ref arguments) e e' d := by
  obtain ⟨k, hk⟩ := Option.isSome_iff_exists.mp ((Descriptor.isSome_kind? _).trans hvalue)
  obtain ⟨hdepth, hargs⟩ := hargs
  rw [htypes] at hdepth
  obtain ⟨index, hplace, hconstant⟩ := hc.places_pooled hs hdepth h
  have hdepth' := hplace.depth
  have hroom := hplace.room
  simp only [Signature.argumentSlots, Nat.add_sub_cancel] at hdepth' hroom
  refine ⟨hdepth', fun m values hv hsuits => ?_⟩
  rw [Expression.evaluate]
  refine (hargs m values hv hsuits).bind fun m' vs hgoal => ?_
  obtain ⟨hkinds, hmoves⟩ := hgoal
  have hkinds' : vs.map Value.kind? = ref.method.signature.params.map Descriptor.kind? := by
    rw [hkinds, ← htypes, List.map_map]
    rfl
  have hcall := Configuration.tells_call m' fuel hplace.instruction hconstant hvalue hkinds'
    fun v hkind => by
      rw [hv, Value.size_of_kind? (hkind.trans hk), Descriptor.size_kind? hk]
      exact hroom
  refine Evaluation.Tells.of_leads hmoves hcall fun m'' v hgoal => ⟨hgoal.1, hmoves.trans ?_⟩
  rw [hplace.size]
  exact hgoal.2

theorem realizesAll_cons {c : Configuration} {fuel d : Nat} {x : Expression} {xs : List Expression}
    {e e₁ e' : Emitter} (hfirst : c.Realizes fuel x e e₁ d) (hx : x.Typed)
    (hrest : c.RealizesAll fuel xs e₁ e' (d + x.resultType.size)) :
    c.RealizesAll fuel (x :: xs) e e' d := by
  obtain ⟨k, hk⟩ := hx.kind
  obtain ⟨-, hfirst⟩ := hfirst
  obtain ⟨hdepth, hrest⟩ := hrest
  refine ⟨by rw [hdepth, List.map_cons, Descriptor.slots, Nat.add_assoc],
    fun m values hv hsuits => ?_⟩
  rw [Expression.evaluateAll]
  refine (hfirst m values hv hsuits.1).bind fun m₁ v hgoal => ?_
  obtain ⟨hkind, hmoves⟩ := hgoal
  have hv' : slotsOf (v :: values) = d + x.resultType.size := by
    rw [slotsOf_cons, hv, Value.size_of_kind? (hkind.trans hk), Descriptor.size_kind? hk,
      Nat.add_comm]
  have hsuits' : Expression.SuitsAll c.active.locals xs ((v :: values).map Value.kind?) := by
    rw [List.map_cons, hkind]
    exact hsuits.2
  refine Evaluation.Tells.bind
    (Evaluation.Tells.of_leads hmoves (hrest m₁ (v :: values) hv' hsuits')
    fun m₂ vs hgoal => hgoal) fun m₂ vs hgoal => ?_
  obtain ⟨hkinds, hmoves'⟩ := hgoal
  refine ⟨by rw [List.map_cons, List.map_cons, hkind, hkinds], ?_⟩
  rw [List.reverse_cons, List.append_assoc]
  exact hmoves.trans hmoves'

/-! ## All expressions -/

section
variable {c : Configuration} (fuel : Nat)

mutual

theorem Expression.Typed.realizes {x : Expression} (hx : x.Typed) {e e' : Emitter} {d : Nat}
    (hc : c.active.code.Carries e') (hs : e.Sound) (hd : e.depth = some d)
    (h : Request.applyAll (x.requests e.labels.size) e = .ok e') : c.Realizes fuel x e e' d := by
  match x with
  | .constant l =>
    exact realizes_constant hc hs hd l ((Request.applyAll_singleton _ _).symm.trans h)
  | .null type => exact realizes_null hc hd hx ((Request.applyAll_singleton _ _).symm.trans h)
  | .load type index => exact realizes_load hc hd hx h
  | .dup type => exact realizes_dup hc hd hx ((Request.applyAll_singleton _ _).symm.trans h)
  | .convert type operand =>
    obtain ⟨hoperand, hne, hfrom, hto⟩ := hx
    rw [Expression.requests, Request.applyAll_append] at h
    obtain ⟨e₁, h₁, h⟩ := bind_eq_ok.mp h
    have hc₁ := hc.of_extends (Request.extends_applyAll h)
    exact realizes_convert (hoperand.realizes hc₁ hs hd h₁) hne hfrom hto hc h
  | .compare op left right =>
    obtain ⟨hleft, hright, htypes, hvalue, hop⟩ := hx
    rw [Expression.requests, Request.applyAll_append, Request.applyAll_append] at h
    obtain ⟨e₂, h₂, h⟩ := bind_eq_ok.mp h
    obtain ⟨e₁, h₁, h₂⟩ := bind_eq_ok.mp h₂
    -- each operand numbers its labels from where the one before left off
    rw [← Expression.size_applyAll_requests h₁] at h₂ h
    rw [← Expression.size_applyAll_requests h₂] at h
    have hc₂ := hc.of_extends (Request.extends_applyAll h)
    have hc₁ := hc₂.of_extends (Request.extends_applyAll h₂)
    have hs₁ := hs.applyAll_requests h₁
    have hl := hleft.realizes hc₁ hs hd h₁
    have hr := hright.realizes hc₂ hs₁ hl.1 h₂
    exact realizes_compare hl hr htypes hvalue hop (hs₁.applyAll_requests h₂) hc h
  | .negate operand =>
    obtain ⟨hoperand, htype⟩ := hx
    rw [Expression.requests, Request.applyAll_append] at h
    obtain ⟨e₁, h₁, h⟩ := bind_eq_ok.mp h
    rw [← Expression.size_applyAll_requests h₁] at h
    have hc₁ := hc.of_extends (Request.extends_applyAll h)
    exact realizes_negate (hoperand.realizes hc₁ hs hd h₁) htype (hs.applyAll_requests h₁) hc h
  | .call ref arguments =>
    obtain ⟨hall, htypes, hvalue⟩ := hx
    rw [Expression.requests, Request.applyAll_append] at h
    obtain ⟨e₁, h₁, h⟩ := bind_eq_ok.mp h
    have hc₁ := hc.of_extends (Request.extends_applyAll h)
    exact realizes_call (hall.realizes hc₁ hs hd h₁) htypes hvalue (hs.applyAll_requests h₁) hc
      ((Request.applyAll_singleton _ _).symm.trans h)

theorem Expression.TypedAll.realizes {xs : List Expression} (hxs : Expression.TypedAll xs)
    {e e' : Emitter} {d : Nat} (hc : c.active.code.Carries e') (hs : e.Sound)
    (hd : e.depth = some d)
    (h : Request.applyAll (Expression.requestsAll xs e.labels.size) e = .ok e') :
    c.RealizesAll fuel xs e e' d := by
  match xs with
  | [] =>
    cases h
    exact ⟨hd, fun m values _ _ => by rw [Expression.evaluateAll]; exact ⟨rfl, .refl _⟩⟩
  | x :: xs =>
    obtain ⟨hx, hxs⟩ := hxs
    rw [Expression.requestsAll, Request.applyAll_append] at h
    obtain ⟨e₁, h₁, h⟩ := bind_eq_ok.mp h
    rw [← Expression.size_applyAll_requests h₁] at h
    have hc₁ := hc.of_extends (Request.extends_applyAll h)
    have hfirst := hx.realizes hc₁ hs hd h₁
    exact realizesAll_cons hfirst hx (hxs.realizes hc (hs.applyAll_requests h₁) hfirst.1 h)

end

end

/-! ## Expressions in finished bodies -/

/-- Verified programs give every call a value of its type. -/
theorem Loader.Sound.not_misanswers {l : Loader} (h : l.Sound) : ¬l.Misanswers := by
  rintro ⟨m, m', ref, arguments, fuel, completion, rfl, hvalue, hkinds, hrun, hbad⟩
  cases hd : m.staticMethod ref with
  | error e =>
    simp only [Machine.invokeStatic, hd] at hrun
    cases fuel <;> cases hrun
  | ok d =>
    have hmethod : d.method = ref.method := (h.loadedMethod? (Machine.staticMethod_eq_ok.mp hd).1).2
    have hsafe := (Machine.invokeStatic_sound h hd (hmethod ▸ hkinds)).run h hrun
    rw [hmethod] at hsafe
    cases hsafe with
    | @returned v haccepts =>
      obtain ⟨k, hk⟩ := Option.isSome_iff_exists.mp ((Descriptor.isSome_kind? _).trans hvalue)
      obtain ⟨w, rfl, hkind⟩ : ∃ w, v = some w ∧ w.kind? = some k := by
        simpa [Descriptor.Accepts, hk] using haccepts
      exact hbad w rfl (hkind.trans hk.symm)

/-- **Expressions are compiled correctly.** At a known height every expression of the builders is
emitted. In every body that the emitter yields later, and on every stack of that height, its code
leads to where the code after it begins, with just the value of the expression on top; a call that
ends the run or does not return makes the whole run do so. A value is left open only where some
call misanswers, and calls of verified programs do not (`Loader.Sound.not_misanswers`). -/
theorem Expression.Built.computes {x : Expression} (hx : x.Built) (access : Access)
    (method : Method) (options : EmitOptions) (before : List Operation) (e : Emitter) (d : Nat)
    (he : (Emitter.initial access method options).applyAll before = .ok e) (hd : e.depth = some d) :
    (∃ e', x.generate e = .ok e' ∧ e'.depth = some (d + x.resultType.size)) ∧
      ∀ (e' last : Emitter) (after : List Operation) (code : Code), x.generate e = .ok e' →
        e'.applyAll after = .ok last → last.finish = .ok code →
        ∀ (c : Configuration) (values : List Value) (fuel : Nat), c.active.code = code →
          c.active.pc = e.instructions.size → c.active.stack = .holding values code.maxStack →
          slotsOf values = d → x.Suits c.active.locals (values.map Value.kind?) →
          match x.evaluate fuel c.active.locals c.machine values with
          | .value m v =>
            v.kind? = x.resultType.kind? ∧
              (Progress.running c).Leads (.running { c with
                machine := m
                active := { c.active with
                  pc := e'.instructions.size
                  stack := .holding (v :: values) code.maxStack } })
          | .stopped outcome => ∃ steps m, (Progress.running c).run steps = some (m, outcome)
          | .unfinished => (Progress.running c).run fuel = none
          | .undefined => c.machine.loader.Misanswers := by
  refine ⟨?_, fun e' last after code hg hl hf c values fuel hcode hpc hstack hslots hsuits => ?_⟩
  · obtain ⟨e', he', hd'⟩ := hx.typed.generates e
    exact ⟨e', he', by rw [hd', hd]; rfl⟩
  · subst hcode
    have hc : c.active.code.Carries e' :=
      (Emitter.carries_of_finish hf).of_extends (Emitter.extends_applyAll hl)
    have hs : e.Sound := (Emitter.sound_initial access method options).applyAll he
    obtain ⟨-, hruns⟩ := hx.typed.realizes fuel hc hs hd (applyAll_generate hg)
    have hstart : c.holding c.machine e.instructions.size values = c := by
      rw [Configuration.holding, ← hpc, ← hstack]
    have htells := hruns c.machine values hslots hsuits
    unfold Configuration.Computes Configuration.Moves at htells
    rw [hstart] at htells
    cases heval : x.evaluate fuel c.active.locals c.machine values with
    | value m v =>
      rw [heval] at htells
      exact htells
    | stopped outcome =>
      rw [heval] at htells
      obtain ⟨m, steps, hsteps⟩ := htells
      exact ⟨steps, m, Progress.run_eq_some.mpr hsteps⟩
    | unfinished =>
      rw [heval] at htells
      exact Progress.run_eq_none.mpr htells
    | undefined =>
      rw [heval] at htells
      exact htells

def lessThanFive : Expression := .compare .lt (.call sameRef [.load .int 0]) (.constant (.int 5))

theorem lessThanFive_built : lessThanFive.Built := by
  have hload : ∀ x ∈ [Expression.load .int 0], x.Built := by
    intro x hx
    rw [List.mem_singleton.mp hx]
    exact .slot ⟨"x", .int, 0, ⟨0⟩, ⟨1⟩⟩ rfl
  have hcall : Expression.calling sameRef [.load .int 0] = .ok (.call sameRef [.load .int 0]) := by
    cbv
  exact .compare (.call hload hcall) (.constant (.int 5)) rfl

theorem Expression.Built.computes_lessThanFive :
    ∃ (e' last : Emitter) (code : Code) (m : Machine),
      lessThanFive.generate (.initial .staticFlag ⟨"f", .mk ⟨[.int], .boolean⟩⟩ {}) = .ok e' ∧
        e'.applyAll [.returnValue] = .ok last ∧ last.finish = .ok code ∧
        (Progress.running ⟨relayMachine, .start code none [.int 3], []⟩).Leads (.running ⟨m,
          { Activation.start code none [.int 3] with
            pc := e'.instructions.size, stack := .holding [.int 1] code.maxStack }, []⟩) := by
  obtain ⟨e', last, code, hg, hl, hf⟩ : ∃ e' last code,
      lessThanFive.generate (.initial .staticFlag ⟨"f", .mk ⟨[.int], .boolean⟩⟩ {}) = .ok e' ∧
        e'.applyAll [.returnValue] = .ok last ∧ last.finish = .ok code :=
    ⟨_, _, _, by cbv, by cbv, by cbv⟩
  obtain ⟨m, hm⟩ : ∃ m, lessThanFive.evaluate 10 #[.int 3] relayMachine [] = .value m (.int 1) :=
    ⟨_, by cbv⟩
  have h := (computes lessThanFive_built .staticFlag ⟨"f", .mk ⟨[.int], .boolean⟩⟩ {} [] _ 0 rfl rfl).2
      e' last
    [.returnValue] code hg hl hf ⟨relayMachine, .start code none [.int 3], []⟩ [] 10 rfl rfl rfl rfl
    ⟨⟨⟨_, rfl, rfl⟩, trivial⟩, trivial⟩
  have hm' : lessThanFive.evaluate 10 (Activation.start code none [.int 3]).locals relayMachine [] =
      .value m (.int 1) := hm
  rw [hm'] at h
  exact ⟨e', last, code, m, hg, hl, hf, h.2⟩

end StackCode
