import StackCode.Proofs.Expression.Execution
import StackCode.Proofs.Expression.Generation

/-!
# Code of each shape

What the code of a literal, of conversions and of a comparison does on a stack of the tracked
height, wherever an emitter put it.
-/

namespace StackCode

/-! ## Literals -/

section
variable {c : Configuration} {e e' : Emitter} {d : Nat} (hc : c.active.code.Carries e')
  (hd : e.depth = some d)
include hc hd

theorem Configuration.moves_plain {i : Instruction} {pushes : Nat}
    (h : (Request.plain i 0 pushes).apply e = .ok e') {v : Value} (hsize : v.size = pushes)
    {m : Machine} {values : List Value} (hv : slotsOf values = d)
    (hp : m.perform (c.holding m e.instructions.size values).active i =
      (do return .proceed (← (Stack.holding values c.active.code.maxStack).push v))) :
    c.Moves m e.instructions.size values m e'.instructions.size (v :: values) := by
  have hplace := hc.places_plain hd h
  rw [hplace.size]
  refine moves_push hplace.instruction hp ?_
  rw [hv, hsize]
  exact hplace.room

theorem Configuration.moves_pooled (hs : e.Sound) {use : PoolUse} {k : Constant} {pushes : Nat}
    (h : (Request.pooled use k 0 pushes).apply e = .ok e') {v : Value} (hsize : v.size = pushes)
    {m : Machine} {values : List Value} (hv : slotsOf values = d)
    (hp : ∀ index, c.active.code.constant? index = some k →
      m.perform (c.holding m e.instructions.size values).active (use.instruction index) =
      (do return .proceed (← (Stack.holding values c.active.code.maxStack).push v))) :
    c.Moves m e.instructions.size values m e'.instructions.size (v :: values) := by
  obtain ⟨index, hplace, hk⟩ := hc.places_pooled hs hd h
  rw [hplace.size]
  refine moves_push hplace.instruction (hp index hk) ?_
  rw [hv, hsize]
  exact hplace.room

end

theorem toInt32_toInt8 {v : Int32} (h : -128 ≤ v.toInt) (h' : v.toInt < 128) :
    v.toInt8.toInt32 = v := by
  apply Int32.toInt_inj.mp
  rw [Int8.toInt_toInt32, Int32.toInt_toInt8, Int.bmod_eq_of_le (by omega) (by omega)]

theorem toInt32_toInt16 {v : Int32} (h : -32768 ≤ v.toInt) (h' : v.toInt < 32768) :
    v.toInt16.toInt32 = v := by
  apply Int32.toInt_inj.mp
  rw [Int16.toInt_toInt32, Int32.toInt_toInt16, Int.bmod_eq_of_le (by omega) (by omega)]

section
variable {c : Configuration} {e e' : Emitter} {d : Nat} (hc : c.active.code.Carries e')
  (hs : e.Sound) (hd : e.depth = some d)
include hc hs hd

theorem Configuration.moves_number {use : PoolUse} (huse : use = .narrow ∨ use = .wide)
    {k : Constant} {pushes : Nat} (h : (Request.pooled use k 0 pushes).apply e = .ok e') {v : Value}
    (hk : k.number? = some v) (hsize : v.size = pushes) {m : Machine} {values : List Value}
    (hv : slotsOf values = d) :
    c.Moves m e.instructions.size values m e'.instructions.size (v :: values) := by
  refine moves_pooled hc hd hs h hsize hv fun index hindex => ?_
  rcases huse with rfl | rfl <;>
    exact Machine.load_number (a := (c.holding m e.instructions.size values).active) hindex hk

theorem Configuration.moves_int {v : Int32} (h : (intRequest v).apply e = .ok e') {m : Machine}
    {values : List Value} (hv : slotsOf values = d) :
    c.Moves m e.instructions.size values m e'.instructions.size (.int v :: values) := by
  unfold intRequest at h
  split_ifs at h with h₁ h₂ h₃
  · have hround : v.toInt8.toInt32 = v := toInt32_toInt8 (by omega) (by omega)
    exact moves_plain hc hd h rfl hv (by simp only [Machine.perform, hround]; rfl)
  · have hround : v.toInt8.toInt32 = v := toInt32_toInt8 h₂.1 h₂.2
    exact moves_plain hc hd h rfl hv (by simp only [Machine.perform, hround]; rfl)
  · have hround : v.toInt16.toInt32 = v := toInt32_toInt16 h₃.1 h₃.2
    exact moves_plain hc hd h rfl hv (by simp only [Machine.perform, hround]; rfl)
  · exact moves_number hc hs hd (.inl rfl) h rfl rfl hv

theorem Configuration.moves_string {text : String}
    (h : (Request.pooled .narrow (.string text) 0 1).apply e = .ok e') {m : Machine}
    {values : List Value} (hv : slotsOf values = d) :
    c.Moves m e.instructions.size values (m.literal text).2 e'.instructions.size
      (.object (m.literal text).1 :: values) := by
  obtain ⟨index, hplace, hk⟩ := hc.places_pooled hs hd h
  rw [hplace.size]
  have hperform : m.perform (c.holding m e.instructions.size values).active (.ldc index) =
      .ok (.pushLiteral (.holding values c.active.code.maxStack) text) := by
    have hk' : (c.holding m e.instructions.size values).active.code.constant? index =
        some (.string text) := hk
    simp only [Machine.perform, Machine.load, hk']
    rfl
  have hpush : (Stack.holding values c.active.code.maxStack).push (.object (m.literal text).1) =
      .ok (.holding (.object (m.literal text).1 :: values) c.active.code.maxStack) :=
    Stack.push_holding (by rw [hv]; exact hplace.room)
  refine moves_of_act hplace.instruction hperform ?_
  have hresume : (c.holding m e.instructions.size values).act
      (.pushLiteral (.holding values c.active.code.maxStack) text) =
    (c.holding (m.literal text).2 e.instructions.size values).resume
      (.holding values c.active.code.maxStack)
      (some (.object (m.literal text).1)) := rfl
  rw [hresume]
  simp only [resume, hpush]
  rfl

end

/-! ## Conversions -/

def convertAll? : List Conversion → Value → Option Value
  | [], v => some v
  | c :: cs, v => (v.convert c).bind (convertAll? cs)

section
variable {s t : Primitive} (hs : s.isNumeric = true) (ht : t.isNumeric = true)
include hs ht

theorem convertAll?_conversions (hne : s ≠ t) (v : Value) :
    convertAll? (Emitter.conversions s t) v = v.cast? (.primitive s) (.primitive t) := by
  have single (c : Conversion) (v : Value) : convertAll? [c] v = v.convert c := by
    rw [convertAll?]
    cases v.convert c <;> rfl
  cases s <;> cases t <;> first
    | exact absurd hs (by decide)
    | exact absurd ht (by decide)
    | exact absurd rfl hne
    | rfl
    | exact single ..
    | exact congrArg (Option.bind _) (funext (single _))

end

theorem convertAll?_of_kind {cs : List Conversion} {k k' : Kind} {v : Value} (hcs : Converts cs k k')
    (hv : v.kind? = some k) : ∃ w, convertAll? cs v = some w ∧ w.kind? = some k' := by
  induction cs generalizing v k with
  | nil =>
    obtain rfl : k = k' := hcs
    exact ⟨v, rfl, hv⟩
  | cons c cs ih =>
    obtain ⟨rfl, hcs⟩ := hcs
    obtain ⟨u, hu, hkind⟩ := Value.convert_of_kind? hv
    rw [convertAll?, hu]
    exact ih hcs hkind

theorem Configuration.moves_convert {c : Configuration} {cs : List Conversion} {k k' : Kind}
    {e e' : Emitter} {b : Nat} (hcs : Converts cs k k') (hc : c.active.code.Carries e')
    (hd : e.depth = some (b + k.size)) (h : Request.applyAll (cs.map convertRequest) e = .ok e') :
    e'.depth = some (b + k'.size) ∧
      ∀ (m : Machine) (v : Value) (values : List Value), v.kind? = some k →
      slotsOf values = b → ∃ w, convertAll? cs v = some w ∧ w.kind? = some k' ∧
        c.Moves m e.instructions.size (v :: values) m e'.instructions.size (w :: values) := by
  induction cs generalizing e k with
  | nil =>
    cases h
    obtain rfl : k = k' := hcs
    exact ⟨hd, fun m v values hv _ => ⟨v, rfl, hv, .refl _⟩⟩
  | cons conv cs ih =>
    obtain ⟨rfl, hcs⟩ := hcs
    obtain ⟨e₁, h₁, h⟩ := bind_eq_ok.mp h
    have hplace := (hc.of_extends (Request.extends_applyAll h)).places_plain hd h₁
    have hdepth : e₁.depth = some (b + conv.target.size) := by
      rw [hplace.depth, Nat.add_sub_cancel]
    obtain ⟨hdepth', hrest⟩ := ih hcs hdepth h
    refine ⟨hdepth', fun m v values hv hslots => ?_⟩
    obtain ⟨u, hu, hkind⟩ := Value.convert_of_kind? hv
    obtain ⟨w, hw, hkind', hmoves⟩ := hrest m u values hkind hslots
    refine ⟨w, by rw [convertAll?, hu, Option.bind_some, hw], hkind', Moves.trans ?_ hmoves⟩
    have hroom : slotsOf values + u.size ≤ c.active.code.maxStack := by
      have := hplace.room
      rw [hslots, Value.size_of_kind? hkind]
      omega
    rw [hplace.size]
    exact moves_proceed hplace.instruction (Machine.perform_convert rfl hu hroom)

/-! ## Comparisons -/

theorem holds_ofOrdering (op : Comparison) (o : Ordering) :
    ∃ n, Value.ofOrdering o = .int n ∧ op.holds (compare n.toInt 0) = op.holds o := by
  cases o
  · exact ⟨-1, rfl, rfl⟩
  · exact ⟨0, rfl, rfl⟩
  · exact ⟨1, rfl, rfl⟩

/-- The reduction that is chosen for an operator makes NaN fail it, unless it is `ne`. -/
theorem holds_getD (op : Comparison) (o : Option Ordering) :
    op.holds (o.getD (if op.isGreater then .lt else .gt)) = op.holdsOf o := by
  cases o with
  | some o => rfl
  | none => cases op <;> rfl

theorem compareRequests_cases {type : Descriptor} {k : Kind} (hk : type.kind? = some k)
    (op : Comparison) (l : Label) :
    (∃ i, compareRequests type op l = [.branch i 2 l] ∧
        ((k = .int ∧ i = .ifInt op l) ∨
          (k = .reference ∧ type.isReference = true ∧ i = .ifSame op l))) ∨
      ∃ r, compareRequests type op l = reducedRequests r op l ∧ r.operand = k ∧
        ∀ v w : Value, v.kind? = some k → w.kind? = some k →
          ∃ o, Value.reduce r v w = some (.ofOrdering o) ∧
            op.decide? v w = some (op.holds o) := by
  cases type with
  | void | method => cases hk
  | object | array =>
    cases hk
    exact .inl ⟨_, rfl, .inr ⟨rfl, rfl, rfl⟩⟩
  | primitive p =>
    cases hk
    cases p with
    | boolean | byte | short | char | int => exact .inl ⟨_, rfl, .inl ⟨rfl, rfl⟩⟩
    | long =>
      refine .inr ⟨.lcmp, rfl, rfl, fun v w hv hw => ?_⟩
      cases v <;> cases hv
      cases w <;> cases hw
      exact ⟨_, rfl, rfl⟩
    | float =>
      refine .inr ⟨_, rfl, by cases op <;> rfl, fun v w hv hw => ?_⟩
      cases v <;> cases hv
      cases w <;> cases hw
      rename_i a b
      refine ⟨(a.compare? b).getD (if op.isGreater then .lt else .gt), by cases op <;> rfl, ?_⟩
      rw [holds_getD]
      rfl
    | double =>
      refine .inr ⟨_, rfl, by cases op <;> rfl, fun v w hv hw => ?_⟩
      cases v <;> cases hv
      cases w <;> cases hw
      rename_i a b
      refine ⟨(a.compare? b).getD (if op.isGreater then .lt else .gt), by cases op <;> rfl, ?_⟩
      rw [holds_getD]
      rfl

theorem Emitter.fresh_labels {e e' : Emitter} {rs : List Request} (hs : e.Sound)
    (h : Request.applyAll ([.newLabel false, .newLabel false] ++ rs) e = .ok e') :
    ∃ e₁, Request.applyAll rs e₁ = .ok e' ∧ e₁.Sound ∧
      e₁.instructions = e.instructions ∧ e₁.depth = e.depth ∧
      e₁.Fresh e.labels.size ∧ e₁.Fresh (e.labels.size + 1) := by
  have hlabels : Request.applyAll [.newLabel false, .newLabel false] e =
      .ok ((e.allocateLabel false).2.allocateLabel false).2 := rfl
  rw [Request.applyAll_append, hlabels, ok_bind] at h
  exact ⟨_, h, hs.applyAll_requests hlabels, rfl, rfl, fresh_allocateLabel e,
    fresh_allocateLabel_succ e⟩

section
variable {c : Configuration} {e e' : Emitter} {d n : Nat} {taken : Bool}
  (hc : c.active.code.Carries e') (hd : e.depth = some d) (hn : e.Fresh n) (hn' : e.Fresh (n + 1))
include hc hd hn hn'

theorem Configuration.moves_boolean {i : Instruction} {pops : Nat} {condition : Bool} {m : Machine}
    (operands : List Value) {values : List Value}
    (h : Request.applyAll (selectRequests i pops taken n) e = .ok e')
    (hv : slotsOf values + pops = d)
    (hp : m.perform (c.holding m e.instructions.size (operands ++ values)).active i =
      .ok (Machine.branchIf condition (.holding values c.active.code.maxStack) ⟨n⟩)) :
    c.Moves m e.instructions.size (operands ++ values) m e'.instructions.size
      (.ofBool (condition == taken) :: values) := by
  obtain ⟨hselects, hsize, _, _, hroom⟩ := hc.selects hd hn hn' h
  rw [hsize]
  exact moves_select hselects (by omega) hp

theorem Configuration.moves_zero {op : Comparison} (m : Machine) (v : Int32) (values : List Value)
    (h : Request.applyAll (selectRequests (.ifZero op ⟨n⟩) 1 taken n) e = .ok e')
    (hv : slotsOf values + 1 = d) :
    c.Moves m e.instructions.size (.int v :: values) m e'.instructions.size
      (.ofBool (op.holds (compare v.toInt 0) == taken) :: values) :=
  moves_boolean hc hd hn hn' [.int v] h hv (Machine.perform_ifZero rfl)

end

/-- The code between two emitters takes two values of a kind to whether the operator holds of them.
-/
def Configuration.Compares (c : Configuration) (op : Comparison) (k : Kind) (e e' : Emitter)
    (d : Nat) : Prop :=
  (∃ b, d = b + k.size + k.size ∧ e'.depth = some (b + 1)) ∧
    ∀ (m : Machine) (v w : Value) (values : List Value), v.kind? = some k → w.kind? = some k →
      slotsOf (w :: v :: values) = d → ∃ b, op.decide? v w = some b ∧
        c.Moves m e.instructions.size (w :: v :: values) m e'.instructions.size
          (.ofBool b :: values)

section
variable {c : Configuration} {e e' : Emitter} {d n : Nat} {op : Comparison}
  (hc : c.active.code.Carries e') (hd : e.depth = some d) (hn : e.Fresh n) (hn' : e.Fresh (n + 1))
include hc hd hn hn'

theorem Configuration.compares_branch {type : Descriptor} {k : Kind} {i : Instruction}
    (hop : ¬(type.isReference = true ∧ op.isOrdering = true))
    (hi : (k = .int ∧ i = .ifInt op ⟨n⟩) ∨
      (k = .reference ∧ type.isReference = true ∧ i = .ifSame op ⟨n⟩))
    (h : Request.applyAll (selectRequests i 2 true n) e = .ok e') : c.Compares op k e e' d := by
  have hsize : k.size = 1 := by rcases hi with ⟨rfl, _⟩ | ⟨rfl, _⟩ <;> rfl
  obtain ⟨_, _, hle, hdepth, _⟩ := hc.selects hd hn hn' h
  refine ⟨⟨d - 2, by omega, hdepth⟩, fun m v w values hv hw hslots => ?_⟩
  have hslots' : slotsOf values + 2 = d := by
    rw [slotsOf_cons, slotsOf_cons, Value.size_of_kind? hv, Value.size_of_kind? hw] at hslots
    omega
  have hmoves {b : Bool}
      (hp : m.perform (c.holding m e.instructions.size (w :: v :: values)).active i =
      .ok (Machine.branchIf b (.holding values c.active.code.maxStack) ⟨n⟩)) :
      c.Moves m e.instructions.size (w :: v :: values) m e'.instructions.size
        (.ofBool b :: values) := by
    have := moves_boolean hc hd hn hn' [w, v] h hslots' hp
    rwa [beq_true] at this
  rcases hi with ⟨rfl, rfl⟩ | ⟨rfl, hr, rfl⟩
  · cases v <;> cases hv
    cases w <;> cases hw
    exact ⟨_, rfl, hmoves (Machine.perform_ifInt rfl)⟩
  · obtain ⟨b, hb⟩ := Machine.decide?_of_kind hv hw fun h => hop ⟨hr, h.2⟩
    exact ⟨b, hb, hmoves (Machine.perform_ifSame rfl hv hw hb)⟩

theorem Configuration.compares_reduced {r : Reduction}
    (hreduce : ∀ v w : Value, v.kind? = some r.operand → w.kind? = some r.operand →
      ∃ o, Value.reduce r v w = some (.ofOrdering o) ∧ op.decide? v w = some (op.holds o))
    (h : Request.applyAll
      (.plain (.reduce r) (2 * r.operand.size) 1 :: selectRequests (.ifZero op ⟨n⟩) 1 true n) e =
        .ok e') :
    c.Compares op r.operand e e' d := by
  obtain ⟨e₁, h₁, hselect⟩ := bind_eq_ok.mp h
  have hplace := (hc.of_extends (Request.extends_applyAll hselect)).places_plain hd h₁
  have hlabels : e₁.labels = e.labels := by
    obtain ⟨_, rfl⟩ := Emitter.effect_eq_ok.mp h₁
    rfl
  have hn₁ : e₁.Fresh n := by unfold Emitter.Fresh; rw [hlabels]; exact hn
  have hn₁' : e₁.Fresh (n + 1) := by unfold Emitter.Fresh; rw [hlabels]; exact hn'
  obtain ⟨_, _, _, hdepth, _⟩ := hc.selects hplace.depth hn₁ hn₁' hselect
  have hle := hplace.pops_le
  refine ⟨⟨d - 2 * r.operand.size, by omega, by rw [hdepth]; congr 1⟩,
    fun m v w values hv hw hslots => ?_⟩
  have hslots' : slotsOf values + 2 * r.operand.size = d := by
    rw [slotsOf_cons, slotsOf_cons, Value.size_of_kind? hv, Value.size_of_kind? hw] at hslots
    omega
  obtain ⟨o, ho, hdecide⟩ := hreduce v w hv hw
  obtain ⟨x, hx, hholds⟩ := holds_ofOrdering op o
  refine ⟨_, hdecide, ?_⟩
  have hroom : slotsOf values + (Value.ofOrdering o).size ≤ c.active.code.maxStack := by
    have := hplace.room
    rw [hx]
    simp only [Value.size]
    omega
  have hreduced : c.Moves m e.instructions.size (w :: v :: values) m e₁.instructions.size
      (.int x :: values) := by
    rw [hplace.size, ← hx]
    exact moves_proceed hplace.instruction (Machine.perform_reduce rfl hw ho hroom)
  have hzero := moves_zero hc hplace.depth hn₁ hn₁' m x values hselect (by omega)
  rw [hholds, beq_true] at hzero
  exact hreduced.trans hzero

theorem Configuration.compares_requests {type : Descriptor} {k : Kind} (hk : type.kind? = some k)
    (hop : ¬(type.isReference = true ∧ op.isOrdering = true))
    (h : Request.applyAll (compareRequests type op ⟨n⟩ ++
      [boolRequest false, .goto ⟨n + 1⟩, .mark ⟨n⟩, boolRequest true, .mark ⟨n + 1⟩]) e = .ok e') :
    c.Compares op k e e' d := by
  rcases compareRequests_cases hk op ⟨n⟩ with ⟨i, hi, hcase⟩ | ⟨r, hr, rfl, hreduce⟩
  · rw [hi] at h
    exact compares_branch hc hd hn hn' hop hcase h
  · rw [hr] at h
    exact compares_reduced hc hd hn hn' hreduce h

end

end StackCode
