import StackCode.Proofs.Sequence
import StackCode.Verifier.Step

/-!
# Effects of instructions

An instruction takes some kinds off the stack, puts others on, and does not look below. `Effect`
lists what each instruction takes and puts, top first; `step_effect` reads it off the verifier's
step.
-/

namespace StackCode

/-! ## Taking kinds -/

namespace Kind

theorem size_eq_one {k : Kind} (h : ¬k.size = 2) : k.size = 1 := by
  cases k <;> simp [size] at h ⊢

theorem popAny_eq_ok {pc : Nat} {stack rest : List Kind} {k : Kind} :
    popAny pc stack = .ok (k, rest) ↔ stack = k :: rest := by
  cases stack <;> simp [popAny]

theorem popExact_eq_ok {pc : Nat} {k : Kind} {stack rest : List Kind} :
    k.popExact pc stack = .ok rest ↔ stack = k :: rest := by
  cases stack with
  | nil => simp [popExact]
  | cons j stack =>
    simp only [popExact]
    split
    · rename_i h; simp [h]
    · rename_i h; simp [h]

theorem popNarrow_eq_ok {pc : Nat} {stack rest : List Kind} {k : Kind} :
    popNarrow pc stack = .ok (k, rest) ↔ stack = k :: rest ∧ k.size = 1 := by
  cases stack with
  | nil => simp [popNarrow]
  | cons j stack =>
    simp only [popNarrow]
    split
    · rename_i h
      constructor
      · intro he; cases he; exact ⟨rfl, h⟩
      · rintro ⟨he, _⟩; cases he; rfl
    · rename_i h
      constructor
      · intro he; cases he
      · rintro ⟨he, hk⟩; cases he; exact absurd hk h

theorem popArguments_eq_ok {pc : Nat} {index : UInt16} {ds : List Descriptor}
    {stack rest : List Kind} :
    popArguments pc index ds stack = .ok rest ↔
      ∃ ks : List Kind, ds.map Descriptor.kind? = ks.map some ∧ stack = ks ++ rest := by
  induction ds generalizing stack with
  | nil =>
    simp only [popArguments, Except.ok.injEq, List.map_nil]
    constructor
    · rintro rfl; exact ⟨[], rfl, rfl⟩
    · rintro ⟨ks, hks, rfl⟩
      cases ks with
      | nil => rfl
      | cons => cases hks
  | cons d ds ih =>
    simp only [popArguments]
    cases hd : d.kind? with
    | none =>
      constructor
      · intro h; cases h
      · rintro ⟨ks, hks, -⟩
        cases ks <;> simp [hd] at hks
    | some k =>
      simp only [bind_eq_ok, popExact_eq_ok, ih]
      constructor
      · rintro ⟨_, rfl, ks, hks, rfl⟩
        exact ⟨k :: ks, by simp [hd, hks], rfl⟩
      · rintro ⟨ks, hks, rfl⟩
        cases ks with
        | nil => cases hks
        | cons j ks =>
          obtain ⟨rfl, hrest⟩ : k = j ∧ ds.map Descriptor.kind? = ks.map some := by
            simpa [hd] using hks
          exact ⟨ks ++ rest, rfl, ks, hrest, rfl⟩

end Kind

/-! ## What each instruction takes and puts -/

namespace Body

theorem constant_eq_ok {body : Body} {pc : Nat} {index : UInt16} {view : Constant → Option α}
    {a : α} :
    body.constant pc index view = .ok a ↔
      ∃ c, body.code.constant? index = some c ∧ view c = some a := by
  unfold constant
  cases hc : body.code.constant? index with
  | none => simp
  | some c => cases hv : view c <;> simp [hv]

theorem callee?_eq_some {c : Constant} {ref : MethodRef} :
    callee? c = some ref ↔ c = .method ref := by
  cases c <;> simp [callee?]

theorem call_eq_ok {body : Body} {pc : Nat} {index : UInt16} {receiver : Bool}
    {before after : List Kind} :
    body.call pc index receiver before = .ok after ↔
      ∃ (ref : MethodRef) (ks rest : List Kind), body.code.constant? index = some (.method ref) ∧
        ref.method.signature.params.reverse.map Descriptor.kind? = ks.map some ∧
        before = ks ++ ((if receiver then [.reference] else []) ++ rest) ∧
        after = ref.method.signature.returns.kind?.toList ++ rest := by
  cases receiver with
  | false =>
    simp only [call, Bool.false_eq_true, if_false, bind_eq_ok, constant_eq_ok, callee?_eq_some,
      Kind.popArguments_eq_ok, pure_eq_ok, Except.ok.injEq]
    constructor
    · rintro ⟨ref, ⟨_, hc, rfl⟩, _, ⟨ks, hks, rfl⟩, rest, rfl, rfl⟩
      exact ⟨ref, ks, _, hc, hks, rfl, rfl⟩
    · rintro ⟨ref, ks, rest, hc, hks, rfl, rfl⟩
      exact ⟨ref, ⟨_, hc, rfl⟩, rest, ⟨ks, hks, rfl⟩, rest, rfl, rfl⟩
  | true =>
    simp only [call, if_true, bind_eq_ok, constant_eq_ok, callee?_eq_some,
      Kind.popArguments_eq_ok, Kind.popExact_eq_ok, pure_eq_ok]
    constructor
    · rintro ⟨ref, ⟨_, hc, rfl⟩, _, ⟨ks, hks, rfl⟩, rest, rfl, rfl⟩
      exact ⟨ref, ks, rest, hc, hks, rfl, rfl⟩
    · rintro ⟨ref, ks, rest, hc, hks, rfl, rfl⟩
      exact ⟨ref, ⟨_, hc, rfl⟩, _, ⟨ks, hks, rfl⟩, rest, rfl, rfl⟩

/-- The kinds that an instruction takes and puts, top first, and where it passes control. -/
inductive Effect (body : Body) (locals : Array (Option Kind)) :
    Instruction → List Kind → List Kind → Flow → Prop
  | nop : Effect body locals .nop [] [] .next
  | aconstNull : Effect body locals .aconstNull [] [.reference] .next
  | iconst (v : Int8) : Effect body locals (.iconst v) [] [.int] .next
  | lconst (v : UInt8) : Effect body locals (.lconst v) [] [.long] .next
  | fconst (v : UInt8) : Effect body locals (.fconst v) [] [.float] .next
  | dconst (v : UInt8) : Effect body locals (.dconst v) [] [.double] .next
  | bipush (v : Int8) : Effect body locals (.bipush v) [] [.int] .next
  | sipush (v : Int16) : Effect body locals (.sipush v) [] [.int] .next
  | ldc {index : UInt16} {c : Constant} {k : Kind} :
      body.code.constant? index = some c → narrowKind? c = some k →
      Effect body locals (.ldc index) [] [k] .next
  | ldc2 {index : UInt16} {c : Constant} {k : Kind} :
      body.code.constant? index = some c → wideKind? c = some k →
      Effect body locals (.ldc2 index) [] [k] .next
  | load {k : Kind} {index : UInt16} :
      locals[index.toNat]? = some (some k) → Effect body locals (.load k index) [] [k] .next
  | pop {k : Kind} : k.size = 1 → Effect body locals .pop [k] [] .next
  | pop2Wide {k : Kind} : k.size = 2 → Effect body locals .pop2 [k] [] .next
  | pop2Narrow {k j : Kind} : k.size = 1 → j.size = 1 → Effect body locals .pop2 [k, j] [] .next
  | dup {k : Kind} : k.size = 1 → Effect body locals .dup [k] [k, k] .next
  | dup2Wide {k : Kind} : k.size = 2 → Effect body locals .dup2 [k] [k, k] .next
  | dup2Narrow {k j : Kind} : k.size = 1 → j.size = 1 →
      Effect body locals .dup2 [k, j] [k, j, k, j] .next
  | convert (c : Conversion) : Effect body locals (.convert c) [c.source] [c.target] .next
  | reduce (r : Reduction) : Effect body locals (.reduce r) [r.operand, r.operand] [.int] .next
  | ifZero (op : Comparison) (l : Label) : Effect body locals (.ifZero op l) [.int] [] (.branch l)
  | ifInt (op : Comparison) (l : Label) :
      Effect body locals (.ifInt op l) [.int, .int] [] (.branch l)
  | ifSame {op : Comparison} (l : Label) :
      op.isOrdering = false →
      Effect body locals (.ifSame op l) [.reference, .reference] [] (.branch l)
  | ifNull (l : Label) : Effect body locals (.ifNull l) [.reference] [] (.branch l)
  | ifNonNull (l : Label) : Effect body locals (.ifNonNull l) [.reference] [] (.branch l)
  | goto (l : Label) : Effect body locals (.goto l) [] [] (.jump l)
  | new {index : UInt16} {name : String} :
      body.code.constant? index = some (.classRef name) →
      Effect body locals (.new index) [] [.reference] .next
  | invokeSpecial {index : UInt16} {ref : MethodRef} {ks : List Kind} :
      body.code.constant? index = some (.method ref) →
      ref.method.signature.params.reverse.map Descriptor.kind? = ks.map some →
      Effect body locals (.invokeSpecial index) (ks ++ [.reference])
        ref.method.signature.returns.kind?.toList .next
  | invokeStatic {index : UInt16} {ref : MethodRef} {ks : List Kind} :
      body.code.constant? index = some (.method ref) →
      ref.method.signature.params.reverse.map Descriptor.kind? = ks.map some →
      Effect body locals (.invokeStatic index) ks ref.method.signature.returns.kind?.toList .next
  | leave {result : Option Kind} :
      body.signature.returns.kind? = result →
      Effect body locals (.leave result) result.toList [] .exit

theorem step_effect {body : Body} {locals : Array (Option Kind)} {pc : Nat} {i : Instruction}
    {before after : List Kind} {flow : Flow}
    (h : body.step locals pc before i = .ok (after, flow)) :
    ∃ takes puts rest, body.Effect locals i takes puts flow ∧ before = takes ++ rest ∧
      after = puts ++ rest := by
  cases i with
  | nop => cases h; exact ⟨[], [], before, .nop, rfl, rfl⟩
  | aconstNull => cases h; exact ⟨[], [_], before, .aconstNull, rfl, rfl⟩
  | iconst v => cases h; exact ⟨[], [_], before, .iconst v, rfl, rfl⟩
  | lconst v => cases h; exact ⟨[], [_], before, .lconst v, rfl, rfl⟩
  | fconst v => cases h; exact ⟨[], [_], before, .fconst v, rfl, rfl⟩
  | dconst v => cases h; exact ⟨[], [_], before, .dconst v, rfl, rfl⟩
  | bipush v => cases h; exact ⟨[], [_], before, .bipush v, rfl, rfl⟩
  | sipush v => cases h; exact ⟨[], [_], before, .sipush v, rfl, rfl⟩
  | ldc index =>
    simp only [step, bind_eq_ok, constant_eq_ok, pure_eq_ok] at h
    obtain ⟨k, ⟨c, hc, hk⟩, he⟩ := h
    cases he
    exact ⟨[], [k], before, .ldc hc hk, rfl, rfl⟩
  | ldc2 index =>
    simp only [step, bind_eq_ok, constant_eq_ok, pure_eq_ok] at h
    obtain ⟨k, ⟨c, hc, hk⟩, he⟩ := h
    cases he
    exact ⟨[], [k], before, .ldc2 hc hk, rfl, rfl⟩
  | load k index =>
    simp only [step] at h
    split at h
    · rename_i hk
      cases h
      exact ⟨[], [k], before, .load hk, rfl, rfl⟩
    · cases h
  | pop =>
    simp only [step, bind_eq_ok, pure_eq_ok] at h
    obtain ⟨⟨k, rest⟩, htake, he⟩ := h
    obtain ⟨rfl, hk⟩ := Kind.popNarrow_eq_ok.mp htake
    cases he
    exact ⟨[k], [], _, .pop hk, rfl, rfl⟩
  | pop2 =>
    simp only [step, bind_eq_ok] at h
    obtain ⟨⟨k, rest⟩, hk, he⟩ := h
    obtain rfl := Kind.popAny_eq_ok.mp hk
    split at he
    · rename_i hwide
      cases he
      exact ⟨[k], [], _, .pop2Wide hwide, rfl, rfl⟩
    · rename_i hwide
      simp only [bind_eq_ok, pure_eq_ok] at he
      obtain ⟨⟨j, rest'⟩, htake, he⟩ := he
      obtain ⟨rfl, hj⟩ := Kind.popNarrow_eq_ok.mp htake
      cases he
      exact ⟨[k, j], [], _, .pop2Narrow (k.size_eq_one hwide) hj, rfl, rfl⟩
  | dup =>
    simp only [step, bind_eq_ok, pure_eq_ok] at h
    obtain ⟨⟨k, rest⟩, htake, he⟩ := h
    obtain ⟨rfl, hk⟩ := Kind.popNarrow_eq_ok.mp htake
    cases he
    exact ⟨[k], [k, k], _, .dup hk, rfl, rfl⟩
  | dup2 =>
    simp only [step, bind_eq_ok] at h
    obtain ⟨⟨k, rest⟩, hk, he⟩ := h
    obtain rfl := Kind.popAny_eq_ok.mp hk
    split at he
    · rename_i hwide
      cases he
      exact ⟨[k], [k, k], _, .dup2Wide hwide, rfl, rfl⟩
    · rename_i hwide
      simp only [bind_eq_ok, pure_eq_ok] at he
      obtain ⟨⟨j, rest'⟩, htake, he⟩ := he
      obtain ⟨rfl, hj⟩ := Kind.popNarrow_eq_ok.mp htake
      cases he
      exact ⟨[k, j], [k, j, k, j], _, .dup2Narrow (k.size_eq_one hwide) hj, rfl, rfl⟩
  | convert c =>
    simp only [step, bind_eq_ok, Kind.popExact_eq_ok, pure_eq_ok] at h
    obtain ⟨rest, rfl, he⟩ := h
    cases he
    exact ⟨[_], [_], _, .convert c, rfl, rfl⟩
  | reduce r =>
    simp only [step, bind_eq_ok, Kind.popExact_eq_ok, pure_eq_ok] at h
    obtain ⟨_, rfl, rest, rfl, he⟩ := h
    cases he
    exact ⟨[_, _], [_], _, .reduce r, rfl, rfl⟩
  | ifZero op l =>
    simp only [step, bind_eq_ok, Kind.popExact_eq_ok, pure_eq_ok] at h
    obtain ⟨rest, rfl, he⟩ := h
    cases he
    exact ⟨[_], [], _, .ifZero op l, rfl, rfl⟩
  | ifInt op l =>
    simp only [step, bind_eq_ok, Kind.popExact_eq_ok, pure_eq_ok] at h
    obtain ⟨_, rfl, rest, rfl, he⟩ := h
    cases he
    exact ⟨[_, _], [], _, .ifInt op l, rfl, rfl⟩
  | ifSame op l =>
    simp only [step] at h
    split at h
    · cases h
    · rename_i hop
      simp only [bind_eq_ok, Kind.popExact_eq_ok, pure_eq_ok] at h
      obtain ⟨_, rfl, rest, rfl, he⟩ := h
      cases he
      exact ⟨[_, _], [], _, .ifSame l (by simpa using hop), rfl, rfl⟩
  | ifNull l =>
    simp only [step, bind_eq_ok, Kind.popExact_eq_ok, pure_eq_ok] at h
    obtain ⟨rest, rfl, he⟩ := h
    cases he
    exact ⟨[_], [], _, .ifNull l, rfl, rfl⟩
  | ifNonNull l =>
    simp only [step, bind_eq_ok, Kind.popExact_eq_ok, pure_eq_ok] at h
    obtain ⟨rest, rfl, he⟩ := h
    cases he
    exact ⟨[_], [], _, .ifNonNull l, rfl, rfl⟩
  | goto l => cases h; exact ⟨[], [], before, .goto l, rfl, rfl⟩
  | new index =>
    simp only [step] at h
    split at h
    · rename_i hc
      cases h
      exact ⟨[], [_], before, .new hc, rfl, rfl⟩
    · cases h
  | invokeSpecial index =>
    simp only [step, bind_eq_ok, pure_eq_ok] at h
    obtain ⟨after', hcall, he⟩ := h
    cases he
    obtain ⟨ref, ks, rest, hc, hks, rfl, rfl⟩ := call_eq_ok.mp hcall
    exact ⟨_, _, rest, .invokeSpecial hc hks, by simp, rfl⟩
  | invokeStatic index =>
    simp only [step, bind_eq_ok, pure_eq_ok] at h
    obtain ⟨after', hcall, he⟩ := h
    cases he
    obtain ⟨ref, ks, rest, hc, hks, rfl, rfl⟩ := call_eq_ok.mp hcall
    exact ⟨_, _, rest, .invokeStatic hc hks, by simp, rfl⟩
  | leave result =>
    simp only [step] at h
    split at h
    · cases h
    · rename_i hr
      cases result with
      | none =>
        cases h
        exact ⟨[], [], _, .leave (by simpa using hr), rfl, rfl⟩
      | some k =>
        simp only [bind_eq_ok, Kind.popExact_eq_ok, pure_eq_ok] at h
        obtain ⟨rest, rfl, he⟩ := h
        cases he
        exact ⟨[k], [], _, .leave (by simpa using hr), rfl, rfl⟩

theorem step_of_effect {body : Body} {locals : Array (Option Kind)} {i : Instruction}
    {takes puts : List Kind} {flow : Flow} (h : body.Effect locals i takes puts flow) (pc : Nat)
    (rest : List Kind) : body.step locals pc (takes ++ rest) i = .ok (puts ++ rest, flow) := by
  have hexact (k : Kind) (rest : List Kind) : k.popExact pc (k :: rest) = .ok rest :=
    Kind.popExact_eq_ok.mpr rfl
  have hnarrow {k : Kind} (hk : k.size = 1) (rest : List Kind) :
      Kind.popNarrow pc (k :: rest) = .ok (k, rest) := Kind.popNarrow_eq_ok.mpr ⟨rfl, hk⟩
  simp only [step]
  cases h with
  | ldc hc hk | ldc2 hc hk =>
    simp only [constant_eq_ok.mpr ⟨_, hc, hk⟩, ok_bind]
    rfl
  | load hk => exact if_pos hk
  | pop hk => simp only [List.cons_append, hnarrow hk, ok_bind]; rfl
  | pop2Wide hk => simp only [List.cons_append, Kind.popAny, ok_bind, hk, if_true]; rfl
  | @pop2Narrow k j hk hj =>
    have hne : ¬k.size = 2 := by omega
    simp only [List.cons_append, Kind.popAny, hnarrow hj, ok_bind, if_neg hne]
    rfl
  | dup hk => simp only [List.cons_append, hnarrow hk, ok_bind]; rfl
  | dup2Wide hk => simp only [List.cons_append, Kind.popAny, ok_bind, hk, if_true]; rfl
  | @dup2Narrow k j hk hj =>
    have hne : ¬k.size = 2 := by omega
    simp only [List.cons_append, Kind.popAny, hnarrow hj, ok_bind, if_neg hne]
    rfl
  | convert | reduce | ifZero | ifInt | ifNull | ifNonNull =>
    simp only [List.cons_append, hexact, ok_bind]
    rfl
  | ifSame l hop =>
    simp only [List.cons_append, hexact, hop, Bool.false_eq_true, if_false, ok_bind]
    rfl
  | new hc => simp only [hc]; rfl
  | @invokeSpecial index ref ks hc hks =>
    have hcall : body.call pc index true (ks ++ [.reference] ++ rest) =
        .ok (ref.method.signature.returns.kind?.toList ++ rest) :=
      call_eq_ok.mpr ⟨ref, ks, rest, hc, hks, List.append_assoc .., rfl⟩
    simp only [hcall, ok_bind]
    rfl
  | @invokeStatic index ref ks hc hks =>
    have hcall : body.call pc index false (takes ++ rest) =
        .ok (ref.method.signature.returns.kind?.toList ++ rest) :=
      call_eq_ok.mpr ⟨ref, takes, rest, hc, hks, rfl, rfl⟩
    simp only [hcall, ok_bind]
    rfl
  | @leave result hr =>
    simp only [hr, ne_eq, not_true_eq_false, if_false]
    cases result with
    | none => rfl
    | some k => simp only [Option.toList_some, List.cons_append, hexact, ok_bind]; rfl
  | _ => rfl

end Body

end StackCode
