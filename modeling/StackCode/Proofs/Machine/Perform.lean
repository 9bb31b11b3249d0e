import StackCode.Machine.Run
import StackCode.Proofs.Loader.Linking
import StackCode.Proofs.Machine.Kinds
import StackCode.Proofs.Verifier.Effect
import StackCode.Proofs.Verifier.Paths

/-!
# Instructions on stacks that fit

Where the verifier's step has an effect on kinds, the machine's instruction has it on values: it
goes through on every stack that fits, unless it meets a null receiver, and asks for what the
verifier expects to happen next.
-/

namespace StackCode

/-! ## Arguments and results -/

/-- A value of the type's kind, or none where the type has no values. -/
def Descriptor.Accepts (d : Descriptor) (v : Option Value) : Prop :=
  v.map Value.kind? = d.kind?.map some

theorem argumentSlots_kinds {vs : List Value} {ds : List Descriptor}
    (h : vs.map Value.kind? = ds.map Descriptor.kind?) :
    (argumentSlots vs).map Value.kind? = ds.flatMap parameterSlots := by
  induction vs generalizing ds with
  | nil =>
    cases ds with
    | nil => rfl
    | cons => cases h
  | cons v vs ih =>
    cases ds with
    | nil => cases h
    | cons d ds =>
      obtain ⟨hv, hvs⟩ : v.kind? = d.kind? ∧ vs.map Value.kind? = ds.map Descriptor.kind? := by
        simpa using h
      have hsize : v.size = 2 ↔ d.size = 2 := by
        cases hk : d.kind? with
        | some k => rw [Value.size_of_kind? (hv.trans hk), Descriptor.size_kind? hk]
        | none =>
          rw [hk] at hv
          cases v <;> cases hv
          cases d <;> simp [Descriptor.kind?, Value.size, Descriptor.size] at hk ⊢
      have hhead : (if v.size = 2 then [v, .top] else [v]).map Value.kind? = parameterSlots d := by
        unfold parameterSlots
        by_cases hd : d.size = 2
        · rw [if_pos (hsize.mpr hd), if_pos hd, ← hv]; rfl
        · rw [if_neg (mt hsize.mp hd), if_neg hd, ← hv]; rfl
      rw [List.flatMap_cons, ← ih hvs, ← hhead, argumentSlots, List.flatMap_cons, List.map_append]
      rfl

def MethodDefinition.Takes (d : MethodDefinition) (arguments : List Value) : Prop :=
  (argumentSlots arguments).map Value.kind? = entryLocals d.access d.method.signature

theorem takes_of_static {d : MethodDefinition} {vs : List Value} (hs : d.access.isStatic = true)
    (h : vs.map Value.kind? = d.method.signature.params.map Descriptor.kind?) : d.Takes vs := by
  rw [MethodDefinition.Takes, argumentSlots_kinds h, entryLocals, if_pos hs, List.nil_append]

theorem takes_of_special {d : MethodDefinition} {receiver : Value} {vs : List Value}
    (hs : d.access.isStatic = false) (hr : receiver.kind? = some .reference)
    (h : vs.map Value.kind? = d.method.signature.params.map Descriptor.kind?) :
    d.Takes (receiver :: vs) := by
  have hsize : ¬receiver.size = 2 := by rw [Value.size_of_kind? hr]; decide
  have hslots : argumentSlots (receiver :: vs) = receiver :: argumentSlots vs := by
    rw [argumentSlots, List.flatMap_cons, if_neg hsize]; rfl
  rw [MethodDefinition.Takes, hslots, List.map_cons, hr, argumentSlots_kinds h, entryLocals,
    if_neg (by simp [hs])]
  rfl

/-! ## Actions -/

/-- An action is one that the verifier allows for: its stack fits what the verifier has after the
instruction, but for a value that is still to be pushed. -/
inductive Action.Suits (l : Loader) (returns : Descriptor) (limit : Nat) (after : List Kind) :
    Flow → Action → Prop
  | proceed {t : Stack} : t.Fits after → t.limit = limit →
      Suits l returns limit after .next (.proceed t)
  | past {t : Stack} (target : Label) :
      t.Fits after → t.limit = limit → Suits l returns limit after (.branch target) (.proceed t)
  | taken {t : Stack} (target : Label) :
      t.Fits after → t.limit = limit → Suits l returns limit after (.branch target) (.jump t target)
  | jumped {t : Stack} (target : Label) :
      t.Fits after → t.limit = limit → Suits l returns limit after (.jump target) (.jump t target)
  | pushLiteral {t : Stack} {rest : List Kind} (text : String) :
      after = .reference :: rest → t.Fits rest → t.limit = limit →
      Suits l returns limit after .next (.pushLiteral t text)
  | pushInstance {t : Stack} {rest : List Kind} (c : ClassIdentity) :
      after = .reference :: rest → t.Fits rest → t.limit = limit →
      Suits l returns limit after .next (.pushInstance t c)
  | call {t : Stack} {rest : List Kind} {d : MethodDefinition} {vs : List Value} :
      l.Callable d → d.Takes vs → after = d.method.signature.returns.kind?.toList ++ rest →
      t.Fits rest → t.limit = limit → Suits l returns limit after .next (.call t d vs)
  | leave {v : Option Value} : returns.Accepts v → Suits l returns limit after .exit (.leave v)

theorem Machine.branchIf_suits {l : Loader} {returns : Descriptor} {limit : Nat} {after : List Kind}
    {t : Stack} (condition : Bool) (target : Label) (ht : t.Fits after) (hl : t.limit = limit) :
    (Machine.branchIf condition t target).Suits l returns limit after (.branch target) := by
  cases condition with
  | true => exact .taken target ht hl
  | false => exact .past target ht hl

namespace Machine

variable {m : Machine} {a : Activation} {body : Body} {takes puts rest : List Kind} {flow : Flow}

theorem push_suits {t : Stack} {v : Value} {k : Kind} {kinds : List Kind} {returns : Descriptor}
    {limit : Nat} (ht : t.Fits kinds) (hl : t.limit = limit) (hv : v.kind? = some k)
    (hh : slotHeight (k :: kinds) ≤ limit) :
    ∃ action, (do return Action.proceed (← t.push v) : Except Fault Action) = .ok action ∧
      action.Suits m.loader returns limit (k :: kinds) .next := by
  obtain ⟨u, hu, hfits, hlimit, _⟩ := ht.push hv (hl ▸ hh)
  exact ⟨.proceed u, by rw [hu]; rfl, .proceed hfits (hlimit.trans hl)⟩

theorem load_suits {index : UInt16} {c : Constant} {k : Kind} {returns : Descriptor}
    (hc : a.code.constant? index = some c)
    (hk : Body.narrowKind? c = some k ∨ Body.wideKind? c = some k)
    (hclass : ∀ name, c ≠ .classRef name) (hs : a.stack.Fits rest)
    (hh : slotHeight (k :: rest) ≤ a.stack.limit) :
    ∃ action, load a index = .ok action ∧
      action.Suits m.loader returns a.stack.limit (k :: rest) .next := by
  cases c with
  | classRef name => exact absurd rfl (hclass name)
  | method ref => rcases hk with hk | hk <;> cases hk
  | string text =>
    rcases hk with hk | hk <;> cases hk
    exact ⟨.pushLiteral a.stack text, by simp [load, hc], .pushLiteral text rfl hs rfl⟩
  | int | float | long | double =>
    rcases hk with hk | hk <;> cases hk
    simp only [load, hc]
    exact push_suits hs rfl rfl hh

theorem popMany_arguments {s : Stack} {ks : List Kind} {ds : List Descriptor} (pc : Nat)
    (hks : ds.reverse.map Descriptor.kind? = ks.map some) (hs : s.Fits (ks ++ rest)) :
    ∃ vs t, s.popMany pc ds.length [] = .ok (vs, t) ∧ vs.map Value.kind? = ds.map Descriptor.kind? ∧
      t.Fits rest ∧ t.limit = s.limit := by
  obtain ⟨vs, t, hp, hvs, ht, hl, _⟩ := hs.popMany pc []
  have hlen : ks.length = ds.length := by simpa using (congrArg List.length hks).symm
  refine ⟨vs, t, by simpa [hlen] using hp, ?_, ht, hl⟩
  rw [hvs, List.map_reverse, ← hks, List.map_reverse, List.reverse_reverse]

theorem perform_suits {i : Instruction} (hcode : body.code = a.code) (hloader : m.loader.Sound)
    (hlink : ∀ sort index c, i.reference? = some (sort, index) → a.code.constant? index = some c →
      m.loader.Resolves sort c)
    (hclass : ∀ index name, i = .ldc index → a.code.constant? index ≠ some (.classRef name))
    (hlocals : a.locals.map Value.kind? = body.entry)
    (he : body.Effect body.entry i takes puts flow) (hs : a.stack.Fits (takes ++ rest))
    (hh : slotHeight (puts ++ rest) ≤ a.stack.limit) :
    (∃ action, m.perform a i = .ok action ∧
      action.Suits m.loader body.signature.returns a.stack.limit (puts ++ rest) flow) ∨
    ∃ line, m.perform a i = .error (.error (.nullReference a.pc line)) := by
  cases he with
  | nop => exact .inl ⟨_, rfl, .proceed hs rfl⟩
  | aconstNull | iconst | lconst | fconst | dconst | bipush | sipush =>
    exact .inl (push_suits hs rfl rfl hh)
  | @ldc index c k hc hk =>
    rw [hcode] at hc
    exact .inl (load_suits hc (.inl hk) (fun name hn => hclass index name rfl (hn ▸ hc)) hs hh)
  | @ldc2 index c k hc hk =>
    rw [hcode] at hc
    refine .inl (load_suits hc (.inr hk) ?_ hs hh)
    rintro name rfl
    cases hk
  | @load k index hk =>
    rw [← hlocals, Array.getElem?_map] at hk
    obtain ⟨v, hv, hkind⟩ := Option.map_eq_some_iff.mp hk
    simp only [perform, hv]
    exact .inl (push_suits hs rfl hkind hh)
  | pop =>
    obtain ⟨v, t, hp, _, ht, hl, _⟩ := hs.pop a.pc
    exact .inl ⟨.proceed t, by simp only [perform, hp]; rfl, .proceed ht hl⟩
  | @pop2Wide k hk =>
    obtain ⟨v, t, hp, hv, ht, hl, _⟩ := hs.pop a.pc
    have hsize : v.size = 2 := (Value.size_of_kind? hv).trans hk
    exact .inl ⟨.proceed t, by simp only [perform, hp, ok_bind, hsize, if_true]; rfl,
      .proceed ht hl⟩
  | @pop2Narrow k j hk hj =>
    obtain ⟨v, t, hp, hv, ht, hl, _⟩ := hs.pop a.pc
    obtain ⟨w, u, hq, _, hu, hl', _⟩ := ht.pop a.pc
    have hsize : ¬v.size = 2 := by rw [Value.size_of_kind? hv, hk]; decide
    exact .inl ⟨.proceed u, by simp only [perform, hp, ok_bind, hsize, if_false, hq]; rfl,
      .proceed hu (hl'.trans hl)⟩
  | @dup k hk =>
    obtain ⟨v, t, hp, hv, _⟩ := hs.pop a.pc
    simp only [perform, hp, ok_bind]
    exact .inl (push_suits hs rfl hv hh)
  | @dup2Wide k hk =>
    obtain ⟨v, t, hp, hv, ht, hl, _⟩ := hs.pop a.pc
    have hsize : v.size = 2 := (Value.size_of_kind? hv).trans hk
    obtain ⟨u, hu, hfits, hlimit, _⟩ := ht.push hv (by rw [hl]; simp [slotHeight] at hh ⊢; omega)
    simp only [perform, hp, ok_bind, hsize, if_true, hu]
    exact .inl (push_suits hfits (hlimit.trans hl) hv hh)
  | @dup2Narrow k j hk hj =>
    obtain ⟨v, t, hp, hv, ht, hl, _⟩ :=
      Stack.Fits.pop (show a.stack.Fits (k :: j :: rest) from hs) a.pc
    obtain ⟨w, u, hq, hw, hu, hl', _⟩ := ht.pop a.pc
    have hsize : ¬v.size = 2 := by rw [Value.size_of_kind? hv, hk]; decide
    have hroom : slotHeight (k :: j :: k :: j :: rest) ≤ a.stack.limit := hh
    simp only [slotHeight] at hroom
    obtain ⟨s₁, h₁, hf₁, hl₁, _⟩ := hu.push hw (by simp only [slotHeight]; omega)
    obtain ⟨s₂, h₂, hf₂, hl₂, _⟩ := hf₁.push hv (by simp only [slotHeight]; omega)
    obtain ⟨s₃, h₃, hf₃, hl₃, _⟩ := hf₂.push hw (by simp only [slotHeight]; omega)
    simp only [perform, hp, ok_bind, hsize, if_false, hq, h₁, h₂, h₃]
    exact .inl (push_suits hf₃ (by omega) hv hh)
  | convert c =>
    obtain ⟨v, w, t, hp, hv, hw, ht, hl, _⟩ := hs.popAs a.pc (Value.convert c)
      fun v hv => (Value.convert_of_kind? hv).imp fun _ h => h.1
    simp only [perform, hp, ok_bind]
    exact .inl (push_suits ht hl (Value.convert_kind hw) hh)
  | reduce r =>
    obtain ⟨y, y', t, hp, hy, hy', ht, hl, _⟩ := hs.popAs a.pc
      (fun v => if v.kind? = some r.operand then some v else none) fun v hv => ⟨v, by simp [hv]⟩
    obtain rfl : y = y' := by simpa [hy] using hy'
    obtain ⟨x, w, u, hq, hx, hw, hu, hl', _⟩ := ht.popAs a.pc (fun x => Value.reduce r x y)
      fun x hx => (Value.reduce_of_kind? hx hy).imp fun _ h => h.1
    obtain ⟨w', hw', hkind⟩ := Value.reduce_of_kind? hx hy
    obtain rfl : w = w' := Option.some.inj (hw.symm.trans hw')
    simp only [perform, Stack.popKind, hp, ok_bind, hq]
    exact .inl (push_suits hu (hl'.trans hl) hkind hh)
  | ifZero op target =>
    obtain ⟨_, n, t, hp, _, _, ht, hl, _⟩ := hs.popAs a.pc _ fun _ => Value.int?_of_kind?
    exact .inl ⟨_, by simp only [perform, Stack.popInt, hp, ok_bind]; rfl,
      branchIf_suits _ target ht hl⟩
  | ifInt op target =>
    obtain ⟨_, y, t, hp, _, _, ht, hl, _⟩ := hs.popAs a.pc _ fun _ => Value.int?_of_kind?
    obtain ⟨_, x, u, hq, _, _, hu, hl', _⟩ := ht.popAs a.pc _ fun _ => Value.int?_of_kind?
    exact .inl ⟨_, by simp only [perform, Stack.popInt, hp, hq, ok_bind]; rfl,
      branchIf_suits _ target hu (hl'.trans hl)⟩
  | @ifSame op target hop =>
    obtain ⟨y, t, hp, hy, ht, hl, _⟩ := hs.pop a.pc
    obtain ⟨x, u, hq, hx, hu, hl', _⟩ := ht.pop a.pc
    cases op <;> first
      | exact absurd hop (by decide)
      | exact .inl ⟨_, by simp only [perform, hp, hq, ok_bind, hx, hy, if_true]; rfl,
          branchIf_suits _ target hu (hl'.trans hl)⟩
  | ifNull target | ifNonNull target =>
    obtain ⟨_, o, t, hp, _, _, ht, hl, _⟩ := hs.popAs a.pc _ fun _ => Value.reference?_of_kind?
    exact .inl ⟨_, by simp only [perform, Stack.popReference, hp, ok_bind]; rfl,
      branchIf_suits _ target ht hl⟩
  | goto target => exact .inl ⟨_, rfl, .jumped target hs rfl⟩
  | @new index name hc =>
    rw [hcode] at hc
    obtain ⟨c, hfound⟩ := Option.isSome_iff_exists.mp (hlink .new index _ rfl hc)
    exact .inl ⟨.pushInstance a.stack c.identity, by simp only [perform, hc, hfound],
      .pushInstance _ rfl hs rfl⟩
  | @invokeSpecial index ref ks hc hks =>
    rw [hcode] at hc
    have hs' : a.stack.Fits (ks ++ (.reference :: rest)) := by simpa using hs
    obtain ⟨vs, t, hp, hvs, ht, hl⟩ := popMany_arguments a.pc hks hs'
    obtain ⟨receiver, u, hq, hr, hu, hl', _⟩ := ht.pop a.pc
    have href : methodRef a index = .ok ref := by simp only [methodRef, hc]
    simp only [perform, href, ok_bind, hp, hq]
    by_cases hnull : receiver.isNull = true
    · exact .inr ⟨a.code.lineAt? a.pc, by rw [if_pos hnull]; rfl⟩
    · obtain ⟨d, hd, hstatic⟩ := hlink .special index _ rfl hc
      obtain ⟨hcallable, hmethod⟩ := hloader.loadedMethod? hd
      rw [if_neg hnull, specialMethod_eq_ok.mpr hd]
      refine .inl ⟨.call u d (receiver :: vs), rfl,
        .call hcallable ?_ (by rw [hmethod]) hu (hl'.trans hl)⟩
      exact takes_of_special hstatic hr (by rw [hmethod, hvs])
  | @invokeStatic index ref ks hc hks =>
    rw [hcode] at hc
    obtain ⟨vs, t, hp, hvs, ht, hl⟩ := popMany_arguments a.pc hks hs
    have href : methodRef a index = .ok ref := by simp only [methodRef, hc]
    obtain ⟨d, hd, hstatic⟩ := hlink .static index _ rfl hc
    obtain ⟨hcallable, hmethod⟩ := hloader.loadedMethod? hd
    simp only [perform, href, ok_bind, hp, staticMethod_eq_ok.mpr ⟨hd, hstatic⟩]
    refine .inl ⟨.call t d vs, rfl, .call hcallable ?_ (by rw [hmethod]) ht hl⟩
    exact takes_of_static hstatic (by rw [hmethod, hvs])
  | @leave result hr =>
    cases result with
    | none => exact .inl ⟨.leave none, rfl, .leave (by rw [Descriptor.Accepts, hr]; rfl)⟩
    | some k =>
      obtain ⟨v, t, hp, hv, _⟩ := Stack.Fits.pop (show a.stack.Fits (k :: rest) from hs) a.pc
      exact .inl ⟨.leave (some v), by simp only [perform, hp, ok_bind]; rfl,
        .leave (by rw [Descriptor.Accepts, hr, Option.map_some, hv]; rfl)⟩

end Machine

end StackCode
