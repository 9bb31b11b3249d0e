import StackCode.Proofs.Machine.Frame
import StackCode.Proofs.Machine.Numbering

/-!
# Runs side by side

Machines alike but for the numbers of their objects take the same steps on activations that are
renamed alike. So a run ends on both or on neither, after as many steps and in the same way.
-/

namespace StackCode

variable {r r' : Nat → Nat → Prop}

/-! ## What runs end with -/

inductive Completion.Renames (r : Nat → Nat → Prop) : Completion → Completion → Prop
  | returned {v w : Option Value} : Option.Rel (Value.Renames r) v w →
    Renames r (.returned v) (.returned w)
  | fellThrough {vs ws : List Value} : List.Forall₂ (Value.Renames r) vs ws →
    Renames r (.fellThrough vs) (.fellThrough ws)

inductive Outcome.Renames (r : Nat → Nat → Prop) : Outcome → Outcome → Prop
  | completed {x y : Completion} : x.Renames r y → Renames r (.completed x) (.completed y)
  | failed (e : ExecutionError) : Renames r (.failed e) (.failed e)
  | overflowed (slots limit : Nat) : Renames r (.overflowed slots limit) (.overflowed slots limit)

/-- The same answer but for the identity of objects. -/
def Outcome.Alike : Outcome → Outcome → Prop := Outcome.Renames fun _ _ => True

theorem rel_mono {v w : Option Value} (h : Option.Rel (Value.Renames r) v w)
    (hr : ∀ a b, r a b → r' a b) : Option.Rel (Value.Renames r') v w := by
  cases h with
  | none => exact .none
  | some hv => exact .some (hv.mono hr)

theorem Completion.Renames.mono {x y : Completion} (h : x.Renames r y)
    (hr : ∀ a b, r a b → r' a b) : x.Renames r' y := by
  cases h with
  | returned hv => exact .returned (rel_mono hv hr)
  | fellThrough hvs => exact .fellThrough (hvs.imp fun _ _ hv => hv.mono hr)

theorem Completion.Renames.value? {x y : Completion} (h : x.Renames r y) :
    Option.Rel (Value.Renames r) x.value? y.value? := by
  cases h with
  | returned hv => exact hv
  | fellThrough hvs =>
    simp only [Completion.value?, List.getLast?_eq_getElem?, hvs.length_eq]
    exact rel_getElem? hvs _

/-! ## Calls -/

inductive Entered.Renames (r : Nat → Nat → Prop) : Entered → Entered → Prop
  | finished {v w : Option Value} : Option.Rel (Value.Renames r) v w →
    Renames r (.finished v) (.finished w)
  | started {a b : Activation} : a.Renames r b → Renames r (.started a) (.started b)

theorem Activation.Renames.mono {a b : Activation} (h : a.Renames r b)
    (hr : ∀ x y, r x y → r' x y) : a.Renames r' b :=
  ⟨h.code, h.method, h.pc, h.locals.imp fun _ _ hv => hv.mono hr, h.stack.mono hr⟩

theorem argumentSlots_renames {vs ws : List Value} (h : List.Forall₂ (Value.Renames r) vs ws) :
    List.Forall₂ (Value.Renames r) (argumentSlots vs) (argumentSlots ws) := by
  refine List.rel_flatMap h fun v w hv => ?_
  simp only [hv.size]
  split
  · exact .cons hv (.cons (.plain rfl) .nil)
  · exact .cons hv .nil

theorem start_renames (code : Code) (method : Option Method) {vs ws : List Value}
    (h : List.Forall₂ (Value.Renames r) vs ws) :
    (Activation.start code method vs).Renames r (.start code method ws) :=
  ⟨rfl, rfl, rfl, h, Stack.renames_empty code.maxStack⟩

theorem Machine.Renames.enter {m m' : Machine} (h : m.Renames r m') {d : MethodDefinition}
    (hd : d.Ordinary) {vs ws : List Value} (hvs : List.Forall₂ (Value.Renames r) vs ws) :
    Agrees (Entered.Renames r) (m.enter d vs) (m'.enter d ws) := by
  simp only [Machine.enter, h.options, h.depth]
  split
  · exact .error _
  · cases hb : d.body with
    | native run =>
      simp only [hd run hb]
      exact .ok (.finished .none)
    | code code => exact .ok (.started (start_renames code _ (argumentSlots_renames hvs)))

/-! ## Steps -/

namespace Machine

variable {m m' : Machine}

theorem staticMethod_congr (h : m'.loader = m.loader) (ref : MethodRef) :
    m'.staticMethod ref = m.staticMethod ref := by
  simp only [staticMethod, h]

theorem perform_congr (h : m'.loader = m.loader) (a : Activation) (i : Instruction) :
    m'.perform a i = m.perform a i := by
  cases i with
  | new => simp only [perform, h]
  | invokeSpecial => simp only [perform, specialMethod, h]
  | invokeStatic => simp only [perform, staticMethod, h]
  | leave kind => cases kind <;> rfl
  | _ => rfl

end Machine

theorem callCount_congr {a b : Activation} (h : b.method = a.method) :
    callCount [b] = callCount [a] := by
  simp only [callCount, List.countP_cons, h]

structure Configuration.Renames (r : Nat → Nat → Prop) (c c' : Configuration) : Prop where
  machine : c.machine.Renames r c'.machine
  active : c.active.Renames r c'.active
  callers : List.Forall₂ (Activation.Renames r) c.callers c'.callers

/-- Two runs go on alike, or both ended with the same answer. -/
inductive Progress.Alike : Progress → Progress → Prop
  | running {r : Nat → Nat → Prop} {c c' : Configuration} : c.Renames r c' →
    Alike (.running c) (.running c')
  | stopped {x y : Outcome} (m m' : Machine) : x.Alike y → Alike (.stopped m x) (.stopped m' y)

namespace Configuration

variable {c c' : Configuration} {s t : Stack}

theorem Renames.withMachine {m m' : Machine} (h : c.Renames r c') (hm : m.Renames r' m')
    (hr : ∀ a b, r a b → r' a b) :
    ({ c with machine := m } : Configuration).Renames r' { c' with machine := m' } :=
  ⟨hm, h.active.mono hr, h.callers.imp fun _ _ ha => ha.mono hr⟩

theorem stop_alike (c c' : Configuration) (f : Fault) : (c.stop f).Alike (c'.stop f) := by
  cases f with
  | error e => exact .stopped _ _ (.failed e)
  | overflow slots limit => exact .stopped _ _ (.overflowed slots limit)

theorem Renames.goTo (h : c.Renames r c') (hs : s.Renames r t) (pc : Nat) :
    (c.goTo pc s).Alike (c'.goTo pc t) :=
  .running ⟨h.machine, ⟨h.active.code, h.active.method, rfl, h.active.locals, hs⟩, h.callers⟩

theorem Renames.resume (h : c.Renames r c') (hs : s.Renames r t) {v w : Option Value}
    (hv : Option.Rel (Value.Renames r) v w) : (c.resume s v).Alike (c'.resume t w) := by
  cases hv with
  | none =>
    simp only [Configuration.resume, h.active.pc]
    exact h.goTo hs _
  | some hvw =>
    simp only [Configuration.resume, h.active.pc]
    obtain ⟨s', t', hx, hy, hst⟩ | ⟨f, hx, hy⟩ := (hs.push hvw).ok_or_error
    · rw [hx, hy]
      exact h.goTo hst _
    · rw [hx, hy]
      exact stop_alike c c' f

theorem Renames.finish (h : c.Renames r c') {x y : Completion} (hxy : x.Renames r y) :
    (c.finish x).Alike (c'.finish y) := by
  obtain ⟨m, active, callers⟩ := c
  obtain ⟨m', active', callers'⟩ := c'
  obtain ⟨hmachine, hactive, hcallers⟩ := h
  have hmethod : active'.method = active.method := hactive.method
  have hdepth : m'.depth - callCount [active'] = m.depth - callCount [active] := by
    rw [show m'.depth = m.depth from hmachine.depth, callCount_congr hmethod]
  cases hcallers with
  | nil => exact .stopped _ _ (.completed (hxy.mono fun _ _ _ => trivial))
  | @cons a a' rest rest' ha hrest =>
    exact Renames.resume ⟨hmachine.withDepth hdepth, ha, hrest⟩ ha.stack hxy.value?

theorem Renames.act (h : c.Renames r c') {action action' : Action} (ha : action.Renames r action') :
    (c.act action).Alike (c'.act action') := by
  cases ha with
  | proceed hs =>
    simp only [Configuration.act, h.active.pc]
    exact h.goTo hs _
  | pushLiteral text hs =>
    -- the literal may be new to one of the machines only
    have hobject := Value.renames_object
      (by rw [Machine.literal_content, Machine.literal_content]) (Machine.joined_self r
        (c.machine.literal text).1.number (c'.machine.literal text).1.number)
    exact (h.withMachine (h.machine.literal text) fun _ _ => .inl).resume
      (hs.mono fun _ _ => .inl) (.some hobject)
  | pushInstance ofClass hs =>
    exact (h.withMachine (h.machine.allocate (.instance ofClass)) fun _ _ => .inl).resume
      (hs.mono fun _ _ => .inl) (.some (.object _ (Machine.joined_self r _ _)))
  | jump target hs =>
    simp only [Configuration.act, h.active.code, h.active.pc]
    cases c.active.code.position? target with
    | some pc => exact h.goTo hs pc
    | none => exact stop_alike c c' _
  | @call s t vs ws d hs hd hvs =>
    simp only [Configuration.act]
    obtain ⟨x, y, hx, hy, hxy⟩ | ⟨e, hx, hy⟩ := (h.machine.enter hd hvs).ok_or_error
    · rw [hx, hy]
      cases hxy with
      | finished hv => exact h.resume hs hv
      | started hab =>
        have hcaller : ({ c.active with stack := s } : Activation).Renames r
            { c'.active with stack := t } :=
          ⟨h.active.code, h.active.method, h.active.pc, h.active.locals, hs⟩
        exact .running ⟨h.machine.withDepth (by rw [h.machine.depth]), hab, .cons hcaller h.callers⟩
    · rw [hx, hy]
      exact stop_alike c c' _
  | leave hv => exact h.finish (.returned hv)

theorem Renames.step (h : c.Renames r c') : c.step.Alike c'.step := by
  simp only [Configuration.step, h.active.code, h.active.pc]
  cases c.active.code.instructions[c.active.pc]? with
  | some i =>
    simp only [Machine.perform_congr h.machine.loader]
    obtain ⟨x, y, hx, hy, hxy⟩ | ⟨f, hx, hy⟩ :=
      (Machine.perform_renames h.machine.paired h.machine.ordinary h.active i).ok_or_error
    · rw [hx, hy]
      exact h.act hxy
    · rw [hx, hy]
      exact stop_alike c c' f
  | none =>
    -- past the last instruction, a method that was called fails and a body run directly ends
    simp only [h.active.method]
    cases c.active.method with
    | some m => exact stop_alike c c' _
    | none => exact h.finish (.fellThrough (List.rel_reverse h.active.stack.values))

end Configuration

/-- **Runs that begin alike end alike**, or not at all. -/
theorem Progress.Alike.run {p q : Progress} (h : p.Alike q) (n : Nat) :
    Option.Rel Outcome.Alike ((p.run n).map Prod.snd) ((q.run n).map Prod.snd) := by
  induction n generalizing p q with
  | zero =>
    cases h with
    | running => exact .none
    | stopped m m' hxy => exact .some hxy
  | succ n ih =>
    cases h with
    | running hc => exact ih hc.step
    | stopped m m' hxy => exact .some hxy

namespace Machine.Renames

variable {m m' : Machine} {vs ws : List Value}

theorem call (h : m.Renames r m') {d : MethodDefinition} (hd : d.Ordinary)
    (hvs : List.Forall₂ (Value.Renames r) vs ws) : (m.call d vs).Alike (m'.call d ws) := by
  simp only [Machine.call]
  obtain ⟨x, y, hx, hy, hxy⟩ | ⟨e, hx, hy⟩ := (h.enter hd hvs).ok_or_error
  · rw [hx, hy]
    cases hxy with
    | finished hv => exact .stopped m m' (.completed (.returned (rel_mono hv fun _ _ _ => trivial)))
    | started hab => exact .running ⟨h.withDepth (by rw [h.depth]), hab, .nil⟩
  · rw [hx, hy]
    exact .stopped m m' (.failed e)

theorem invokeStatic (h : m.Renames r m') (ref : MethodRef)
    (hvs : List.Forall₂ (Value.Renames r) vs ws) :
    (m.invokeStatic ref vs).Alike (m'.invokeStatic ref ws) := by
  simp only [Machine.invokeStatic, staticMethod_congr h.loader]
  cases hd : m.staticMethod ref with
  | error e => exact .stopped m m' (.failed e)
  | ok d => exact h.call (ordinary_of_loaded h.ordinary (staticMethod_eq_ok.mp hd).1) hvs

end Machine.Renames

end StackCode
