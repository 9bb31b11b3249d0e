import StackCode.Proofs.Machine.Changes

/-!
# Counters of operand stacks

The counter of a stack is the number of slots of its values, before and after each single pop and
push of a run, and is within the limit of the body. A run overflows exactly if it comes to a push
that the limit has no room for.
-/

namespace StackCode

/-! ## Exact counters -/

/-- The counter is the number of slots of the values, within the limit of the body. -/
structure StackFrame.Exact (f : StackFrame) : Prop where
  slots : f.stack.slots = slotsOf f.stack.values
  limit : f.stack.limit = f.code.maxStack
  slots_le : f.stack.slots ≤ f.code.maxStack

namespace StackFrame.Exact

variable {code : Code} {s t : Stack} {v : Value}

theorem empty (code : Code) : Exact ⟨code, .empty code.maxStack⟩ := ⟨rfl, rfl, Nat.zero_le _⟩

theorem push (h : Exact ⟨code, s⟩) (hp : s.push v = .ok t) : Exact ⟨code, t⟩ := by
  simp only [Stack.push] at hp
  split at hp
  · rename_i hroom
    cases hp
    refine ⟨?_, h.limit, h.limit ▸ hroom⟩
    rw [slotsOf_cons, Nat.add_comm, ← h.slots]
  · cases hp

theorem size_le {f : StackFrame} (h : f.Exact) (hv : v ∈ f.stack.values.head?) :
    v.size ≤ f.stack.slots := by
  obtain ⟨values, hvalues⟩ := List.head?_eq_some_iff.mp hv
  rw [h.slots, hvalues, slotsOf_cons]
  exact Nat.le_add_right _ _

theorem pop {pc : Nat} (h : Exact ⟨code, s⟩) (hp : s.pop pc = .ok (v, t)) : Exact ⟨code, t⟩ := by
  obtain ⟨values, slots, limit⟩ := s
  cases values with
  | nil => cases hp
  | cons w values =>
    cases hp
    refine ⟨?_, h.limit, Nat.le_trans (Nat.sub_le _ _) h.slots_le⟩
    have hslots : slots = slotsOf (v :: values) := h.slots
    simp only [hslots, slotsOf_cons, Nat.add_sub_cancel_left]

theorem push_eq_overflow {slots limit : Nat} (h : Exact ⟨code, s⟩) :
    s.push v = .error (.overflow slots limit) ↔
      slots = slotsOf s.values + v.size ∧ limit = code.maxStack ∧ limit < slots := by
  have hslots : s.slots = slotsOf s.values := h.slots
  have hlimit : s.limit = code.maxStack := h.limit
  simp only [Stack.push, hslots, hlimit]
  split
  · rename_i hroom
    refine ⟨fun h => absurd h ok_ne_error, ?_⟩
    rintro ⟨rfl, rfl, hlt⟩
    exact absurd hroom (Nat.not_le_of_lt hlt)
  · rename_i hroom
    constructor
    · intro hp
      cases hp
      exact ⟨rfl, rfl, Nat.lt_of_not_le hroom⟩
    · rintro ⟨rfl, rfl, -⟩
      rfl

end StackFrame.Exact

/-! ## Sequences of changes -/

namespace StackChange

variable {pc : Nat} {change : StackChange} {changes : List StackChange}
  {frames frames' : List StackFrame}

theorem apply_exact (h : ∀ f ∈ frames, f.Exact) (ha : change.apply pc frames = .ok frames') :
    ∀ f ∈ frames', f.Exact := by
  cases frames with
  | nil =>
    cases change with
    | enter code =>
      cases ha
      exact List.forall_mem_singleton.mpr (.empty code)
    | pop | push | leave =>
      cases ha
      exact h
  | cons f rest =>
    obtain ⟨hf, hrest⟩ := List.forall_mem_cons.mp h
    cases change with
    | enter code =>
      cases ha
      exact List.forall_mem_cons.mpr ⟨.empty code, h⟩
    | leave =>
      cases ha
      exact hrest
    | pop =>
      obtain ⟨_, hp, ha⟩ := bind_eq_ok.mp ha
      cases ha
      exact List.forall_mem_cons.mpr ⟨hf.pop hp, hrest⟩
    | push v =>
      obtain ⟨_, hp, ha⟩ := bind_eq_ok.mp ha
      cases ha
      exact List.forall_mem_cons.mpr ⟨hf.push hp, hrest⟩

theorem applyAll_exact (h : ∀ f ∈ frames, f.Exact) (ha : applyAll pc changes frames = .ok frames') :
    ∀ f ∈ frames', f.Exact := by
  induction changes generalizing frames with
  | nil =>
    cases ha
    exact h
  | cons change changes ih =>
    obtain ⟨between, hchange, ha⟩ := bind_eq_ok.mp ha
    exact ih (apply_exact h hchange) ha

/-- Changes come to a push that the limit of the running body has no room for. -/
def Exceed (pc : Nat) (changes : List StackChange) (frames : List StackFrame)
    (slots limit : Nat) : Prop :=
  ∃ done v rest f below, changes = done ++ push v :: rest ∧
    applyAll pc done frames = .ok (f :: below) ∧ slots = slotsOf f.stack.values + v.size ∧
    limit = f.code.maxStack ∧ limit < slots

theorem applyAll_eq_overflow {slots limit : Nat} (h : ∀ f ∈ frames, f.Exact) :
    applyAll pc changes frames = .error (.overflow slots limit) ↔
      Exceed pc changes frames slots limit := by
  constructor
  · intro ho
    induction changes generalizing frames with
    | nil => cases ho
    | cons change changes ih =>
      rw [applyAll] at ho
      cases hchange : change.apply pc frames with
      | ok between =>
        rw [hchange] at ho
        obtain ⟨done, v, rest, f, below, rfl, hdone, hfacts⟩ := ih (apply_exact h hchange) ho
        refine ⟨change :: done, v, rest, f, below, rfl, ?_, hfacts⟩
        rw [applyAll, hchange]
        exact hdone
      | error fault =>
        rw [hchange] at ho
        cases ho
        obtain ⟨v, f, below, rfl, rfl, hp⟩ := apply_eq_overflow hchange
        obtain ⟨hf, -⟩ := List.forall_mem_cons.mp h
        exact ⟨[], v, changes, f, below, rfl, rfl, (hf.push_eq_overflow (s := f.stack)).mp hp⟩
  · rintro ⟨done, v, rest, f, below, rfl, hdone, hfacts⟩
    obtain ⟨hf, -⟩ := List.forall_mem_cons.mp (applyAll_exact h hdone)
    have hp : f.stack.push v = .error (.overflow slots limit) := hf.push_eq_overflow.mpr hfacts
    rw [applyAll_append, hdone, ok_bind, applyAll, apply, hp]
    rfl

end StackChange

/-! ## Steps and runs -/

def Configuration.Exact (c : Configuration) : Prop := ∀ f ∈ c.frames, f.Exact

def Configuration.Exceeds (c : Configuration) (slots limit : Nat) : Prop :=
  StackChange.Exceed c.active.pc c.changes c.frames slots limit

theorem Configuration.Exact.step {c c' : Configuration} (h : c.Exact) (hc : c.step = .running c') :
    c'.Exact := by
  have htraces := c.step_traces
  rw [hc] at htraces
  exact StackChange.applyAll_exact h htraces.eq_frames

theorem Configuration.Exact.overflows_iff {c : Configuration} (h : c.Exact) {slots limit : Nat} :
    (∃ m, c.step = .stopped m (.overflowed slots limit)) ↔ c.Exceeds slots limit :=
  c.step_traces.overflowed_iff.trans (StackChange.applyAll_eq_overflow h)

theorem Machine.start_exact (m : Machine) (code : Code) (method : Option Method)
    (locals : List Value) : Configuration.Exact ⟨m, .start code method locals, []⟩ :=
  List.forall_mem_singleton.mpr (.empty code)

def Progress.Exact : Progress → Prop
  | .running c => c.Exact
  | .stopped _ _ => True

theorem Progress.Exact.after {p : Progress} (h : p.Exact) (n : Nat) : (p.after n).Exact := by
  refine after_induction (fun c hc => ?_) h n
  cases hstep : c.step with
  | running c' => exact Configuration.Exact.step hc hstep
  | stopped m outcome => trivial

namespace Machine

variable (m : Machine) (task : Task)

theorem begin_exact : (m.begin task).Exact := by
  rcases m.begin_cases task with ⟨m', outcome, hstopped, -⟩ | ⟨m', code, method, locals, hstarted⟩
  · rw [hstopped]
    trivial
  · rw [hstarted]
    exact m'.start_exact code method locals

theorem exact_of_after {m : Machine} {task : Task} {n : Nat} {c : Configuration}
    (hc : (m.begin task).after n = .running c) : c.Exact := by
  have h := (m.begin_exact task).after n
  rwa [hc] at h

theorem overflows_iff {slots limit : Nat} :
    (∃ fuel m', (m.begin task).run fuel = some (m', .overflowed slots limit)) ↔
      ∃ n c, (m.begin task).after n = .running c ∧ c.Exceeds slots limit := by
  have hlast (n : Nat) (c : Configuration) (hc : (m.begin task).after n = .running c) :
      (∃ m', c.step = .stopped m' (.overflowed slots limit)) ↔ c.Exceeds slots limit :=
    (exact_of_after hc).overflows_iff
  rcases m.begin_cases task with ⟨m', outcome, hp, hanswer⟩ | ⟨m', code, method, locals, hp⟩
  · -- a task that is answered at once neither overflows nor makes a step
    rw [hp]
    constructor
    · rintro ⟨fuel, m'', hrun⟩
      rw [Progress.run_eq_some, Progress.after_stopped] at hrun
      cases hrun
      cases hanswer
    · rintro ⟨n, c, hc, -⟩
      rw [Progress.after_stopped] at hc
      cases hc
  · rw [hp] at hlast ⊢
    constructor
    · rintro ⟨fuel, m'', hrun⟩
      obtain ⟨n, c, hc, hstep⟩ := Progress.stops_iff.mp ⟨fuel, hrun⟩
      exact ⟨n, c, hc, (hlast n c hc).mp ⟨m'', hstep⟩⟩
    · rintro ⟨n, c, hc, hexceeds⟩
      obtain ⟨m'', hstep⟩ := (hlast n c hc).mpr hexceeds
      obtain ⟨fuel, hrun⟩ := Progress.stops_iff.mpr ⟨n, c, hc, hstep⟩
      exact ⟨fuel, m'', hrun⟩

/-- **Counters are exact, and an overflow is the one way to break off.** Whatever a machine runs,
verified or not, with whatever classes, locals and arguments: between the pops and pushes of each
step, the counter of each stack is the number of slots of its values, within the limit of its body,
and covers the value on top, so that no pop takes it below zero. A step that goes on leaves the
stacks that its pops and pushes lead to. The run overflows exactly if it comes to a push after which
the values on the stack of the body that then runs have more slots than the limit of this body. -/
theorem slots_exact :
    (∀ (n : Nat) (c : Configuration), (m.begin task).after n = .running c →
      (∀ (done : List StackChange) (frames : List StackFrame), done <+: c.changes →
        StackChange.applyAll c.active.pc done c.frames = .ok frames →
        ∀ f ∈ frames, f.stack.slots = slotsOf f.stack.values ∧ f.stack.slots ≤ f.code.maxStack ∧
          ∀ v ∈ f.stack.values.head?, v.size ≤ f.stack.slots) ∧
      ∀ c', c.step = .running c' →
        StackChange.applyAll c.active.pc c.changes c.frames = .ok c'.frames) ∧
    ∀ slots limit : Nat,
      (∃ fuel m', (m.begin task).run fuel = some (m', .overflowed slots limit)) ↔
        ∃ n c, (m.begin task).after n = .running c ∧
          ∃ done v rest f below, c.changes = done ++ .push v :: rest ∧
            StackChange.applyAll c.active.pc done c.frames = .ok (f :: below) ∧
            slots = slotsOf f.stack.values + v.size ∧ limit = f.code.maxStack ∧ limit < slots := by
  refine ⟨fun n c hc => ⟨fun done frames _ hdone f hf => ?_, fun c' hstep => ?_⟩,
    fun slots limit => m.overflows_iff task⟩
  · have hexact : f.Exact := StackChange.applyAll_exact (exact_of_after hc) hdone f hf
    exact ⟨hexact.slots, hexact.slots_le, fun v hv => hexact.size_le hv⟩
  · have htraces := c.step_traces
    rw [hstep] at htraces
    exact htraces.eq_frames

def twiceRef : MethodRef := ⟨"A", ⟨"twice", .mk ⟨[.long], .long⟩⟩⟩

def twiceClass : ClassDefinition where
  access := .publicFlag
  name := "A"
  superName := some Descriptor.rootClassName
  methods := [⟨.staticFlag, twiceRef.method,
    .code ⟨#[.load .long 0, .dup2, .leave (some .long)], #[], #[], [], [], 3, 2⟩⟩]

def twiceMachine : Machine :=
  .initial ((Loader.initial 0 { verify := false }).defineAll [twiceClass]) {} 0

def twiceTask : Task :=
  .execute ⟨#[.lconst 1, .invokeStatic 0, .leave (some .long)], #[.method twiceRef], #[], [], [],
    2, 0⟩ []

/-- The method has taken the value off and put it back once; the second time there is no room. -/
theorem slots_exact_twice :
    ∃ c c' frames, (twiceMachine.begin twiceTask).after 2 = .running c ∧ c.step = .running c' ∧
      StackChange.applyAll c.active.pc c.changes c.frames = .ok c'.frames ∧
      (twiceMachine.begin twiceTask).after 3 = .running c' ∧
      c'.changes = [.pop, .push (.long 1), .push (.long 1)] ∧
      StackChange.applyAll c'.active.pc [.pop, .push (.long 1)] c'.frames = .ok frames ∧
      frames.map (fun f => (f.stack.values, f.stack.slots)) = [([.long 1], 2), ([], 0)] ∧
      (∀ f ∈ frames, f.stack.slots = slotsOf f.stack.values ∧ f.stack.slots ≤ f.code.maxStack ∧
        ∀ v ∈ f.stack.values.head?, v.size ≤ f.stack.slots) ∧
      (∃ fuel m', (twiceMachine.begin twiceTask).run fuel = some (m', .overflowed 4 3)) ∧
      ∃ n c, (twiceMachine.begin twiceTask).after n = .running c ∧
        ∃ done v rest f below, c.changes = done ++ .push v :: rest ∧
          StackChange.applyAll c.active.pc done c.frames = .ok (f :: below) ∧
          4 = slotsOf f.stack.values + v.size ∧ 3 = f.code.maxStack ∧ 3 < 4 := by
  obtain ⟨hsteps, hoverflows⟩ := slots_exact twiceMachine twiceTask
  have hrun : ∃ fuel m', (twiceMachine.begin twiceTask).run fuel = some (m', .overflowed 4 3) :=
    ⟨4, _, rfl⟩
  refine ⟨_, _, _, rfl, rfl, (hsteps 2 _ rfl).2 _ rfl, rfl, rfl, rfl, rfl, ?_, hrun,
    (hoverflows 4 3).mp hrun⟩
  exact (hsteps 3 _ rfl).1 [.pop, .push (.long 1)] _ ⟨[.push (.long 1)], rfl⟩ rfl

end Machine

end StackCode
