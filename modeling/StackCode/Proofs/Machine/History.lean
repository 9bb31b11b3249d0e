import StackCode.Proofs.Machine.Invariant
import StackCode.Proofs.Machine.Lockstep

/-!
# What a machine ran before

Calls that were answered, with a result or with an error, leave a machine without active calls and
with literals that are numbered apart. So its next call runs side by side with the same call on a new
machine.
-/

namespace StackCode

namespace Machine

/-- What a machine can be asked from outside. -/
inductive Task where
  | execute (code : Code) (locals : List Value)
  | invokeStatic (ref : MethodRef) (arguments : List Value)
  | newInstance (className : String)

def begin (m : Machine) : Task → Progress
  | .execute code locals => m.execute code locals
  | .invokeStatic ref arguments => m.invokeStatic ref arguments
  | .newInstance className =>
    match m.newInstance className with
    | .ok (_, p) => p
    | .error e => .stopped m (.failed e)

end Machine

/-- The outcomes that leave the machine in use. -/
def Outcome.isAnswer : Outcome → Bool
  | overflowed _ _ => false
  | _ => true

namespace Machine

theorem call_cases (m : Machine) (d : MethodDefinition) (vs : List Value) :
    (∃ m' outcome, m.call d vs = .stopped m' outcome ∧ outcome.isAnswer = true) ∨
      ∃ m' code method locals, m.call d vs = .running ⟨m', .start code method locals, []⟩ := by
  unfold call
  cases hentered : m.enter d vs with
  | error e => exact .inl ⟨m, .failed e, rfl, rfl⟩
  | ok entered =>
    cases entered with
    | finished v => exact .inl ⟨m, .completed (.returned v), rfl, rfl⟩
    | started a =>
      obtain ⟨-, code, -, rfl⟩ := start_of_enter hentered
      exact .inr ⟨_, code, _, _, rfl⟩

theorem begin_cases (m : Machine) (task : Task) :
    (∃ m' outcome, m.begin task = .stopped m' outcome ∧ outcome.isAnswer = true) ∨
      ∃ m' code method locals, m.begin task = .running ⟨m', .start code method locals, []⟩ := by
  cases task with
  | execute code locals => exact .inr ⟨m, code, none, locals, rfl⟩
  | invokeStatic ref arguments =>
    simp only [begin, invokeStatic]
    cases m.staticMethod ref with
    | error e => exact .inl ⟨m, .failed e, rfl, rfl⟩
    | ok d => exact m.call_cases d arguments
  | newInstance className =>
    simp only [begin, newInstance]
    cases m.loader.class? className with
    | none => exact .inl ⟨m, _, rfl, rfl⟩
    | some c =>
      simp only
      cases c.declaredMethod? .nullaryInit with
      | none => exact .inl ⟨m, _, rfl, rfl⟩
      | some d => exact call_cases _ d _

/-- What a machine becomes by answering one task after the other. -/
inductive History (start : Machine) : Machine → Prop
  | fresh : History start start
  | answered {m m' : Machine} {outcome : Outcome} (task : Task) (fuel : Nat) : History start m →
    (m.begin task).run fuel = some (m', outcome) → outcome.isAnswer = true → History start m'

structure Serves (l : Loader) (options : ExecutionOptions) (m : Machine) (calls : Nat) : Prop where
  loader : m.loader = l
  options : m.options = options
  numbered : m.Numbered
  depth : m.depth = calls

variable {l : Loader} {options : ExecutionOptions} {m : Machine}

theorem serves_initial (l : Loader) (options : ExecutionOptions) (supply : Nat) :
    (initial l options supply).Serves l options 0 :=
  ⟨rfl, rfl, numbered_initial l options supply, rfl⟩

theorem serves_invariant (l : Loader) (options : ExecutionOptions) :
    Invariant (Serves l options) where
  enter := fun _ _ h _ => ⟨h.loader, h.options, h.numbered.withDepth _, congrArg (· + 1) h.depth⟩
  leave := fun m calls left h =>
    ⟨h.loader, h.options, h.numbered.withDepth _, by simp [h.depth]⟩
  allocate := fun _ _ content h => ⟨h.loader, h.options, h.numbered.allocate content, h.depth⟩
  literal := fun m _ text h =>
    ⟨(m.literal_loader text).trans h.loader, (m.literal_options text).trans h.options,
      h.numbered.literal text, (m.literal_depth text).trans h.depth⟩

theorem Invariant.begin {P : Machine → Nat → Prop} (hP : Invariant P) (h : P m 0) (task : Task) :
    (m.begin task).Keeps P := by
  cases task with
  | execute code locals => exact h
  | invokeStatic ref arguments =>
    simp only [Machine.begin, Machine.invokeStatic]
    cases m.staticMethod ref with
    | error e => exact h
    | ok d => exact hP.call h d arguments
  | newInstance className =>
    simp only [Machine.begin, Machine.newInstance]
    cases m.loader.class? className with
    | none => exact h
    | some c =>
      simp only
      cases c.declaredMethod? .nullaryInit with
      | none => exact h
      | some d => exact hP.call (hP.allocate m 0 _ h) d _

theorem History.serves {start : Machine} (h : start.History m) (hs : start.Serves l options 0) :
    m.Serves l options 0 := by
  induction h with
  | fresh => exact hs
  | @answered m m' outcome task fuel _ hrun hanswer ih =>
    have hkept := (serves_invariant l options).run ((serves_invariant l options).begin ih task) hrun
    -- only an overflow leaves calls active
    cases outcome with
    | completed | failed => exact hkept
    | overflowed => cases hanswer

theorem Serves.renames (h : m.Serves l options 0) (hl : l.Ordinary) (supply : Nat) :
    m.Renames (fun _ _ => False) (initial l options supply) where
  loader := h.loader.symm
  options := h.options.symm
  depth := h.depth.symm
  ordinary := h.loader.symm ▸ hl
  forth := ⟨h.numbered, nofun, nofun, fun _ _ _ _ => ⟨nofun, nofun⟩⟩
  back := ⟨numbered_initial l options supply, nofun, nofun, nofun⟩

/-- **Answers do not depend on history.** After any calls that were answered, on classes without
bodies of the host, no call is active, and a static call whose arguments are no objects does as on a
new machine: it never ends on both, or it ends on both with the same answer, but for the identity of
objects. -/
theorem invokeStatic_of_history (number : Nat) (loaderOptions : LoaderOptions)
    (definitions : List ClassDefinition) (hcoded : ∀ d ∈ definitions, d.Coded)
    (options : ExecutionOptions) (supply : Nat) (m : Machine)
    (hm : (initial ((Loader.initial number loaderOptions).defineAll definitions) options
      supply).History m) :
    m.depth = 0 ∧ ∀ (supply' : Nat) (ref : MethodRef) (arguments : List Value),
      (∀ v ∈ arguments, v.isPlain = true) → ∀ fuel,
        Option.Rel Outcome.Alike (((m.invokeStatic ref arguments).run fuel).map Prod.snd)
          ((((initial ((Loader.initial number loaderOptions).defineAll definitions) options
            supply').invokeStatic ref arguments).run fuel).map Prod.snd) := by
  have hserves := hm.serves (serves_initial _ options supply)
  refine ⟨hserves.depth, fun supply' ref arguments hplain fuel => ?_⟩
  have hordinary := Loader.ordinary_defineAll number loaderOptions hcoded
  -- no object is shared at the start, so nothing is renamed
  have harguments : List.Forall₂ (Value.Renames fun _ _ => False) arguments arguments :=
    List.forall₂_same.mpr fun v hv => .plain (hplain v hv)
  exact ((hserves.renames hordinary supply').invokeStatic ref harguments).run fuel

def greetRef : MethodRef := ⟨"A", ⟨"greet", .mk ⟨[.int], .string⟩⟩⟩

def spinRef : MethodRef := ⟨"A", ⟨"spin", .nullaryVoid⟩⟩

def greetCode : Code := ⟨#[.ldc 0, .leave (some .reference)], #[.string "hi"], #[], [], [], 1, 1⟩

def greeterClass : ClassDefinition where
  access := .publicFlag
  name := "A"
  superName := some Descriptor.rootClassName
  methods := [⟨.staticFlag, greetRef.method, .code greetCode⟩,
    ⟨.staticFlag, spinRef.method,
      .code ⟨#[.invokeStatic 0, .leave none], #[.method spinRef], #[], [], [], 0, 0⟩⟩]

def greeter (supply : Nat) : Machine :=
  .initial ((Loader.initial 0 {}).defineAll [greeterClass]) { maxDepth := 2 } supply

theorem greeterClass_coded : greeterClass.Coded := by
  intro m hm
  simp only [greeterClass, List.mem_cons, List.not_mem_nil, or_false] at hm
  rcases hm with rfl | rfl
  · exact ⟨_, rfl⟩
  · exact ⟨_, rfl⟩

def greeted : Machine := { greeter 0 with supply := 1, literals := [("hi", 0)] }

theorem history_greeted : (greeter 0).History greeted := by
  have hgreet : ((greeter 0).execute greetCode []).run 2 =
      some (greeted, .completed (.returned (some (.object ⟨0, .text "hi"⟩)))) := rfl
  have hspin : (greeted.invokeStatic spinRef []).run 2 =
      some (greeted, .failed (.callDepthExceeded 2)) := by cbv
  exact .answered (.invokeStatic spinRef []) 2 (.answered (.execute greetCode []) 2 .fresh hgreet rfl)
    hspin rfl

theorem invokeStatic_of_history_greeted : (∀ d ∈ [greeterClass], d.Coded) ∧
    (greeter 0).History greeted ∧ greeted.depth = 0 ∧ (∀ v ∈ [Value.int 3], v.isPlain = true) ∧
    ((greeted.invokeStatic greetRef [.int 3]).run 2).map Prod.snd =
      some (.completed (.returned (some (.object ⟨0, .text "hi"⟩)))) ∧
    (((greeter 7).invokeStatic greetRef [.int 3]).run 2).map Prod.snd =
      some (.completed (.returned (some (.object ⟨7, .text "hi"⟩)))) ∧
    Option.Rel Outcome.Alike (((greeted.invokeStatic greetRef [.int 3]).run 2).map Prod.snd)
      ((((greeter 7).invokeStatic greetRef [.int 3]).run 2).map Prod.snd) := by
  have hcoded : ∀ d ∈ [greeterClass], d.Coded := by simpa using greeterClass_coded
  have hplain : ∀ v ∈ [Value.int 3], v.isPlain = true := by decide
  obtain ⟨hdepth, halike⟩ := invokeStatic_of_history 0 {} [greeterClass] hcoded { maxDepth := 2 } 0
    greeted history_greeted
  exact ⟨hcoded, history_greeted, hdepth, hplain, by decide +kernel, by decide +kernel,
    halike 7 greetRef [.int 3] hplain 2⟩

end Machine

end StackCode
