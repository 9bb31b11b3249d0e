import StackCode.Proofs.Machine.History

/-!
# Limits on the depth of calls

All that a limit decides is whether a call is let in. Up to the first call that one limit lets in and
another does not, runs under both are the same step for step. So a run in which every call was let in
is the same under each limit that is at least the number of calls that were ever active at once, and
ends at the first call too many under each other one.
-/

namespace StackCode

/-! ## Active calls -/

namespace Configuration

variable (c : Configuration)

def call? : Option (Stack × MethodDefinition × List Value) :=
  match c.active.code.instructions[c.active.pc]? with
  | none => none
  | some i =>
    match c.machine.perform c.active i with
    | .ok (.call t d vs) => some (t, d, vs)
    | _ => none

/-- The calls active at the height of a step, with the one that it lets in. A method of the host is
over with the step, and active in between. -/
def calls : Nat :=
  callCount (c.active :: c.callers) +
    if c.call?.isSome ∧ c.machine.depth < c.machine.options.maxDepth then 1 else 0

end Configuration

/-- The most calls that are active at once within some steps. -/
def Progress.peak : Nat → Progress → Nat
  | _, .stopped _ _ => 0
  | 0, .running c => callCount (c.active :: c.callers)
  | n + 1, .running c => max c.calls (c.step.peak n)

@[simp] theorem Progress.peak_stopped (m : Machine) (outcome : Outcome) (n : Nat) :
    (stopped m outcome).peak n = 0 := by
  cases n <;> rfl

theorem Progress.callCount_le_peak (c : Configuration) (n : Nat) :
    callCount (c.active :: c.callers) ≤ (running c).peak n := by
  cases n with
  | zero => exact Nat.le_refl _
  | succ n => exact Nat.le_trans (Nat.le_add_right _ _) (Nat.le_max_left _ _)

/-! ## The counter of a machine -/

/-- The counter of a machine is the number of active calls, and these are within the limit. -/
structure Machine.Balanced (limit : Nat) (m : Machine) (calls : Nat) : Prop where
  maxDepth : m.options.maxDepth = limit
  depth : m.depth = calls
  calls_le : calls ≤ limit

theorem Machine.balanced_invariant (limit : Nat) : Invariant (Balanced limit) where
  enter := by
    intro m calls h hdepth
    refine ⟨h.maxDepth, congrArg (· + 1) h.depth, ?_⟩
    rwa [h.maxDepth, h.depth] at hdepth
  leave := by
    intro m calls left h
    refine ⟨h.maxDepth, ?_, Nat.le_trans (Nat.le_add_right _ _) h.calls_le⟩
    simp [h.depth]
  allocate := fun _ _ _ h => ⟨h.maxDepth, h.depth, h.calls_le⟩
  literal := by
    intro m calls text h
    exact ⟨(congrArg _ (m.literal_options text)).trans h.maxDepth,
      (m.literal_depth text).trans h.depth, h.calls_le⟩

theorem Configuration.calls_le {c : Configuration} {limit : Nat}
    (h : c.Keeps (Machine.Balanced limit)) : c.calls ≤ limit := by
  unfold calls
  split
  · rename_i hcall
    have hdepth := hcall.2
    rwa [h.maxDepth, h.depth] at hdepth
  · exact h.calls_le

theorem Progress.peak_le {p : Progress} {limit : Nat} (h : p.Keeps (Machine.Balanced limit))
    (n : Nat) : p.peak n ≤ limit := by
  induction n generalizing p with
  | zero =>
    cases p with
    | running c => exact h.calls_le
    | stopped m outcome => exact Nat.zero_le _
  | succ n ih =>
    cases p with
    | running c =>
      exact Nat.max_le.mpr ⟨Configuration.calls_le h, ih ((Machine.balanced_invariant limit).step h)⟩
    | stopped m outcome => exact Nat.zero_le _

/-! ## Under another limit -/

def Machine.withLimit (m : Machine) (n : Nat) : Machine :=
  { m with options := { m.options with maxDepth := n } }

def Configuration.withLimit (c : Configuration) (n : Nat) : Configuration :=
  { c with machine := c.machine.withLimit n }

def Progress.withLimit (n : Nat) : Progress → Progress
  | .running c => .running (c.withLimit n)
  | .stopped m outcome => .stopped (m.withLimit n) outcome

theorem Machine.literal_withLimit (m : Machine) (n : Nat) (text : String) :
    (m.withLimit n).literal text = ((m.literal text).1, (m.literal text).2.withLimit n) := by
  have hliterals : (m.withLimit n).literals = m.literals := rfl
  unfold literal
  rw [hliterals]
  split <;> rfl

theorem Machine.enter_withLimit {m : Machine} {n : Nat} (h : m.depth < m.options.maxDepth)
    (hn : m.depth < n) (d : MethodDefinition) (vs : List Value) :
    (m.withLimit n).enter d vs = m.enter d vs := by
  have hn' : ¬(m.withLimit n).options.maxDepth ≤ (m.withLimit n).depth := Nat.not_le_of_lt hn
  unfold enter
  rw [if_neg hn', if_neg (Nat.not_le_of_lt h)]

namespace Configuration

variable {c : Configuration} {n : Nat}

theorem stop_withLimit (c : Configuration) (n : Nat) (f : Fault) :
    (c.withLimit n).stop f = (c.stop f).withLimit n := by
  cases f <;> rfl

theorem resume_withLimit (c : Configuration) (n : Nat) (stack : Stack) (v : Option Value) :
    (c.withLimit n).resume stack v = (c.resume stack v).withLimit n := by
  cases v with
  | none => rfl
  | some v =>
    simp only [resume]
    cases stack.push v with
    | ok stack => rfl
    | error f => exact stop_withLimit c n f

theorem finish_withLimit (c : Configuration) (n : Nat) (completion : Completion) :
    (c.withLimit n).finish completion = (c.finish completion).withLimit n := by
  obtain ⟨m, active, callers⟩ := c
  cases callers with
  | nil => rfl
  | cons a callers =>
    exact resume_withLimit ⟨{ m with depth := m.depth - callCount [active] }, a, callers⟩ n a.stack
      completion.value?

theorem act_withLimit {action : Action} (h : ∀ t d vs, action = .call t d vs →
      c.machine.depth < c.machine.options.maxDepth ∧ c.machine.depth < n) :
    (c.withLimit n).act action = (c.act action).withLimit n := by
  cases action with
  | proceed stack => rfl
  | pushLiteral stack text =>
    have hliteral : (c.withLimit n).machine.literal text = _ := c.machine.literal_withLimit n text
    simp only [act, hliteral]
    exact resume_withLimit { c with machine := (c.machine.literal text).2 } n _ _
  | pushInstance stack ofClass =>
    exact resume_withLimit { c with machine := (c.machine.allocate (.instance ofClass)).2 } n stack
      (some (.object (c.machine.allocate (.instance ofClass)).1))
  | jump stack target =>
    have hcode : (c.withLimit n).active.code.position? target = c.active.code.position? target := rfl
    simp only [act, hcode]
    cases c.active.code.position? target with
    | some pc => rfl
    | none => exact stop_withLimit c n _
  | call stack callee arguments =>
    obtain ⟨hdepth, hn⟩ := h stack callee arguments rfl
    have henter : (c.withLimit n).machine.enter callee arguments = _ :=
      Machine.enter_withLimit hdepth hn callee arguments
    simp only [act, henter]
    cases c.machine.enter callee arguments with
    | error e => exact stop_withLimit c n _
    | ok entered =>
      cases entered with
      | finished v => exact resume_withLimit c n _ _
      | started a => rfl
  | leave v => exact finish_withLimit c n _

theorem perform_withLimit (c : Configuration) (n : Nat) (i : Instruction) :
    (c.withLimit n).machine.perform (c.withLimit n).active i = c.machine.perform c.active i :=
  Machine.perform_congr rfl c.active i

theorem call?_withLimit (c : Configuration) (n : Nat) : (c.withLimit n).call? = c.call? := by
  have hi : (c.withLimit n).active.code.instructions[(c.withLimit n).active.pc]? =
      c.active.code.instructions[c.active.pc]? := rfl
  simp only [call?, hi, perform_withLimit]

theorem step_withLimit (h : c.call?.isSome →
      c.machine.depth < c.machine.options.maxDepth ∧ c.machine.depth < n) :
    (c.withLimit n).step = c.step.withLimit n := by
  have hi : (c.withLimit n).active.code.instructions[(c.withLimit n).active.pc]? =
      c.active.code.instructions[c.active.pc]? := rfl
  simp only [step, hi, perform_withLimit]
  cases hinstr : c.active.code.instructions[c.active.pc]? with
  | some i =>
    simp only
    cases hp : c.machine.perform c.active i with
    | ok action =>
      refine act_withLimit fun t d vs ha => h ?_
      subst ha
      simp [call?, hinstr, hp]
    | error f => exact stop_withLimit c n f
  | none =>
    have hmethod : (c.withLimit n).active.method = c.active.method := rfl
    simp only [hmethod]
    cases c.active.method with
    | some m => exact stop_withLimit c n _
    | none => exact finish_withLimit c n _

theorem step_of_refused (h : c.call?.isSome) (hfull : c.machine.options.maxDepth ≤ c.machine.depth) :
    c.step = c.stop (.error (.callDepthExceeded c.machine.options.maxDepth)) := by
  unfold call? at h
  simp only [step]
  cases hinstr : c.active.code.instructions[c.active.pc]? with
  | none => simp [hinstr] at h
  | some i =>
    simp only [hinstr] at h ⊢
    cases hp : c.machine.perform c.active i with
    | error f => simp [hp] at h
    | ok action =>
      rw [hp] at h
      cases action with
      | call t d vs => simp only [act, Machine.enter, if_pos hfull]
      | proceed | pushLiteral | pushInstance | jump | leave => cases h

end Configuration

namespace Progress

variable {p : Progress} {c : Configuration} {n fuel : Nat} {m : Machine} {outcome : Outcome}

theorem Alike.run_eq_some {q : Progress} (h : p.Alike q) (hrun : p.run fuel = some (m, outcome)) :
    ∃ m' outcome', q.run fuel = some (m', outcome') ∧ outcome.Alike outcome' := by
  have hrel := h.run fuel
  rw [hrun] at hrel
  cases hq : q.run fuel with
  | none =>
    rw [hq] at hrel
    cases hrel
  | some answer =>
    rw [hq] at hrel
    cases hrel with
    | some hxy => exact ⟨answer.1, answer.2, rfl, hxy⟩

theorem run_unique {fuel' : Nat} {m' : Machine} {outcome' : Outcome}
    (h : p.run fuel = some (m, outcome)) (h' : p.run fuel' = some (m', outcome')) :
    outcome = outcome' := by
  rw [run_eq_some] at h h'
  have hboth : p.after (fuel + fuel') = p.after (fuel' + fuel) := by rw [Nat.add_comm]
  rw [after_add, after_add, h, h', after_stopped, after_stopped] at hboth
  cases hboth
  rfl

theorem Alike.run_exceeded {q : Progress} {limit : Nat} (h : p.Alike q)
    (hrun : ∃ m, p.run fuel = some (m, .failed (.callDepthExceeded limit))) :
    ∃ m, q.run fuel = some (m, .failed (.callDepthExceeded limit)) := by
  obtain ⟨m, hrun⟩ := hrun
  obtain ⟨m', outcome', hrun', halike⟩ := h.run_eq_some hrun
  cases halike
  exact ⟨m', hrun'⟩

theorem exceeds_iff {limit most : Nat}
    (hwithin : most ≤ limit → ∃ m' outcome', p.run fuel = some (m', outcome') ∧
      outcome.Alike outcome')
    (hbeyond : limit < most → ∃ m', p.run fuel = some (m', .failed (.callDepthExceeded limit)))
    (hanswer : ∀ k, outcome ≠ .failed (.callDepthExceeded k)) :
    (∃ fuel' m', p.run fuel' = some (m', .failed (.callDepthExceeded limit))) ↔ limit < most := by
  refine ⟨?_, fun hlt => ⟨fuel, hbeyond hlt⟩⟩
  rintro ⟨fuel', m', hexceeded⟩
  by_contra hle
  obtain ⟨m'', outcome', hrun, halike⟩ := hwithin (Nat.le_of_not_lt hle)
  rw [run_unique hrun hexceeded] at halike
  cases halike
  exact hanswer limit rfl

theorem lets_in (hcall : c.call?.isSome) (hrun : c.step.run fuel = some (m, outcome))
    (hanswer : ∀ k, outcome ≠ .failed (.callDepthExceeded k)) :
    c.machine.depth < c.machine.options.maxDepth := by
  by_contra hfull
  rw [Configuration.step_of_refused hcall (Nat.le_of_not_lt hfull)] at hrun
  cases fuel <;> cases hrun <;> exact hanswer _ rfl

theorem step_withLimit_of_calls (h : (c.withLimit n).Keeps (Machine.Balanced n))
    (hrun : c.step.run fuel = some (m, outcome))
    (hanswer : ∀ k, outcome ≠ .failed (.callDepthExceeded k)) (hcalls : c.calls ≤ n) :
    (c.withLimit n).step = c.step.withLimit n := by
  refine Configuration.step_withLimit fun hcall => ?_
  have hin := lets_in hcall hrun hanswer
  have hdepth : c.machine.depth = callCount (c.active :: c.callers) := h.depth
  rw [Configuration.calls, if_pos ⟨hcall, hin⟩, ← hdepth] at hcalls
  exact ⟨hin, hcalls⟩

theorem step_withLimit_of_refused (h : (c.withLimit n).Keeps (Machine.Balanced n))
    (hcalls : n < c.calls) :
    ∃ m, (c.withLimit n).step = .stopped m (.failed (.callDepthExceeded n)) := by
  -- as many calls as the limit allows are active, and the step asks for one more
  have hactive : callCount (c.active :: c.callers) ≤ n := h.calls_le
  have hdepth : c.machine.depth = callCount (c.active :: c.callers) := h.depth
  rw [Configuration.calls] at hcalls
  split at hcalls
  · rename_i hcall
    have hasks : (c.withLimit n).call?.isSome := by
      rw [Configuration.call?_withLimit]
      exact hcall.1
    have hfull : n ≤ c.machine.depth := by omega
    exact ⟨_, Configuration.step_of_refused hasks hfull⟩
  · exact absurd hactive (Nat.not_le_of_lt hcalls)

theorem run_withLimit (h : (p.withLimit n).Keeps (Machine.Balanced n))
    (hrun : p.run fuel = some (m, outcome))
    (hanswer : ∀ k, outcome ≠ .failed (.callDepthExceeded k)) (hpeak : p.peak fuel ≤ n) :
    (p.withLimit n).run fuel = some (m.withLimit n, outcome) := by
  induction fuel generalizing p with
  | zero =>
    cases p with
    | running c => cases hrun
    | stopped m' outcome' => cases hrun; rfl
  | succ fuel ih =>
    cases p with
    | stopped m' outcome' => cases hrun; rfl
    | running c =>
      obtain ⟨hcalls, hrest⟩ := Nat.max_le.mp hpeak
      have hstep := step_withLimit_of_calls h hrun hanswer hcalls
      have hkept := (Machine.balanced_invariant n).step h
      rw [hstep] at hkept
      have hrun' := ih hkept hrun hrest
      rw [← hstep] at hrun'
      exact hrun'

theorem run_withLimit_of_peak (h : (p.withLimit n).Keeps (Machine.Balanced n))
    (hrun : p.run fuel = some (m, outcome))
    (hanswer : ∀ k, outcome ≠ .failed (.callDepthExceeded k)) (hpeak : n < p.peak fuel) :
    ∃ m', (p.withLimit n).run fuel = some (m', .failed (.callDepthExceeded n)) := by
  induction fuel generalizing p with
  | zero =>
    cases p with
    | running c => cases hrun
    | stopped m' outcome' => exact absurd hpeak (Nat.not_lt_zero n)
  | succ fuel ih =>
    cases p with
    | stopped m' outcome' => exact absurd hpeak (Nat.not_lt_zero n)
    | running c =>
      by_cases hcalls : c.calls ≤ n
      · have hstep := step_withLimit_of_calls h hrun hanswer hcalls
        have hkept := (Machine.balanced_invariant n).step h
        rw [hstep] at hkept
        have hrest : n < c.step.peak fuel := by
          have hmax : n < max c.calls (c.step.peak fuel) := hpeak
          omega
        obtain ⟨m', hrun'⟩ := ih hkept hrun hrest
        rw [← hstep] at hrun'
        exact ⟨m', hrun'⟩
      · obtain ⟨m', hstopped⟩ := step_withLimit_of_refused h (Nat.lt_of_not_le hcalls)
        refine ⟨m', ?_⟩
        show (c.withLimit n).step.run fuel = _
        rw [hstopped]
        exact run_eq_some.mpr (after_stopped fuel _ _)

end Progress

/-! ## Calls from outside -/

def MethodDefinition.StaticCoded (d : MethodDefinition) : Prop :=
  d.access.isStatic = true → ∃ code, d.body = .code code

theorem Loader.staticCoded_defineAll (number : Nat) (options : LoaderOptions)
    {ds : List ClassDefinition} (hds : ∀ d ∈ ds, d.Coded) :
    ((initial number options).defineAll ds).AllMethods MethodDefinition.StaticCoded := by
  refine defineAll_induction (P := fun l => l.AllMethods MethodDefinition.StaticCoded) ?_
    fun d hd l c l' h hl => h.define (fun m hm _ => hds d hd m hm) hl
  -- the only method that is there before is no static one
  refine allMethods_initial number options fun m hm hstatic => ?_
  rw [List.mem_singleton.mp hm] at hstatic
  cases hstatic

namespace Machine

variable {m : Machine}

theorem call_withLimit (hm : m.depth = 0) {d : MethodDefinition} {code : Code}
    (hcode : d.body = .code code) {vs : List Value} {fuel : Nat} {m' : Machine} {outcome : Outcome}
    (hrun : (m.call d vs).run fuel = some (m', outcome))
    (hanswer : ∀ k, outcome ≠ .failed (.callDepthExceeded k)) (n : Nat) :
    ((m.call d vs).peak fuel ≤ n →
      ((m.withLimit n).call d vs).run fuel = some (m'.withLimit n, outcome)) ∧
    (n < (m.call d vs).peak fuel →
      ∃ m'', ((m.withLimit n).call d vs).run fuel = some (m'', .failed (.callDepthExceeded n))) := by
  by_cases hin : m.depth < m.options.maxDepth
  · rw [call_code hin hcode] at hrun ⊢
    set c : Configuration := ⟨{ m with depth := m.depth + 1 },
      .start code (some d.method) (argumentSlots vs), []⟩
    have hactive : callCount (c.active :: c.callers) = 1 := rfl
    by_cases hn : 0 < n
    · have hin' : (m.withLimit n).depth < (m.withLimit n).options.maxDepth := by
        show m.depth < n
        rwa [hm]
      have hkept : ((Progress.running c).withLimit n).Keeps (Balanced n) :=
        ⟨rfl, congrArg (· + 1) hm, hn⟩
      have hstart : (m.withLimit n).call d vs = (Progress.running c).withLimit n :=
        call_code hin' hcode
      rw [hstart]
      exact ⟨Progress.run_withLimit hkept hrun hanswer,
        Progress.run_withLimit_of_peak hkept hrun hanswer⟩
    · -- no call is let in at all
      obtain rfl : n = 0 := Nat.eq_zero_of_not_pos hn
      have hpeak : 0 < (Progress.running c).peak fuel :=
        Nat.lt_of_lt_of_le (hactive ▸ Nat.one_pos) (Progress.callCount_le_peak c fuel)
      refine ⟨fun hle => absurd hpeak (Nat.not_lt_of_le hle), fun _ => ⟨m.withLimit 0, ?_⟩⟩
      rw [call_of_full (m := m.withLimit 0) (Nat.not_lt_zero _)]
      exact Progress.run_eq_some.mpr (Progress.after_stopped fuel _ _)
  · rw [call_of_full hin] at hrun
    cases fuel <;> cases hrun <;> exact absurd rfl (hanswer _)

theorem invokeStatic_withLimit (hm : m.depth = 0)
    (hcoded : m.loader.AllMethods MethodDefinition.StaticCoded) {ref : MethodRef} {vs : List Value}
    {fuel : Nat} {m' : Machine} {outcome : Outcome}
    (hrun : (m.invokeStatic ref vs).run fuel = some (m', outcome))
    (hanswer : ∀ k, outcome ≠ .failed (.callDepthExceeded k)) (n : Nat) :
    ((m.invokeStatic ref vs).peak fuel ≤ n →
      ((m.withLimit n).invokeStatic ref vs).run fuel = some (m'.withLimit n, outcome)) ∧
    (n < (m.invokeStatic ref vs).peak fuel →
      ∃ m'', ((m.withLimit n).invokeStatic ref vs).run fuel =
        some (m'', .failed (.callDepthExceeded n))) := by
  have hlook : (m.withLimit n).staticMethod ref = m.staticMethod ref := staticMethod_congr rfl ref
  cases hd : m.staticMethod ref with
  | error e =>
    simp only [invokeStatic, hlook, hd] at hrun ⊢
    rw [Progress.peak_stopped]
    refine ⟨fun _ => ?_, fun hpeak => absurd hpeak (Nat.not_lt_zero n)⟩
    cases fuel <;> cases hrun <;> rfl
  | ok d =>
    obtain ⟨hfound, hstatic⟩ := staticMethod_eq_ok.mp hd
    obtain ⟨code, hcode⟩ := (hcoded.loadedMethod? hfound).1 hstatic
    simp only [invokeStatic, hlook, hd] at hrun ⊢
    exact call_withLimit hm hcode hrun hanswer n

theorem renames_initial {l : Loader} (hl : l.Ordinary) (options : ExecutionOptions)
    (supply supply' : Nat) : (initial l options supply).Renames
      (fun a b => a = b ∧ a < supply ∧ a < supply') (initial l options supply') where
  loader := rfl
  options := rfl
  depth := rfl
  ordinary := hl
  forth := ⟨numbered_initial l options supply, fun _ _ h => h.2.1,
    fun _ _ _ h h' => h.1.symm.trans h'.1, nofun⟩
  back := ⟨numbered_initial l options supply', fun _ _ h => h.1 ▸ h.2.2,
    fun _ _ _ h h' => h.1.trans h'.1.symm, nofun⟩

theorem History.balanced {l : Loader} {options : ExecutionOptions} {supply : Nat}
    (hm : (initial l options supply).History m) (task : Task) (steps : Nat) :
    ((m.begin task).after steps).Keeps (Balanced options.maxDepth) := by
  have hserves := hm.serves (serves_initial l options supply)
  have hidle : m.Balanced options.maxDepth 0 :=
    ⟨congrArg _ hserves.options, hserves.depth, Nat.zero_le _⟩
  have hbalanced := balanced_invariant options.maxDepth
  exact hbalanced.after (hbalanced.begin hidle task) steps

theorem alike_initial {l : Loader} (hl : l.Ordinary) (options : ExecutionOptions)
    {supply supply' : Nat} (ref : MethodRef) {arguments : List Value}
    (h : ∀ o, Value.object o ∈ arguments → o.number < supply ∧ o.number < supply') :
    ((initial l options supply).invokeStatic ref arguments).Alike
      ((initial l options supply').invokeStatic ref arguments) := by
  refine (renames_initial hl options supply supply').invokeStatic ref ?_
  refine List.forall₂_same.mpr fun v hv => ?_
  cases v with
  | object o => exact .object o.content ⟨rfl, h o hv⟩
  | _ => exact .plain rfl

/-- **A limit cuts runs short and does nothing else.** On classes without bodies of the host, the
counter of a machine is the number of active calls at each point of a run, and the calls are within
the limit. A static call on a new machine that ends, and not for exceeding its limit, ends the same
way under each limit that is at least the number of calls it had active at once, but for the identity
of objects; under the limits below that number, and no others, it exceeds them. -/
theorem invokeStatic_of_limit (number : Nat) (loaderOptions : LoaderOptions)
    (definitions : List ClassDefinition) (hcoded : ∀ d ∈ definitions, d.Coded) :
    let l := (Loader.initial number loaderOptions).defineAll definitions
    (∀ (options : ExecutionOptions) (supply : Nat) (m : Machine) (task : Task) (steps : Nat)
        (c : Configuration), (initial l options supply).History m →
      (m.begin task).after steps = .running c →
        c.machine.depth = callCount (c.active :: c.callers) ∧ c.calls ≤ options.maxDepth) ∧
    ∀ (limit supply : Nat) (ref : MethodRef) (arguments : List Value) (fuel : Nat) (m : Machine)
        (outcome : Outcome),
      ((initial l ⟨limit⟩ supply).invokeStatic ref arguments).run fuel = some (m, outcome) →
      (∀ n, outcome ≠ .failed (.callDepthExceeded n)) →
      ∃ most ≤ limit, most = ((initial l ⟨limit⟩ supply).invokeStatic ref arguments).peak fuel ∧
        ∀ limit' supply' : Nat,
          (∀ o, Value.object o ∈ arguments → o.number < supply ∧ o.number < supply') →
          let p := (initial l ⟨limit'⟩ supply').invokeStatic ref arguments
          (most ≤ limit' → ∃ m' outcome', p.run fuel = some (m', outcome') ∧ outcome.Alike outcome') ∧
          ((∃ fuel' m', p.run fuel' = some (m', .failed (.callDepthExceeded limit'))) ↔
            limit' < most) := by
  intro l
  constructor
  · intro options supply m task steps c hm hc
    have hkept := hm.balanced task steps
    rw [hc] at hkept
    exact ⟨hkept.depth, Configuration.calls_le hkept⟩
  · intro limit supply ref arguments fuel m outcome hrun hanswer
    have hnew : (initial l ⟨limit⟩ supply).History (initial l ⟨limit⟩ supply) := .fresh
    have hkept := hnew.balanced (.invokeStatic ref arguments) 0
    refine ⟨_, Progress.peak_le hkept fuel, rfl, ?_⟩
    intro limit' supply' harguments p
    obtain ⟨hwithin, hbeyond⟩ := invokeStatic_withLimit rfl
      (Loader.staticCoded_defineAll number loaderOptions hcoded) hrun hanswer limit'
    have halike := alike_initial (Loader.ordinary_defineAll number loaderOptions hcoded) ⟨limit'⟩
      ref harguments
    have hsame : ((initial l ⟨limit⟩ supply).invokeStatic ref arguments).peak fuel ≤ limit' →
        ∃ m' outcome', p.run fuel = some (m', outcome') ∧ outcome.Alike outcome' :=
      fun hle => halike.run_eq_some (hwithin hle)
    exact ⟨hsame, Progress.exceeds_iff hsame (fun hlt => halike.run_exceeded (hbeyond hlt)) hanswer⟩

def makeRef : MethodRef := ⟨"A", ⟨"make", .mk ⟨[], .object Descriptor.rootClassName⟩⟩⟩

def makeTwiceRemovedRef : MethodRef := ⟨"A", ⟨"makeTwiceRemoved", makeRef.method.signature⟩⟩

def makerClass : ClassDefinition where
  access := .publicFlag
  name := "A"
  superName := some Descriptor.rootClassName
  methods :=
    [⟨.staticFlag, makeRef.method,
      .code ⟨#[.new 0, .dup, .invokeSpecial 1, .leave (some .reference)],
        #[.classRef Descriptor.rootClassName, .method ⟨Descriptor.rootClassName, .nullaryInit⟩],
        #[], [], [], 2, 0⟩⟩,
    ⟨.staticFlag, makeTwiceRemovedRef.method,
      .code ⟨#[.invokeStatic 0, .leave (some .reference)], #[.method makeRef], #[], [], [], 1, 0⟩⟩]

def maker (limit supply : Nat) : Machine :=
  .initial ((Loader.initial 0 { verify := false }).defineAll [makerClass]) ⟨limit⟩ supply

theorem makerClass_coded : makerClass.Coded := by
  intro m hm
  simp only [makerClass, List.mem_cons, List.not_mem_nil, or_false] at hm
  rcases hm with rfl | rfl
  · exact ⟨_, rfl⟩
  · exact ⟨_, rfl⟩

def made (number : Nat) : Outcome :=
  .completed (.returned (some (.object ⟨number, .instance (.mk 0 Descriptor.rootClassName [])⟩)))

theorem invokeStatic_of_limit_maker : (∀ d ∈ [makerClass], d.Coded) ∧
    ((maker 5 0).invokeStatic makeTwiceRemovedRef []).peak 6 = 3 ∧
    (((maker 5 0).invokeStatic makeTwiceRemovedRef []).run 6).map Prod.snd = some (made 0) ∧
    (((maker 3 7).invokeStatic makeTwiceRemovedRef []).run 6).map Prod.snd = some (made 7) ∧
    (¬∃ fuel m, ((maker 3 7).invokeStatic makeTwiceRemovedRef []).run fuel =
      some (m, .failed (.callDepthExceeded 3))) ∧
    ∃ fuel m, ((maker 2 7).invokeStatic makeTwiceRemovedRef []).run fuel =
      some (m, .failed (.callDepthExceeded 2)) := by
  have hcoded : ∀ d ∈ [makerClass], d.Coded := by simpa using makerClass_coded
  have hmost : ((maker 5 0).invokeStatic makeTwiceRemovedRef []).peak 6 = 3 := by decide +kernel
  have hmade : (((maker 5 0).invokeStatic makeTwiceRemovedRef []).run 6).map Prod.snd =
      some (made 0) := by decide +kernel
  obtain ⟨⟨m, _⟩, hrun, rfl⟩ := Option.map_eq_some_iff.mp hmade
  obtain ⟨most, -, hpeak, hlimits⟩ := (invokeStatic_of_limit 0 { verify := false } [makerClass]
    hcoded).2 5 0 makeTwiceRemovedRef [] 6 m (made 0) hrun nofun
  obtain rfl : most = 3 := hpeak.trans hmost
  obtain ⟨-, hthree⟩ := hlimits 3 7 nofun
  obtain ⟨-, htwo⟩ := hlimits 2 7 nofun
  exact ⟨hcoded, hmost, hmade, by decide +kernel, fun h => absurd (hthree.mp h) (by decide),
    htwo.mpr (by decide)⟩

end Machine

end StackCode
