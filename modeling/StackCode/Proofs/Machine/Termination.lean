import Mathlib.Algebra.Ring.Nat
import Mathlib.Data.List.MinMax
import StackCode.Proofs.Machine.Positions

/-!
# Calls that always end

Where all branches lead forward, a body comes to each of its instructions at most once, and it can
only wait for as many nested calls as the limit leaves. Bodies of at most `n` instructions and a limit
of `d` calls thus allow `(n + 1) ^ d` steps. What decreases with each step is the number of steps
that the active body and the waiting ones have left, each with all the calls that it may still make.
-/

namespace StackCode

/-! ## Bodies without loops -/

/-- Every branch goes to a label without a position or forward. -/
def Code.LoopFree (code : Code) : Prop :=
  ∀ (pc : Nat) (h : pc < code.instructions.size), ∀ l ∈ code.instructions[pc].target?,
    ∀ p ∈ code.position? l, pc < p

instance (code : Code) : Decidable code.LoopFree :=
  inferInstanceAs (Decidable (∀ (pc : Nat) (h : pc < code.instructions.size),
    ∀ l ∈ code.instructions[pc].target?, ∀ p ∈ code.position? l, pc < p))

theorem Code.LoopFree.lt {code : Code} (h : code.LoopFree) {pc p : Nat} {i : Instruction} {l : Label}
    (hi : code.instructions[pc]? = some i) (hl : i.target? = some l)
    (hp : code.position? l = some p) : pc < p := by
  obtain ⟨hpc, rfl⟩ := Array.getElem?_eq_some_iff.mp hi
  exact h pc hpc l hl p hp

/-- The body, if it is one of instructions, has no loops; one of the host gives its result at once. -/
def MethodDefinition.LoopFree (d : MethodDefinition) : Prop :=
  ∀ code, d.body = .code code → code.LoopFree

def ClassDefinition.LoopFree (d : ClassDefinition) : Prop := ∀ m ∈ d.methods, m.LoopFree

def MethodDefinition.length (d : MethodDefinition) : Nat :=
  match d.body with
  | .code code => code.instructions.size
  | .native _ => 0

namespace Loader

def LoopFree (l : Loader) : Prop := l.AllMethods MethodDefinition.LoopFree

theorem loopFree_defineAll (number : Nat) (options : LoaderOptions) {ds : List ClassDefinition}
    (hds : ∀ d ∈ ds, d.LoopFree) : ((initial number options).defineAll ds).LoopFree := by
  refine defineAll_induction (P := LoopFree) ?_ fun d hd l c l' h hl => h.define (hds d hd) hl
  refine allMethods_initial number options fun m hm code hcode => ?_
  rw [List.mem_singleton.mp hm] at hcode
  cases hcode

def methods (l : Loader) : List MethodDefinition :=
  (l.classes.flatMap LoadedClass.chain).flatMap DeclaredClass.methods

def longest (l : Loader) : Nat := (l.methods.map MethodDefinition.length).foldr max 0

theorem length_le_longest (l : Loader) : l.AllMethods fun d => d.length ≤ l.longest := by
  intro c hc dc hdc d hd
  have hmem : d ∈ l.methods :=
    List.mem_flatMap.mpr ⟨dc, List.mem_flatMap.mpr ⟨c, hc, hdc⟩, hd⟩
  exact List.le_max_of_le' 0 (List.mem_map_of_mem hmem) (Nat.le_refl _)

end Loader

/-! ## Steps that are left -/

def Machine.callsLeft (m : Machine) : Nat := m.options.maxDepth - m.depth

def Activation.left (a : Activation) : Nat := a.code.instructions.size - a.pc

/-- The steps that bodies of at most `n` instructions have left once the call that the first one waits
for is over; it may still nest `calls` calls, the one below it one call more, and so on. -/
def stepsWaiting (n : Nat) : Nat → List Activation → Nat
  | _, [] => 0
  | calls, a :: rest => (a.left - 1) * (n + 1) ^ calls + stepsWaiting n (calls + 1) rest

def Configuration.stepsLeft (c : Configuration) (n : Nat) : Nat :=
  c.active.left * (n + 1) ^ c.machine.callsLeft + stepsWaiting n (c.machine.callsLeft + 1) c.callers

/-- A body of a method, without loops and of at most `n` instructions. -/
structure Activation.Bounded (a : Activation) (n : Nat) : Prop where
  method : a.method.isSome
  loopFree : a.code.LoopFree
  size_le : a.code.instructions.size ≤ n

structure MethodDefinition.Bounded (d : MethodDefinition) (n : Nat) : Prop where
  loopFree : d.LoopFree
  length_le : d.length ≤ n

structure Configuration.Bounded (c : Configuration) (n : Nat) : Prop where
  loader : c.machine.loader.AllMethods fun d => d.Bounded n
  active : c.active.Bounded n
  callers : ∀ a ∈ c.callers, a.Bounded n
  calls_le : c.callers.length < c.machine.depth
  depth_le : c.machine.depth ≤ c.machine.options.maxDepth

/-- The run is over, or has less than some number of steps left. -/
def Progress.Within (n steps : Nat) : Progress → Prop
  | .running c => c.Bounded n ∧ c.stepsLeft n < steps
  | .stopped _ _ => True

theorem Progress.Within.mono {p : Progress} {n steps steps' : Nat} (h : p.Within n steps)
    (hle : steps ≤ steps') : p.Within n steps' := by
  cases p with
  | running c => exact ⟨h.1, Nat.lt_of_lt_of_le h.2 hle⟩
  | stopped m outcome => trivial

namespace Configuration

variable (c : Configuration) (n steps : Nat)

theorem stop_within (f : Fault) : (c.stop f).Within n steps := by
  cases f <;> trivial

variable {c n steps}

theorem Bounded.withMachine (h : c.Bounded n) {m : Machine} (hl : m.loader = c.machine.loader)
    (ho : m.options = c.machine.options) (hd : m.depth = c.machine.depth) :
    Configuration.Bounded { c with machine := m } n where
  loader := hl ▸ h.loader
  active := h.active
  callers := h.callers
  calls_le := hd ▸ h.calls_le
  depth_le := by rw [hd, ho]; exact h.depth_le

theorem Bounded.goTo (h : c.Bounded n) {pc : Nat} (t : Stack)
    (hsteps : (c.active.code.instructions.size - pc) * (n + 1) ^ c.machine.callsLeft +
      stepsWaiting n (c.machine.callsLeft + 1) c.callers < steps) : (c.goTo pc t).Within n steps :=
  ⟨⟨h.loader, ⟨h.active.method, h.active.loopFree, h.active.size_le⟩, h.callers, h.calls_le,
    h.depth_le⟩, hsteps⟩

theorem Bounded.resume (h : c.Bounded n)
    (hsteps : stepsWaiting n c.machine.callsLeft (c.active :: c.callers) < steps) (t : Stack)
    (v : Option Value) : (c.resume t v).Within n steps := by
  rw [stepsWaiting, Activation.left, Nat.sub_sub] at hsteps
  cases v with
  | none => exact h.goTo t hsteps
  | some v =>
    simp only [Configuration.resume]
    cases t.push v with
    | ok t => exact h.goTo t hsteps
    | error f => exact c.stop_within n steps f

theorem stepsLeft_eq (hpc : c.active.pc < c.active.code.instructions.size) :
    c.stepsLeft n = (n + 1) ^ c.machine.callsLeft +
      stepsWaiting n c.machine.callsLeft (c.active :: c.callers) := by
  have hleft : c.active.left = c.active.left - 1 + 1 :=
    (Nat.sub_one_add_one (Nat.sub_pos_of_lt hpc).ne').symm
  rw [stepsLeft, stepsWaiting, hleft, Nat.succ_mul, Nat.add_sub_cancel]
  omega

theorem stepsWaiting_lt (hpc : c.active.pc < c.active.code.instructions.size) :
    stepsWaiting n c.machine.callsLeft (c.active :: c.callers) < c.stepsLeft n := by
  rw [stepsLeft_eq hpc]
  exact Nat.lt_add_of_pos_left (Nat.pow_pos n.succ_pos)

theorem Bounded.finish (h : c.Bounded n) (hpc : c.active.pc < c.active.code.instructions.size)
    (completion : Completion) : (c.finish completion).Within n (c.stepsLeft n) := by
  obtain ⟨m, active, callers⟩ := c
  cases callers with
  | nil => trivial
  | cons a rest =>
    obtain ⟨ha, hrest⟩ := List.forall_mem_cons.mp h.callers
    have hcount : callCount [active] = 1 := by simp [callCount, h.active.method]
    have hcalls := h.calls_le
    have hdepth := h.depth_le
    simp only [List.length_cons] at hcalls hdepth
    have hbounded : Configuration.Bounded
        ⟨{ m with depth := m.depth - callCount [active] }, a, rest⟩ n := by
      refine ⟨h.loader, ha, hrest, ?_, ?_⟩
      · simp only [hcount]
        omega
      · simp only [hcount]
        omega
    refine hbounded.resume ?_ _ _
    have hleft : Machine.callsLeft { m with depth := m.depth - callCount [active] } =
        m.callsLeft + 1 := by
      simp only [Machine.callsLeft, hcount]
      omega
    simp only [hleft, stepsLeft]
    have hpos : 0 < active.left * (n + 1) ^ m.callsLeft :=
      Nat.mul_pos (Nat.sub_pos_of_lt hpc) (Nat.pow_pos (Nat.succ_pos n))
    omega

end Configuration

/-! ## What is called -/

namespace Machine

variable {m : Machine} {a : Activation} {i : Instruction}

theorem branchIf_ne_call {condition : Bool} {s t : Stack} {l : Label} {d : MethodDefinition}
    {vs : List Value} : branchIf condition s l ≠ .call t d vs := by
  cases condition <;> exact nofun

theorem loaded_of_perform {t : Stack} {d : MethodDefinition} {vs : List Value}
    (h : m.perform a i = .ok (.call t d vs)) :
    ∃ (ref : MethodRef) (sort : ReferenceSort),
      m.loader.loadedMethod? ref.owner ref.method sort = some d := by
  cases i with
  | invokeSpecial index =>
    simp only [perform, bind_eq_ok] at h
    obtain ⟨ref, -, ⟨_, _⟩, -, ⟨receiver, _⟩, -, h⟩ := h
    split at h
    · cases h
    · cases hd : m.specialMethod ref with
      | ok d' =>
        rw [hd] at h
        cases h
        exact ⟨ref, .special, specialMethod_eq_ok.mp hd⟩
      | error e => rw [hd] at h; cases h
  | invokeStatic index =>
    simp only [perform, bind_eq_ok] at h
    obtain ⟨ref, -, ⟨_, _⟩, -, h⟩ := h
    cases hd : m.staticMethod ref with
    | ok d' =>
      rw [hd] at h
      cases h
      exact ⟨ref, .static, (staticMethod_eq_ok.mp hd).1⟩
    | error e => rw [hd] at h; cases h
  | ldc index | ldc2 index =>
    simp only [perform, load] at h
    split at h <;> simp [map_eq_ok] at h
  | load | new =>
    simp only [perform] at h
    repeat' split at h
    all_goals simp [map_eq_ok] at h
  | leave result => cases result <;> simp [perform, map_eq_ok] at h
  | pop2 | dup2 =>
    simp only [perform, bind_eq_ok] at h
    obtain ⟨_, _, h⟩ := h
    split at h <;> simp [bind_eq_ok, map_eq_ok, pure_eq_ok] at h
  | ifSame op l =>
    simp only [perform, bind_eq_ok] at h
    obtain ⟨_, _, _, _, _, _, _, _, h⟩ := h
    cases op <;> simp [branchIf_ne_call, pure_eq_ok, throw_ne_ok] at h
  | _ => simp [perform, bind_eq_ok, map_eq_ok, branchIf_ne_call] at h

end Machine

theorem MethodDefinition.Bounded.enter {d : MethodDefinition} {n : Nat} (hd : d.Bounded n) {m : Machine}
    {vs : List Value} {a : Activation} (h : m.enter d vs = .ok (.started a)) : a.Bounded n := by
  obtain ⟨-, code, hcode, rfl⟩ := Machine.start_of_enter h
  have hlength := hd.length_le
  rw [MethodDefinition.length, hcode] at hlength
  exact ⟨rfl, hd.loopFree code hcode, hlength⟩

/-! ## Steps and runs -/

namespace Configuration

variable {c : Configuration} {n : Nat}

theorem within_start {m : Machine} (hl : m.loader.AllMethods fun d => d.Bounded n)
    {callers : List Activation} (hcallers : ∀ a ∈ callers, a.Bounded n)
    (hcalls : callers.length ≤ m.depth) {d : MethodDefinition} (hd : d.Bounded n) {vs : List Value}
    {a : Activation} (h : m.enter d vs = .ok (.started a)) :
    (Progress.running ⟨{ m with depth := m.depth + 1 }, a, callers⟩).Within n
      ((n + 1) ^ m.callsLeft + stepsWaiting n m.callsLeft callers) := by
  obtain ⟨hdepth, -⟩ := Machine.enter_eq_started h
  have ha := hd.enter h
  refine ⟨⟨hl, ha, hcallers, Nat.lt_succ_of_le hcalls, hdepth⟩, ?_⟩
  have hcallsLeft : m.callsLeft = Machine.callsLeft { m with depth := m.depth + 1 } + 1 := by
    simp only [Machine.callsLeft]
    omega
  rw [stepsLeft, hcallsLeft]
  generalize Machine.callsLeft { m with depth := m.depth + 1 } = calls
  have hleft : a.left < n + 1 :=
    Nat.lt_succ_of_le ((Nat.sub_le _ _).trans ha.size_le)
  have hsteps : a.left * (n + 1) ^ calls < (n + 1) ^ (calls + 1) := by
    rw [Nat.pow_succ']
    exact Nat.mul_lt_mul_of_pos_right hleft (Nat.pow_pos n.succ_pos)
  exact Nat.add_lt_add_right hsteps _

theorem Bounded.act {i : Instruction} {action : Action} (h : c.Bounded n)
    (hi : c.active.code.instructions[c.active.pc]? = some i)
    (hp : c.machine.perform c.active i = .ok action) :
    (c.act action).Within n (c.stepsLeft n) := by
  have hpc : c.active.pc < c.active.code.instructions.size :=
    (Array.getElem?_eq_some_iff.mp hi).1
  have hnext := stepsWaiting_lt (n := n) hpc
  have hfollows : action.Follows i := by
    have hgives := Machine.perform_gives c.machine c.active i
    rwa [hp] at hgives
  cases hfollows with
  | proceed t => exact h.resume hnext t none
  | pushLiteral t text =>
    have hm : Configuration.Bounded { c with machine := (c.machine.literal text).2 } n :=
      h.withMachine (by simp) (by simp) (by simp)
    exact hm.resume (by simpa [Machine.callsLeft] using hnext) t
      (some (.object (c.machine.literal text).1))
  | pushInstance t ofClass =>
    have hm : Configuration.Bounded
        { c with machine := (c.machine.allocate (.instance ofClass)).2 } n :=
      h.withMachine rfl rfl rfl
    exact hm.resume hnext t (some (.object (c.machine.allocate (.instance ofClass)).1))
  | @jump t l hl =>
    simp only [Configuration.act]
    split
    · rename_i pc hposition
      have hforward : c.active.pc < pc := h.active.loopFree.lt hi hl hposition
      refine h.goTo t (Nat.lt_of_le_of_lt ?_ hnext)
      rw [stepsWaiting, Activation.left]
      exact Nat.add_le_add_right (Nat.mul_le_mul_right _ (by omega)) _
    · exact c.stop_within n _ _
  | call t d arguments =>
    simp only [Configuration.act]
    split
    · exact c.stop_within n _ _
    · exact h.resume hnext t _
    · rename_i a hentered
      obtain ⟨ref, sort, hfound⟩ := Machine.loaded_of_perform hp
      have hd : d.Bounded n := (h.loader.loadedMethod? hfound).1
      have hcaller : Activation.Bounded { c.active with stack := t } n :=
        ⟨h.active.method, h.active.loopFree, h.active.size_le⟩
      rw [stepsLeft_eq hpc]
      exact within_start h.loader (List.forall_mem_cons.mpr ⟨hcaller, h.callers⟩) h.calls_le hd
        hentered
  | leave v => exact h.finish hpc _

theorem Bounded.step (h : c.Bounded n) : c.step.Within n (c.stepsLeft n) := by
  simp only [Configuration.step]
  cases hi : c.active.code.instructions[c.active.pc]? with
  | some i =>
    simp only
    cases hp : c.machine.perform c.active i with
    | ok action => exact h.act hi hp
    | error f => exact c.stop_within n _ f
  | none =>
    obtain ⟨m, hm⟩ := Option.isSome_iff_exists.mp h.active.method
    simp only [hm]
    exact c.stop_within n _ _

end Configuration

theorem Progress.Within.run {p : Progress} {n steps : Nat} (h : p.Within n steps) :
    ∃ m outcome, p.run steps = some (m, outcome) := by
  induction steps generalizing p with
  | zero =>
    cases p with
    | running c => exact absurd h.2 (Nat.not_lt_zero _)
    | stopped m outcome => exact ⟨m, outcome, rfl⟩
  | succ steps ih =>
    cases p with
    | running c => exact ih (h.1.step.mono (Nat.le_of_lt_succ h.2))
    | stopped m outcome => exact ⟨m, outcome, rfl⟩

/-! ## Calls from outside -/

namespace Machine

variable {m : Machine}

theorem bounded_of_loopFree (h : m.loader.LoopFree) :
    m.loader.AllMethods fun d => d.Bounded m.loader.longest :=
  fun c hc dc hdc d hd => ⟨h c hc dc hdc d hd, m.loader.length_le_longest c hc dc hdc d hd⟩

theorem call_within {n : Nat} (hl : m.loader.AllMethods fun d => d.Bounded n) {d : MethodDefinition}
    (hd : d.Bounded n) (vs : List Value) :
    (m.call d vs).Within n ((n + 1) ^ m.options.maxDepth) := by
  simp only [call]
  split
  · trivial
  · trivial
  · rename_i a hentered
    refine (Configuration.within_start hl (List.forall_mem_nil _) (Nat.zero_le _) hd hentered).mono ?_
    exact Nat.pow_le_pow_right n.succ_pos (Nat.sub_le _ _)

/-- **Calls of code without loops always end**, whatever the methods call, whether the classes are
verified or not, and however many calls are active already. If no body has more than `n` instructions,
a call takes at most `(n + 1) ^ d` steps under a limit of `d` nested calls. -/
theorem calls_end (m : Machine) (hloader : m.loader.LoopFree) :
    (∀ ref arguments, ∃ m' outcome, (m.begin (.invokeStatic ref arguments)).run
      ((m.loader.longest + 1) ^ m.options.maxDepth) = some (m', outcome)) ∧
    ∀ className, ∃ m' outcome, (m.begin (.newInstance className)).run
      ((m.loader.longest + 1) ^ m.options.maxDepth) = some (m', outcome) := by
  have hl : m.loader.AllMethods fun d => d.Bounded m.loader.longest := bounded_of_loopFree hloader
  constructor
  · intro ref arguments
    refine Progress.Within.run (n := m.loader.longest) ?_
    simp only [begin, invokeStatic]
    cases hd : m.staticMethod ref with
    | error e => trivial
    | ok d => exact call_within hl (hl.loadedMethod? (staticMethod_eq_ok.mp hd).1).1 arguments
  · intro className
    refine Progress.Within.run (n := m.loader.longest) ?_
    simp only [begin, newInstance]
    cases hc : m.loader.class? className with
    | none => trivial
    | some c =>
      simp only
      cases hd : c.declaredMethod? .nullaryInit with
      | none => trivial
      | some d =>
        have hfound : m.loader.loadedMethod? className .nullaryInit .special = some d := by
          simp [Loader.loadedMethod?, hc, hd]
        exact call_within (m := (m.allocate (.instance c.identity)).2) hl
          (hl.loadedMethod? hfound).1 _

def splitRef : MethodRef := ⟨"A", ⟨"split", .mk ⟨[.int], .void⟩⟩⟩

def splittingClass : ClassDefinition where
  access := .publicFlag
  name := "A"
  superName := some Descriptor.rootClassName
  methods := [⟨.staticFlag, splitRef.method,
      .code ⟨#[.load .int 0, .ifZero .eq ⟨0⟩, .load .int 0, .invokeStatic 0, .load .int 0,
        .invokeStatic 0, .leave none], #[.method splitRef], #[⟨some 4, false⟩], [], [], 1, 1⟩⟩,
    ⟨.publicFlag, .nullaryInit,
      .code ⟨#[.new 0, .invokeSpecial 1, .leave none],
        #[.classRef "A", .method ⟨"A", .nullaryInit⟩], #[], [], [], 1, 1⟩⟩]

theorem splittingClass_loopFree : splittingClass.LoopFree := by
  intro m hm code hcode
  simp only [splittingClass, List.mem_cons, List.not_mem_nil, or_false] at hm
  rcases hm with rfl | rfl
  · cases hcode
    decide
  · cases hcode
    decide

def splitting : Machine :=
  .initial ((Loader.initial 0 { verify := false }).defineAll [splittingClass]) { maxDepth := 3 } 0

theorem calls_end_splitting : splitting.loader.LoopFree ∧
    (∃ m, (splitting.begin (.invokeStatic splitRef [.int 1])).run
      ((splitting.loader.longest + 1) ^ splitting.options.maxDepth) =
        some (m, .failed (.callDepthExceeded 3))) ∧
    ∃ m, (splitting.begin (.newInstance "A")).run
      ((splitting.loader.longest + 1) ^ splitting.options.maxDepth) =
        some (m, .failed (.callDepthExceeded 3)) := by
  have hloader : splitting.loader.LoopFree :=
    Loader.loopFree_defineAll 0 { verify := false } (by simpa using splittingClass_loopFree)
  have hstatic : ((splitting.begin (.invokeStatic splitRef [.int 1])).run
      ((splitting.loader.longest + 1) ^ splitting.options.maxDepth)).map Prod.snd =
        some (.failed (.callDepthExceeded 3)) := by decide +kernel
  have hnew : ((splitting.begin (.newInstance "A")).run
      ((splitting.loader.longest + 1) ^ splitting.options.maxDepth)).map Prod.snd =
        some (.failed (.callDepthExceeded 3)) := by decide +kernel
  obtain ⟨hstaticEnds, hnewEnds⟩ := calls_end splitting hloader
  refine ⟨hloader, ?_, ?_⟩
  · obtain ⟨m, outcome, hrun⟩ := hstaticEnds splitRef [.int 1]
    rw [hrun] at hstatic
    cases hstatic
    exact ⟨m, hrun⟩
  · obtain ⟨m, outcome, hrun⟩ := hnewEnds "A"
    rw [hrun] at hnew
    cases hnew
    exact ⟨m, hrun⟩

end Machine

end StackCode
