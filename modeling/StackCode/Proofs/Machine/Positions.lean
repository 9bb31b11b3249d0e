import StackCode.Proofs.Machine.History
import StackCode.Proofs.Verifier.Effect
import StackCode.Proofs.Verifier.Worklist

/-!
# Where running bodies stand

The instruction at a position decides where control goes from it, whatever the values are. So a body
stands only at positions that control reaches from its first instruction, and in a verified body some
path of the verifier leads to each of them. There every constant that an instruction names suits the
machine, unless `ldc` names a class: the verifier takes it for a reference, and the machine has no
value for it.
-/

namespace StackCode

/-! ## Where control may go -/

/-- The positions that control may go to after the instruction at `pc`. -/
inductive Instruction.Leads (code : Code) (pc : Nat) (i : Instruction) : Nat → Prop
  | past : i.endsBlock = false → Leads code pc i (pc + 1)
  | taken {l : Label} {p : Nat} : i.target? = some l → code.position? l = some p → Leads code pc i p

inductive Code.Visits (code : Code) : Nat → Prop
  | start : Visits code 0
  | move {pc next : Nat} {i : Instruction} : Visits code pc → code.instructions[pc]? = some i →
      i.Leads code pc next → Visits code next

theorem Body.Effect.leads {body : Body} {locals : Array (Option Kind)} {i : Instruction}
    {takes puts : List Kind} {flow : Flow} {pc next : Nat} (h : body.Effect locals i takes puts flow)
    (hl : i.Leads body.code pc next) : flow.Leads body.code pc next := by
  cases hl with
  | past hends =>
    cases h with
    | ifZero op l | ifInt op l | ifSame l | ifNull l | ifNonNull l => exact .past l
    | goto | leave => cases hends
    | _ => exact .next
  | taken htarget hp =>
    cases h with
    | ifZero | ifInt | ifSame | ifNull | ifNonNull => cases htarget; exact .taken hp
    | goto => cases htarget; exact .jumped hp
    | _ => cases htarget

theorem Body.SoundPaths.reaches_of_visits {body : Body} (h : body.SoundPaths) {pc : Nat}
    (hv : body.code.Visits pc) : ∃ stack, body.Reaches pc stack := by
  induction hv with
  | start => exact ⟨[], .start⟩
  | @move pc next i _ hi hl ih =>
    obtain ⟨before, hr⟩ := ih
    obtain ⟨after, flow, hstep⟩ := h.runs pc before i hr hi
    obtain ⟨takes, puts, rest, heffect, -, -⟩ := Body.step_effect hstep
    exact ⟨after, .move hr hi hstep (heffect.leads hl)⟩

/-! ## Constants -/

def Constant.hasValue : Constant → Bool
  | classRef _ | method _ => false
  | _ => true

def Instruction.uses : Instruction → Constant → Bool
  | ldc _, c => c.hasValue
  | ldc2 _, c => c.hasValue
  | new _, .classRef _ => true
  | invokeSpecial _, .method _ => true
  | invokeStatic _, .method _ => true
  | _, _ => false

theorem Body.Effect.uses {body : Body} {locals : Array (Option Kind)} {i : Instruction}
    {takes puts : List Kind} {flow : Flow} {index : UInt16}
    (h : body.Effect locals i takes puts flow) (hi : i.constantIndex? = some index) :
    (body.code.constant? index).any i.uses = true ∨
      i = .ldc index ∧ ∃ name, body.code.constant? index = some (.classRef name) := by
  cases h with
  | @ldc _ c k hc hk =>
    cases hi
    cases c with
    | classRef name => exact .inr ⟨rfl, name, hc⟩
    | method => cases hk
    | _ => exact .inl (by rw [hc]; rfl)
  | @ldc2 _ c k hc hk =>
    cases hi
    cases c with
    | classRef | method => cases hk
    | _ => exact .inl (by rw [hc]; rfl)
  | new hc | invokeSpecial hc | invokeStatic hc =>
    cases hi
    exact .inl (by rw [hc]; rfl)
  | _ => cases hi

/-! ## What instructions give -/

/-- An action lets its body go on only where the instruction leads. -/
inductive Action.Follows (i : Instruction) : Action → Prop
  | proceed (t : Stack) : i.endsBlock = false → Follows i (.proceed t)
  | pushLiteral (t : Stack) (text : String) : i.endsBlock = false → Follows i (.pushLiteral t text)
  | pushInstance (t : Stack) (c : ClassIdentity) :
      i.endsBlock = false → Follows i (.pushInstance t c)
  | jump (t : Stack) {l : Label} : i.target? = some l → Follows i (.jump t l)
  | call (t : Stack) (d : MethodDefinition) (arguments : List Value) :
      i.endsBlock = false → Follows i (.call t d arguments)
  | leave (v : Option Value) : Follows i (.leave v)

def Fault.SparesConstants (f : Fault) : Prop :=
  ∀ pc index, f ≠ .error (.badConstant pc index)

/-- The fault of an instruction: if a constant is to blame, then the one that the instruction names
and cannot use. -/
def Fault.From (a : Activation) (i : Instruction) (f : Fault) : Prop :=
  f.SparesConstants ∨ ∃ index, i.constantIndex? = some index ∧
    (a.code.constant? index).any i.uses = false ∧ f = .error (.badConstant a.pc index)

/-! ### Stacks -/

namespace Stack

variable (s : Stack) (pc : Nat)

theorem push_gives (v : Value) : Gives (fun _ => True) Fault.SparesConstants (s.push v) := by
  simp only [push]
  split
  · trivial
  · exact fun _ _ h => by cases h

theorem pop_gives : Gives (fun _ => True) Fault.SparesConstants (s.pop pc) := by
  unfold pop
  split
  · exact nofun
  · trivial

theorem popAs_gives (k : Kind) (view : Value → Option α) :
    Gives (fun _ => True) Fault.SparesConstants (s.popAs pc k view) := by
  refine (s.pop_gives pc).bind fun (v, t) => ?_
  simp only
  cases view v with
  | some a => trivial
  | none => exact nofun

theorem popMany_gives (n : Nat) (taken : List Value) :
    Gives (fun _ => True) Fault.SparesConstants (s.popMany pc n taken) := by
  induction n generalizing s taken with
  | zero => trivial
  | succ n ih => exact (s.pop_gives pc).bind fun p => ih p.2 _

end Stack

/-! ### Instructions -/

namespace Machine

variable {m : Machine} {a : Activation} {i : Instruction}

theorem push_follows (t : Stack) (v : Value) (hi : i.endsBlock = false) :
    Gives (Action.Follows i) Fault.SparesConstants
      (do return Action.proceed (← t.push v) : Except Fault Action) :=
  (t.push_gives v).bind fun u => .proceed u hi

theorem branchIf_follows (condition : Bool) (t : Stack) {l : Label} (hi : i.endsBlock = false)
    (hl : i.target? = some l) : (branchIf condition t l).Follows i := by
  cases condition with
  | true => exact .jump t hl
  | false => exact .proceed t hi

theorem load_gives {index : UInt16} (hi : i = .ldc index ∨ i = .ldc2 index) :
    Gives (Action.Follows i) (Fault.From a i) (load a index) := by
  have hends : i.endsBlock = false := by rcases hi with rfl | rfl <;> rfl
  have hpush (v : Value) : Gives (Action.Follows i) (Fault.From a i)
      (do return Action.proceed (← a.stack.push v) : Except Fault Action) :=
    (push_follows a.stack v hends).imp (fun _ h => h) fun _ => .inl
  cases hc : a.code.constant? index with
  | none =>
    simp only [load, hc]
    exact .inr ⟨index, by rcases hi with rfl | rfl <;> rfl, by simp [hc], rfl⟩
  | some c =>
    cases c with
    | int | float | long | double => simp only [load, hc]; exact hpush _
    | string text => simp only [load, hc]; exact .pushLiteral _ _ hends
    | classRef | method =>
      simp only [load, hc]
      refine .inr ⟨index, ?_, ?_, rfl⟩
      · rcases hi with rfl | rfl <;> rfl
      · rw [hc]
        rcases hi with rfl | rfl <;> rfl

theorem methodRef_gives {index : UInt16} (hi : i = .invokeSpecial index ∨ i = .invokeStatic index) :
    Gives (fun _ => True) (Fault.From a i) (methodRef a index) := by
  unfold methodRef
  split
  · trivial
  · rename_i hc
    refine .inr ⟨index, by rcases hi with rfl | rfl <;> rfl, ?_, rfl⟩
    cases hk : a.code.constant? index with
    | none => rfl
    | some c =>
      cases c with
      | method ref => exact absurd hk (hc ref)
      | _ => rcases hi with rfl | rfl <;> rfl

theorem staticMethod_gives (m : Machine) (ref : MethodRef) :
    Gives (fun _ => True) (fun e => (Fault.error e).SparesConstants) (m.staticMethod ref) := by
  unfold staticMethod
  split
  · exact nofun
  · split
    · split
      · trivial
      · exact nofun
    · exact nofun

theorem perform_gives (m : Machine) (a : Activation) (i : Instruction) :
    Gives (Action.Follows i) (Fault.From a i) (m.perform a i) := by
  have hspares {x : Except Fault Action} (h : Gives (Action.Follows i) Fault.SparesConstants x) :
      Gives (Action.Follows i) (Fault.From a i) x := h.imp (fun _ h => h) fun _ => .inl
  cases i with
  | nop => exact .proceed _ rfl
  | aconstNull | iconst | lconst | fconst | dconst | bipush | sipush =>
    exact hspares (push_follows _ _ rfl)
  | ldc => exact load_gives (.inl rfl)
  | ldc2 => exact load_gives (.inr rfl)
  | load k index =>
    simp only [perform]
    split
    · exact hspares (push_follows _ _ rfl)
    · exact .inl fun _ _ h => by cases h
  | pop => exact hspares ((a.stack.pop_gives a.pc).bind fun p => .proceed _ rfl)
  | pop2 =>
    refine hspares ((a.stack.pop_gives a.pc).bind ?_)
    rintro ⟨v, t⟩
    by_cases hv : v.size = 2
    · simp only [hv, if_true]
      exact .proceed t rfl
    · simp only [hv, if_false]
      exact (t.pop_gives a.pc).bind fun q => .proceed _ rfl
  | dup => exact hspares ((a.stack.pop_gives a.pc).bind fun p => push_follows _ _ rfl)
  | dup2 =>
    refine hspares ((a.stack.pop_gives a.pc).bind ?_)
    rintro ⟨v, t⟩
    by_cases hv : v.size = 2
    · simp only [hv, if_true]
      exact (t.push_gives _).bind fun s => push_follows _ _ rfl
    · simp only [hv, if_false]
      refine (t.pop_gives a.pc).bind ?_
      rintro ⟨w, u⟩
      refine (u.push_gives _).bind fun s₁ => ?_
      refine (s₁.push_gives _).bind fun s₂ => ?_
      exact (s₂.push_gives _).bind fun s₃ => push_follows _ _ rfl
  | convert c => exact hspares ((a.stack.popAs_gives a.pc _ _).bind fun p => push_follows _ _ rfl)
  | reduce r =>
    refine hspares ((a.stack.popAs_gives a.pc _ _).bind fun p => ?_)
    exact (p.2.popAs_gives a.pc _ _).bind fun q => push_follows _ _ rfl
  | ifZero op l | ifNull l | ifNonNull l =>
    exact hspares ((a.stack.popAs_gives a.pc _ _).bind fun p => branchIf_follows _ _ rfl rfl)
  | ifInt op l =>
    refine hspares ((a.stack.popAs_gives a.pc _ _).bind fun p => ?_)
    exact (p.2.popAs_gives a.pc _ _).bind fun q => branchIf_follows _ _ rfl rfl
  | ifSame op l =>
    have hreference (v : Value) : Gives (fun _ => True) Fault.SparesConstants
        (if v.kind? = some .reference then .ok ()
          else .error (.error (.unexpectedValue a.pc .reference v.kind?)) : Except Fault Unit) := by
      split
      · trivial
      · exact fun _ _ h => by cases h
    refine hspares ((a.stack.pop_gives a.pc).bind fun p => ?_)
    refine (p.2.pop_gives a.pc).bind fun q => ?_
    refine (hreference q.1).bind fun _ => (hreference p.1).bind fun _ => ?_
    cases op with
    | eq | ne => exact branchIf_follows _ _ rfl rfl
    | _ => exact fun _ _ h => by cases h
  | goto l => exact .jump _ rfl
  | new index =>
    cases hc : a.code.constant? index with
    | none =>
      simp only [perform, hc]
      exact .inr ⟨index, rfl, by rw [hc]; rfl, rfl⟩
    | some c =>
      cases c with
      | classRef name =>
        simp only [perform, hc]
        split
        · exact .pushInstance _ _ rfl
        · exact .inl fun _ _ h => by cases h
      | _ =>
        simp only [perform, hc]
        exact .inr ⟨index, rfl, by rw [hc]; rfl, rfl⟩
  | invokeSpecial index =>
    refine (methodRef_gives (.inl rfl)).bind fun ref => hspares ?_
    refine (a.stack.popMany_gives a.pc _ _).bind ?_
    rintro ⟨arguments, t⟩
    refine (t.pop_gives a.pc).bind ?_
    rintro ⟨receiver, u⟩
    by_cases hnull : receiver.isNull = true
    · simp only [hnull, if_true]
      exact fun _ _ h => by cases h
    · simp only [hnull, specialMethod]
      cases (m.loader.class? ref.owner).bind fun c => c.declaredMethod? ref.method with
      | some d => exact .call _ _ _ rfl
      | none => exact fun _ _ h => by cases h
  | invokeStatic index =>
    refine (methodRef_gives (.inr rfl)).bind fun ref => hspares ?_
    refine (a.stack.popMany_gives a.pc _ _).bind ?_
    rintro ⟨arguments, t⟩
    have hfound := m.staticMethod_gives ref
    cases hm : m.staticMethod ref with
    | ok d => exact .call _ _ _ rfl
    | error e => rw [hm] at hfound; exact hfound
  | leave result =>
    cases result with
    | none => exact .leave none
    | some k => exact hspares ((a.stack.pop_gives a.pc).bind fun p => .leave _)

theorem perform_badConstant_iff {pc : Nat} {index : UInt16} :
    m.perform a i = .error (.error (.badConstant pc index)) ↔
      pc = a.pc ∧ i.constantIndex? = some index ∧
        (a.code.constant? index).any i.uses = false := by
  constructor
  · intro h
    have hgives := perform_gives m a i
    rw [h] at hgives
    rcases hgives with hspared | ⟨index', hi, huses, he⟩
    · exact absurd rfl (hspared pc index)
    · cases he
      exact ⟨rfl, hi, huses⟩
  · rintro ⟨rfl, hi, huses⟩
    cases i with
    | ldc | ldc2 =>
      cases hi
      simp only [perform, load]
      cases hc : a.code.constant? index with
      | none => rfl
      | some c =>
        rw [hc] at huses
        cases c with
        | classRef | method => rfl
        | _ => cases huses
    | new | invokeSpecial | invokeStatic =>
      cases hi
      simp only [perform, methodRef]
      cases hc : a.code.constant? index with
      | none => rfl
      | some c =>
        rw [hc] at huses
        cases c <;> first | rfl | cases huses
    | _ => cases hi

end Machine

/-! ## One step and a run -/

def Awaiting (callers : List Activation) : Prop := ∀ a ∈ callers, a.code.Visits (a.pc + 1)

structure Configuration.Placed (c : Configuration) : Prop where
  active : c.active.code.Visits c.active.pc
  callers : Awaiting c.callers

def Progress.Placed : Progress → Prop
  | .running c => c.Placed
  | .stopped _ _ => True

namespace Configuration

variable (c : Configuration)

theorem stop_placed (f : Fault) : (c.stop f).Placed := by
  cases f <;> trivial

variable {c} (hw : Awaiting c.callers)
include hw

theorem resume_placed (hnext : c.active.code.Visits (c.active.pc + 1)) (t : Stack)
    (v : Option Value) : (c.resume t v).Placed := by
  cases v with
  | none => exact ⟨hnext, hw⟩
  | some v =>
    simp only [resume]
    cases t.push v with
    | ok u => exact ⟨hnext, hw⟩
    | error f => exact c.stop_placed f

theorem finish_placed (completion : Completion) : (c.finish completion).Placed := by
  obtain ⟨m, active, callers⟩ := c
  cases callers with
  | nil => trivial
  | cons a rest =>
    obtain ⟨ha, hrest⟩ := List.forall_mem_cons.mp hw
    exact resume_placed (c := ⟨_, a, rest⟩) hrest ha _ _

end Configuration

theorem Machine.pc_of_enter {m : Machine} {d : MethodDefinition} {vs : List Value} {a : Activation}
    (h : m.enter d vs = .ok (.started a)) : a.pc = 0 := by
  obtain ⟨-, _, -, rfl⟩ := start_of_enter h
  rfl

theorem Configuration.Placed.act {c : Configuration} {i : Instruction} {action : Action}
    (h : c.Placed) (hi : c.active.code.instructions[c.active.pc]? = some i)
    (ha : action.Follows i) : (c.act action).Placed := by
  have hpast (hends : i.endsBlock = false) : c.active.code.Visits (c.active.pc + 1) :=
    .move h.active hi (.past hends)
  cases ha with
  | proceed t hends => exact ⟨hpast hends, h.callers⟩
  | pushLiteral t text hends =>
    exact resume_placed (c := { c with machine := (c.machine.literal text).2 }) h.callers
      (hpast hends) t (some (.object (c.machine.literal text).1))
  | pushInstance t ofClass hends =>
    exact resume_placed (c := { c with machine := (c.machine.allocate (.instance ofClass)).2 })
      h.callers (hpast hends) t (some (.object (c.machine.allocate (.instance ofClass)).1))
  | jump t hl =>
    simp only [Configuration.act]
    split
    · rename_i pc hp
      exact ⟨.move h.active hi (.taken hl hp), h.callers⟩
    · exact c.stop_placed _
  | call t d arguments hends =>
    simp only [Configuration.act]
    split
    · exact c.stop_placed _
    · exact resume_placed h.callers (hpast hends) t _
    · rename_i a hentered
      refine ⟨?_, List.forall_mem_cons.mpr ⟨hpast hends, h.callers⟩⟩
      exact Machine.pc_of_enter hentered ▸ .start
  | leave v => exact finish_placed h.callers _

theorem Configuration.Placed.step {c : Configuration} (h : c.Placed) : c.step.Placed := by
  simp only [Configuration.step]
  cases hi : c.active.code.instructions[c.active.pc]? with
  | some i =>
    simp only
    have hgives := Machine.perform_gives c.machine c.active i
    cases hp : c.machine.perform c.active i with
    | ok action => rw [hp] at hgives; exact h.act hi hgives
    | error f => exact c.stop_placed f
  | none =>
    simp only
    cases c.active.method with
    | some m => exact c.stop_placed _
    | none => exact finish_placed h.callers _

theorem Progress.Placed.after {p : Progress} (h : p.Placed) (n : Nat) : (p.after n).Placed :=
  after_induction (fun _ hc => Configuration.Placed.step hc) h n

theorem Machine.begin_placed (m : Machine) (task : Task) : (m.begin task).Placed := by
  rcases m.begin_cases task with ⟨m', outcome, hstopped, -⟩ | ⟨m', code, method, locals, hstarted⟩
  · rw [hstopped]
    trivial
  · rw [hstarted]
    exact ⟨.start, nofun⟩

/-! ## Constants of verified code -/

/-- The active instruction fails with an error of its own; a method called may fail otherwise. -/
def Configuration.Raises (c : Configuration) (e : ExecutionError) : Prop :=
  ∃ i, c.active.code.instructions[c.active.pc]? = some i ∧
    c.machine.perform c.active i = .error (.error e)

/-- **Verified code meets a bad constant where it is to push a class, and nowhere else.** Whatever a
machine runs, and with whatever classes, locals and arguments: while a verified body is active, its
instruction reports a bad constant exactly if it is an `ldc` of a class. -/
theorem Machine.raises_badConstant_iff (body : Body) {height : Nat}
    (hverified : body.verify = .ok height) (m : Machine) (task : Task) (n : Nat) (c : Configuration)
    (hc : (m.begin task).after n = .running c) (hcode : c.active.code = body.code) (pc : Nat)
    (index : UInt16) :
    c.Raises (.badConstant pc index) ↔
      pc = c.active.pc ∧ body.code.instructions[pc]? = some (.ldc index) ∧
        ∃ name, body.code.constant? index = some (.classRef name) := by
  have hplaced : c.Placed := by
    have h := (m.begin_placed task).after n
    rwa [hc] at h
  obtain ⟨hpaths, -, -⟩ := (Body.verify_eq_ok_iff height).mp hverified
  obtain ⟨stack, hreaches⟩ := hpaths.reaches_of_visits (hcode ▸ hplaced.active)
  constructor
  · rintro ⟨i, hi, hraised⟩
    obtain ⟨rfl, hindex, huses⟩ := perform_badConstant_iff.mp hraised
    rw [hcode] at hi huses
    -- the verifier's step through the instruction has looked at the same constant
    obtain ⟨after, flow, hstep⟩ := hpaths.runs _ _ i hreaches hi
    obtain ⟨takes, puts, rest, heffect, -, -⟩ := Body.step_effect hstep
    rcases heffect.uses hindex with hused | ⟨rfl, hclass⟩
    · rw [huses] at hused
      cases hused
    · exact ⟨rfl, hi, hclass⟩
  · rintro ⟨rfl, hi, name, hclass⟩
    refine ⟨.ldc index, hcode ▸ hi, perform_badConstant_iff.mpr ⟨rfl, rfl, ?_⟩⟩
    rw [hcode, hclass]
    rfl

def classLiteralBody : Body where
  code := ⟨#[.ldc 0, .pop, .ldc 1, .leave (some .reference)], #[.string "a", .classRef "A"], #[],
    [], [], 1, 0⟩
  access := .staticFlag
  signature := .mk ⟨[], .string⟩

def emptyMachine : Machine := .initial (.initial 0 {}) {} 0

theorem Machine.raises_badConstant_iff_classLiteral :
    classLiteralBody.verify = .ok 1 ∧
      ∃ c, (emptyMachine.begin (.execute classLiteralBody.code [])).after 2 = .running c ∧
        c.active.code = classLiteralBody.code ∧ (c.Raises (.badConstant 2 1) ↔
          2 = c.active.pc ∧ classLiteralBody.code.instructions[2]? = some (.ldc 1) ∧
            ∃ name, classLiteralBody.code.constant? 1 = some (.classRef name)) := by
  have hv : classLiteralBody.verify = .ok 1 := by cbv
  exact ⟨hv, _, rfl, rfl,
    raises_badConstant_iff _ hv emptyMachine (.execute classLiteralBody.code []) 2 _ rfl rfl 2 1⟩

theorem Machine.execute_classLiteral :
    classLiteralBody.verify = .ok 1 ∧
      ([] : List Value).map Value.kind? =
        entryLocals classLiteralBody.access classLiteralBody.signature ∧
      (∃ c, (emptyMachine.execute classLiteralBody.code []).after 2 = .running c ∧
        c.active.code = classLiteralBody.code ∧ c.Raises (.badConstant 2 1)) ∧
      ((emptyMachine.execute classLiteralBody.code []).run 3).map Prod.snd =
        some (.failed (.badConstant 2 1)) :=
  ⟨by cbv, rfl, ⟨_, rfl, rfl, _, rfl, rfl⟩, rfl⟩

end StackCode
