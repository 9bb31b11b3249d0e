import Mathlib
import StackCode.Proofs.Machine.Frame
import StackCode.Proofs.Machine.Perform
import StackCode.Proofs.Verifier.Worklist

/-!
# Verified programs are safe

Between steps every active body stands where some path of the verifier leads, on a stack that fits
what this path brings, and every caller waits for a result that makes its stack fit again. One step
keeps this, and so does a run. A call of a static method therefore ends with a result of its type,
at a null receiver, or at the limit of nested calls.
-/

namespace StackCode

/-- The ends of a run that verification does not exclude. -/
inductive Outcome.Safe (returns : Descriptor) : Outcome → Prop
  | returned {v : Option Value} : returns.Accepts v → Safe returns (.completed (.returned v))
  | nullReceiver (pc : Nat) (line : Option Nat) : Safe returns (.failed (.nullReference pc line))
  | tooDeep (limit : Nat) : Safe returns (.failed (.callDepthExceeded limit))

def MethodDefinition.withCode (d : MethodDefinition) (code : Code) : Body :=
  ⟨code, d.access, d.method.signature⟩

/-- An activation runs the body of a method that can be called, on locals of the right kinds. -/
structure Activation.Executes (a : Activation) (l : Loader) (d : MethodDefinition) : Prop where
  verified : ∃ h, (d.withCode a.code).verify = .ok h
  links : l.Links a.code
  plain : a.code.LoadsNoClass
  locals : a.locals.map Value.kind? = (d.withCode a.code).entry
  limit : a.stack.limit = a.code.maxStack

/-- Callers that wait for a result of a type; the outermost call has one of the type `outer`. -/
inductive Awaited (l : Loader) (outer : Descriptor) : Descriptor → List Activation → Prop
  | outermost : Awaited l outer outer []
  | caller {returns : Descriptor} {a : Activation} {d : MethodDefinition} {kinds : List Kind}
      {rest : List Activation} : a.Executes l d →
      (d.withCode a.code).Reaches (a.pc + 1) (returns.kind?.toList ++ kinds) → a.stack.Fits kinds →
      Awaited l outer d.method.signature.returns rest → Awaited l outer returns (a :: rest)

structure Configuration.Sound (c : Configuration) (l : Loader) (outer : Descriptor) : Prop where
  loader : c.machine.loader = l
  active : ∃ d kinds, c.active.Executes l d ∧ (d.withCode c.active.code).Reaches c.active.pc kinds ∧
    c.active.stack.Fits kinds ∧ Awaited l outer d.method.signature.returns c.callers

def Progress.Safe (l : Loader) (outer : Descriptor) : Progress → Prop
  | .running c => c.Sound l outer
  | .stopped _ outcome => outcome.Safe outer

theorem Body.Reaches.slotHeight_le {body : Body} {pc h : Nat} {stack : List Kind}
    (hr : body.Reaches pc stack) (hv : body.verify = .ok h) :
    slotHeight stack ≤ body.code.maxStack := by
  obtain ⟨_, hg, hle⟩ := (Body.verify_eq_ok_iff h).mp hv
  rcases hr.cases_leaves with ⟨_, rfl⟩ | ⟨p, flow, hl, _⟩
  · exact Nat.zero_le _
  · exact Nat.le_trans (hg.2 ⟨p, stack, flow, hl, rfl⟩) hle

theorem Activation.Executes.moved {a : Activation} {l : Loader} {d : MethodDefinition}
    (h : a.Executes l d) (pc : Nat) {t : Stack} (ht : t.limit = a.stack.limit) :
    ({ a with pc := pc, stack := t } : Activation).Executes l d :=
  ⟨h.verified, h.links, h.plain, h.locals, ht.trans h.limit⟩

/-! ## One step -/

section
variable {l : Loader} {outer : Descriptor} {c : Configuration} {d : MethodDefinition}
  {kinds : List Kind} {t : Stack} (hl : c.machine.loader = l) (he : c.active.Executes l d)
  (hfits : t.Fits kinds) (hlimit : t.limit = c.active.stack.limit)
  (hw : Awaited l outer d.method.signature.returns c.callers)
include hl he hfits hlimit hw

theorem Configuration.goTo_safe {pc : Nat} (hr : (d.withCode c.active.code).Reaches pc kinds) :
    (c.goTo pc t).Safe l outer :=
  ⟨hl, d, kinds, he.moved pc hlimit, hr, hfits, hw⟩

theorem Configuration.resume_safe {returns : Descriptor} {v : Option Value} (hv : returns.Accepts v)
    (hr : (d.withCode c.active.code).Reaches (c.active.pc + 1) (returns.kind?.toList ++ kinds)) :
    (c.resume t v).Safe l outer := by
  cases hk : returns.kind? with
  | none =>
    obtain rfl : v = none := by simpa [Descriptor.Accepts, hk] using hv
    rw [hk] at hr
    exact c.goTo_safe hl he hfits hlimit hw hr
  | some k =>
    obtain ⟨w, rfl, hkind⟩ : ∃ w, v = some w ∧ w.kind? = some k := by
      simpa [Descriptor.Accepts, hk] using hv
    rw [hk] at hr
    -- a result has room, since the caller was verified with it on its stack
    obtain ⟨h, hverify⟩ := he.verified
    have hroom : slotHeight (k :: kinds) ≤ t.limit := hlimit ▸ he.limit ▸ hr.slotHeight_le hverify
    obtain ⟨u, hpush, hu, hlimit', _⟩ := hfits.push hkind hroom
    simp only [resume, hpush]
    exact c.goTo_safe hl he hu (hlimit'.trans hlimit) hw hr

end

theorem Configuration.finish_safe {l : Loader} {outer returns : Descriptor} {c : Configuration}
    {v : Option Value} (hl : c.machine.loader = l) (hv : returns.Accepts v)
    (hw : Awaited l outer returns c.callers) : (c.finish (.returned v)).Safe l outer := by
  obtain ⟨m, active, callers⟩ := c
  cases hw with
  | outermost => exact .returned hv
  | @caller _ a d kinds rest he hr hfits hrest =>
    exact Configuration.resume_safe
      (c := ⟨{ m with depth := m.depth - callCount [active] }, a, rest⟩) hl he hfits
      rfl hrest hv hr

theorem Machine.enter_callable {m : Machine} {d : MethodDefinition} {vs : List Value}
    (hd : m.loader.Callable d) (hvs : d.Takes vs) :
    m.enter d vs = .error (.callDepthExceeded m.options.maxDepth) ∨
      (m.enter d vs = .ok (.finished none) ∧ d.method.signature.returns.Accepts none) ∨
      ∃ a, m.enter d vs = .ok (.started a) ∧ a.Executes m.loader d ∧ a.pc = 0 ∧
        a.stack.Fits [] := by
  unfold enter
  by_cases hdepth : m.options.maxDepth ≤ m.depth
  · exact .inl (if_pos hdepth)
  · rw [if_neg hdepth]
    cases hd with
    | @code code h hb hv hlinks hplain =>
      refine .inr (.inr ⟨.start code (some d.method) (argumentSlots vs), by rw [hb], ?_, rfl,
        Stack.fits_empty _⟩)
      refine ⟨⟨h, hv⟩, hlinks, hplain, ?_, rfl⟩
      simp only [Activation.start, Body.entry, MethodDefinition.withCode, List.map_toArray]
      exact congrArg List.toArray hvs
    | idle hb hrun hk =>
      refine .inr (.inl ⟨by simp only [hb, hrun], ?_⟩)
      rw [Descriptor.Accepts, hk]
      rfl

theorem Body.SoundPaths.leads {body : Body} (h : body.SoundPaths) {pc : Nat} {after : List Kind}
    {flow : Flow} {target : Label} (hl : body.Leaves pc after flow)
    (ht : flow.target? = some target) : ∃ p, body.code.position? target = some p := by
  obtain ⟨p, hp, _⟩ := h.targets pc after flow target hl ht
  exact ⟨p, position?_of_labelInfo? hp⟩

theorem Configuration.act_safe {l : Loader} {outer : Descriptor} {c : Configuration}
    {d : MethodDefinition} {after : List Kind} {flow : Flow} {action : Action}
    (hl : c.machine.loader = l) (he : c.active.Executes l d)
    (hw : Awaited l outer d.method.signature.returns c.callers)
    (hleaves : (d.withCode c.active.code).Leaves c.active.pc after flow)
    (hs : action.Suits l d.method.signature.returns c.active.stack.limit after flow) :
    (c.act action).Safe l outer := by
  obtain ⟨h, hverify⟩ := he.verified
  have hpaths := ((Body.verify_eq_ok_iff h).mp hverify).1
  cases hs with
  | proceed ht hlimit => exact c.goTo_safe hl he ht hlimit hw (hleaves.reaches .next)
  | past target ht hlimit => exact c.goTo_safe hl he ht hlimit hw (hleaves.reaches (.past target))
  | taken target ht hlimit =>
    obtain ⟨p, hp⟩ := hpaths.leads hleaves rfl
    have hp' : c.active.code.position? target = some p := hp
    simp only [act, hp']
    exact c.goTo_safe hl he ht hlimit hw (hleaves.reaches (.taken hp))
  | jumped target ht hlimit =>
    obtain ⟨p, hp⟩ := hpaths.leads hleaves rfl
    have hp' : c.active.code.position? target = some p := hp
    simp only [act, hp']
    exact c.goTo_safe hl he ht hlimit hw (hleaves.reaches (.jumped hp))
  | pushLiteral text hafter ht hlimit =>
    have hloader : (c.machine.literal text).2.loader = l :=
      (c.machine.literal_loader text).trans hl
    have hv : Descriptor.string.Accepts (some (.object (c.machine.literal text).1)) := rfl
    subst hafter
    exact Configuration.resume_safe (c := { c with machine := (c.machine.literal text).2 })
      hloader he ht hlimit hw hv (hleaves.reaches .next)
  | pushInstance ofClass hafter ht hlimit =>
    have hv : Descriptor.string.Accepts
        (some (.object (c.machine.allocate (.instance ofClass)).1)) := rfl
    subst hafter
    exact Configuration.resume_safe
      (c := { c with machine := (c.machine.allocate (.instance ofClass)).2 })
      hl he ht hlimit hw hv (hleaves.reaches .next)
  | @call t rest callee vs hd hvs hafter ht hlimit =>
    have hr := hafter ▸ hleaves.reaches .next
    rcases Machine.enter_callable (hl.symm ▸ hd) hvs with
      henter | ⟨henter, hnone⟩ | ⟨a, henter, ha, hpc, hempty⟩
    · simp only [act, henter]
      exact .tooDeep _
    · simp only [act, henter]
      exact c.resume_safe hl he ht hlimit hw hnone hr
    · simp only [act, henter]
      exact ⟨hl, callee, [], hl ▸ ha, hpc ▸ .start, hempty,
        .caller (he.moved c.active.pc hlimit) hr ht hw⟩
  | leave hv => exact c.finish_safe hl hv hw

theorem Configuration.Sound.step {c : Configuration} {l : Loader} {outer : Descriptor}
    (hloader : l.Sound) (h : c.Sound l outer) : c.step.Safe l outer := by
  obtain ⟨hl, d, kinds, he, hr, hfits, hw⟩ := h
  obtain ⟨n, hverify⟩ := he.verified
  obtain ⟨hpaths, hg, hle⟩ := (Body.verify_eq_ok_iff n).mp hverify
  have hpc : c.active.pc < c.active.code.instructions.size := hpaths.lt_size hr
  obtain ⟨i, hi⟩ : ∃ i, c.active.code.instructions[c.active.pc]? = some i :=
    ⟨_, Array.getElem?_eq_getElem hpc⟩
  -- the verifier's step from the stack that the path brings, and what it does to the top
  obtain ⟨after, flow, hstep⟩ := hpaths.runs _ _ i hr hi
  have hleaves : (d.withCode c.active.code).Leaves c.active.pc after flow :=
    ⟨kinds, i, hr, hi, hstep⟩
  have hheight : slotHeight after ≤ c.active.stack.limit := by
    rw [he.limit]
    exact Nat.le_trans (hg.2 ⟨_, _, _, hleaves, rfl⟩) hle
  obtain ⟨takes, puts, rest, heffect, rfl, rfl⟩ := Body.step_effect hstep
  have hmem : i ∈ c.active.code.instructions := Array.mem_of_getElem? hi
  have hperform := Machine.perform_suits (m := c.machine) (a := c.active) rfl (hl ▸ hloader)
    (fun sort index k href hk => hl ▸ he.links i hmem sort index k href hk)
    (fun index name hldc => he.plain index name (hldc ▸ hmem)) he.locals heffect hfits hheight
  unfold Configuration.step
  simp only [hi]
  rcases hperform with ⟨action, hok, hsuits⟩ | ⟨line, herror⟩
  · simp only [hok]
    exact c.act_safe hl he hw hleaves (hl ▸ hsuits)
  · simp only [herror]
    exact .nullReceiver _ line

theorem Progress.Safe.run {l : Loader} {outer : Descriptor} (hloader : l.Sound) {fuel : Nat}
    {p : Progress} {m : Machine} {outcome : Outcome} (h : p.Safe l outer)
    (hrun : p.run fuel = some (m, outcome)) : outcome.Safe outer := by
  have hsafe : (p.after fuel).Safe l outer :=
    after_induction (fun _ hc => Configuration.Sound.step hloader hc) h fuel
  rwa [run_eq_some.mp hrun] at hsafe

/-! ## Whole programs -/

theorem Machine.call_safe {m : Machine} {d : MethodDefinition} {vs : List Value}
    (hd : m.loader.Callable d) (hvs : d.Takes vs) :
    (m.call d vs).Safe m.loader d.method.signature.returns := by
  unfold call
  rcases Machine.enter_callable hd hvs with henter | ⟨henter, hnone⟩ | ⟨a, henter, ha, hpc, hempty⟩
  · simp only [henter]
    exact .tooDeep _
  · simp only [henter]
    exact .returned hnone
  · simp only [henter]
    exact ⟨rfl, d, [], ha, hpc ▸ .start, hempty, .outermost⟩

theorem Machine.invokeStatic_sound {m : Machine} (hloader : m.loader.Sound) {ref : MethodRef}
    {d : MethodDefinition} (hd : m.staticMethod ref = .ok d) {arguments : List Value}
    (hargs : arguments.map Value.kind? = d.method.signature.params.map Descriptor.kind?) :
    (m.invokeStatic ref arguments).Safe m.loader d.method.signature.returns := by
  obtain ⟨hfound, hstatic⟩ := staticMethod_eq_ok.mp hd
  obtain ⟨hcallable, _⟩ := hloader.loadedMethod? hfound
  have hcall : m.invokeStatic ref arguments = m.call d arguments := by
    simp only [invokeStatic, hd]
  rw [hcall]
  exact call_safe hcallable (takes_of_static hstatic hargs)

/-- **Verified and linked programs are safe.** A static method that a machine finds among classes
that were defined with verification ends, if it ends, with a result of its type, at a null receiver,
or at the limit of nested calls, whatever the machine has run before. -/
theorem Machine.invokeStatic_safe (number : Nat) (definitions : List ClassDefinition)
    (hplain : ∀ d ∈ definitions, d.Plain) (m : Machine)
    (hm : m.loader = (Loader.initial number { verify := true }).defineAll definitions)
    (ref : MethodRef) (d : MethodDefinition) (hd : m.staticMethod ref = .ok d)
    (arguments : List Value)
    (hargs : arguments.map Value.kind? = d.method.signature.params.map Descriptor.kind?)
    (fuel : Nat) (m' : Machine) (outcome : Outcome)
    (hrun : (m.invokeStatic ref arguments).run fuel = some (m', outcome)) :
    outcome.Safe d.method.signature.returns := by
  have hloader : m.loader.Sound := hm ▸ (Loader.sound_initial number _).defineAll rfl hplain
  exact (invokeStatic_sound hloader hd hargs).run hloader hrun

def sameRef : MethodRef := ⟨"A", ⟨"same", .mk ⟨[.int], .int⟩⟩⟩

def relayMethod : MethodDefinition where
  access := .staticFlag
  method := ⟨"relay", .mk ⟨[.int], .int⟩⟩
  body := .code ⟨#[.load .int 0, .invokeStatic 0, .leave (some .int)], #[.method sameRef], #[], [],
    [], 1, 1⟩

def relayClass : ClassDefinition where
  access := .publicFlag
  name := "A"
  superName := some Descriptor.rootClassName
  methods := [⟨.staticFlag, sameRef.method,
    .code ⟨#[.load .int 0, .leave (some .int)], #[], #[], [], [], 1, 1⟩⟩, relayMethod]

def relayMachine : Machine :=
  .initial ((Loader.initial 0 { verify := true }).defineAll [relayClass]) {} 0

theorem relayClass_plain : relayClass.Plain := by
  intro m hm
  simp only [relayClass, List.mem_cons, List.not_mem_nil, or_false] at hm
  rcases hm with rfl | rfl
  · exact ⟨_, rfl, by simp [Code.LoadsNoClass]⟩
  · exact ⟨_, rfl, by simp [Code.LoadsNoClass]⟩

theorem Machine.invokeStatic_safe_relay :
    relayMachine.staticMethod ⟨"A", relayMethod.method⟩ = .ok relayMethod ∧
      ∃ m, (relayMachine.invokeStatic ⟨"A", relayMethod.method⟩ [.int 7]).run 10 =
          some (m, .completed (.returned (some (.int 7)))) ∧
        Outcome.Safe .int (.completed (.returned (some (.int 7)))) := by
  have hd : relayMachine.staticMethod ⟨"A", relayMethod.method⟩ = .ok relayMethod := by cbv
  have hrun : ((relayMachine.invokeStatic ⟨"A", relayMethod.method⟩ [.int 7]).run 10).map Prod.snd =
      some (.completed (.returned (some (.int 7)))) := by cbv
  obtain ⟨⟨m, outcome⟩, hm, rfl⟩ := Option.map_eq_some_iff.mp hrun
  refine ⟨hd, m, hm, ?_⟩
  exact invokeStatic_safe 0 [relayClass] (by simpa using relayClass_plain) relayMachine rfl _
    relayMethod hd [.int 7] rfl 10 m _ hm

end StackCode
