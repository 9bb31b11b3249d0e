import Mathlib
import StackCode.Proofs.Emitter.Growth
import StackCode.Proofs.Emitter.Honesty
import StackCode.Proofs.Verifier.Worklist

/-!
# Tracked heights

What an emitter holds of the height is what paths bring: at an instruction emitted at a known height
every path has just this height, and the greatest height counts it. So the limit of a finished body
can only be too small for instructions that were emitted while the height was unknown, and that
paths reach all the same, backwards.
-/

namespace StackCode

/-! ## Heights held -/

def Request.heights : List Request → Emitter → List (Option Nat)
  | [], _ => []
  | r :: rs, e =>
    match r.apply e with
    | .ok e' => (if e.instructions.size < e'.instructions.size then [e.depth] else []) ++
      heights rs e'
    | .error _ => []

/-- The heights held just before each instruction that operations emit. -/
def Emitter.heights (os : List Operation) (e : Emitter) : List (Option Nat) :=
  Request.heights (Operation.requestsAll os e) e

/-! ## Instructions on all paths -/

/-- Some path brings a stack of a height to a position. -/
def Body.Brings (body : Body) (pc d : Nat) : Prop :=
  ∃ stack, body.Reaches pc stack ∧ slotHeight stack = d

section
variable {body : Body} (hp : body.SoundPaths)
include hp

theorem Body.Brings.leaves {pc d pops pushes : Nat} {i : Instruction} {flow : Flow}
    (hb : body.Brings pc d) (hi : body.code.instructions[pc]? = some i) (hle : pops ≤ d)
    (heffect : ∀ (takes puts : List Kind) (f : Flow), body.Effect body.entry i takes puts f →
      slotHeight puts + pops = slotHeight takes + pushes ∧ f = flow) :
    (∃ after, body.Leaves pc after flow ∧ slotHeight after = d - pops + pushes) ∧
      ∀ after f, body.Leaves pc after f → slotHeight after = d - pops + pushes := by
  obtain ⟨stack, hr, rfl⟩ := hb
  have hheight {after : List Kind} {f : Flow}
      (hstep : body.step body.entry pc stack i = .ok (after, f)) :
      slotHeight after = slotHeight stack - pops + pushes ∧ f = flow := by
    obtain ⟨takes, puts, rest, he, rfl, rfl⟩ := Body.step_effect hstep
    obtain ⟨hslots, hflow⟩ := heffect takes puts f he
    rw [slotHeight_append] at hle ⊢
    rw [slotHeight_append]
    exact ⟨by omega, hflow⟩
  constructor
  · obtain ⟨after, f, hstep⟩ := hp.runs pc stack i hr hi
    obtain ⟨hafter, rfl⟩ := hheight hstep
    exact ⟨after, ⟨stack, i, hr, hi, hstep⟩, hafter⟩
  · rintro after f ⟨before, j, hr', hj, hstep⟩
    -- all paths bring the same stack here, so one of them speaks for all
    obtain rfl := hp.agree pc stack before hr hr'
    obtain rfl := Option.some.inj (hi.symm.trans hj)
    exact (hheight hstep).1

end

theorem Body.Leaves.brings {body : Body} {pc next : Nat} {after : List Kind} {flow : Flow}
    (h : body.Leaves pc after flow) (hl : flow.Leads body.code pc next) :
    body.Brings next (slotHeight after) :=
  ⟨after, h.reaches hl, rfl⟩

/-! ## Requests that emit -/

theorem Flow.leads_of_target? {code : Code} {pc p : Nat} {flow : Flow} {l : Label}
    (h : flow.target? = some l) (hl : code.position? l = some p) : flow.Leads code pc p := by
  cases flow with
  | next | exit => cases h
  | branch => cases h; exact .taken hl
  | jump => cases h; exact .jumped hl

/-- An emitter emits an instruction that the verifier sees pop and push the slots counted. A height
that is still known afterwards, or new at a label, is the one that the instruction leaves. -/
structure Emitter.Emits (e e' : Emitter) (body : Body) (i : Instruction) (pops pushes : Nat)
    (flow : Flow) : Prop where
  instructions : e'.instructions = e.instructions.push i
  allows : e.Allows pops
  effect : ∀ (takes puts : List Kind) (f : Flow), body.Effect body.entry i takes puts f →
    slotHeight puts + pops = slotHeight takes + pushes ∧ f = flow
  maxStack : e'.maxStack = (e.shift pops pushes).maxStack
  depth : ∀ d, e'.depth = some d → (e.shift pops pushes).depth = some d ∧
    flow.Leads body.code e.instructions.size (e.instructions.size + 1)
  labels : ∀ (l : Label) (s : LabelState) (d : Nat), e'.labels[l.index]? = some s →
    s.depth = some d →
    (∃ t, e.labels[l.index]? = some t ∧ t.depth = some d) ∨
      ((e.shift pops pushes).depth = some d ∧ flow.target? = some l)

namespace Emitter

variable {e e' : Emitter} {body : Body} {pops pushes : Nat}

theorem emits_plain {i : Instruction} (hr : (Request.plain i pops pushes).Honest)
    (h : (Request.plain i pops pushes).apply e = .ok e') : e.Emits e' body i pops pushes .next := by
  obtain ⟨hallows, rfl⟩ := effect_eq_ok.mp h
  exact ⟨rfl, hallows, fun takes puts f => hr body body.entry takes puts f, rfl,
    fun d hd => ⟨hd, .next⟩, fun l s d hs hd => .inl ⟨s, hs, hd⟩⟩

theorem emits_pooled {use : PoolUse} {c : Constant} (hr : (Request.pooled use c pops pushes).Honest)
    (hs : e.Sound) (hc : body.code.Carries e')
    (h : (Request.pooled use c pops pushes).apply e = .ok e') :
    ∃ index, e.Emits e' body (use.instruction index) pops pushes .next := by
  obtain ⟨hallows, rfl⟩ := shrink_grow_eq_ok.mp h
  have hconstant : body.code.constant? (e.pool.add c).1 = some c :=
    hc.constants _ _ (hs.pool.getElem?_add_fst hc.overflowed)
  exact ⟨_, rfl, hallows, fun takes puts f => hr body body.entry _ takes puts f hconstant,
    rfl, fun d hd => ⟨hd, .next⟩, fun l s d hs hd => .inl ⟨s, hs, hd⟩⟩

theorem labels_branchTo {l : Label} (h : e.branchTo l = .ok e') {k : Label} {s : LabelState}
    {d : Nat} (hs : e'.labels[k.index]? = some s) (hd : s.depth = some d) :
    (∃ t, e.labels[k.index]? = some t ∧ t.depth = some d) ∨ (e.depth = some d ∧ l = k) := by
  obtain ⟨t, ht, _, rfl⟩ := branchTo_eq_ok h
  rw [labels_setLabel ht] at hs
  split at hs
  · rename_i heq
    cases hs
    rcases orElse_eq_some hd with hd | hd
    · exact .inl ⟨t, heq ▸ ht, hd⟩
    · exact .inr ⟨hd, eq_of_index heq.symm⟩
  · exact .inl ⟨s, hs, hd⟩

theorem emits_branch {i : Instruction} {l : Label} (hr : (Request.branch i pops l).Honest)
    (h : (Request.branch i pops l).apply e = .ok e') : e.Emits e' body i pops 0 (.branch l) := by
  obtain ⟨hallows, hb⟩ := branch_eq_ok h
  have hlabels := fun (k : Label) (s : LabelState) (d : Nat) =>
      labels_branchTo hb (k := k) (s := s) (d := d)
  obtain ⟨t, _, _, rfl⟩ := branchTo_eq_ok hb
  refine ⟨rfl, hallows, fun takes puts f => hr body body.entry takes puts f, rfl,
    fun d hd => ⟨hd, .past l⟩, fun k s d hs hd => ?_⟩
  rcases hlabels k s d hs hd with h | ⟨h, rfl⟩
  · exact .inl h
  · exact .inr ⟨h, rfl⟩

theorem emits_goto {l : Label} (h : (Request.goto l).apply e = .ok e') :
    e.Emits e' body (.goto l) 0 0 (.jump l) := by
  obtain ⟨e₁, hb, rfl⟩ := goto_eq_ok h
  have hlabels := fun (k : Label) (s : LabelState) (d : Nat) =>
      labels_branchTo hb (k := k) (s := s) (d := d)
  obtain ⟨t, _, _, rfl⟩ := branchTo_eq_ok hb
  refine ⟨rfl, fun d _ => Nat.zero_le d, fun takes puts f he => (by cases he; exact ⟨rfl, rfl⟩),
    rfl, fun d hd => (by cases hd), fun k s d hs hd => ?_⟩
  rcases hlabels k s d hs hd with h | ⟨h, rfl⟩
  · exact .inl h
  · exact .inr ⟨h, rfl⟩

theorem emits_leave {result : Option Kind} (hr : (Request.leave result pops).Honest)
    (h : (Request.leave result pops).apply e = .ok e') :
    e.Emits e' body (.leave result) pops 0 .exit := by
  obtain ⟨e₁, h₁, h⟩ := bind_eq_ok.mp h
  obtain ⟨hallows, rfl⟩ := effect_eq_ok.mp h₁
  cases h
  refine ⟨rfl, hallows, fun takes puts f he => ?_, rfl, fun d hd => (by cases hd),
    fun l s d hs hd => .inl ⟨s, hs, hd⟩⟩
  cases he
  exact ⟨(Nat.zero_add _).trans hr.symm, rfl⟩

theorem emits_or_quiet {r : Request} (hr : r.Honest) (hs : e.Sound) (hc : body.code.Carries e')
    (h : r.apply e = .ok e') :
    (∃ i pops pushes flow, e.Emits e' body i pops pushes flow) ∨
      (e'.instructions = e.instructions ∧ e'.maxStack = e.maxStack) := by
  cases r with
  | plain i pops pushes => exact .inl ⟨_, _, _, _, emits_plain hr h⟩
  | pooled use c pops pushes =>
    obtain ⟨index, hemits⟩ := emits_pooled hr hs hc h
    exact .inl ⟨_, _, _, _, hemits⟩
  | branch i pops target => exact .inl ⟨_, _, _, _, emits_branch hr h⟩
  | goto target => exact .inl ⟨_, _, _, _, emits_goto h⟩
  | leave result pops => exact .inl ⟨_, _, _, _, emits_leave hr h⟩
  | newLabel debugOnly =>
    cases h
    exact .inr ⟨rfl, rfl⟩
  | mark l =>
    obtain ⟨s, _, _, ⟨_, rfl⟩ | ⟨_, _, rfl⟩⟩ := mark_eq_ok h <;> exact .inr ⟨rfl, rfl⟩
  | reserve index type =>
    cases h
    exact .inr ⟨rfl, rfl⟩
  | visitLocal v =>
    have hannotates := annotates_of_visitLocal h
    exact .inr ⟨hannotates.instructions, hannotates.maxStack⟩
  | visitLine line start =>
    have hannotates := annotates_of_visitLine h
    exact .inr ⟨hannotates.instructions, hannotates.maxStack⟩

end Emitter

/-! ## What emitters know -/

namespace Emitter

/-- The height held, and those recorded at labels, are brought by paths of a body. -/
structure Knows (e : Emitter) (body : Body) : Prop where
  here : ∀ d, e.depth = some d → body.Brings e.instructions.size d
  labels : ∀ (l : Label) (s : LabelState) (d p : Nat), e.labels[l.index]? = some s →
    s.depth = some d → body.code.position? l = some p → body.Brings p d

theorem knows_initial (access : Access) (method : Method) (options : EmitOptions) (body : Body) :
    (initial access method options).Knows body where
  here d hd := by
    cases hd
    exact ⟨[], .start, rfl⟩
  labels l s d p hs := by simp [initial] at hs

theorem Knows.annotates {e e' : Emitter} {body : Body} (h : e.Knows body) (ha : e.Annotates e') :
    e'.Knows body where
  here d hd := by
    rw [ha.instructions]
    exact h.here d (ha.depth ▸ hd)
  labels l s d p hs hd hl := by
    have hbare := ha.getElem? l.index
    rw [hs, Option.map_some] at hbare
    obtain ⟨t, ht, hst⟩ := Option.map_eq_some_iff.mp hbare.symm
    exact h.labels l t d p ht ((LabelState.eq_of_bare hst).2.2.trans hd) hl

theorem labels_setLabel_brings {e : Emitter} {body : Body} {l : Label} {s t : LabelState}
    (h : e.Knows body) (hs : e.labels[l.index]? = some t)
    (hnew : ∀ d p, s.depth = some d → body.code.position? l = some p → body.Brings p d) (k : Label)
    (u : LabelState) (d p : Nat) (hu : (e.setLabel l s).labels[k.index]? = some u)
    (hd : u.depth = some d) (hk : body.code.position? k = some p) : body.Brings p d := by
  rw [labels_setLabel hs] at hu
  split at hu
  · rename_i heq
    obtain rfl : k = l := eq_of_index heq
    cases hu
    exact hnew d p hd hk
  · exact h.labels k u d p hu hd hk

theorem Emits.leaves {e e' : Emitter} {body : Body} {i : Instruction} {pops pushes d : Nat}
    {flow : Flow} (h : e.Emits e' body i pops pushes flow) (hp : body.SoundPaths)
    (hc : body.code.Carries e') (hk : e.Knows body) (hd : (e.shift pops pushes).depth = some d) :
    (∃ after, body.Leaves e.instructions.size after flow ∧ slotHeight after = d) ∧
      ∀ after f, body.Leaves e.instructions.size after f → slotHeight after = d := by
  obtain ⟨b, hb, rfl⟩ := Option.map_eq_some_iff.mp hd
  have hi : body.code.instructions[e.instructions.size]? = some i :=
    hc.instructions _ _ (by rw [h.instructions, Array.getElem?_push_size])
  exact (hk.here b hb).leaves hp hi (h.allows b hb) h.effect

theorem Emits.knows {e e' : Emitter} {body : Body} {i : Instruction} {pops pushes : Nat}
    {flow : Flow} (h : e.Emits e' body i pops pushes flow) (hp : body.SoundPaths)
    (hc : body.code.Carries e') (hk : e.Knows body) : e'.Knows body where
  here d hd := by
    obtain ⟨hshift, hnext⟩ := h.depth d hd
    obtain ⟨⟨after, hleaves, rfl⟩, _⟩ := h.leaves hp hc hk hshift
    rw [h.instructions, Array.size_push]
    exact hleaves.brings hnext
  labels l s d p hs hd hl := by
    rcases h.labels l s d hs hd with ⟨t, ht, hd⟩ | ⟨hshift, htarget⟩
    · exact hk.labels l t d p ht hd hl
    · obtain ⟨⟨after, hleaves, rfl⟩, _⟩ := h.leaves hp hc hk hshift
      exact hleaves.brings (Flow.leads_of_target? htarget hl)

theorem Knows.mark {e e' : Emitter} {body : Body} (h : e.Knows body) (hc : body.code.Carries e')
    {l : Label} (hm : e.mark l = .ok e') : e'.Knows body := by
  obtain ⟨s, hs, _, ⟨_, rfl⟩ | ⟨_, _, rfl⟩⟩ := mark_eq_ok hm
  · exact ⟨h.here, labels_setLabel_brings h hs fun d p hd hl => h.labels l s d p hs hd hl⟩
  · -- the label is at the present position, so what is known of either holds of both
    have hposition : body.code.position? l = some e.instructions.size :=
      hc.position? ((labels_setLabel hs l.index).trans (if_pos rfl)) rfl
    have hbrings (d : Nat) (hd : s.depth = some d ∨ e.depth = some d) :
        body.Brings e.instructions.size d := by
      rcases hd with hd | hd
      · exact h.labels l s d _ hs hd hposition
      · exact h.here d hd
    refine ⟨fun d hd => hbrings d (orElse_eq_some hd).symm,
      labels_setLabel_brings h hs fun d p hd hl => ?_⟩
    rw [hposition] at hl
    cases hl
    exact hbrings d (orElse_eq_some hd)

theorem Knows.newLabel {e : Emitter} {body : Body} (h : e.Knows body) (debugOnly : Bool) :
    (e.allocateLabel debugOnly).2.Knows body where
  here := h.here
  labels l s d p hs hd hl := by
    simp only [allocateLabel, Array.getElem?_push] at hs
    split at hs
    · cases hs
      cases hd
    · exact h.labels l s d p hs hd hl

theorem Knows.apply {e e' : Emitter} {body : Body} (h : e.Knows body) (hp : body.SoundPaths)
    (hs : e.Sound) (hc : body.code.Carries e') {r : Request} (hr : r.Honest)
    (ha : r.apply e = .ok e') : e'.Knows body := by
  cases r with
  | plain i pops pushes => exact (emits_plain hr ha).knows hp hc h
  | pooled use c pops pushes =>
    obtain ⟨index, hemits⟩ := emits_pooled hr hs hc ha
    exact hemits.knows hp hc h
  | branch i pops target => exact (emits_branch hr ha).knows hp hc h
  | goto target => exact (emits_goto ha).knows hp hc h
  | leave result pops => exact (emits_leave hr ha).knows hp hc h
  | newLabel debugOnly =>
    cases ha
    exact h.newLabel debugOnly
  | mark l => exact h.mark hc ha
  | reserve index type =>
    cases ha
    exact h.annotates (annotates_reserve ..)
  | visitLocal v => exact h.annotates (annotates_of_visitLocal ha)
  | visitLine line start => exact h.annotates (annotates_of_visitLine ha)

end Emitter

/-! ## Whole emissions -/

/-- **A height held is the height of all paths.** At an instruction that requests emit at a known
height paths bring this height, and the greatest height counts what the instruction leaves. -/
theorem Request.heights_sound {rs : List Request} {e e' : Emitter} {body : Body}
    (hp : body.SoundPaths) (hs : e.Sound) (hk : e.Knows body) (hr : ∀ r ∈ rs, r.Honest)
    (h : applyAll rs e = .ok e') (hc : body.code.Carries e') {n d : Nat}
    (hn : (heights rs e)[n]? = some (some d)) :
    body.Brings (e.instructions.size + n) d ∧
      ∀ after flow, body.Leaves (e.instructions.size + n) after flow →
        slotHeight after ≤ e'.maxStack := by
  induction rs generalizing e n with
  | nil => cases hn
  | cons r rs ih =>
    obtain ⟨e₁, h₁, h⟩ := bind_eq_ok.mp h
    have hc₁ := hc.of_extends (extends_applyAll h)
    have hk₁ := hk.apply hp hs hc₁ (hr r (by simp)) h₁
    have hrest {n : Nat} (hn : (heights rs e₁)[n]? = some (some d)) :=
      ih (hs.apply h₁) hk₁ (fun r hmem => hr r (by simp [hmem])) h hn
    simp only [heights, h₁] at hn
    rcases Emitter.emits_or_quiet (hr r (by simp)) hs hc₁ h₁ with
      ⟨i, pops, pushes, flow, hemits⟩ | ⟨hquiet, _⟩
    · have hsize : e₁.instructions.size = e.instructions.size + 1 := by
        rw [hemits.instructions, Array.size_push]
      rw [if_pos (by omega)] at hn
      cases n with
      | zero =>
        have hd : e.depth = some d := by simpa using hn
        have hshift : (e.shift pops pushes).depth = some (d - pops + pushes) := by
          simp [Emitter.shift, hd]
        -- the instruction is the one just emitted: what it leaves was counted with it
        have hmax : d - pops + pushes ≤ (e.shift pops pushes).maxStack := by
          simp only [Emitter.shift, hd, Option.elim_some]
          exact Nat.le_max_right ..
        refine ⟨hk.here d hd, fun after f hleaves => ?_⟩
        rw [(hemits.leaves hp hc₁ hk hshift).2 after f hleaves]
        exact (hmax.trans hemits.maxStack.ge).trans (extends_applyAll h).maxStack
      | succ n =>
        have hn' : (heights rs e₁)[n]? = some (some d) := by simpa using hn
        have hstep := hrest hn'
        rwa [hsize, Nat.add_assoc, Nat.add_comm 1] at hstep
    · rw [if_neg (by rw [hquiet]; omega), List.nil_append] at hn
      rw [← hquiet]
      exact hrest hn

theorem Request.size_heights {rs : List Request} {e e' : Emitter} {body : Body} (hs : e.Sound)
    (hr : ∀ r ∈ rs, r.Honest) (h : applyAll rs e = .ok e') (hc : body.code.Carries e') :
    e.instructions.size + (heights rs e).length = e'.instructions.size := by
  induction rs generalizing e with
  | nil => cases h; rfl
  | cons r rs ih =>
    obtain ⟨e₁, h₁, h⟩ := bind_eq_ok.mp h
    have hrest := ih (hs.apply h₁) (fun r hmem => hr r (by simp [hmem])) h
    simp only [heights, h₁]
    rcases Emitter.emits_or_quiet (hr r (by simp)) hs (hc.of_extends (extends_applyAll h)) h₁ with
      ⟨i, pops, pushes, flow, hemits⟩ | ⟨hquiet, _⟩
    · have hsize : e₁.instructions.size = e.instructions.size + 1 := by
        rw [hemits.instructions, Array.size_push]
      rw [if_pos (by omega), List.length_append, List.length_singleton, ← hrest, hsize,
        Nat.add_assoc]
    · rw [if_neg (by rw [hquiet]; omega), List.nil_append, ← hrest, hquiet]

section
variable {access : Access} {method : Method} {options : EmitOptions} {os : List Operation}
  {e : Emitter} {code : Code} (he : (Emitter.initial access method options).applyAll os = .ok e)
  (hf : e.finish = .ok code)
include he hf

theorem Emitter.length_heights :
    (heights os (initial access method options)).length = code.instructions.size := by
  have hhonest : ∀ r ∈ Operation.requestsAll os (initial access method options), r.Honest :=
    fun _ => Operation.honestAll
  have hc : (Body.mk code access method.signature).code.Carries e := carries_of_finish hf
  have hsize := Request.size_heights (sound_initial ..) hhonest (Operation.applyAll_requests he) hc
  have hempty : (initial access method options).instructions.size = 0 := rfl
  rw [hempty, Nat.zero_add] at hsize
  obtain ⟨rfl, _⟩ := finish_eq_ok hf
  exact hsize

theorem Emitter.unheld_or_le (hp : (Body.mk code access method.signature).SoundPaths) {pc : Nat}
    {after : List Kind} {flow : Flow}
    (hl : (Body.mk code access method.signature).Leaves pc after flow) :
    (heights os (initial access method options))[pc]? = some none ∨
      slotHeight after ≤ code.maxStack := by
  have hpc : pc < (heights os (initial access method options)).length := by
    obtain ⟨before, i, hr, _⟩ := hl
    rw [length_heights he hf]
    exact hp.lt_size hr
  rw [List.getElem?_eq_getElem hpc]
  cases hheld : (heights os (initial access method options))[pc] with
  | none => exact .inl rfl
  | some d =>
    have hn : (heights os (initial access method options))[pc]? = some (some d) := by
      rw [List.getElem?_eq_getElem hpc, hheld]
    have hc : (Body.mk code access method.signature).code.Carries e := carries_of_finish hf
    have hle := (Request.heights_sound hp (sound_initial ..) (knows_initial ..)
        (fun _ => Operation.honestAll) (Operation.applyAll_requests he) hc hn).2 after flow
    have hempty : (initial access method options).instructions.size = 0 := rfl
    rw [hempty, Nat.zero_add] at hle
    exact .inr ((hle hl).trans hc.maxStack)

end

/-- **When the limit of a finished body suffices.** Of a body that is sound but for its limit, the
verifier accepts the limit that was tracked exactly if no path runs an instruction that was emitted
at an unknown height and goes above it. Otherwise the limit is what it refuses. -/
theorem Emitter.verify_finish_iff (access : Access) (method : Method) (options : EmitOptions)
    (os : List Operation) (e : Emitter) (code : Code) (limit h : Nat)
    (he : (initial access method options).applyAll os = .ok e) (hf : e.finish = .ok code)
    (hv : (Body.mk { code with maxStack := limit } access method.signature).verify = .ok h) :
    ((Body.mk code access method.signature).verify = .ok h ↔
      ∀ pc after flow, (Body.mk code access method.signature).Leaves pc after flow →
        (heights os (initial access method options))[pc]? = some none →
          slotHeight after ≤ code.maxStack) ∧
      ((Body.mk code access method.signature).verify ≠ .ok h →
        (Body.mk code access method.signature).verify =
          .error (.maxStackTooSmall code.maxStack h)) := by
  have hlimit : Body.mk { code with maxStack := limit } access method.signature =
      (Body.mk code access method.signature).withLimit limit := rfl
  rw [hlimit, Body.verify_eq_ok_iff, Body.heights_withLimit] at hv
  obtain ⟨hpaths, hg, _⟩ := hv
  have hp := hpaths.of_withLimit
  refine ⟨⟨fun hok pc after flow hl _ => ?_, fun hunheld => ?_⟩, fun hno => ?_⟩
  · obtain ⟨_, hg, hle⟩ := (Body.verify_eq_ok_iff h).mp hok
    exact (hg.2 ⟨pc, after, flow, hl, rfl⟩).trans hle
  · refine (Body.verify_eq_ok_iff h).mpr ⟨hp, hg, ?_⟩
    -- the greatest height is attained, and only there can the limit be too small
    obtain ⟨pc, after, flow, hl, rfl⟩ := hg.1
    rcases unheld_or_le he hf hp hl with hnone | hle
    · exact hunheld pc after flow hl hnone
    · exact hle
  · rw [hp.verify_eq hg] at hno ⊢
    split_ifs at hno ⊢
    · rfl
    · exact absurd rfl hno

/-- A loop that is entered at its condition. Its body is marked where nothing is known of the
height, and uses two slots. -/
def conditionFirst : List Operation :=
  [.newLabel, .newLabel, .goto ⟨0⟩, .mark ⟨1⟩, .push (.int 7), .push (.int 8), .pop, .pop,
    .mark ⟨0⟩, .push (.bool true), .ifZero .ne ⟨1⟩, .returnValue]

theorem Emitter.endMethod_conditionFirst :
    ∃ e code, (initial .staticFlag ⟨"f", .nullaryVoid⟩ {}).applyAll conditionFirst = .ok e ∧
      e.finish = .ok code ∧
      (Body.mk { code with maxStack := 2 } .staticFlag .nullaryVoid).verify = .ok 2 ∧
      (Body.mk code .staticFlag .nullaryVoid).verify = .error (.maxStackTooSmall 1 2) ∧
      e.endMethod = .error (.verify (.maxStackTooSmall 1 2)) :=
  ⟨_, _, by cbv, by cbv, by cbv, by cbv, by cbv⟩

theorem Emitter.verify_finish_iff_conditionFirst :
    ∃ e code, (initial .staticFlag ⟨"f", .nullaryVoid⟩ {}).applyAll conditionFirst = .ok e ∧
      e.finish = .ok code ∧
      (Body.mk { code with maxStack := 2 } .staticFlag .nullaryVoid).verify = .ok 2 ∧
      ∃ pc after flow, (Body.mk code .staticFlag .nullaryVoid).Leaves pc after flow ∧
        (heights conditionFirst (initial .staticFlag ⟨"f", .nullaryVoid⟩ {}))[pc]? = some none ∧
        code.maxStack < slotHeight after := by
  obtain ⟨e, code, he, hf, hv, hrefused⟩ : ∃ e code,
      (initial .staticFlag ⟨"f", .nullaryVoid⟩ {}).applyAll conditionFirst = .ok e ∧
      e.finish = .ok code ∧
      (Body.mk { code with maxStack := 2 } .staticFlag .nullaryVoid).verify = .ok 2 ∧
      (Body.mk code .staticFlag .nullaryVoid).verify = .error (.maxStackTooSmall 1 2) :=
    ⟨_, _, by cbv, by cbv, by cbv, by cbv⟩
  refine ⟨e, code, he, hf, hv, ?_⟩
  have hiff := (verify_finish_iff .staticFlag ⟨"f", .nullaryVoid⟩ {} conditionFirst e code 2 2
    he hf hv).1
  have hno : (Body.mk code .staticFlag .nullaryVoid).verify ≠ .ok 2 := by
    rw [hrefused]
    exact fun heq => (by cases heq)
  have hsomewhere := mt hiff.mpr hno
  push Not at hsomewhere
  exact hsomewhere

end StackCode
