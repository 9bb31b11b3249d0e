import StackCode.Proofs.Emitter.Height

/-!
# Exact heights

A height held is brought by paths, and the converse needs one condition: no branch at a known height
goes back to a label that was marked where nothing was known of the height. Then the emitter knows
the height at just the instructions that paths reach. It holds what the verifier's frames have, and
the limit it tracks is the height that the verifier finds.
-/

namespace StackCode

/-! ## Labels marked blindly -/

namespace Request

def target? : Request → Option Label
  | branch _ _ l | goto l => some l
  | _ => none

/-- The label that a request marks where nothing is known of the height: the emitter holds none, and
none is recorded at the label. -/
def blindMark? (e : Emitter) : Request → Option Label
  | mark l =>
    if e.depth.isNone && ((e.labels[l.index]?).bind LabelState.depth).isNone then some l else none
  | _ => none

/-- Whether no branch at a known height goes to one of the labels `blind`, which were marked blindly,
or to one that the requests themselves mark so before. -/
def headsKnown (blind : List Label) : List Request → Emitter → Bool
  | [], _ => true
  | r :: rs, e =>
    (e.depth.isNone || r.target?.all fun l => !blind.contains l) &&
      match r.apply e with
      | .ok e' => headsKnown ((r.blindMark? e).toList ++ blind) rs e'
      | .error _ => true

end Request

/-- Whether no branch that operations emit at a known height goes to a label that they marked before
while the height was unknown and none was recorded at the label. -/
def Emitter.headsKnown (os : List Operation) (e : Emitter) : Bool :=
  Request.headsKnown [] (Operation.requestsAll os e) e

/-! ## Positions of known height -/

/-- The height is known at a position: one of an instruction emitted, or the one after them, which
has the present height. -/
def Known (held : List (Option Nat)) (depth : Option Nat) (pc : Nat) : Prop :=
  ∃ d, (held ++ [depth])[pc]? = some (some d)

section
variable {held : List (Option Nat)} {depth depth' : Option Nat} {pc : Nat}

theorem getElem?_concat_cases {x : Option Nat} (h : (held ++ [depth])[pc]? = some x) :
    held[pc]? = some x ∨ (pc = held.length ∧ depth = x) := by
  by_cases hlt : pc < held.length
  · rw [List.getElem?_append_left hlt] at h
    exact .inl h
  · have hle := (List.getElem?_eq_some_iff.mp h).1
    rw [List.length_append, List.length_singleton] at hle
    obtain rfl : pc = held.length := by omega
    rw [List.getElem?_concat_length] at h
    exact .inr ⟨rfl, Option.some.inj h⟩

theorem known_of_getElem? {d : Nat} (h : held[pc]? = some (some d)) : Known held depth pc := by
  have hlt := (List.getElem?_eq_some_iff.mp h).1
  exact ⟨d, by rw [List.getElem?_append_left hlt, h]⟩

theorem known_length (h : depth.isSome) : Known held depth held.length := by
  obtain ⟨d, rfl⟩ := Option.isSome_iff_exists.mp h
  exact ⟨d, List.getElem?_concat_length⟩

theorem Known.emit (h : Known held depth pc) : Known (held ++ [depth]) depth' pc := by
  obtain ⟨d, hd⟩ := h
  exact known_of_getElem? hd

theorem Known.mono (h : Known held depth pc) (hd : depth.isSome → depth'.isSome) :
    Known held depth' pc := by
  obtain ⟨d, hpc⟩ := h
  rcases getElem?_concat_cases hpc with hpc | ⟨rfl, rfl⟩
  · exact known_of_getElem? hpc
  · exact known_length (hd rfl)

theorem Known.getElem? (h : Known held depth pc) (hlt : pc < held.length) :
    ∃ d, held[pc]? = some (some d) := by
  obtain ⟨d, hpc⟩ := h
  exact ⟨d, by rwa [List.getElem?_append_left hlt] at hpc⟩

end

/-! ## What branches record -/

def Flow.passes : Flow → Prop
  | next | branch _ => True
  | jump _ | exit => False

namespace Emitter

structure Records (e e' : Emitter) (flow : Flow) : Prop where
  passes : flow.passes → e.depth.isSome → e'.depth.isSome
  target : ∀ l, flow.target? = some l → e.depth.isSome →
    ∃ s, e'.labels[l.index]? = some s ∧ s.depth.isSome
  labels : ∀ (l : Label) (s' : LabelState), e'.labels[l.index]? = some s' →
    ∃ s, e.labels[l.index]? = some s ∧ s'.position = s.position ∧ s'.debugOnly = s.debugOnly ∧
      (s'.depth = s.depth ∨ (s.depth = none ∧ e.depth.isSome ∧ flow.target? = some l))

theorem isSome_shift {e : Emitter} {pops pushes : Nat} :
    (e.shift pops pushes).depth.isSome = e.depth.isSome := Option.isSome_map

theorem records_of_labels {e e' : Emitter} {flow : Flow} (hl : e'.labels = e.labels)
    (hf : flow.target? = none) (hd : flow.passes → e.depth.isSome → e'.depth.isSome) :
    e.Records e' flow where
  passes := hd
  target l h := by rw [hf] at h; cases h
  labels l s' hs' := ⟨s', hl ▸ hs', rfl, rfl, .inl rfl⟩

theorem records_branchTo {e e₁ e' : Emitter} {flow : Flow} {l : Label} {pops : Nat}
    {i : Instruction} (h : ((e.append i).shift pops 0).branchTo l = .ok e₁)
    (hl : e'.labels = e₁.labels) (hf : flow.target? = some l)
    (hd : flow.passes → e.depth.isSome → e'.depth.isSome) : e.Records e' flow := by
  obtain ⟨s, hs, _, rfl⟩ := branchTo_eq_ok h
  have hsome : ((e.append i).shift pops 0).depth.isSome = e.depth.isSome := isSome_shift
  have hset := labels_setLabel (s := { s with
    referenced := true, depth := s.depth <|> ((e.append i).shift pops 0).depth }) hs
  refine ⟨hd, fun k hk he => ?_, fun k s' hs' => ?_⟩
  · obtain rfl : l = k := Option.some.inj (hf.symm.trans hk)
    refine ⟨_, by rw [hl, hset, if_pos rfl], ?_⟩
    rw [← hsome] at he
    cases hsd : s.depth with
    | some d => rfl
    | none => exact he
  · rw [hl, hset] at hs'
    split at hs'
    · rename_i heq
      obtain rfl := eq_of_index heq
      cases hs'
      refine ⟨s, hs, rfl, rfl, ?_⟩
      cases hsd : s.depth with
      | some d => exact .inl rfl
      | none =>
        by_cases he : e.depth.isSome
        · exact .inr ⟨rfl, he, hf⟩
        · rw [← hsome] at he
          exact .inl (by simpa using he)
    · exact ⟨s', hs', rfl, rfl, .inl rfl⟩

/-! ## Where the height is known -/

/-- `held` has the heights before the instructions emitted so far. Wherever control goes on from a
known one, the height is known; a label that is marked and has no height is one of `blind`. -/
structure Covers (e : Emitter) (body : Body) (held : List (Option Nat)) (blind : List Label) :
    Prop where
  length : held.length = e.instructions.size
  entry : Known held e.depth 0
  past : ∀ pc d after flow, held[pc]? = some (some d) → body.Leaves pc after flow →
    flow.passes → Known held e.depth (pc + 1)
  taken : ∀ pc d after flow l, held[pc]? = some (some d) → body.Leaves pc after flow →
    flow.target? = some l → ∃ s, e.labels[l.index]? = some s ∧ s.depth.isSome
  heads : ∀ (l : Label) (s : LabelState) (p : Nat), e.labels[l.index]? = some s →
    s.debugOnly = false → s.position = some p →
    (s.depth.isSome ∧ Known held e.depth p) ∨ (s.depth = none ∧ l ∈ blind)

theorem covers_initial (access : Access) (method : Method) (options : EmitOptions) (body : Body) :
    (initial access method options).Covers body [] [] where
  length := rfl
  entry := known_length rfl
  past pc d after flow h := by cases h
  taken pc d after flow l h := by cases h
  heads l s p h := by simp [initial] at h

section
variable {e e' : Emitter} {body : Body} {held : List (Option Nat)} {blind : List Label}

theorem Emits.flow_eq {i : Instruction} {pops pushes : Nat} {flow f : Flow} {after : List Kind}
    (h : e.Emits e' body i pops pushes flow) (hc : body.code.Carries e')
    (hl : body.Leaves e.instructions.size after f) : f = flow := by
  obtain ⟨before, j, _, hj, hstep⟩ := hl
  have hi : body.code.instructions[e.instructions.size]? = some i :=
    hc.instructions _ _ (by rw [h.instructions, Array.getElem?_push_size])
  obtain rfl := Option.some.inj (hi.symm.trans hj)
  obtain ⟨takes, puts, _, heffect, _, _⟩ := Body.step_effect hstep
  exact (h.effect takes puts f heffect).2

theorem Covers.taken_extends (h : e.Covers body held blind) (hx : e.Extends e') {pc d : Nat}
    {after : List Kind} {flow : Flow} {l : Label} (hpc : held[pc]? = some (some d))
    (hl : body.Leaves pc after flow) (hf : flow.target? = some l) :
    ∃ s, e'.labels[l.index]? = some s ∧ s.depth.isSome := by
  obtain ⟨s, hs, hsome⟩ := h.taken pc d after flow l hpc hl hf
  obtain ⟨s', hs', hkeeps⟩ := hx.labels l.index s hs
  obtain ⟨b, hb⟩ := Option.isSome_iff_exists.mp hsome
  exact ⟨s', hs', by rw [hkeeps.depth b hb]; rfl⟩

theorem Covers.emit {i : Instruction} {pops pushes : Nat} {flow : Flow}
    (h : e.Covers body held blind) (he : e.Emits e' body i pops pushes flow)
    (hr : e.Records e' flow) (hx : e.Extends e') (hc : body.code.Carries e')
    (hb : ∀ l, flow.target? = some l → e.depth.isSome → l ∉ blind) :
    e'.Covers body (held ++ [e.depth]) blind where
  length := by rw [List.length_append, h.length, he.instructions, Array.size_push]; rfl
  entry := h.entry.emit
  past pc d after f hpc hl hf := by
    rcases getElem?_concat_cases hpc with hpc | ⟨rfl, hd⟩
    · exact (h.past pc d after f hpc hl hf).emit
    · rw [h.length] at hl
      obtain rfl := he.flow_eq hc hl
      have hlast : Known (held ++ [e.depth]) e'.depth (held ++ [e.depth]).length :=
        known_length (hr.passes hf (by rw [hd]; rfl))
      rwa [List.length_append] at hlast
  taken pc d after f l hpc hl hf := by
    rcases getElem?_concat_cases hpc with hpc | ⟨rfl, hd⟩
    · exact h.taken_extends hx hpc hl hf
    · rw [h.length] at hl
      obtain rfl := he.flow_eq hc hl
      exact hr.target l hf (by rw [hd]; rfl)
  heads l s' p hs' hdebug hp := by
    obtain ⟨s, hs, hposition, hdebug', hdepth⟩ := hr.labels l s' hs'
    rw [hposition] at hp
    rw [hdebug'] at hdebug
    rcases h.heads l s p hs hdebug hp with ⟨hsd, hknown⟩ | ⟨hsd, hmem⟩
    · rcases hdepth with hdepth | ⟨hnone, _⟩
      · exact .inl ⟨hdepth ▸ hsd, hknown.emit⟩
      · rw [hnone] at hsd
        cases hsd
    · rcases hdepth with hdepth | ⟨_, he, hf⟩
      · exact .inr ⟨hdepth.trans hsd, hmem⟩
      · exact absurd hmem (hb l hf he)

theorem Covers.quiet {blind' : List Label} (h : e.Covers body held blind) (hx : e.Extends e')
    (hi : e'.instructions = e.instructions) (hd : e.depth.isSome → e'.depth.isSome)
    (hheads : ∀ (l : Label) (s : LabelState) (p : Nat), e'.labels[l.index]? = some s →
      s.debugOnly = false → s.position = some p →
      (s.depth.isSome ∧ Known held e'.depth p) ∨ (s.depth = none ∧ l ∈ blind')) :
    e'.Covers body held blind' where
  length := by rw [h.length, hi]
  entry := h.entry.mono hd
  past pc d after flow hpc hl hf := (h.past pc d after flow hpc hl hf).mono hd
  taken pc d after flow l hpc hl hf := h.taken_extends hx hpc hl hf
  heads := hheads

theorem Covers.annotates (h : e.Covers body held blind) (ha : e.Annotates e') :
    e'.Covers body held blind := by
  refine h.quiet ha.extends ha.instructions (fun hd => ha.depth ▸ hd) fun l s p hs hdebug hp => ?_
  have hbare := ha.getElem? l.index
  rw [hs, Option.map_some] at hbare
  obtain ⟨t, ht, hst⟩ := Option.map_eq_some_iff.mp hbare.symm
  obtain ⟨hposition, hdebug', hdepth⟩ := LabelState.eq_of_bare hst
  rw [ha.depth, ← hdepth]
  exact h.heads l t p ht (hdebug'.trans hdebug) (hposition.trans hp)

theorem Covers.newLabel (h : e.Covers body held blind) (debugOnly : Bool) :
    (e.allocateLabel debugOnly).2.Covers body held blind := by
  refine h.quiet (extends_allocateLabel debugOnly e) rfl id fun l s p hs hdebug hp => ?_
  simp only [allocateLabel, Array.getElem?_push] at hs
  split at hs
  · cases hs
    cases hp
  · exact h.heads l s p hs hdebug hp

theorem Covers.mark (h : e.Covers body held blind) {l : Label} (hm : e.mark l = .ok e') :
    e'.Covers body held (((Request.mark l).blindMark? e).toList ++ blind) := by
  have hx := extends_mark hm
  have hold (k : Label) (s : LabelState) (p : Nat) (hs : e.labels[k.index]? = some s)
      (hdebug : s.debugOnly = false) (hp : s.position = some p)
      (hd : e.depth.isSome → e'.depth.isSome) : (s.depth.isSome ∧ Known held e'.depth p) ∨
        (s.depth = none ∧ k ∈ ((Request.mark l).blindMark? e).toList ++ blind) := by
    rcases h.heads k s p hs hdebug hp with ⟨hsome, hknown⟩ | ⟨hnone, hmem⟩
    · exact .inl ⟨hsome, hknown.mono hd⟩
    · exact .inr ⟨hnone, List.mem_append_right _ hmem⟩
  obtain ⟨s, hs, _, ⟨hdebug, rfl⟩ | ⟨_, _, rfl⟩⟩ := mark_eq_ok hm
  · refine h.quiet hx rfl id fun k t p ht htdebug hp => ?_
    rw [labels_setLabel hs] at ht
    split at ht
    · cases ht
      rw [hdebug] at htdebug
      cases htdebug
    · exact hold k t p ht htdebug hp id
  · have hd : e.depth.isSome → (e.depth <|> s.depth).isSome := by
      intro hd
      obtain ⟨d, hd⟩ := Option.isSome_iff_exists.mp hd
      rw [hd]
      rfl
    refine h.quiet hx rfl hd fun k t p ht htdebug hp => ?_
    rw [labels_setLabel hs] at ht
    split at ht
    · rename_i heq
      obtain rfl := eq_of_index heq
      cases ht
      cases hp
      -- the label is marked at the present position, which has the height of either
      cases hsd : s.depth with
      | some d =>
        refine .inl ⟨rfl, h.length ▸ known_length ?_⟩
        cases e.depth <;> rfl
      | none =>
        cases hed : e.depth with
        | some d => exact .inl ⟨rfl, h.length ▸ known_length rfl⟩
        | none =>
          refine .inr ⟨rfl, List.mem_append_left _ ?_⟩
          simp [Request.blindMark?, hed, hs, hsd]
    · exact hold k t p ht htdebug hp hd

end

end Emitter

/-! ## Whole emissions -/

section
variable {e e' : Emitter} {body : Body} {held : List (Option Nat)} {blind : List Label}

theorem Request.covers_apply {r : Request} (hr : r.Honest) (hs : e.Sound)
    (h : e.Covers body held blind) (hc : body.code.Carries e') (ha : r.apply e = .ok e')
    (hb : ∀ l, r.target? = some l → e.depth.isSome → l ∉ blind) :
    e'.Covers body (held ++ if e.instructions.size < e'.instructions.size then [e.depth] else [])
      ((r.blindMark? e).toList ++ blind) := by
  have emitted {i : Instruction} {pops pushes : Nat} {flow : Flow}
      (he : e.Emits e' body i pops pushes flow) (hrec : e.Records e' flow)
      (hf : flow.target? = r.target?) :
      e'.Covers body
        (held ++ if e.instructions.size < e'.instructions.size then [e.depth] else []) blind := by
    rw [if_pos (by rw [he.instructions, Array.size_push]; omega)]
    exact h.emit he hrec (Request.extends ha) hc (hf ▸ hb)
  have kept {blind' : List Label} (h : e'.Covers body held blind')
      (hi : e'.instructions = e.instructions) :
      e'.Covers body
        (held ++ if e.instructions.size < e'.instructions.size then [e.depth] else []) blind' := by
    rwa [if_neg (by rw [hi]; omega), List.append_nil]
  cases r with
  | plain i pops pushes =>
    have he : e.Emits e' body i pops pushes .next := Emitter.emits_plain hr ha
    obtain ⟨_, rfl⟩ := Emitter.effect_eq_ok.mp ha
    exact emitted he
      (Emitter.records_of_labels rfl rfl fun _ hd => Emitter.isSome_shift.trans hd) rfl
  | pooled use c pops pushes =>
    obtain ⟨index, he⟩ := Emitter.emits_pooled hr hs hc ha
    obtain ⟨_, rfl⟩ := Emitter.shrink_grow_eq_ok.mp ha
    exact emitted he
      (Emitter.records_of_labels rfl rfl fun _ hd => Emitter.isSome_shift.trans hd) rfl
  | branch i pops target =>
    have he : e.Emits e' body i pops 0 (.branch target) := Emitter.emits_branch hr ha
    obtain ⟨_, hbranch⟩ := Emitter.branch_eq_ok ha
    refine emitted he (Emitter.records_branchTo hbranch rfl rfl fun _ hd => ?_) rfl
    obtain ⟨s, _, _, rfl⟩ := Emitter.branchTo_eq_ok hbranch
    exact Emitter.isSome_shift.trans hd
  | goto target =>
    have he : e.Emits e' body (.goto target) 0 0 (.jump target) := Emitter.emits_goto ha
    obtain ⟨e₁, hbranch, rfl⟩ := Emitter.goto_eq_ok ha
    exact emitted he (Emitter.records_branchTo hbranch rfl rfl fun hf => hf.elim) rfl
  | leave result pops =>
    have he : e.Emits e' body (.leave result) pops 0 .exit := Emitter.emits_leave hr ha
    obtain ⟨e₁, h₁, ha⟩ := bind_eq_ok.mp ha
    obtain ⟨_, rfl⟩ := Emitter.effect_eq_ok.mp h₁
    cases ha
    exact emitted he (Emitter.records_of_labels rfl rfl fun hf => hf.elim) rfl
  | newLabel debugOnly =>
    cases ha
    exact kept (h.newLabel debugOnly) rfl
  | mark l =>
    refine kept (h.mark ha) ?_
    obtain ⟨s, _, _, ⟨_, rfl⟩ | ⟨_, _, rfl⟩⟩ := Emitter.mark_eq_ok ha <;> rfl
  | reserve index type =>
    cases ha
    exact kept (h.annotates (Emitter.annotates_reserve ..)) rfl
  | visitLocal v =>
    have hannotates := Emitter.annotates_of_visitLocal ha
    exact kept (h.annotates hannotates) hannotates.instructions
  | visitLine line start =>
    have hannotates := Emitter.annotates_of_visitLine ha
    exact kept (h.annotates hannotates) hannotates.instructions

theorem Request.covers_applyAll {rs : List Request} (hr : ∀ r ∈ rs, r.Honest) (hs : e.Sound)
    (h : e.Covers body held blind) (hc : body.code.Carries e') (ha : applyAll rs e = .ok e')
    (hb : headsKnown blind rs e = true) : ∃ blind', e'.Covers body (held ++ heights rs e) blind' := by
  induction rs generalizing e held blind with
  | nil =>
    cases ha
    exact ⟨blind, by rwa [heights, List.append_nil]⟩
  | cons r rs ih =>
    obtain ⟨e₁, h₁, ha⟩ := bind_eq_ok.mp ha
    simp only [headsKnown, h₁, Bool.and_eq_true] at hb
    obtain ⟨hbranch, hb⟩ := hb
    have hc₁ := hc.of_extends (extends_applyAll ha)
    have hnot : ∀ l, r.target? = some l → e.depth.isSome → l ∉ blind := by
      intro l hl hd
      obtain ⟨d, hd⟩ := Option.isSome_iff_exists.mp hd
      simpa [hd, hl] using hbranch
    have hstep := covers_apply (hr r (by simp)) hs h hc₁ h₁ hnot
    obtain ⟨blind', hcovers⟩ := ih (fun r hmem => hr r (by simp [hmem])) (hs.apply h₁) hstep ha hb
    refine ⟨blind', ?_⟩
    simpa only [heights, h₁, List.append_assoc] using hcovers

theorem Request.maxStack_applyAll {rs : List Request} (hp : body.SoundPaths)
    (hr : ∀ r ∈ rs, r.Honest) (hs : e.Sound) (hk : e.Knows body) (hc : body.code.Carries e')
    (ha : applyAll rs e = .ok e') : e'.maxStack = e.maxStack ∨ e'.maxStack ∈ body.heights := by
  induction rs generalizing e with
  | nil =>
    cases ha
    exact .inl rfl
  | cons r rs ih =>
    obtain ⟨e₁, h₁, ha⟩ := bind_eq_ok.mp ha
    have hc₁ := hc.of_extends (extends_applyAll ha)
    have hk₁ := hk.apply hp hs hc₁ (hr r (by simp)) h₁
    have hstep : e₁.maxStack = e.maxStack ∨ e₁.maxStack ∈ body.heights := by
      rcases Emitter.emits_or_quiet (hr r (by simp)) hs hc₁ h₁ with
        ⟨i, pops, pushes, flow, hemits⟩ | ⟨_, hquiet⟩
      · rw [hemits.maxStack]
        cases hd : e.depth with
        | none => exact .inl (by simp [Emitter.shift, hd])
        | some d =>
          have hshift : (e.shift pops pushes).depth = some (d - pops + pushes) := by
            simp [Emitter.shift, hd]
          obtain ⟨⟨after, hleaves, hafter⟩, _⟩ := hemits.leaves hp hc₁ hk hshift
          simp only [Emitter.shift, hd, Option.elim_some]
          rcases Nat.le_total e.maxStack (d - pops + pushes) with hle | hle
          · rw [Nat.max_eq_right hle]
            exact .inr ⟨_, _, _, hleaves, hafter⟩
          · exact .inl (Nat.max_eq_left hle)
      · exact .inl hquiet
    rcases ih (fun r hmem => hr r (by simp [hmem])) (hs.apply h₁) hk₁ ha with hrest | hrest
    · rw [hrest]
      exact hstep
    · exact .inr hrest

end

namespace Emitter

section
variable {access : Access} {method : Method} {options : EmitOptions} {os : List Operation}
  {e : Emitter} {code : Code} (he : (initial access method options).applyAll os = .ok e)
  (hheads : (initial access method options).headsKnown os = true) (hf : e.finish = .ok code)
  (hp : (Body.mk code access method.signature).SoundPaths)
include he hheads hf hp

theorem held_of_reaches {pc : Nat} {stack : List Kind}
    (hr : (Body.mk code access method.signature).Reaches pc stack) :
    ∃ d, (heights os (initial access method options))[pc]? = some (some d) := by
  have hc : (Body.mk code access method.signature).code.Carries e := carries_of_finish hf
  obtain ⟨blind, hcovers⟩ := Request.covers_applyAll (fun _ => Operation.honestAll)
    (sound_initial ..) (covers_initial ..) hc (Operation.applyAll_requests he) hheads
  rw [List.nil_append] at hcovers
  have hlength : (heights os (initial access method options)).length = code.instructions.size :=
    length_heights he hf
  have hinside {pc : Nat} {stack : List Kind} {depth : Option Nat}
      (hr : (Body.mk code access method.signature).Reaches pc stack)
      (hk : Known (heights os (initial access method options)) depth pc) :
      ∃ d, (heights os (initial access method options))[pc]? = some (some d) :=
    hk.getElem? (hlength ▸ hp.lt_size hr)
  induction hr with
  | start => exact hinside .start hcovers.entry
  | @move pc next before after i flow hr hi hs hl ih =>
    obtain ⟨d, hd⟩ := ih
    have hleaves : (Body.mk code access method.signature).Leaves pc after flow :=
      ⟨before, i, hr, hi, hs⟩
    suffices hknown : Known (heights os (initial access method options)) e.depth next from
      hinside (hleaves.reaches hl) hknown
    have hbranch {l : Label} {p : Nat} (htarget : flow.target? = some l)
        (hposition : code.position? l = some p) :
        Known (heights os (initial access method options)) e.depth p := by
      obtain ⟨s, hlabel, hsome⟩ := hcovers.taken pc d after flow l hd hleaves htarget
      obtain ⟨q, hinfo, _⟩ := hp.targets pc after flow l hleaves htarget
      obtain ⟨rfl, _⟩ := finish_eq_ok hf
      have hinfo' : e.code.labelInfo? l = some ⟨s.position, s.debugOnly⟩ := by
        simp [Code.labelInfo?, Emitter.code, hlabel]
      have hsettled : s.position = some q ∧ s.debugOnly = false := by
        simpa using hinfo'.symm.trans hinfo
      obtain rfl : p = q := by
        rw [Body.position?_of_labelInfo? hinfo] at hposition
        exact (Option.some.inj hposition).symm
      rcases hcovers.heads l s p hlabel hsettled.2 hsettled.1 with ⟨_, hknown⟩ | ⟨hnone, _⟩
      · exact hknown
      · rw [hnone] at hsome
        cases hsome
    cases hl with
    | next => exact hcovers.past pc d after _ hd hleaves trivial
    | past l => exact hcovers.past pc d after _ hd hleaves trivial
    | taken hposition => exact hbranch rfl hposition
    | jumped hposition => exact hbranch rfl hposition

theorem maxStack_eq_of_isGreatest {h : Nat}
    (hg : IsGreatest (Body.mk code access method.signature).heights h) : code.maxStack = h := by
  have hc : (Body.mk code access method.signature).code.Carries e := carries_of_finish hf
  have htracked : e.maxStack = 0 ∨ e.maxStack ∈ (Body.mk code access method.signature).heights :=
    Request.maxStack_applyAll hp (fun _ => Operation.honestAll) (sound_initial ..)
      (knows_initial ..) hc (Operation.applyAll_requests he)
  have hmax : code.maxStack = e.maxStack := by
    obtain ⟨rfl, _⟩ := finish_eq_ok hf
    rfl
  apply Nat.le_antisymm
  · rw [hmax]
    rcases htracked with hzero | hmem
    · omega
    · exact hg.2 hmem
  · obtain ⟨pc, after, flow, hl, rfl⟩ := hg.1
    rcases unheld_or_le he hf hp hl with hnone | hle
    · obtain ⟨before, i, hr, _⟩ := hl
      obtain ⟨d, hd⟩ := held_of_reaches he hheads hf hp hr
      rw [hnone] at hd
      cases hd
    · exact hle

theorem held_eq_of_reaches {pc : Nat} (hpc : pc < code.instructions.size)
    {stack? : Option (List Kind)}
    (hs : ∀ stack, stack? = some stack ↔
      (Body.mk code access method.signature).Reaches pc stack) :
    (heights os (initial access method options))[pc]? = some (stack?.map slotHeight) := by
  have hc : (Body.mk code access method.signature).code.Carries e := carries_of_finish hf
  have hbrings {d : Nat} (hd : (heights os (initial access method options))[pc]? = some (some d)) :
      ∃ stack, (Body.mk code access method.signature).Reaches pc stack ∧ slotHeight stack = d := by
    have hsound := (Request.heights_sound hp (sound_initial ..) (knows_initial ..)
      (fun _ => Operation.honestAll) (Operation.applyAll_requests he) hc hd).1
    have hempty : (initial access method options).instructions.size = 0 := rfl
    rwa [hempty, Nat.zero_add] at hsound
  cases stack? with
  | some stack =>
    have hr := (hs stack).mp rfl
    obtain ⟨d, hd⟩ := held_of_reaches he hheads hf hp hr
    obtain ⟨t, ht, rfl⟩ := hbrings hd
    rw [hd, hp.agree pc t stack ht hr]
    rfl
  | none =>
    rw [← length_heights he hf] at hpc
    cases hheld : (heights os (initial access method options))[pc] with
    | none => rw [List.getElem?_eq_getElem hpc, hheld]; rfl
    | some d =>
      obtain ⟨stack, hr, _⟩ := hbrings (by rw [List.getElem?_eq_getElem hpc, hheld])
      cases (hs stack).mpr hr

end

/-- **The emitter and the verifier agree on every height.** If no branch at a known height goes back
to a label marked blindly, and the verifier accepts the body with some limit, then it accepts it with
the limit tracked, which is the very height it finds. However its worklist is drained, the emitter
held at each instruction the height of the frame there, and no height where no path goes. -/
theorem heights_eq_frames (access : Access) (method : Method) (options : EmitOptions)
    (os : List Operation) (e : Emitter) (code : Code) (limit h : Nat)
    (he : (initial access method options).applyAll os = .ok e)
    (hheads : (initial access method options).headsKnown os = true) (hf : e.finish = .ok code)
    (hv : (Body.mk { code with maxStack := limit } access method.signature).verify = .ok h) :
    (Body.mk code access method.signature).verify = .ok h ∧ code.maxStack = h ∧
      (∃ order s, (Body.mk code access method.signature).Rounds order s h ∧ s.work = []) ∧
      ∀ order s height, (Body.mk code access method.signature).Rounds order s height →
        s.work = [] → ∀ pc < code.instructions.size,
          (heights os (initial access method options))[pc]? =
              some ((s.stack? pc).map slotHeight) ∧
            ((heights os (initial access method options))[pc]? = some none ↔
              ∀ stack, ¬(Body.mk code access method.signature).Reaches pc stack) := by
  have hlimit : Body.mk { code with maxStack := limit } access method.signature =
      (Body.mk code access method.signature).withLimit limit := rfl
  rw [hlimit, Body.verify_eq_ok_iff, Body.heights_withLimit] at hv
  obtain ⟨hpaths, hg, _⟩ := hv
  have hp := hpaths.of_withLimit
  have hmax := maxStack_eq_of_isGreatest he hheads hf hp hg
  have hok : (Body.mk code access method.signature).verify = .ok h :=
    (Body.verify_eq_ok_iff h).mpr ⟨hp, hg, hmax.ge⟩
  refine ⟨hok, hmax, ?_, fun order s height hr hw pc hpc => ?_⟩
  · have hdrained := (Body.verify_eq hp.nonempty h).mp hok
    rcases Body.explore_rounds (.start hp.nonempty) with
      ⟨order, s, found, hr, hw, hfound⟩ | ⟨_, _, _, _, _, _, _, _, _, hrefused⟩
    · obtain rfl : found = h := Except.ok.inj (hfound.symm.trans hdrained.1)
      exact ⟨order, s, hr, hw⟩
    · rw [hdrained.1] at hrefused
      cases hrefused
  · have hreaches (stack : List Kind) : s.stack? pc = some stack ↔
        (Body.mk code access method.signature).Reaches pc stack :=
      ⟨hr.explored.tracks.reached pc stack, hr.explored.stack?_of_reaches hw⟩
    have hheld := held_eq_of_reaches he hheads hf hp hpc hreaches
    refine ⟨hheld, ?_⟩
    rw [hheld, Option.some.injEq, Option.map_eq_none_iff]
    constructor
    · intro hnone stack hr
      rw [(hreaches stack).mpr hr] at hnone
      cases hnone
    · intro hno
      cases hs : s.stack? pc with
      | none => rfl
      | some stack => exact absurd ((hreaches stack).mp hs) (hno stack)

/-- A loop whose head is marked in reachable code: it pushes an int until one is zero, and what
stands behind its return is emitted at an unknown height. -/
def headFirst : List Operation :=
  [.newLabel, .mark ⟨0⟩, .push (.int 7), .push (.int 8), .pop, .ifZero .ne ⟨0⟩, .returnValue,
    .push (.long 1)]

theorem heights_eq_frames_headFirst :
    ∃ e code, (initial .staticFlag ⟨"f", .nullaryVoid⟩ {}).applyAll headFirst = .ok e ∧
      (initial .staticFlag ⟨"f", .nullaryVoid⟩ {}).headsKnown headFirst = true ∧
      e.finish = .ok code ∧
      (Body.mk { code with maxStack := 9 } .staticFlag .nullaryVoid).verify = .ok 2 ∧
      (Body.mk code .staticFlag .nullaryVoid).verify = .ok 2 ∧ code.maxStack = 2 ∧
      heights headFirst (initial .staticFlag ⟨"f", .nullaryVoid⟩ {}) =
        [some 0, some 1, some 2, some 1, some 0, none] := by
  obtain ⟨e, code, he, hf, hv⟩ : ∃ e code,
      (initial .staticFlag ⟨"f", .nullaryVoid⟩ {}).applyAll headFirst = .ok e ∧
      e.finish = .ok code ∧
      (Body.mk { code with maxStack := 9 } .staticFlag .nullaryVoid).verify = .ok 2 :=
    ⟨_, _, by cbv, by cbv, by cbv⟩
  have hheads : (initial .staticFlag ⟨"f", .nullaryVoid⟩ {}).headsKnown headFirst = true := by cbv
  obtain ⟨hok, hmax, _⟩ := heights_eq_frames .staticFlag ⟨"f", .nullaryVoid⟩ {} headFirst e code 9 2
    he hheads hf hv
  exact ⟨e, code, he, hheads, hf, hv, hok, hmax, by cbv⟩

end Emitter

end StackCode
