import Std.Data.HashMap.Lemmas
import StackCode.Emitter.Finish
import StackCode.Proofs.Emitter.Request

/-!
# Emitters grow

Whatever was emitted stays: instructions and constants keep their positions, marked labels theirs,
and the greatest height only rises. A finished body carries every emitter that it came from.
-/

namespace StackCode

/-! ## Constant pools -/

namespace ConstantPool

/-- The indices found are those of the entries. -/
structure Sound (p : ConstantPool) : Prop where
  size : p.entries.size ≤ capacity
  index : ∀ (c : Constant) (i : UInt16), p.index[c]? = some i → p.entries[i.toNat]? = some c

theorem sound_empty : empty.Sound where
  size := Nat.zero_le _
  index c i h := by simp [empty] at h

theorem add_cases (p : ConstantPool) (c : Constant) :
    (∃ i, p.index[c]? = some i ∧ p.add c = (i, p)) ∨
      (p.index[c]? = none ∧ p.entries.size < capacity ∧ p.add c = (.ofNat p.entries.size,
        ⟨p.entries.push c, p.index.insert c (.ofNat p.entries.size), p.overflowed⟩)) ∨
      (p.index[c]? = none ∧ capacity ≤ p.entries.size ∧
        p.add c = (0, { p with overflowed := true })) := by
  unfold add
  cases h : p.index[c]? with
  | some i => exact .inl ⟨i, rfl, rfl⟩
  | none =>
    by_cases hlt : p.entries.size < capacity
    · exact .inr (.inl ⟨rfl, hlt, if_pos hlt⟩)
    · exact .inr (.inr ⟨rfl, Nat.le_of_not_lt hlt, if_neg hlt⟩)

variable {p : ConstantPool}

theorem getElem?_add {c k : Constant} {n : Nat} (h : p.entries[n]? = some k) :
    (p.add c).2.entries[n]? = some k := by
  rcases p.add_cases c with ⟨i, _, he⟩ | ⟨_, _, he⟩ | ⟨_, _, he⟩
  · rw [he]; exact h
  · rw [he]
    have hlt := (Array.getElem?_eq_some_iff.mp h).1
    simpa [Array.getElem?_push, Nat.ne_of_lt hlt] using h
  · rw [he]; exact h

theorem overflowed_add {c : Constant} (h : (p.add c).2.overflowed = false) :
    p.overflowed = false := by
  rcases p.add_cases c with ⟨i, _, he⟩ | ⟨_, _, he⟩ | ⟨_, _, he⟩
  · rwa [he] at h
  · rwa [he] at h
  · rw [he] at h; cases h

theorem toNat_ofNat_size (h : p.entries.size < capacity) :
    (UInt16.ofNat p.entries.size).toNat = p.entries.size :=
  UInt16.toNat_ofNat_of_lt' h

theorem Sound.add (h : p.Sound) (c : Constant) : (p.add c).2.Sound := by
  rcases p.add_cases c with ⟨i, _, he⟩ | ⟨_, hlt, he⟩ | ⟨_, _, he⟩
  · rw [he]; exact h
  · rw [he]
    refine ⟨by simpa using Nat.succ_le_of_lt hlt, fun k i hk => ?_⟩
    rw [Std.HashMap.getElem?_insert] at hk
    split at hk
    · rename_i hck
      cases hk
      rw [toNat_ofNat_size hlt, ← eq_of_beq hck]
      simp
    · have hi := h.index k i hk
      have := (Array.getElem?_eq_some_iff.mp hi).1
      simpa [Array.getElem?_push, Nat.ne_of_lt this] using hi
  · rw [he]; exact ⟨h.size, h.index⟩

theorem Sound.getElem?_add_fst (h : p.Sound) {c : Constant} (ho : (p.add c).2.overflowed = false) :
    (p.add c).2.entries[(p.add c).1.toNat]? = some c := by
  rcases p.add_cases c with ⟨i, hi, he⟩ | ⟨_, hlt, he⟩ | ⟨_, _, he⟩
  · rw [he]; exact h.index c i hi
  · rw [he]
    simp [toNat_ofNat_size hlt]
  · rw [he] at ho; cases ho

end ConstantPool

/-! ## Extensions -/

/-- What is settled about a label stays. -/
structure LabelState.Keeps (s s' : LabelState) : Prop where
  debugOnly : s'.debugOnly = s.debugOnly
  position : ∀ p, s.position = some p → s'.position = some p
  depth : ∀ d, s.depth = some d → s'.depth = some d

theorem LabelState.eq_of_bare {s t : LabelState} (h : s.bare = t.bare) :
    s.position = t.position ∧ s.debugOnly = t.debugOnly ∧ s.depth = t.depth := by
  simpa [LabelState.bare] using h

theorem orElse_eq_some {a b : Option Nat} {d : Nat} (h : (a <|> b) = some d) :
    a = some d ∨ b = some d := by
  cases a with
  | some x => exact .inl h
  | none => exact .inr h

theorem LabelState.Keeps.refl (s : LabelState) : s.Keeps s := ⟨rfl, fun _ h => h, fun _ h => h⟩

namespace Emitter

/-- Nothing emitted is lost or changed. -/
structure Extends (e e' : Emitter) : Prop where
  instructions : ∀ (pc : Nat) (i : Instruction), e.instructions[pc]? = some i →
    e'.instructions[pc]? = some i
  constants : ∀ (k : Nat) (c : Constant), e.pool.entries[k]? = some c → e'.pool.entries[k]? = some c
  overflowed : e'.pool.overflowed = false → e.pool.overflowed = false
  labels : ∀ (k : Nat) (s : LabelState), e.labels[k]? = some s → ∃ s', e'.labels[k]? = some s' ∧
    s.Keeps s'
  maxStack : e.maxStack ≤ e'.maxStack

theorem Extends.trans {e e₁ e₂ : Emitter} (h : e.Extends e₁) (h' : e₁.Extends e₂) :
    e.Extends e₂ where
  instructions pc i hi := h'.instructions pc i (h.instructions pc i hi)
  constants k c hc := h'.constants k c (h.constants k c hc)
  overflowed ho := h.overflowed (h'.overflowed ho)
  labels k s hs := by
    obtain ⟨s₁, hs₁, hk₁⟩ := h.labels k s hs
    obtain ⟨s₂, hs₂, hk₂⟩ := h'.labels k s₁ hs₁
    exact ⟨s₂, hs₂, hk₂.debugOnly.trans hk₁.debugOnly,
      fun p hp => hk₂.position p (hk₁.position p hp), fun d hd => hk₂.depth d (hk₁.depth d hd)⟩
  maxStack := Nat.le_trans h.maxStack h'.maxStack

theorem extends_of_eq {e e' : Emitter} (hi : e'.instructions = e.instructions)
    (hp : e'.pool = e.pool) (hl : e'.labels = e.labels) (hm : e.maxStack ≤ e'.maxStack) :
    e.Extends e' where
  instructions _ _ h := hi ▸ h
  constants _ _ h := hp ▸ h
  overflowed h := hp ▸ h
  labels _ s h := ⟨s, hl ▸ h, .refl s⟩
  maxStack := hm

theorem Extends.refl (e : Emitter) : e.Extends e := extends_of_eq rfl rfl rfl (Nat.le_refl _)

theorem extends_append (i : Instruction) (e : Emitter) : e.Extends (e.append i) where
  instructions pc j h := by
    have hlt := (Array.getElem?_eq_some_iff.mp h).1
    simpa [append, Array.getElem?_push, Nat.ne_of_lt hlt] using h
  constants _ _ h := h
  overflowed h := h
  labels _ s h := ⟨s, h, .refl s⟩
  maxStack := Nat.le_refl _

theorem extends_withConstant (c : Constant) (f : UInt16 → Instruction) (e : Emitter) :
    e.Extends (e.withConstant c f) where
  instructions := (extends_append (f (e.pool.add c).1) e).instructions
  constants _ _ h := ConstantPool.getElem?_add h
  overflowed h := ConstantPool.overflowed_add h
  labels _ s h := ⟨s, h, .refl s⟩
  maxStack := Nat.le_refl _

theorem extends_shift (pops pushes : Nat) (e : Emitter) : e.Extends (e.shift pops pushes) := by
  refine extends_of_eq rfl rfl rfl ?_
  cases hd : e.depth with
  | none => simp [shift, hd]
  | some d => simp only [shift, hd, Option.elim_some]; exact Nat.le_max_left ..

theorem extends_setLabel {l : Label} {s t : LabelState} {e : Emitter}
    (hs : e.labels[l.index]? = some s) (hk : s.Keeps t) : e.Extends (e.setLabel l t) where
  instructions _ _ h := h
  constants _ _ h := h
  overflowed h := h
  labels k u h := by
    rw [labels_setLabel hs]
    split
    · rename_i heq
      rw [heq, hs] at h
      cases h
      exact ⟨t, rfl, hk⟩
    · exact ⟨u, h, .refl u⟩
  maxStack := Nat.le_refl _

theorem extends_allocateLabel (debugOnly : Bool) (e : Emitter) :
    e.Extends (e.allocateLabel debugOnly).2 where
  instructions _ _ h := h
  constants _ _ h := h
  overflowed h := h
  labels k s h := by
    have hlt := (Array.getElem?_eq_some_iff.mp h).1
    exact ⟨s, by simpa [allocateLabel, Array.getElem?_push, Nat.ne_of_lt hlt] using h, .refl s⟩
  maxStack := Nat.le_refl _

theorem Annotates.getElem? {e e' : Emitter} (h : e.Annotates e') (k : Nat) :
    (e'.labels[k]?).map LabelState.bare = (e.labels[k]?).map LabelState.bare := by
  rw [← Array.getElem?_map, h.labels, Array.getElem?_map]

theorem Annotates.extends {e e' : Emitter} (h : e.Annotates e') : e.Extends e' where
  instructions _ _ hi := h.instructions ▸ hi
  constants _ _ hc := h.pool ▸ hc
  overflowed ho := h.pool ▸ ho
  labels k s hs := by
    have hk := h.getElem? k
    rw [hs] at hk
    obtain ⟨s', hs', hbare⟩ := Option.map_eq_some_iff.mp hk
    obtain ⟨hposition, hdebug, hdepth⟩ := LabelState.eq_of_bare hbare
    exact ⟨s', hs', hdebug, fun p hp => hposition.trans hp, fun d hd => hdepth.trans hd⟩
  maxStack := Nat.le_of_eq h.maxStack.symm

theorem extends_branchTo {l : Label} {e e' : Emitter} (h : e.branchTo l = .ok e') :
    e.Extends e' := by
  obtain ⟨s, hs, _, rfl⟩ := branchTo_eq_ok h
  exact extends_setLabel hs ⟨rfl, fun p hp => hp, fun d hd => by simp [hd]⟩

theorem extends_mark {l : Label} {e e' : Emitter} (h : e.mark l = .ok e') : e.Extends e' := by
  obtain ⟨s, hs, hp, ⟨_, rfl⟩ | ⟨_, _, rfl⟩⟩ := mark_eq_ok h
  · exact extends_setLabel hs ⟨rfl, fun p h => (by rw [hp] at h; cases h), fun d hd => hd⟩
  · have hset := extends_setLabel
        (t := { s with position := some e.instructions.size, depth := s.depth <|> e.depth })
      hs ⟨rfl, fun p h => (by rw [hp] at h; cases h), fun d hd => by simp [hd]⟩
    exact hset.trans (extends_of_eq rfl rfl rfl (Nat.le_refl _))

end Emitter

theorem Request.extends {r : Request} {e e' : Emitter} (h : r.apply e = .ok e') : e.Extends e' := by
  cases r with
  | plain i pops pushes =>
    obtain ⟨_, rfl⟩ := Emitter.effect_eq_ok.mp h
    exact (Emitter.extends_append i e).trans (Emitter.extends_shift ..)
  | pooled use c pops pushes =>
    obtain ⟨_, rfl⟩ := Emitter.shrink_grow_eq_ok.mp h
    exact (Emitter.extends_withConstant c _ e).trans (Emitter.extends_shift ..)
  | branch i pops target =>
    exact ((Emitter.extends_append i e).trans (Emitter.extends_shift ..)).trans
      (Emitter.extends_branchTo (Emitter.branch_eq_ok h).2)
  | goto target =>
    obtain ⟨e₁, h₁, rfl⟩ := Emitter.goto_eq_ok h
    exact (((Emitter.extends_append _ e).trans (Emitter.extends_shift ..)).trans
      (Emitter.extends_branchTo h₁)).trans
      (Emitter.extends_of_eq rfl rfl rfl (Nat.le_refl _))
  | leave result pops =>
    obtain ⟨e₁, h₁, h⟩ := bind_eq_ok.mp h
    obtain ⟨_, rfl⟩ := Emitter.effect_eq_ok.mp h₁
    cases h
    exact ((Emitter.extends_append _ e).trans (Emitter.extends_shift pops 0 _)).trans
      (Emitter.extends_of_eq rfl rfl rfl (Nat.le_refl _))
  | newLabel debugOnly =>
    cases h
    exact Emitter.extends_allocateLabel debugOnly e
  | mark l => exact Emitter.extends_mark h
  | reserve index type =>
    cases h
    exact (Emitter.annotates_reserve index type e).extends
  | visitLocal v => exact (Emitter.annotates_of_visitLocal h).extends
  | visitLine line start => exact (Emitter.annotates_of_visitLine h).extends

theorem Request.extends_applyAll {rs : List Request} {e e' : Emitter}
    (h : Request.applyAll rs e = .ok e') : e.Extends e' := by
  induction rs generalizing e with
  | nil => cases h; exact .refl _
  | cons r rs ih =>
    obtain ⟨e₁, h₁, h⟩ := bind_eq_ok.mp h
    exact (Request.extends h₁).trans (ih h)

theorem Emitter.extends_applyAll {os : List Operation} {e e' : Emitter}
    (h : e.applyAll os = .ok e') : e.Extends e' :=
  Request.extends_applyAll (Operation.applyAll_requests h)

/-! ## Sound emitters -/

namespace Emitter

/-- The pool is sound, and no height held or recorded is above the greatest one. -/
structure Sound (e : Emitter) : Prop where
  pool : e.pool.Sound
  depth : ∀ d, e.depth = some d → d ≤ e.maxStack
  labels : ∀ s ∈ e.labels, ∀ d, s.depth = some d → d ≤ e.maxStack

theorem sound_initial (access : Access) (method : Method) (options : EmitOptions) :
    (initial access method options).Sound where
  pool := ConstantPool.sound_empty
  depth d h := by cases h; exact Nat.zero_le _
  labels s hs := by simp [initial] at hs

theorem Sound.append {e : Emitter} (h : e.Sound) (i : Instruction) : (e.append i).Sound :=
  ⟨h.pool, h.depth, h.labels⟩

theorem Sound.withConstant {e : Emitter} (h : e.Sound) (c : Constant) (f : UInt16 → Instruction) :
    (e.withConstant c f).Sound := ⟨h.pool.add c, h.depth, h.labels⟩

theorem Sound.shift {e : Emitter} (h : e.Sound) (pops pushes : Nat) :
    (e.shift pops pushes).Sound where
  pool := h.pool
  depth d hd := by
    obtain ⟨d', hd', rfl⟩ := Option.map_eq_some_iff.mp hd
    simp only [Emitter.shift, hd', Option.elim_some]
    exact Nat.le_max_right ..
  labels s hs d hd := Nat.le_trans (h.labels s hs d hd) (extends_shift pops pushes e).maxStack

theorem Sound.cut {e : Emitter} (h : e.Sound) : ({ e with depth := none } : Emitter).Sound :=
  ⟨h.pool, fun _ hd => (by cases hd), h.labels⟩

theorem Sound.setLabel {e : Emitter} (h : e.Sound) (l : Label) {s : LabelState}
    (hs : ∀ d, s.depth = some d → d ≤ e.maxStack) : (e.setLabel l s).Sound where
  pool := h.pool
  depth := h.depth
  labels t ht := by
    rcases Array.mem_or_eq_of_mem_setIfInBounds ht with ht | rfl
    · exact h.labels t ht
    · exact hs

theorem Sound.label {e : Emitter} (h : e.Sound) {k : Nat} {s : LabelState}
    (hs : e.labels[k]? = some s) (d : Nat) : s.depth = some d → d ≤ e.maxStack :=
  h.labels s (Array.mem_of_getElem? hs) d

theorem Sound.orElse {e : Emitter} (h : e.Sound) {k : Nat} {s : LabelState}
    (hs : e.labels[k]? = some s) (d : Nat) (hd : (s.depth <|> e.depth) = some d) :
    d ≤ e.maxStack := by
  rcases orElse_eq_some hd with hd | hd
  · exact h.label hs d hd
  · exact h.depth d hd

theorem Sound.branchTo {e e' : Emitter} (h : e.Sound) {l : Label} (hb : e.branchTo l = .ok e') :
    e'.Sound := by
  obtain ⟨s, hs, _, rfl⟩ := branchTo_eq_ok hb
  exact h.setLabel l (h.orElse hs)

theorem Sound.mark {e e' : Emitter} (h : e.Sound) {l : Label} (hm : e.mark l = .ok e') :
    e'.Sound := by
  obtain ⟨s, hs, _, ⟨_, rfl⟩ | ⟨_, _, rfl⟩⟩ := mark_eq_ok hm
  · exact h.setLabel l (fun d hd => h.label hs d hd)
  · have hset := h.setLabel l
        (s := { s with position := some e.instructions.size, depth := s.depth <|> e.depth })
      (h.orElse hs)
    refine ⟨hset.pool, fun d hd => ?_, hset.labels⟩
    rcases orElse_eq_some hd with hd | hd
    · exact h.depth d hd
    · exact h.label hs d hd

theorem Sound.annotates {e e' : Emitter} (h : e.Sound) (ha : e.Annotates e') : e'.Sound where
  pool := ha.pool ▸ h.pool
  depth := by rw [ha.depth, ha.maxStack]; exact h.depth
  labels s hs d hd := by
    have hmem : s.bare ∈ e.labels.map LabelState.bare := ha.labels ▸ Array.mem_map_of_mem hs
    obtain ⟨t, ht, hbare⟩ := Array.mem_map.mp hmem
    rw [ha.maxStack]
    exact h.labels t ht d ((LabelState.eq_of_bare hbare).2.2.trans hd)

theorem Sound.apply {e e' : Emitter} (h : e.Sound) {r : Request} (hr : r.apply e = .ok e') :
    e'.Sound := by
  cases r with
  | plain i pops pushes =>
    obtain ⟨_, rfl⟩ := effect_eq_ok.mp hr
    exact (h.append i).shift ..
  | pooled use c pops pushes =>
    obtain ⟨_, rfl⟩ := shrink_grow_eq_ok.mp hr
    exact (h.withConstant c _).shift ..
  | branch i pops target => exact ((h.append i).shift ..).branchTo (branch_eq_ok hr).2
  | goto target =>
    obtain ⟨e₁, h₁, rfl⟩ := goto_eq_ok hr
    exact (((h.append _).shift ..).branchTo h₁).cut
  | leave result pops =>
    obtain ⟨e₁, h₁, hr⟩ := bind_eq_ok.mp hr
    obtain ⟨_, rfl⟩ := effect_eq_ok.mp h₁
    cases hr
    exact ((h.append _).shift ..).cut
  | newLabel debugOnly =>
    cases hr
    refine ⟨h.pool, h.depth, fun s hs d hd => ?_⟩
    rcases Array.mem_push.mp hs with hs | rfl
    · exact h.labels s hs d hd
    · cases hd
  | mark l => exact h.mark hr
  | reserve index type =>
    cases hr
    exact h.annotates (annotates_reserve ..)
  | visitLocal v => exact h.annotates (annotates_of_visitLocal hr)
  | visitLine line start => exact h.annotates (annotates_of_visitLine hr)

theorem Sound.applyAll_requests {rs : List Request} {e e' : Emitter} (h : e.Sound)
    (hr : Request.applyAll rs e = .ok e') : e'.Sound := by
  induction rs generalizing e with
  | nil => cases hr; exact h
  | cons r rs ih =>
    obtain ⟨e₁, h₁, hr⟩ := bind_eq_ok.mp hr
    exact ih (h.apply h₁) hr

theorem Sound.applyAll {os : List Operation} {e e' : Emitter} (h : e.Sound)
    (ho : e.applyAll os = .ok e') : e'.Sound := h.applyAll_requests (Operation.applyAll_requests ho)

end Emitter

/-! ## Finished bodies -/

/-- A body has all that an emitter held. -/
structure Code.Carries (code : Code) (e : Emitter) : Prop where
  instructions : ∀ (pc : Nat) (i : Instruction), e.instructions[pc]? = some i →
    code.instructions[pc]? = some i
  constants : ∀ (k : Nat) (c : Constant), e.pool.entries[k]? = some c → code.constants[k]? = some c
  overflowed : e.pool.overflowed = false
  labels : ∀ (l : Label) (s : LabelState) (p : Nat), e.labels[l.index]? = some s →
    s.position = some p → code.labelInfo? l = some ⟨some p, s.debugOnly⟩
  maxStack : e.maxStack ≤ code.maxStack

theorem Code.Carries.of_extends {code : Code} {e e' : Emitter} (h : code.Carries e')
    (he : e.Extends e') : code.Carries e where
  instructions pc i hi := h.instructions pc i (he.instructions pc i hi)
  constants k c hc := h.constants k c (he.constants k c hc)
  overflowed := he.overflowed h.overflowed
  labels l s p hs hp := by
    obtain ⟨s', hs', hk⟩ := he.labels l.index s hs
    rw [h.labels l s' p hs' (hk.position p hp), hk.debugOnly]
  maxStack := Nat.le_trans he.maxStack h.maxStack

theorem Emitter.finish_eq_ok {e : Emitter} {code : Code} (h : e.finish = .ok code) :
    code = e.code ∧ e.pool.overflowed = false := by
  unfold finish at h
  split at h
  · cases h
  · rename_i ho
    split at h
    · cases h
    · cases h
      exact ⟨rfl, by simpa using ho⟩

theorem Emitter.carries_of_finish {e : Emitter} {code : Code} (h : e.finish = .ok code) :
    code.Carries e := by
  obtain ⟨rfl, ho⟩ := finish_eq_ok h
  refine ⟨fun _ _ hi => hi, fun _ _ hc => hc, ho, fun l s p hs hp => ?_, Nat.le_refl _⟩
  simp [Code.labelInfo?, Emitter.code, hs, hp]

theorem Code.Carries.position? {code : Code} {e : Emitter} (h : code.Carries e) {l : Label}
    {s : LabelState} {p : Nat} (hs : e.labels[l.index]? = some s) (hp : s.position = some p) :
    code.position? l = some p := by
  rw [Code.position?, h.labels l s p hs hp]
  rfl

end StackCode
