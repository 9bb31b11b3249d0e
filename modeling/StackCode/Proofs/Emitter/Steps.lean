import StackCode.Emitter.Operation
import StackCode.Proofs.Sequence

/-!
# What the elements of emission do

One equation for each element that operations on emitters are made of: moving the height, branching
to a label, marking it, and naming it in a table.
-/

namespace StackCode

namespace Emitter

/-! ## Heights -/

def Allows (pops : Nat) (e : Emitter) : Prop := ∀ d, e.depth = some d → pops ≤ d

def shift (pops pushes : Nat) (e : Emitter) : Emitter :=
  { e with
    depth := e.depth.map fun d => d - pops + pushes
    maxStack := e.depth.elim e.maxStack fun d => max e.maxStack (d - pops + pushes) }

theorem shrink_grow_eq_ok {pops pushes : Nat} {e e' : Emitter} :
    (do return (← e.shrink pops).grow pushes : Except Misuse Emitter) = .ok e' ↔
      e.Allows pops ∧ e' = e.shift pops pushes := by
  cases hd : e.depth with
  | none =>
    have hshift : (e.grow pushes) = e.shift pops pushes := by
      simp only [grow, shift, hd, Option.map_none, Option.elim_none]; rw [← hd]
    have hallows : e.Allows pops := fun d h => by simp [hd] at h
    simp only [shrink, hd, ok_bind, pure_eq_ok, hshift]
    exact ⟨fun h => ⟨hallows, h.symm⟩, fun h => h.2.symm⟩
  | some d =>
    simp only [shrink, hd]
    split
    · rename_i hle
      have hshift : ({ e with depth := some (d - pops) } : Emitter).grow pushes =
          e.shift pops pushes := by
        simp [grow, shift, hd]
      have hallows : e.Allows pops := fun d' h => by
        rw [hd] at h
        cases h
        exact hle
      simp only [ok_bind, pure_eq_ok, hshift]
      exact ⟨fun h => ⟨hallows, h.symm⟩, fun h => h.2.symm⟩
    · rename_i hlt
      exact ⟨fun h => (by cases h), fun h => absurd (h.1 d hd) hlt⟩

theorem effect_eq_ok {i : Instruction} {pops pushes : Nat} {e e' : Emitter} :
    e.effect i pops pushes = .ok e' ↔ e.Allows pops ∧ e' = (e.append i).shift pops pushes :=
  shrink_grow_eq_ok

/-! ## Labels -/

theorem eq_of_index {k l : Label} (h : k.index = l.index) : k = l := by
  cases k
  cases l
  exact congrArg Label.mk h

theorem label_eq_ok {l : Label} {s : LabelState} {e : Emitter} :
    e.label l = .ok s ↔ e.labels[l.index]? = some s := by
  unfold label
  cases e.labels[l.index]? <;> simp

theorem labels_setLabel {l : Label} {s t : LabelState} {e : Emitter}
    (hs : e.labels[l.index]? = some t) (k : Nat) :
    (e.setLabel l s).labels[k]? = if k = l.index then some s else e.labels[k]? := by
  by_cases hk : k = l.index
  · subst hk
    have hlt := (Array.getElem?_eq_some_iff.mp hs).1
    simp [setLabel, hlt]
  · rw [if_neg hk, setLabel, Array.getElem?_setIfInBounds_ne (Ne.symm hk)]

/-- Two heights agree where both are known. -/
def Agree (a b : Option Nat) : Prop := ∀ x y, a = some x → b = some y → x = y

/-- A branch records the height at its label, unless it finds one there, which then has to be the
same. -/
theorem branchTo_eq_ok {l : Label} {e e' : Emitter} (h : e.branchTo l = .ok e') :
    ∃ s, e.labels[l.index]? = some s ∧ Agree s.depth e.depth ∧
      e' = e.setLabel l { s with referenced := true, depth := s.depth <|> e.depth } := by
  simp only [branchTo, bind_eq_ok, label_eq_ok] at h
  obtain ⟨s, hs, h⟩ := h
  refine ⟨s, hs, ?_⟩
  cases hd : e.depth with
  | none =>
    rw [hd] at h
    refine ⟨fun x y _ hy => (by cases hy), ?_⟩
    cases hsd : s.depth <;> rw [hsd] at h <;> cases h <;> simp
  | some d =>
    rw [hd] at h
    cases hsd : s.depth with
    | none =>
      rw [hsd] at h
      cases h
      exact ⟨fun x y hx => (by cases hx), rfl⟩
    | some expected =>
      rw [hsd] at h
      simp only at h
      split at h
      · rename_i heq
        cases h
        exact ⟨fun x y hx hy => by cases hx; cases hy; exact heq, by simp⟩
      · cases h

theorem branchTo_of_agree {l : Label} {s : LabelState} {e : Emitter}
    (hs : e.labels[l.index]? = some s) (h : Agree s.depth e.depth) :
    e.branchTo l =
      .ok (e.setLabel l { s with referenced := true, depth := s.depth <|> e.depth }) := by
  simp only [branchTo, label_eq_ok.mpr hs, ok_bind]
  cases hsd : s.depth with
  | none => cases hd : e.depth <;> rfl
  | some expected =>
    cases hd : e.depth with
    | none => simp [pure, Except.pure]
    | some d =>
      obtain rfl := h expected d hsd hd
      simp [pure, Except.pure]

/-- A label is marked once. Marking makes the heights at the label and in the emitter the same, but
for debug labels. -/
theorem mark_eq_ok {l : Label} {e e' : Emitter} (h : e.mark l = .ok e') :
    ∃ s, e.labels[l.index]? = some s ∧ s.position = none ∧
      ((s.debugOnly = true ∧ e' = e.setLabel l { s with position := some e.instructions.size }) ∨
        (s.debugOnly = false ∧ Agree s.depth e.depth ∧
          e' = { e.setLabel l
              { s with position := some e.instructions.size, depth := s.depth <|> e.depth } with
            depth := e.depth <|> s.depth })) := by
  simp only [mark, bind_eq_ok, label_eq_ok] at h
  obtain ⟨s, hs, h⟩ := h
  refine ⟨s, hs, ?_⟩
  cases hp : s.position with
  | some p => simp [hp, bind_eq_ok, throw_ne_ok] at h
  | none =>
    refine ⟨rfl, ?_⟩
    simp only [hp, Option.isSome_none, Bool.false_eq_true, if_false] at h
    cases hdebug : s.debugOnly with
    | true =>
      simp only [hdebug, if_true] at h
      cases h
      exact .inl ⟨rfl, by simp⟩
    | false =>
      simp only [hdebug, Bool.false_eq_true, if_false] at h
      refine .inr ⟨rfl, ?_⟩
      cases hd : e.depth with
      | none =>
        rw [hd] at h
        cases h
        refine ⟨fun x y _ hy => (by cases hy), ?_⟩
        cases s.depth <;> simp
      | some d =>
        rw [hd] at h
        cases hsd : s.depth with
        | none =>
          rw [hsd] at h
          cases h
          exact ⟨fun x y hx => (by cases hx), by simp [setLabel, hd]⟩
        | some expected =>
          rw [hsd] at h
          simp only at h
          split at h
          · rename_i heq
            cases h
            exact ⟨fun x y hx hy => by cases hx; cases hy; exact heq, by simp [setLabel, hd]⟩
          · cases h

theorem mark_debugOnly {l : Label} {s : LabelState} {e : Emitter}
    (hs : e.labels[l.index]? = some s) (hp : s.position = none) (hdebug : s.debugOnly = true) :
    e.mark l = .ok (e.setLabel l { s with position := some e.instructions.size }) := by
  simp [mark, label_eq_ok.mpr hs, ok_bind, hp, hdebug, pure, Except.pure]

theorem mark_of_agree {l : Label} {s : LabelState} {e : Emitter}
    (hs : e.labels[l.index]? = some s) (hp : s.position = none) (hdebug : s.debugOnly = false)
    (h : Agree s.depth e.depth) :
    e.mark l = .ok { e.setLabel l
        { s with position := some e.instructions.size, depth := s.depth <|> e.depth } with
      depth := e.depth <|> s.depth } := by
  simp only [mark, label_eq_ok.mpr hs, ok_bind, hp, hdebug]
  cases hd : e.depth with
  | none => cases hsd : s.depth <;> rfl
  | some d =>
    cases hsd : s.depth with
    | none => simp [hd, setLabel, pure, Except.pure]
    | some expected =>
      obtain rfl := h expected d hsd hd
      simp [hd, setLabel, pure, Except.pure]

theorem refer_eq_ok {l : Label} {e e' : Emitter} (h : e.refer l = .ok e') :
    ∃ s, e.labels[l.index]? = some s ∧ e' = e.setLabel l { s with referenced := true } := by
  simp only [refer, bind_eq_ok, label_eq_ok, pure_eq_ok] at h
  obtain ⟨s, hs, he⟩ := h
  exact ⟨s, hs, he.symm⟩

/-! ## Branches and ends -/

theorem branch_eq_ok {i : Instruction} {pops : Nat} {l : Label} {e e' : Emitter}
    (h : e.branch i pops l = .ok e') :
    e.Allows pops ∧ ((e.append i).shift pops 0).branchTo l = .ok e' := by
  simp only [branch, bind_eq_ok, effect_eq_ok] at h
  obtain ⟨_, ⟨hallows, rfl⟩, h⟩ := h
  exact ⟨hallows, h⟩

theorem goto_eq_ok {l : Label} {e e' : Emitter} (h : e.goto l = .ok e') :
    ∃ e₁, ((e.append (.goto l)).shift 0 0).branchTo l = .ok e₁ ∧
      e' = { e₁ with depth := none } := by
  simp only [goto, bind_eq_ok, pure_eq_ok] at h
  obtain ⟨e₁, h₁, he⟩ := h
  exact ⟨e₁, (branch_eq_ok h₁).2, he.symm⟩

end Emitter

/-! ## Tables -/

def LabelState.bare (s : LabelState) : LabelState := { s with referenced := false }

namespace Emitter

/-- An emitter has the code of another, and may have other tables. -/
structure Annotates (e e' : Emitter) : Prop where
  instructions : e'.instructions = e.instructions
  pool : e'.pool = e.pool
  depth : e'.depth = e.depth
  maxStack : e'.maxStack = e.maxStack
  labels : e'.labels.map LabelState.bare = e.labels.map LabelState.bare

theorem Annotates.trans {e e₁ e₂ : Emitter} (h : e.Annotates e₁) (h' : e₁.Annotates e₂) :
    e.Annotates e₂ :=
  ⟨h'.instructions.trans h.instructions, h'.pool.trans h.pool, h'.depth.trans h.depth,
    h'.maxStack.trans h.maxStack, h'.labels.trans h.labels⟩

theorem annotates_reserve (index : UInt16) (type : Descriptor) (e : Emitter) :
    e.Annotates (e.reserve index type) :=
  ⟨rfl, rfl, rfl, rfl, rfl⟩

theorem annotates_of_refer {l : Label} {e e' : Emitter} (h : e.refer l = .ok e') :
    e.Annotates e' := by
  obtain ⟨s, hs, rfl⟩ := refer_eq_ok h
  refine ⟨rfl, rfl, rfl, rfl, Array.ext_getElem? fun k => ?_⟩
  simp only [setLabel, Array.getElem?_map]
  by_cases hk : l.index = k
  · subst hk
    obtain ⟨hlt, rfl⟩ := Array.getElem?_eq_some_iff.mp hs
    simp [hlt, LabelState.bare]
  · rw [Array.getElem?_setIfInBounds_ne hk]

theorem annotates_of_visitLocal {v : LocalVariable} {e e' : Emitter} (h : v.declare e = .ok e') :
    e.Annotates e' := by
  have hreserve := annotates_reserve v.index v.type e
  simp only [LocalVariable.declare, visitLocal] at h
  split at h
  · cases h
    exact hreserve
  · obtain ⟨e₁, h₁, h⟩ := bind_eq_ok.mp h
    obtain ⟨e₂, h₂, h⟩ := bind_eq_ok.mp h
    cases h
    exact ((hreserve.trans (annotates_of_refer h₁)).trans (annotates_of_refer h₂)).trans
      ⟨rfl, rfl, rfl, rfl, rfl⟩

theorem annotates_of_visitLine {line : Nat} {start : Label} {e e' : Emitter}
    (h : e.visitLine line start = .ok e') : e.Annotates e' := by
  simp only [visitLine] at h
  split at h
  · cases h
    exact ⟨rfl, rfl, rfl, rfl, rfl⟩
  · obtain ⟨e₁, h₁, h⟩ := bind_eq_ok.mp h
    cases h
    exact (annotates_of_refer h₁).trans ⟨rfl, rfl, rfl, rfl, rfl⟩

end Emitter

end StackCode
