import StackCode.Proofs.Expression.Constancy

/-!
# Identity of string literals

Over the life of a machine the loads of a text all push one object, and no other object is it. So a
comparison of two texts for identity says whether they are equal.
-/

namespace StackCode

/-! ## Comparisons of texts -/

def Expression.sameTexts (a b : String) : Expression :=
  .compare .eq (.constant (.string a)) (.constant (.string b))

theorem Machine.Numbered.same_literals {m : Machine} (h : m.Numbered) (a b : String) :
    Value.same (.object (m.literal a).1) (.object ((m.literal a).2.literal b).1) =
      decide (a = b) := by
  rw [Value.same_objects, Bool.eq_iff_iff, beq_iff_eq, decide_eq_true_iff]
  exact (remembers_literal h a).number_eq_iff b

theorem Expression.alwaysPushes_sameTexts (a b : String) :
    (sameTexts a b).AlwaysPushes (.ofBool (a = b)) := by
  have htyped : (sameTexts a b).Typed := ⟨trivial, trivial, rfl, rfl, nofun⟩
  refine htyped.alwaysPushes (suits_of_isConstant rfl) fun m locals stack hm => ?_
  refine ⟨((m.literal a).2.literal b).2, .ofBool (a = b), ?_, .plain rfl⟩
  rw [← hm.same_literals a b]
  rfl

/-! ## Loads over a life -/

namespace Configuration.LoadsText

variable {c c' : Configuration} {s t : String} {v w : Value}

theorem same_iff (h : c.LoadsText s v) (hm : c.machine.Numbered)
    (hlater : c.step.Later (.running c')) (h' : c'.LoadsText t w) : v.same w = true ↔ s = t := by
  obtain ⟨rfl, hstep⟩ := h.literal
  obtain ⟨rfl, -⟩ := h'.literal
  have hremembers := (Machine.remembers_invariant s _).later hlater
    (hstep ▸ Machine.remembers_literal hm s)
  rw [Value.same_objects, beq_iff_eq]
  exact hremembers.number_eq_iff t

theorem not_same_of_spares {o : Object} (h : c.LoadsText s v) (ho : c.machine.Spares o.number) :
    v.same (.object o) = false := by
  obtain ⟨rfl, -⟩ := h.literal
  rw [Value.same_objects, beq_eq_false_iff_ne]
  exact ho.number_ne s

theorem not_same_later (h : c.LoadsText s v) (hm : c.machine.Numbered) {p : Progress}
    (hlater : c.step.Later p) (content : Content) :
    v.same (.object (p.machine.allocate content).1) = false := by
  obtain ⟨rfl, hstep⟩ := h.literal
  have hremembers := (Machine.remembers_invariant s _).later hlater
    (hstep ▸ Machine.remembers_literal hm s)
  rw [Value.same_objects, beq_eq_false_iff_ne]
  exact Nat.ne_of_lt (hremembers.numbered.below s _ hremembers.lookup)

end Configuration.LoadsText

/-- **Literals are identical exactly if their texts are equal.** Whatever a machine runs over its
life, tasks that fail included, two loads of texts push the same object if the texts are equal and
never otherwise. None pushes an object that the caller made, before the machine or during its life,
before the load or after it. So the comparison of two texts for identity can be built, and wherever
an emitter puts it its code pushes whether they are equal. -/
theorem Machine.literal_identity (l : Loader) (options : ExecutionOptions) (supply : Nat)
    (task : Task) :
    (∀ (c c' : Configuration) (s t : String) (v w : Value),
      ((initial l options supply).begin task).Later (.running c) → c.LoadsText s v →
      c.step.Later (.running c') → c'.LoadsText t w → (v.same w = true ↔ s = t)) ∧
    (∀ (c : Configuration) (s : String) (v : Value),
      ((initial l options supply).begin task).Later (.running c) → c.LoadsText s v →
      (∀ o : Object, o.number < supply → v.same (.object o) = false) ∧
      ∀ (p : Progress) (content : Content),
        (((initial l options supply).begin task).Later p →
          (p.creating content).Later (.running c) →
            v.same (.object (p.machine.allocate content).1) = false) ∧
        (c.step.Later p → v.same (.object (p.machine.allocate content).1) = false)) ∧
    ∀ a b : String, Expression.comparing .eq (.constant (.string a)) (.constant (.string b)) =
      .ok (.sameTexts a b) ∧ (Expression.sameTexts a b).AlwaysPushes (.ofBool (a = b)) := by
  have hnumbered {p : Progress} (hp : ((initial l options supply).begin task).Later p) :
      p.machine.Numbered :=
    numbered_invariant.born (numbered_initial l options supply) hp
  refine ⟨?_, ?_, fun a b => ⟨rfl, Expression.alwaysPushes_sameTexts a b⟩⟩
  · intro c c' s t v w hc h hlater h'
    exact h.same_iff (hnumbered hc) hlater h'
  · intro c s v hc h
    refine ⟨?_, fun p content => ⟨?_, ?_⟩⟩
    · intro o ho
      exact h.not_same_of_spares
        ((spares_invariant o.number).born (spares_initial l options ho) hc)
    · intro hp hlater
      have hmade : (p.creating content).machine.Spares (p.machine.allocate content).1.number := by
        rw [Progress.machine_creating]
        exact spares_allocate (hnumbered hp) content
      exact h.not_same_of_spares ((spares_invariant _).later hlater hmade)
    · intro hlater
      exact h.not_same_later (hnumbered hc) hlater content

namespace Machine

def greeting : Configuration := ⟨greeter 0, .start greetCode none [], []⟩

def greetingAgain : Configuration :=
  ⟨{ greeted with supply := 2, depth := 1 }, .start greetCode (some greetRef.method) [.int 3], []⟩

def hi (number : Nat) : Value := .object ⟨number, .text "hi"⟩

theorem greeting_loads : greeting.LoadsText "hi" (hi 0) where
  loads := ⟨0, .inl rfl, rfl⟩
  pushes := ⟨_, rfl, rfl⟩

theorem greetingAgain_loads : greetingAgain.LoadsText "hi" (hi 0) where
  loads := ⟨0, .inl rfl, rfl⟩
  pushes := ⟨_, rfl, rfl⟩

theorem greeting_later :
    greeting.step.Later (.stopped greeted (.completed (.returned (some (hi 0))))) :=
  Progress.later_after greeting.step 1

theorem greetingAgain_later : greeting.step.Later (.running greetingAgain) := by
  have hbegin : ({ greeted with supply := 2 } : Machine).begin (.invokeStatic greetRef [.int 3]) =
      .running greetingAgain := by cbv
  have hmade := greeting_later.tail (.create (.text "hi") _)
  exact hbegin ▸ hmade.tail (.task _ _ _)

/-- Both loads push object 0, and the caller's text is object 1. -/
theorem literal_identity_greeted : greeting.LoadsText "hi" (hi 0) ∧
    greetingAgain.LoadsText "hi" (hi 0) ∧ greeting.step.Later (.running greetingAgain) ∧
    ((hi 0).same (hi 0) = true ↔ "hi" = "hi") ∧ (hi 0).same (hi 1) = false := by
  obtain ⟨hloads, hmade, -⟩ := literal_identity ((Loader.initial 0 {}).defineAll [greeterClass])
    { maxDepth := 2 } 0 (.execute greetCode [])
  obtain ⟨-, hobjects⟩ := hmade greeting "hi" (hi 0) .refl greeting_loads
  exact ⟨greeting_loads, greetingAgain_loads, greetingAgain_later,
    hloads greeting greetingAgain _ _ _ _ .refl greeting_loads greetingAgain_later
      greetingAgain_loads,
    (hobjects _ (.text "hi")).2 greeting_later⟩

end Machine

end StackCode
