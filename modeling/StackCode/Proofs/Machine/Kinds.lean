import StackCode.Machine.Basic
import StackCode.Proofs.Sequence
import StackCode.Verifier.Step

/-!
# Kinds of run-time stacks

A run-time stack fits a stack of kinds if its values have these kinds and its counter has their
slots. Pops of what is expected succeed on a stack that fits, and so do pushes below the limit.
-/

namespace StackCode

theorem slotHeight_append (s t : List Kind) :
    slotHeight (s ++ t) = slotHeight s + slotHeight t := by
  induction s with
  | nil => simp [slotHeight]
  | cons k s ih => simp [slotHeight, ih, Nat.add_assoc]

namespace Value

theorem size_of_kind? {v : Value} {k : Kind} (h : v.kind? = some k) : v.size = k.size := by
  cases v <;> cases h <;> rfl

theorem int?_of_kind? {v : Value} (h : v.kind? = some .int) : ∃ n, v.int? = some n := by
  cases v <;> cases h; exact ⟨_, rfl⟩

theorem reference?_of_kind? {v : Value} (h : v.kind? = some .reference) :
    ∃ o, v.reference? = some o := by
  cases v <;> cases h <;> exact ⟨_, rfl⟩

theorem convert_of_kind? {c : Conversion} {v : Value} (h : v.kind? = some c.source) :
    ∃ w, convert c v = some w ∧ w.kind? = some c.target := by
  obtain ⟨w, hw⟩ := Option.isSome_iff_exists.mp ((convert_isSome c v).trans (by simp [h]))
  exact ⟨w, hw, convert_kind hw⟩

theorem ofOrdering_kind? (o : Ordering) : (ofOrdering o).kind? = some .int := by
  cases o <;> rfl

theorem reduce_of_kind? {r : Reduction} {x y : Value} (hx : x.kind? = some r.operand)
    (hy : y.kind? = some r.operand) : ∃ w, reduce r x y = some w ∧ w.kind? = some .int := by
  cases r <;> cases x <;> cases hx <;> cases y <;> cases hy <;> exact ⟨_, rfl, ofOrdering_kind? _⟩

theorem reduce_eq_none {r : Reduction} {y : Value} (hy : y.kind? ≠ some r.operand) (x : Value) :
    reduce r x y = none := by
  cases r <;> cases x <;> cases y <;> first | rfl | exact absurd rfl hy

end Value

def slotsOf : List Value → Nat
  | [] => 0
  | v :: values => v.size + slotsOf values

theorem slotsOf_cons (v : Value) (values : List Value) :
    slotsOf (v :: values) = v.size + slotsOf values :=
  rfl

def Constant.number? : Constant → Option Value
  | int v => some (.int v)
  | float v => some (.float v)
  | long v => some (.long v)
  | double v => some (.double v)
  | _ => none

theorem Machine.load_number {a : Activation} {index : UInt16} {k : Constant} {v : Value}
    (hk : a.code.constant? index = some k) (hv : k.number? = some v) :
    load a index = (do return .proceed (← a.stack.push v)) := by
  cases k <;> cases hv <;> simp only [load, hk]

namespace Stack

/-- The values have the given kinds, and the counter has their slots. -/
structure Fits (s : Stack) (kinds : List Kind) : Prop where
  values : s.values.map Value.kind? = kinds.map some
  slots : s.slots = slotHeight kinds

theorem fits_empty (limit : Nat) : (Stack.empty limit).Fits [] := ⟨rfl, rfl⟩

variable {s : Stack} {k : Kind} {kinds rest : List Kind} {v : Value}

theorem Fits.push (h : s.Fits kinds) (hv : v.kind? = some k)
    (hl : slotHeight (k :: kinds) ≤ s.limit) :
    ∃ t, s.push v = .ok t ∧ t.Fits (k :: kinds) ∧ t.limit = s.limit ∧ t.values = v :: s.values := by
  have hslots : s.slots + v.size = slotHeight (k :: kinds) := by
    rw [h.slots, Value.size_of_kind? hv, slotHeight, Nat.add_comm]
  refine ⟨⟨v :: s.values, s.slots + v.size, s.limit⟩, ?_, ⟨?_, hslots⟩, rfl, rfl⟩
  · simp only [Stack.push]
    rw [if_pos (hslots ▸ hl)]
  · simp [hv, h.values]

theorem Fits.pop (h : s.Fits (k :: kinds)) (pc : Nat) :
    ∃ v t, s.pop pc = .ok (v, t) ∧ v.kind? = some k ∧ t.Fits kinds ∧ t.limit = s.limit ∧
      s.values = v :: t.values := by
  obtain ⟨values, slots, limit⟩ := s
  cases values with
  | nil => exact absurd h.values (by simp)
  | cons v values =>
    obtain ⟨hv, hvs⟩ : v.kind? = some k ∧ values.map Value.kind? = kinds.map some := by
      simpa using h.values
    refine ⟨v, ⟨values, slots - v.size, limit⟩, rfl, hv, ⟨hvs, ?_⟩, rfl, rfl⟩
    have hslots : slots = k.size + slotHeight kinds := h.slots
    simp only [Value.size_of_kind? hv]
    omega

theorem Fits.popAs {α : Type} (h : s.Fits (k :: kinds)) (pc : Nat) (view : Value → Option α)
    (hview : ∀ v, v.kind? = some k → ∃ a, view v = some a) :
    ∃ v a t, s.popAs pc k view = .ok (a, t) ∧ v.kind? = some k ∧ view v = some a ∧ t.Fits kinds ∧
      t.limit = s.limit ∧ s.values = v :: t.values := by
  obtain ⟨v, t, hp, hv, ht, hl, hvs⟩ := h.pop pc
  obtain ⟨a, ha⟩ := hview v hv
  exact ⟨v, a, t, by simp only [Stack.popAs, hp, ok_bind, ha]; rfl, hv, ha, ht, hl, hvs⟩

theorem Fits.popMany {kinds : List Kind} (pc : Nat) (h : s.Fits (kinds ++ rest))
    (taken : List Value) :
    ∃ vs t, s.popMany pc kinds.length taken = .ok (vs ++ taken, t) ∧
      vs.map Value.kind? = kinds.reverse.map some ∧ t.Fits rest ∧ t.limit = s.limit ∧
      s.values = vs.reverse ++ t.values := by
  induction kinds generalizing s taken with
  | nil => exact ⟨[], s, rfl, rfl, h, rfl, rfl⟩
  | cons k kinds ih =>
    obtain ⟨v, t, hp, hv, ht, hl, hvs⟩ := Fits.pop (show s.Fits (k :: (kinds ++ rest)) from h) pc
    obtain ⟨vs, u, hm, hvs', hu, hl', hus⟩ := ih ht (v :: taken)
    refine ⟨vs ++ [v], u, ?_, by simp [hvs', hv], hu, hl'.trans hl, by simp [hvs, hus]⟩
    simp only [List.length_cons, Stack.popMany, hp, ok_bind, hm, List.append_assoc,
      List.singleton_append]

end Stack

end StackCode
