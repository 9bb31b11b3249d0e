import StackCode.Proofs.Machine.Renaming

/-!
# Machines with other numbers

Two machines that differ in what they ran before differ in the numbers of their objects. Wherever
both come by a new object or a literal, the renaming grows by the pair of numbers; that a literal is
new to one machine and known to the other does no harm, for the pair never meets a number that is
renamed already.
-/

namespace StackCode

namespace Machine

/-- Literals have numbers that were given out, and no two have the same. -/
structure Numbered (m : Machine) : Prop where
  below : ∀ text n, m.literals.lookup text = some n → n < m.supply
  distinct : ∀ s t n, m.literals.lookup s = some n → m.literals.lookup t = some n → s = t

variable {m m' : Machine} {r : Nat → Nat → Prop}

theorem numbered_initial (l : Loader) (options : ExecutionOptions) (supply : Nat) :
    (initial l options supply).Numbered :=
  ⟨nofun, nofun⟩

theorem literal_of_lookup {text : String} {n : Nat} (h : m.literals.lookup text = some n) :
    m.literal text = (⟨n, .text text⟩, m) := by
  rw [literal, h]

theorem literal_of_none {text : String} (h : m.literals.lookup text = none) :
    m.literal text = (⟨m.supply, .text text⟩,
      { m with supply := m.supply + 1, literals := (text, m.supply) :: m.literals }) := by
  rw [literal, h]
  rfl

theorem lookup_literal (s t : String) :
    (m.literal t).2.literals.lookup s =
      if s = t then some (m.literal t).1.number else m.literals.lookup s := by
  cases h : m.literals.lookup t with
  | some n =>
    rw [literal_of_lookup h]
    split
    · rename_i hst
      rw [hst, h]
    · rfl
  | none =>
    rw [literal_of_none h]
    by_cases hst : s = t
    · simp [hst]
    · simp [List.lookup_cons, beq_false_of_ne hst, hst]

theorem Numbered.withDepth (h : m.Numbered) (n : Nat) : Numbered { m with depth := n } :=
  ⟨h.below, h.distinct⟩

theorem Numbered.allocate (h : m.Numbered) (content : Content) : (m.allocate content).2.Numbered :=
  ⟨fun text n hn => Nat.lt_succ_of_lt (h.below text n hn), h.distinct⟩

theorem Numbered.literal_number (h : m.Numbered) (text : String) :
    m.supply ≤ (m.literal text).2.supply ∧
      (m.literal text).1.number < (m.literal text).2.supply := by
  cases hl : m.literals.lookup text with
  | some n =>
    rw [literal_of_lookup hl]
    exact ⟨Nat.le_refl _, h.below text n hl⟩
  | none =>
    rw [literal_of_none hl]
    exact ⟨Nat.le_succ _, Nat.lt_succ_self _⟩

theorem Numbered.eq_of_literal (h : m.Numbered) {s t : String}
    (hs : m.literals.lookup s = some (m.literal t).1.number) : s = t := by
  cases hl : m.literals.lookup t with
  | some n =>
    rw [literal_of_lookup hl] at hs
    exact h.distinct s t n hs hl
  | none =>
    rw [literal_of_none hl] at hs
    exact absurd (h.below s _ hs) (Nat.lt_irrefl _)

theorem Numbered.literal (h : m.Numbered) (text : String) : (m.literal text).2.Numbered := by
  obtain ⟨hle, hlt⟩ := h.literal_number text
  refine ⟨fun s n hs => ?_, fun s t n hs ht => ?_⟩
  · rw [lookup_literal] at hs
    split at hs
    · cases hs
      exact hlt
    · exact Nat.lt_of_lt_of_le (h.below s n hs) hle
  · rw [lookup_literal] at hs ht
    by_cases hst : s = text
    · by_cases htt : t = text
      · rw [hst, htt]
      · rw [if_pos hst] at hs
        rw [if_neg htt, ← hs] at ht
        exact hst.trans (h.eq_of_literal ht).symm
    · by_cases htt : t = text
      · rw [if_pos htt] at ht
        rw [if_neg hst, ← ht] at hs
        exact (h.eq_of_literal hs).trans htt.symm
      · rw [if_neg hst] at hs
        rw [if_neg htt] at ht
        exact h.distinct s t n hs ht

/-! ## The renaming of a step -/

def joined (r : Nat → Nat → Prop) (a b x y : Nat) : Prop := r x y ∨ (x = a ∧ y = b)

theorem joined_self (r : Nat → Nat → Prop) (a b : Nat) : joined r a b a b := .inr ⟨rfl, rfl⟩

theorem flip_joined (a b : Nat) : flip (joined r a b) = joined (flip r) b a := by
  funext x y
  simp [flip, joined, and_comm]

/-- A renaming of the numbers that one machine gave out, one way: literals that the other machine
knows have its number for them, and other literals have none. -/
structure Follows (r : Nat → Nat → Prop) (m m' : Machine) : Prop where
  numbered : m.Numbered
  below : ∀ a b, r a b → a < m.supply
  single : ∀ a b c, r a b → r a c → b = c
  literals : ∀ text a b, m.literals.lookup text = some a →
    (r a b ↔ m'.literals.lookup text = some b)

theorem Follows.withDepth (h : Follows r m m') (n n' : Nat) :
    Follows r { m with depth := n } { m' with depth := n' } :=
  ⟨h.numbered.withDepth n, h.below, h.single, h.literals⟩

theorem Follows.allocate (h : Follows r m m') (content : Content) :
    Follows (joined r m.supply m'.supply) (m.allocate content).2 (m'.allocate content).2 where
  numbered := h.numbered.allocate content
  below := fun a b hab => by
    rcases hab with hab | ⟨rfl, _⟩
    · exact Nat.lt_succ_of_lt (h.below a b hab)
    · exact Nat.lt_succ_self _
  single := fun a b c hab hac => by
    rcases hab with hab | ⟨rfl, rfl⟩ <;> rcases hac with hac | ⟨ha, rfl⟩
    · exact h.single a b c hab hac
    · exact absurd (ha ▸ h.below a b hab) (Nat.lt_irrefl _)
    · exact absurd (h.below _ c hac) (Nat.lt_irrefl _)
    · rfl
  literals := fun text a b ha =>
    ⟨fun hab => by
      rcases hab with hab | ⟨rfl, _⟩
      · exact (h.literals text a b ha).mp hab
      · exact absurd (h.numbered.below text _ ha) (Nat.lt_irrefl _),
    fun hb => .inl ((h.literals text a b ha).mpr hb)⟩

theorem Follows.eq_of_literal (h : Follows r m m') {text : String} {b : Nat}
    (hb : r (m.literal text).1.number b) : b = (m'.literal text).1.number := by
  cases hl : m.literals.lookup text with
  | some n =>
    rw [literal_of_lookup hl] at hb
    rw [literal_of_lookup ((h.literals text n b hl).mp hb)]
  | none =>
    rw [literal_of_none hl] at hb
    exact absurd (h.below _ b hb) (Nat.lt_irrefl _)

theorem Follows.literal (h : Follows r m m') (text : String) :
    Follows (joined r (m.literal text).1.number (m'.literal text).1.number) (m.literal text).2
      (m'.literal text).2 where
  numbered := h.numbered.literal text
  below := fun a b hab => by
    obtain ⟨hle, hlt⟩ := h.numbered.literal_number text
    rcases hab with hab | ⟨rfl, _⟩
    · exact Nat.lt_of_lt_of_le (h.below a b hab) hle
    · exact hlt
  single := fun a b c hab hac => by
    rcases hab with hab | ⟨rfl, rfl⟩ <;> rcases hac with hac | ⟨ha, rfl⟩
    · exact h.single a b c hab hac
    · exact h.eq_of_literal (ha ▸ hab)
    · exact (h.eq_of_literal hac).symm
    · rfl
  literals := fun s a b ha => by
    rw [lookup_literal] at ha ⊢
    -- the text itself now has a number on both sides, and the new pair says nothing of other texts
    by_cases hs : s = text
    · rw [if_pos hs] at ha ⊢
      cases ha
      rw [Option.some.injEq]
      refine ⟨fun hab => ?_, fun hb => .inr ⟨rfl, hb.symm⟩⟩
      rcases hab with hab | ⟨_, rfl⟩
      · exact (h.eq_of_literal hab).symm
      · rfl
    · rw [if_neg hs] at ha ⊢
      rw [← h.literals s a b ha]
      refine ⟨fun hab => ?_, .inl⟩
      rcases hab with hab | ⟨rfl, _⟩
      · exact hab
      · exact absurd (h.numbered.eq_of_literal ha) hs

/-- A renaming between two machines, whatever their loaders, options and depths. -/
structure Mirrors (r : Nat → Nat → Prop) (m m' : Machine) : Prop where
  forth : Follows r m m'
  back : Follows (flip r) m' m

theorem Mirrors.paired (h : m.Mirrors r m') : Paired r := fun a b c d hab hcd =>
  ⟨fun hac => h.forth.single c b d (hac ▸ hab) hcd, fun hbd => h.back.single d a c (hbd ▸ hab) hcd⟩

theorem Mirrors.literal (h : m.Mirrors r m') (text : String) :
    (m.literal text).2.Mirrors (joined r (m.literal text).1.number (m'.literal text).1.number)
      (m'.literal text).2 :=
  ⟨h.forth.literal text, flip_joined (r := r) _ _ ▸ h.back.literal text⟩

/-- Machines alike but for the numbers of their objects. -/
structure Renames (r : Nat → Nat → Prop) (m m' : Machine) : Prop where
  loader : m'.loader = m.loader
  options : m'.options = m.options
  depth : m'.depth = m.depth
  ordinary : m.loader.Ordinary
  forth : Follows r m m'
  back : Follows (flip r) m' m

theorem Renames.mirrors (h : m.Renames r m') : m.Mirrors r m' := ⟨h.forth, h.back⟩

theorem Renames.paired (h : m.Renames r m') : Paired r := h.mirrors.paired

theorem Renames.withDepth (h : m.Renames r m') {n n' : Nat} (hn : n' = n) :
    ({ m with depth := n } : Machine).Renames r { m' with depth := n' } :=
  ⟨h.loader, h.options, hn, h.ordinary, h.forth.withDepth n n', h.back.withDepth n' n⟩

theorem Renames.allocate (h : m.Renames r m') (content : Content) :
    (m.allocate content).2.Renames (joined r m.supply m'.supply) (m'.allocate content).2 :=
  ⟨h.loader, h.options, h.depth, h.ordinary, h.forth.allocate content,
    flip_joined (r := r) _ _ ▸ h.back.allocate content⟩

theorem Renames.literal (h : m.Renames r m') (text : String) :
    (m.literal text).2.Renames (joined r (m.literal text).1.number (m'.literal text).1.number)
      (m'.literal text).2 :=
  ⟨by simp [h.loader], by simp [h.options], by simp [h.depth], by simp [h.ordinary],
    (h.mirrors.literal text).forth, (h.mirrors.literal text).back⟩

end Machine

end StackCode
