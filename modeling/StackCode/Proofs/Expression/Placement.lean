import StackCode.Proofs.Emitter.Growth

/-!
# Where requests put their instructions

At a known height a request appends its instruction, and any body that the emitter yields later has
it there. A boolean made of a branch has its two paths laid out one after the other.
-/

namespace StackCode

structure Code.Places (code : Code) (i : Instruction) (pops pushes d : Nat)
    (e e' : Emitter) : Prop where
  instruction : code.instructions[e.instructions.size]? = some i
  size : e'.instructions.size = e.instructions.size + 1
  pops_le : pops ≤ d
  depth : e'.depth = some (d - pops + pushes)
  room : d - pops + pushes ≤ code.maxStack

namespace Code

variable {code : Code} {e e' : Emitter} {d pops pushes : Nat}

theorem Carries.places (hc : code.Carries e') (hd : e.depth = some d) {i : Instruction}
    (e₁ : Emitter) (hinstr : e₁.instructions = e.instructions.push i) (hdepth : e₁.depth = e.depth)
    (hallows : e₁.Allows pops) (he : e' = e₁.shift pops pushes) :
    code.Places i pops pushes d e e' := by
  subst he
  have hd₁ : e₁.depth = some d := hdepth.trans hd
  refine ⟨hc.instructions _ _ ?_, ?_, hallows d hd₁, ?_, Nat.le_trans ?_ hc.maxStack⟩
  · simp [Emitter.shift, hinstr]
  · simp [Emitter.shift, hinstr]
  · simp [Emitter.shift, hd₁]
  · simp only [Emitter.shift, hd₁, Option.elim_some]
    exact Nat.le_max_right ..

theorem Carries.places_plain (hc : code.Carries e') (hd : e.depth = some d) {i : Instruction}
    (h : (Request.plain i pops pushes).apply e = .ok e') : code.Places i pops pushes d e e' := by
  obtain ⟨hallows, he⟩ := Emitter.effect_eq_ok.mp h
  exact hc.places hd (e.append i) rfl rfl hallows he

theorem Carries.places_pooled (hc : code.Carries e') (hs : e.Sound) (hd : e.depth = some d)
    {use : PoolUse} {k : Constant} (h : (Request.pooled use k pops pushes).apply e = .ok e') :
    ∃ index, code.Places (use.instruction index) pops pushes d e e' ∧
      code.constant? index = some k := by
  obtain ⟨hallows, he⟩ := Emitter.shrink_grow_eq_ok.mp h
  refine ⟨(e.pool.add k).1, hc.places hd (e.withConstant k use.instruction) rfl rfl hallows he, ?_⟩
  subst he
  exact hc.constants _ _ (hs.pool.getElem?_add_fst hc.overflowed)

end Code

/-! ## Booleans -/

def Emitter.Fresh (e : Emitter) (n : Nat) : Prop :=
  ∃ referenced, e.labels[n]? = some ⟨none, false, none, referenced⟩

theorem Emitter.fresh_allocateLabel (e : Emitter) :
    ((e.allocateLabel false).2.allocateLabel false).2.Fresh e.labels.size := by
  refine ⟨false, ?_⟩
  simp only [allocateLabel]
  rw [Array.getElem?_push, if_neg (by rw [Array.size_push]; omega), Array.getElem?_push_size]

theorem Emitter.fresh_allocateLabel_succ (e : Emitter) :
    ((e.allocateLabel false).2.allocateLabel false).2.Fresh (e.labels.size + 1) := by
  have hsize : e.labels.size + 1 = (e.allocateLabel false).2.labels.size := (Array.size_push _).symm
  rw [hsize]
  exact ⟨false, Array.getElem?_push_size⟩

/-- The branch at `pc`, then the value of the path past it, a jump over the other path, and the
value of the path taken. -/
structure Code.Selects (code : Code) (pc : Nat) (i : Instruction) (n : Nat)
    (taken : Bool) : Prop where
  branch : code.instructions[pc]? = some i
  past : code.instructions[pc + 1]? = some (.iconst (if taken then 0 else 1))
  skip : code.instructions[pc + 2]? = some (.goto ⟨n + 1⟩)
  chosen : code.instructions[pc + 3]? = some (.iconst (if taken then 1 else 0))
  target : code.labelInfo? ⟨n⟩ = some ⟨some (pc + 3), false⟩
  stop : code.labelInfo? ⟨n + 1⟩ = some ⟨some (pc + 4), false⟩

/-- The part of a boolean from its branch on. -/
def selectRequests (i : Instruction) (pops : Nat) (taken : Bool) (n : Nat) : List Request :=
  [.branch i pops ⟨n⟩, boolRequest !taken, .goto ⟨n + 1⟩, .mark ⟨n⟩, boolRequest taken,
    .mark ⟨n + 1⟩]

theorem Emitter.branchTo_fresh {e e' : Emitter} {n d : Nat} (hn : e.Fresh n) (hd : e.depth = some d)
    (h : e.branchTo ⟨n⟩ = .ok e') :
    e' = e.setLabel ⟨n⟩ ⟨none, false, some d, true⟩ ∧ ∀ k, e'.labels[k]? =
      if k = n then some ⟨none, false, some d, true⟩ else e.labels[k]? := by
  obtain ⟨referenced, hs⟩ := hn
  obtain ⟨s, hs', _, rfl⟩ := branchTo_eq_ok h
  obtain rfl := Option.some.inj (hs.symm.trans hs')
  rw [hd]
  exact ⟨rfl, labels_setLabel hs⟩

theorem Emitter.mark_branched {e e' : Emitter} {n d : Nat} {referenced : Bool}
    (hn : e.labels[n]? = some ⟨none, false, some d, referenced⟩) (h : e.mark ⟨n⟩ = .ok e') :
    e'.instructions = e.instructions ∧ e'.depth = (e.depth <|> some d) ∧ Agree (some d) e.depth ∧
      ∀ k, e'.labels[k]? =
        if k = n then some ⟨some e.instructions.size, false, some d, referenced⟩
        else e.labels[k]? := by
  obtain ⟨s, hs, _, ⟨hdebug, _⟩ | ⟨_, hagree, rfl⟩⟩ := mark_eq_ok h
  · obtain rfl := Option.some.inj (hn.symm.trans hs)
    cases hdebug
  · obtain rfl := Option.some.inj (hn.symm.trans hs)
    exact ⟨rfl, rfl, hagree, labels_setLabel hn⟩

theorem Code.Carries.selects {code : Code} {e e' : Emitter} {i : Instruction} {pops n d : Nat}
    {taken : Bool} (hc : code.Carries e') (hd : e.depth = some d) (hn : e.Fresh n)
    (hn' : e.Fresh (n + 1)) (h : Request.applyAll (selectRequests i pops taken n) e = .ok e') :
    code.Selects e.instructions.size i n taken ∧ e'.instructions.size = e.instructions.size + 4 ∧
      pops ≤ d ∧ e'.depth = some (d - pops + 1) ∧ d - pops + 1 ≤ code.maxStack := by
  obtain ⟨e₁, h₁, h⟩ := bind_eq_ok.mp h
  obtain ⟨e₂, h₂, h⟩ := bind_eq_ok.mp h
  obtain ⟨e₃, h₃, h⟩ := bind_eq_ok.mp h
  obtain ⟨e₄, h₄, h⟩ := bind_eq_ok.mp h
  obtain ⟨e₅, h₅, h⟩ := bind_eq_ok.mp h
  obtain ⟨e₆, h₆, h⟩ := bind_eq_ok.mp h
  cases h
  have hc₅ := hc.of_extends (Request.extends h₆)
  have hc₄ := hc₅.of_extends (Request.extends h₅)
  have hc₃ := hc₄.of_extends (Request.extends h₄)
  have hc₂ := hc₃.of_extends (Request.extends h₃)
  have hc₁ := hc₂.of_extends (Request.extends h₂)
  -- the branch
  obtain ⟨hallows, hb₁⟩ := Emitter.branch_eq_ok h₁
  have hd₁ : ((e.append i).shift pops 0).depth = some (d - pops) := by
    simp [Emitter.shift, Emitter.append, hd]
  have hfresh : ((e.append i).shift pops 0).Fresh n := hn
  obtain ⟨he₁, hl₁⟩ := Emitter.branchTo_fresh hfresh hd₁ hb₁
  have hsize₁ : e₁.instructions.size = e.instructions.size + 1 := by
    simp [he₁, Emitter.setLabel, Emitter.shift, Emitter.append]
  have hdepth₁ : e₁.depth = some (d - pops) := by rw [he₁]; exact hd₁
  have hbranch : code.instructions[e.instructions.size]? = some i :=
    hc₁.instructions _ _ (by simp [he₁, Emitter.setLabel, Emitter.shift, Emitter.append])
  -- the value past it
  have hp₂ := hc₂.places_plain hdepth₁ h₂
  have hl₂ : e₂.labels = e₁.labels := by
    obtain ⟨_, rfl⟩ := Emitter.effect_eq_ok.mp h₂
    rfl
  -- the jump
  obtain ⟨e₃', hb₃, he₃⟩ := Emitter.goto_eq_ok h₃
  have hd₃ : ((e₂.append (.goto ⟨n + 1⟩)).shift 0 0).depth = some (d - pops + 1) := by
    simp [Emitter.shift, Emitter.append, hp₂.depth]
  have hfresh₂ : ((e₂.append (.goto ⟨n + 1⟩)).shift 0 0).Fresh (n + 1) := by
    obtain ⟨referenced, hs⟩ := hn'
    refine ⟨referenced, ?_⟩
    have hlabel : e₂.labels[n + 1]? = some ⟨none, false, none, referenced⟩ := by
      rw [hl₂, hl₁, if_neg (Nat.succ_ne_self n)]
      exact hs
    exact hlabel
  obtain ⟨he₃', hl₃⟩ := Emitter.branchTo_fresh hfresh₂ hd₃ hb₃
  have hsize₃ : e₃.instructions.size = e.instructions.size + 3 := by
    simp [he₃, he₃', Emitter.setLabel, Emitter.shift, Emitter.append, hp₂.size, hsize₁]
  have hskip : code.instructions[e.instructions.size + 2]? = some (.goto ⟨n + 1⟩) := by
    refine hc₃.instructions _ _ ?_
    have hsize : e.instructions.size + 2 = e₂.instructions.size := by rw [hp₂.size, hsize₁]
    simp [he₃, he₃', Emitter.setLabel, Emitter.shift, Emitter.append, hsize]
  -- the path taken
  have hlabel₃ : e₃.labels[n]? = some ⟨none, false, some (d - pops), true⟩ := by
    rw [he₃]
    refine (hl₃ n).trans ?_
    rw [if_neg (Nat.succ_ne_self n).symm]
    refine (congrArg (fun labels => labels[n]?) hl₂).trans ?_
    rw [hl₁, if_pos rfl]
  obtain ⟨hi₄, hdepth₄, _, hl₄⟩ := Emitter.mark_branched hlabel₃ h₄
  have hdepth₄' : e₄.depth = some (d - pops) := by
    rw [hdepth₄, he₃]
    rfl
  have hp₅ := hc₅.places_plain hdepth₄' h₅
  have hl₅ : e₅.labels = e₄.labels := by
    obtain ⟨_, rfl⟩ := Emitter.effect_eq_ok.mp h₅
    rfl
  -- the end of both
  have hlabel₅ : e₅.labels[n + 1]? = some ⟨none, false, some (d - pops + 1), true⟩ := by
    rw [hl₅, hl₄, if_neg (Nat.succ_ne_self n), he₃]
    exact (hl₃ (n + 1)).trans (if_pos rfl)
  obtain ⟨hi₆, hdepth₆, _, hl₆⟩ := Emitter.mark_branched hlabel₅ h₆
  have hsize₄ : e₄.instructions.size = e.instructions.size + 3 := by rw [hi₄, hsize₃]
  have hsize₅ : e₅.instructions.size = e.instructions.size + 4 := by rw [hp₅.size, hsize₄]
  refine ⟨⟨hbranch, ?_, hskip, ?_, ?_, ?_⟩, by rw [hi₆, hsize₅], hallows d hd, ?_, hp₂.room⟩
  · rw [← hsize₁, hp₂.instruction]
    cases taken <;> rfl
  · rw [← hsize₄, hp₅.instruction]
  · exact hc₄.labels ⟨n⟩ _ _ ((hl₄ n).trans (if_pos rfl)) (by simp [hsize₃])
  · exact hc.labels ⟨n + 1⟩ _ _ ((hl₆ (n + 1)).trans (if_pos rfl)) (by simp [hsize₅])
  · rw [hdepth₆, hp₅.depth]
    rfl

end StackCode
