import Mathlib.Data.Finset.Card
import StackCode.Proofs.Emitter.Growth

/-!
# What finishing finds

Whether an emitter can be finished is told by the requests made of it: how many different constants
they asked for, which labels they named, and which ones they marked.
-/

namespace StackCode

/-! ## Constants asked for -/

namespace ConstantPool

/-- The pool has the constants asked for, each once, or they are more than can be addressed. -/
structure Holds (p : ConstantPool) (cs : List Constant) : Prop where
  nodup : p.entries.toList.Nodup
  found : ∀ c ∈ p.entries.toList, (p.index[c]?).isSome
  asked : ∀ c ∈ p.entries.toList, c ∈ cs
  complete : p.overflowed = false → ∀ c ∈ cs, c ∈ p.entries.toList
  full : p.overflowed = true → capacity < cs.toFinset.card

variable {p : ConstantPool} {cs : List Constant}

theorem holds_empty : empty.Holds [] where
  nodup := List.nodup_nil
  found c h := by simp [empty] at h
  asked c h := by simp [empty] at h
  complete _ c h := by cases h
  full h := by cases h

theorem Holds.capacity_lt (h : p.Holds cs) {c : Constant} (hc : c ∉ p.entries.toList)
    (hfull : capacity ≤ p.entries.size) : capacity < (cs ++ [c]).toFinset.card := by
  have hsub : insert c p.entries.toList.toFinset ⊆ (cs ++ [c]).toFinset := by
    intro k hk
    rw [Finset.mem_insert, List.mem_toFinset] at hk
    rw [List.mem_toFinset, List.mem_append, List.mem_singleton]
    rcases hk with hk | hk
    · exact .inr hk
    · exact .inl (h.asked k hk)
  have hcard := Finset.card_le_card hsub
  rw [Finset.card_insert_of_notMem (by rwa [List.mem_toFinset]),
    List.toFinset_card_of_nodup h.nodup, Array.length_toList] at hcard
  omega

theorem Holds.add (h : p.Holds cs) (hs : p.Sound) (c : Constant) :
    (p.add c).2.Holds (cs ++ [c]) := by
  have hmono : cs.toFinset.card ≤ (cs ++ [c]).toFinset.card := by
    rw [List.toFinset_append]
    exact Finset.card_le_card Finset.subset_union_left
  have habsent (hnone : p.index[c]? = none) : c ∉ p.entries.toList := by
    intro hmem
    have hsome := h.found c hmem
    rw [hnone] at hsome
    cases hsome
  rcases p.add_cases c with ⟨i, hi, he⟩ | ⟨hnone, hlt, he⟩ | ⟨hnone, hfull, he⟩
  · rw [he]
    refine ⟨h.nodup, h.found, fun k hk => List.mem_append_left _ (h.asked k hk),
      fun ho k hk => ?_, fun ho => (h.full ho).trans_le hmono⟩
    rcases List.mem_append.mp hk with hk | hk
    · exact h.complete ho k hk
    · rw [List.mem_singleton.mp hk]
      exact Array.mem_toList_iff.mpr (Array.mem_of_getElem? (hs.index c i hi))
  · rw [he]
    refine ⟨?_, fun k hk => ?_, fun k hk => ?_, fun ho k hk => ?_,
      fun ho => (h.full ho).trans_le hmono⟩
    · rw [Array.toList_push]
      exact h.nodup.append (List.nodup_singleton c) (by simpa using habsent hnone)
    · rw [Std.HashMap.getElem?_insert]
      split
      · rfl
      · rename_i hne
        rw [Array.toList_push, List.mem_append, List.mem_singleton] at hk
        rcases hk with hk | rfl
        · exact h.found k hk
        · exact absurd (beq_self_eq_true k) hne
    · rw [Array.toList_push, List.mem_append] at hk
      exact List.mem_append.mpr (hk.imp_left (h.asked k))
    · rw [Array.toList_push, List.mem_append]
      exact (List.mem_append.mp hk).imp_left (h.complete ho k)
  · rw [he]
    exact ⟨h.nodup, h.found, fun k hk => List.mem_append_left _ (h.asked k hk),
      fun ho => (by cases ho), fun _ => h.capacity_lt (habsent hnone) hfull⟩

theorem Holds.overflowed_iff (h : p.Holds cs) (hs : p.Sound) :
    p.overflowed = true ↔ capacity < cs.toFinset.card := by
  refine ⟨h.full, fun hlt => ?_⟩
  by_contra ho
  have hsub : cs.toFinset ⊆ p.entries.toList.toFinset := by
    intro c hc
    rw [List.mem_toFinset] at hc ⊢
    exact h.complete (by simpa using ho) c hc
  have hcard := Finset.card_le_card hsub
  rw [List.toFinset_card_of_nodup h.nodup, Array.length_toList] at hcard
  exact absurd (hcard.trans hs.size) (Nat.not_le_of_lt hlt)

end ConstantPool

namespace Request

def constant? : Request → Option Constant
  | pooled _ c _ _ => some c
  | _ => none

def constants (rs : List Request) : List Constant := rs.filterMap constant?

/-- The labels that a request names; tables count only with debug information. -/
def named (debugInfo : Bool) : Request → List Label
  | branch _ _ l | goto l => [l]
  | visitLocal v => if debugInfo then [v.start, v.stop] else []
  | visitLine _ l => if debugInfo then [l] else []
  | _ => []

end Request

namespace Emitter

/-! ## Labels named and marked -/

def Passes (e : Emitter) (test : LabelState → Bool) (l : Label) : Prop :=
  ∃ s, e.labels[l.index]? = some s ∧ test s = true

def Marked (e : Emitter) (l : Label) : Prop := e.Passes (fun s => s.position.isSome) l

def Named (e : Emitter) (l : Label) : Prop := e.Passes LabelState.referenced l

theorem passes_setLabel {e : Emitter} {l : Label} {s : LabelState}
    (hs : e.labels[l.index]? = some s) (test : LabelState → Bool) (t : LabelState) (k : Label) :
    (e.setLabel l t).Passes test k ↔ if k = l then test t = true else e.Passes test k := by
  unfold Passes
  rw [labels_setLabel hs]
  by_cases hk : k = l
  · simp [hk]
  · have hne : k.index ≠ l.index := fun h => hk (eq_of_index h)
    simp [hk, hne]

theorem passes_allocateLabel (e : Emitter) (debugOnly : Bool) {test : LabelState → Bool}
    (h : test ⟨none, debugOnly, none, false⟩ = false) (k : Label) :
    (e.allocateLabel debugOnly).2.Passes test k ↔ e.Passes test k := by
  unfold Passes allocateLabel
  simp only [Array.getElem?_push]
  split
  · rename_i hk
    simp [hk, h]
  · rfl

theorem passes_of_setLabel {e : Emitter} {l : Label} {s t : LabelState} {test : LabelState → Bool}
    (hs : e.labels[l.index]? = some s) (ht : test t = test s) (k : Label) :
    (e.setLabel l t).Passes test k ↔ e.Passes test k := by
  rw [passes_setLabel hs]
  split
  · rename_i hk
    subst hk
    rw [ht]
    exact ⟨fun h => ⟨s, hs, h⟩, fun ⟨s', hs', h⟩ => Option.some.inj (hs.symm.trans hs') ▸ h⟩
  · rfl

section
variable {e e' : Emitter} {l : Label}

theorem named_refer (h : e.refer l = .ok e') (k : Label) : e'.Named k ↔ e.Named k ∨ k = l := by
  obtain ⟨s, hs, rfl⟩ := refer_eq_ok h
  unfold Named
  rw [passes_setLabel hs]
  split <;> simp_all

theorem named_branchTo (h : e.branchTo l = .ok e') (k : Label) :
    e'.Named k ↔ e.Named k ∨ k = l := by
  obtain ⟨s, hs, _, rfl⟩ := branchTo_eq_ok h
  unfold Named
  rw [passes_setLabel hs]
  split <;> simp_all

theorem marked_branchTo (h : e.branchTo l = .ok e') (k : Label) : e'.Marked k ↔ e.Marked k := by
  obtain ⟨s, hs, _, rfl⟩ := branchTo_eq_ok h
  exact passes_of_setLabel hs (by rfl) k

theorem named_mark (h : e.mark l = .ok e') (k : Label) : e'.Named k ↔ e.Named k := by
  obtain ⟨s, hs, _, ⟨_, rfl⟩ | ⟨_, _, rfl⟩⟩ := mark_eq_ok h
  · exact passes_of_setLabel hs (by rfl) k
  · exact passes_of_setLabel hs (by rfl) k

theorem marked_mark (h : e.mark l = .ok e') (k : Label) : e'.Marked k ↔ e.Marked k ∨ k = l := by
  obtain ⟨s, hs, _, ⟨_, rfl⟩ | ⟨_, _, rfl⟩⟩ := mark_eq_ok h
  · unfold Marked
    rw [passes_setLabel hs]
    split <;> simp_all
  · refine (passes_setLabel hs _ _ k).trans ?_
    split <;> simp_all [Marked]

theorem marked_annotates (h : e.Annotates e') (k : Label) : e'.Marked k ↔ e.Marked k := by
  have hbare (e : Emitter) : e.Marked k ↔
      ((e.labels[k.index]?).map LabelState.bare).any (fun s => s.position.isSome) = true := by
    unfold Marked Passes
    cases e.labels[k.index]? <;> simp [LabelState.bare]
  rw [hbare, hbare, h.getElem?]

theorem named_visitLocal {v : LocalVariable} (h : v.declare e = .ok e') (k : Label) :
    e'.Named k ↔ e.Named k ∨ k ∈ (Request.visitLocal v).named e.options.debugInfo := by
  simp only [LocalVariable.declare, visitLocal, reserve] at h
  simp only [Request.named]
  cases hdebug : e.options.debugInfo with
  | false =>
    simp only [hdebug, Bool.not_false, if_true] at h
    cases h
    simp [Named, Passes]
  | true =>
    simp only [hdebug, Bool.not_true, Bool.false_eq_true, if_false] at h
    obtain ⟨e₁, h₁, h⟩ := bind_eq_ok.mp h
    obtain ⟨e₂, h₂, h⟩ := bind_eq_ok.mp h
    cases h
    have hnamed := (named_refer h₂ k).trans (or_congr_left (named_refer h₁ k))
    refine hnamed.trans ?_
    simp [or_assoc, Named, Passes]

theorem named_visitLine {line : Nat} (h : e.visitLine line l = .ok e') (k : Label) :
    e'.Named k ↔ e.Named k ∨ k ∈ (Request.visitLine line l).named e.options.debugInfo := by
  simp only [visitLine] at h
  simp only [Request.named]
  cases hdebug : e.options.debugInfo with
  | false =>
    simp only [hdebug, Bool.not_false, if_true] at h
    cases h
    simp
  | true =>
    simp only [hdebug, Bool.not_true, Bool.false_eq_true, if_false] at h
    obtain ⟨e₁, h₁, h⟩ := bind_eq_ok.mp h
    cases h
    refine (named_refer h₁ k).trans ?_
    simp

end

def header (e : Emitter) : Access × Method × EmitOptions := (e.access, e.method, e.options)

end Emitter

/-! ## What a request changes -/

/-- A request changes the pool and the labels by what it asks for, names and marks. -/
structure Request.Changes (r : Request) (e e' : Emitter) : Prop where
  header : e'.header = e.header
  pool : e'.pool = (r.constant?.elim e.pool fun c => (e.pool.add c).2)
  named : ∀ l, e'.Named l ↔ e.Named l ∨ l ∈ r.named e.options.debugInfo
  marked : ∀ l, e'.Marked l ↔ e.Marked l ∨ r = .mark l

namespace Request

section
variable {r : Request} {e e' : Emitter}

theorem changes_of_labels (hh : e'.header = e.header)
    (hp : e'.pool = (r.constant?.elim e.pool fun c => (e.pool.add c).2))
    (hl : e'.labels = e.labels) (hn : r.named e.options.debugInfo = []) (hm : ∀ l, r ≠ .mark l) :
    r.Changes e e' where
  header := hh
  pool := hp
  named l := by rw [Emitter.Named, Emitter.Passes, hl, hn, or_iff_left List.not_mem_nil]; rfl
  marked l := by rw [Emitter.Marked, Emitter.Passes, hl, or_iff_left (hm l)]; rfl

theorem changes_branchTo {e₁ : Emitter} {l : Label} (h : e₁.branchTo l = .ok e')
    (hh : e₁.header = e.header) (hp : e₁.pool = e.pool) (hl : e₁.labels = e.labels)
    (hc : r.constant? = none) (hn : r.named e.options.debugInfo = [l]) (hm : ∀ l, r ≠ .mark l) :
    r.Changes e e' where
  header := by
    obtain ⟨s, _, _, rfl⟩ := Emitter.branchTo_eq_ok h
    exact hh
  pool := by
    obtain ⟨s, _, _, rfl⟩ := Emitter.branchTo_eq_ok h
    rw [hc]
    exact hp
  named k := by
    rw [Emitter.named_branchTo h, hn, List.mem_singleton, Emitter.Named, Emitter.Passes, hl]
    rfl
  marked k := by
    rw [Emitter.marked_branchTo h, Emitter.Marked, Emitter.Passes, hl, or_iff_left (hm k)]
    rfl

theorem header_refer {l : Label} (h : e.refer l = .ok e') : e'.header = e.header := by
  obtain ⟨s, _, rfl⟩ := Emitter.refer_eq_ok h
  rfl

theorem header_visitLocal {v : LocalVariable} (h : v.declare e = .ok e') :
    e'.header = e.header := by
  simp only [LocalVariable.declare, Emitter.visitLocal] at h
  split at h
  · cases h
    rfl
  · obtain ⟨e₁, h₁, h⟩ := bind_eq_ok.mp h
    obtain ⟨e₂, h₂, h⟩ := bind_eq_ok.mp h
    cases h
    have hrefer := (header_refer h₂).trans (header_refer h₁)
    exact hrefer

theorem header_visitLine {line : Nat} {l : Label} (h : e.visitLine line l = .ok e') :
    e'.header = e.header := by
  simp only [Emitter.visitLine] at h
  split at h
  · cases h
    rfl
  · obtain ⟨e₁, h₁, h⟩ := bind_eq_ok.mp h
    cases h
    have hrefer := header_refer h₁
    exact hrefer

theorem changes_apply (h : r.apply e = .ok e') : r.Changes e e' := by
  cases r with
  | plain i pops pushes =>
    obtain ⟨_, rfl⟩ := Emitter.effect_eq_ok.mp h
    exact changes_of_labels rfl rfl rfl rfl nofun
  | pooled use c pops pushes =>
    obtain ⟨_, rfl⟩ := Emitter.shrink_grow_eq_ok.mp h
    exact changes_of_labels rfl rfl rfl rfl nofun
  | branch i pops target =>
    exact changes_branchTo (Emitter.branch_eq_ok h).2 rfl rfl rfl rfl rfl nofun
  | goto target =>
    obtain ⟨e₁, h₁, rfl⟩ := Emitter.goto_eq_ok h
    have hb : (Request.goto target).Changes e e₁ :=
      changes_branchTo h₁ rfl rfl rfl rfl rfl nofun
    exact ⟨hb.header, hb.pool, hb.named, hb.marked⟩
  | leave result pops =>
    obtain ⟨e₁, h₁, h⟩ := bind_eq_ok.mp h
    obtain ⟨_, rfl⟩ := Emitter.effect_eq_ok.mp h₁
    cases h
    exact changes_of_labels rfl rfl rfl rfl nofun
  | newLabel debugOnly =>
    cases h
    exact ⟨rfl, rfl,
      fun l => (Emitter.passes_allocateLabel e debugOnly rfl l).trans
        (or_iff_left List.not_mem_nil).symm,
      fun l => (Emitter.passes_allocateLabel e debugOnly rfl l).trans (or_iff_left nofun).symm⟩
  | mark k =>
    refine ⟨?_, ?_, fun l => (Emitter.named_mark h l).trans (or_iff_left List.not_mem_nil).symm,
      fun l => (Emitter.marked_mark h l).trans (or_congr_right ?_)⟩
    · obtain ⟨s, _, _, ⟨_, rfl⟩ | ⟨_, _, rfl⟩⟩ := Emitter.mark_eq_ok h <;> rfl
    · obtain ⟨s, _, _, ⟨_, rfl⟩ | ⟨_, _, rfl⟩⟩ := Emitter.mark_eq_ok h <;> rfl
    · rw [Request.mark.injEq, eq_comm]
  | reserve index type =>
    cases h
    exact changes_of_labels rfl rfl rfl rfl nofun
  | visitLocal v =>
    have ha := Emitter.annotates_of_visitLocal h
    exact ⟨header_visitLocal h, ha.pool, Emitter.named_visitLocal h,
      fun l => (Emitter.marked_annotates ha l).trans (or_iff_left nofun).symm⟩
  | visitLine line start =>
    have ha := Emitter.annotates_of_visitLine h
    exact ⟨header_visitLine h, ha.pool, Emitter.named_visitLine h,
      fun l => (Emitter.marked_annotates ha l).trans (or_iff_left nofun).symm⟩

end

/-! ## Whole emissions -/

theorem header_applyAll {rs : List Request} {e e' : Emitter} (h : applyAll rs e = .ok e') :
    e'.header = e.header := by
  induction rs generalizing e with
  | nil =>
    cases h
    rfl
  | cons r rs ih =>
    obtain ⟨e₁, h₁, h⟩ := bind_eq_ok.mp h
    exact (ih h).trans (changes_apply h₁).header

theorem holds_applyAll {rs : List Request} {e e' : Emitter} {cs : List Constant} (hs : e.Sound)
    (hp : e.pool.Holds cs) (h : applyAll rs e = .ok e') : e'.pool.Holds (cs ++ constants rs) := by
  induction rs generalizing e cs with
  | nil =>
    cases h
    rwa [constants, List.filterMap_nil, List.append_nil]
  | cons r rs ih =>
    obtain ⟨e₁, h₁, h⟩ := bind_eq_ok.mp h
    have hpool := (changes_apply h₁).pool
    rw [constants, List.filterMap_cons]
    cases hc : r.constant? with
    | none =>
      rw [hc] at hpool
      exact ih (hs.apply h₁) (hpool ▸ hp) h
    | some c =>
      rw [hc] at hpool
      have hp₁ : e₁.pool.Holds (cs ++ [c]) := by
        rw [hpool]
        exact hp.add hs.pool c
      have hrest := ih (hs.apply h₁) hp₁ h
      rwa [List.append_assoc, List.singleton_append] at hrest

theorem named_applyAll {rs : List Request} {e e' : Emitter} (h : applyAll rs e = .ok e')
    (l : Label) : e'.Named l ↔ e.Named l ∨ ∃ r ∈ rs, l ∈ r.named e.options.debugInfo := by
  induction rs generalizing e with
  | nil =>
    cases h
    simp
  | cons r rs ih =>
    obtain ⟨e₁, h₁, h⟩ := bind_eq_ok.mp h
    have hchanges := changes_apply h₁
    have hoptions : e₁.options = e.options := congrArg (fun header => header.2.2) hchanges.header
    rw [ih h, hchanges.named, hoptions, List.exists_mem_cons_iff, or_assoc]

theorem marked_applyAll {rs : List Request} {e e' : Emitter} (h : applyAll rs e = .ok e')
    (l : Label) : e'.Marked l ↔ e.Marked l ∨ .mark l ∈ rs := by
  induction rs generalizing e with
  | nil =>
    cases h
    simp
  | cons r rs ih =>
    obtain ⟨e₁, h₁, h⟩ := bind_eq_ok.mp h
    rw [ih h, (changes_apply h₁).marked, List.mem_cons, or_assoc, @eq_comm _ r]

end Request

namespace Emitter

theorem unmarkedLabel?_eq_none {e : Emitter} :
    e.unmarkedLabel? = none ↔ ∀ l, e.Named l → e.Marked l := by
  unfold unmarkedLabel?
  rw [Option.map_eq_none_iff, Array.findIdx?_eq_none_iff]
  constructor
  · rintro h l ⟨s, hs, hnamed⟩
    have hs' := h s (Array.mem_of_getElem? hs)
    exact ⟨s, hs, by simpa [hnamed] using hs'⟩
  · intro h s hmem
    obtain ⟨k, hk⟩ := Array.getElem?_of_mem hmem
    cases hnamed : s.referenced with
    | false => rfl
    | true =>
      obtain ⟨t, ht, hmarked⟩ := h ⟨k⟩ ⟨s, hk, hnamed⟩
      obtain rfl := Option.some.inj (hk.symm.trans ht)
      simpa using hmarked

theorem endMethod_eq_ok {e : Emitter} {access : Access} {method : Method} {h : Nat}
    (ha : e.access = access) (hm : e.method = method) (hf : e.finish = .ok e.code)
    (hv : (Body.mk e.code access method.signature).verify = .ok h) :
    e.endMethod = .ok ⟨access, method, .code e.code⟩ := by
  subst ha hm
  unfold endMethod
  rw [hf, ok_bind, hv]
  split <;> rfl

theorem endMethod_eq_error {e : Emitter} {error : CodegenError} (hf : e.finish = .error error) :
    e.endMethod = .error error := by
  unfold endMethod
  rw [hf]
  rfl

section
variable {access : Access} {method : Method} {options : EmitOptions} {rs : List Request}
  {e : Emitter} (h : Request.applyAll rs (initial access method options) = .ok e)
include h

theorem overflowed_iff :
    e.pool.overflowed = true ↔ ConstantPool.capacity < (Request.constants rs).toFinset.card := by
  have hs := sound_initial access method options
  have hp := Request.holds_applyAll hs ConstantPool.holds_empty h
  exact hp.overflowed_iff (hs.applyAll_requests h).pool

theorem finish_tooMany (hc : ConstantPool.capacity < (Request.constants rs).toFinset.card) :
    e.finish = .error (.tooManyConstants ConstantPool.capacity) :=
  if_pos ((overflowed_iff h).mpr hc)

theorem finish_ok (hc : (Request.constants rs).toFinset.card ≤ ConstantPool.capacity)
    (hl : ∀ r ∈ rs, ∀ l ∈ r.named options.debugInfo, .mark l ∈ rs) : e.finish = .ok e.code := by
  have hnone : e.unmarkedLabel? = none := by
    rw [unmarkedLabel?_eq_none]
    intro l hnamed
    rw [Request.marked_applyAll h]
    rcases (Request.named_applyAll h l).mp hnamed with ⟨s, hs, _⟩ | ⟨r, hr, hmem⟩
    · simp [initial] at hs
    · exact .inr (hl r hr l hmem)
  have ho : ¬e.pool.overflowed = true := fun ho =>
    Nat.not_le_of_lt ((overflowed_iff h).mp ho) hc
  unfold finish
  rw [if_neg ho, hnone]

end

end Emitter

end StackCode
