import StackCode.Proofs.Verifier.Effect
import StackCode.Proofs.Verifier.Worklist

/-!
# Framed code

Code is framed from one position to another if a stack can be given for each position between them,
such that every instruction runs on the stack of its position and leaves the one of the positions it
leads to. Framed pieces that meet on one stack make a longer one, and a body that is framed up to the
instruction that ends it verifies.
-/

namespace StackCode

namespace Body

variable (body : Body)

/-- The instruction at `pc` runs on the stack of its position, and leaves that of the positions it
leads to, which lie from `first` to `last`. -/
def Fits (frame : Nat → List Kind) (first last pc : Nat) : Prop :=
  ∃ i after flow, body.code.instructions[pc]? = some i ∧
    body.step body.entry pc (frame pc) i = .ok (after, flow) ∧
    slotHeight after ≤ body.code.maxStack ∧
    (∀ l, flow.target? = some l → ∃ p, body.code.labelInfo? l = some ⟨some p, false⟩) ∧
    ∀ next, flow.Leads body.code pc next → first ≤ next ∧ next ≤ last ∧ frame next = after

/-- Entered at `first` on the stack `s`, code comes to `last` on the stack `t`. -/
def Framed (first : Nat) (s : List Kind) (last : Nat) (t : List Kind) : Prop :=
  first ≤ last ∧ ∃ frame : Nat → List Kind, frame first = s ∧ frame last = t ∧
    ∀ pc, first ≤ pc → pc < last → body.Fits frame first last pc

variable {body}

/-! ## Pieces of code -/

theorem Framed.refl (pc : Nat) (s : List Kind) : body.Framed pc s pc s :=
  ⟨Nat.le_refl pc, fun _ => s, rfl, rfl, fun _ hle hlt => absurd hlt (Nat.not_lt_of_le hle)⟩

theorem Fits.congr {frame frame' : Nat → List Kind} {first last first' last' pc : Nat}
    (h : body.Fits frame first last pc) (hfirst : first' ≤ first) (hlast : last ≤ last')
    (hpc : frame' pc = frame pc) (hf : ∀ p, first ≤ p → p ≤ last → frame' p = frame p) :
    body.Fits frame' first' last' pc := by
  obtain ⟨i, after, flow, hi, hs, hle, ht, hn⟩ := h
  refine ⟨i, after, flow, hi, hpc ▸ hs, hle, ht, fun next hl => ?_⟩
  obtain ⟨hge, hle', hafter⟩ := hn next hl
  exact ⟨hfirst.trans hge, hle'.trans hlast, (hf next hge hle').trans hafter⟩

theorem Framed.trans {a b c : Nat} {s t u : List Kind} (h : body.Framed a s b t)
    (h' : body.Framed b t c u) : body.Framed a s c u := by
  obtain ⟨hab, f, hfa, hfb, hf⟩ := h
  obtain ⟨hbc, g, hgb, hgc, hg⟩ := h'
  have hleft (p : Nat) (hp : p ≤ b) : (if p < b then f p else g p) = f p := by
    split
    · rfl
    · obtain rfl : p = b := by omega
      rw [hgb, hfb]
  have hright (p : Nat) (hp : b ≤ p) : (if p < b then f p else g p) = g p :=
    if_neg (Nat.not_lt_of_le hp)
  refine ⟨hab.trans hbc, fun p => if p < b then f p else g p, (hleft a hab).trans hfa,
    (hright c hbc).trans hgc, fun pc hle hlt => ?_⟩
  by_cases hpc : pc < b
  · exact (hf pc hle hpc).congr (Nat.le_refl a) hbc (if_pos hpc) fun p _ hp => hleft p hp
  · have hge := Nat.le_of_not_lt hpc
    exact (hg pc hge hlt).congr hab (Nat.le_refl c) (if_neg hpc) fun p hp _ => hright p hp

theorem framed_effect {pc : Nat} {i : Instruction} {takes puts rest : List Kind}
    (hi : body.code.instructions[pc]? = some i) (he : body.Effect body.entry i takes puts .next)
    (hle : slotHeight (puts ++ rest) ≤ body.code.maxStack) :
    body.Framed pc (takes ++ rest) (pc + 1) (puts ++ rest) := by
  refine ⟨Nat.le_succ pc, fun p => if p = pc then takes ++ rest else puts ++ rest, if_pos rfl,
    if_neg (Nat.succ_ne_self pc), fun p hge hlt => ?_⟩
  obtain rfl : p = pc := by omega
  refine ⟨i, puts ++ rest, .next, hi, ?_, hle, fun l hl => (by cases hl), fun next hl => ?_⟩
  · change body.step body.entry p (if p = p then takes ++ rest else puts ++ rest) i = _
    rw [if_pos rfl]
    exact step_of_effect he p rest
  · cases hl
    exact ⟨Nat.le_succ p, Nat.le_refl _, if_neg (Nat.succ_ne_self p)⟩

/-! ## Whole bodies -/

section
variable {frame : Nat → List Kind} {last : Nat} (h0 : frame 0 = [])
  (hf : ∀ pc ≤ last, body.Fits frame 0 last pc)
include h0 hf

theorem frame_of_reaches {pc : Nat} {s : List Kind} (hr : body.Reaches pc s) :
    pc ≤ last ∧ s = frame pc := by
  induction hr with
  | start => exact ⟨Nat.zero_le last, h0.symm⟩
  | move _ hi hs hl ih =>
    obtain ⟨hle, rfl⟩ := ih
    obtain ⟨i, after, flow, hi', hs', _, _, hn⟩ := hf _ hle
    obtain rfl := Option.some.inj (hi.symm.trans hi')
    cases hs.symm.trans hs'
    obtain ⟨_, hnext, hafter⟩ := hn _ hl
    exact ⟨hnext, hafter.symm⟩

theorem fits_of_leaves {pc : Nat} {after : List Kind} {flow : Flow}
    (hl : body.Leaves pc after flow) :
    slotHeight after ≤ body.code.maxStack ∧
      (∀ l, flow.target? = some l → ∃ p, body.code.labelInfo? l = some ⟨some p, false⟩) ∧
      ∀ next, flow.Leads body.code pc next → next ≤ last := by
  obtain ⟨before, i, hr, hi, hs⟩ := hl
  obtain ⟨hle, rfl⟩ := frame_of_reaches h0 hf hr
  obtain ⟨i', after', flow', hi', hs', hmax, ht, hn⟩ := hf _ hle
  obtain rfl := Option.some.inj (hi.symm.trans hi')
  cases hs.symm.trans hs'
  exact ⟨hmax, ht, fun next hl => (hn next hl).2.1⟩

theorem soundPaths_of_fits (hsize : body.code.instructions.size = last + 1) :
    body.SoundPaths where
  nonempty := by omega
  runs pc before i hr hi := by
    obtain ⟨hle, rfl⟩ := frame_of_reaches h0 hf hr
    obtain ⟨i', after, flow, hi', hs, _⟩ := hf pc hle
    obtain rfl := Option.some.inj (hi.symm.trans hi')
    exact ⟨after, flow, hs⟩
  targets pc after flow l hl ht := by
    obtain ⟨_, htargets, hinside⟩ := fits_of_leaves h0 hf hl
    obtain ⟨p, hp⟩ := htargets l ht
    have hposition := position?_of_labelInfo? hp
    have hleads : flow.Leads body.code pc p := by
      cases flow with
      | next | exit => cases ht
      | branch k => cases ht; exact .taken hposition
      | jump k => cases ht; exact .jumped hposition
    exact ⟨p, hp, by have := hinside p hleads; omega⟩
  inside pc after flow next hl hn := by
    have := (fits_of_leaves h0 hf hl).2.2 next hn
    omega
  agree pc s t hs ht := (frame_of_reaches h0 hf hs).2.trans (frame_of_reaches h0 hf ht).2.symm

end

theorem verify_of_framed {last : Nat} {s after : List Kind} {i : Instruction}
    (h : body.Framed 0 [] last s) (hsize : body.code.instructions.size = last + 1)
    (hi : body.code.instructions[last]? = some i)
    (hs : body.step body.entry last s i = .ok (after, .exit))
    (hle : slotHeight after ≤ body.code.maxStack) : ∃ height, body.verify = .ok height := by
  obtain ⟨_, frame, h0, rfl, hf⟩ := h
  have hexit : body.Fits frame 0 last last :=
    ⟨i, after, .exit, hi, hs, hle, fun l hl => (by cases hl), fun next hl => (by cases hl)⟩
  have hall : ∀ pc ≤ last, body.Fits frame 0 last pc := by
    intro pc hpc
    rcases Nat.lt_or_eq_of_le hpc with hlt | rfl
    · exact hf pc (Nat.zero_le pc) hlt
    · exact hexit
  have hp := soundPaths_of_fits h0 hall hsize
  obtain ⟨height, hg⟩ := hp.exists_isGreatest
  refine ⟨height, (verify_eq_ok_iff height).mpr ⟨hp, hg, ?_⟩⟩
  obtain ⟨pc, after', flow, hl, rfl⟩ := hg.1
  exact (fits_of_leaves h0 hall hl).1

end Body

end StackCode
