import Mathlib.Data.List.Nodup
import StackCode.Proofs.Sequence
import StackCode.Proofs.Verifier.Paths

/-!
# The verifier against all paths

The verifier runs each position once, on the stack that arrives first. `Tracks` and `Closed` say
what the recorded stacks mean while positions still wait; when none waits, the recorded stacks are
closed under the moves of the abstract machine. The verifier's own rounds are one order of many, so
what it answers is what any other order of draining the worklist would answer.
-/

namespace StackCode

namespace Search

def stack? (s : Search) (pc : Nat) : Option (List Kind) := s.frames[pc]?.join

def Grows (s t : Search) : Prop := ∀ pc stack, s.stack? pc = some stack → t.stack? pc = some stack

theorem Grows.refl (s : Search) : s.Grows s := fun _ _ h => h

theorem Grows.trans {s t u : Search} (h : s.Grows t) (h' : t.Grows u) : s.Grows u :=
  fun pc stack hs => h' pc stack (h pc stack hs)

theorem stack?_start {length : Nat} (h : 0 < length) (pc : Nat) :
    (start length).stack? pc = if pc = 0 then some [] else none := by
  by_cases hp : pc = 0
  · subst hp
    simp [stack?, start, h]
  · simp only [stack?, start, hp, if_false]
    rw [Array.getElem?_setIfInBounds_ne (Ne.symm hp), Array.getElem?_replicate]
    split <;> rfl

theorem lt_size_of_stack? {s : Search} {pc : Nat} {stack : List Kind}
    (h : s.stack? pc = some stack) : pc < s.frames.size := by
  rcases Nat.lt_or_ge pc s.frames.size with hlt | hge
  · exact hlt
  · simp [stack?, Array.getElem?_eq_none hge] at h

theorem arrive_ok {s t : Search} {pc next : Nat} {stack : List Kind}
    (h : s.arrive pc stack next = .ok t) :
    next < s.frames.size ∧
      ((s.stack? next = none ∧ t = ⟨s.frames.setIfInBounds next (some stack), next :: s.work⟩) ∨
        (s.stack? next = some stack ∧ t = s)) := by
  unfold arrive at h
  split at h
  · rename_i hlt
    refine ⟨hlt, ?_⟩
    split at h
    · rename_i hnone
      cases h
      exact .inl ⟨by simp [stack?, hlt, hnone], by simp [Array.setIfInBounds, hlt]⟩
    · rename_i known hknown
      split at h
      · rename_i heq
        cases h
        exact .inr ⟨by simp [stack?, hlt, hknown, heq], rfl⟩
      · cases h
  · cases h

theorem arrive_of {s : Search} {pc next : Nat} {stack : List Kind} (hlt : next < s.frames.size)
    (hs : ∀ known, s.stack? next = some known → known = stack) :
    ∃ t, s.arrive pc stack next = .ok t := by
  unfold arrive
  rw [dif_pos hlt]
  split
  · exact ⟨_, rfl⟩
  · rename_i known hknown
    rw [if_pos (hs known (by simp [stack?, hlt, hknown]))]
    exact ⟨s, rfl⟩

theorem stack?_set {s : Search} {next : Nat} (hlt : next < s.frames.size) (stack : List Kind)
    (work : List Nat) (pc : Nat) :
    stack? ⟨s.frames.setIfInBounds next (some stack), work⟩ pc =
      if pc = next then some stack else s.stack? pc := by
  by_cases hp : pc = next
  · subst hp
    simp [stack?, hlt]
  · simp only [stack?, hp, if_false]
    rw [Array.getElem?_setIfInBounds_ne (Ne.symm hp)]

end Search

namespace Body

variable (body : Body)

/-! ## Rounds in any order -/

/-- The rounds of a worklist that is drained in some order. The list has the positions run so far,
latest first; each round takes any position that waits. -/
inductive Rounds : List Nat → Search → Nat → Prop
  | start : 0 < body.code.instructions.size → Rounds [] (.start body.code.instructions.size) 0
  | next {order before after : List Nat} {s t : Search} {height reached pc : Nat} :
      Rounds order s height → s.work = before ++ pc :: after →
      body.round body.entry ⟨s.frames, before ++ after⟩ pc = .ok (t, reached) →
      Rounds (pc :: order) t (max height reached)

/-- The recorded stacks are those of paths, and each position recorded was run or waits, once. -/
structure Tracks (order : List Nat) (s : Search) : Prop where
  size : s.frames.size = body.code.instructions.size
  entry : s.stack? 0 = some []
  reached : ∀ pc stack, s.stack? pc = some stack → body.Reaches pc stack
  once : (s.work ++ order).Nodup
  recorded : ∀ pc, pc ∈ s.work ++ order ↔ (s.stack? pc).isSome

/-- A position was run: its instruction fits the recorded stack, and all that it leads to is
recorded. -/
def Closed (s : Search) (height pc : Nat) : Prop :=
  ∃ before i after flow targets, s.stack? pc = some before ∧ body.code.instructions[pc]? = some i ∧
    body.step body.entry pc before i = .ok (after, flow) ∧ body.successors pc flow = .ok targets ∧
    (∀ next ∈ targets, s.stack? next = some after) ∧ slotHeight after ≤ height

structure Explored (order : List Nat) (s : Search) (height : Nat) : Prop where
  tracks : body.Tracks order s
  closed : ∀ pc ∈ order, body.Closed s height pc
  attained : (order = [] ∧ height = 0) ∨ height ∈ body.heights

variable {body}

theorem Closed.mono {s t : Search} {height height' pc : Nat} (h : body.Closed s height pc)
    (hg : s.Grows t) (hh : height ≤ height') : body.Closed t height' pc := by
  obtain ⟨before, i, after, flow, targets, hb, hi, hs, ht, hn, hle⟩ := h
  exact ⟨before, i, after, flow, targets, hg _ _ hb, hi, hs, ht,
    fun next hm => hg _ _ (hn next hm), Nat.le_trans hle hh⟩

theorem tracks_start (h : 0 < body.code.instructions.size) :
    body.Tracks [] (.start body.code.instructions.size) where
  size := by simp [Search.start]
  entry := by simp [Search.stack?_start h]
  reached pc stack hs := by
    rw [Search.stack?_start h] at hs
    split at hs
    · rename_i hp
      cases hs
      exact hp ▸ .start
    · cases hs
  once := by simp [Search.start]
  recorded pc := by
    rw [Search.stack?_start h]
    by_cases hp : pc = 0 <;> simp [Search.start, hp]

theorem Tracks.arrive {order : List Nat} {s t : Search} {pc next : Nat} {stack : List Kind}
    (h : body.Tracks order s) (hr : body.Reaches next stack) (ha : s.arrive pc stack next = .ok t) :
    body.Tracks order t ∧ s.Grows t ∧ t.stack? next = some stack := by
  obtain ⟨hlt, ⟨hnone, rfl⟩ | ⟨hsome, rfl⟩⟩ := Search.arrive_ok ha
  · have hset := Search.stack?_set hlt stack (next :: s.work)
    -- a position without a stack neither waits nor was run, so it enters the worklist once
    have hfresh : next ∉ s.work ++ order := by
      rw [h.recorded, hnone]
      simp
    refine ⟨⟨by simp [h.size], ?_, ?_, ?_, ?_⟩, ?_, by simp [hset]⟩
    · rw [hset, if_neg, h.entry]
      rintro rfl
      rw [h.entry] at hnone
      cases hnone
    · intro p st hs
      rw [hset] at hs
      split at hs
      · rename_i hp
        cases hs
        exact hp ▸ hr
      · exact h.reached p st hs
    · simpa using ⟨by simpa using hfresh, h.once⟩
    · intro p
      rw [hset]
      by_cases hp : p = next
      · simp [hp]
      · simpa [hp] using h.recorded p
    · intro p st hs
      rw [hset, if_neg, hs]
      rintro rfl
      rw [hs] at hnone
      cases hnone
  · exact ⟨h, .refl _, hsome⟩

theorem Tracks.arriveAll {order : List Nat} {pc : Nat} {stack : List Kind} {targets : List Nat}
    {s t : Search} (h : body.Tracks order s) (hr : ∀ next ∈ targets, body.Reaches next stack)
    (ha : s.arriveAll pc stack targets = .ok t) :
    body.Tracks order t ∧ s.Grows t ∧ ∀ next ∈ targets, t.stack? next = some stack := by
  induction targets generalizing s with
  | nil =>
    cases ha
    exact ⟨h, .refl _, fun next hm => by cases hm⟩
  | cons next rest ih =>
    simp only [Search.arriveAll] at ha
    split at ha
    · cases ha
    · rename_i s' harrive
      obtain ⟨h', hg, hs⟩ := h.arrive (hr next (by simp)) harrive
      obtain ⟨ht, hg', hst⟩ := ih h' (fun n hn => hr n (by simp [hn])) ha
      refine ⟨ht, hg.trans hg', fun n hn => ?_⟩
      rcases List.mem_cons.mp hn with rfl | hn
      · exact hg' _ _ hs
      · exact hst n hn

theorem Tracks.arriveAll_of {order : List Nat} {pc : Nat} {stack : List Kind} {targets : List Nat}
    {s : Search} (hp : body.SoundPaths) (h : body.Tracks order s)
    (hr : ∀ next ∈ targets, body.Reaches next stack) :
    ∃ t, s.arriveAll pc stack targets = .ok t := by
  induction targets generalizing s with
  | nil => exact ⟨s, rfl⟩
  | cons next rest ih =>
    have hnext := hr next (by simp)
    obtain ⟨s', harrive⟩ : ∃ s', s.arrive pc stack next = .ok s' := by
      refine Search.arrive_of (h.size ▸ hp.lt_size hnext) fun known hk => ?_
      exact hp.agree next known stack (h.reached next known hk) hnext
    obtain ⟨h', _, _⟩ := h.arrive hnext harrive
    obtain ⟨t, ht⟩ := ih h' fun n hn => hr n (by simp [hn])
    exact ⟨t, by simp only [Search.arriveAll, harrive, ht]⟩

theorem Tracks.take {order before after : List Nat} {s : Search} {pc : Nat}
    (h : body.Tracks order s) (hw : s.work = before ++ pc :: after) :
    body.Tracks (pc :: order) ⟨s.frames, before ++ after⟩ := by
  have hperm : (s.work ++ order).Perm (before ++ after ++ pc :: order) := by
    rw [hw]
    exact (List.perm_middle.append_right order).trans List.perm_middle.symm
  exact ⟨h.size, h.entry, h.reached, hperm.nodup_iff.mp h.once,
    fun p => hperm.mem_iff.symm.trans (h.recorded p)⟩

theorem Tracks.lt_size {order : List Nat} {s : Search} {pc : Nat} {stack : List Kind}
    (h : body.Tracks order s) (hs : s.stack? pc = some stack) : pc < body.code.instructions.size :=
  h.size ▸ Search.lt_size_of_stack? hs

theorem Tracks.waiting {order before after : List Nat} {s : Search} {pc : Nat}
    (h : body.Tracks order s) (hw : s.work = before ++ pc :: after) :
    ∃ stack, s.stack? pc = some stack ∧ body.Reaches pc stack := by
  have hm : (s.stack? pc).isSome := (h.recorded pc).mp (by simp [hw])
  obtain ⟨stack, hs⟩ := Option.isSome_iff_exists.mp hm
  exact ⟨stack, hs, h.reached pc stack hs⟩

theorem round_ok {locals : Array (Option Kind)} {s t : Search} {pc reached : Nat}
    {before : List Kind} {i : Instruction} (hs : s.stack? pc = some before)
    (hi : body.code.instructions[pc]? = some i) (h : body.round locals s pc = .ok (t, reached)) :
    ∃ after flow targets, body.step locals pc before i = .ok (after, flow) ∧
      body.successors pc flow = .ok targets ∧ s.arriveAll pc after targets = .ok t ∧
      reached = slotHeight after := by
  have hf : s.frames[pc]? = some (some before) := by
    simpa [Search.stack?, Option.join_eq_some_iff] using hs
  simp only [round, hf, hi] at h
  split at h
  · cases h
  · rename_i after flow hstep
    split at h
    · cases h
    · rename_i targets htargets
      split at h
      · cases h
      · rename_i harrive
        cases h
        exact ⟨after, flow, targets, hstep, htargets, harrive, rfl⟩

theorem Explored.round {order before after : List Nat} {s t : Search} {height reached pc : Nat}
    (h : body.Explored order s height) (hw : s.work = before ++ pc :: after)
    (hr : body.round body.entry ⟨s.frames, before ++ after⟩ pc = .ok (t, reached)) :
    body.Explored (pc :: order) t (max height reached) := by
  obtain ⟨stack, hs, hreach⟩ := h.tracks.waiting hw
  have hlt := h.tracks.lt_size hs
  have hi : body.code.instructions[pc]? = some body.code.instructions[pc] := by simp [hlt]
  obtain ⟨left, flow, targets, hstep, htargets, harrive, rfl⟩ :=
    round_ok (s := ⟨s.frames, before ++ after⟩) hs hi hr
  have hleaves : body.Leaves pc left flow := ⟨stack, _, hreach, hi, hstep⟩
  have hnext : ∀ next ∈ targets, body.Reaches next left := fun next hm =>
    hleaves.reaches ((mem_successors htargets next).mp hm)
  obtain ⟨ht, hg, hst⟩ := (h.tracks.take hw).arriveAll hnext harrive
  refine ⟨ht, fun p hp => ?_, .inr ?_⟩
  · rcases List.mem_cons.mp hp with rfl | hp
    · exact ⟨stack, _, left, flow, targets, hg _ _ hs, hi, hstep, htargets, hst,
        Nat.le_max_right ..⟩
    · exact (h.closed p hp).mono (s := s) (fun p st hps => hg p st hps) (Nat.le_max_left ..)
  · have hmem : slotHeight left ∈ body.heights := ⟨pc, left, flow, hleaves, rfl⟩
    rcases h.attained with ⟨_, rfl⟩ | hh
    · simpa using hmem
    · rcases Nat.le_total height (slotHeight left) with hle | hle
      · rwa [Nat.max_eq_right hle]
      · rwa [Nat.max_eq_left hle]

theorem Rounds.explored {order : List Nat} {s : Search} {height : Nat}
    (h : body.Rounds order s height) : body.Explored order s height := by
  induction h with
  | start hn => exact ⟨tracks_start hn, fun p hp => (by cases hp), .inl ⟨rfl, rfl⟩⟩
  | next _ hw hr ih => exact ih.round hw hr

theorem Explored.round_of {order before after : List Nat} {s : Search} {height pc : Nat}
    (hp : body.SoundPaths) (h : body.Explored order s height)
    (hw : s.work = before ++ pc :: after) :
    ∃ t reached, body.round body.entry ⟨s.frames, before ++ after⟩ pc = .ok (t, reached) := by
  obtain ⟨stack, hs, hreach⟩ := h.tracks.waiting hw
  have hlt := h.tracks.lt_size hs
  have hi : body.code.instructions[pc]? = some body.code.instructions[pc] := by simp [hlt]
  have hf : s.frames[pc]? = some (some stack) := by
    simpa [Search.stack?, Option.join_eq_some_iff] using hs
  obtain ⟨left, flow, hstep⟩ := hp.runs pc stack _ hreach hi
  have hleaves : body.Leaves pc left flow := ⟨stack, _, hreach, hi, hstep⟩
  obtain ⟨targets, htargets⟩ :=
    successors_ok_iff.mpr fun l hl => hp.targets pc left flow l hleaves hl
  obtain ⟨t, ht⟩ : ∃ t, Search.arriveAll ⟨s.frames, before ++ after⟩ pc left targets = .ok t :=
    (h.tracks.take hw).arriveAll_of hp fun next hm =>
      hleaves.reaches ((mem_successors htargets next).mp hm)
  exact ⟨t, slotHeight left, by simp only [Body.round, hf, hi, hstep, htargets, ht]⟩

/-! ## An empty worklist -/

section
variable {order : List Nat} {s : Search} {height : Nat} (h : body.Explored order s height)
  (hw : s.work = [])
include h hw

theorem Explored.stack?_of_reaches {pc : Nat} {stack : List Kind} (hr : body.Reaches pc stack) :
    s.stack? pc = some stack := by
  induction hr with
  | start => exact h.tracks.entry
  | @move pc next before after i flow _ hi hs hl ih =>
    -- nothing waits, so the position before was run, and its round recorded this one
    have hmem : pc ∈ order := by
      have := (h.tracks.recorded pc).mpr (by simp [ih])
      simpa [hw] using this
    obtain ⟨before', i', after', flow', targets, hb, hi', hs', ht, hn, _⟩ := h.closed pc hmem
    obtain rfl : before = before' := Option.some.inj (ih.symm.trans hb)
    obtain rfl : i = i' := Option.some.inj (hi.symm.trans hi')
    obtain ⟨rfl, rfl⟩ : after = after' ∧ flow = flow' := by
      simpa using hs.symm.trans hs'
    exact hn next ((mem_successors ht next).mpr hl)

theorem Explored.closed_of_reaches {pc : Nat} {stack : List Kind} (hr : body.Reaches pc stack) :
    body.Closed s height pc := by
  have hs := h.stack?_of_reaches hw hr
  have := (h.tracks.recorded pc).mpr (by simp [hs])
  exact h.closed pc (by simpa [hw] using this)

theorem Explored.closed_of_leaves {pc : Nat} {after : List Kind} {flow : Flow}
    (hl : body.Leaves pc after flow) :
    ∃ targets, body.successors pc flow = .ok targets ∧
      (∀ next ∈ targets, s.stack? next = some after) ∧
      slotHeight after ≤ height := by
  obtain ⟨before, i, hr, hi, hs⟩ := hl
  obtain ⟨before', i', after', flow', targets, hb, hi', hs', ht, hn, hle⟩ :=
    h.closed_of_reaches hw hr
  obtain rfl : before = before' := Option.some.inj ((h.stack?_of_reaches hw hr).symm.trans hb)
  obtain rfl : i = i' := Option.some.inj (hi.symm.trans hi')
  obtain ⟨rfl, rfl⟩ : after = after' ∧ flow = flow' := by
    simpa using hs.symm.trans hs'
  exact ⟨targets, ht, hn, hle⟩

theorem Explored.soundPaths : body.SoundPaths where
  nonempty := h.tracks.lt_size h.tracks.entry
  runs pc before i hr hi := by
    obtain ⟨before', i', after, flow, targets, hb, hi', hs, _⟩ := h.closed_of_reaches hw hr
    obtain rfl : before = before' := Option.some.inj ((h.stack?_of_reaches hw hr).symm.trans hb)
    obtain rfl : i = i' := Option.some.inj (hi.symm.trans hi')
    exact ⟨after, flow, hs⟩
  targets pc after flow l hl := by
    obtain ⟨targets, ht, _⟩ := h.closed_of_leaves hw hl
    exact successors_ok_iff.mp ⟨targets, ht⟩ l
  inside pc after flow next hl hn := by
    obtain ⟨targets, ht, hst, _⟩ := h.closed_of_leaves hw hl
    exact h.tracks.lt_size (hst next ((mem_successors ht next).mpr hn))
  agree pc s t hs ht :=
    Option.some.inj ((h.stack?_of_reaches hw hs).symm.trans (h.stack?_of_reaches hw ht))

theorem Explored.isGreatest : IsGreatest body.heights height := by
  constructor
  · rcases h.attained with ⟨rfl, _⟩ | hh
    · have := (h.tracks.recorded 0).mpr (by simp [h.tracks.entry])
      simp [hw] at this
    · exact hh
  · rintro n ⟨pc, after, flow, hl, rfl⟩
    obtain ⟨_, _, _, hle⟩ := h.closed_of_leaves hw hl
    exact hle

end

/-! ## The verifier -/

theorem explore_done {locals : Array (Option Kind)} {s : Search} (height : Nat) (hw : s.work = []) :
    body.explore locals s height = .ok height := by
  unfold explore
  split
  · rfl
  · rename_i hw'
    rw [hw] at hw'
    cases hw'

theorem explore_round {locals : Array (Option Kind)} {s : Search} {pc : Nat} {rest : List Nat}
    (height : Nat) (hw : s.work = pc :: rest) :
    body.explore locals s height =
      match body.round locals ⟨s.frames, rest⟩ pc with
      | .error e => .error e
      | .ok (t, reached) => body.explore locals t (max height reached) := by
  rw [explore.eq_def]
  split
  · rename_i hw'
    rw [hw] at hw'
    cases hw'
  · rename_i pc' rest' hw'
    obtain ⟨rfl, rfl⟩ : pc = pc' ∧ rest = rest' := by
      simpa using hw.symm.trans hw'
    split <;> rename_i hr <;> simp only [hr]

theorem explore_rounds {order : List Nat} {s : Search} {height : Nat}
    (h : body.Rounds order s height) :
    (∃ order' t height', body.Rounds order' t height' ∧ t.work = [] ∧
      body.explore body.entry s height = .ok height') ∨
    (∃ order' t height' pc rest e, body.Rounds order' t height' ∧ t.work = pc :: rest ∧
      body.round body.entry ⟨t.frames, rest⟩ pc = .error e ∧
      body.explore body.entry s height = .error e) := by
  induction s, height using Body.explore.induct body body.entry generalizing order with
  | case1 s height hw => exact .inl ⟨order, s, height, h, hw, explore_done height hw⟩
  | case2 s height pc rest hw e hr =>
    exact .inr ⟨order, s, height, pc, rest, e, h, hw, hr, by rw [explore_round height hw, hr]⟩
  | case3 s height pc rest hw t reached hr _ ih =>
    rw [explore_round height hw, hr]
    -- the verifier takes the first position that waits: nothing stands before it
    exact ih (h.next (show s.work = [] ++ pc :: rest from hw) hr)

theorem explore_start (hn : 0 < body.code.instructions.size) (height : Nat) :
    body.explore body.entry (.start body.code.instructions.size) 0 = .ok height ↔
      body.SoundPaths ∧ IsGreatest body.heights height := by
  rcases explore_rounds (.start hn) with
    ⟨order, t, found, hr, hw, he⟩ | ⟨order, t, found, pc, rest, e, hr, hw, hrefused, he⟩
  · rw [he, Except.ok.injEq]
    constructor
    · rintro rfl
      exact ⟨hr.explored.soundPaths hw, hr.explored.isGreatest hw⟩
    · rintro ⟨_, hg⟩
      exact (hr.explored.isGreatest hw).unique hg
  · rw [he]
    constructor
    · intro h
      cases h
    · rintro ⟨hp, _⟩
      obtain ⟨t', reached, hok⟩ := hr.explored.round_of hp (show t.work = [] ++ pc :: rest from hw)
      rw [List.nil_append, hrefused] at hok
      cases hok

theorem verify_of_nonempty (hn : 0 < body.code.instructions.size) :
    body.verify = (do
      let height ← body.explore body.entry (.start body.code.instructions.size) 0
      if body.code.maxStack < height then throw (.maxStackTooSmall body.code.maxStack height)
      return height) := if_neg (Nat.ne_of_gt hn)

theorem verify_eq (hn : 0 < body.code.instructions.size) (h : Nat) :
    body.verify = .ok h ↔
      body.explore body.entry (.start body.code.instructions.size) 0 = .ok h ∧
        h ≤ body.code.maxStack := by
  rw [verify_of_nonempty hn]
  cases body.explore body.entry (.start body.code.instructions.size) 0 with
  | error e => exact ⟨fun he => (by cases he), fun he => (by cases he.1)⟩
  | ok height =>
    by_cases hlt : body.code.maxStack < height
    · constructor
      · intro he
        simp [bind, Except.bind, throw, throwThe, MonadExceptOf.throw, hlt] at he
      · rintro ⟨he, hle⟩
        cases he
        omega
    · constructor
      · intro he
        obtain rfl : height = h := by simpa [bind, Except.bind, pure, Except.pure, hlt] using he
        exact ⟨rfl, Nat.le_of_not_lt hlt⟩
      · rintro ⟨he, _⟩
        cases he
        simp [bind, Except.bind, pure, Except.pure, hlt]

theorem verify_eq_ok_iff (h : Nat) :
    body.verify = .ok h ↔ body.SoundPaths ∧ IsGreatest body.heights h ∧ h ≤ body.code.maxStack := by
  rcases Nat.eq_zero_or_pos body.code.instructions.size with h0 | hn
  · constructor
    · intro hv
      simp [verify, h0] at hv
    · rintro ⟨hp, _⟩
      exact absurd hp.nonempty (by omega)
  · rw [verify_eq hn, explore_start hn, and_assoc]

/-- **The verifier accepts the bodies all of whose paths are well shaped.** However the worklist is
drained, a position is run at most once, and an accepting end agrees with the verifier's answer,
while a refused round refutes acceptance. -/
theorem verify_ok_iff_soundPaths (body : Body) :
    (∀ h, body.verify = .ok h ↔
      body.SoundPaths ∧ IsGreatest body.heights h ∧ h ≤ body.code.maxStack) ∧
    ∀ order s height, body.Rounds order s height →
      order.Nodup ∧ (∀ pc ∈ order, pc < body.code.instructions.size) ∧
      (s.work = [] → ∀ h, body.verify = .ok h ↔ h = height ∧ height ≤ body.code.maxStack) ∧
      ∀ before pc after e, s.work = before ++ pc :: after →
        body.round body.entry ⟨s.frames, before ++ after⟩ pc = .error e →
          ∀ h, body.verify ≠ .ok h := by
  refine ⟨verify_eq_ok_iff, fun order s height hr => ?_⟩
  have hx := hr.explored
  refine ⟨hx.tracks.once.of_append_right, fun pc hm => ?_, fun hw h => ?_, ?_⟩
  · obtain ⟨stack, hs⟩ := Option.isSome_iff_exists.mp ((hx.tracks.recorded pc).mp (by simp [hm]))
    exact hx.tracks.lt_size hs
  · rw [verify_eq_ok_iff]
    constructor
    · rintro ⟨_, hg, hle⟩
      obtain rfl := hg.unique (hx.isGreatest hw)
      exact ⟨rfl, hle⟩
    · rintro ⟨rfl, hle⟩
      exact ⟨hx.soundPaths hw, hx.isGreatest hw, hle⟩
  · intro before pc after e hw hrefused h hv
    obtain ⟨t, reached, hok⟩ := hx.round_of ((verify_eq_ok_iff h).mp hv).1 hw
    rw [hrefused] at hok
    cases hok

def backwardLoop : Body where
  code := ⟨#[.iconst 1, .ifZero .ne ⟨0⟩, .leave none], #[], #[⟨some 0, false⟩], [], [], 1, 0⟩
  access := .staticFlag
  signature := .nullaryVoid

theorem rounds_backwardLoop :
    backwardLoop.Rounds [2, 1, 0] ⟨#[some [], some [.int], some []], []⟩ 1 := by
  have h0 : backwardLoop.Rounds [] ⟨#[some [], none, none], [] ++ 0 :: []⟩ 0 := .start (by decide)
  have h1 : backwardLoop.Rounds [0] ⟨#[some [], some [.int], none], [] ++ 1 :: []⟩ 1 :=
    h0.next rfl rfl
  have h2 : backwardLoop.Rounds [1, 0] ⟨#[some [], some [.int], some []], [] ++ 2 :: []⟩ 1 :=
    h1.next rfl rfl
  exact h2.next rfl rfl

theorem verify_ok_iff_soundPaths_backwardLoop :
    backwardLoop.Rounds [2, 1, 0] ⟨#[some [], some [.int], some []], []⟩ 1 ∧
      backwardLoop.verify = .ok 1 ∧ backwardLoop.SoundPaths ∧
        IsGreatest backwardLoop.heights 1 := by
  obtain ⟨hpaths, hrounds⟩ := verify_ok_iff_soundPaths backwardLoop
  obtain ⟨_, _, hdone, _⟩ := hrounds _ _ _ rounds_backwardLoop
  have hv : backwardLoop.verify = .ok 1 := (hdone rfl 1).mpr ⟨rfl, by decide⟩
  exact ⟨rounds_backwardLoop, hv, ((hpaths 1).mp hv).1, ((hpaths 1).mp hv).2.1⟩

theorem SoundPaths.verify_eq {h : Nat} (hp : body.SoundPaths) (hg : IsGreatest body.heights h) :
    body.verify =
      if body.code.maxStack < h then .error (.maxStackTooSmall body.code.maxStack h)
      else .ok h := by
  have hx := (explore_start hp.nonempty h).mpr ⟨hp, hg⟩
  rw [verify_of_nonempty hp.nonempty, hx, ok_bind]
  split <;> rfl

theorem SoundPaths.exists_isGreatest (hp : body.SoundPaths) : ∃ h, IsGreatest body.heights h := by
  rcases explore_rounds (.start hp.nonempty) with
    ⟨order, t, found, hr, hw, _⟩ | ⟨order, t, found, pc, rest, e, hr, hw, hrefused, _⟩
  · exact ⟨found, hr.explored.isGreatest hw⟩
  · obtain ⟨t', reached, hok⟩ := hr.explored.round_of hp (show t.work = [] ++ pc :: rest from hw)
    rw [List.nil_append, hrefused] at hok
    cases hok

/-! ## Other limits -/

def withLimit (body : Body) (limit : Nat) : Body :=
  { body with code := { body.code with maxStack := limit } }

theorem step_withLimit (limit : Nat) (locals : Array (Option Kind)) (pc : Nat) (stack : List Kind)
    (i : Instruction) :
    (body.withLimit limit).step locals pc stack i = body.step locals pc stack i := by
  cases i <;> rfl

theorem leads_withLimit {limit pc next : Nat} {flow : Flow} (h : flow.Leads body.code pc next) :
    flow.Leads (body.withLimit limit).code pc next := by
  cases h with
  | next => exact .next
  | past l => exact .past l
  | taken hl => exact .taken hl
  | jumped hl => exact .jumped hl

theorem Reaches.withLimit {pc : Nat} {stack : List Kind} (h : body.Reaches pc stack) (limit : Nat) :
    (body.withLimit limit).Reaches pc stack := by
  induction h with
  | start => exact .start
  | move _ hi hs hl ih => exact .move ih hi ((step_withLimit ..).trans hs) (leads_withLimit hl)

theorem Leaves.withLimit {pc : Nat} {after : List Kind} {flow : Flow}
    (h : body.Leaves pc after flow) (limit : Nat) :
    (body.withLimit limit).Leaves pc after flow := by
  obtain ⟨before, i, hr, hi, hs⟩ := h
  exact ⟨before, i, hr.withLimit limit, hi, (step_withLimit ..).trans hs⟩

theorem SoundPaths.of_withLimit {limit : Nat} (h : (body.withLimit limit).SoundPaths) :
    body.SoundPaths where
  nonempty := h.nonempty
  runs pc before i hr hi := by
    obtain ⟨after, flow, hs⟩ := h.runs pc before i (hr.withLimit limit) hi
    exact ⟨after, flow, (step_withLimit ..).symm.trans hs⟩
  targets pc after flow l hl := h.targets pc after flow l (hl.withLimit limit)
  inside pc after flow next hl hn :=
    h.inside pc after flow next (hl.withLimit limit) (leads_withLimit hn)
  agree pc s t hs ht := h.agree pc s t (hs.withLimit limit) (ht.withLimit limit)

theorem heights_withLimit (limit : Nat) : (body.withLimit limit).heights = body.heights := by
  ext n
  constructor
  · rintro ⟨pc, after, flow, hl, hn⟩
    -- the old limit put back gives the body itself
    have hback : (body.withLimit limit).withLimit body.code.maxStack = body := rfl
    exact ⟨pc, after, flow, hback ▸ hl.withLimit body.code.maxStack, hn⟩
  · rintro ⟨pc, after, flow, hl, hn⟩
    exact ⟨pc, after, flow, hl.withLimit limit, hn⟩

end Body

end StackCode
