import StackCode.Verifier.Step

/-!
# Verification of bodies

`Body.verify` runs each instruction that control reaches once, on the stack of the path that arrives
first, and demands that every other path brings the same stack. Code that no path reaches is not looked
at. Each round takes one position from the worklist, and each position enters it once, so the search
ends.
-/

namespace StackCode

/-- The stacks recorded so far, one for each position reached, and the positions still to run. -/
structure Search where
  frames : Array (Option (List Kind))
  work : List Nat

namespace Search

def start (length : Nat) : Search :=
  ⟨(Array.replicate length none).setIfInBounds 0 (some []), [0]⟩

/-- Twice the positions not reached, and the worklist: what bounds the rounds left. -/
def pending (s : Search) : Nat := 2 * s.frames.countP Option.isNone + s.work.length

def arrive (s : Search) (pc : Nat) (stack : List Kind) (next : Nat) : Except VerifyError Search :=
  if h : next < s.frames.size then
    match s.frames[next] with
    | none => .ok ⟨s.frames.set next (some stack), next :: s.work⟩
    | some known => if known = stack then .ok s else .error (.shapeMismatch next known stack)
  else .error (.fallsOffEnd pc)

def arriveAll (s : Search) (pc : Nat) (stack : List Kind) : List Nat → Except VerifyError Search
  | [] => .ok s
  | next :: rest =>
    match s.arrive pc stack next with
    | .error e => .error e
    | .ok s => s.arriveAll pc stack rest

theorem arrive_pending {s t : Search} {pc next : Nat} {stack : List Kind}
    (h : s.arrive pc stack next = .ok t) : t.pending ≤ s.pending := by
  unfold arrive at h
  split at h
  · rename_i hlt
    split at h
    · rename_i hnone
      cases h
      have hpos : 0 < s.frames.countP Option.isNone :=
        Array.countP_pos_iff.mpr ⟨_, Array.getElem_mem hlt, by rw [hnone]; rfl⟩
      simp only [pending, Array.countP_set, hnone, List.length_cons]
      simp
      omega
    · split at h
      · cases h
        exact Nat.le_refl _
      · cases h
  · cases h

theorem arriveAll_pending {s t : Search} {pc : Nat} {stack : List Kind} {targets : List Nat}
    (h : s.arriveAll pc stack targets = .ok t) : t.pending ≤ s.pending := by
  induction targets generalizing s with
  | nil => cases h; exact Nat.le_refl _
  | cons next rest ih =>
    simp only [arriveAll] at h
    split at h
    · cases h
    · rename_i harrive
      exact Nat.le_trans (ih h) (arrive_pending harrive)

end Search

namespace Body

variable (body : Body)

def branchTarget (pc : Nat) (label : Label) : Except VerifyError Nat :=
  match body.code.labelInfo? label with
  | some ⟨some position, false⟩ =>
    if position < body.code.instructions.size then .ok position else .error (.invalidTarget pc label)
  | _ => .error (.invalidTarget pc label)

/-- The positions that control may reach next; of a branch, the target first. -/
def successors (pc : Nat) : Flow → Except VerifyError (List Nat)
  | .next => .ok [pc + 1]
  | .branch target => do return [← body.branchTarget pc target, pc + 1]
  | .jump target => do return [← body.branchTarget pc target]
  | .exit => .ok []

/-- Runs one position and records where control goes from it. Gives the search and the slots under the
stack that the instruction leaves. -/
def round (locals : Array (Option Kind)) (s : Search) (pc : Nat) : Except VerifyError (Search × Nat) :=
  match s.frames[pc]?, body.code.instructions[pc]? with
  | some (some stack), some instruction =>
    match body.step locals pc stack instruction with
    | .error e => .error e
    | .ok (stack, flow) =>
      match body.successors pc flow with
      | .error e => .error e
      | .ok targets =>
        match s.arriveAll pc stack targets with
        | .error e => .error e
        | .ok s => .ok (s, slotHeight stack)
  | _, _ => .ok (s, 0)

theorem round_pending {locals : Array (Option Kind)} {s t : Search} {pc height : Nat}
    (h : body.round locals s pc = .ok (t, height)) : t.pending ≤ s.pending := by
  unfold round at h
  split at h
  · split at h
    · cases h
    · split at h
      · cases h
      · split at h
        · cases h
        · rename_i harrive
          cases h
          exact Search.arriveAll_pending harrive
  · cases h
    exact Nat.le_refl _

/-- Runs positions until none is left; the last found goes first. Gives the greatest height. -/
def explore (locals : Array (Option Kind)) (s : Search) (height : Nat) : Except VerifyError Nat :=
  match hw : s.work with
  | [] => .ok height
  | pc :: rest =>
    match hr : body.round locals ⟨s.frames, rest⟩ pc with
    | .error e => .error e
    | .ok (t, reached) =>
      have : t.pending < s.pending := by
        have := body.round_pending hr
        simp only [Search.pending, hw, List.length_cons] at this ⊢
        omega
      explore locals t (max height reached)
termination_by s.pending

def verify : Except VerifyError Nat :=
  let length := body.code.instructions.size
  if length = 0 then .error (.fallsOffEnd 0)
  else do
    let height ← body.explore (entryLocals body.access body.signature).toArray (.start length) 0
    if body.code.maxStack < height then throw (.maxStackTooSmall body.code.maxStack height)
    return height

end Body

end StackCode
