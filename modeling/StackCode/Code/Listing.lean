import StackCode.Code.Basic

/-!
# Listings of method bodies

One line for each instruction, with its position, the branch target that lies there and, for a branch,
where it goes. Empty tables are left out.
-/

namespace StackCode

def padLeft (width : Nat) (text : String) : String :=
  String.ofList (List.replicate (width - text.length) ' ') ++ text

namespace Code

def branchTargets (code : Code) : List Label :=
  code.instructions.toList.filterMap Instruction.target?

def constantLines (code : Code) : List String :=
  if code.constants.isEmpty then ["  constants: []"]
  else ["  constants: ["]
    ++ code.constants.toList.mapIdx (fun i c => s!"    [{i}] = {c.text}") ++ ["  ]"]

/-- For each instruction, the first of the branch targets that lies there. -/
def targetMarks (code : Code) : Array (Option Label) :=
  code.branchTargets.foldr (fun l marks =>
    match code.position? l with
    | some p => marks.setIfInBounds p (some l)
    | none => marks) (Array.replicate code.instructions.size none)

def instructionLine (code : Code) (marks : Array (Option Label)) (pc : Nat) (i : Instruction) : String :=
  let mark := match marks[pc]?.join with
    | some l => s!"{l}:"
    | none => ""
  let goal := match i.target? with
    | some l => match code.position? l with
      | some p => s!" (to @{p})"
      | none => " (to unmarked)"
    | none => ""
  s!"    {padLeft 4 (toString pc)} {padLeft 5 mark}  {i.text}{goal}"

def lineTable (code : Code) : List String :=
  if code.lines.isEmpty then []
  else "  line_numbers:" :: code.lines.map fun e => s!"    pc {e.pc} -> line {e.line}"

def localTable (code : Code) : List String :=
  if code.locals.isEmpty then []
  else "  local_variables:" :: code.locals.map fun v =>
    s!"    [{v.index.toNat}] {v.name} {v.type} ({v.start}..{v.stop})"

def listing (code : Code) : String :=
  let marks := code.targetMarks
  "\n".intercalate <|
    ["Code \x7b", s!"  max_locals: {code.maxLocals}", s!"  max_stack: {code.maxStack}"]
    ++ code.constantLines ++ ["  instructions:"]
    ++ code.instructions.toList.mapIdx (code.instructionLine marks)
    ++ code.lineTable ++ code.localTable ++ ["\x7d"]

end Code

end StackCode
