import StackLang.Program.Basic

/-!
# Static stack discipline

The verifier follows control from the first instruction and records, for every
instruction it reaches, how many slots the stack holds before it. A program
passes if no instruction takes more slots than there are, all ways to an
instruction agree on its depth, and nothing is left at the end.

The walk goes on with the place found last, after a conditional jump with the
instruction that follows it. An instruction is expanded once, when its depth is
recorded, so the walk ends.
-/
namespace StackLang

inductive VerifyError where
  | label (error : LabelError)
  | stackUnderflow (place needed depth : Nat)
  | depthMismatch (place first second : Nat)
  | unbalancedExit (depth : Nat)
  deriving Repr, DecidableEq

def VerifyError.message : VerifyError → String
  | .label (.duplicate l first second) =>
    s!"label {natText l.toNat} is defined at both {natText first} and {natText second}"
  | .label (.undefined place l) =>
    s!"instruction {natText place} jumps to undefined label {natText l.toNat}"
  | .stackUnderflow place needed depth =>
    s!"instruction {natText place} needs {natText needed} operands but the stack holds {natText depth}"
  | .depthMismatch place first second =>
    s!"instruction {natText place} is reached with stack depths {natText first} and {natText second}"
  | .unbalancedExit depth => s!"program ends with {natText depth} values left on the stack"

/-- What is known when a program passes. -/
structure StackReport (size : Nat) where
  /-- The depth before each instruction that can be reached. -/
  depths : Vector (Option Nat) size
  /-- The largest depth after any of them. -/
  deepest : Nat

/-- The state of a walk: what is known, and the places to visit, each with a depth. -/
structure Walk (size : Nat) extends StackReport size where
  waiting : List (Nat × Nat)

namespace Walk

def start (size : Nat) : Walk size :=
  ⟨⟨Vector.replicate size none, 0⟩, [(0, 0)]⟩

/-- The places where control can be after the instruction at a place, the next one first. -/
def successors (labels : LabelTable) (place : Nat) : Instruction → List Nat
  | .jump label => (labels.entry? label).toList
  | .jumpIfFalse label => (place + 1) :: (labels.entry? label).toList
  | _ => [place + 1]

/-- Visits a place; what is found from there goes before the other places that wait. -/
def visit (program : Program) (labels : LabelTable) (known : StackReport program.instructions.size)
    (place depth : Nat) (waiting : List (Nat × Nat)) :
    Except VerifyError (Walk program.instructions.size) :=
  if inside : place < program.instructions.size then
    match known.depths[place] with
    | some first =>
      if first = depth then .ok ⟨known, waiting⟩ else .error (.depthMismatch place first depth)
    | none =>
      let i := program.instructions[place]
      if depth < i.pops then .error (.stackUnderflow place i.pops depth)
      else
        let after := depth - i.pops + i.pushes
        .ok ⟨⟨known.depths.set place (some depth), max known.deepest after⟩,
          (successors labels place i).map (·, after) ++ waiting⟩
  else if depth = 0 then .ok ⟨known, waiting⟩
  else .error (.unbalancedExit depth)

/-- Recording a depth where none is recorded leaves fewer places without one. -/
theorem count_none_set_lt {size place : Nat} {depths : Vector (Option Nat) size}
    (inside : place < size) (unrecorded : depths[place] = none) (depth : Nat) :
    (depths.set place (some depth)).count none < depths.count none := by
  have found : 0 < depths.count none :=
    Vector.count_pos_iff.mpr (unrecorded ▸ Vector.getElem_mem inside)
  have fewer : (depths.set place (some depth)).count none = depths.count none - 1 + 0 := by
    rw [Vector.count_set, unrecorded]
    rfl
  omega

/-- A visit records one depth more, or leaves the depths as they are and one place less waiting. -/
theorem visit_decreases {program : Program} {labels : LabelTable}
    {known : StackReport program.instructions.size} {place depth : Nat}
    {waiting : List (Nat × Nat)} {later : Walk program.instructions.size}
    (visited : visit program labels known place depth waiting = .ok later) :
    later.depths.count none < known.depths.count none ∨
      later.depths = known.depths ∧ later.waiting = waiting := by
  rw [visit] at visited
  split at visited
  next inside =>
    split at visited
    next =>
      split at visited
      · cases visited
        exact .inr ⟨rfl, rfl⟩
      · cases visited
    next unrecorded =>
      dsimp only at visited
      split at visited
      · cases visited
      · cases visited
        exact .inl (count_none_set_lt inside unrecorded depth)
  next =>
    split at visited
    · cases visited
      exact .inr ⟨rfl, rfl⟩
    · cases visited

/-- Visits the places that wait, until none is left. -/
def finish (program : Program) (labels : LabelTable) (walk : Walk program.instructions.size) :
    Except VerifyError (StackReport program.instructions.size) :=
  match walk with
  | ⟨known, []⟩ => .ok known
  | ⟨known, (place, depth) :: waiting⟩ =>
    match visited : visit program labels known place depth waiting with
    | .error e => .error e
    | .ok later =>
      have := visit_decreases visited
      finish program labels later
termination_by (walk.depths.count none, walk.waiting.length)
decreasing_by
  rcases this with fewer | ⟨depths, rest⟩
  · exact Prod.Lex.left _ _ fewer
  · rw [depths, rest]
    exact Prod.Lex.right _ (Nat.lt_succ_self _)

end Walk

/-- The depths of the stack in a program that keeps its discipline. -/
def Program.verify (program : Program) :
    Except VerifyError (StackReport program.instructions.size) :=
  match program.resolve with
  | .error e => .error (.label e)
  | .ok labels => Walk.finish program labels (.start _)

end StackLang
