import StackLang.Program.Basic

/-!
# Segments

Code that stands in a program from one place to another. A segment divides
wherever its code does, so that facts about emitted code carry over to the
program it was emitted into.
-/
namespace StackLang

/-- The code of a conditional, put together from the code of its parts. -/
def conditionalCode (other final : Label) (test positive negative : List Instruction) :
    List Instruction :=
  let branch : List Instruction := [.jumpIfFalse other]
  let between : List Instruction := [.jump final, .label other]
  let close : List Instruction := [.label final]
  test ++ branch ++ positive ++ between ++ negative ++ close

/-- The code of a loop, put together from the code of its parts. -/
def loopCode (top final : Label) (test body : List Instruction) : List Instruction :=
  let enter : List Instruction := [.label top]
  let branch : List Instruction := [.jumpIfFalse final]
  let close : List Instruction := [.jump top, .label final]
  enter ++ test ++ branch ++ body ++ close

namespace Program

variable {program : Program} {start middle stop : Nat} {i : Instruction}
variable {code first second : List Instruction}

/-- The instructions from one place up to another are the given ones. -/
def Segment (program : Program) : Nat → List Instruction → Nat → Prop
  | start, [], stop => start = stop
  | start, i :: rest, stop =>
    program.instructions[start]? = some i ∧ program.Segment (start + 1) rest stop

theorem segment_nil : program.Segment start [] stop ↔ start = stop := Iff.rfl

theorem segment_cons :
    program.Segment start (i :: code) stop ↔
      program.instructions[start]? = some i ∧ program.Segment (start + 1) code stop := Iff.rfl

theorem segment_append :
    program.Segment start (first ++ second) stop ↔
      ∃ middle, program.Segment start first middle ∧ program.Segment middle second stop := by
  induction first generalizing start with
  | nil =>
    constructor
    · exact fun segment => ⟨start, rfl, segment⟩
    · rintro ⟨_, rfl, segment⟩
      exact segment
  | cons i rest ih =>
    rw [List.cons_append, segment_cons, ih]
    constructor
    · rintro ⟨found, middle, here, there⟩
      exact ⟨middle, ⟨found, here⟩, there⟩
    · rintro ⟨middle, ⟨found, here⟩, there⟩
      exact ⟨found, middle, here, there⟩

theorem segment_singleton :
    program.Segment start [i] stop ↔
      program.instructions[start]? = some i ∧ stop = start + 1 := by
  rw [segment_cons, segment_nil, eq_comm (b := stop)]

theorem stop_of_segment (segment : program.Segment start code stop) :
    stop = start + code.length := by
  induction code generalizing start with
  | nil => exact (segment_nil.mp segment).symm
  | cons i rest ih =>
    obtain ⟨_, later⟩ := segment_cons.mp segment
    rw [ih later, List.length_cons]
    omega

section Branching

variable {test positive negative body : List Instruction} {other final top : Label}

/-- How the code of a conditional lies in a program. -/
theorem segment_conditional
    (segment : program.Segment start (conditionalCode other final test positive negative) stop) :
    ∃ branch jump close, program.Segment start test branch ∧
      program.instructions[branch]? = some (.jumpIfFalse other) ∧
      program.Segment (branch + 1) positive jump ∧
      program.instructions[jump]? = some (.jump final) ∧
      program.instructions[jump + 1]? = some (.label other) ∧
      program.Segment (jump + 2) negative close ∧
      program.instructions[close]? = some (.label final) ∧ stop = close + 1 := by
  simp only [conditionalCode, segment_append, segment_cons, segment_nil] at segment
  obtain ⟨close, ⟨_, ⟨jump, ⟨_, ⟨branch, tested, branches, rfl⟩, first⟩, jumps, defined, rfl⟩,
    second⟩, closes, rfl⟩ := segment
  exact ⟨branch, jump, close, tested, branches, first, jumps, defined, second, closes, rfl⟩

/-- How the code of a loop lies in a program. -/
theorem segment_loop
    (segment : program.Segment start (loopCode top final test body) stop) :
    ∃ branch jump, program.instructions[start]? = some (.label top) ∧
      program.Segment (start + 1) test branch ∧
      program.instructions[branch]? = some (.jumpIfFalse final) ∧
      program.Segment (branch + 1) body jump ∧
      program.instructions[jump]? = some (.jump top) ∧
      program.instructions[jump + 1]? = some (.label final) ∧ stop = jump + 2 := by
  simp only [loopCode, segment_append, segment_cons, segment_nil] at segment
  obtain ⟨jump, ⟨_, ⟨branch, ⟨_, ⟨opens, rfl⟩, tested⟩, branches, rfl⟩, inner⟩, jumps, defined,
    rfl⟩ := segment
  exact ⟨branch, jump, opens, tested, branches, inner, jumps, defined, rfl⟩

end Branching

/-- A program is a segment of itself. -/
theorem segment_toList (program : Program) :
    program.Segment 0 program.toList program.instructions.size := by
  have suffix : ∀ before after, before ++ after = program.toList →
      program.Segment before.length after program.instructions.size := by
    intro before after split
    induction after generalizing before with
    | nil =>
      rw [List.append_nil] at split
      rw [segment_nil, split]
      exact Array.length_toList
    | cons i rest ih =>
      constructor
      · rw [← Array.getElem?_toList]
        change program.toList[before.length]? = some i
        rw [← split, List.getElem?_append_right (Nat.le_refl _), Nat.sub_self]
        rfl
      · have next := ih (before ++ [i]) (by rw [List.append_assoc]; exact split)
        rwa [List.length_append] at next
  exact suffix [] program.toList rfl

end Program

end StackLang
