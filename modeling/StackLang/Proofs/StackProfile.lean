import StackLang.Proofs.DepthTable
import StackLang.Proofs.LoweredCode
import StackLang.Proofs.Resolution
import StackLang.Proofs.Segment

/-!
# Stack profiles

Read in a row and without regard to jumps, instructions take the stack from one
depth to another by way of a greatest depth. If all labels and jumps stand where
the stack is empty, the row decides about every path as well: such a program
passes the verifier.
-/
namespace StackLang

/--
Instructions in a row need no more than there is and lead from one depth to another, the greatest
depth on the way being the peak. Labels and jumps leave the stack empty.
-/
inductive Profile : Nat → List Instruction → Nat → Nat → Prop
  | nil (depth : Nat) : Profile depth [] depth depth
  | cons {depth last peak : Nat} {i : Instruction} {rest : List Instruction}
    (enough : i.pops ≤ depth) (level : i.isControl = true → i.after depth = 0)
    (later : Profile (i.after depth) rest last peak) :
    Profile depth (i :: rest) last (max depth peak)

namespace Profile

variable {start middle last peak later : Nat} {code first second : List Instruction}

theorem start_le (profile : Profile start code last peak) : start ≤ peak := by
  cases profile with
  | nil => exact Nat.le_refl _
  | cons => exact Nat.le_max_left _ _

theorem last_le (profile : Profile start code last peak) : last ≤ peak := by
  induction profile with
  | nil => exact Nat.le_refl _
  | cons _ _ _ ih => exact Nat.le_trans ih (Nat.le_max_right _ _)

theorem append (profile : Profile start first middle peak)
    (more : Profile middle second last later) :
    Profile start (first ++ second) last (max peak later) := by
  induction profile with
  | nil depth =>
    rw [Nat.max_eq_right more.start_le]
    exact more
  | cons enough level _ ih =>
    rw [Nat.max_assoc]
    exact .cons enough level (ih more)

/-- A single instruction that is no label and no jump. -/
theorem plain {i : Instruction} (enough : i.pops ≤ start) (straight : i.isControl = false) :
    Profile start [i] (i.after start) (max start (i.after start)) :=
  .cons enough (fun control => by rw [straight] at control; cases control) (.nil _)

/-- A single instruction that leaves the stack empty. -/
theorem level {i : Instruction} (enough : i.pops ≤ start) (empty : i.after start = 0) :
    Profile start [i] 0 start := by
  have profile := Profile.cons enough (fun _ => empty) (.nil _)
  rwa [empty, Nat.max_eq_left (Nat.zero_le start)] at profile

end Profile

/-- The depth in front of an instruction of a row. -/
def depthAt (start : Nat) (code : List Instruction) (index : Nat) : Nat :=
  (code.take index).foldl (fun depth i => i.after depth) start

/-- What a profile says of one instruction of its row. -/
structure Profile.Place (depth : Nat) (i : Instruction) (behind peak : Nat) : Prop where
  enough : i.pops ≤ depth
  level : i.isControl = true → i.after depth = 0
  behind_eq : behind = i.after depth
  bounded : behind ≤ peak

namespace Profile

variable {start last peak : Nat} {code : List Instruction}

theorem place_of_getElem? (profile : Profile start code last peak) {index : Nat} {i : Instruction}
    (found : code[index]? = some i) :
    Place (depthAt start code index) i (depthAt start code (index + 1)) peak := by
  induction profile generalizing index with
  | nil => cases found
  | @cons depth last peak first rest enough level later ih =>
    cases index with
    | zero =>
      cases found
      exact ⟨enough, level, rfl, Nat.le_trans later.start_le (Nat.le_max_right _ _)⟩
    | succ index =>
      have place := ih found
      exact ⟨place.enough, place.level, place.behind_eq,
        Nat.le_trans place.bounded (Nat.le_max_right _ _)⟩

theorem depthAt_length (profile : Profile start code last peak) :
    depthAt start code code.length = last := by
  induction profile with
  | nil => rfl
  | cons _ _ _ ih => exact ih

end Profile

variable {program : Program} {labels : LabelTable} {peak : Nat}

/-- Control never leaves the row of a profile but at its end, and arrives on the right level. -/
theorem levels_of_profile (resolved : program.resolve = .ok labels)
    (profile : Profile 0 program.toList 0 peak) :
    Walk.Levels program labels (depthAt 0 program.toList) peak := by
  have found : ∀ place, ∀ inside : place < program.instructions.size,
      program.toList[place]? = some program.instructions[place] := by
    intro place inside
    rw [program.getElem?_toList]
    exact Array.getElem?_eq_getElem inside
  have place := fun place inside => profile.place_of_getElem? (found place inside)
  -- A label stands where the stack is empty, and so does what follows it.
  have entry : ∀ label place, labels.entry? label = some place →
      place ≤ program.instructions.size ∧ depthAt 0 program.toList place = 0 := by
    intro label next goesTo
    obtain ⟨defined, here, rfl⟩ := Program.label_of_entry? resolved goesTo
    have inside : defined < program.instructions.size := (Array.getElem?_eq_some_iff.mp here).1
    rw [← program.getElem?_toList] at here
    have standing := profile.place_of_getElem? here
    exact ⟨inside, standing.behind_eq.trans (standing.level rfl)⟩
  refine ⟨rfl, profile.depthAt_length, fun p inside => (place p inside).enough, ?_, ?_⟩
  · intro p inside
    rw [← (place p inside).behind_eq]
    exact (place p inside).bounded
  · intro p inside next leads
    have standing := place p inside
    revert leads standing
    generalize program.instructions[p] = i
    intro leads standing
    have jumps : ∀ label, i.target? = some label → labels.entry? label = some next →
        next ≤ program.instructions.size ∧
          depthAt 0 program.toList next = i.after (depthAt 0 program.toList p) := by
      intro label targets goesTo
      obtain ⟨within, empty⟩ := entry label next goesTo
      have control : i.isControl = true := by simp [Instruction.isControl, targets]
      exact ⟨within, empty.trans (standing.level control).symm⟩
    have steps : next = p + 1 → next ≤ program.instructions.size ∧
        depthAt 0 program.toList next = i.after (depthAt 0 program.toList p) := by
      rintro rfl
      exact ⟨inside, standing.behind_eq⟩
    cases i with
    | jump label => exact jumps label rfl (Option.mem_toList.mp leads)
    | jumpIfFalse label =>
      rcases List.mem_cons.mp leads with here | there
      · exact steps here
      · exact jumps label rfl (Option.mem_toList.mp there)
    | _ => exact steps (List.mem_singleton.mp leads)

/-- A resolved program with a level profile passes, and its stack stays below the peak. -/
theorem Program.verify_of_profile (resolved : program.resolve = .ok labels)
    (profile : Profile 0 program.toList 0 peak) :
    ∃ report, program.verify = .ok report ∧ report.deepest ≤ peak :=
  Program.verify_of_levels resolved (levels_of_profile resolved profile)

section Reached

variable {report : StackReport program.instructions.size} {start middle stop depth last : Nat}
variable {code : List Instruction} {i : Instruction}

/-- Control that comes to an instruction of a settled table goes on to each of its successors. -/
theorem admits_of_successor (settled : report.Settled program labels [])
    (admitted : report.Admits start depth) (found : program.instructions[start]? = some i)
    {next : Nat} (leads : next ∈ Walk.successors labels start i) :
    i.after depth ≤ report.deepest ∧ report.Admits next (i.after depth) := by
  obtain ⟨inside, rfl⟩ := Array.getElem?_eq_some_iff.mp found
  have recorded := Walk.recorded_of_admits admitted inside
  refine ⟨settled.bounded start depth inside recorded, ?_⟩
  rcases settled.follows start depth inside recorded next leads with here | waits
  · exact here
  · cases waits

theorem next_mem_successors (plain : i.isControl = false) (labels : LabelTable) (place : Nat) :
    place + 1 ∈ Walk.successors labels place i := by
  cases i with
  | jump label => cases plain
  | _ => exact List.mem_cons_self

/-- Control that comes to straight code goes through all of it, and the table knows the peak. -/
theorem admits_of_straight (settled : report.Settled program labels [])
    (segment : program.Segment start code stop) (straight : Straight code)
    (profile : Profile depth code last peak) (admitted : report.Admits start depth)
    (within : depth ≤ report.deepest) : peak ≤ report.deepest ∧ report.Admits stop last := by
  induction profile generalizing start with
  | nil depth =>
    cases segment
    exact ⟨within, admitted⟩
  | cons _ _ _ ih =>
    obtain ⟨plain, straight⟩ := List.forall_mem_cons.mp straight
    obtain ⟨found, segment⟩ := segment
    obtain ⟨bounded, admitted⟩ :=
      admits_of_successor settled admitted found (next_mem_successors plain labels start)
    obtain ⟨known, arrives⟩ := ih segment straight admitted bounded
    exact ⟨Nat.max_le.mpr ⟨within, known⟩, arrives⟩

end Reached

end StackLang
