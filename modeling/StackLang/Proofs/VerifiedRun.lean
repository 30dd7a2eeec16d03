import StackLang.Files
import StackLang.Proofs.LabelAgreement
import StackLang.Proofs.Runs
import StackLang.Proofs.StackProfile
import StackLang.Sandbox

/-!
# Runs of verified programs

The table of the verifier is an invariant of every run: wherever a run stands,
the stack is as deep as the table says. What the verifier rules out therefore
never happens, whatever the host replies.
-/
namespace StackLang

/-- Faults of a program whose labels or stack are in disorder. -/
inductive Fault.Structural : Fault → Prop
  | duplicateLabel (label : Label) (first second : Nat) :
    Structural (.duplicateLabel label first second)
  | undefinedLabel (place : Nat) (label : Label) :
    Structural (.atPlace place (.undefinedLabel label))
  | stackUnderflow (place : Nat) (opcode : Opcode) :
    Structural (.atPlace place (.stackUnderflow opcode))

/-- A frame agrees with a table. -/
structure StackReport.Fits {size : Nat} (report : StackReport size) (frame : Frame) : Prop where
  admitted : report.Admits frame.place frame.stack.length
  within : frame.stack.length ≤ report.deepest

variable {program : Program} {labels : LabelTable} {report : StackReport program.instructions.size}
variable {frame next : Frame}

theorem fits_start (settled : report.Settled program labels []) : report.Fits .start := by
  refine ⟨?_, Nat.zero_le _⟩
  rcases settled.entry with admitted | waits
  · exact admitted
  · cases waits

theorem fits_of_leads (settled : report.Settled program labels []) (fits : report.Fits frame)
    {i : Instruction} (found : program.instructions[frame.place]? = some i)
    (leads : i.Leads labels frame next) : report.Fits next := by
  obtain ⟨inside, rfl⟩ := Array.getElem?_eq_some_iff.mp found
  have recorded := Walk.recorded_of_admits fits.admitted inside
  constructor
  · rw [length_of_leads leads]
    rcases settled.follows _ _ inside recorded _ leads.place with admitted | waits
    · exact admitted
    · cases waits
  · rw [length_of_leads leads]
    exact settled.bounded _ _ inside recorded

/-- An instruction of a verified program has the slots and the label it needs. -/
theorem not_structural_of_explains (resolved : program.resolve = .ok labels)
    (settled : report.Settled program labels []) (fits : report.Fits frame) {i : Instruction}
    (found : program.instructions[frame.place]? = some i) {cause : Cause}
    (explained : i.Explains labels frame cause) :
    ¬ Fault.Structural (.atPlace frame.place cause) := by
  intro structural
  obtain ⟨inside, same⟩ := Array.getElem?_eq_some_iff.mp found
  have recorded := Walk.recorded_of_admits fits.admitted inside
  have enough := settled.enough _ _ inside recorded
  rw [same] at enough
  cases structural with
  | undefinedLabel place label =>
    exact Program.not_explains_undefinedLabel resolved found explained
  | stackUnderflow place opcode =>
    cases explained with
    | underflow short => exact absurd enough (Nat.not_le_of_lt short)

section

variable {World : Type} [Host World] {world later : World}

theorem fits_of_reaches (verified : program.verify = .ok report)
    (reached : program.Reaches world frame later) : report.Fits frame := by
  obtain ⟨labels, resolved, settled⟩ := Program.settled_of_verify verified
  obtain ⟨machine, n, loaded, going⟩ := reached
  cases (Program.load_eq_ok_iff resolved machine).mp loaded
  refine Machine.run_invariant (P := report.Fits) ?_ (fits_start settled) going
  intro frame next world later fits stepped
  obtain ⟨i, found, leads⟩ := Machine.leads_of_step stepped
  exact fits_of_leads settled fits found leads

theorem not_structural_of_fails (verified : program.verify = .ok report) {fault : Fault}
    (failed : program.Fails world fault later) : ¬ fault.Structural := by
  obtain ⟨labels, resolved, settled⟩ := Program.settled_of_verify verified
  obtain ⟨frame, between, cause, reached, rfl, ends⟩ := Program.ends_of_fails resolved failed
  have fits := fits_of_reaches verified reached
  cases ends with
  | flush error left =>
    intro structural
    cases structural
  | instruction i found explained =>
    exact not_structural_of_explains resolved settled fits found explained

end

/--
Every run of a verified program keeps to the table of the verifier: before each instruction the
stack has the recorded depth, it never exceeds the reported maximum, it is empty when the program
is left at its end, and no fault is one of labels or of missing slots.
-/
theorem verified_run (program : Program) (report : StackReport program.instructions.size)
    (verified : program.verify = .ok report) {World : Type} [Host World] (world : World) :
    (∀ frame later, program.Reaches world frame later →
      (∀ inside : frame.place < program.instructions.size,
        report.depths[frame.place] = some frame.stack.length) ∧
      frame.stack.length ≤ report.deepest ∧
      (program.instructions.size ≤ frame.place → frame.stack = [])) ∧
    ∀ fault later, program.Fails world fault later → ¬ fault.Structural := by
  refine ⟨fun frame later reached => ?_, fun fault later => not_structural_of_fails verified⟩
  have fits := fits_of_reaches verified reached
  refine ⟨Walk.recorded_of_admits fits.admitted, fits.within, fun outside => ?_⟩
  have admitted := fits.admitted
  rw [StackReport.Admits, dif_neg (Nat.not_lt_of_le outside)] at admitted
  exact List.eq_nil_of_length_eq_zero admitted

/-- A loop that prints for ever. -/
theorem verified_run_of_printing_loop :
    let program : Program := .ofList [.label 0, .push (.bool true), .jumpIfFalse 1,
      .push (.int 1), .print 1, .jump 0, .label 1, .push (.int 2), .pop]
    let world : Sandbox DirectoryTree := ⟨[], .unlimited, .scratch⟩
    ∃ report, program.verify = .ok report ∧
      (∀ frame later, program.Reaches world frame later →
        (∀ inside : frame.place < program.instructions.size,
          report.depths[frame.place] = some frame.stack.length) ∧
        frame.stack.length ≤ report.deepest ∧
        (program.instructions.size ≤ frame.place → frame.stack = [])) ∧
      ∀ fault later, program.Fails world fault later → ¬ fault.Structural := by
  intro program world
  have defined : jumpTargets program.toList ⊆ definedLabels program.toList := by decide
  obtain ⟨labels, resolved⟩ : ∃ labels, program.resolve = .ok labels :=
    Program.exists_resolve (by decide) fun label member => defined member
  have profile : ∃ peak, Profile 0 program.toList 0 peak :=
    ⟨_, .cons (by decide) (by decide) <| .cons (by decide) (by decide) <|
      .cons (by decide) (by decide) <| .cons (by decide) (by decide) <|
      .cons (by decide) (by decide) <| .cons (by decide) (by decide) <|
      .cons (by decide) (by decide) <| .cons (by decide) (by decide) <|
      .cons (by decide) (by decide) <| .nil _⟩
  obtain ⟨peak, profile⟩ := profile
  obtain ⟨report, verified, _⟩ := Program.verify_of_profile resolved profile
  exact ⟨report, verified, verified_run program report verified world⟩

end StackLang
