import StackLang.Proofs.Requests
import StackLang.Proofs.VerifiedRun

/-!
# Where faults arise

Control stays on the ways through the program, and the effects of the instructions
on the way add up to the depth of the stack. So a fault of a run names a place
that some way leads to. The instruction there is the reason for the fault by its
own form, or the program has been left and the host did not take the flush. An
error of the host is its answer to what was asked at that place.
-/
namespace StackLang

namespace Program

variable {program : Program} {labels : LabelTable} {frame next : Frame}

theorem arrives_of_leads (resolved : program.resolve = .ok labels)
    (arrives : program.Arrives frame.place frame.stack.length) {i : Instruction}
    (found : program.instructions[frame.place]? = some i) (leads : i.Leads labels frame next) :
    program.Arrives next.place next.stack.length := by
  have edge := (mem_successors_iff resolved found).mp leads.place
  have enough := leads.enough
  have depth : (next.stack.length : Int) = frame.stack.length + i.effect := by
    rw [length_of_leads leads, Instruction.effect]
    omega
  rw [depth]
  exact .step arrives found edge

variable {World : Type} [Host World] {world later : World}

/-- Every frame of a run lies on a way through the program, with the depth that way has. -/
theorem arrives_of_run (resolved : program.resolve = .ok labels) {n : Nat}
    (going : Machine.run ⟨program, labels⟩ n .start world = (.running frame, later)) :
    program.Arrives frame.place frame.stack.length := by
  refine Machine.run_invariant
    (P := fun frame => program.Arrives frame.place frame.stack.length) ?_ .start going
  intro frame next world later arrives stepped
  obtain ⟨i, found, leads⟩ := Machine.leads_of_step stepped
  exact arrives_of_leads resolved arrives found leads

/-- A program that is refused blames a label. -/
theorem resolves_of_fails {place : Nat} {cause : Cause}
    (failed : program.Fails world (.atPlace place cause) later)
    (notLabel : ∀ label, cause ≠ .undefinedLabel label) :
    ∃ labels, program.resolve = .ok labels := by
  cases resolved : program.resolve with
  | ok labels => exact ⟨labels, rfl⟩
  | error error =>
    have refused : Machine.load program = .error (.ofLabelError error) := by
      rw [Machine.load, resolved]
    rcases failed with ⟨same, _⟩ | ⟨machine, _, loaded, _⟩
    · rw [refused] at same
      cases error with
      | duplicate label first second => cases same
      | undefined place label =>
        cases same
        exact absurd rfl (notLabel label)
    · rw [refused] at loaded
      cases loaded

/--
A fault that is not over a label arises in a frame that the run comes to, at a place that some way
through the program leads to. Either an instruction is there and explains the fault: by its form
and what it finds in the frame, and, if the fault is an error of the host, because the host refused
what this instruction asked of it. Or the program has been left at its end, and the fault is the
refusal of the flush.
-/
theorem fault_attributed (program : Program) {World : Type} [Host World] (world later : World)
    (place : Nat) (cause : Cause) (failed : program.Fails world (.atPlace place cause) later)
    (notLabel : ∀ label, cause ≠ .undefinedLabel label) :
    ∃ labels frame between, program.resolve = .ok labels ∧
      program.Reaches world frame between ∧ frame.place = place ∧
      program.Arrives place frame.stack.length ∧
      ((∃ inside : place < program.instructions.size,
          program.instructions[place].Explains labels frame cause ∧
          ∀ error, cause = .system error → ∃ request resume,
            program.instructions[place].Asks frame request resume ∧
            Host.perform request between = (.error error, later)) ∨
        (place = program.instructions.size ∧ ∃ error, cause = .system error ∧
          Host.perform .flush between = (.error error, later))) := by
  obtain ⟨labels, resolved⟩ := resolves_of_fails failed notLabel
  obtain ⟨n, ended⟩ := (fails_iff resolved).mp failed
  obtain ⟨m, frame, between, going, stepped⟩ :=
    Machine.last_step ended (Status.failed_ne_running _)
  obtain ⟨_, same, ends⟩ := Machine.ends_of_step stepped
  cases same
  refine ⟨labels, frame, between, resolved, ⟨_, m, load_of_resolve resolved, going⟩, rfl,
    arrives_of_run resolved going, ?_⟩
  cases ends with
  | flush error left =>
    have outside := Array.getElem?_eq_none_iff.mp left
    have within := place_le_size_of_run resolved going
    refine .inr ⟨Nat.le_antisymm within outside, error, rfl, ?_⟩
    obtain ⟨request, resume, moves, refused⟩ := Machine.refused_of_step stepped
    rcases Machine.asks_of_move moves with ⟨_, rfl⟩ | ⟨i, _, found, _⟩
    · exact refused
    · rw [left] at found
      cases found
  | instruction i found explained =>
    obtain ⟨inside, rfl⟩ := Array.getElem?_eq_some_iff.mp found
    refine .inl ⟨inside, explained, ?_⟩
    rintro error rfl
    obtain ⟨request, resume, moves, refused⟩ := Machine.refused_of_step stepped
    rcases Machine.asks_of_move moves with ⟨left, _⟩ | ⟨i, next, found', asks, _⟩
    · rw [found] at left
      cases left
    · cases found.symm.trans found'
      exact ⟨request, next, asks, refused⟩

/-- The second of two texts does not fit into the output. -/
theorem fault_attributed_print :
    let program : Program :=
      .ofList [.push (.string "a"), .print 1, .push (.string "b"), .print 1]
    let world : Sandbox DirectoryTree := ⟨[], ⟨#[], some 2, false⟩, .scratch⟩
    let cause : Cause := .system .brokenPipe
    ∃ later, program.Fails world (.atPlace 3 cause) later ∧
      (∀ label, cause ≠ .undefinedLabel label) ∧
      ∃ labels frame between, program.Reaches world frame between ∧ frame.place = 3 ∧
        program.Arrives 3 frame.stack.length ∧
        (Instruction.print 1).Explains labels frame cause ∧
        ∃ request resume, (Instruction.print 1).Asks frame request resume ∧
          Host.perform request between = (.error .brokenPipe, later) := by
  intro program world cause
  obtain ⟨machine, later, loaded, ended⟩ : ∃ machine later, Machine.load program = .ok machine ∧
      machine.run 4 .start world = (.failed (.atPlace 3 cause), later) := ⟨_, _, rfl, rfl⟩
  have failed : program.Fails world (.atPlace 3 cause) later := .inr ⟨machine, 4, loaded, ended⟩
  have notLabel : ∀ label, Cause.system .brokenPipe ≠ .undefinedLabel label :=
    fun label same => by cases same
  obtain ⟨labels, frame, between, _, reached, here, arrives, there | ⟨atEnd, _⟩⟩ :=
    fault_attributed program world later 3 cause failed notLabel
  · obtain ⟨_, explained, refused⟩ := there
    exact ⟨later, failed, notLabel, labels, frame, between, reached, here, arrives, explained,
      refused .brokenPipe rfl⟩
  · cases atEnd

end Program

end StackLang
