import StackLang.Files
import StackLang.Proofs.Runs
import StackLang.Sandbox

/-!
# Arity

How many slots an instruction takes and leaves is told by a table that the
machine never looks at. The machine agrees with it all the same: a step takes
and leaves as many slots as the table says, it fails where there are fewer, and
it never wants more. What lies deeper is not touched, by a step or by a run.
-/
namespace StackLang

namespace Machine

variable {World : Type} [Host World] {machine : Machine}
variable {frame next last : Frame} {world later : World} {base : Stack}

/-- A slot that an instruction does not reach down to stays below what it leaves. -/
theorem suffix_of_step (stepped : machine.step frame world = (.running next, later))
    (lies : base <:+ frame.stack)
    (spared : ∀ i, machine.program.instructions[frame.place]? = some i →
      base.length + i.pops ≤ frame.stack.length) : base <:+ next.stack := by
  obtain ⟨i, found, leads⟩ := leads_of_step stepped
  have below : base <:+ frame.stack.drop i.pops := by
    refine List.suffix_of_suffix_length_le lies (List.drop_suffix _ _) ?_
    have room := spared i found
    rw [List.length_drop]
    omega
  rw [← drop_of_leads leads] at below
  exact below.trans (List.drop_suffix _ _)

/-- What no instruction of a run reaches down to lies there at its end as it did at its start. -/
theorem suffix_of_run {n : Nat} (going : machine.run n frame world = (.running last, later))
    (lies : base <:+ frame.stack)
    (spared : ∀ m between after i, m < n → machine.run m frame world = (.running between, after) →
      machine.program.instructions[between.place]? = some i →
      base.length + i.pops ≤ between.stack.length) : base <:+ last.stack := by
  induction n generalizing frame world with
  | zero =>
    cases going
    exact lies
  | succ n ih =>
    rcases run_succ_cases machine n frame world with
      ⟨first, after, stepped, run⟩ | ⟨status, after, stepped, still, run⟩
    · have here := suffix_of_step stepped lies fun i found =>
        spared 0 frame world i (Nat.succ_pos n) rfl found
      refine ih (run ▸ going) here fun m between after i less reached found => ?_
      exact spared (m + 1) between after i (by omega)
        ((run_succ_of_running m stepped).trans reached) found
    · rw [run] at going
      cases going
      exact absurd rfl (still last)

/--
Whatever the state of the machine and the world, a step by an instruction keeps to the arity of the
instruction. If it succeeds, the slots it takes were there, as many are left in their place as the
table says, and those below are the same. If they are not there, it fails. If they are, it may fail,
but not for want of a slot.
-/
theorem step_arity (machine : Machine) (frame : Frame) (world : World) (i : Instruction)
    (found : machine.program.instructions[frame.place]? = some i) :
    (∀ next later, machine.step frame world = (.running next, later) →
      i.pops ≤ frame.stack.length ∧
      next.stack.length = frame.stack.length - i.pops + i.pushes ∧
      next.stack.drop i.pushes = frame.stack.drop i.pops) ∧
    (frame.stack.length < i.pops →
      ∃ cause later, machine.step frame world = (.failed (.atPlace frame.place cause), later)) ∧
    (i.pops ≤ frame.stack.length → ∀ place opcode later,
      machine.step frame world ≠ (.failed (.atPlace place (.stackUnderflow opcode)), later)) := by
  refine ⟨?_, ?_, ?_⟩
  · intro next later stepped
    obtain ⟨j, found', leads⟩ := leads_of_step stepped
    obtain rfl := Option.some.inj (found.symm.trans found')
    exact ⟨leads.enough, length_of_leads leads, drop_of_leads leads⟩
  · intro short
    have steps := machine.step_steps frame world
    cases stepped : machine.step frame world with
    | mk status later =>
      rw [stepped] at steps
      cases steps with
      | running j found' leads =>
        obtain rfl := Option.some.inj (found.symm.trans found')
        exact absurd leads.enough (Nat.not_le_of_lt short)
      | finished left =>
        rw [found] at left
        cases left
      | @failed cause ends => exact ⟨cause, later, rfl⟩
  · intro enough place opcode later stepped
    obtain ⟨cause, same, ends⟩ := ends_of_step stepped
    cases same
    cases ends with
    | instruction j found' explained =>
      obtain rfl := Option.some.inj (found.symm.trans found')
      cases explained with
      | underflow short => exact absurd enough (Nat.not_le_of_lt short)

/-- Two values are printed off a handle, and then there is but one to print. -/
theorem step_arity_print :
    let machine : Machine := ⟨.ofList [.print 2], .empty⟩
    let world : Sandbox DirectoryTree := ⟨[], .unlimited, .scratch⟩
    let frame : Frame := ⟨0, [.value (.int 1), .value (.string "a"), .file "log"], .empty⟩
    let bare : Frame := ⟨0, [.value (.int 1)], .empty⟩
    machine.program.instructions[frame.place]? = some (.print 2) ∧
      (∃ next later, machine.step frame world = (.running next, later) ∧
        next.stack.length = 1 ∧ next.stack.drop 0 = [.file "log"]) ∧
      (∃ cause later, machine.step bare world = (.failed (.atPlace 0 cause), later)) ∧
      ∀ opcode later,
        machine.step frame world ≠ (.failed (.atPlace 0 (.stackUnderflow opcode)), later) := by
  intro machine world frame bare
  obtain ⟨succeeds, _, never⟩ := step_arity machine frame world (.print 2) rfl
  obtain ⟨_, fails, _⟩ := step_arity machine bare world (.print 2) rfl
  obtain ⟨next, later, stepped⟩ : ∃ next later, machine.step frame world = (.running next, later) :=
    ⟨_, _, rfl⟩
  obtain ⟨_, length, below⟩ := succeeds next later stepped
  exact ⟨rfl, ⟨next, later, stepped, length, below⟩, fails (by decide),
    never (by decide) 0⟩

end Machine

end StackLang
