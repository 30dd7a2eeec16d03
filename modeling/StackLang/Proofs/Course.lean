import StackLang.Proofs.Evaluation
import StackLang.Proofs.Runs

/-!
# The course of a run

How a run reproduces an evaluation: it arrives where the result is at hand, or it
fails at some place for the same cause, or it is still going on after as many
steps as the evaluation had rounds. Stores are good in every frame of the run up
to there. Reproductions follow each other as evaluations do.
-/
namespace StackLang

namespace Outcome

variable {World α β : Type}

theorem ofResult_bind (world : World) (first : Except Cause α) (next : α → Except Cause β) :
    ofResult world (first >>= next) =
      (ofResult world first).andThen fun result world => ofResult world (next result) := by
  cases first <;> rfl

theorem ofResult_eq_done {world later : World} {attempt : Except Cause α} {result : α}
    (done : ofResult world attempt = .done result later) :
    attempt = .ok result ∧ later = world := by
  cases attempt with
  | error cause => cases done
  | ok found =>
    cases done
    exact ⟨rfl, rfl⟩

theorem andThen_eq_done {outcome : Outcome World α} {next : α → World → Outcome World β}
    {result : β} {later : World} (done : outcome.andThen next = .done result later) :
    ∃ first between, outcome = .done first between ∧ next first between = .done result later := by
  cases outcome with
  | done first between => exact ⟨first, between, rfl, done⟩
  | failed cause world => cases done
  | exhausted => cases done

theorem andThen_assoc {γ : Type} (outcome : Outcome World α) (first : α → World → Outcome World β)
    (second : β → World → Outcome World γ) :
    (outcome.andThen first).andThen second =
      outcome.andThen fun result world => (first result world).andThen second := by
  cases outcome <;> rfl

theorem andThen_done (outcome : Outcome World α) : outcome.andThen .done = outcome := by
  cases outcome <;> rfl

end Outcome

namespace Machine

variable {World : Type} [Host World] {machine : Machine} {good : Store → Prop}
variable {allowed : Cause → Prop} {frame middle last : Frame} {world between later : World}

/-- A run of some number of steps with a good store in each of its frames. -/
inductive Travels (machine : Machine) (good : Store → Prop) :
    Nat → Frame → World → Frame → World → Prop
  | stay {frame : Frame} {world : World} (keeps : good frame.store) :
    Travels machine good 0 frame world frame world
  | step {n : Nat} {frame next last : Frame} {world between later : World}
    (keeps : good frame.store) (stepped : machine.step frame world = (.running next, between))
    (rest : Travels machine good n next between last later) :
    Travels machine good (n + 1) frame world last later

namespace Travels

variable {m n : Nat}

theorem good_last (travels : machine.Travels good n frame world last later) : good last.store := by
  induction travels with
  | stay keeps => exact keeps
  | step _ _ _ ih => exact ih

theorem trans (travels : machine.Travels good m frame world middle between)
    (more : machine.Travels good n middle between last later) :
    machine.Travels good (m + n) frame world last later := by
  induction travels with
  | stay =>
    rw [Nat.zero_add]
    exact more
  | step keeps stepped _ ih =>
    rw [Nat.succ_add]
    exact .step keeps stepped (ih more)

theorem run (travels : machine.Travels good n frame world last later) :
    machine.run n frame world = (.running last, later) := by
  induction travels with
  | stay => rfl
  | step _ stepped _ ih =>
    rw [run_succ_of_running _ stepped]
    exact ih

/-- Every frame that a run comes to on the way is good. -/
theorem good_of_run (travels : machine.Travels good n frame world last later) (within : m ≤ n)
    (going : machine.run m frame world = (.running middle, between)) : good middle.store := by
  induction travels generalizing m with
  | stay keeps =>
    obtain rfl : m = 0 := by omega
    cases going
    exact keeps
  | step keeps stepped _ ih =>
    cases m with
    | zero =>
      cases going
      exact keeps
    | succ m =>
      rw [run_succ_of_running _ stepped] at going
      exact ih (by omega) going

end Travels

/-- The machine comes to what an evaluation comes to. -/
inductive Reproduces (machine : Machine) (good : Store → Prop) (allowed : Cause → Prop)
    (bound : Nat) (frame : Frame) (world : World) {α : Type} (arrival : α → Frame) :
    Outcome World α → Prop
  | done {result : α} {later : World} {n : Nat}
    (travels : machine.Travels good n frame world (arrival result) later) :
    Reproduces machine good allowed bound frame world arrival (.done result later)
  | failed {cause : Cause} {n : Nat} {last : Frame} {between later : World}
    (travels : machine.Travels good n frame world last between)
    (stepped : machine.step last between = (.failed (.atPlace last.place cause), later))
    (permitted : allowed cause) :
    Reproduces machine good allowed bound frame world arrival (.failed cause later)
  | exhausted {n : Nat} {last : Frame} {later : World} (long : bound ≤ n)
    (travels : machine.Travels good n frame world last later) :
    Reproduces machine good allowed bound frame world arrival .exhausted

section Reproduces

variable {α β : Type} {arrival : α → Frame} {bound : Nat} {outcome : Outcome World α}

/-- A result that is at hand. -/
theorem Reproduces.arrived {result : α} (keeps : good frame.store)
    (same : frame = arrival result) :
    machine.Reproduces good allowed bound frame world arrival (.done result world) := by
  subst same
  exact .done (.stay keeps)

/-- Steps before a reproduction belong to it, and count. -/
theorem Reproduces.after {m n : Nat}
    (travels : machine.Travels good n frame world middle between)
    (reproduces : machine.Reproduces good allowed m middle between arrival outcome)
    (enough : bound ≤ n + m) :
    machine.Reproduces good allowed bound frame world arrival outcome := by
  cases reproduces with
  | done more => exact .done (travels.trans more)
  | failed more stepped permitted => exact .failed (travels.trans more) stepped permitted
  | exhausted long more => exact .exhausted (by omega) (travels.trans more)

theorem Reproduces.weaken {fewer : Nat}
    (reproduces : machine.Reproduces good allowed bound frame world arrival outcome)
    (within : fewer ≤ bound) :
    machine.Reproduces good allowed fewer frame world arrival outcome := by
  cases reproduces with
  | done travels => exact .done travels
  | failed travels stepped permitted => exact .failed travels stepped permitted
  | exhausted long travels => exact .exhausted (Nat.le_trans within long) travels

theorem Reproduces.andThen {next : α → World → Outcome World β} {goal : β → Frame}
    (reproduces : machine.Reproduces good allowed bound frame world arrival outcome)
    (rest : ∀ result later, outcome = .done result later → good (arrival result).store →
      machine.Reproduces good allowed bound (arrival result) later goal (next result later)) :
    machine.Reproduces good allowed bound frame world goal (outcome.andThen next) := by
  cases reproduces with
  | @done result later n travels =>
    exact .after travels (rest result later rfl travels.good_last) (Nat.le_add_left bound n)
  | failed travels stepped permitted => exact .failed travels stepped permitted
  | exhausted long travels => exact .exhausted long travels

/-- The reproduction of a first result, carried on by that of a second one. -/
theorem Reproduces.bind {attempt : Except Cause α} {next : α → Except Cause β} {goal : β → Frame}
    (reproduces : machine.Reproduces good allowed bound frame world arrival
      (.ofResult world attempt))
    (rest : ∀ result, attempt = .ok result → good (arrival result).store →
      machine.Reproduces good allowed bound (arrival result) world goal
        (.ofResult world (next result))) :
    machine.Reproduces good allowed bound frame world goal
      (.ofResult world (attempt >>= next)) := by
  rw [Outcome.ofResult_bind]
  apply reproduces.andThen
  intro result later done keeps
  obtain ⟨computed, rfl⟩ := Outcome.ofResult_eq_done done
  exact rest result computed keeps

/-- A reproduction whose run goes on a little from where it arrives. -/
theorem Reproduces.onward {goal : α → Frame}
    (reproduces : machine.Reproduces good allowed bound frame world arrival outcome)
    (rest : ∀ result later, outcome = .done result later → good (arrival result).store →
      ∃ n, machine.Travels good n (arrival result) later (goal result) later) :
    machine.Reproduces good allowed bound frame world goal outcome := by
  have whole : machine.Reproduces good allowed bound frame world goal
      (outcome.andThen fun result later => .done result later) := by
    apply reproduces.andThen
    intro result later done keeps
    obtain ⟨n, more⟩ := rest result later done keeps
    exact .done more
  rwa [Outcome.andThen_done] at whole

theorem Reproduces.thenTravels {attempt : Except Cause α} {goal : α → Frame}
    (reproduces : machine.Reproduces good allowed bound frame world arrival
      (.ofResult world attempt))
    (rest : ∀ result, attempt = .ok result → good (arrival result).store →
      ∃ n, machine.Travels good n (arrival result) world (goal result) world) :
    machine.Reproduces good allowed bound frame world goal (.ofResult world attempt) := by
  apply reproduces.onward
  intro result later done keeps
  obtain ⟨computed, rfl⟩ := Outcome.ofResult_eq_done done
  exact rest result computed keeps

end Reproduces

section Instructions

variable {i : Instruction} {next : Frame}

/-- An instruction that does not fail takes one step. -/
theorem travels_of_proceed (world : World)
    (found : machine.program.instructions[frame.place]? = some i)
    (acts : i.act machine.labels frame = .ok (.proceed next)) (keeps : good frame.store)
    (after : good next.store) : machine.Travels good 1 frame world next world := by
  have once : i.act machine.labels frame = atOnce (.ok next) := acts
  exact .step keeps (step_of_atOnce world found once) (.stay after)

/-- An instruction that needs no host reproduces the result it computes. -/
theorem reproduces_of_atOnce {α : Type} {arrival : α → Frame} {result : Except Cause α}
    (bound : Nat) (world : World) (found : machine.program.instructions[frame.place]? = some i)
    (acts : i.act machine.labels frame = atOnce (arrival <$> result)) (keeps : good frame.store)
    (after : ∀ computed, result = .ok computed → good (arrival computed).store)
    (permits : ∀ cause, result = .error cause → allowed cause) :
    machine.Reproduces good allowed bound frame world arrival (.ofResult world result) := by
  have stepped := step_of_atOnce world found acts
  cases result with
  | ok computed => exact .done (.step keeps stepped (.stay (after computed rfl)))
  | error cause => exact .failed (.stay keeps) stepped (permits cause rfl)

/-- An instruction that asks the host reproduces what comes of the reply. -/
theorem reproduces_of_ask {α : Type} {arrival : α → Frame} {request : Request}
    {resume : String → Except Cause Frame} (reading : String → Except Cause α) (bound : Nat)
    (world : World) (found : machine.program.instructions[frame.place]? = some i)
    (acts : i.act machine.labels frame = .ok (.ask request resume))
    (resumes : ∀ text, resume text = arrival <$> reading text) (keeps : good frame.store)
    (refusals : ∀ error, allowed (.system error))
    (after : ∀ text computed, reading text = .ok computed → good (arrival computed).store)
    (permits : ∀ text cause, reading text = .error cause → allowed cause) :
    machine.Reproduces good allowed bound frame world arrival
      ((Outcome.request request world).andThen fun text world =>
        .ofResult world (reading text)) := by
  have stepped := step_of_ask world found acts
  rw [Outcome.request]
  cases replied : Host.perform request world with
  | mk reply later =>
    rw [replied] at stepped
    cases reply with
    | error e => exact .failed (.stay keeps) stepped (refusals e)
    | ok text =>
      have resumed : Status.ofReply frame.place resume (.ok text) =
          Status.ofResult frame.place (resume text) := rfl
      rw [resumed, resumes text] at stepped
      dsimp only [Outcome.andThen]
      cases read : reading text with
      | ok computed =>
        rw [read] at stepped
        exact .done (.step keeps stepped (.stay (after text computed read)))
      | error cause =>
        rw [read] at stepped
        exact .failed (.stay keeps) stepped (permits text cause read)

/-- A request whose reply does not matter, and what follows it. -/
theorem reproduces_of_request {β : Type} {goal : β → Frame} {request : Request} {bound : Nat}
    {outcome : World → Outcome World β} (world : World)
    (found : machine.program.instructions[frame.place]? = some i)
    (acts : i.act machine.labels frame = .ok (.ask request fun _ => .ok next))
    (keeps : good frame.store) (after : good next.store)
    (refusals : ∀ error, allowed (.system error))
    (rest : ∀ later, machine.Reproduces good allowed bound next later goal (outcome later)) :
    machine.Reproduces good allowed bound frame world goal
      ((Outcome.request request world).andThen fun _ later => outcome later) := by
  have asked : machine.Reproduces good allowed bound frame world (fun _ => next)
      ((Outcome.request request world).andThen fun _ world => .ofResult world (.ok ())) :=
    reproduces_of_ask (fun _ => .ok ()) bound world found acts (fun _ => rfl) keeps refusals
      (fun _ _ _ => after) nofun
  have whole : machine.Reproduces good allowed bound frame world goal
      (((Outcome.request request world).andThen fun _ world => .ofResult world (.ok ())).andThen
        fun _ later => outcome later) :=
    asked.andThen fun _ later _ _ => rest later
  rwa [Outcome.andThen_assoc] at whole

end Instructions

end Machine

end StackLang
