import StackLang.Proofs.ControlFlow
import StackLang.Proofs.Runs

/-!
# Labels are settled before the first step

What can be wrong with the labels of a program is said without a table: some
instruction is the first to define a label again, or labels are defined once and
some jump is the first without a definition. The verifier and a run both end with
just that complaint, and the run has then done nothing to the world. Where there
is nothing to complain of, no step ever looks for a label in vain, and control
stays within the program or right behind it.
-/
namespace StackLang

namespace Program

variable {program : Program} {labels : LabelTable}

/-- Only one place can be the first at which a label is defined again. -/
theorem Redefines.unique {label other : Label} {first second place later : Nat}
    (redefines : program.Redefines label first second)
    (again : program.Redefines other place later) :
    label = other ∧ first = place ∧ second = later := by
  have same : second = later := by
    by_cases less : second < later
    · exact absurd redefines.again
        (again.earliest label first second redefines.before less redefines.defines)
    · by_cases more : later < second
      · exact absurd again.again
          (redefines.earliest other place later again.before more again.defines)
      · omega
  subst same
  have named := redefines.again.symm.trans again.again
  cases named
  refine ⟨rfl, ?_, rfl⟩
  -- Of two definitions ahead of the place the later one would have been complained of.
  by_cases less : first < place
  · exact absurd again.defines
      (redefines.earliest label first place less again.before redefines.defines)
  · by_cases more : place < first
    · exact absurd redefines.defines
        (redefines.earliest label place first more redefines.before again.defines)
    · omega

theorem Dangles.unique {label other : Label} {place later : Nat}
    (dangles : program.Dangles place label) (again : program.Dangles later other) :
    place = later ∧ label = other := by
  obtain ⟨i, found, jumps⟩ := dangles.jumps
  obtain ⟨j, there, targets⟩ := again.jumps
  have same : place = later := by
    by_cases less : place < later
    · obtain ⟨defined, defines⟩ := again.earliest place i label less found jumps
      exact absurd defines (dangles.missing defined)
    · by_cases more : later < place
      · obtain ⟨defined, defines⟩ := dangles.earliest later j other more there targets
        exact absurd defines (again.missing defined)
      · omega
  subst same
  obtain rfl := Option.some.inj (found.symm.trans there)
  exact ⟨rfl, Option.some.inj (jumps.symm.trans targets)⟩

theorem Redefines.not_once {label : Label} {first second : Nat}
    (redefines : program.Redefines label first second)
    (once : ∀ (other : Label) (first second : Nat),
      program.instructions[first]? = some (.label other) →
      program.instructions[second]? = some (.label other) → first = second) : False := by
  have same := once label first second redefines.defines redefines.again
  have before := redefines.before
  omega

/-- Resolving complains of the first instruction that defines a label again. -/
theorem resolve_eq_duplicate {label : Label} {first second : Nat} :
    program.resolve = .error (.duplicate label first second) ↔
      program.Redefines label first second := by
  constructor
  · intro failed
    rcases resolve_eq_error failed with ⟨_, _, _, same, redefines⟩ | ⟨_, _, same, _⟩
    · cases same
      exact redefines
    · cases same
  · intro redefines
    cases resolved : program.resolve with
    | ok labels => exact (redefines.not_once (labelled_of_resolve resolved).once).elim
    | error error =>
      rcases resolve_eq_error resolved with ⟨other, place, later, rfl, again⟩ | ⟨_, _, _, dangles⟩
      · obtain ⟨rfl, rfl, rfl⟩ := redefines.unique again
        rfl
      · exact (redefines.not_once dangles.once).elim

/-- Resolving complains of the first jump that dangles, if no label is defined again. -/
theorem resolve_eq_undefined {place : Nat} {label : Label} :
    program.resolve = .error (.undefined place label) ↔ program.Dangles place label := by
  constructor
  · intro failed
    rcases resolve_eq_error failed with ⟨_, _, _, same, _⟩ | ⟨_, _, same, dangles⟩
    · cases same
    · cases same
      exact dangles
  · intro dangles
    cases resolved : program.resolve with
    | ok labels =>
      obtain ⟨i, found, jumps⟩ := dangles.jumps
      obtain ⟨defined, defines⟩ := (labelled_of_resolve resolved).defined place i label found jumps
      exact absurd defines (dangles.missing defined)
    | error error =>
      rcases resolve_eq_error resolved with ⟨_, _, _, _, redefines⟩ | ⟨later, other, rfl, again⟩
      · exact (redefines.not_once dangles.once).elim
      · obtain ⟨rfl, rfl⟩ := dangles.unique again
        rfl

/-- The verifier complains of a label only when resolving does; a walk never does. -/
theorem verify_eq_label {error : LabelError} :
    program.verify = .error (.label error) ↔ program.resolve = .error error := by
  rw [verify]
  constructor
  · intro failed
    split at failed
    next resolved =>
      cases failed
      exact resolved
    next labels resolved =>
      have genuine := Walk.genuine_start program
      have confirmed := (Walk.genuine_finish resolved genuine).2 _ failed
      have labelled := labelled_of_resolve resolved
      cases error with
      | duplicate label first second =>
        obtain ⟨before, here, there⟩ := confirmed
        have same := labelled.once label first second here there
        omega
      | undefined place label =>
        obtain ⟨⟨i, found, jumps⟩, missing⟩ := confirmed
        obtain ⟨defined, defines⟩ := labelled.defined place i label found jumps
        exact absurd defines (missing defined)
  · intro failed
    rw [failed]

/-- No instruction of a program that resolves looks for its label in vain. -/
theorem not_explains_undefinedLabel (resolved : program.resolve = .ok labels) {place : Nat}
    {i : Instruction} (found : program.instructions[place]? = some i) {frame : Frame}
    {label : Label} : ¬ i.Explains labels frame (.undefinedLabel label) := by
  intro explained
  cases explained with
  | dangling _ jumps missing =>
    obtain ⟨entry, goesTo⟩ := entry?_isSome resolved found jumps
    rw [missing] at goesTo
    cases goesTo

theorem not_ends_undefinedLabel (resolved : program.resolve = .ok labels) {frame : Frame}
    {label : Label} : ¬ Machine.Ends ⟨program, labels⟩ frame (.undefinedLabel label) := by
  intro ends
  cases ends with
  | instruction i found explained => exact not_explains_undefinedLabel resolved found explained

/-- A step leads no further than right behind the program. -/
theorem place_le_size_of_leads (resolved : program.resolve = .ok labels) {frame next : Frame}
    {i : Instruction} (found : program.instructions[frame.place]? = some i)
    (leads : i.Leads labels frame next) : next.place ≤ program.instructions.size :=
  le_size_of_edge ((mem_successors_iff resolved found).mp leads.place)

section Running

variable {World : Type} [Host World] {world later : World}

theorem place_le_size_of_run (resolved : program.resolve = .ok labels) {n : Nat} {frame : Frame}
    (going : Machine.run ⟨program, labels⟩ n .start world = (.running frame, later)) :
    frame.place ≤ program.instructions.size := by
  refine Machine.run_invariant (P := fun frame => frame.place ≤ program.instructions.size) ?_
    (Nat.zero_le _) going
  intro frame next world later _ stepped
  obtain ⟨i, found, leads⟩ := Machine.leads_of_step stepped
  exact place_le_size_of_leads resolved found leads

/-- A run fails over a label exactly if the program is refused for it, before it does anything. -/
theorem fails_ofLabelError_iff (error : LabelError) :
    program.Fails world (.ofLabelError error) later ↔
      program.resolve = .error error ∧ later = world := by
  have injective {other : LabelError} (same : Fault.ofLabelError other = .ofLabelError error) :
      other = error := by
    cases other <;> cases error <;> cases same <;> rfl
  cases resolved : program.resolve with
  | error other =>
    have loaded : Machine.load program = .error (.ofLabelError other) := by
      rw [Machine.load, resolved]
    constructor
    · rintro (⟨refused, untouched⟩ | ⟨machine, _, accepted, _⟩)
      · rw [loaded] at refused
        rw [injective (Except.error.inj refused)]
        exact ⟨rfl, untouched⟩
      · rw [loaded] at accepted
        cases accepted
    · rintro ⟨same, untouched⟩
      cases same
      exact .inl ⟨loaded, untouched⟩
  | ok labels =>
    constructor
    · intro failed
      obtain ⟨frame, between, cause, _, same, ends⟩ := ends_of_fails resolved failed
      cases error with
      | duplicate label first second => cases same
      | undefined place label =>
        cases same
        exact (not_ends_undefinedLabel resolved ends).elim
    · rintro ⟨same, _⟩
      cases same

end Running

/--
A run ends over the labels of a program just as the verifier does, and has done nothing to the
world then: at the first place that defines a label again, or else at the first jump whose label is
defined nowhere, whether control comes to it or not. Every other run begins; no step of it looks
for a label in vain, and control is within the program or right behind it.
-/
theorem label_faults_agree (program : Program) {World : Type} [Host World] (world : World) :
    (∀ label first second,
      (program.verify = .error (.label (.duplicate label first second)) ↔
        program.Redefines label first second) ∧
      ∀ later, program.Fails world (.duplicateLabel label first second) later ↔
        program.Redefines label first second ∧ later = world) ∧
    (∀ place label,
      (program.verify = .error (.label (.undefined place label)) ↔
        program.Dangles place label) ∧
      ∀ later, program.Fails world (.atPlace place (.undefinedLabel label)) later ↔
        program.Dangles place label ∧ later = world) ∧
    ((∃ machine, Machine.load program = .ok machine) ↔
      ∀ error, program.verify ≠ .error (.label error)) ∧
    ∀ machine, Machine.load program = .ok machine →
      (∀ (frame : Frame) (between : World) (place : Nat) (label : Label),
        (machine.step frame between).1 ≠ .failed (.atPlace place (.undefinedLabel label))) ∧
      ∀ n frame later, machine.run n .start world = (.running frame, later) →
        frame.place ≤ program.instructions.size := by
  refine ⟨fun label first second => ⟨?_, fun later => ?_⟩, fun place label => ⟨?_, fun later => ?_⟩,
    ?_, fun machine loaded => ?_⟩
  · rw [verify_eq_label, resolve_eq_duplicate]
  · rw [← resolve_eq_duplicate]
    exact fails_ofLabelError_iff (.duplicate label first second)
  · rw [verify_eq_label, resolve_eq_undefined]
  · rw [← resolve_eq_undefined]
    exact fails_ofLabelError_iff (.undefined place label)
  · simp only [ne_eq, verify_eq_label]
    cases resolved : program.resolve with
    | error error => simp [Machine.load, resolved]
    | ok labels => simp [load_of_resolve resolved]
  · cases resolved : program.resolve with
    | error error =>
      rw [Machine.load, resolved] at loaded
      cases loaded
    | ok labels =>
      cases (load_eq_ok_iff resolved machine).mp loaded
      refine ⟨fun frame between place label failed => ?_,
        fun n frame later going => place_le_size_of_run resolved going⟩
      obtain ⟨cause, same, ends⟩ := Machine.ends_of_step (Prod.ext failed rfl)
      cases same
      exact not_ends_undefinedLabel resolved ends

end Program

end StackLang
