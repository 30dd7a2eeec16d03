import StackLang.Proofs.DepthTable
import StackLang.Proofs.Resolution

/-!
# The ways through a program

Control flow told without a verifier: from an instruction control goes on to the
next one, behind the label it jumps to, or either. A way starts at the first
place with an empty stack, and the effects of its instructions add up. There are
infinitely many ways as soon as there is a loop, while the verifier visits every
place once. It is exact all the same: it passes a program exactly if no way
breaks the discipline, the depth it reports is the greatest one on any way, and
each of its complaints names numbers that some way has.
-/
namespace StackLang

/-- What an instruction adds to the depth of the stack, which may be less than nothing. -/
def Instruction.effect (i : Instruction) : Int :=
  i.pushes - i.pops

namespace Program

/-- Control may go from one place straight to another. -/
inductive Edge (program : Program) : Nat → Nat → Prop
  | onward {place : Nat} {i : Instruction} (found : program.instructions[place]? = some i)
    (falls : ∀ label, i ≠ .jump label) : Edge program place (place + 1)
  | jump {place defined : Nat} {i : Instruction} {label : Label}
    (found : program.instructions[place]? = some i) (targets : i.target? = some label)
    (defines : program.instructions[defined]? = some (.label label)) :
    Edge program place (defined + 1)

/-- Some way leads to a place, and the effects of the instructions on it add up to a depth. -/
inductive Arrives (program : Program) : Nat → Int → Prop
  | start : Arrives program 0 0
  | step {place next : Nat} {depth : Int} {i : Instruction} (arrives : Arrives program place depth)
    (found : program.instructions[place]? = some i) (edge : program.Edge place next) :
    Arrives program next (depth + i.effect)

/-- Every label has one definition, and every jump, reached or not, has a label to go to. -/
structure Labelled (program : Program) : Prop where
  once : ∀ (label : Label) (first second : Nat),
    program.instructions[first]? = some (.label label) →
    program.instructions[second]? = some (.label label) → first = second
  defined : ∀ (place : Nat) (i : Instruction) (label : Label),
    program.instructions[place]? = some i → i.target? = some label →
    ∃ defined : Nat, program.instructions[defined]? = some (.label label)

/-- No way through a program breaks the discipline of its stack. -/
structure Disciplined (program : Program) : Prop extends Labelled program where
  enough : ∀ (place : Nat) (depth : Int) (i : Instruction), program.Arrives place depth →
    program.instructions[place]? = some i → i.pops ≤ depth
  agree : ∀ (place : Nat) (first second : Int), place < program.instructions.size →
    program.Arrives place first → program.Arrives place second → first = second
  balanced : ∀ depth, program.Arrives program.instructions.size depth → depth = 0

/-- Some way has a depth right behind an instruction. -/
def Attains (program : Program) (deepest : Nat) : Prop :=
  ∃ (place : Nat) (depth : Int) (i : Instruction), program.Arrives place depth ∧
    program.instructions[place]? = some i ∧ depth + i.effect = deepest

/-- The greatest depth right behind an instruction on any way; zero if there is no instruction. -/
structure Peak (program : Program) (deepest : Nat) : Prop where
  bounded : ∀ (place : Nat) (depth : Int) (i : Instruction), program.Arrives place depth →
    program.instructions[place]? = some i → depth + i.effect ≤ deepest
  attained : (program.instructions.size = 0 ∧ deepest = 0) ∨ program.Attains deepest

/--
What a complaint of the verifier says is so. Depths are complained of only where labels are fine.
-/
def Confirms (program : Program) : VerifyError → Prop
  | .label (.duplicate label first second) =>
    first < second ∧ program.instructions[first]? = some (.label label) ∧
      program.instructions[second]? = some (.label label)
  | .label (.undefined place label) =>
    (∃ i, program.instructions[place]? = some i ∧ i.target? = some label) ∧
      ∀ other : Nat, program.instructions[other]? ≠ some (Instruction.label label)
  | .stackUnderflow place needed depth =>
    program.Labelled ∧ (∃ i, program.instructions[place]? = some i ∧ i.pops = needed) ∧
      depth < needed ∧ program.Arrives place depth
  | .depthMismatch place first second =>
    program.Labelled ∧ place < program.instructions.size ∧ first ≠ second ∧
      program.Arrives place first ∧ program.Arrives place second
  | .unbalancedExit depth =>
    program.Labelled ∧ depth ≠ 0 ∧ program.Arrives program.instructions.size depth

variable {program : Program} {labels : LabelTable}

theorem le_size_of_edge {place next : Nat} (edge : program.Edge place next) :
    next ≤ program.instructions.size := by
  cases edge with
  | onward found =>
    have := (Array.getElem?_eq_some_iff.mp found).1
    omega
  | jump _ _ defines =>
    have := (Array.getElem?_eq_some_iff.mp defines).1
    omega

theorem labelled_of_resolve (resolved : program.resolve = .ok labels) : program.Labelled := by
  constructor
  · intro label first second here there
    have one := entry?_of_getElem? resolved here
    have two := entry?_of_getElem? resolved there
    rw [one] at two
    have := Option.some.inj two
    omega
  · intro place i label found targets
    obtain ⟨entry, goesTo⟩ := entry?_isSome resolved found targets
    obtain ⟨defined, defines, _⟩ := label_of_entry? resolved goesTo
    exact ⟨defined, defines⟩

/-- The verifier looks for control where the edges of the program lead. -/
theorem mem_successors_iff (resolved : program.resolve = .ok labels) {place next : Nat}
    {i : Instruction} (found : program.instructions[place]? = some i) :
    next ∈ Walk.successors labels place i ↔ program.Edge place next := by
  have taken : ∀ label, i.target? = some label →
      (labels.entry? label = some next ↔
        ∃ defined : Nat,
          program.instructions[defined]? = some (.label label) ∧ next = defined + 1) := by
    intro label targets
    constructor
    · exact label_of_entry? resolved
    · rintro ⟨defined, defines, rfl⟩
      exact entry?_of_getElem? resolved defines
  constructor
  · intro leads
    have jumps : ∀ label, i.target? = some label → labels.entry? label = some next →
        program.Edge place next := by
      intro label targets goesTo
      obtain ⟨defined, defines, rfl⟩ := (taken label targets).mp goesTo
      exact .jump found targets defines
    cases i with
    | jump label => exact jumps label rfl (Option.mem_toList.mp leads)
    | jumpIfFalse label =>
      rcases List.mem_cons.mp leads with rfl | goesTo
      · exact .onward found (by simp)
      · exact jumps label rfl (Option.mem_toList.mp goesTo)
    | _ =>
      obtain rfl := List.mem_singleton.mp leads
      exact .onward found (by simp)
  · intro edge
    cases edge with
    | onward again falls =>
      obtain rfl := Option.some.inj (found.symm.trans again)
      cases i with
      | jump label => exact absurd rfl (falls label)
      | _ => exact List.mem_cons_self
    | @jump defined _ label again targets defines =>
      obtain rfl := Option.some.inj (found.symm.trans again)
      have goesTo := (taken label targets).mpr ⟨defined, defines, rfl⟩
      cases i with
      | jump _ =>
        cases targets
        exact Option.mem_toList.mpr goesTo
      | jumpIfFalse _ =>
        cases targets
        exact List.mem_cons_of_mem _ (Option.mem_toList.mpr goesTo)
      | _ => cases targets

end Program

theorem Instruction.after_eq {i : Instruction} {depth : Nat} (enough : i.pops ≤ depth) :
    (i.after depth : Int) = depth + i.effect := by
  rw [Instruction.after, Instruction.effect]
  omega

variable {program : Program} {labels : LabelTable}

/-- All that a walk has recorded or still has to visit is on some way. -/
structure StackReport.Genuine (program : Program)
    (report : StackReport program.instructions.size) (waiting : List (Nat × Nat)) : Prop where
  recorded : ∀ place depth, ∀ inside : place < program.instructions.size,
    report.depths[place] = some depth → program.Arrives place depth
  waits : ∀ visit ∈ waiting,
    visit.1 ≤ program.instructions.size ∧ program.Arrives visit.1 visit.2
  attained : program.Attains report.deepest ∨ report.deepest = 0 ∧
    ∀ place, ∀ inside : place < program.instructions.size, report.depths[place] = none

namespace Walk

variable {known report : StackReport program.instructions.size} {place depth : Nat}
variable {waiting : List (Nat × Nat)} {later : Walk program.instructions.size}
variable {error : VerifyError}

/-- A visit fails for one of three reasons, each told by what is known of the place. -/
theorem visit_eq_error (failed : visit program labels known place depth waiting = .error error) :
    (∃ inside : place < program.instructions.size, ∃ first, known.depths[place] = some first ∧
      first ≠ depth ∧ error = .depthMismatch place first depth) ∨
    (∃ inside : place < program.instructions.size,
      depth < program.instructions[place].pops ∧
      error = .stackUnderflow place program.instructions[place].pops depth) ∨
    (program.instructions.size ≤ place ∧ depth ≠ 0 ∧ error = .unbalancedExit depth) := by
  rw [visit] at failed
  split at failed
  next inside =>
    split at failed
    next first found =>
      split at failed
      next => cases failed
      next differs =>
        cases failed
        exact .inl ⟨inside, first, found, differs, rfl⟩
    next =>
      dsimp only at failed
      split at failed
      next short =>
        cases failed
        exact .inr (.inl ⟨inside, short, rfl⟩)
      next => cases failed
  next outside =>
    split at failed
    next => cases failed
    next left =>
      cases failed
      exact .inr (.inr ⟨Nat.le_of_not_lt outside, left, rfl⟩)

theorem genuine_start (program : Program) :
    (start program.instructions.size).Genuine program [(0, 0)] := by
  have nothing : ∀ place, ∀ inside : place < program.instructions.size,
      (start program.instructions.size).depths[place] = none := by
    intro place inside
    simp [start]
  refine ⟨?_, ?_, .inr ⟨rfl, nothing⟩⟩
  · intro place depth inside recorded
    rw [nothing place inside] at recorded
    cases recorded
  · intro visit member
    cases List.mem_singleton.mp member
    exact ⟨Nat.zero_le _, .start⟩

/-- Of two depths that some way attains the greater one is attained. -/
theorem attains_max {first second : Nat} (one : program.Attains first)
    (two : program.Attains second) : program.Attains (max first second) := by
  by_cases order : first ≤ second
  · rwa [Nat.max_eq_right order]
  · rwa [Nat.max_eq_left (by omega)]

theorem genuine_visit (resolved : program.resolve = .ok labels)
    (genuine : known.Genuine program ((place, depth) :: waiting))
    (visited : visit program labels known place depth waiting = .ok later) :
    later.Genuine program later.waiting := by
  obtain ⟨⟨_, arrives⟩, others⟩ := List.forall_mem_cons.mp genuine.waits
  rcases visit_eq_ok visited with ⟨_, rfl⟩ | ⟨inside, _, enough, rfl⟩
  · exact ⟨genuine.recorded, others, genuine.attained⟩
  · have found := Array.getElem?_eq_getElem inside
    have behind := Instruction.after_eq enough
    have here : program.Attains (program.instructions[place].after depth) :=
      ⟨place, depth, _, arrives, found, behind.symm⟩
    refine ⟨?_, ?_, .inl ?_⟩
    · intro other held within recorded
      rcases recorded_record recorded with ⟨rfl, rfl⟩ | before
      · exact arrives
      · exact genuine.recorded other held within before
    · intro visit member
      rcases List.mem_append.mp member with new | old
      · obtain ⟨next, leads, rfl⟩ := List.mem_map.mp new
        have edge := (Program.mem_successors_iff resolved found).mp leads
        refine ⟨Program.le_size_of_edge edge, ?_⟩
        rw [behind]
        exact .step arrives found edge
      · exact others visit old
    · rcases genuine.attained with before | ⟨least, _⟩
      · exact attains_max before here
      · have greatest : max known.deepest (program.instructions[place].after depth) =
            program.instructions[place].after depth := by omega
        rw [record, greatest]
        exact here

theorem confirms_of_visit (resolved : program.resolve = .ok labels)
    (genuine : known.Genuine program ((place, depth) :: waiting))
    (failed : visit program labels known place depth waiting = .error error) :
    program.Confirms error := by
  have labelled := Program.labelled_of_resolve resolved
  obtain ⟨within, arrives⟩ := genuine.waits _ List.mem_cons_self
  rcases visit_eq_error failed with
    ⟨inside, first, found, differs, rfl⟩ | ⟨inside, short, rfl⟩ | ⟨outside, left, rfl⟩
  · exact ⟨labelled, inside, differs, genuine.recorded place first inside found, arrives⟩
  · exact ⟨labelled, ⟨_, Array.getElem?_eq_getElem inside, rfl⟩, short, arrives⟩
  · have last : place = program.instructions.size := Nat.le_antisymm within outside
    exact ⟨labelled, left, last ▸ arrives⟩

/-- A walk that starts from what is genuine ends in a genuine table or a genuine complaint. -/
theorem genuine_finish (resolved : program.resolve = .ok labels)
    {walk : Walk program.instructions.size} (genuine : walk.Genuine program walk.waiting) :
    (∀ report, finish program labels walk = .ok report → report.Genuine program []) ∧
      ∀ error, finish program labels walk = .error error → program.Confirms error := by
  fun_induction finish program labels walk with
  | case1 known =>
    constructor
    · intro report finished
      cases finished
      exact genuine
    · intro error failed
      cases failed
  | case2 known place depth waiting error visited =>
    constructor
    · intro report finished
      cases finished
    · intro error failed
      cases failed
      exact confirms_of_visit resolved genuine visited
  | case3 known place depth waiting later visited _ ih =>
    exact ih (genuine_visit resolved genuine visited)

end Walk

section Passed

variable {report : StackReport program.instructions.size}

/-- Whatever way control takes, a settled table admits it where it arrives. -/
theorem admits_of_arrives (resolved : program.resolve = .ok labels)
    (settled : report.Settled program labels []) {place : Nat} {depth : Int}
    (arrives : program.Arrives place depth) :
    ∃ held : Nat, depth = held ∧ report.Admits place held := by
  induction arrives with
  | start =>
    rcases settled.entry with admitted | waits
    · exact ⟨0, rfl, admitted⟩
    · cases waits
  | @step place next depth i arrives found edge ih =>
    obtain ⟨held, rfl, admitted⟩ := ih
    obtain ⟨inside, rfl⟩ := Array.getElem?_eq_some_iff.mp found
    have recorded := Walk.recorded_of_admits admitted inside
    have enough := settled.enough place held inside recorded
    have leads := (Program.mem_successors_iff resolved found).mpr edge
    refine ⟨program.instructions[place].after held, (Instruction.after_eq enough).symm, ?_⟩
    rcases settled.follows place held inside recorded next leads with admitted | waits
    · exact admitted
    · cases waits

/-- A settled table has the depth of every way that comes to an instruction. -/
theorem recorded_of_arrives (resolved : program.resolve = .ok labels)
    (settled : report.Settled program labels []) {place : Nat} {depth : Int}
    (arrives : program.Arrives place depth) (inside : place < program.instructions.size) :
    ∃ held : Nat, depth = held ∧ report.depths[place] = some held := by
  obtain ⟨held, same, admitted⟩ := admits_of_arrives resolved settled arrives
  exact ⟨held, same, Walk.recorded_of_admits admitted inside⟩

theorem disciplined_of_settled (resolved : program.resolve = .ok labels)
    (settled : report.Settled program labels []) : program.Disciplined := by
  refine { Program.labelled_of_resolve resolved with enough := ?_, agree := ?_, balanced := ?_ }
  · intro place depth i arrives found
    obtain ⟨inside, rfl⟩ := Array.getElem?_eq_some_iff.mp found
    obtain ⟨held, rfl, recorded⟩ := recorded_of_arrives resolved settled arrives inside
    exact Int.ofNat_le.mpr (settled.enough place held inside recorded)
  · intro place first second inside one two
    obtain ⟨held, rfl, recorded⟩ := recorded_of_arrives resolved settled one inside
    obtain ⟨again, rfl, same⟩ := recorded_of_arrives resolved settled two inside
    rw [recorded] at same
    rw [Option.some.inj same]
  · intro depth arrives
    obtain ⟨held, rfl, admitted⟩ := admits_of_arrives resolved settled arrives
    rw [StackReport.Admits, dif_neg (Nat.lt_irrefl _)] at admitted
    rw [admitted]
    rfl

theorem peak_of_settled (resolved : program.resolve = .ok labels)
    (settled : report.Settled program labels []) (genuine : report.Genuine program []) :
    program.Peak report.deepest := by
  constructor
  · intro place depth i arrives found
    obtain ⟨inside, rfl⟩ := Array.getElem?_eq_some_iff.mp found
    obtain ⟨held, rfl, recorded⟩ := recorded_of_arrives resolved settled arrives inside
    rw [← Instruction.after_eq (settled.enough place held inside recorded)]
    exact Int.ofNat_le.mpr (settled.bounded place held inside recorded)
  · rcases genuine.attained with attained | ⟨least, nothing⟩
    · exact .inr attained
    · refine .inl ⟨?_, least⟩
      by_cases empty : program.instructions.size = 0
      · exact empty
      · obtain ⟨held, _, recorded⟩ :=
          recorded_of_arrives resolved settled .start (Nat.pos_of_ne_zero empty)
        rw [nothing] at recorded
        cases recorded

end Passed

/-- A confirmed complaint is about a program that breaks the discipline. -/
theorem Program.not_disciplined_of_confirms {error : VerifyError}
    (confirmed : program.Confirms error) : ¬ program.Disciplined := by
  intro disciplined
  cases error with
  | label error =>
    cases error with
    | duplicate label first second =>
      obtain ⟨before, here, there⟩ := confirmed
      have same := disciplined.once label first second here there
      omega
    | undefined place label =>
      obtain ⟨⟨i, found, targets⟩, missing⟩ := confirmed
      obtain ⟨defined, defines⟩ := disciplined.defined place i label found targets
      exact missing defined defines
  | stackUnderflow place needed depth =>
    obtain ⟨_, ⟨i, found, rfl⟩, short, arrives⟩ := confirmed
    have enough := disciplined.enough place depth i arrives found
    omega
  | depthMismatch place first second =>
    obtain ⟨_, inside, differs, one, two⟩ := confirmed
    have same := disciplined.agree place first second inside one two
    omega
  | unbalancedExit depth =>
    obtain ⟨_, left, arrives⟩ := confirmed
    have empty := disciplined.balanced depth arrives
    omega

/-- A complaint about labels names a second definition, or a jump without one. -/
theorem Program.confirms_of_resolve {error : LabelError}
    (failed : program.resolve = .error error) : program.Confirms (.label error) := by
  rcases resolve_eq_error failed with
    ⟨label, first, second, rfl, redefines⟩ | ⟨place, label, rfl, dangles⟩
  · exact ⟨redefines.before, redefines.defines, redefines.again⟩
  · exact ⟨dangles.jumps, dangles.missing⟩

/--
The verifier passes a program exactly if no way through it breaks the discipline. The depth it
reports then is the greatest one on any way, and some way attains it. If it does not pass a program,
what it complains of is so.
-/
theorem Program.verify_exact (program : Program) :
    ((∃ report, program.verify = .ok report) ↔ program.Disciplined) ∧
      (∀ report, program.verify = .ok report → program.Peak report.deepest) ∧
      ∀ error, program.verify = .error error → program.Confirms error := by
  have confirms : ∀ error, program.verify = .error error → program.Confirms error := by
    intro error failed
    rw [verify] at failed
    split at failed
    next problem unresolved =>
      cases failed
      exact confirms_of_resolve unresolved
    next labels resolved =>
      exact (Walk.genuine_finish resolved (Walk.genuine_start program)).2 error failed
  refine ⟨⟨?_, ?_⟩, ?_, confirms⟩
  · rintro ⟨report, verified⟩
    obtain ⟨labels, resolved, settled⟩ := settled_of_verify verified
    exact disciplined_of_settled resolved settled
  · intro disciplined
    cases verified : program.verify with
    | ok report => exact ⟨report, rfl⟩
    | error error =>
      exact absurd disciplined (not_disciplined_of_confirms (confirms error verified))
  · intro report verified
    obtain ⟨labels, resolved, settled⟩ := settled_of_verify verified
    have finished : Walk.finish program labels (.start _) = .ok report := by
      rw [verify, resolved] at verified
      exact verified
    have genuine := (Walk.genuine_finish resolved (Walk.genuine_start program)).1 report finished
    exact peak_of_settled resolved settled genuine

end StackLang
