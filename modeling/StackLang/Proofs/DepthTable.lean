import StackLang.Program.StackDepth

/-!
# The finished table of depths

A walk keeps one promise: every place it has recorded is in order by itself, and
what the place leads to is recorded or still waits. When nothing waits any more
the table is closed under control flow. Conversely, a program all of whose places
have one fitting depth cannot make the walk fail.
-/
namespace StackLang

/-- The depth behind an instruction. -/
def Instruction.after (i : Instruction) (depth : Nat) : Nat :=
  depth - i.pops + i.pushes

variable {program : Program} {labels : LabelTable}

/-- Control may arrive at a place with a depth: the recorded one, or none at the end. -/
def StackReport.Admits {size : Nat} (report : StackReport size) (place depth : Nat) : Prop :=
  if inside : place < size then report.depths[place] = some depth else depth = 0

/-- Control is admitted at a place or waits to be followed from there. -/
def StackReport.Expects {size : Nat} (report : StackReport size) (waiting : List (Nat × Nat))
    (place depth : Nat) : Prop :=
  report.Admits place depth ∨ (place, depth) ∈ waiting

/-- The promise of a walk about what it knows and the places that wait. -/
structure StackReport.Settled (program : Program) (labels : LabelTable)
    (report : StackReport program.instructions.size) (waiting : List (Nat × Nat)) : Prop where
  entry : report.Expects waiting 0 0
  enough : ∀ place depth, ∀ inside : place < program.instructions.size,
    report.depths[place] = some depth → program.instructions[place].pops ≤ depth
  bounded : ∀ place depth, ∀ inside : place < program.instructions.size,
    report.depths[place] = some depth → program.instructions[place].after depth ≤ report.deepest
  follows : ∀ place depth, ∀ inside : place < program.instructions.size,
    report.depths[place] = some depth →
      ∀ next ∈ Walk.successors labels place program.instructions[place],
        report.Expects waiting next (program.instructions[place].after depth)

namespace Walk

variable {known report : StackReport program.instructions.size} {place depth : Nat}
variable {waiting : List (Nat × Nat)} {later : Walk program.instructions.size}

theorem admits_of_inside {size : Nat} {report : StackReport size} {place depth : Nat}
    (inside : place < size) (recorded : report.depths[place] = some depth) :
    report.Admits place depth := by
  rw [StackReport.Admits, dif_pos inside]
  exact recorded

theorem recorded_of_admits {size : Nat} {report : StackReport size} {place depth : Nat}
    (admitted : report.Admits place depth) (inside : place < size) :
    report.depths[place] = some depth := by
  rwa [StackReport.Admits, dif_pos inside] at admitted

/-- What is known after a place is recorded. -/
def record (program : Program) (known : StackReport program.instructions.size) (place depth : Nat)
    (inside : place < program.instructions.size) : StackReport program.instructions.size :=
  ⟨known.depths.set place (some depth),
    max known.deepest (program.instructions[place].after depth)⟩

/-- A visit that goes well finds its place admitted, or records it and lets its successors wait. -/
theorem visit_eq_ok (visited : visit program labels known place depth waiting = .ok later) :
    (known.Admits place depth ∧ later = ⟨known, waiting⟩) ∨
    ∃ inside : place < program.instructions.size, known.depths[place] = none ∧
      program.instructions[place].pops ≤ depth ∧
      later = ⟨record program known place depth inside,
        (successors labels place program.instructions[place]).map
          (·, program.instructions[place].after depth) ++ waiting⟩ := by
  rw [visit] at visited
  split at visited
  next inside =>
    split at visited
    next first found =>
      split at visited
      next same =>
        cases visited
        exact .inl ⟨admits_of_inside inside (same ▸ found), rfl⟩
      next => cases visited
    next unrecorded =>
      dsimp only at visited
      split at visited
      next => cases visited
      next enough =>
        cases visited
        exact .inr ⟨inside, unrecorded, by omega, rfl⟩
  next outside =>
    split at visited
    next empty =>
      cases visited
      refine .inl ⟨?_, rfl⟩
      rw [StackReport.Admits, dif_neg outside]
      exact empty
    next => cases visited

/-- Recording a place at which nothing was known keeps all that was admitted. -/
theorem admits_record {inside : place < program.instructions.size}
    (unrecorded : known.depths[place] = none) {other held : Nat}
    (admitted : known.Admits other held) :
    (record program known place depth inside).Admits other held := by
  by_cases within : other < program.instructions.size
  · have recorded := recorded_of_admits admitted within
    have differs : place ≠ other := by
      rintro rfl
      rw [unrecorded] at recorded
      cases recorded
    apply admits_of_inside within
    simp only [record]
    rw [Vector.getElem_set_ne inside within differs]
    exact recorded
  · rw [StackReport.Admits, dif_neg within] at admitted ⊢
    exact admitted

theorem admits_record_self (inside : place < program.instructions.size) :
    (record program known place depth inside).Admits place depth := by
  apply admits_of_inside inside
  simp only [record]
  exact Vector.getElem_set_self inside

/-- A recorded place of the new table is the new one or was recorded before. -/
theorem recorded_record {inside : place < program.instructions.size} {other held : Nat}
    {within : other < program.instructions.size}
    (recorded : (record program known place depth inside).depths[other] = some held) :
    (other = place ∧ held = depth) ∨ known.depths[other] = some held := by
  simp only [record] at recorded
  by_cases same : place = other
  · subst same
    rw [Vector.getElem_set_self] at recorded
    exact .inl ⟨rfl, (Option.some.inj recorded).symm⟩
  · rw [Vector.getElem_set_ne inside within same] at recorded
    exact .inr recorded

theorem settled_start (program : Program) (labels : LabelTable) :
    (start program.instructions.size).Settled program labels [(0, 0)] := by
  have nothing : ∀ place depth, ∀ inside : place < program.instructions.size,
      (start program.instructions.size).depths[place] ≠ some depth := by
    intro place depth inside recorded
    simp [start] at recorded
  refine ⟨.inr (List.mem_singleton.mpr rfl), ?_, ?_, ?_⟩
  · intro place depth inside recorded
    exact absurd recorded (nothing place depth inside)
  · intro place depth inside recorded
    exact absurd recorded (nothing place depth inside)
  · intro place depth inside recorded
    exact absurd recorded (nothing place depth inside)

/-- A place that waited and is admitted need not wait any longer. -/
theorem expects_of_admits (admitted : known.Admits place depth) {other held : Nat}
    (expected : known.Expects ((place, depth) :: waiting) other held) :
    known.Expects waiting other held := by
  rcases expected with here | waits
  · exact .inl here
  · rcases List.mem_cons.mp waits with same | waits
    · cases same
      exact .inl admitted
    · exact .inr waits

theorem settled_visit (settled : known.Settled program labels ((place, depth) :: waiting))
    (visited : visit program labels known place depth waiting = .ok later) :
    later.Settled program labels later.waiting := by
  rcases visit_eq_ok visited with ⟨admitted, rfl⟩ | ⟨inside, unrecorded, enough, rfl⟩
  · exact ⟨expects_of_admits admitted settled.entry, settled.enough, settled.bounded,
      fun other held within recorded next leads =>
        expects_of_admits admitted (settled.follows other held within recorded next leads)⟩
  · -- What was expected before still is, now that the place itself is recorded.
    have keeps : ∀ other held, known.Expects ((place, depth) :: waiting) other held →
        (record program known place depth inside).Expects
          ((successors labels place program.instructions[place]).map
            (·, program.instructions[place].after depth) ++ waiting) other held := by
      intro other held expected
      rcases expected with here | waits
      · exact .inl (admits_record unrecorded here)
      · rcases List.mem_cons.mp waits with same | waits
        · cases same
          exact .inl (admits_record_self inside)
        · exact .inr (List.mem_append_right _ waits)
    refine ⟨keeps 0 0 settled.entry, ?_, ?_, ?_⟩
    · intro other held within recorded
      rcases recorded_record recorded with ⟨rfl, rfl⟩ | before
      · exact enough
      · exact settled.enough other held within before
    · intro other held within recorded
      rcases recorded_record recorded with ⟨rfl, rfl⟩ | before
      · exact Nat.le_max_right _ _
      · exact Nat.le_trans (settled.bounded other held within before) (Nat.le_max_left _ _)
    · intro other held within recorded next leads
      rcases recorded_record recorded with ⟨rfl, rfl⟩ | before
      · exact .inr (List.mem_append_left _ (List.mem_map.mpr ⟨next, leads, rfl⟩))
      · exact keeps _ _ (settled.follows other held within before next leads)

/-- The promise is kept to the end, where nothing waits. -/
theorem settled_finish {walk : Walk program.instructions.size}
    (settled : walk.Settled program labels walk.waiting)
    (finished : finish program labels walk = .ok report) : report.Settled program labels [] := by
  fun_induction finish program labels walk with
  | case1 known =>
    cases finished
    exact settled
  | case2 => cases finished
  | case3 known place depth waiting later visited _ ih =>
    exact ih (settled_visit settled visited) finished

/-- One depth for every place that fits all its instruction does, and a bound on what is left. -/
structure Levels (program : Program) (labels : LabelTable) (depth : Nat → Nat) (bound : Nat) :
    Prop where
  entry : depth 0 = 0
  exit : depth program.instructions.size = 0
  enough : ∀ place, ∀ inside : place < program.instructions.size,
    program.instructions[place].pops ≤ depth place
  bounded : ∀ place, ∀ inside : place < program.instructions.size,
    program.instructions[place].after (depth place) ≤ bound
  follows : ∀ place, ∀ inside : place < program.instructions.size,
    ∀ next ∈ successors labels place program.instructions[place],
      next ≤ program.instructions.size ∧
        depth next = program.instructions[place].after (depth place)

/-- A walk has found nothing but what the levels say. -/
structure Agrees (walk : Walk program.instructions.size) (depth : Nat → Nat) (bound : Nat) :
    Prop where
  recorded : ∀ place, ∀ inside : place < program.instructions.size, ∀ held,
    walk.depths[place] = some held → held = depth place
  waits : ∀ visit ∈ walk.waiting, visit.1 ≤ program.instructions.size ∧ visit.2 = depth visit.1
  bounded : walk.deepest ≤ bound

variable {level : Nat → Nat} {bound : Nat}

theorem agrees_start (levels : Levels program labels level bound) :
    Agrees (start program.instructions.size) level bound := by
  refine ⟨?_, ?_, Nat.zero_le bound⟩
  · intro place inside held recorded
    simp [start] at recorded
  · intro visit member
    cases List.mem_singleton.mp member
    exact ⟨Nat.zero_le _, levels.entry.symm⟩

/-- A visit to a place on its level goes well and finds nothing else. -/
theorem visit_of_levels (levels : Levels program labels level bound)
    (agrees : Agrees ⟨known, (place, depth) :: waiting⟩ level bound) :
    ∃ later, visit program labels known place depth waiting = .ok later ∧
      Agrees later level bound := by
  have here : place ≤ program.instructions.size ∧ depth = level place :=
    agrees.waits (place, depth) List.mem_cons_self
  obtain ⟨within, rfl⟩ := here
  have others : ∀ visit ∈ waiting, visit.1 ≤ program.instructions.size ∧ visit.2 = level visit.1 :=
    fun visit member => agrees.waits visit (List.mem_cons_of_mem _ member)
  rw [visit]
  split
  next inside =>
    split
    next first found =>
      have same : first = level place := agrees.recorded place inside first found
      exact ⟨⟨known, waiting⟩, if_pos same, agrees.recorded, others, agrees.bounded⟩
    next unrecorded =>
      refine ⟨_, if_neg (Nat.not_lt_of_le (levels.enough place inside)), ?_, ?_, ?_⟩
      · intro other within held recorded
        have either : (other = place ∧ held = level place) ∨ known.depths[other] = some held :=
          recorded_record recorded
        rcases either with ⟨rfl, rfl⟩ | before
        · rfl
        · exact agrees.recorded other within held before
      · intro visit member
        rcases List.mem_append.mp member with new | old
        · obtain ⟨next, leads, rfl⟩ := List.mem_map.mp new
          obtain ⟨bounds, same⟩ := levels.follows place inside next leads
          exact ⟨bounds, same.symm⟩
        · exact others visit old
      · exact Nat.max_le.mpr ⟨agrees.bounded, levels.bounded place inside⟩
  next outside =>
    have last : place = program.instructions.size := by omega
    have empty : level place = 0 := by rw [last, levels.exit]
    exact ⟨⟨known, waiting⟩, if_pos empty, agrees.recorded, others, agrees.bounded⟩

theorem finish_of_levels (levels : Levels program labels level bound)
    {walk : Walk program.instructions.size} (agrees : Agrees walk level bound) :
    ∃ report, finish program labels walk = .ok report ∧ report.deepest ≤ bound := by
  fun_induction finish program labels walk with
  | case1 known => exact ⟨known, rfl, agrees.bounded⟩
  | case2 known place depth waiting error visited =>
    obtain ⟨later, went, _⟩ := visit_of_levels levels agrees
    rw [visited] at went
    cases went
  | case3 known place depth waiting later visited _ ih =>
    obtain ⟨found, went, agreed⟩ := visit_of_levels levels agrees
    rw [visited] at went
    cases went
    exact ih agreed

end Walk

/-- A table that passes has its labels resolved and is closed under control flow. -/
theorem Program.settled_of_verify {report : StackReport program.instructions.size}
    (verified : program.verify = .ok report) :
    ∃ labels, program.resolve = .ok labels ∧ report.Settled program labels [] := by
  rw [Program.verify] at verified
  split at verified
  · cases verified
  · next labels resolved =>
    exact ⟨labels, resolved, Walk.settled_finish (Walk.settled_start program labels) verified⟩

/-- A program whose places have fitting depths passes. -/
theorem Program.verify_of_levels {level : Nat → Nat} {bound : Nat}
    (resolved : program.resolve = .ok labels) (levels : Walk.Levels program labels level bound) :
    ∃ report, program.verify = .ok report ∧ report.deepest ≤ bound := by
  rw [Program.verify, resolved]
  exact Walk.finish_of_levels levels (Walk.agrees_start levels)

end StackLang
