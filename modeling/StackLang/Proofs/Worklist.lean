import StackLang.Proofs.ControlFlow

/-!
# The loop of the verifier ends

The list of waiting places grows while the loop works on it, so its length alone
does not tell that the loop ends. A round expands its place only if that has no
depth, and gives it one that stays, so there are no more expansions than there
are instructions. An expansion lets at most two places wait, and every other
round takes one away. This bounds the rounds, whatever the jumps are like, and
every place that waits is one of the program or its end.
-/
namespace StackLang

variable {program : Program} {labels : LabelTable}

namespace Walk

/--
What rounds of the loop lead to, with their number and the places they expanded, the last one first.
-/
inductive Rounds (program : Program) (labels : LabelTable)
    (walk : Walk program.instructions.size) :
    Nat → List Nat → Walk program.instructions.size → Prop
  | none : Rounds program labels walk 0 [] walk
  | pass {count place depth : Nat} {expanded : List Nat} {waiting : List (Nat × Nat)}
    {known : StackReport program.instructions.size} {later : Walk program.instructions.size}
    (rounds : Rounds program labels walk count expanded ⟨known, (place, depth) :: waiting⟩)
    (held : known.depths[place]? ≠ some none)
    (visited : visit program labels known place depth waiting = .ok later) :
    Rounds program labels walk (count + 1) expanded later
  | expand {count place depth : Nat} {expanded : List Nat} {waiting : List (Nat × Nat)}
    {known : StackReport program.instructions.size} {later : Walk program.instructions.size}
    (rounds : Rounds program labels walk count expanded ⟨known, (place, depth) :: waiting⟩)
    (bare : known.depths[place]? = some none)
    (visited : visit program labels known place depth waiting = .ok later) :
    Rounds program labels walk (count + 1) (place :: expanded) later

/-- What holds after rounds of the loop that expanded some places. -/
structure Accounted {size : Nat} (walk : Walk size) (count : Nat) (expanded : List Nat) : Prop where
  once : expanded.Nodup
  recorded : ∀ place, place ∈ expanded ↔ ∃ depth, walk.depths[place]? = some (some depth)
  within : ∀ visit ∈ walk.waiting, visit.1 ≤ size
  rounds : count + walk.waiting.length ≤ 2 * expanded.length + 1

variable {known : StackReport program.instructions.size} {place depth count : Nat}
variable {waiting : List (Nat × Nat)} {walk later last : Walk program.instructions.size}
variable {expanded : List Nat}

theorem length_successors_le (labels : LabelTable) (place : Nat) (i : Instruction) :
    (successors labels place i).length ≤ 2 := by
  have single : ∀ entry : Option Nat, entry.toList.length ≤ 1 := by
    intro entry
    cases entry <;> simp
  cases i with
  | jump label => exact Nat.le_succ_of_le (single _)
  | jumpIfFalse label => exact Nat.succ_le_succ (single _)
  | _ => exact Nat.le_succ 1

theorem getElem?_record (inside : place < program.instructions.size) (other : Nat) :
    (record program known place depth inside).depths[other]? =
      if place = other then some (some depth) else known.depths[other]? :=
  Vector.getElem?_set inside

/-- A place with a depth, and the end, are passed: nothing is learned, and nothing new waits. -/
theorem eq_of_pass (held : known.depths[place]? ≠ some none)
    (visited : visit program labels known place depth waiting = .ok later) :
    later = ⟨known, waiting⟩ := by
  rcases visit_eq_ok visited with ⟨_, same⟩ | ⟨inside, unrecorded, _⟩
  · exact same
  · rw [Vector.getElem?_eq_getElem inside, unrecorded] at held
    exact absurd rfl held

/-- A place without a depth is expanded: it gets one, and its successors wait. -/
theorem eq_of_expand (bare : known.depths[place]? = some none)
    (visited : visit program labels known place depth waiting = .ok later) :
    ∃ inside : place < program.instructions.size,
      later = ⟨record program known place depth inside,
        (successors labels place program.instructions[place]).map
          (·, program.instructions[place].after depth) ++ waiting⟩ := by
  rcases visit_eq_ok visited with ⟨admitted, _⟩ | ⟨inside, _, _, same⟩
  · obtain ⟨inside, unrecorded⟩ := Vector.getElem?_eq_some_iff.mp bare
    rw [recorded_of_admits admitted inside] at unrecorded
    cases unrecorded
  · exact ⟨inside, same⟩

/-- A depth once recorded stays. -/
theorem recorded_of_visit (visited : visit program labels known place depth waiting = .ok later)
    {other held : Nat} (recorded : known.depths[other]? = some (some held)) :
    later.depths[other]? = some (some held) := by
  by_cases bare : known.depths[place]? = some none
  · obtain ⟨inside, rfl⟩ := eq_of_expand bare visited
    have differs : place ≠ other := by
      rintro rfl
      rw [bare] at recorded
      cases recorded
    rw [getElem?_record, if_neg differs]
    exact recorded
  · rw [eq_of_pass bare visited]
    exact recorded

theorem recorded_of_rounds (rounds : Rounds program labels walk count expanded later)
    {other held : Nat} (recorded : walk.depths[other]? = some (some held)) :
    later.depths[other]? = some (some held) := by
  induction rounds with
  | none => exact recorded
  | pass _ _ visited ih => exact recorded_of_visit visited ih
  | expand _ _ visited ih => exact recorded_of_visit visited ih

/-- The places without a depth are those that have not been expanded. -/
theorem Accounted.bare_iff {size : Nat} {walk : Walk size}
    (accounted : walk.Accounted count expanded) :
    walk.depths[place]? = some none ↔ place < size ∧ place ∉ expanded := by
  constructor
  · intro bare
    refine ⟨(Vector.getElem?_eq_some_iff.mp bare).1, fun member => ?_⟩
    obtain ⟨held, recorded⟩ := (accounted.recorded place).mp member
    rw [bare] at recorded
    cases recorded
  · rintro ⟨inside, new⟩
    rw [Vector.getElem?_eq_getElem inside]
    cases held : walk.depths[place] with
    | none => rfl
    | some depth =>
      have recorded : walk.depths[place]? = some (some depth) := by
        rw [Vector.getElem?_eq_getElem inside, held]
      exact absurd ((accounted.recorded place).mpr ⟨depth, recorded⟩) new

theorem accounted_start (size : Nat) : (start size).Accounted 0 [] := by
  refine ⟨.nil, ?_, ?_, Nat.le_refl 1⟩
  · simp [start, Vector.getElem?_replicate]
  · intro visit member
    cases List.mem_singleton.mp member
    exact Nat.zero_le size

theorem accounted_pass
    (accounted : Accounted ⟨known, (place, depth) :: waiting⟩ count expanded) :
    Accounted ⟨known, waiting⟩ (count + 1) expanded := by
  refine ⟨accounted.once, accounted.recorded, ?_, ?_⟩
  · exact fun visit member => accounted.within visit (List.mem_cons_of_mem _ member)
  · have rounds := accounted.rounds
    rw [List.length_cons] at rounds
    change count + 1 + waiting.length ≤ 2 * expanded.length + 1
    omega

theorem accounted_expand (resolved : program.resolve = .ok labels)
    (accounted : Accounted ⟨known, (place, depth) :: waiting⟩ count expanded)
    (bare : known.depths[place]? = some none)
    (visited : visit program labels known place depth waiting = .ok later) :
    later.Accounted (count + 1) (place :: expanded) := by
  obtain ⟨inside, rfl⟩ := eq_of_expand bare visited
  have fresh := (accounted.bare_iff.mp bare).2
  refine ⟨List.nodup_cons.mpr ⟨fresh, accounted.once⟩, ?_, ?_, ?_⟩
  · intro other
    rw [getElem?_record, List.mem_cons]
    by_cases same : place = other
    · simp [same]
    · rw [if_neg same, ← accounted.recorded other]
      exact or_iff_right (Ne.symm same)
  · intro visit member
    rcases List.mem_append.mp member with new | old
    · obtain ⟨next, leads, rfl⟩ := List.mem_map.mp new
      have found := Array.getElem?_eq_getElem inside
      exact Program.le_size_of_edge ((Program.mem_successors_iff resolved found).mp leads)
    · exact accounted.within visit (List.mem_cons_of_mem _ old)
  · have few := length_successors_le labels place program.instructions[place]
    have rounds := accounted.rounds
    rw [List.length_cons] at rounds
    rw [List.length_append, List.length_map, List.length_cons]
    omega

theorem accounted_of_rounds (resolved : program.resolve = .ok labels)
    (rounds : Rounds program labels (start _) count expanded walk) :
    walk.Accounted count expanded := by
  induction rounds with
  | none => exact accounted_start _
  | pass _ held visited ih =>
    rw [eq_of_pass held visited]
    exact accounted_pass ih
  | expand _ bare visited ih => exact accounted_expand resolved ih bare visited

/-- No more places are expanded than there are instructions. -/
theorem Accounted.length_le {size : Nat} {walk : Walk size}
    (accounted : walk.Accounted count expanded) : expanded.length ≤ size := by
  have inside : expanded ⊆ List.range size := by
    intro place member
    obtain ⟨depth, recorded⟩ := (accounted.recorded place).mp member
    exact List.mem_range.mpr (Vector.getElem?_eq_some_iff.mp recorded).1
  have bound := accounted.once.length_le_of_subset inside
  rwa [List.length_range] at bound

/-- A place expanded before, or the end, is only passed; any other has no depth and gets one. -/
theorem visit_of_rounds (resolved : program.resolve = .ok labels)
    (rounds : Rounds program labels (start _) count expanded ⟨known, (place, depth) :: waiting⟩)
    (visited : visit program labels known place depth waiting = .ok later) :
    if place ∈ expanded ∨ place = program.instructions.size then later = ⟨known, waiting⟩
    else known.depths[place]? = some none ∧ later.depths[place]? = some (some depth) := by
  have accounted := accounted_of_rounds resolved rounds
  split
  next passed =>
    refine eq_of_pass (fun bare => ?_) visited
    obtain ⟨inside, new⟩ := accounted.bare_iff.mp bare
    rcases passed with done | rfl
    · exact new done
    · exact Nat.lt_irrefl _ inside
  next fresh =>
    obtain ⟨new, short⟩ := not_or.mp fresh
    have within : place ≤ program.instructions.size :=
      accounted.within (place, depth) List.mem_cons_self
    have bare := accounted.bare_iff.mpr ⟨Nat.lt_of_le_of_ne within short, new⟩
    obtain ⟨_, rfl⟩ := eq_of_expand bare visited
    exact ⟨bare, by rw [getElem?_record, if_pos rfl]⟩

/-- The loop ends with a walk: nothing waits any more, or what waits first cannot be visited. -/
def EndsWith (program : Program) (labels : LabelTable) (last : Walk program.instructions.size)
    (outcome : Except VerifyError (StackReport program.instructions.size)) : Prop :=
  match last.waiting with
  | [] => outcome = .ok last.toStackReport
  | (place, depth) :: waiting =>
    ∃ error, visit program labels last.toStackReport place depth waiting = .error error ∧
      outcome = .error error

/-- From wherever the rounds have led, more rounds lead to the end. -/
theorem exists_last (rounds : Rounds program labels walk count expanded later) :
    ∃ count expanded last, Rounds program labels walk count expanded last ∧
      EndsWith program labels last (finish program labels later) := by
  fun_induction finish program labels later generalizing count expanded with
  | case1 known => exact ⟨count, expanded, _, rounds, rfl⟩
  | case2 known place depth waiting error failed =>
    exact ⟨count, expanded, _, rounds, error, failed, rfl⟩
  | case3 known place depth waiting later visited _ ih =>
    by_cases bare : known.depths[place]? = some none
    · exact ih (.expand rounds bare visited)
    · exact ih (.pass rounds bare visited)

end Walk

/-- The label of a jump, reached or not, is found and stands for a place of the program. -/
theorem Program.place?_of_target? (resolved : program.resolve = .ok labels) {place : Nat}
    {i : Instruction} {label : Label} (found : program.instructions[place]? = some i)
    (targets : i.target? = some label) :
    ∃ defined, labels.place? label = some defined ∧ defined < program.instructions.size := by
  obtain ⟨entry, goesTo⟩ := entry?_isSome resolved found targets
  obtain ⟨defined, placed, rfl⟩ := Option.map_eq_some_iff.mp goesTo
  obtain ⟨other, defines, same⟩ := label_of_entry? resolved goesTo
  obtain rfl := Nat.succ.inj same
  exact ⟨defined, placed, (Array.getElem?_eq_some_iff.mp defines).1⟩

/--
The loop of the verifier ends on every program, if its labels let it begin. However far it has come,
it has not expanded a place twice, the expanded places are those with a depth, which they keep, and
the places that wait and the labels it looks up are in range. A round that comes to a place expanded
before, or to the end, does no more than take it away. It all ends in at most one round more than
there are instructions twice over.
-/
theorem Program.walk_ends (program : Program) :
    (∃ error, program.resolve = .error error ∧ program.verify = .error (.label error)) ∨
    ∃ labels, program.resolve = .ok labels ∧
      (∀ (place : Nat) (i : Instruction) (label : Label), program.instructions[place]? = some i →
        i.target? = some label →
        ∃ defined, labels.place? label = some defined ∧ defined < program.instructions.size) ∧
      (∀ count expanded walk, Walk.Rounds program labels (.start _) count expanded walk →
        count ≤ 2 * program.instructions.size + 1 ∧ walk.Accounted count expanded ∧
        ∀ more others later, Walk.Rounds program labels walk more others later →
          ∀ place depth : Nat, walk.depths[place]? = some (some depth) →
            later.depths[place]? = some (some depth)) ∧
      (∀ count expanded known place depth waiting later,
        Walk.Rounds program labels (.start _) count expanded ⟨known, (place, depth) :: waiting⟩ →
        Walk.visit program labels known place depth waiting = .ok later →
        if place ∈ expanded ∨ place = program.instructions.size then later = ⟨known, waiting⟩
        else known.depths[place]? = some none ∧ later.depths[place]? = some (some depth)) ∧
      ∃ count expanded last, Walk.Rounds program labels (.start _) count expanded last ∧
        last.EndsWith program labels program.verify := by
  cases resolved : program.resolve with
  | error error =>
    refine .inl ⟨error, rfl, ?_⟩
    rw [verify, resolved]
  | ok labels =>
    refine .inr ⟨labels, rfl, ?_, ?_, ?_, ?_⟩
    · intro place i label found targets
      exact place?_of_target? resolved found targets
    · intro count expanded walk rounds
      have accounted := Walk.accounted_of_rounds resolved rounds
      refine ⟨?_, accounted, ?_⟩
      · have bound := accounted.length_le
        have spent := accounted.rounds
        omega
      · intro more others later further place depth recorded
        exact Walk.recorded_of_rounds further recorded
    · intro count expanded known place depth waiting later rounds visited
      exact Walk.visit_of_rounds resolved rounds visited
    · rw [verify, resolved]
      exact Walk.exists_last .none

-- Two labels that jump to each other, with one value more each time round.
example :
    let program : Program := .ofList [.label 0, .push (.bool true), .jump 1, .label 1, .jump 0]
    program.verify.map (·.deepest) = .error (.depthMismatch 1 0 1) := by
  cbv

end StackLang
