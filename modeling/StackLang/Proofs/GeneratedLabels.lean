import StackLang.Proofs.LoweredCode
import StackLang.Proofs.Resolution

/-!
# Labels of generated code

A conditional and a loop each take the next two numbers of the one counter. As
long as the counter does not run over, the code of a tree defines each number it
took exactly once and jumps to each exactly once, so its labels resolve.
-/
namespace StackLang

/-- The numbers of labels, in order. -/
def numbers (labels : List Label) : List Nat :=
  labels.map UInt32.toNat

theorem numbers_append (first second : List Label) :
    numbers (first ++ second) = numbers first ++ numbers second :=
  List.map_append

section Collected

variable (first second : List Instruction)

theorem definedLabels_append :
    definedLabels (first ++ second) = definedLabels first ++ definedLabels second :=
  List.filterMap_append

theorem jumpTargets_append :
    jumpTargets (first ++ second) = jumpTargets first ++ jumpTargets second :=
  List.filterMap_append

variable {code : List Instruction}

theorem definedLabels_of_straight (straight : Straight code) : definedLabels code = [] := by
  apply List.filterMap_eq_nil_iff.mpr
  intro i member
  have plain := straight i member
  rw [Instruction.isControl] at plain
  simpa using (Bool.or_eq_false_iff.mp plain).2

theorem jumpTargets_of_straight (straight : Straight code) : jumpTargets code = [] := by
  apply List.filterMap_eq_nil_iff.mpr
  intro i member
  have plain := straight i member
  rw [Instruction.isControl] at plain
  simpa using (Bool.or_eq_false_iff.mp plain).1

end Collected

/-- Code uses exactly the labels from one number up to another, each defined and aimed at once. -/
structure Uses (code : List Instruction) (first count : Nat) : Prop where
  defined : (numbers (definedLabels code)).Perm (List.range' first count)
  aimed : (numbers (jumpTargets code)).Perm (List.range' first count)

theorem uses_of_straight {code : List Instruction} (straight : Straight code) (first : Nat) :
    Uses code first 0 := by
  constructor
  · rw [definedLabels_of_straight straight]
    exact .nil
  · rw [jumpTargets_of_straight straight]
    exact .nil

theorem Uses.append {code later : List Instruction} {first count more : Nat}
    (uses : Uses code first count) (laterUses : Uses later (first + count) more) :
    Uses (code ++ later) first (count + more) := by
  constructor
  · rw [definedLabels_append, numbers_append, ← List.range'_append_1]
    exact uses.defined.append laterUses.defined
  · rw [jumpTargets_append, numbers_append, ← List.range'_append_1]
    exact uses.aimed.append laterUses.aimed

/-- The labels of a conditional and of a loop: two of their own and those of their parts. -/
theorem perm_range_two {own inner : List Nat} {first count : Nat}
    (split : own.Perm (first :: (first + 1) :: inner))
    (uses : inner.Perm (List.range' (first + 2) count)) :
    own.Perm (List.range' first (count + 2)) := by
  apply split.trans
  rw [List.range'_succ, List.range'_succ]
  exact (uses.cons _).cons _

variable {record : TypeRecord} {next last : Label} {code : List Instruction}

/-- The two labels of a statement are followed by those of its parts. -/
theorem toNat_labels {count : Nat} (room : next.toNat + (count + 2) < UInt32.size) :
    (next + 1).toNat = next.toNat + 1 ∧ (next + 2).toNat = next.toNat + 2 := by
  have size : UInt32.size = 4294967296 := rfl
  rw [size] at room
  rw [UInt32.toNat_add, UInt32.toNat_add]
  constructor
  · exact Nat.mod_eq_of_lt (by simp only [UInt32.reduceToNat]; omega)
  · exact Nat.mod_eq_of_lt (by simp only [UInt32.reduceToNat]; omega)

theorem uses_conditional {test first second : List Instruction} {count : Nat}
    (room : next.toNat + (count + 2) < UInt32.size) (straight : Straight test)
    (uses : Uses (first ++ second) (next.toNat + 2) count) :
    Uses (conditionalCode next (next + 1) test first second) next.toNat (count + 2) := by
  obtain ⟨one, _⟩ := toNat_labels room
  refine ⟨perm_range_two ?_ uses.defined, perm_range_two ?_ uses.aimed⟩
  · -- The labels stand behind the first branch and behind the second.
    have order : definedLabels (conditionalCode next (next + 1) test first second) =
        definedLabels first ++ next :: (definedLabels second ++ [next + 1]) := by
      simp only [conditionalCode, definedLabels_append, definedLabels_of_straight straight]
      simp [definedLabels, List.filterMap_cons, Instruction.definedLabel?]
    rw [order, definedLabels_append]
    simp only [numbers, List.map_append, List.map_cons, List.map_nil, one]
    refine List.perm_middle.trans (.cons _ ?_)
    rw [← List.append_assoc]
    exact List.perm_append_singleton _ _
  · have order : jumpTargets (conditionalCode next (next + 1) test first second) =
        next :: (jumpTargets first ++ (next + 1) :: jumpTargets second) := by
      simp only [conditionalCode, jumpTargets_append, jumpTargets_of_straight straight]
      simp [jumpTargets, List.filterMap_cons, Instruction.target?]
    rw [order, jumpTargets_append]
    simp only [numbers, List.map_append, List.map_cons, one]
    exact .cons _ List.perm_middle

theorem uses_loop {test inner : List Instruction} {count : Nat}
    (room : next.toNat + (count + 2) < UInt32.size) (straight : Straight test)
    (uses : Uses inner (next.toNat + 2) count) :
    Uses (loopCode next (next + 1) test inner) next.toNat (count + 2) := by
  obtain ⟨one, _⟩ := toNat_labels room
  refine ⟨perm_range_two ?_ uses.defined, perm_range_two ?_ uses.aimed⟩
  · have order : definedLabels (loopCode next (next + 1) test inner) =
        next :: (definedLabels inner ++ [next + 1]) := by
      simp only [loopCode, definedLabels_append, definedLabels_of_straight straight]
      simp [definedLabels, List.filterMap_cons, Instruction.definedLabel?]
    rw [order]
    simp only [numbers, List.map_append, List.map_cons, List.map_nil, one]
    exact .cons _ (List.perm_append_singleton _ _)
  · have order : jumpTargets (loopCode next (next + 1) test inner) =
        (next + 1) :: (jumpTargets inner ++ [next]) := by
      simp only [loopCode, jumpTargets_append, jumpTargets_of_straight straight]
      simp [jumpTargets, List.filterMap_cons, Instruction.target?]
    rw [order]
    simp only [numbers, List.map_append, List.map_cons, List.map_nil, one]
    exact (List.Perm.cons _ (List.perm_append_singleton _ _)).trans (.swap _ _ _)

/-- What is claimed of the labels of a statement: it takes two for each branching. -/
def Statement.UsesLabels (record : TypeRecord) (s : Statement) : Prop :=
  ∀ ⦃next last : Label⦄ ⦃code : List Instruction⦄, s.lower record next = .ok (code, last) →
    next.toNat + 2 * s.branchings < UInt32.size →
      Uses code next.toNat (2 * s.branchings) ∧ last.toNat = next.toNat + 2 * s.branchings

theorem uses_lowerAll {body : List Statement} (each : ∀ s ∈ body, s.UsesLabels record)
    (lowered : lowerAll record next body = .ok (code, last))
    (room : next.toNat + 2 * Statement.branchingsAll body < UInt32.size) :
    Uses code next.toNat (2 * Statement.branchingsAll body) ∧
      last.toNat = next.toNat + 2 * Statement.branchingsAll body := by
  induction body generalizing next code with
  | nil =>
    cases lowered
    exact ⟨uses_of_straight .nil _, rfl⟩
  | cons s rest ih =>
    obtain ⟨first, middle, later, here, there, rfl⟩ := lowerAll_cons lowered
    rw [Statement.branchingsAll, Nat.mul_add] at room ⊢
    obtain ⟨uses, reached⟩ := each s List.mem_cons_self here (by omega)
    obtain ⟨laterUses, ended⟩ :=
      ih (fun s member => each s (List.mem_cons_of_mem _ member)) there (by omega)
    rw [reached] at laterUses ended
    exact ⟨uses.append laterUses, by omega⟩

theorem usesLabels_of_simple {s : Statement} (simple : s.isSimple = true) :
    s.UsesLabels record := by
  intro next last code lowered _
  obtain ⟨straight, rfl⟩ := straight_of_simple simple lowered
  have none : s.branchings = 0 := by
    cases s with
    | conditional | loop | block => cases simple
    | _ => rfl
  rw [none]
  exact ⟨uses_of_straight straight _, rfl⟩

theorem Statement.usesLabels (record : TypeRecord) (s : Statement) : s.UsesLabels record := by
  induction s with
  | conditional position condition positive negative positiveIH negativeIH =>
    intro next last code lowered room
    obtain ⟨test, type, first, middle, second, tested, branch, otherwise, rfl⟩ :=
      lower_conditional lowered
    rw [branchings_conditional] at room ⊢
    obtain ⟨_, two⟩ := toNat_labels room
    obtain ⟨uses, reached⟩ := positiveIH branch (by omega)
    obtain ⟨laterUses, ended⟩ := uses_lowerAll negativeIH otherwise (by omega)
    rw [reached, two] at laterUses ended
    rw [two] at uses
    have count : 2 * (positive.branchings + branchingsAll negative.toList + 1) =
        2 * positive.branchings + 2 * branchingsAll negative.toList + 2 := by omega
    rw [count] at room ⊢
    exact ⟨uses_conditional room (straight_of_lower tested) (uses.append laterUses), by omega⟩
  | loop position condition body ih =>
    intro next last code lowered room
    obtain ⟨test, type, inner, tested, repeated, rfl⟩ := lower_loop lowered
    rw [branchings, Nat.mul_add] at room ⊢
    obtain ⟨_, two⟩ := toNat_labels room
    obtain ⟨uses, reached⟩ := ih repeated (by omega)
    rw [two] at uses reached
    exact ⟨uses_loop room (straight_of_lower tested) uses, by omega⟩
  | block position body ih =>
    intro next last code lowered room
    exact uses_lowerAll ih lowered room
  | _ => exact usesLabels_of_simple rfl

theorem Tree.uses_labels {tree : Tree} {program : Program}
    (lowered : tree.lower record = .ok program) (few : 2 * tree.branchings < UInt32.size) :
    Uses program.toList 0 (2 * tree.branchings) := by
  obtain ⟨last, lowered⟩ := Tree.lower_eq_ok lowered
  exact (uses_lowerAll (fun s _ => s.usesLabels record) lowered (by
    rw [UInt32.toNat_zero, Nat.zero_add]
    exact few)).1

/-- The labels of generated code resolve, whatever the type record. -/
theorem Tree.exists_resolve {tree : Tree} {program : Program}
    (lowered : tree.lower record = .ok program) (few : 2 * tree.branchings < UInt32.size) :
    ∃ labels, program.resolve = .ok labels := by
  have uses := Tree.uses_labels lowered few
  refine Program.exists_resolve ?_ fun label member => ?_
  · have distinct := uses.defined.nodup_iff.mpr List.nodup_range'
    exact List.Pairwise.of_map _ (fun a b differ same => differ (congrArg _ same)) distinct
  · have aimed := (uses.aimed.trans uses.defined.symm).mem_iff.mp (List.mem_map_of_mem member)
    obtain ⟨other, found, same⟩ := List.mem_map.mp aimed
    exact UInt32.toNat_inj.mp same ▸ found

end StackLang
