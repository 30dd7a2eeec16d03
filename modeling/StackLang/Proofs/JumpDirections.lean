import StackLang.Proofs.ControlFlow
import StackLang.Proofs.GeneratedLabels

/-!
# The directions of jumps

The labels of generated code are the numbers from zero up to twice the number of
branchings. Each is defined by one instruction and aimed at by one jump. Only a
loop leads back: control jumps from its end to its start, and every other jump
goes to a label that is defined further on. Nothing is assumed of the type
record.
-/
namespace StackLang

namespace Statement

mutual

/--
The numbers of the labels that the loops of a statement start with. The labels of a statement are
numbered from a given one, in the order of the text, two to a branching.
-/
def loopStarts (next : Nat) : Statement → List Nat
  | .conditional _ _ positive negative =>
    positive.loopStarts (next + 2) ++
      match negative with
      | none => []
      | some negative => negative.loopStarts (next + 2 + 2 * positive.branchings)
  | .loop _ _ body => next :: body.loopStarts (next + 2)
  | .block _ body => loopStartsAll next body
  | .declaration .. | .expression .. | .write .. | .read .. | .openFile .. | .fileOutput ..
  | .empty _ => []

def loopStartsAll (next : Nat) : List Statement → List Nat
  | [] => []
  | s :: rest => s.loopStarts next ++ loopStartsAll (next + 2 * s.branchings) rest

end

theorem loopStarts_conditional (next : Nat) (position : Position) (condition : Expression)
    (positive : Statement) (negative : Option Statement) :
    (conditional position condition positive negative).loopStarts next =
      positive.loopStarts (next + 2) ++
        loopStartsAll (next + 2 + 2 * positive.branchings) negative.toList := by
  cases negative <;> simp [loopStarts, loopStartsAll]

theorem bounds_of_each {next n : Nat} {body : List Statement}
    (each : ∀ s ∈ body, ∀ {next : Nat}, n ∈ s.loopStarts next →
      next ≤ n ∧ n < next + 2 * s.branchings)
    (member : n ∈ loopStartsAll next body) :
    next ≤ n ∧ n < next + 2 * branchingsAll body := by
  induction body generalizing next with
  | nil => cases member
  | cons s rest ih =>
    obtain ⟨own, others⟩ := List.forall_mem_cons.mp each
    rw [branchingsAll]
    rcases List.mem_append.mp member with here | there
    · have bounds := own here
      omega
    · have bounds := ih others there
      omega

/-- A loop starts with one of the labels of its statement. -/
theorem bounds_of_mem_loopStarts {s : Statement} {next n : Nat} (member : n ∈ s.loopStarts next) :
    next ≤ n ∧ n < next + 2 * s.branchings := by
  induction s generalizing next with
  | conditional position condition positive negative positiveIH negativeIH =>
    rw [loopStarts_conditional] at member
    rw [branchings_conditional]
    rcases List.mem_append.mp member with here | there
    · have bounds := positiveIH here
      omega
    · have bounds := bounds_of_each (fun s inside => negativeIH s inside) there
      omega
  | loop position condition body ih =>
    rw [branchings]
    rcases List.mem_cons.mp member with rfl | inner
    · omega
    · have bounds := ih inner
      omega
  | block position body ih => exact bounds_of_each (fun s inside => ih s inside) member
  | _ => cases member

theorem bounds_of_mem_loopStartsAll {next n : Nat} {body : List Statement}
    (member : n ∈ loopStartsAll next body) : next ≤ n ∧ n < next + 2 * branchingsAll body :=
  bounds_of_each (fun _ _ _ inside => bounds_of_mem_loopStarts inside) member

end Statement

/-- The numbers of the labels that the loops of a tree start with. -/
def Tree.loopStarts (tree : Tree) : List Nat :=
  Statement.loopStartsAll 0 tree

/--
From one place up to another jumps have a direction: back if they go to one of the starts, which
only an unconditional jump does, and forward otherwise.
-/
def Program.Directed (program : Program) (starts : List Nat) (first stop : Nat) : Prop :=
  ∀ place i label, first ≤ place → place < stop → program.instructions[place]? = some i →
    i.target? = some label → ∃ defined : Nat, program.instructions[defined]? = some (.label label) ∧
      if label.toNat ∈ starts then i = .jump label ∧ defined < place else place < defined

namespace Program

variable {program : Program} {starts : List Nat} {first middle stop place defined : Nat}
variable {i : Instruction} {label : Label} {code : List Instruction}

theorem directed_nil : program.Directed starts first first :=
  fun _ _ _ reached before => absurd before (Nat.not_lt_of_le reached)

theorem Directed.append (directed : program.Directed starts first middle)
    (more : program.Directed starts middle stop) : program.Directed starts first stop := by
  intro place i label reached before
  by_cases inside : place < middle
  · exact directed place i label reached inside
  · exact more place i label (Nat.le_of_not_lt inside) before

theorem directed_of_plain (found : program.instructions[place]? = some i)
    (plain : i.target? = none) : program.Directed starts place (place + 1) := by
  intro other j label reached before there jumps
  obtain rfl : other = place := by omega
  obtain rfl := Option.some.inj (found.symm.trans there)
  rw [plain] at jumps
  cases jumps

theorem directed_of_jump (found : program.instructions[place]? = some i)
    (jumps : i.target? = some label) (defines : program.instructions[defined]? = some (.label label))
    (direction : if label.toNat ∈ starts then i = .jump label ∧ defined < place
      else place < defined) : program.Directed starts place (place + 1) := by
  intro other j target reached before there aims
  obtain rfl : other = place := by omega
  obtain rfl := Option.some.inj (found.symm.trans there)
  obtain rfl := Option.some.inj (jumps.symm.trans aims)
  exact ⟨defined, defines, direction⟩

theorem directed_of_straight (segment : program.Segment first code stop)
    (straight : Straight code) : program.Directed starts first stop := by
  induction code generalizing first with
  | nil =>
    cases segment_nil.mp segment
    exact directed_nil
  | cons i rest ih =>
    obtain ⟨found, later⟩ := segment_cons.mp segment
    obtain ⟨plain, others⟩ := List.forall_mem_cons.mp straight
    have noTarget : i.target? = none := by
      simpa using (Bool.or_eq_false_iff.mp plain).1
    exact (directed_of_plain found noTarget).append (ih later others)

end Program

section Lowered

variable {program : Program} {record : TypeRecord} {starts own : List Nat}
variable {next last : Label} {code : List Instruction} {first stop : Nat}

/-- Of the two numbers to each of some branchings, those among the starts are the given ones. -/
def OwnsStarts (starts own : List Nat) (first branchings : Nat) : Prop :=
  ∀ n, first ≤ n → n < first + 2 * branchings → (n ∈ starts ↔ n ∈ own)

/-- Of two parts in a row neither has a loop that starts with a label of the other. -/
theorem OwnsStarts.split {s : Statement} {rest : List Statement}
    (owns : OwnsStarts starts (Statement.loopStartsAll first (s :: rest)) first
      (Statement.branchingsAll (s :: rest))) :
    OwnsStarts starts (s.loopStarts first) first s.branchings ∧
      OwnsStarts starts (Statement.loopStartsAll (first + 2 * s.branchings) rest)
        (first + 2 * s.branchings) (Statement.branchingsAll rest) := by
  have either (n : Nat) (reached : first ≤ n)
      (within : n < first + 2 * (s.branchings + Statement.branchingsAll rest)) :
      n ∈ starts ↔ n ∈ s.loopStarts first ∨
        n ∈ Statement.loopStartsAll (first + 2 * s.branchings) rest :=
    (owns n reached within).trans List.mem_append
  constructor
  · intro n reached within
    refine (either n reached (by omega)).trans (or_iff_left fun member => ?_)
    have bounds := Statement.bounds_of_mem_loopStartsAll member
    omega
  · intro n reached within
    refine (either n (by omega) (by omega)).trans (or_iff_right fun member => ?_)
    have bounds := Statement.bounds_of_mem_loopStarts member
    omega

/-- What is claimed of the jumps of a statement, wherever its code stands. -/
def Statement.IsDirected (program : Program) (record : TypeRecord) (starts : List Nat)
    (s : Statement) : Prop :=
  ∀ ⦃next last : Label⦄ ⦃code : List Instruction⦄ ⦃first stop : Nat⦄,
    s.lower record next = .ok (code, last) → next.toNat + 2 * s.branchings < UInt32.size →
    OwnsStarts starts (s.loopStarts next.toNat) next.toNat s.branchings →
    program.Segment first code stop → program.Directed starts first stop

theorem directed_lowerAll {body : List Statement}
    (each : ∀ s ∈ body, s.IsDirected program record starts)
    (lowered : lowerAll record next body = .ok (code, last))
    (room : next.toNat + 2 * Statement.branchingsAll body < UInt32.size)
    (owns : OwnsStarts starts (Statement.loopStartsAll next.toNat body) next.toNat
      (Statement.branchingsAll body))
    (segment : program.Segment first code stop) : program.Directed starts first stop := by
  induction body generalizing next code first with
  | nil =>
    cases lowered
    cases Program.segment_nil.mp segment
    exact Program.directed_nil
  | cons s rest ih =>
    obtain ⟨own, middle, later, here, there, rfl⟩ := lowerAll_cons lowered
    obtain ⟨place, front, back⟩ := Program.segment_append.mp segment
    obtain ⟨mine, others⟩ := List.forall_mem_cons.mp each
    obtain ⟨early, late⟩ := owns.split
    rw [Statement.branchingsAll, Nat.mul_add] at room
    obtain ⟨_, reached⟩ := s.usesLabels record here (by omega)
    rw [← reached] at late
    exact (mine here (by omega) early front).append (ih others there (by omega) late back)

theorem directed_conditional {test positive negative : List Instruction} {other final : Label}
    (straight : Straight test)
    (plain : other.toNat ∉ starts ∧ final.toNat ∉ starts)
    (segment : program.Segment first (conditionalCode other final test positive negative) stop)
    (inner : ∀ first stop, program.Segment first positive stop → program.Directed starts first stop)
    (outer : ∀ first stop, program.Segment first negative stop → program.Directed starts first stop) :
    program.Directed starts first stop := by
  obtain ⟨branch, jump, close, tested, branches, front, jumps, defines, back, closes, rfl⟩ :=
    Program.segment_conditional segment
  have toJump := Program.stop_of_segment front
  have toClose := Program.stop_of_segment back
  have skip : program.Directed starts branch (branch + 1) :=
    Program.directed_of_jump branches rfl defines (by rw [if_neg plain.1]; omega)
  have leave : program.Directed starts jump (jump + 1) :=
    Program.directed_of_jump jumps rfl closes (by rw [if_neg plain.2]; omega)
  exact (Program.directed_of_straight tested straight).append <| skip.append <|
    (inner _ _ front).append <| leave.append <| (Program.directed_of_plain defines rfl).append <|
    (outer _ _ back).append (Program.directed_of_plain closes rfl)

theorem directed_loop {test body : List Instruction} {top final : Label}
    (straight : Straight test) (back : top.toNat ∈ starts) (plain : final.toNat ∉ starts)
    (segment : program.Segment first (loopCode top final test body) stop)
    (inner : ∀ first stop, program.Segment first body stop → program.Directed starts first stop) :
    program.Directed starts first stop := by
  obtain ⟨branch, jump, opens, tested, branches, repeated, jumps, closes, rfl⟩ :=
    Program.segment_loop segment
  have toBranch := Program.stop_of_segment tested
  have toJump := Program.stop_of_segment repeated
  have leave : program.Directed starts branch (branch + 1) :=
    Program.directed_of_jump branches rfl closes (by rw [if_neg plain]; omega)
  have again : program.Directed starts jump (jump + 1) :=
    Program.directed_of_jump jumps rfl opens (by rw [if_pos back]; exact ⟨rfl, by omega⟩)
  exact (Program.directed_of_plain opens rfl).append <|
    (Program.directed_of_straight tested straight).append <| leave.append <|
    (inner _ _ repeated).append <| again.append (Program.directed_of_plain closes rfl)

/-- In the code of a statement only the ends of loops lead back. -/
theorem Statement.isDirected (program : Program) (record : TypeRecord) (starts : List Nat)
    (s : Statement) : s.IsDirected program record starts := by
  induction s with
  | conditional position condition positive negative positiveIH negativeIH =>
    intro next last code first stop lowered room owns segment
    obtain ⟨test, type, front, middle, back, tested, branch, otherwise, rfl⟩ :=
      lower_conditional lowered
    rw [branchings_conditional, loopStarts_conditional] at owns
    rw [branchings_conditional] at room
    have labels : next.toNat +
        (2 * (positive.branchings + branchingsAll negative.toList) + 2) < UInt32.size := by omega
    obtain ⟨one, two⟩ := toNat_labels labels
    have inner : OwnsStarts starts
        (loopStartsAll (next.toNat + 2) (positive :: negative.toList)) (next.toNat + 2)
        (branchingsAll (positive :: negative.toList)) := by
      intro n reached within
      rw [branchingsAll] at within
      exact owns n (by omega) (by omega)
    have plain (n : Nat) (reached : next.toNat ≤ n) (before : n < next.toNat + 2) :
        n ∉ starts := by
      intro member
      have inside : n ∈ loopStartsAll (next.toNat + 2) (positive :: negative.toList) :=
        (owns n reached (by omega)).mp member
      have bounds := bounds_of_mem_loopStartsAll inside
      omega
    obtain ⟨early, late⟩ := inner.split
    obtain ⟨_, reached⟩ := positive.usesLabels record branch (by omega)
    rw [← two] at early
    rw [← two, ← reached] at late
    refine directed_conditional (straight_of_lower tested)
      ⟨plain _ (by omega) (by omega), plain _ (by omega) (by omega)⟩ segment ?_ ?_
    · exact fun first stop => positiveIH branch (by omega) early
    · exact fun first stop => directed_lowerAll negativeIH otherwise (by omega) late
  | loop position condition body ih =>
    intro next last code first stop lowered room owns segment
    obtain ⟨test, type, inner, tested, repeated, rfl⟩ := lower_loop lowered
    rw [branchings] at room owns
    rw [loopStarts] at owns
    have labels : next.toNat + (2 * body.branchings + 2) < UInt32.size := by omega
    obtain ⟨one, two⟩ := toNat_labels labels
    have back : next.toNat ∈ starts :=
      (owns _ (Nat.le_refl _) (by omega)).mpr List.mem_cons_self
    have plain : (next + 1).toNat ∉ starts := by
      intro member
      rcases List.mem_cons.mp ((owns _ (by omega) (by omega)).mp member) with same | inside
      · omega
      · have bounds := bounds_of_mem_loopStarts inside
        omega
    refine directed_loop (straight_of_lower tested) back plain segment fun first stop =>
      ih repeated (by omega) ?_
    rw [two]
    intro n reached within
    rw [owns n (by omega) (by omega), List.mem_cons]
    exact or_iff_right (by omega)
  | block position body ih =>
    intro next last code first stop lowered room owns segment
    exact directed_lowerAll ih lowered room owns segment
  | _ =>
    intro next last code first stop lowered room owns segment
    exact Program.directed_of_straight segment (straight_of_simple rfl lowered).1

theorem Tree.directed {tree : Tree} (lowered : tree.lower record = .ok program)
    (few : 2 * tree.branchings < UInt32.size) :
    program.Directed tree.loopStarts 0 program.instructions.size := by
  obtain ⟨last, emitted⟩ := Tree.lower_eq_ok lowered
  refine directed_lowerAll (fun s _ => s.isDirected program record _) emitted ?_
    (fun _ _ _ => Iff.rfl) program.segment_toList
  rw [UInt32.toNat_zero, Nat.zero_add]
  exact few

/-- A label occurs once among labels whose numbers are those below a bound. -/
theorem count_of_perm_range' {labels : List Label} {bound : Nat}
    (perm : (numbers labels).Perm (List.range' 0 bound)) (label : Label) :
    labels.count label = if label.toNat < bound then 1 else 0 := by
  have distinct : labels.Nodup :=
    List.Pairwise.of_map _ (fun _ _ differ same => differ (congrArg _ same))
      (perm.nodup_iff.mpr List.nodup_range')
  have member : label ∈ labels ↔ label.toNat < bound := by
    have within : label.toNat ∈ numbers labels ↔ label.toNat < bound := by
      rw [perm.mem_iff, List.mem_range'_1]
      omega
    rw [← within]
    constructor
    · exact List.mem_map_of_mem
    · intro found
      obtain ⟨other, inside, same⟩ := List.mem_map.mp found
      exact UInt32.toNat_inj.mp same ▸ inside
  rw [distinct.count]
  simp only [member]

end Lowered

/--
The labels that the code of a tree defines are the numbers below twice the number of its branchings,
each defined once, and each is what one of the jumps aims at. A jump to the label that a loop starts
with is unconditional and leads back; any other jump leads forward.
-/
theorem Tree.label_discipline (tree : Tree) (record : TypeRecord) (program : Program)
    (lowered : tree.lower record = .ok program) (few : 2 * tree.branchings < UInt32.size) :
    (∀ label, (definedLabels program.toList).count label =
      if label.toNat < 2 * tree.branchings then 1 else 0) ∧
    (∀ label, (jumpTargets program.toList).count label =
      if label.toNat < 2 * tree.branchings then 1 else 0) ∧
    ∀ (place defined : Nat) (i : Instruction) (label : Label),
      program.instructions[place]? = some i → i.target? = some label →
      program.instructions[defined]? = some (.label label) →
      if label.toNat ∈ tree.loopStarts then i = .jump label ∧ defined < place
      else place < defined := by
  have uses := Tree.uses_labels lowered few
  refine ⟨count_of_perm_range' uses.defined, count_of_perm_range' uses.aimed, ?_⟩
  intro place defined i label found jumps defines
  obtain ⟨labels, resolved⟩ := Tree.exists_resolve lowered few
  have inside := (Array.getElem?_eq_some_iff.mp found).1
  obtain ⟨other, there, direction⟩ :=
    Tree.directed lowered few place i label (Nat.zero_le place) inside found jumps
  obtain rfl := (Program.labelled_of_resolve resolved).once label other defined there defines
  exact direction

/-- A loop in a branch of a conditional in a loop, and another conditional behind. -/
theorem Tree.label_discipline_nested :
    let at0 : Position := ⟨1, 0⟩
    let yes : Expression := .literal ⟨0, at0⟩ (.bool true)
    let inner : Statement := .loop at0 yes (.empty at0)
    let tree : Tree := [.loop at0 yes (.conditional at0 yes (.empty at0) (some inner)),
      .conditional at0 yes (.empty at0) none]
    let record : TypeRecord := ⟨.empty, Std.HashMap.insert ∅ 0 .bool⟩
    ∃ program, tree.lower record = .ok program ∧ 2 * tree.branchings < UInt32.size ∧
      tree.loopStarts = [0, 4] ∧
      (definedLabels program.toList).count 7 = 1 ∧ (definedLabels program.toList).count 8 = 0 ∧
      (jumpTargets program.toList).count 7 = 1 ∧ (jumpTargets program.toList).count 8 = 0 ∧
      program.instructions[10]? = some (.jump 4) ∧ program.instructions[17]? = some (.jump 7) ∧
      (∀ defined : Nat, program.instructions[defined]? = some (.label 4) → defined < 10) ∧
      ∀ defined : Nat, program.instructions[defined]? = some (.label 7) → 17 < defined := by
  intro at0 yes inner tree record
  have lowered : ∃ program, tree.lower record = .ok program ∧
      program.instructions[10]? = some (.jump 4) ∧ program.instructions[17]? = some (.jump 7) := by
    have truth : record.typeOf 0 = .bool := by simp [record, TypeRecord.typeOf]
    have test : record.resolvedType ⟨0, at0⟩ = .ok .bool := by
      simp [TypeRecord.resolvedType, truth]
    simp only [tree, inner, yes, Tree.lower, lowerAll, Statement.lower, Expression.lower,
      Expression.emit, Expression.settle, Expression.layers, Expression.node, List.forM, test]
    exact ⟨_, rfl, rfl, rfl⟩
  obtain ⟨program, lowered, back, forward⟩ := lowered
  have few : 2 * tree.branchings < UInt32.size := by decide
  obtain ⟨once, aimed, directed⟩ := label_discipline tree record program lowered few
  refine ⟨program, lowered, few, rfl, once 7, once 8, aimed 7, aimed 8, back, forward, ?_, ?_⟩
  · intro defined defines
    exact (directed 10 defined _ 4 back rfl defines).2
  · intro defined defines
    exact directed 17 defined _ 7 forward rfl defines

end StackLang
