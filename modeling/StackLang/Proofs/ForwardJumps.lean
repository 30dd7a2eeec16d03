import StackLang.Files
import StackLang.Proofs.GeneratedLabels
import StackLang.Proofs.LabelAgreement
import StackLang.Sandbox

/-!
# Jumps that lead forward

In the code of a tree without loops every jump leads forward: its label is defined
further on. Each step of a run then goes to a later place, so no instruction is
executed twice, and the run is over after no more steps than the program has
instructions and one that leaves it. Nothing is assumed of the type record, and
a run may well end in a fault.
-/
namespace StackLang

namespace Statement

mutual

/-- No part of a statement is a loop. -/
def IsLoopFree : Statement → Prop
  | .conditional _ _ positive negative =>
    positive.IsLoopFree ∧
      match negative with
      | none => True
      | some negative => negative.IsLoopFree
  | .loop .. => False
  | .block _ body => AreLoopFree body
  | .declaration .. | .expression .. | .write .. | .read .. | .openFile .. | .fileOutput ..
  | .empty _ => True

def AreLoopFree : List Statement → Prop
  | [] => True
  | s :: rest => s.IsLoopFree ∧ AreLoopFree rest

end

theorem isLoopFree_conditional {position : Position} {condition : Expression}
    {positive : Statement} {negative : Option Statement} :
    (conditional position condition positive negative).IsLoopFree ↔
      positive.IsLoopFree ∧ AreLoopFree negative.toList := by
  cases negative <;> simp [IsLoopFree, AreLoopFree]

end Statement

/-- A tree without loops. -/
def Tree.IsLoopFree (tree : Tree) : Prop :=
  Statement.AreLoopFree tree

/-- Every jump has a definition of its label further on. -/
def LeadsForward : List Instruction → Prop
  | [] => True
  | i :: rest =>
    (∀ label, i.target? = some label → Instruction.label label ∈ rest) ∧ LeadsForward rest

namespace LeadsForward

variable {code first second test positive negative : List Instruction}

theorem append (forward : LeadsForward first) (more : LeadsForward second) :
    LeadsForward (first ++ second) := by
  induction first with
  | nil => exact more
  | cons i rest ih =>
    obtain ⟨own, others⟩ := forward
    exact ⟨fun label jumps => List.mem_append_left _ (own label jumps), ih others⟩

theorem cons_of_plain {i : Instruction} (plain : i.target? = none) (forward : LeadsForward code) :
    LeadsForward (i :: code) := by
  refine ⟨fun label jumps => ?_, forward⟩
  rw [plain] at jumps
  cases jumps

theorem cons_of_jump {i : Instruction} {label : Label} (jumps : i.target? = some label)
    (defined : .label label ∈ code) (forward : LeadsForward code) : LeadsForward (i :: code) := by
  refine ⟨fun other same => ?_, forward⟩
  rw [jumps] at same
  cases same
  exact defined

theorem of_straight (straight : Straight code) : LeadsForward code := by
  induction code with
  | nil => trivial
  | cons i rest ih =>
    obtain ⟨plain, others⟩ := List.forall_mem_cons.mp straight
    have noTarget : i.target? = none := by
      simpa using (Bool.or_eq_false_iff.mp plain).1
    exact cons_of_plain noTarget (ih others)

/-- The labels of a conditional stand behind both of its jumps. -/
theorem conditional (other final : Label) (straight : Straight test)
    (first : LeadsForward positive) (second : LeadsForward negative) :
    LeadsForward (conditionalCode other final test positive negative) := by
  have close : LeadsForward [.label final] := cons_of_plain rfl trivial
  have otherwise : LeadsForward (.label other :: (negative ++ [.label final])) :=
    cons_of_plain rfl (second.append close)
  have skip : LeadsForward (.jump final :: .label other :: (negative ++ [.label final])) :=
    cons_of_jump rfl (by simp) otherwise
  have branch : LeadsForward (.jumpIfFalse other ::
      (positive ++ .jump final :: .label other :: (negative ++ [.label final]))) :=
    cons_of_jump rfl (by simp) (first.append skip)
  have whole := (of_straight straight).append branch
  simpa [conditionalCode] using whole

/-- The definition that a jump leads to, by places. -/
theorem later (forward : LeadsForward code) {index : Nat} {i : Instruction} {label : Label}
    (found : code[index]? = some i) (jumps : i.target? = some label) :
    ∃ defined, index < defined ∧ code[defined]? = some (.label label) := by
  induction code generalizing index with
  | nil => cases found
  | cons first rest ih =>
    obtain ⟨own, others⟩ := forward
    cases index with
    | zero =>
      cases found
      obtain ⟨place, there⟩ := List.mem_iff_getElem?.mp (own label jumps)
      exact ⟨place + 1, Nat.succ_pos place, there⟩
    | succ index =>
      obtain ⟨defined, after, there⟩ := ih others found
      exact ⟨defined + 1, by omega, there⟩

end LeadsForward

section Lowered

variable {record : TypeRecord} {next last : Label} {code : List Instruction}

theorem leadsForward_lowerAll {body : List Statement}
    (each : ∀ s ∈ body, ∀ {next last : Label} {code : List Instruction},
      s.lower record next = .ok (code, last) → s.IsLoopFree → LeadsForward code)
    (lowered : lowerAll record next body = .ok (code, last))
    (loopFree : Statement.AreLoopFree body) : LeadsForward code := by
  induction body generalizing next code with
  | nil =>
    cases lowered
    trivial
  | cons s rest ih =>
    obtain ⟨first, middle, later, here, there, rfl⟩ := lowerAll_cons lowered
    obtain ⟨own, others⟩ := List.forall_mem_cons.mp each
    exact (own here loopFree.1).append (ih others there loopFree.2)

/-- All jumps in the code of a statement without loops lead forward. -/
theorem Statement.leadsForward {s : Statement} (lowered : s.lower record next = .ok (code, last))
    (loopFree : s.IsLoopFree) : LeadsForward code := by
  induction s generalizing next last code with
  | conditional position condition positive negative positiveIH negativeIH =>
    obtain ⟨test, type, first, middle, second, tested, branch, otherwise, rfl⟩ :=
      lower_conditional lowered
    obtain ⟨own, others⟩ := isLoopFree_conditional.mp loopFree
    exact .conditional next (next + 1) (straight_of_lower tested) (positiveIH branch own)
      (leadsForward_lowerAll (fun s member => negativeIH s member) otherwise others)
  | loop => exact loopFree.elim
  | block position body ih =>
    exact leadsForward_lowerAll (fun s member => ih s member) lowered loopFree
  | _ => exact .of_straight (straight_of_simple rfl lowered).1

theorem Tree.leadsForward {tree : Tree} {program : Program}
    (lowered : tree.lower record = .ok program) (loopFree : tree.IsLoopFree) :
    LeadsForward program.toList := by
  obtain ⟨last, emitted⟩ := Tree.lower_eq_ok lowered
  exact leadsForward_lowerAll (fun s _ => s.leadsForward) emitted loopFree

end Lowered

section Running

variable {program : Program} {labels : LabelTable} {frame next last : Frame}

/-- An instruction leads to a later place if the jumps of its program lead forward. -/
theorem place_lt_of_leads (resolved : program.resolve = .ok labels)
    (forward : LeadsForward program.toList) {i : Instruction}
    (found : program.instructions[frame.place]? = some i) (leads : i.Leads labels frame next) :
    frame.place < next.place := by
  have jumps : ∀ label, i.target? = some label → labels.entry? label = some next.place →
      frame.place < next.place := by
    intro label targets goesTo
    rw [← program.getElem?_toList] at found
    obtain ⟨defined, after, there⟩ := forward.later found targets
    rw [program.getElem?_toList] at there
    -- The label is defined once, so the table has this definition of it.
    rw [Program.entry?_of_getElem? resolved there] at goesTo
    have entry := Option.some.inj goesTo
    omega
  have steps : next.place = frame.place + 1 → frame.place < next.place := fun same => by omega
  have flow := leads.place
  cases i with
  | jump label => exact jumps label rfl (Option.mem_toList.mp flow)
  | jumpIfFalse label =>
    rcases List.mem_cons.mp flow with here | there
    · exact steps here
    · exact jumps label rfl (Option.mem_toList.mp there)
  | _ => exact steps (List.mem_singleton.mp flow)

variable {World : Type} [Host World] {machine : Machine} {world later : World}

/-- A run whose steps lead to later places has gone on by as many places as it has taken steps. -/
theorem Machine.add_le_place_of_run
    (climbs : ∀ (frame next : Frame) (world later : World),
      machine.step frame world = (.running next, later) → frame.place < next.place) {n : Nat}
    (going : machine.run n frame world = (.running last, later)) :
    frame.place + n ≤ last.place := by
  induction n generalizing frame world with
  | zero =>
    cases going
    exact Nat.le_refl _
  | succ n ih =>
    rcases run_succ_cases machine n frame world with
      ⟨first, after, stepped, run⟩ | ⟨status, after, stepped, still, run⟩
    · have here := climbs frame first world after stepped
      have there := ih (run ▸ going)
      omega
    · rw [run] at going
      cases going
      exact absurd rfl (still last)

end Running

/--
The code of a tree without loops, by whatever record it was lowered, is a program whose runs all
end. Every step leads to a later place, so that no two frames of a run are at the same instruction,
and after one step more than there are instructions the run has finished or failed.
-/
theorem Tree.halts_of_loopFree (tree : Tree) (record : TypeRecord) (program : Program)
    (lowered : tree.lower record = .ok program) (loopFree : tree.IsLoopFree)
    (few : 2 * tree.branchings < UInt32.size) :
    ∃ machine, Machine.load program = .ok machine ∧
      ∀ (World : Type) [Host World],
        (∀ (frame next : Frame) (world later : World),
          machine.step frame world = (.running next, later) → frame.place < next.place) ∧
        ∀ world : World,
          (∀ m n frame last between later, m < n →
            machine.run m .start world = (.running frame, between) →
            machine.run n .start world = (.running last, later) → frame.place < last.place) ∧
          ((∃ store later, machine.run (program.size + 1) .start world =
              (.finished store, later)) ∨
            ∃ fault later, machine.run (program.size + 1) .start world =
              (.failed fault, later)) := by
  obtain ⟨labels, resolved⟩ := Tree.exists_resolve lowered few
  have forward := Tree.leadsForward lowered loopFree
  refine ⟨_, Program.load_of_resolve resolved, fun World _ => ?_⟩
  have climbs : ∀ (frame next : Frame) (world later : World),
      Machine.step ⟨program, labels⟩ frame world = (.running next, later) →
        frame.place < next.place := by
    intro frame next world later stepped
    obtain ⟨i, found, leads⟩ := Machine.leads_of_step stepped
    exact place_lt_of_leads resolved forward found leads
  refine ⟨climbs, fun world => ⟨?_, ?_⟩⟩
  · intro m n frame last between later before going reached
    obtain ⟨more, rfl⟩ : ∃ more, n = m + more := ⟨n - m, by omega⟩
    rw [Machine.run_add _ going] at reached
    have gained := Machine.add_le_place_of_run climbs reached
    omega
  · cases ended : Machine.run ⟨program, labels⟩ (program.size + 1) .start world with
    | mk status later =>
      cases status with
      | finished store => exact .inl ⟨store, later, rfl⟩
      | failed fault => exact .inr ⟨fault, later, rfl⟩
      | running last =>
        -- Such a run would have left the program behind.
        have gained := Machine.add_le_place_of_run climbs ended
        have within := Program.place_le_size_of_run resolved ended
        rw [Program.size] at gained
        omega

/-- The tree of `if (true) write 1; else if (1) write 1;`, where an int stands for a condition. -/
theorem Tree.halts_of_loopFree_nested :
    let at0 : Position := ⟨1, 0⟩
    let yes : Expression := .literal ⟨0, at0⟩ (.bool true)
    let one : Expression := .literal ⟨1, at0⟩ (.int 1)
    let inner : Statement := .conditional at0 one (.write at0 [one]) none
    let tree : Tree := [.conditional at0 yes (.write at0 [one]) (some inner)]
    let record : TypeRecord := ⟨.empty, Std.HashMap.insert (.insert ∅ 0 .bool) 1 .int⟩
    let world : Sandbox DirectoryTree := ⟨[], .unlimited, .scratch⟩
    ∃ program, tree.lower record = .ok program ∧ tree.IsLoopFree ∧
      2 * tree.branchings < UInt32.size ∧
      ∃ machine, Machine.load program = .ok machine ∧
        ((∃ store later, machine.run (program.size + 1) .start world =
            (.finished store, later)) ∨
          ∃ fault later, machine.run (program.size + 1) .start world =
            (.failed fault, later)) := by
  intro at0 yes one inner tree record world
  have lowered : ∃ program, tree.lower record = .ok program := by
    have truth : record.typeOf 0 = .bool := by
      simp [record, TypeRecord.typeOf, Std.HashMap.getD_insert]
    have number : record.typeOf 1 = .int := by simp [record, TypeRecord.typeOf]
    have first : record.resolvedType ⟨0, at0⟩ = .ok .bool := by
      simp [TypeRecord.resolvedType, truth]
    have second : record.resolvedType ⟨1, at0⟩ = .ok .int := by
      simp [TypeRecord.resolvedType, number]
    simp only [tree, inner, yes, one, Tree.lower, lowerAll, Statement.lower, lowerValues,
      Expression.lower, Expression.emit, Expression.settle, Expression.layers, Expression.node,
      List.forM, first, second]
    exact ⟨_, rfl⟩
  obtain ⟨program, lowered⟩ := lowered
  have loopFree : tree.IsLoopFree := ⟨⟨trivial, trivial, trivial⟩, trivial⟩
  have few : 2 * tree.branchings < UInt32.size := by decide
  obtain ⟨machine, loaded, runs⟩ := halts_of_loopFree tree record program lowered loopFree few
  exact ⟨program, lowered, loopFree, few, machine, loaded, ((runs _).2 world).2⟩

end StackLang
