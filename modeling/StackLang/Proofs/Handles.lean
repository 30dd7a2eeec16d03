import StackLang.Proofs.Requests

/-!
# Handles

The handles of a frame are those on its stack and those in its store. What an
instruction does with handles is to move, copy and drop them. The only one it can
leave that was not there before is the handle of a file that it has asked the
host to create.
-/
namespace StackLang

/-- Every file that is held on the stack or in the store is one of these. -/
structure Frame.HandlesIn (frame : Frame) (paths : String → Prop) : Prop where
  stack : ∀ path, Slot.file path ∈ frame.stack → paths path
  store : ∀ name path, frame.store.get? name = some (.file path) → paths path

namespace Frame

variable {frame next : Frame} {paths wider : String → Prop}

theorem handlesIn_start : Frame.start.HandlesIn paths := by
  constructor
  · intro path member
    cases member
  · intro name path bound
    cases bound

theorem HandlesIn.mono (within : frame.HandlesIn paths) (wide : ∀ path, paths path → wider path) :
    frame.HandlesIn wider :=
  ⟨fun path member => wide path (within.stack path member),
    fun name path bound => wide path (within.store name path bound)⟩

/-- Slots that are already held are put on what is left of the stack. -/
theorem HandlesIn.advance (within : frame.HandlesIn paths) {stack : Stack}
    (held : ∀ path, Slot.file path ∈ stack → paths path) : (frame.advance stack).HandlesIn paths :=
  ⟨held, within.store⟩

theorem HandlesIn.advance_suffix (within : frame.HandlesIn paths) {rest : Stack}
    (suffix : rest <:+ frame.stack) : (frame.advance rest).HandlesIn paths :=
  within.advance fun path member => within.stack path (suffix.subset member)

theorem HandlesIn.leave (within : frame.HandlesIn paths) {rest : Stack}
    (suffix : rest <:+ frame.stack) (value : Value) : (frame.leave rest value).HandlesIn paths := by
  refine within.advance fun path member => ?_
  rcases List.mem_cons.mp member with same | below
  · cases same
  · exact within.stack path (suffix.subset below)

theorem HandlesIn.goto (within : frame.HandlesIn paths) {labels : LabelTable} {label : Label}
    {rest : Stack} (suffix : rest <:+ frame.stack)
    (goes : frame.goto labels label rest = .ok next) : next.HandlesIn paths := by
  rw [Frame.goto] at goes
  cases entry : labels.entry? label with
  | none =>
    rw [entry] at goes
    cases goes
  | some place =>
    rw [entry] at goes
    cases goes
    exact ⟨fun path member => within.stack path (suffix.subset member), within.store⟩

theorem HandlesIn.save (within : frame.HandlesIn paths) {slot : Slot} {rest : Stack}
    (taken : frame.stack = slot :: rest) (name : String) :
    HandlesIn { frame.advance rest with store := frame.store.set name slot } paths := by
  constructor
  · intro path member
    exact within.stack path (taken ▸ List.mem_cons_of_mem _ member)
  · intro other path bound
    by_cases same : other = name
    · subst same
      rw [Store.get?_set_self] at bound
      cases bound
      exact within.stack path (taken ▸ List.mem_cons_self)
    · rw [Store.get?_set_of_ne _ _ same] at bound
      exact within.store other path bound

end Frame

theorem Stack.eq_of_pop {opcode : Opcode} {stack rest : Stack} {slot : Slot}
    (popped : Stack.pop opcode stack = .ok (slot, rest)) : stack = slot :: rest := by
  cases stack with
  | nil => cases popped
  | cons top below =>
    cases popped
    rfl

theorem Stack.TakesOne.suffix {α : Type} {opcode : Opcode}
    {pop : Stack → Except Cause (α × Stack)} (takes : Stack.TakesOne opcode pop)
    {stack rest : Stack} {operand : α} (popped : pop stack = .ok (operand, rest)) :
    rest <:+ stack := by
  cases stack with
  | nil =>
    rw [takes.empty] at popped
    cases popped
  | cons slot below =>
    rcases takes.top slot below with ⟨found, taken⟩ | ⟨expected, taken⟩
    · rw [taken] at popped
      cases popped
      exact List.suffix_cons slot _
    · rw [taken] at popped
      cases popped

namespace Instruction

variable {labels : LabelTable} {frame next : Frame} {paths : String → Prop} {α : Type}
variable {opcode : Opcode} {pop : Stack → Except Cause (α × Stack)}

theorem eq_of_atOnce {result : Except Cause Frame}
    (acts : atOnce result = .ok (.proceed next)) : result = .ok next := by
  cases result with
  | error cause => cases acts
  | ok frame =>
    cases acts
    rfl

theorem handlesIn_of_transform (takes : Stack.TakesOne opcode pop) {compute : α → Value}
    (within : frame.HandlesIn paths)
    (acts : atOnce (frame.transform pop compute) = .ok (.proceed next)) :
    next.HandlesIn paths := by
  obtain ⟨⟨operand, rest⟩, popped, made⟩ := bind_eq_ok.mp (eq_of_atOnce acts)
  cases made
  exact within.leave (takes.suffix popped) _

theorem handlesIn_of_combine (takes : Stack.TakesOne opcode pop)
    {compute : α → α → Except Cause Value} (within : frame.HandlesIn paths)
    (acts : atOnce (frame.combine pop compute) = .ok (.proceed next)) :
    next.HandlesIn paths := by
  obtain ⟨⟨rhs, below⟩, first, made⟩ := bind_eq_ok.mp (eq_of_atOnce acts)
  obtain ⟨⟨lhs, rest⟩, second, made⟩ := bind_eq_ok.mp made
  obtain ⟨value, computed, made⟩ := bind_eq_ok.mp made
  cases made
  exact within.leave ((takes.suffix second).trans (takes.suffix first)) _

/-- Going on at once, an instruction makes no handle of its own. -/
theorem handlesIn_of_proceed {i : Instruction} (within : frame.HandlesIn paths)
    (acts : i.act labels frame = .ok (.proceed next)) : next.HandlesIn paths := by
  have plain := isEffectful_of_proceed acts
  cases i with
  | push value =>
    cases acts
    exact within.leave List.suffix_rfl value
  | pop =>
    obtain ⟨⟨slot, rest⟩, popped, made⟩ := bind_eq_ok.mp (eq_of_atOnce acts)
    cases made
    exact within.advance_suffix ⟨[slot], (Stack.eq_of_pop popped).symm⟩
  | load name =>
    simp only [act] at acts
    cases bound : frame.store.get? name with
    | none =>
      rw [bound] at acts
      cases acts
    | some slot =>
      rw [bound] at acts
      cases acts
      refine within.advance fun path member => ?_
      rcases List.mem_cons.mp member with rfl | below
      · exact within.store name path bound
      · exact within.stack path below
  | save name =>
    obtain ⟨⟨slot, rest⟩, popped, made⟩ := bind_eq_ok.mp (eq_of_atOnce acts)
    cases made
    exact within.save (Stack.eq_of_pop popped) name
  | arithmetic operator tag =>
    cases tag with
    | int => exact handlesIn_of_combine (Stack.takesOne_popAs _ _ _) within acts
    | float => exact handlesIn_of_combine (Stack.takesOne_popAs _ _ _) within acts
  | modulo => exact handlesIn_of_combine (Stack.takesOne_popAs _ _ _) within acts
  | negate tag =>
    cases tag with
    | int => exact handlesIn_of_transform (Stack.takesOne_popAs _ _ _) within acts
    | float => exact handlesIn_of_transform (Stack.takesOne_popAs _ _ _) within acts
  | concat => exact handlesIn_of_combine (Stack.takesOne_popAs _ _ _) within acts
  | widen => exact handlesIn_of_transform (Stack.takesOne_popAs _ _ _) within acts
  | ordering operator tag =>
    cases tag with
    | int => exact handlesIn_of_combine (Stack.takesOne_popAs _ _ _) within acts
    | float => exact handlesIn_of_combine (Stack.takesOne_popAs _ _ _) within acts
  | equal tag =>
    cases tag with
    | int => exact handlesIn_of_combine (Stack.takesOne_popAs _ _ _) within acts
    | float => exact handlesIn_of_combine (Stack.takesOne_popAs _ _ _) within acts
    | string => exact handlesIn_of_combine (Stack.takesOne_popAs _ _ _) within acts
    | bool => exact handlesIn_of_combine (Stack.takesOne_popAs _ _ _) within acts
  | and => exact handlesIn_of_combine (Stack.takesOne_popAs _ _ _) within acts
  | or => exact handlesIn_of_combine (Stack.takesOne_popAs _ _ _) within acts
  | not => exact handlesIn_of_transform (Stack.takesOne_popAs _ _ _) within acts
  | label label =>
    cases acts
    exact within.advance_suffix List.suffix_rfl
  | jump label => exact within.goto List.suffix_rfl (eq_of_atOnce acts)
  | jumpIfFalse label =>
    obtain ⟨⟨condition, rest⟩, popped, made⟩ := bind_eq_ok.mp (eq_of_atOnce acts)
    have suffix := (Stack.takesOne_popAs _ _ _).suffix popped
    cases condition with
    | true =>
      cases made
      exact within.advance_suffix suffix
    | false => exact within.goto suffix made
  | print count => cases plain
  | read tag => cases plain
  | openFile => cases plain
  | appendFile count => cases plain

/-- An instruction that asks the host gains at most the file that it asks to create. -/
theorem Asks.handlesIn {i : Instruction} {request : Request}
    {resume : String → Except Cause Frame} (asks : i.Asks frame request resume)
    (within : frame.HandlesIn paths) {text : String} (resumed : resume text = .ok next) :
    next.HandlesIn fun path => paths path ∨ request = .create path := by
  cases asks with
  | print values rest taken =>
    cases resumed
    exact (within.advance_suffix ⟨_, taken.symm⟩).mono fun path => .inl
  | read tag =>
    dsimp only at resumed
    cases read : Value.ofReply tag text with
    | error cause =>
      rw [read] at resumed
      cases resumed
    | ok value =>
      rw [read] at resumed
      cases resumed
      exact (within.leave List.suffix_rfl value).mono fun path => .inl
  | openFile path rest taken =>
    cases resumed
    refine (within.mono fun path => .inl).advance fun other member => ?_
    rcases List.mem_cons.mp member with same | below
    · cases same
      exact .inr rfl
    · exact .inl (within.stack other (taken ▸ List.mem_cons_of_mem _ below))
  | appendFile values path rest taken =>
    cases resumed
    refine (within.mono fun path => .inl).advance fun other member => .inl ?_
    exact within.stack other (taken ▸ List.mem_append_right _ member)

end Instruction

end StackLang
