import Mathlib.Logic.Function.Basic
import StackLang.Proofs.Handles

/-!
# The files of a run

What a run does to files is a row of events: a file is opened, or values are
appended to one. A handle is only ever made by opening a file, and from then on it
is copied like any value, so the file of each handle that a run holds was opened
before. On a host that has a file for each path and refuses nothing, the events
therefore determine the files: one that was opened holds what was appended to it
since it was opened last, and any other file is as it was.
-/
namespace StackLang

/-- What an instruction does to a file. -/
inductive FileEvent where
  | opened (path : String)
  | appended (path : String) (values : List Value)

/-- What the host is asked for an event. -/
def FileEvent.request : FileEvent → Request
  | .opened path => .create path
  | .appended path values => .append path (values.map Value.text)

/-- The event of an instruction that takes its operands from the top of a stack; the values have
been pushed one by one on the file. -/
def Instruction.fileEvent? : Instruction → Stack → Option FileEvent
  | .openFile, .value (.string path) :: _ => some (.opened path)
  | .appendFile count, stack =>
    match stack.drop count with
    | .file path :: _ => some (.appended path ((stack.take count).reverse.filterMap Slot.value?))
    | _ => none
  | _, _ => none

namespace Instruction

theorem fileEvent?_of_not_effectful {i : Instruction} (plain : i.isEffectful = false)
    (stack : Stack) : i.fileEvent? stack = none := by
  cases i with
  | openFile => cases plain
  | appendFile count => cases plain
  | _ => rfl

theorem fileEvent?_appendFile (values : List Value) (path : String) (rest : Stack) :
    (appendFile values.length).fileEvent? (values.reverse.map Slot.value ++ .file path :: rest) =
      some (.appended path values) := by
  have length : (values.reverse.map Slot.value).length = values.length := by simp
  have plain : (values.reverse.map Slot.value).reverse.filterMap Slot.value? = values := by
    rw [← List.map_reverse, List.reverse_reverse, List.filterMap_map]
    exact List.filterMap_some
  rw [fileEvent?, ← length, List.drop_left, List.take_left, plain]

variable {i : Instruction} {frame : Frame} {request : Request}
variable {resume : String → Except Cause Frame}

theorem Asks.fileEvent?_create {path : String} (asks : i.Asks frame (.create path) resume) :
    i.fileEvent? frame.stack = some (.opened path) := by
  cases asks with
  | openFile path rest taken =>
    rw [taken]
    rfl

/-- The file that is appended to is held. -/
theorem Asks.held_of_append {path : String} {texts : List String}
    (asks : i.Asks frame (.append path texts) resume) : .file path ∈ frame.stack := by
  cases asks with
  | appendFile values path rest taken =>
    rw [taken]
    exact List.mem_append_right _ List.mem_cons_self

/-- An instruction that has an event asks for it. -/
theorem Asks.request_of_event (asks : i.Asks frame request resume) {event : FileEvent}
    (happens : i.fileEvent? frame.stack = some event) : request = event.request := by
  cases asks with
  | print values rest taken => cases happens
  | read tag => cases happens
  | openFile path rest taken =>
    rw [taken] at happens
    cases happens
    rfl
  | appendFile values path rest taken =>
    rw [taken, fileEvent?_appendFile] at happens
    cases happens
    rfl

end Instruction

namespace FileEvent

/-- The texts, each with a line end. -/
def lines (texts : List String) : Bytes :=
  (texts.flatMap fun text => Text.encode (text ++ "\n")).toArray

/-- What an event makes of the files. -/
def apply (contents : String → Option Bytes) : FileEvent → String → Option Bytes
  | .opened path => Function.update contents path (some #[])
  | .appended path values =>
    Function.update contents path ((contents path).map (· ++ lines (values.map Value.text)))

/-- The values that events append to the file at a path, whatever handle it is by. -/
def appendedTo (path : String) (events : List FileEvent) : List Value :=
  events.flatMap fun
    | .opened _ => []
    | .appended other values => if other = path then values else []

/-- Nothing is appended to a file before it has been opened. -/
def Grounded (events : List FileEvent) : Prop :=
  ∀ before path values after, events = before ++ .appended path values :: after →
    .opened path ∈ before

theorem lines_append (first second : List String) :
    lines (first ++ second) = lines first ++ lines second := by
  simp [lines]

variable {events : List FileEvent} {path : String} {contents : String → Option Bytes}

theorem grounded_nil : Grounded [] := by
  intro before path values after split
  cases before <;> cases split

theorem Grounded.snoc (grounded : Grounded events) {event : FileEvent}
    (known : ∀ path values, event = .appended path values → .opened path ∈ events) :
    Grounded (events ++ [event]) := by
  intro before path values after split
  rcases List.eq_nil_or_concat after with rfl | ⟨front, last, rfl⟩
  · obtain ⟨rfl, same⟩ := List.append_inj' split rfl
    cases same
    exact known path values rfl
  · have regrouped : events ++ [event] = (before ++ .appended path values :: front) ++ [last] := by
      rw [split, List.concat_eq_append, List.append_assoc]
      rfl
    obtain ⟨same, _⟩ := List.append_inj' regrouped rfl
    exact grounded before path values front same

/-- Where a file was opened last, it holds what has been appended to it since. -/
theorem foldl_apply_of_not_reopened {held : Bytes} (holds : contents path = some held)
    (kept : .opened path ∉ events) :
    events.foldl apply contents path =
      some (held ++ lines ((appendedTo path events).map Value.text)) := by
  induction events generalizing contents held with
  | nil => simp [appendedTo, lines, holds]
  | cons event rest ih =>
    have later : .opened path ∉ rest := fun member => kept (List.mem_cons_of_mem _ member)
    cases event with
    | opened other =>
      have differs : path ≠ other := by
        rintro rfl
        exact kept List.mem_cons_self
      exact ih (by rw [apply, Function.update_of_ne differs, holds]) later
    | appended other values =>
      by_cases same : other = path
      · subst same
        have now : apply contents (.appended other values) other =
            some (held ++ lines (values.map Value.text)) := by
          rw [apply, Function.update_self, holds]
          rfl
        rw [List.foldl_cons, ih now later, Array.append_assoc, ← lines_append, ← List.map_append]
        simp [appendedTo]
      · rw [List.foldl_cons, ih (by rw [apply, Function.update_of_ne (Ne.symm same), holds]) later]
        simp [appendedTo, same]

/-- A file that was opened was opened some last time. -/
theorem exists_last_opened (opened : .opened path ∈ events) :
    ∃ before since, events = before ++ .opened path :: since ∧ .opened path ∉ since := by
  induction events with
  | nil => cases opened
  | cons event rest ih =>
    by_cases again : .opened path ∈ rest
    · obtain ⟨before, since, rfl, kept⟩ := ih again
      exact ⟨event :: before, since, rfl, kept⟩
    · rcases List.mem_cons.mp opened with rfl | later
      · exact ⟨[], rest, rfl, again⟩
      · exact absurd later again

theorem foldl_apply_of_last_opened {before since : List FileEvent}
    (split : events = before ++ .opened path :: since) (kept : .opened path ∉ since) :
    events.foldl apply contents path = some (lines ((appendedTo path since).map Value.text)) := by
  have emptied : apply (before.foldl apply contents) (.opened path) path = some #[] :=
    Function.update_self ..
  rw [split, List.foldl_append, List.foldl_cons, foldl_apply_of_not_reopened emptied kept,
    Array.empty_append]

/-- A file that is never opened is never appended to either. -/
theorem foldl_apply_of_not_opened (grounded : Grounded events) (kept : .opened path ∉ events) :
    events.foldl apply contents path = contents path := by
  have unwritten : ∀ values, .appended path values ∉ events := by
    intro values member
    obtain ⟨before, after, split⟩ := List.append_of_mem member
    have known := grounded before path values after split
    exact kept (split ▸ List.mem_append_left _ known)
  clear grounded
  induction events generalizing contents with
  | nil => rfl
  | cons event rest ih =>
    have untouched : apply contents event path = contents path := by
      cases event with
      | opened other =>
        have differs : path ≠ other := by
          rintro rfl
          exact kept List.mem_cons_self
        rw [apply, Function.update_of_ne differs]
      | appended other values =>
        have differs : path ≠ other := by
          rintro rfl
          exact unwritten values List.mem_cons_self
        rw [apply, Function.update_of_ne differs]
    rw [List.foldl_cons, ih (fun member => kept (List.mem_cons_of_mem _ member))
      fun values member => unwritten values (List.mem_cons_of_mem _ member), untouched]

end FileEvent

/-- A host with a file of its own for each path, which only the requests of the run change. It
refuses to create no file, and to append to none that is there. -/
structure FlatFiles (World : Type) [Host World] where
  content : World → String → Option Bytes
  create : ∀ (world : World) (path : String), ∃ text later,
    Host.perform (.create path) world = (.ok text, later) ∧
      content later = Function.update (content world) path (some #[])
  append : ∀ (world : World) (path : String) (texts : List String) (held : Bytes),
    content world path = some held → ∃ text later,
      Host.perform (.append path texts) world = (.ok text, later) ∧
        content later =
          Function.update (content world) path (some (held ++ FileEvent.lines texts))
  print : ∀ (world : World) (text : String),
    content (Host.perform (.print text) world).2 = content world
  readLine : ∀ world : World, content (Host.perform .readLine world).2 = content world
  flush : ∀ world : World, content (Host.perform .flush world).2 = content world

namespace Machine

variable {machine : Machine} {frame next : Frame}

/-- What the instruction of a frame does to a file, if it goes through. -/
def fileEvent? (machine : Machine) (frame : Frame) : Option FileEvent :=
  machine.program.instructions[frame.place]?.bind (·.fileEvent? frame.stack)

variable {World : Type} [Host World] {world later : World}

/-- What the steps of a run that have gone through have done to files. -/
def history (machine : Machine) : Nat → Frame → World → List FileEvent
  | 0, _, _ => []
  | n + 1, frame, world =>
    match machine.step frame world with
    | (.running next, later) =>
      (machine.fileEvent? frame).toList ++ machine.history n next later
    | _ => []

section Events

variable {i : Instruction}

theorem fileEvent?_of_found (found : machine.program.instructions[frame.place]? = some i) :
    machine.fileEvent? frame = i.fileEvent? frame.stack := by
  rw [fileEvent?, found]
  rfl

/-- A handle that a step leaves was held before, or is of the file the step opened. -/
theorem handlesIn_of_step {paths : String → Prop} (within : frame.HandlesIn paths)
    (stepped : machine.step frame world = (.running next, later)) :
    next.HandlesIn fun path => paths path ∨ machine.fileEvent? frame = some (.opened path) := by
  rcases running_cases stepped with ⟨i, _, acts, _⟩ | ⟨i, _, _, _, found, asks, _, resumed⟩
  · exact (Instruction.handlesIn_of_proceed within acts).mono fun path => .inl
  · rw [fileEvent?_of_found found]
    refine (asks.handlesIn within resumed).mono fun path => Or.imp_right ?_
    rintro rfl
    exact asks.fileEvent?_create

/-- The event of a step that goes on is one that the host has granted. -/
theorem granted_of_event (stepped : machine.step frame world = (.running next, later))
    {event : FileEvent} (happens : machine.fileEvent? frame = some event) :
    ∃ (i : Instruction) (next : String → Except Cause Frame) (text : String),
      i.Asks frame event.request next ∧
      Host.perform event.request world = (.ok text, later) := by
  rcases running_cases stepped with
    ⟨i, found, acts, _⟩ | ⟨i, _, resume, text, found, asks, performed, _⟩
  · rw [fileEvent?_of_found found,
      Instruction.fileEvent?_of_not_effectful (Instruction.isEffectful_of_proceed acts)] at happens
    cases happens
  · rw [fileEvent?_of_found found] at happens
    obtain rfl := asks.request_of_event happens
    exact ⟨i, resume, text, asks, performed⟩

/-- The host is asked to append to a file only if its handle is held. -/
theorem held_of_append {path : String} {texts : List String} {resume : Reply → Status}
    (moves : machine.move frame = .ask (.append path texts) resume) : .file path ∈ frame.stack := by
  rcases asks_of_move moves with ⟨_, same⟩ | ⟨i, _, _, asks, _⟩
  · cases same
  · exact asks.held_of_append

end Events

section Contents

variable (files : FlatFiles World)

/-- A step that goes on makes of the files what its event says. -/
theorem content_of_running
    (within : frame.HandlesIn fun path => ∃ held, files.content world path = some held)
    (stepped : machine.step frame world = (.running next, later)) :
    files.content later =
      (machine.fileEvent? frame).toList.foldl FileEvent.apply (files.content world) := by
  rcases running_cases stepped with ⟨i, found, acts, rfl⟩ | ⟨i, _, _, _, found, asks, performed, _⟩
  · rw [fileEvent?_of_found found,
      Instruction.fileEvent?_of_not_effectful (Instruction.isEffectful_of_proceed acts)]
    rfl
  · rw [fileEvent?_of_found found]
    cases asks with
    | print values rest taken =>
      have kept := files.print world (" ".intercalate (values.map Value.text))
      rw [performed] at kept
      exact kept
    | read tag =>
      have kept := files.readLine world
      rw [performed] at kept
      exact kept
    | openFile path rest taken =>
      obtain ⟨text, after, granted, made⟩ := files.create world path
      rw [granted] at performed
      cases performed
      rw [taken]
      exact made
    | appendFile values path rest taken =>
      obtain ⟨held, holds⟩ := within.stack path
        (Instruction.Asks.appendFile values path rest taken).held_of_append
      obtain ⟨text, after, granted, made⟩ :=
        files.append world path (values.map Value.text) held holds
      rw [granted] at performed
      cases performed
      rw [taken, Instruction.fileEvent?_appendFile, made, Option.toList_some, List.foldl_cons,
        List.foldl_nil, FileEvent.apply, holds]
      rfl

/-- The step that ends a run leaves the files alone. -/
theorem content_of_ended
    (within : frame.HandlesIn fun path => ∃ held, files.content world path = some held)
    {status : Status} (stepped : machine.step frame world = (status, later))
    (still : ∀ f, status ≠ .running f) : files.content later = files.content world := by
  rcases moves : machine.move frame with other | ⟨request, resume⟩
  · rw [step_of_to moves] at stepped
    cases stepped
    rfl
  · have after : (Host.perform request world).2 = later := by
      rw [step_of_asks moves rfl] at stepped
      exact congrArg Prod.snd stepped
    rcases asks_of_move moves with ⟨_, rfl⟩ | ⟨i, resume, found, asks, rfl⟩
    · exact after ▸ files.flush world
    · cases asks with
      | print values rest taken => exact after ▸ files.print world _
      | read tag => exact after ▸ files.readLine world
      | openFile path rest taken =>
        obtain ⟨text, after, granted, _⟩ := files.create world path
        rw [step_of_asks moves granted] at stepped
        cases stepped
        exact absurd rfl (still _)
      | appendFile values path rest taken =>
        obtain ⟨held, holds⟩ := within.stack path
          (taken ▸ List.mem_append_right _ List.mem_cons_self)
        obtain ⟨text, after, granted, _⟩ :=
          files.append world path (values.map Value.text) held holds
        rw [step_of_asks moves granted] at stepped
        cases stepped
        exact absurd rfl (still _)

end Contents

section Runs

variable {last : Frame} {n : Nat} {events : List FileEvent}

theorem history_succ_of_running (n : Nat)
    (stepped : machine.step frame world = (.running next, later)) :
    machine.history (n + 1) frame world =
      (machine.fileEvent? frame).toList ++ machine.history n next later := by
  rw [history, stepped]

theorem history_succ_of_ended (n : Nat) {status : Status}
    (stepped : machine.step frame world = (status, later)) (still : ∀ f, status ≠ .running f) :
    machine.history (n + 1) frame world = [] := by
  rw [history, stepped]
  cases status with
  | running frame => exact absurd rfl (still frame)
  | finished store => rfl
  | failed fault => rfl

/-- What every step keeps, given what was done to files before it, holds along a run. -/
theorem history_invariant {P : List FileEvent → Frame → World → Prop}
    (kept : ∀ events frame next, ∀ world later : World, P events frame world →
      machine.step frame world = (.running next, later) →
      P (events ++ (machine.fileEvent? frame).toList) next later)
    (start : P events frame world) (going : machine.run n frame world = (.running last, later)) :
    P (events ++ machine.history n frame world) last later := by
  induction n generalizing events frame world with
  | zero =>
    cases going
    rw [history, List.append_nil]
    exact start
  | succ n ih =>
    rcases run_succ_cases machine n frame world with
      ⟨first, after, stepped, run⟩ | ⟨status, after, stepped, still, run⟩
    · rw [history_succ_of_running n stepped, ← List.append_assoc]
      exact ih (kept events frame first world after start stepped) (run ▸ going)
    · rw [run] at going
      cases going
      exact absurd rfl (still last)

/-- A run has come to some frame; it stands there, or it ended in the step from it, which is no part
of what the run has done to files. -/
theorem exists_last_frame (machine : Machine) (n : Nat) (frame : Frame) (world : World) :
    ∃ m last between, machine.run m frame world = (.running last, between) ∧
      machine.history n frame world = machine.history m frame world ∧
      (machine.run n frame world = (.running last, between) ∨
        ∃ status later, machine.step last between = (status, later) ∧
          (∀ f, status ≠ .running f) ∧ machine.run n frame world = (status, later)) := by
  induction n generalizing frame world with
  | zero => exact ⟨0, frame, world, rfl, rfl, .inl rfl⟩
  | succ n ih =>
    rcases run_succ_cases machine n frame world with
      ⟨first, after, stepped, run⟩ | ⟨status, after, stepped, still, run⟩
    · obtain ⟨m, last, between, going, same, stands⟩ := ih first after
      refine ⟨m + 1, last, between, ?_, ?_, run ▸ stands⟩
      · rw [run_succ_of_running m stepped, going]
      · rw [history_succ_of_running n stepped, history_succ_of_running m stepped, same]
    · refine ⟨0, frame, world, rfl, ?_, .inr ⟨status, after, stepped, still, run⟩⟩
      rw [history_succ_of_ended n stepped still, history]

/-- Where a run stands, it holds files that were opened, and nothing else was appended to. -/
structure Accounts (events : List FileEvent) (frame : Frame) : Prop where
  grounded : FileEvent.Grounded events
  within : frame.HandlesIn fun path => .opened path ∈ events

theorem Accounts.step (accounts : Accounts events frame)
    (stepped : machine.step frame world = (.running next, later)) :
    Accounts (events ++ (machine.fileEvent? frame).toList) next := by
  have handles := handlesIn_of_step accounts.within stepped
  cases event : machine.fileEvent? frame with
  | none =>
    rw [event] at handles
    rw [Option.toList_none, List.append_nil]
    exact ⟨accounts.grounded, handles.mono fun path known => known.resolve_right (by simp)⟩
  | some done =>
    rw [event] at handles
    rw [Option.toList_some]
    constructor
    · refine accounts.grounded.snoc ?_
      rintro path values rfl
      obtain ⟨i, _, _, asks, _⟩ := granted_of_event stepped event
      exact accounts.within.stack path asks.held_of_append
    · refine handles.mono fun path known => ?_
      rcases known with before | opens
      · exact List.mem_append_left _ before
      · cases opens
        exact List.mem_append_right _ List.mem_cons_self

/-- A file that was opened is there. -/
theorem Accounts.created (accounts : Accounts events frame) {files : FlatFiles World}
    {contents : String → Option Bytes}
    (content : files.content later = events.foldl FileEvent.apply contents) :
    frame.HandlesIn fun path => ∃ held, files.content later path = some held := by
  refine accounts.within.mono fun path opened => ?_
  obtain ⟨before, since, split, kept⟩ := FileEvent.exists_last_opened opened
  exact ⟨_, content ▸ FileEvent.foldl_apply_of_last_opened split kept⟩

theorem accounts_of_run (going : machine.run n .start world = (.running frame, later)) :
    Accounts (machine.history n .start world) frame := by
  have start : Accounts [] .start := ⟨FileEvent.grounded_nil, Frame.handlesIn_start⟩
  exact history_invariant (P := fun events frame _ => Accounts events frame)
    (fun events frame next world later accounts stepped => accounts.step stepped) start going

/-- Every event of a run is one that the host has granted in a step of it. -/
theorem granted_of_history {event : FileEvent} (done : event ∈ machine.history n frame world) :
    ∃ m last between text later, m < n ∧ machine.run m frame world = (.running last, between) ∧
      machine.fileEvent? last = some event ∧
      Host.perform event.request between = (.ok text, later) := by
  induction n generalizing frame world with
  | zero => cases done
  | succ n ih =>
    rcases run_succ_cases machine n frame world with
      ⟨first, after, stepped, run⟩ | ⟨status, after, stepped, still, run⟩
    · rw [history_succ_of_running n stepped] at done
      rcases List.mem_append.mp done with now | later
      · have happens := Option.mem_toList.mp now
        obtain ⟨_, _, text, _, granted⟩ := granted_of_event stepped happens
        exact ⟨0, frame, world, text, after, Nat.succ_pos n, rfl, happens, granted⟩
      · obtain ⟨m, last, between, text, later, earlier, going, happens, granted⟩ := ih later
        refine ⟨m + 1, last, between, text, later, Nat.succ_lt_succ earlier, ?_, happens, granted⟩
        rw [run_succ_of_running m stepped, going]
    · rw [history_succ_of_ended n stepped still] at done
      cases done

/-- As long as a run goes on, the files are what its history makes of them. -/
theorem content_of_run (files : FlatFiles World)
    (going : machine.run n .start world = (.running frame, later)) :
    files.content later =
      (machine.history n .start world).foldl FileEvent.apply (files.content world) := by
  have start : Accounts [] .start ∧ files.content world = files.content world :=
    ⟨⟨FileEvent.grounded_nil, Frame.handlesIn_start⟩, rfl⟩
  refine (history_invariant (P := fun events frame later => Accounts events frame ∧
    files.content later = events.foldl FileEvent.apply (files.content world)) ?_ start going).2
  rintro events frame next between later ⟨accounts, content⟩ stepped
  refine ⟨accounts.step stepped, ?_⟩
  rw [content_of_running files (accounts.created content) stepped, List.foldl_append, content]

/-- When a run has ended too, the files are what its history makes of them. -/
theorem content_of_history (files : FlatFiles World) (machine : Machine) (n : Nat)
    (world : World) :
    files.content (machine.run n .start world).2 =
      (machine.history n .start world).foldl FileEvent.apply (files.content world) := by
  obtain ⟨m, last, between, going, same, now | ⟨status, later, stepped, still, ended⟩⟩ :=
    exists_last_frame machine n .start world
  · rw [now, same, content_of_run files going]
  · have content := content_of_run files going
    have within := (accounts_of_run going).created content
    rw [ended, same, content_of_ended files within stepped still, content]

theorem grounded_of_history (machine : Machine) (n : Nat) (world : World) :
    FileEvent.Grounded (machine.history n .start world) := by
  obtain ⟨m, last, between, going, same, _⟩ := exists_last_frame machine n .start world
  rw [same]
  exact (accounts_of_run going).grounded

/-- The store that a finished run leaves holds files that were opened. -/
theorem opened_of_finished {store : Store}
    (finished : machine.run n .start world = (.finished store, later)) {name path : String}
    (bound : store.get? name = some (.file path)) :
    .opened path ∈ machine.history n .start world := by
  obtain ⟨m, last, between, going, same, now | ⟨status, after, stepped, still, ended⟩⟩ :=
    exists_last_frame machine n .start world
  · rw [finished] at now
    cases now
  · cases finished.symm.trans ended
    obtain ⟨_, rfl⟩ := left_of_step stepped
    rw [same]
    exact (accounts_of_run going).within.store name path bound

end Runs

/--
Whatever a run has done so far: each of its events is one the host has granted in a step of it, and
a file is appended to only after it was opened. Every handle on the stack or in the store, at the
end of the run too, is of a file that was opened before, as is every file that the host is asked to
append to. On a host that has a file for each path and refuses nothing, a file that was opened
holds the values appended to it since it was opened last, each on a line, in the order of the steps
and within a step as they were pushed; any other file is as it was.
-/
theorem files_confined_lossless (machine : Machine) {World : Type} [Host World] (world : World)
    (n : Nat) :
    let events := machine.history n .start world
    (∀ event ∈ events, ∃ m frame between text later, m < n ∧
      machine.run m .start world = (.running frame, between) ∧
      machine.fileEvent? frame = some event ∧
      Host.perform event.request between = (.ok text, later)) ∧
    FileEvent.Grounded events ∧
    (∀ frame later, machine.run n .start world = (.running frame, later) →
      frame.HandlesIn (fun path => .opened path ∈ events) ∧
      ∀ path texts resume, machine.move frame = .ask (.append path texts) resume →
        .opened path ∈ events) ∧
    (∀ store later, machine.run n .start world = (.finished store, later) →
      ∀ name path, store.get? name = some (.file path) → .opened path ∈ events) ∧
    ∀ (files : FlatFiles World) (path : String),
      (∀ before since, events = before ++ .opened path :: since → .opened path ∉ since →
        files.content (machine.run n .start world).2 path =
          some (FileEvent.lines ((FileEvent.appendedTo path since).map Value.text))) ∧
      (.opened path ∉ events →
        files.content (machine.run n .start world).2 path = files.content world path) := by
  intro events
  refine ⟨fun event => granted_of_history, grounded_of_history machine n world,
    fun frame later going => ?_, fun store later finished name path => opened_of_finished finished,
    fun files path => ?_⟩
  · have within := (accounts_of_run going).within
    exact ⟨within, fun path texts resume moves => within.stack path (held_of_append moves)⟩
  · rw [content_of_history files machine n world]
    exact ⟨fun before since split kept => FileEvent.foldl_apply_of_last_opened split kept,
      FileEvent.foldl_apply_of_not_opened (grounded_of_history machine n world)⟩

end Machine

/-- A disk where every path is a file of its own. -/
structure FlatDisk where
  content : String → Option Bytes

namespace FlatDisk

instance : Disk FlatDisk where
  create path disk := .ok ⟨Function.update disk.content path (some #[])⟩
  append path bytes disk :=
    match disk.content path with
    | some held => .ok ⟨Function.update disk.content path (some (held ++ bytes))⟩
    | none => .error .notFound

theorem foldl_lineBytes (held : Bytes) (texts : List String) :
    (texts.map lineBytes).foldl (· ++ ·) held = held ++ FileEvent.lines texts := by
  induction texts generalizing held with
  | nil => simp [FileEvent.lines]
  | cons text rest ih =>
    rw [List.map_cons, List.foldl_cons, ih, ← List.singleton_append, FileEvent.lines_append,
      Array.append_assoc]
    simp [FileEvent.lines, lineBytes]

def files : FlatFiles (Sandbox FlatDisk) where
  content sandbox := sandbox.files.content
  create world path := ⟨"", _, rfl, rfl⟩
  append world path texts held holds := by
    have granted : Disk.append path ((texts.map lineBytes).foldl (· ++ ·) #[]) world.files =
        .ok ⟨Function.update world.files.content path (some (held ++ FileEvent.lines texts))⟩ := by
      rw [foldl_lineBytes, Array.empty_append]
      simp only [Disk.append, holds]
    refine ⟨"", { world with files := ⟨_⟩ }, ?_, rfl⟩
    change Sandbox.store world _ = _
    rw [granted]
    rfl
  print _ _ := rfl
  readLine _ := rfl
  flush _ := rfl

end FlatDisk

/-- A handle is saved, and both the slot that is left and the variable are appended to. -/
theorem Machine.files_confined_lossless_two_handles :
    let program : Program := .ofList [.push (.string "f"), .openFile, .save "h", .load "h",
      .push (.int 1), .push (.string "x"), .appendFile 2, .save "again", .load "h",
      .push (.bool true), .appendFile 1, .pop]
    let machine : Machine := ⟨program, .empty⟩
    let world : Sandbox FlatDisk := ⟨[], .unlimited, ⟨fun _ => none⟩⟩
    Machine.load program = .ok machine ∧
      (∃ frame later, machine.run 6 .start world = (.running frame, later) ∧
        frame.HandlesIn fun path => .opened path ∈ machine.history 6 .start world) ∧
      (∃ store later, machine.run 13 .start world = (.finished store, later) ∧
        store.get? "again" = some (.file "f") ∧
        .opened "f" ∈ machine.history 13 .start world) ∧
      machine.history 13 .start world = [.opened "f", .appended "f" [.int 1, .string "x"],
        .appended "f" [.bool true]] ∧
      FlatDisk.files.content (machine.run 13 .start world).2 "f" =
        some (FileEvent.lines (([.int 1, .string "x", .bool true] : List Value).map Value.text)) ∧
      FlatDisk.files.content (machine.run 13 .start world).2 "g" = none := by
  intro program machine world
  obtain ⟨frame, between, going⟩ : ∃ frame between,
      machine.run 6 .start world = (.running frame, between) := ⟨_, _, rfl⟩
  obtain ⟨store, later, finished, bound⟩ : ∃ store later,
      machine.run 13 .start world = (.finished store, later) ∧
      store.get? "again" = some (.file "f") := ⟨_, _, rfl, rfl⟩
  have events : machine.history 13 .start world = [.opened "f",
      .appended "f" [.int 1, .string "x"], .appended "f" [.bool true]] := rfl
  obtain ⟨_, _, holds, _⟩ := files_confined_lossless machine world 6
  obtain ⟨_, _, _, left, content⟩ := files_confined_lossless machine world 13
  have unopened : .opened "g" ∉ machine.history 13 .start world := by
    rw [events]
    simp
  refine ⟨rfl, ⟨frame, between, going, (holds frame between going).1⟩,
    ⟨store, later, finished, bound, left store later finished "again" "f" bound⟩, events, ?_,
    (content FlatDisk.files "g").2 unopened⟩
  exact (content FlatDisk.files "f").1 [] _ events (by simp)

end StackLang
