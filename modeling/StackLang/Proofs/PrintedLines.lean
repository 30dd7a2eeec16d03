import StackLang.Files
import StackLang.Proofs.GeneratedLabels
import StackLang.Proofs.Runs
import StackLang.Proofs.WrittenWords
import StackLang.Sandbox

/-!
# Printed lines are read back

A value that is printed by itself is a line of the output, unless it is a string
with a line feed in it. A line that is read has its line end taken off, and any
carriage returns before it too, so a string must not end in one. Of such values
nothing is lost: code that reads as many lines, each as the type of the value that
was printed, binds just these values, and it leaves nothing of the output.
-/
namespace StackLang

namespace Text

theorem encode_eq (text : String) : encode text = text.toList.flatMap String.utf8EncodeChar := by
  rw [encode, String.toUTF8, ← String.utf8Encode_toList, List.utf8Encode]
  simp

theorem encode_append (text more : String) :
    encode (text ++ more) = encode text ++ encode more := by
  simp [encode_eq]

/-- The byte of the line feed is no part of another character. -/
theorem eq_newline_of_mem {c : Char} (member : 10 ∈ String.utf8EncodeChar c) : c = '\n' := by
  have known {n : Nat} (same : (10 : UInt8) = UInt8.ofNat n) : n % 256 = 10 := by
    have numbers := congrArg UInt8.toNat same
    simpa using numbers.symm
  rw [String.utf8EncodeChar] at member
  -- Every byte of a longer character is at least 128.
  split at member
  · have number := known (List.mem_singleton.mp member)
    apply Char.toNat_inj.mp
    change c.val.toNat = 10
    omega
  · split at member
    · simp only [List.mem_cons, List.not_mem_nil, or_false] at member
      rcases member with same | same <;> have number := known same <;> omega
    · split at member
      · simp only [List.mem_cons, List.not_mem_nil, or_false] at member
        rcases member with same | same | same <;> have number := known same <;> omega
      · simp only [List.mem_cons, List.not_mem_nil, or_false] at member
        rcases member with same | same | same | same <;> have number := known same <;> omega

theorem not_mem_encode {text : String} (plain : '\n' ∉ text.toList) : 10 ∉ encode text := by
  rw [encode_eq]
  intro member
  obtain ⟨c, inside, byte⟩ := List.mem_flatMap.mp member
  exact plain (eq_newline_of_mem byte ▸ inside)

theorem encode_newline : encode "\n" = [10] := by
  decide

/-- The line end goes, and nothing before it that is not part of it. -/
theorem dropLineEnd_append {text : List Char}
    (last : ∀ c, text.getLast? = some c → c ≠ '\n' ∧ c ≠ '\r') :
    dropLineEnd (text ++ ['\n']) = text := by
  have kept : text.reverse.dropWhile (fun c => c == '\n' || c == '\r') = text.reverse := by
    cases reversed : text.reverse with
    | nil => rfl
    | cons c rest =>
      have ends : text.getLast? = some c := by
        rw [← List.head?_reverse, reversed]
        rfl
      obtain ⟨noFeed, noReturn⟩ := last c ends
      rw [List.dropWhile_cons_of_neg (by simp [noFeed, noReturn])]
  rw [dropLineEnd, List.reverse_append, List.reverse_singleton, List.singleton_append,
    List.dropWhile_cons_of_pos (by decide), kept, List.reverse_reverse]

end Text

/-- A line and its line end are what is read of them and anything behind. -/
theorem splitLine_of_line {bytes : List UInt8} (plain : 10 ∉ bytes) (rest : List UInt8) :
    splitLine (bytes ++ 10 :: rest) = (bytes ++ [10], rest) := by
  induction bytes with
  | nil => simp [splitLine]
  | cons byte bytes ih =>
    have differs : byte ≠ 10 := fun same => plain (same ▸ List.mem_cons_self)
    have line := ih fun member => plain (List.mem_cons_of_mem _ member)
    rw [List.cons_append, splitLine, if_neg differs, line]
    rfl

/-- A line that was printed is read as its text and the line end. -/
theorem splitLine_lineBytes {text : String} (plain : '\n' ∉ text.toList) (rest : List UInt8) :
    splitLine ((lineBytes text).toList ++ rest) = ((lineBytes text).toList, rest) := by
  have line : (lineBytes text).toList = Text.encode text ++ [10] := by
    rw [lineBytes, Text.encode_append, Text.encode_newline]
  rw [line, List.append_assoc]
  exact splitLine_of_line (Text.not_mem_encode plain) rest

theorem lineReply_lineBytes (text : String) :
    lineReply (lineBytes text).toList = .ok (text ++ "\n") := by
  rw [lineReply, lineBytes, Text.decode?_encode]

/-- The text of the value is a line that gives nothing up when its line end is taken off. -/
def Value.FitsLine : Value → Prop
  | .string text => '\n' ∉ text.toList ∧ text.toList.getLast? ≠ some '\r'
  | _ => True

namespace Value

open Text

theorem isLiteral_text (value : Value) (noString : value.tag ≠ .string) :
    IsLiteral value.text.toList := by
  cases value with
  | int n =>
    rw [text, String.toList_ofList]
    exact (isWord_signedDecimal _).isLiteral
  | float x =>
    rw [text, String.toList_ofList]
    exact (Decimal.isWord_write (.inl rfl) x).isLiteral
  | bool b =>
    have word : IsWord (boolText b).toList := by cases b <;> exact ⟨by decide, by decide⟩
    exact word.isLiteral
  | string s => exact absurd rfl noString

theorem FitsLine.plain {value : Value} (fits : value.FitsLine) : '\n' ∉ value.text.toList := by
  by_cases noString : value.tag = .string
  · cases value with
    | string s => exact fits.1
    | _ => cases noString
  · intro member
    exact ((isLiteral_text value noString).noLineEnd '\n' member).1 rfl

theorem FitsLine.last {value : Value} (fits : value.FitsLine) :
    ∀ c, value.text.toList.getLast? = some c → c ≠ '\n' ∧ c ≠ '\r' := by
  intro c ends
  refine ⟨fun same => fits.plain (same ▸ List.mem_of_getLast? ends), ?_⟩
  by_cases noString : value.tag = .string
  · cases value with
    | string s =>
      rintro rfl
      exact fits.2 ends
    | _ => cases noString
  · exact ((isLiteral_text value noString).noLineEnd c (List.mem_of_getLast? ends)).2

/-- The text of a value, as a line, denotes the value. -/
theorem ofLine_text {value : Value} (fits : value.FitsLine) :
    ofLine value.tag (value.text ++ "\n") = .ok value := by
  have whole : dropLineEnd (value.text ++ "\n").toList = value.text.toList := by
    rw [String.toList_append]
    exact dropLineEnd_append fits.last
  unfold ofLine
  rw [whole]
  cases value with
  | int n =>
    have trimmed := (isLiteral_text (.int n) fun same => by cases same).trim
    dsimp only [tag]
    rw [trimmed, text, String.toList_ofList, readInt64?_signedDecimal]
    rfl
  | float x =>
    have trimmed := (isLiteral_text (.float x) fun same => by cases same).trim
    dsimp only [tag]
    rw [trimmed, text, String.toList_ofList, Decimal.read?_write (.inl rfl)]
    rfl
  | bool b => cases b <;> rfl
  | string s =>
    dsimp only [tag]
    rw [text, String.ofList_toList]

theorem ofReply_text {value : Value} (fits : value.FitsLine) :
    ofReply value.tag (value.text ++ "\n") = .ok value := by
  have some : (value.text ++ "\n").isEmpty = false := by simp
  rw [ofReply, some]
  exact ofLine_text fits

end Value

/-- Prints each of the values on a line of its own. -/
def printing (values : List Value) : List Instruction :=
  values.flatMap fun value => [.push value, .print 1]

/-- Reads a line for each of the names, as the type of the value beside it. -/
def reading (bindings : List (String × Value)) : List Instruction :=
  bindings.flatMap fun binding => [.read binding.2.tag, .save binding.1]

/-- The values, each on a line. -/
def printedLines (values : List Value) : List UInt8 :=
  values.flatMap fun value => (lineBytes value.text).toList

/-- The store with the values saved under their names, one by one. -/
def Store.setAll (store : Store) (bindings : List (String × Value)) : Store :=
  bindings.foldl (fun store binding => store.set binding.1 (.value binding.2)) store

namespace Store

variable {store : Store} {bindings : List (String × Value)} {name : String}

theorem get?_setAll_of_not_mem (unnamed : name ∉ bindings.map Prod.fst) :
    (store.setAll bindings).get? name = store.get? name := by
  induction bindings generalizing store with
  | nil => rfl
  | cons binding rest ih =>
    have differs : name ≠ binding.1 := fun same => unnamed (same ▸ List.mem_cons_self)
    rw [setAll, List.foldl_cons]
    exact (ih fun member => unnamed (List.mem_cons_of_mem _ member)).trans
      (get?_set_of_ne _ _ differs)

theorem get?_setAll_of_mem (distinct : (bindings.map Prod.fst).Nodup) {value : Value}
    (member : (name, value) ∈ bindings) :
    (store.setAll bindings).get? name = some (.value value) := by
  induction bindings generalizing store with
  | nil => cases member
  | cons binding rest ih =>
    obtain ⟨fresh, later⟩ := List.nodup_cons.mp distinct
    rw [setAll, List.foldl_cons]
    rcases List.mem_cons.mp member with rfl | below
    · exact (get?_setAll_of_not_mem fresh).trans (get?_set_self _ _ _)
    · exact ih later below

end Store

/-- The world with more bytes in its output. -/
def Sandbox.wrote {Files : Type} (sandbox : Sandbox Files) (bytes : List UInt8) : Sandbox Files :=
  { sandbox with
    output := { sandbox.output with written := sandbox.output.written ++ bytes.toArray } }

theorem Sandbox.wrote_wrote {Files : Type} (sandbox : Sandbox Files) (bytes more : List UInt8) :
    (sandbox.wrote bytes).wrote more = sandbox.wrote (bytes ++ more) := by
  simp only [wrote, Array.append_assoc, List.append_toArray]

theorem Sandbox.wrote_unlimited {Files : Type} (input : List UInt8) (files : Files)
    (bytes : List UInt8) :
    (⟨input, .unlimited, files⟩ : Sandbox Files).wrote bytes =
      ⟨input, ⟨bytes.toArray, none, false⟩, files⟩ := by
  rw [wrote, Output.unlimited, Array.empty_append]

section Steps

variable {Files : Type} [Disk Files] {machine : Machine} {place : Nat} {stack : Stack}
variable {store : Store} {value : Value}

theorem perform_print {sandbox : Sandbox Files} (unlimited : sandbox.output.room = none)
    (text : String) :
    Host.perform (.print text) sandbox = (.ok "", sandbox.wrote (lineBytes text).toList) := by
  obtain ⟨input, ⟨written, room, flushFails⟩, files⟩ := sandbox
  cases unlimited
  rfl

/-- A line that was printed is the reply to a request for a line. -/
theorem perform_readLine {text : String} (plain : '\n' ∉ text.toList) (rest : List UInt8)
    {sandbox : Sandbox Files} (next : sandbox.input = (lineBytes text).toList ++ rest) :
    Host.perform .readLine sandbox = (.ok (text ++ "\n"), { sandbox with input := rest }) := by
  change Sandbox.perform .readLine sandbox = _
  rw [Sandbox.perform, next, splitLine_lineBytes plain]
  dsimp only
  rw [lineReply_lineBytes]

theorem step_save {name : String}
    (found : machine.program.instructions[place]? = some (.save name))
    (sandbox : Sandbox Files) :
    machine.step ⟨place, .value value :: stack, store⟩ sandbox =
      (.running ⟨place + 1, stack, store.set name (.value value)⟩, sandbox) := by
  have acts : (Instruction.save name).act machine.labels ⟨place, .value value :: stack, store⟩ =
      atOnce (.ok ⟨place + 1, stack, store.set name (.value value)⟩) := rfl
  exact Machine.step_of_atOnce sandbox found acts

theorem step_print (found : machine.program.instructions[place]? = some (.print 1))
    {sandbox : Sandbox Files} (unlimited : sandbox.output.room = none) :
    machine.step ⟨place, .value value :: stack, store⟩ sandbox =
      (.running ⟨place + 1, stack, store⟩, sandbox.wrote (lineBytes value.text).toList) := by
  have acts : (Instruction.print 1).act machine.labels ⟨place, .value value :: stack, store⟩ =
      .ok (.ask (.print value.text) fun _ => .ok ⟨place + 1, stack, store⟩) := rfl
  rw [Machine.step_of_ask sandbox found acts, perform_print unlimited]
  rfl

theorem step_read (fits : value.FitsLine)
    (found : machine.program.instructions[place]? = some (.read value.tag)) (rest : List UInt8)
    {sandbox : Sandbox Files} (next : sandbox.input = (lineBytes value.text).toList ++ rest) :
    machine.step ⟨place, stack, store⟩ sandbox =
      (.running ⟨place + 1, .value value :: stack, store⟩, { sandbox with input := rest }) := by
  have acts : (Instruction.read value.tag).act machine.labels ⟨place, stack, store⟩ =
      .ok (.ask .readLine fun line =>
        Frame.leave ⟨place, stack, store⟩ stack <$> Value.ofReply value.tag line) := rfl
  rw [Machine.step_of_ask sandbox found acts, perform_readLine fits.plain rest next]
  dsimp only [Status.ofReply]
  rw [Value.ofReply_text fits]
  rfl

/-- Behind the last line there is nothing to be read. -/
theorem step_read_of_empty {tag : TypeTag}
    (found : machine.program.instructions[place]? = some (.read tag))
    {sandbox : Sandbox Files} (empty : sandbox.input = []) :
    machine.step ⟨place, stack, store⟩ sandbox =
      (.failed (.atPlace place .endOfInput), sandbox) := by
  have acts : (Instruction.read tag).act machine.labels ⟨place, stack, store⟩ =
      .ok (.ask .readLine fun line =>
        Frame.leave ⟨place, stack, store⟩ stack <$> Value.ofReply tag line) := rfl
  have ended : Host.perform .readLine sandbox = (.ok "", sandbox) := by
    cases sandbox
    cases empty
    rfl
  rw [Machine.step_of_ask sandbox found acts, ended]
  rfl

end Steps

section Runs

variable {Files : Type} [Disk Files] {machine : Machine} {start stop : Nat}

/-- Printing code puts its values on the output line by line and leaves the stack as it was. -/
theorem run_printing {values : List Value}
    (code : machine.program.Segment start (printing values) stop) (stack : Stack) (store : Store)
    (sandbox : Sandbox Files) (unlimited : sandbox.output.room = none) :
    machine.run (2 * values.length) ⟨start, stack, store⟩ sandbox =
      (.running ⟨stop, stack, store⟩, sandbox.wrote (printedLines values)) := by
  induction values generalizing start sandbox with
  | nil =>
    cases Program.segment_nil.mp code
    simp [Machine.run, Sandbox.wrote, printedLines]
  | cons value rest ih =>
    obtain ⟨pushes, prints, later⟩ := code
    have onward := ih later (sandbox.wrote (lineBytes value.text).toList) unlimited
    rw [List.length_cons, Nat.mul_succ,
      Machine.run_succ_of_running _ (Machine.step_push pushes sandbox),
      Machine.run_succ_of_running _ (step_print prints unlimited), onward, Sandbox.wrote_wrote]
    rfl

/-- Reading code binds the values whose lines are in front of it and takes just these lines. -/
theorem run_reading {bindings : List (String × Value)}
    (code : machine.program.Segment start (reading bindings) stop)
    (fit : ∀ binding ∈ bindings, binding.2.FitsLine) (stack : Stack) (store : Store)
    (sandbox : Sandbox Files) (rest : List UInt8)
    (lines : sandbox.input = printedLines (bindings.map Prod.snd) ++ rest) :
    machine.run (2 * bindings.length) ⟨start, stack, store⟩ sandbox =
      (.running ⟨stop, stack, store.setAll bindings⟩, { sandbox with input := rest }) := by
  induction bindings generalizing start store sandbox with
  | nil =>
    cases Program.segment_nil.mp code
    cases sandbox
    cases lines
    rfl
  | cons binding others ih =>
    obtain ⟨name, value⟩ := binding
    obtain ⟨reads, saves, later⟩ := code
    obtain ⟨fits, others_fit⟩ := List.forall_mem_cons.mp fit
    have split : sandbox.input = (lineBytes value.text).toList ++
        (printedLines (others.map Prod.snd) ++ rest) := by
      rw [lines, ← List.append_assoc]
      rfl
    rw [List.length_cons, Nat.mul_succ,
      Machine.run_succ_of_running _ (step_read fits reads _ split),
      Machine.run_succ_of_running _ (step_save saves _),
      ih later others_fit (store.set name (.value value)) _ rfl]
    rfl

end Runs

theorem straight_printing (values : List Value) : Straight (printing values) := by
  intro i member
  obtain ⟨value, _, inside⟩ := List.mem_flatMap.mp member
  rcases List.mem_pair.mp inside with rfl | rfl <;> rfl

theorem straight_reading (bindings : List (String × Value)) : Straight (reading bindings) := by
  intro i member
  obtain ⟨binding, _, inside⟩ := List.mem_flatMap.mp member
  rcases List.mem_pair.mp inside with rfl | rfl <;> rfl

theorem length_reading (bindings : List (String × Value)) :
    (reading bindings).length = 2 * bindings.length := by
  induction bindings with
  | nil => rfl
  | cons binding rest ih =>
    rw [List.length_cons, Nat.mul_succ, ← ih]
    rfl

namespace Program

/-- Code without labels and jumps can be loaded. -/
theorem exists_load {code : List Instruction} (straight : Straight code) :
    ∃ labels, Machine.load (ofList code) = .ok ⟨ofList code, labels⟩ := by
  obtain ⟨labels, resolved⟩ : ∃ labels, (ofList code).resolve = .ok labels := by
    refine exists_resolve ?_ ?_
    · rw [toList_ofList, definedLabels_of_straight straight]
      exact List.nodup_nil
    · rw [toList_ofList, jumpTargets_of_straight straight]
      exact fun label member => absurd member List.not_mem_nil
  exact ⟨labels, load_of_resolve resolved⟩

/--
A program prints values, each on a line, and another one is given the output to read: it finishes
with each value bound to its name and with all of the input read, so that one more `read` fails at
the end of the input. The names are distinct, and no string has a line feed in it or a carriage
return at its end.
-/
theorem reads_back_printed (bindings : List (String × Value))
    (distinct : (bindings.map Prod.fst).Nodup)
    (fit : ∀ binding ∈ bindings, binding.2.FitsLine) {Files : Type} [Disk Files]
    (input : List UInt8) (files others : Files) :
    ∃ output store,
      (ofList (printing (bindings.map Prod.snd))).Finishes
        (⟨input, .unlimited, files⟩ : Sandbox Files) .empty ⟨input, output, files⟩ ∧
      (ofList (reading bindings)).Finishes
        (⟨output.written.toList, .unlimited, others⟩ : Sandbox Files) store
        ⟨[], .unlimited, others⟩ ∧
      (∀ name value, (name, value) ∈ bindings → store.get? name = some (.value value)) ∧
      (∀ name, name ∉ bindings.map Prod.fst → store.get? name = none) ∧
      ∀ tag, (ofList (reading bindings ++ [.read tag])).Fails
        (⟨output.written.toList, .unlimited, others⟩ : Sandbox Files)
        (.atPlace (2 * bindings.length) .endOfInput) ⟨[], .unlimited, others⟩ := by
  refine ⟨⟨(printedLines (bindings.map Prod.snd)).toArray, none, false⟩,
    Store.setAll .empty bindings, ?_, ?_, fun name value => Store.get?_setAll_of_mem distinct,
    fun name => Store.get?_setAll_of_not_mem, fun tag => ?_⟩
  · obtain ⟨labels, loaded⟩ := exists_load (straight_printing (bindings.map Prod.snd))
    let machine : Machine := ⟨ofList (printing (bindings.map Prod.snd)), labels⟩
    have code := segment_toList machine.program
    have going := run_printing code [] .empty (⟨input, .unlimited, files⟩ : Sandbox Files) rfl
    rw [Sandbox.wrote_unlimited] at going
    exact finishes_of_run loaded going rfl
  · obtain ⟨labels, loaded⟩ := exists_load (straight_reading bindings)
    let machine : Machine := ⟨ofList (reading bindings), labels⟩
    have code := segment_toList machine.program
    have going := run_reading code fit [] .empty
      (⟨printedLines (bindings.map Prod.snd), .unlimited, others⟩ : Sandbox Files) []
      (List.append_nil _).symm
    exact finishes_of_run loaded going rfl
  · obtain ⟨labels, loaded⟩ :=
      exists_load ((straight_reading bindings).append (.cons (i := .read tag) rfl .nil))
    let machine : Machine := ⟨ofList (reading bindings ++ [.read tag]), labels⟩
    have code := segment_toList machine.program
    obtain ⟨middle, reads, again⟩ := segment_append.mp code
    have placed : middle = 2 * bindings.length := by
      rw [stop_of_segment reads, length_reading, Nat.zero_add]
    subst placed
    have going := run_reading reads fit [] .empty
      (⟨printedLines (bindings.map Prod.snd), .unlimited, others⟩ : Sandbox Files) []
      (List.append_nil _).symm
    have failed : machine.step ⟨2 * bindings.length, [], Store.setAll .empty bindings⟩
        (⟨[], .unlimited, others⟩ : Sandbox Files) =
        (.failed (.atPlace (2 * bindings.length) .endOfInput), ⟨[], .unlimited, others⟩) :=
      step_read_of_empty (segment_singleton.mp again).1 rfl
    exact .inr ⟨machine, 2 * bindings.length + 1, loaded,
      Machine.run_of_last_step going failed (Status.failed_ne_running _)⟩

/-- An integer, an empty string, a blank with a carriage return in it, a float and a truth value. -/
theorem reads_back_printed_awkward :
    let bindings : List (String × Value) := [("n", .int (-7)), ("e", .string ""),
      ("s", .string " \r "), ("x", .float 0.5), ("b", .bool true)]
    (bindings.map Prod.fst).Nodup ∧ (∀ binding ∈ bindings, binding.2.FitsLine) ∧
      ∃ output store, (ofList (printing (bindings.map Prod.snd))).Finishes
          (⟨[], .unlimited, .scratch⟩ : Sandbox DirectoryTree) .empty ⟨[], output, .scratch⟩ ∧
        (ofList (reading bindings)).Finishes
          (⟨output.written.toList, .unlimited, .scratch⟩ : Sandbox DirectoryTree) store
          ⟨[], .unlimited, .scratch⟩ ∧
        store.get? "s" = some (.value (.string " \r ")) := by
  intro bindings
  have distinct : (bindings.map Prod.fst).Nodup := by decide
  have fit : ∀ binding ∈ bindings, binding.2.FitsLine := by
    simp [bindings, Value.FitsLine]
  obtain ⟨output, store, printed, read, bound, _⟩ :=
    reads_back_printed bindings distinct fit [] DirectoryTree.scratch DirectoryTree.scratch
  exact ⟨distinct, fit, output, store, printed, read, bound "s" _ (by simp [bindings])⟩

end Program

end StackLang
