import StackLang.Program.Basic
import StackLang.Proofs.Blanks

/-!
# Programs line by line

What a line holds does not depend on the lines around it; only its number does.
A text may therefore be cut at any line feed and its parts read on their own, if
the errors of the later part are counted from the start. The rows of a text are
what its line feeds divide. They differ from its lines by the carriage returns
that belong to line ends and by an empty row behind the last line end, and
neither shows in what is read.
-/
namespace StackLang

namespace Text

/-- What the line feeds of a text divide, a row more than there are line feeds. -/
def rows (text : List Char) : List (List Char) :=
  text.splitOn '\n'

theorem rows_nil : rows [] = [[]] :=
  List.splitOn_nil '\n'

theorem rows_newline (rest : List Char) : rows ('\n' :: rest) = [] :: rows rest := by
  rw [rows, List.splitOn_cons_eq_if_modifyHead, if_pos (beq_self_eq_true '\n'), rows]

theorem exists_rows (text : List Char) : ∃ row later, rows text = row :: later :=
  List.exists_cons_of_ne_nil (List.splitOn_ne_nil '\n' text)

theorem rows_cons {c : Char} {text row : List Char} {later : List (List Char)} (inside : c ≠ '\n')
    (split : rows text = row :: later) : rows (c :: text) = (c :: row) :: later := by
  rw [rows] at split ⊢
  rw [List.splitOn_cons_eq_if_modifyHead, if_neg (by simpa using inside), split,
    List.modifyHead_cons]

theorem rows_append (first second : List Char) :
    rows (first ++ '\n' :: second) = rows first ++ rows second := by
  simp only [rows, List.splitOn_eq_splitOnP]
  exact List.splitOnP_append_cons first second rfl

theorem length_rows (text : List Char) : (rows text).length = text.count '\n' + 1 := by
  induction text with
  | nil => rfl
  | cons c rest ih =>
    obtain ⟨row, later, split⟩ := exists_rows rest
    by_cases feed : c = '\n'
    · subst feed
      rw [rows_newline, List.length_cons, ih, List.count_cons_self]
    · rw [rows_cons feed split, List.length_cons, ← List.length_cons, ← split, ih,
        List.count_cons_of_ne feed]

theorem not_mem_of_mem_rows {text row : List Char} (member : row ∈ rows text) : '\n' ∉ row := by
  induction text generalizing row with
  | nil =>
    cases List.mem_singleton.mp member
    exact List.not_mem_nil
  | cons c rest ih =>
    obtain ⟨first, later, split⟩ := exists_rows rest
    by_cases feed : c = '\n'
    · subst feed
      rw [rows_newline] at member
      rcases List.mem_cons.mp member with rfl | there
      · exact List.not_mem_nil
      · exact ih there
    · rw [rows_cons feed split] at member
      rcases List.mem_cons.mp member with rfl | there
      · have inner := ih (split ▸ List.mem_cons_self)
        exact fun found => (List.mem_cons.mp found).elim (fun same => feed same.symm) inner
      · exact ih (split ▸ List.mem_cons_of_mem first there)

/-- What blanks at the end are dropped does not depend on how a text begins. -/
theorem trimEnd_cons_congr (c : Char) {first second : List Char}
    (same : trimEnd first = trimEnd second) : trimEnd (c :: first) = trimEnd (c :: second) := by
  have allBlank {text : List Char} (empty : trimEnd text = []) : AllBlank text := by
    obtain ⟨behind, blank, whole⟩ := exists_trimEnd text
    rw [empty, List.nil_append] at whole
    exact whole ▸ blank
  by_cases blank : AllBlank first
  · have other : AllBlank second := allBlank (same ▸ blank.trimEnd)
    calc trimEnd ([c] ++ first) = trimEnd [c] := trimEnd_append_of_allBlank blank
      _ = trimEnd ([c] ++ second) := (trimEnd_append_of_allBlank other).symm
  · have other : ¬ AllBlank second := fun blank' => blank (allBlank (same ▸ blank'.trimEnd))
    rw [trimEnd_cons c blank, trimEnd_cons c other, same]

/-- Without the blanks at their ends, rows are lines, and perhaps an empty row is left over. -/
theorem trimEnd_rows (text : List Char) :
    ∃ last, (last = [] ∨ last = [[]]) ∧
      (rows text).map trimEnd = (lines text).map trimEnd ++ last := by
  fun_induction lines text with
  | case1 => exact ⟨[[]], .inr rfl, rfl⟩
  | case2 rest ih =>
    obtain ⟨last, shape, same⟩ := ih
    exact ⟨last, shape, by rw [rows_newline, List.map_cons, same]; rfl⟩
  | case3 rest ih =>
    -- The carriage return is a blank at the end of its row.
    obtain ⟨last, shape, same⟩ := ih
    refine ⟨last, shape, ?_⟩
    rw [rows_cons (by decide) (rows_newline rest), List.map_cons, same]
    rfl
  | case4 c rest feed _ none ih =>
    obtain ⟨last, shape, same⟩ := ih
    obtain ⟨row, later, split⟩ := exists_rows rest
    rw [none, split] at same
    rcases shape with rfl | rfl
    · cases same
    · obtain ⟨head, tail⟩ := List.cons.inj same
      have alone : trimEnd (c :: row) = trimEnd [c] := trimEnd_cons_congr c head
      refine ⟨[], .inl rfl, ?_⟩
      rw [rows_cons feed split, List.map_cons, alone, tail]
      rfl
  | case5 c rest feed _ line lines some ih =>
    obtain ⟨last, shape, same⟩ := ih
    obtain ⟨row, later, split⟩ := exists_rows rest
    rw [some, split] at same
    obtain ⟨head, tail⟩ := List.cons.inj same
    refine ⟨last, shape, ?_⟩
    rw [rows_cons feed split, List.map_cons, trimEnd_cons_congr c head, tail]
    rfl

/-- A blank at the end of a text is a blank at the end of its last row. -/
theorem trimEnd_rows_append {c : Char} (inside : c ≠ '\n') (blank : isBlank c = true)
    (text : List Char) : (rows (text ++ [c])).map trimEnd = (rows text).map trimEnd := by
  induction text with
  | nil =>
    have dropped : trimEnd [c] = [] :=
      AllBlank.trimEnd fun d member => List.mem_singleton.mp member ▸ blank
    rw [List.nil_append, rows_cons inside rows_nil, List.map_singleton, dropped]
    rfl
  | cons d rest ih =>
    obtain ⟨row, later, split⟩ := exists_rows rest
    obtain ⟨extended, others, split'⟩ := exists_rows (rest ++ [c])
    rw [split, split'] at ih
    obtain ⟨head, tail⟩ := List.cons.inj ih
    by_cases feed : d = '\n'
    · subst feed
      rw [List.cons_append, rows_newline, rows_newline, split, split', List.map_cons, ih]
      rfl
    · rw [List.cons_append, rows_cons feed split, rows_cons feed split', List.map_cons,
        trimEnd_cons_congr d head, tail]
      rfl

end Text

/-- An error of a text that has other lines before it. -/
def LineError.behind (lines : Nat) (e : LineError) : LineError :=
  { e with line := lines + e.line }

/-- A line that holds no instruction: all of it is blank, or a `#` comes before all else. -/
structure Remark where
  text : List Char
  closed : '\n' ∉ text
  silent : Text.AllBlank text ∨
    ∃ margin note, text = margin ++ '#' :: note ∧ Text.AllBlank margin

namespace Program

/-- Rows with remarks put in before each of them and behind the last, chosen by the row's number. -/
def annotate (remarks : Nat → List Remark) (number : Nat) : List (List Char) → List (List Char)
  | [] => (remarks number).map Remark.text
  | row :: later =>
    (remarks number).map Remark.text ++ row :: annotate remarks (number + 1) later

/-- A text with remarks put in before its lines. -/
def annotated (remarks : Nat → List Remark) (text : String) : String :=
  String.ofList (['\n'].intercalate (annotate remarks 1 (Text.rows text.toList)))

/-- How many remarks are put in before the rows from one number up to another. -/
def remarksUpTo (remarks : Nat → List Remark) (first last : Nat) : Nat :=
  ((List.range' first (last + 1 - first)).flatMap remarks).length

/-- A line is skipped if all of it is blank or if `#` comes before all else, and only then. -/
theorem isSkipped_iff {line : List Char} :
    isSkipped line = true ↔ Text.AllBlank line ∨
      ∃ margin note, line = margin ++ '#' :: note ∧ Text.AllBlank margin := by
  constructor
  · intro skipped
    rw [isSkipped] at skipped
    split at skipped
    next empty => exact .inl (Text.allBlank_of_trim empty)
    next c rest core =>
      obtain ⟨⟨margin, behind, blank, _, whole⟩, _, _⟩ := Text.trim_eq_iff.mp core
      obtain rfl := of_decide_eq_true skipped
      exact .inr ⟨margin, rest ++ behind, by rw [whole]; simp, blank⟩
  · rintro (blank | ⟨margin, note, rfl, blank⟩)
    · rw [isSkipped, blank.trim]
    · have start : Text.trimStart (margin ++ '#' :: note) = '#' :: note := by
        rw [Text.trimStart, blank.dropWhile]
        exact List.dropWhile_cons_of_neg (by decide)
      have core : ∃ rest, Text.trim (margin ++ '#' :: note) = '#' :: rest := by
        rw [Text.trim, start]
        by_cases empty : Text.AllBlank note
        · have alone : Text.trimEnd (['#'] ++ note) = ['#'] := Text.trimEnd_append_of_allBlank empty
          exact ⟨[], alone⟩
        · exact ⟨Text.trimEnd note, Text.trimEnd_cons '#' empty⟩
      obtain ⟨rest, core⟩ := core
      rw [isSkipped, core]
      rfl

theorem isSkipped_trimEnd (line : List Char) : isSkipped (Text.trimEnd line) = isSkipped line := by
  rw [isSkipped, isSkipped, Text.trim_trimEnd]

theorem ofText_trimEnd (line : List Char) :
    Instruction.ofText (Text.trimEnd line) = Instruction.ofText line := by
  rw [Instruction.ofText, Instruction.ofText, Text.trim_trimEnd]

/-- Blanks at the ends of lines do not count. -/
theorem readLines_trimEnd (number : Nat) (lines : List (List Char)) :
    readLines number (lines.map Text.trimEnd) = readLines number lines := by
  induction lines generalizing number with
  | nil => rfl
  | cons line rest ih =>
    rw [List.map_cons, readLines, readLines, isSkipped_trimEnd, ofText_trimEnd, ih]

/-- Lines that are all skipped hold nothing. -/
theorem readLines_skipped (number : Nat) {lines : List (List Char)}
    (skipped : ∀ line ∈ lines, isSkipped line = true) : readLines number lines = .ok [] := by
  induction lines generalizing number with
  | nil => rfl
  | cons line rest ih =>
    obtain ⟨here, there⟩ := List.forall_mem_cons.mp skipped
    rw [readLines, if_pos here]
    exact ih (number + 1) there

theorem readLines_append_skipped (number : Nat) (lines : List (List Char))
    {last : List (List Char)} (skipped : ∀ line ∈ last, isSkipped line = true) :
    readLines number (lines ++ last) = readLines number lines := by
  rw [readLines_append, readLines_skipped _ skipped]
  cases readLines number lines with
  | error e => rfl
  | ok instructions => exact congrArg Except.ok (List.append_nil instructions)

theorem readLines_skipped_append (number : Nat) {before : List (List Char)}
    (skipped : ∀ line ∈ before, isSkipped line = true) (lines : List (List Char)) :
    readLines number (before ++ lines) = readLines (number + before.length) lines := by
  rw [readLines_append, readLines_skipped _ skipped]
  cases readLines (number + before.length) lines <;> rfl

/-- The numbers of lines show in nothing but an error. -/
theorem readLines_add (before number : Nat) (lines : List (List Char)) :
    readLines (before + number) lines =
      (readLines number lines).mapError (LineError.behind before) := by
  induction lines generalizing number with
  | nil => rfl
  | cons line rest ih =>
    rw [readLines, readLines, Nat.add_assoc, ih]
    cases isSkipped line
    · cases Instruction.ofText line with
      | error e => rfl
      | ok i => cases readLines (number + 1) rest <;> rfl
    · rfl

/-- A text is read by its rows. -/
theorem ofText_eq_rows (text : String) :
    ofText text = (readLines 1 (Text.rows text.toList)).map ofList := by
  obtain ⟨last, shape, same⟩ := Text.trimEnd_rows text.toList
  have skipped : ∀ line ∈ last, isSkipped line = true := by
    rcases shape with rfl | rfl
    · exact List.forall_mem_nil _
    · intro line member
      cases List.mem_singleton.mp member
      rfl
  rw [ofText, ← readLines_trimEnd 1 (Text.rows text.toList), same,
    readLines_append_skipped 1 _ skipped, readLines_trimEnd]

/-- The two parts of a text that meet at a line feed are read one after the other. -/
theorem ofText_append (first second : String) :
    ofText (first ++ "\n" ++ second) =
      (ofText first).bind fun before =>
        ((ofText second).mapError (.behind (first.toList.count '\n' + 1))).map fun behind =>
          ofList (before.toList ++ behind.toList) := by
  have split : (first ++ "\n" ++ second).toList = first.toList ++ '\n' :: second.toList := by
    simp
  rw [ofText_eq_rows, ofText_eq_rows, ofText_eq_rows, split, Text.rows_append, readLines_append,
    Text.length_rows, Nat.add_comm 1, readLines_add]
  cases readLines 1 (Text.rows first.toList) with
  | error e => rfl
  | ok before => cases readLines 1 (Text.rows second.toList) <;> rfl

/-- A carriage return before a line feed belongs to the line end. -/
theorem ofText_carriageReturn (first second : String) :
    ofText (first ++ "\r\n" ++ second) = ofText (first ++ "\n" ++ second) := by
  have split : (first ++ "\r\n" ++ second).toList =
      (first.toList ++ ['\r']) ++ '\n' :: second.toList := by
    simp
  have split' : (first ++ "\n" ++ second).toList = first.toList ++ '\n' :: second.toList := by
    simp
  rw [ofText_eq_rows, ofText_eq_rows, split, split', Text.rows_append, Text.rows_append,
    ← readLines_trimEnd, ← readLines_trimEnd 1 (Text.rows first.toList ++ _), List.map_append,
    List.map_append, Text.trimEnd_rows_append (by decide) (by decide)]

section Remarks

variable (remarks : Nat → List Remark)

theorem isSkipped_of_mem_remarks {number : Nat} {line : List Char}
    (member : line ∈ (remarks number).map Remark.text) : isSkipped line = true := by
  obtain ⟨remark, _, rfl⟩ := List.mem_map.mp member
  exact isSkipped_iff.mpr remark.silent

theorem le_line_of_readLines {number : Nat} {lines : List (List Char)} {e : LineError}
    (failed : readLines number lines = .error e) : number ≤ e.line := by
  induction lines generalizing number with
  | nil => cases failed
  | cons line rest ih =>
    rw [readLines] at failed
    split at failed
    next => exact Nat.le_of_succ_le (ih failed)
    next =>
      split at failed
      next =>
        cases failed
        exact Nat.le_refl _
      next =>
        cases later : readLines (number + 1) rest with
        | ok instructions =>
          rw [later] at failed
          cases failed
        | error error =>
          rw [later] at failed
          cases failed
          exact Nat.le_of_succ_le (ih later)

theorem remarksUpTo_of_lt {first last : Nat} (within : first < last) :
    remarksUpTo remarks first last =
      (remarks first).length + remarksUpTo remarks (first + 1) last := by
  have count : last + 1 - first = last + 1 - (first + 1) + 1 := by omega
  rw [remarksUpTo, count, List.range'_succ, List.flatMap_cons, List.length_append]
  rfl

theorem remarksUpTo_self (number : Nat) :
    remarksUpTo remarks number number = (remarks number).length := by
  rw [remarksUpTo, Nat.add_sub_cancel_left, List.range'_one, List.flatMap_singleton]

/-- Remarks move an error by as many lines as are put in up to its row. -/
theorem readLines_annotate (before number : Nat) (rows : List (List Char)) :
    readLines (before + number) (annotate remarks number rows) =
      (readLines number rows).mapError fun e =>
        e.behind (before + remarksUpTo remarks number e.line) := by
  have silent : ∀ line ∈ (remarks number).map Remark.text, isSkipped line = true :=
    fun _ => isSkipped_of_mem_remarks remarks
  induction rows generalizing before number with
  | nil => exact readLines_skipped _ silent
  | cons row later ih =>
    -- The rows behind are read with the remarks of this one counted among those before them.
    have following : readLines (before + number + (remarks number).length + 1)
        (annotate remarks (number + 1) later) =
          (readLines (number + 1) later).mapError fun e =>
            e.behind (before + remarksUpTo remarks number e.line) := by
      have next : before + number + (remarks number).length + 1 =
          before + (remarks number).length + (number + 1) := by omega
      rw [next, ih _ _ fun _ => isSkipped_of_mem_remarks remarks]
      cases failed : readLines (number + 1) later with
      | ok instructions => rfl
      | error e =>
        have further : before + (remarks number).length + remarksUpTo remarks (number + 1) e.line =
            before + remarksUpTo remarks number e.line := by
          rw [remarksUpTo_of_lt remarks (le_line_of_readLines failed), Nat.add_assoc]
        exact congrArg (fun lines => Except.error (e.behind lines)) further
    rw [annotate, readLines_skipped_append _ silent, List.length_map, readLines, readLines,
      following]
    cases isSkipped row
    · cases Instruction.ofText row with
      | error e =>
        have moved : before + number + (remarks number).length =
            before + remarksUpTo remarks number number + number := by
          rw [remarksUpTo_self]
          omega
        rw [moved]
        rfl
      | ok i => cases readLines (number + 1) later <;> rfl
    · rfl

theorem rows_annotated (text : String) :
    Text.rows (annotated remarks text).toList = annotate remarks 1 (Text.rows text.toList) := by
  have closed (number : Nat) {rows : List (List Char)} (inside : ∀ row ∈ rows, '\n' ∉ row) :
      ∀ line ∈ annotate remarks number rows, '\n' ∉ line := by
    have own (number : Nat) : ∀ line ∈ (remarks number).map Remark.text, '\n' ∉ line := by
      intro line member
      obtain ⟨remark, _, rfl⟩ := List.mem_map.mp member
      exact remark.closed
    induction rows generalizing number with
    | nil => exact own number
    | cons row later ih =>
      obtain ⟨here, there⟩ := List.forall_mem_cons.mp inside
      exact List.forall_mem_append.mpr ⟨own number, List.forall_mem_cons.mpr
        ⟨here, ih (number + 1) there⟩⟩
  have some : annotate remarks 1 (Text.rows text.toList) ≠ [] := by
    obtain ⟨row, later, split⟩ := Text.exists_rows text.toList
    rw [split, annotate]
    exact List.append_ne_nil_of_right_ne_nil _ (List.cons_ne_nil _ _)
  rw [annotated, String.toList_ofList]
  exact List.splitOn_intercalate '\n' (closed 1 fun _ => Text.not_mem_of_mem_rows) some

theorem ofText_annotated (text : String) :
    ofText (annotated remarks text) =
      (ofText text).mapError fun e => e.behind (remarksUpTo remarks 1 e.line) := by
  have moved := readLines_annotate remarks 0 1 (Text.rows text.toList)
  simp only [Nat.zero_add] at moved
  rw [ofText_eq_rows, ofText_eq_rows, rows_annotated, moved]
  cases readLines 1 (Text.rows text.toList) <;> rfl

end Remarks

/--
A text that divides at a line feed, with or without a carriage return before it, is read part by
part. An error of the first part is the error of the whole; one of the second part is, at a line
that counts from the start; otherwise the instructions of both follow each other. Remarks put in
before any lines of a text leave what is read as it is, and move an error by as many lines as are
put in up to it.
-/
theorem read_line_by_line :
    (∀ first second : String, ofText (first ++ "\n" ++ second) =
      match ofText first with
      | .error e => .error e
      | .ok before =>
        match ofText second with
        | .error e => .error ⟨first.toList.count '\n' + 1 + e.line, e.error⟩
        | .ok behind => .ok (ofList (before.toList ++ behind.toList))) ∧
    (∀ first second : String, ofText (first ++ "\r\n" ++ second) =
      ofText (first ++ "\n" ++ second)) ∧
    ∀ (remarks : Nat → List Remark) (text : String), ofText (annotated remarks text) =
      match ofText text with
      | .error e => .error ⟨remarksUpTo remarks 1 e.line + e.line, e.error⟩
      | .ok program => .ok program := by
  refine ⟨fun first second => ?_, ofText_carriageReturn, fun remarks text => ?_⟩
  · rw [ofText_append]
    cases ofText first with
    | error e => rfl
    | ok before => cases ofText second <;> rfl
  · rw [ofText_annotated]
    cases ofText text <;> rfl

example : ofText "push I 1\r\n\n # comment\nbogus\n" = .error ⟨4, .unknownInstruction "bogus"⟩ := by
  rfl

end Program

end StackLang
