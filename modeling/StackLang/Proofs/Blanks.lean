import StackLang.Text.Basic

/-!
# Blanks and words

What trimming a text and dividing it into words come to, said of the text as a
whole: a core with blanks around it, a first word and what follows it, words with
blanks between them. The three functions find these parts in every text, and
there is only one way to tell them apart.
-/
namespace StackLang.Text

/-- The text consists of blanks. -/
def AllBlank (text : List Char) : Prop :=
  ∀ c ∈ text, isBlank c = true

/-- There is no blank in the text. -/
def NoBlank (text : List Char) : Prop :=
  ∀ c ∈ text, isBlank c = false

instance (text : List Char) : Decidable (NoBlank text) :=
  decidable_of_iff (text.all (!isBlank ·) = true) (by simp [NoBlank])

structure IsWord (text : List Char) : Prop where
  nonempty : text ≠ []
  noBlank : NoBlank text

/-- The text is at its end, or goes on with a blank. -/
def Stops (text : List Char) : Prop :=
  ∀ c, text.head? = some c → isBlank c = true

/-- A text and what is left of it without the blanks around. -/
structure TrimsTo (text core : List Char) : Prop where
  around : ∃ before behind, AllBlank before ∧ AllBlank behind ∧ text = before ++ core ++ behind
  first : ∀ c, core.head? = some c → isBlank c = false
  last : ∀ c, core.getLast? = some c → isBlank c = false

/-- The first word of a text and what follows it. Where there are only blanks there is neither. -/
structure Begins (text word rest : List Char) : Prop where
  before : ∃ before, AllBlank before ∧ text = before ++ word ++ rest
  noBlank : NoBlank word
  stops : Stops rest
  nothing : word = [] → rest = []

/-- The words of a text, with blanks between them. -/
inductive FallsInto : List Char → List (List Char) → Prop
  | blanks {text : List Char} (blank : AllBlank text) : FallsInto text []
  | word {before word rest : List Char} {words : List (List Char)} (blank : AllBlank before)
    (isWord : IsWord word) (stops : Stops rest) (later : FallsInto rest words) :
    FallsInto (before ++ word ++ rest) (word :: words)

section Classes

variable {text more : List Char}

theorem isBlank_space : isBlank ' ' = true := by
  decide

theorem allBlank_nil : AllBlank [] :=
  List.forall_mem_nil _

theorem allBlank_takeWhile (text : List Char) : AllBlank (text.takeWhile isBlank) :=
  List.all_eq_true.mp List.all_takeWhile

theorem AllBlank.append (first : AllBlank text) (second : AllBlank more) :
    AllBlank (text ++ more) :=
  List.forall_mem_append.mpr ⟨first, second⟩

theorem AllBlank.dropWhile (blank : AllBlank text) (rest : List Char) :
    (text ++ rest).dropWhile isBlank = rest.dropWhile isBlank :=
  List.dropWhile_append_of_pos blank

theorem AllBlank.reverse (blank : AllBlank text) : AllBlank text.reverse :=
  fun c member => blank c (List.mem_reverse.mp member)

theorem AllBlank.stops (blank : AllBlank text) : Stops text :=
  fun c first => blank c (List.mem_of_head? first)

theorem NoBlank.append (first : NoBlank text) (second : NoBlank more) : NoBlank (text ++ more) :=
  List.forall_mem_append.mpr ⟨first, second⟩

theorem NoBlank.cons {c : Char} (first : isBlank c = false) (rest : NoBlank text) :
    NoBlank (c :: text) :=
  List.forall_mem_cons.mpr ⟨first, rest⟩

theorem NoBlank.all (noBlank : NoBlank text) : ∀ c ∈ text, (!isBlank c) = true := by
  intro c member
  rw [noBlank c member]
  rfl

theorem noBlank_takeWhile (text : List Char) : NoBlank (text.takeWhile (!isBlank ·)) := by
  intro c member
  simpa using List.all_eq_true.mp List.all_takeWhile c member

theorem stops_dropWhile (text : List Char) : Stops (text.dropWhile (!isBlank ·)) := by
  intro c first
  have reached := List.head?_dropWhile_not (!isBlank ·) text
  rw [first] at reached
  simpa using reached

/-- What is left when the blanks at the start are dropped does not start with one. -/
theorem not_isBlank_of_head?_dropWhile {c : Char}
    (first : (text.dropWhile isBlank).head? = some c) : isBlank c = false := by
  have reached := List.head?_dropWhile_not isBlank text
  rw [first] at reached
  simpa using reached

theorem dropWhile_of_head? (start : ∀ c, text.head? = some c → isBlank c = false) :
    text.dropWhile isBlank = text := by
  cases text with
  | nil => rfl
  | cons c rest =>
    have first := start c rfl
    exact List.dropWhile_cons_of_neg (by rw [first]; exact Bool.false_ne_true)

end Classes

section Trimming

variable {text core : List Char}

theorem trimEnd_append_of_allBlank {behind : List Char} (blank : AllBlank behind) :
    trimEnd (text ++ behind) = trimEnd text := by
  rw [trimEnd, trimEnd, List.reverse_append, blank.reverse.dropWhile]

theorem trimEnd_of_getLast? (last : ∀ c, text.getLast? = some c → isBlank c = false) :
    trimEnd text = text := by
  rw [trimEnd, dropWhile_of_head?, List.reverse_reverse]
  intro c first
  exact last c (by rw [← List.head?_reverse, first])

theorem exists_trimEnd (text : List Char) :
    ∃ behind, AllBlank behind ∧ text = trimEnd text ++ behind := by
  refine ⟨(text.reverse.takeWhile isBlank).reverse, (allBlank_takeWhile _).reverse, ?_⟩
  rw [trimEnd, ← List.reverse_append, List.takeWhile_append_dropWhile, List.reverse_reverse]

theorem AllBlank.trimEnd (blank : AllBlank text) : trimEnd text = [] := by
  rw [← List.nil_append text, trimEnd_append_of_allBlank blank]
  rfl

theorem trimEnd_cons (c : Char) (some : ¬ AllBlank text) :
    trimEnd (c :: text) = c :: trimEnd text := by
  rw [trimEnd, List.reverse_cons, List.dropWhile_append, if_neg, List.reverse_append]
  · rfl
  · intro empty
    have none : trimEnd text = [] := by
      rw [trimEnd, List.isEmpty_iff.mp empty]
      rfl
    obtain ⟨behind, after, whole⟩ := exists_trimEnd text
    rw [none, List.nil_append] at whole
    exact some (whole ▸ after)

theorem TrimsTo.trim (trims : TrimsTo text core) : trim text = core := by
  obtain ⟨⟨before, behind, blank, after, rfl⟩, first, last⟩ := trims
  rw [Text.trim, trimStart, List.append_assoc, blank.dropWhile]
  cases core with
  | nil =>
    have none := after.dropWhile []
    rw [List.append_nil] at none
    rw [List.nil_append, none]
    rfl
  | cons c rest =>
    have start := first c rfl
    rw [List.cons_append, List.dropWhile_cons_of_neg (by rw [start]; exact Bool.false_ne_true),
      ← List.cons_append, trimEnd_append_of_allBlank after, trimEnd_of_getLast? last]

theorem trimsTo_trim (text : List Char) : TrimsTo text (trim text) := by
  have parts := List.takeWhile_append_dropWhile (p := isBlank) (l := text)
  obtain ⟨behind, after, whole⟩ := exists_trimEnd (trimStart text)
  refine ⟨⟨text.takeWhile isBlank, behind, allBlank_takeWhile text, after, ?_⟩, ?_, ?_⟩
  · rw [List.append_assoc, Text.trim, ← whole]
    exact parts.symm
  · intro c first
    have start : (trimStart text).head? = some c := by
      rw [Text.trim] at first
      rw [whole, List.head?_append, first]
      rfl
    exact not_isBlank_of_head?_dropWhile start
  · intro c last
    rw [Text.trim, trimEnd, List.getLast?_reverse] at last
    exact not_isBlank_of_head?_dropWhile last

/-- Trimming takes the blanks around a text away, and nothing else. -/
theorem trim_eq_iff : trim text = core ↔ TrimsTo text core :=
  ⟨fun same => same ▸ trimsTo_trim text, TrimsTo.trim⟩

theorem TrimsTo.append (trims : TrimsTo text core) {behind : List Char}
    (blank : AllBlank behind) : TrimsTo (text ++ behind) core := by
  obtain ⟨⟨before, after, first, last, rfl⟩, start, ends⟩ := trims
  refine ⟨⟨before, after ++ behind, first, last.append blank, ?_⟩, start, ends⟩
  rw [List.append_assoc _ after]

theorem trim_append_of_allBlank {behind : List Char} (blank : AllBlank behind) :
    trim (text ++ behind) = trim text :=
  ((trimsTo_trim text).append blank).trim

theorem trim_trimEnd (text : List Char) : trim (trimEnd text) = trim text := by
  obtain ⟨behind, after, whole⟩ := exists_trimEnd text
  calc trim (trimEnd text) = trim (trimEnd text ++ behind) := (trim_append_of_allBlank after).symm
    _ = trim text := by rw [← whole]

theorem trimStart_cons {c : Char} (blank : isBlank c = true) (text : List Char) :
    trimStart (c :: text) = trimStart text :=
  List.dropWhile_cons_of_pos blank

/-- It is the same which end is trimmed first. -/
theorem trimStart_trimEnd (text : List Char) : trimStart (trimEnd text) = trim text := by
  rw [← trim_trimEnd, Text.trim]
  refine (trimEnd_of_getLast? fun c last => ?_).symm
  obtain ⟨before, parts⟩ := List.dropWhile_suffix (l := trimEnd text) isBlank
  have whole : (trimEnd text).getLast? = some c := by
    rw [← parts, List.getLast?_append]
    rw [trimStart] at last
    rw [last]
    rfl
  rw [trimEnd, List.getLast?_reverse] at whole
  exact not_isBlank_of_head?_dropWhile whole

theorem trim_cons {c : Char} (blank : isBlank c = true) (text : List Char) :
    trim (c :: text) = trim text := by
  rw [Text.trim, trimStart_cons blank, ← Text.trim]

theorem AllBlank.trim (blank : AllBlank text) : trim text = [] :=
  TrimsTo.trim ⟨⟨text, [], blank, allBlank_nil, by simp⟩, fun _ none => (by cases none),
    fun _ none => (by cases none)⟩

theorem allBlank_of_trim (empty : trim text = []) : AllBlank text := by
  obtain ⟨⟨before, behind, first, last, rfl⟩, _, _⟩ := trim_eq_iff.mp empty
  rw [List.append_nil]
  exact first.append last

end Trimming

section FirstWord

variable {text word rest : List Char}

theorem exists_begins (text : List Char) : ∃ word rest, Begins text word rest := by
  refine ⟨_, _, ⟨text.takeWhile isBlank, allBlank_takeWhile text, ?_⟩,
    noBlank_takeWhile (text.dropWhile isBlank), stops_dropWhile (text.dropWhile isBlank),
    fun empty => ?_⟩
  · rw [List.append_assoc, List.takeWhile_append_dropWhile, List.takeWhile_append_dropWhile]
  · -- Behind the blanks there is a word, or nothing at all.
    cases known : text.dropWhile isBlank with
    | nil => rfl
    | cons c later =>
      have first : isBlank c = false := not_isBlank_of_head?_dropWhile (by rw [known]; rfl)
      rw [known, List.takeWhile_cons_of_pos (by rw [first]; rfl)] at empty
      cases empty

theorem NoBlank.cutAtBlank (noBlank : NoBlank text) : cutAtBlank text = none := by
  have none : text.dropWhile (!isBlank ·) = [] := by
    rw [← List.append_nil text, List.dropWhile_append_of_pos noBlank.all]
    rfl
  rw [Text.cutAtBlank, none]

theorem NoBlank.cutAtBlank_append (noBlank : NoBlank text) {c : Char} (blank : isBlank c = true)
    (rest : List Char) : Text.cutAtBlank (text ++ c :: rest) = some (text, rest) := by
  rw [Text.cutAtBlank, List.dropWhile_append_of_pos noBlank.all,
    List.takeWhile_append_of_pos noBlank.all]
  simp [blank]

theorem Begins.trim (begins : Begins text word rest) : trim text = word ++ trimEnd rest := by
  obtain ⟨⟨before, blank, rfl⟩, noBlank, stops, nothing⟩ := begins
  obtain ⟨behind, after, whole⟩ := exists_trimEnd rest
  refine TrimsTo.trim ⟨⟨before, behind, blank, after, ?_⟩, fun c first => ?_, fun c last => ?_⟩
  · rw [List.append_assoc, List.append_assoc, List.append_assoc, ← whole]
  · cases word with
    | nil =>
      rw [nothing rfl] at first
      cases first
    | cons d letters =>
      cases first
      exact noBlank _ List.mem_cons_self
  · rw [List.getLast?_append] at last
    cases ends : (trimEnd rest).getLast? with
    | none =>
      rw [ends, Option.none_or] at last
      exact noBlank c (List.mem_of_getLast? last)
    | some d =>
      rw [ends] at last
      cases last
      rw [trimEnd, List.getLast?_reverse] at ends
      exact not_isBlank_of_head?_dropWhile ends

theorem Begins.trim_of_allBlank (begins : Begins text word rest) (blank : AllBlank rest) :
    Text.trim text = word := by
  rw [begins.trim, blank.trimEnd, List.append_nil]

/-- A trimmed text is cut behind its first word, at the first of the blanks there. -/
theorem Begins.cutAtBlank (begins : Begins text word rest) (some : ¬ AllBlank rest) :
    ∃ c later, isBlank c = true ∧ rest = c :: later ∧
      Text.cutAtBlank (Text.trim text) = Option.some (word, trimEnd later) := by
  rw [begins.trim]
  cases rest with
  | nil => exact absurd allBlank_nil some
  | cons c later =>
    have blank := begins.stops c rfl
    have kept : trimEnd (c :: later) = c :: trimEnd later :=
      trimEnd_cons c fun none => some (List.forall_mem_cons.mpr ⟨blank, none⟩)
    rw [kept]
    exact ⟨c, later, blank, rfl, begins.noBlank.cutAtBlank_append blank _⟩

end FirstWord

section Words

variable {text word rest : List Char}

theorem words_cons {c : Char} (blank : isBlank c = true) (text : List Char) :
    words (c :: text) = words text := by
  rw [words, headAndWords, words]
  simp [blank]

theorem AllBlank.words_append (blank : AllBlank text) (rest : List Char) :
    words (text ++ rest) = words rest := by
  induction text with
  | nil => rfl
  | cons c text ih =>
    obtain ⟨first, later⟩ := List.forall_mem_cons.mp blank
    rw [List.cons_append, words_cons first, ih later]

theorem AllBlank.words (blank : AllBlank text) : words text = [] := by
  have none := blank.words_append []
  rwa [List.append_nil] at none

theorem Stops.headAndWords (stops : Stops rest) : headAndWords rest = ([], words rest) := by
  cases rest with
  | nil => rfl
  | cons c later =>
    have blank := stops c rfl
    rw [words_cons blank, Text.headAndWords, words]
    simp [blank]

theorem NoBlank.headAndWords_append (noBlank : NoBlank text) (rest : List Char) :
    headAndWords (text ++ rest) = (text ++ (headAndWords rest).1, (headAndWords rest).2) := by
  induction text with
  | nil => rfl
  | cons c text ih =>
    obtain ⟨first, later⟩ := List.forall_mem_cons.mp noBlank
    rw [List.cons_append, headAndWords, ih later]
    simp [first]

theorem IsWord.words_append (isWord : IsWord word) (stops : Stops rest) :
    words (word ++ rest) = word :: words rest := by
  rw [words, isWord.noBlank.headAndWords_append, stops.headAndWords, List.append_nil]
  simp [isWord.nonempty]

theorem IsWord.words (isWord : IsWord word) : words word = [word] := by
  have alone := isWord.words_append allBlank_nil.stops
  rwa [List.append_nil] at alone

/-- Blanks at the end make no word. -/
theorem words_append_of_allBlank (text : List Char) {behind : List Char}
    (blank : AllBlank behind) : words (text ++ behind) = words text := by
  have same : headAndWords (text ++ behind) = headAndWords text := by
    induction text with
    | nil =>
      rw [List.nil_append, blank.stops.headAndWords, blank.words]
      rfl
    | cons c text ih => rw [List.cons_append, headAndWords, ih, headAndWords]
  rw [words, same, words]

theorem words_trimEnd (text : List Char) : words (trimEnd text) = words text := by
  obtain ⟨behind, after, whole⟩ := exists_trimEnd text
  calc words (trimEnd text) = words (trimEnd text ++ behind) :=
        (words_append_of_allBlank _ after).symm
    _ = words text := by rw [← whole]

theorem FallsInto.words {each : List (List Char)} (falls : FallsInto text each) :
    words text = each := by
  induction falls with
  | blanks blank => exact blank.words
  | word blank isWord stops later ih =>
    rw [List.append_assoc, blank.words_append, isWord.words_append stops, ih]

theorem exists_fallsInto (text : List Char) : ∃ each, FallsInto text each := by
  obtain ⟨word, rest, ⟨before, blank, whole⟩, noBlank, stops, nothing⟩ := exists_begins text
  by_cases empty : word = []
  · rw [empty, nothing empty, List.append_nil, List.append_nil] at whole
    rw [whole]
    exact ⟨[], .blanks blank⟩
  · have shorter : rest.length < text.length := by
      have some := List.length_pos_iff.mpr empty
      rw [whole, List.length_append, List.length_append]
      omega
    obtain ⟨each, later⟩ := exists_fallsInto rest
    rw [whole]
    exact ⟨word :: each, .word blank ⟨empty, noBlank⟩ stops later⟩
termination_by text.length

end Words

end StackLang.Text
