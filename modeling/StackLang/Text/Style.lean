/-!
# Text for a terminal

How a text is coloured, and what is left of a text once everything meant for
the terminal is taken out of it.
-/
namespace StackLang.Text

/-!
## Coloured terminal text

A style is the parameter of the control sequence that switches it on. A styled
text ends by switching everything off, so a text that already contains such a
reset has its style switched on again right after it.
-/

inductive Style where
  | yellow
  | blue
  | magenta
  | cyan
  | white
  | brightBlack
  | brightRed
  | boldRed
  deriving Repr, DecidableEq

def Style.code : Style → String
  | .yellow => "33"
  | .blue => "34"
  | .magenta => "35"
  | .cyan => "36"
  | .white => "37"
  | .brightBlack => "90"
  | .brightRed => "91"
  | .boldRed => "1;31"

def resetSequence : List Char :=
  ['\x1b', '[', '0', 'm']

def Style.sequence (style : Style) : List Char :=
  ['\x1b', '['] ++ style.code.toList ++ ['m']

/-- The text with `again` put after each reset sequence in it. -/
def afterResets (again : List Char) : List Char → List Char
  | [] => []
  | '\x1b' :: '[' :: '0' :: 'm' :: rest => resetSequence ++ again ++ afterResets again rest
  | c :: rest => c :: afterResets again rest

/-- The text in a style, or as it stands where colours are off. -/
def Style.paint (style : Style) (colours : Bool) (text : String) : String :=
  if colours then
    String.ofList (style.sequence ++ afterResets style.sequence text.toList ++ resetSequence)
  else text

theorem paint_without_colours (style : Style) (text : String) :
    style.paint false text = text := rfl

/-!
## Control sequences

A text for a terminal holds control sequences between its characters. Where they
begin and end is fixed by the states of the usual terminal parser, and so is what
is left when they and the other controls are taken out. None of them is given a
meaning.

Line ends, tabs and form feeds are no part of a control sequence. One that
stands inside a sequence is left in the text, and so is what follows it up to
the next control; there the sequence goes on.
-/

/-- Where a reader stands: in plain text, or in a control sequence of some form. -/
inductive ControlState where
  | ground
  | escape
  | intermediate
  /-- A sequence that begins with an opening bracket. -/
  | sequence
  /-- The head of a device control, then its parameters, then what precedes its final character. -/
  | device
  | deviceParameters
  | deviceIntermediate
  /-- A string that only a string terminator or the start of another sequence ends. -/
  | controlString
  /-- A string that the bell ends as well, and no terminator of one byte. -/
  | command
  deriving Repr, DecidableEq

def isIntermediate (c : Char) : Bool :=
  ' ' ≤ c && c ≤ '/'

def isParameter (c : Char) : Bool :=
  '0' ≤ c && c ≤ '?'

def isFinal (c : Char) : Bool :=
  '@' ≤ c && c ≤ '~'

/-- The controls that lay out a text. -/
def isLayout (c : Char) : Bool :=
  c == '\t' || c == '\n' || c == '\x0c' || c == '\r'

/-- A terminator of one byte is found within characters of several bytes too. -/
def holdsTerminator (c : Char) : Bool :=
  (String.utf8EncodeChar c).contains 0x9C

namespace ControlState

/-- The state behind a character that is not shown. -/
def next (state : ControlState) (c : Char) : ControlState :=
  if c = '\x1b' then escape
  else if c = '\x18' || c = '\x1a' then ground
  else
    match state with
    | ground => ground
    | escape =>
      if c = '[' then sequence
      else if c = ']' then command
      else if c = 'P' then device
      else if c = 'X' || c = '^' || c = '_' then controlString
      else if isIntermediate c then intermediate
      else if isParameter c || isFinal c then ground
      else escape
    | intermediate => if isParameter c || isFinal c then ground else intermediate
    | sequence => if isFinal c then ground else sequence
    | device =>
      if isIntermediate c then deviceIntermediate
      else if isParameter c then deviceParameters
      else if isFinal c then controlString
      else device
    | deviceParameters =>
      if isIntermediate c then deviceIntermediate
      else if '<' ≤ c && c ≤ '~' then controlString
      else deviceParameters
    | deviceIntermediate => if isParameter c || isFinal c then controlString else deviceIntermediate
    | controlString => if holdsTerminator c then ground else controlString
    | command => if c = '\x07' then ground else command

/-- Whether a character is left in the text. -/
def shows : ControlState → Char → Bool
  | ground, c => isLayout c || (' ' ≤ c && c ≤ '~') || '\x80' ≤ c
  | escape, c | intermediate, c | sequence, c => isLayout c
  | device, _ | deviceParameters, _ | deviceIntermediate, _ | controlString, _ | command, _ => false

/-- Behind a character that is shown the next one is judged as in plain text. -/
def viewed (showing : Bool) (state : ControlState) : ControlState :=
  if showing then ground else state

/-- The state behind a character that is shown: a character of several bytes ends a sequence. -/
def behindShown (state : ControlState) (c : Char) : ControlState :=
  if '\x80' ≤ c then ground else state

end ControlState

/-- What is left of a text; once a character is shown, those behind it are until a control. -/
def plainFrom (showing : Bool) (state : ControlState) : List Char → List Char
  | [] => []
  | c :: rest =>
    if (state.viewed showing).shows c then
      c :: plainFrom true (state.behindShown c) rest
    else plainFrom false (state.next c) rest

/-- The text without control sequences and without controls that do not lay it out. -/
def plain (text : List Char) : List Char :=
  plainFrom false .ground text

theorem shows_ground_of_shows {state : ControlState} {c : Char} (h : state.shows c = true) :
    ControlState.ground.shows c = true := by
  cases state with
  | ground => exact h
  | escape | intermediate | sequence =>
    have layout : isLayout c = true := h
    simp [ControlState.shows, layout]
  | device | deviceParameters | deviceIntermediate | controlString | command => cases h

theorem shows_of_mem_plainFrom {showing : Bool} {state : ControlState} {text : List Char} {c : Char}
    (h : c ∈ plainFrom showing state text) : ControlState.ground.shows c = true := by
  induction text generalizing showing state with
  | nil => cases h
  | cons a rest ih =>
    rw [plainFrom] at h
    split at h
    next shown =>
      rcases List.mem_cons.mp h with rfl | later
      · exact shows_ground_of_shows shown
      · exact ih later
    next => exact ih h

/-- What is left holds no control but those that lay it out. -/
theorem shows_of_mem_plain {text : List Char} {c : Char} (h : c ∈ plain text) :
    ControlState.ground.shows c = true :=
  shows_of_mem_plainFrom h

/-- A text without such controls is left as it is. -/
theorem plain_eq_self {text : List Char}
    (shown : ∀ c ∈ text, ControlState.ground.shows c = true) : plain text = text := by
  have unchanged : ∀ showing, plainFrom showing .ground text = text := by
    induction text with
    | nil =>
      intro showing
      rfl
    | cons c rest ih =>
      intro showing
      have here := shown c (by simp)
      have later := ih fun d member => shown d (by simp [member])
      have state : ControlState.ground.behindShown c = .ground := by
        simp [ControlState.behindShown]
      have viewed : ControlState.ground.viewed showing = .ground := by
        simp [ControlState.viewed]
      rw [plainFrom, viewed, if_pos here, state, later]
  exact unchanged false

end StackLang.Text
