set_option autoImplicit false

/-
A part is what a recognizer takes from the front of a text. Recognizers are functions from texts to
parts, run one behind the other by `andThen`; none of them loses a character.
-/

namespace LuaFrontend.Lexeme

/-- A text split behind the piece that was taken. -/
structure Part where
  taken : List Char
  rest : List Char
  /-- What was taken is whole: nothing that had to follow is missing. -/
  complete : Bool

namespace Part

/-- Takes nothing. -/
def nothing (s : List Char) : Part := ⟨[], s, true⟩

/-- Takes nothing where something was needed. -/
def missing (s : List Char) : Part := ⟨[], s, false⟩

/-- Takes characters as long as they are of the class. -/
def run (test : Char → Bool) (s : List Char) : Part := ⟨s.takeWhile test, s.dropWhile test, true⟩

/-- Takes one character if it is of the class. -/
def optional (test : Char → Bool) : List Char → Part
  | c :: s => if test c then ⟨[c], s, true⟩ else nothing (c :: s)
  | [] => nothing []

/-- The part with more in front of it. -/
def push (taken : List Char) (p : Part) : Part := { p with taken := taken ++ p.taken }

/-- Goes on behind a complete part. An incomplete one stays as it is. -/
def andThen (p : Part) (next : List Char → Part) : Part :=
  if p.complete then (next p.rest).push p.taken else p

/-- The part is complete only if the condition holds too. -/
def require (p : Part) (condition : Bool) : Part := { p with complete := p.complete && condition }

/-- The whole text again. -/
def text (p : Part) : List Char := p.taken ++ p.rest

@[simp] theorem text_nothing (s : List Char) : (nothing s).text = s := rfl

@[simp] theorem text_missing (s : List Char) : (missing s).text = s := rfl

@[simp] theorem text_run (test : Char → Bool) (s : List Char) : (run test s).text = s :=
  List.takeWhile_append_dropWhile

@[simp] theorem text_optional (test : Char → Bool) (s : List Char) :
    (optional test s).text = s := by
  cases s with
  | nil => rfl
  | cons c s => by_cases h : test c <;> simp [optional, h, text, nothing]

@[simp] theorem text_push (taken : List Char) (p : Part) :
    (p.push taken).text = taken ++ p.text := by
  simp [push, text]

@[simp] theorem text_require (p : Part) (condition : Bool) : (p.require condition).text = p.text :=
  rfl

theorem text_andThen {p : Part} {next : List Char → Part} (h : (next p.rest).text = p.rest) :
    (p.andThen next).text = p.text := by
  unfold andThen
  split
  · rw [text_push, h, text]
  · rfl

theorem taken_push_ne_nil {taken : List Char} (h : taken ≠ []) (p : Part) :
    (p.push taken).taken ≠ [] := by
  simp [push, h]

theorem taken_andThen_ne_nil {p : Part} (h : p.taken ≠ []) (next : List Char → Part) :
    (p.andThen next).taken ≠ [] := by
  unfold andThen
  split
  · exact taken_push_ne_nil h _
  · exact h

end Part
end LuaFrontend.Lexeme
