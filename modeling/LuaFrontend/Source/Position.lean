set_option autoImplicit false

namespace LuaFrontend

/-- The two characters that end a line, alone or as a pair of both. -/
def isLineBreak (c : Char) : Bool := c == '\n' || c == '\r'

/-- Two line break characters that are not the same one count as a single line end. -/
def isBreakPair (a b : Char) : Bool := (a == '\r' && b == '\n') || (a == '\n' && b == '\r')

/-- Bytes that a text takes in UTF-8. -/
def byteLength : List Char → Nat
  | [] => 0
  | c :: text => c.utf8Size + byteLength text

@[simp] theorem byteLength_nil : byteLength [] = 0 := rfl

@[simp] theorem byteLength_cons (c : Char) (text : List Char) :
    byteLength (c :: text) = c.utf8Size + byteLength text := rfl

@[simp] theorem byteLength_append (a b : List Char) :
    byteLength (a ++ b) = byteLength a + byteLength b := by
  induction a with
  | nil => simp
  | cons c a ih => simp only [List.cons_append, byteLength_cons, ih, Nat.add_assoc]

theorem utf8Size_of_isLineBreak {c : Char} (h : isLineBreak c) : c.utf8Size = 1 := by
  simp only [isLineBreak, Bool.or_eq_true, beq_iff_eq] at h
  rcases h with rfl | rfl <;> rfl

theorem isLineBreak_of_isBreakPair {a b : Char} (h : isBreakPair a b) :
    isLineBreak a ∧ isLineBreak b := by
  simp only [isBreakPair, Bool.or_eq_true, Bool.and_eq_true, beq_iff_eq] at h
  rcases h with ⟨rfl, rfl⟩ | ⟨rfl, rfl⟩ <;> exact ⟨rfl, rfl⟩

/-- A byte offset, the 1-based line it is on, and the offset where that line begins. -/
structure Position where
  offset : Nat := 0
  line : Nat := 1
  lineStart : Nat := 0
deriving DecidableEq

namespace Position

/-- 1-based, counted in bytes. -/
def column (p : Position) : Nat := p.offset - p.lineStart + 1

/-- The form in which messages quote a position. -/
def render (p : Position) : String := s!"[{p.line}:{p.column}]"

/-- Behind `width` more bytes of the same line. -/
def forward (p : Position) (width : Nat) : Position := { p with offset := p.offset + width }

/-- At the beginning of the next line, behind a line end of `width` bytes. -/
def nextLine (p : Position) (width : Nat) : Position :=
  ⟨p.offset + width, p.line + 1, p.offset + width⟩

/-- The position behind a text that starts at `p`. Pairs are taken from the left. -/
def after (p : Position) : List Char → Position
  | [] => p
  | [a] => if isLineBreak a then p.nextLine 1 else p.forward a.utf8Size
  | a :: b :: rest =>
    if isBreakPair a b then (p.nextLine 2).after rest
    else if isLineBreak a then (p.nextLine 1).after (b :: rest)
    else (p.forward a.utf8Size).after (b :: rest)

@[simp] theorem after_nil (p : Position) : p.after [] = p := by
  simp only [after]

@[simp] theorem offset_forward (p : Position) (width : Nat) :
    (p.forward width).offset = p.offset + width := rfl

@[simp] theorem offset_nextLine (p : Position) (width : Nat) :
    (p.nextLine width).offset = p.offset + width := rfl

theorem offset_after (p : Position) (text : List Char) :
    (p.after text).offset = p.offset + byteLength text := by
  fun_induction after p text with
  | case1 => rfl
  | case2 p a h => simp [utf8Size_of_isLineBreak h]
  | case3 p a h => simp
  | case4 p a b rest h ih =>
    have breaks := isLineBreak_of_isBreakPair h
    rw [ih]
    simp only [offset_nextLine, byteLength_cons, utf8Size_of_isLineBreak breaks.1,
      utf8Size_of_isLineBreak breaks.2]
    omega
  | case5 p a b rest _ h ih =>
    rw [ih]
    simp only [offset_nextLine, byteLength_cons, utf8Size_of_isLineBreak h]
    omega
  | case6 p a b rest _ _ ih =>
    rw [ih]
    simp only [offset_forward, byteLength_cons]
    omega

end Position

/-- The bytes from `start` up to, not including, `stop`. -/
structure Span where
  start : Nat := 0
  stop : Nat := 0
deriving DecidableEq

namespace Span

def length (s : Span) : Nat := s.stop - s.start

def isEmpty (s : Span) : Bool := s.start == s.stop

end Span
end LuaFrontend
