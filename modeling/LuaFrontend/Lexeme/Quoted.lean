import LuaFrontend.Lexeme.Part
import LuaFrontend.Source.Class

set_option autoImplicit false

namespace LuaFrontend.Lexeme

/-- The string from behind its opening quote. `skipping` is set inside the white space of `\z`. -/
def quotedRest (quote : Char) (skipping : Bool) : List Char → Part
  | [] => .missing []
  | c :: s =>
    if skipping && isSpace c then (quotedRest quote true s).push [c]
    else if isLineBreak c then .missing (c :: s)
    else if c == quote then ⟨[c], s, true⟩
    else if c == '\\' then
      match s with
      | [] => ⟨[c], [], false⟩
      | [a] => ⟨[c, a], [], false⟩
      | a :: b :: s =>
        if isBreakPair a b then (quotedRest quote false s).push [c, a, b]
        else (quotedRest quote (a == 'z') (b :: s)).push [c, a]
    else (quotedRest quote false s).push [c]

/-- A string in quotes; the first character is the quote. -/
def quoted : List Char → Part
  | [] => .missing []
  | quote :: s => (quotedRest quote false s).push [quote]

theorem text_quotedRest (quote : Char) (skipping : Bool) (s : List Char) :
    (quotedRest quote skipping s).text = s := by
  fun_induction quotedRest quote skipping s with
  | case1 => rfl
  | case2 _ _ _ _ ih => rw [Part.text_push, ih]; rfl
  | case3 => rfl
  | case4 => rfl
  | case5 => rfl
  | case6 => rfl
  | case7 _ _ _ _ _ _ _ _ _ _ ih => rw [Part.text_push, ih]; rfl
  | case8 _ _ _ _ _ _ _ _ _ _ ih => rw [Part.text_push, ih]; rfl
  | case9 _ _ _ _ _ _ _ ih => rw [Part.text_push, ih]; rfl

theorem text_quoted (s : List Char) : (quoted s).text = s := by
  cases s with
  | nil => rfl
  | cons quote s => rw [quoted, Part.text_push, text_quotedRest]; rfl

end LuaFrontend.Lexeme
