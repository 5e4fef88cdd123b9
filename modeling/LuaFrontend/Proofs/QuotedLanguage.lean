import LuaFrontend.Source.Class
import Mathlib.Computability.Language
import Mathlib.Data.List.TakeWhile

set_option autoImplicit false

/-
The language of quoted strings, byte by byte. A string is a sequence of items between two quotes,
and an item may depend on what is behind it: line ends and the white space of `\z` are taken as far
as they go. A text can be cut into items in one way only.
-/

namespace LuaFrontend.Lexeme.Quotation

/-- The bytes of a text in UTF-8. -/
def bytesOf (text : List Char) : List UInt8 := text.flatMap String.utf8EncodeChar

@[simp] theorem bytesOf_nil : bytesOf [] = [] := rfl

@[simp] theorem bytesOf_cons (c : Char) (text : List Char) :
    bytesOf (c :: text) = String.utf8EncodeChar c ++ bytesOf text := rfl

@[simp] theorem bytesOf_append (a b : List Char) : bytesOf (a ++ b) = bytesOf a ++ bytesOf b :=
  List.flatMap_append

def backslash : UInt8 := '\\'.toUInt8

/-- The byte that `\z` is written with. -/
def skipMark : UInt8 := 'z'.toUInt8

def isBreakByte (b : UInt8) : Bool := isLineBreak (.ofUInt8 b)

def isSpaceByte (b : UInt8) : Bool := isSpace (.ofUInt8 b)

/-- Two line break bytes that count as one line end. -/
def isBytePair (a b : UInt8) : Bool := isBreakPair (.ofUInt8 a) (.ofUInt8 b)

/-- One line end before what is behind it: a pair, or one byte that makes no pair. -/
inductive IsLineEnd : List UInt8 → List UInt8 → Prop
  | pair {a b : UInt8} {behind : List UInt8} (pair : isBytePair a b) : IsLineEnd [a, b] behind
  | single {a : UInt8} {behind : List UInt8} (breaks : isBreakByte a)
    (alone : ∀ b ∈ behind.head?, isBytePair a b = false) : IsLineEnd [a] behind

/-- One item of a string before what is behind it. A backslash takes one line end, or `z` and all
the white space there, or any other byte. -/
inductive IsItem (quote : UInt8) : List UInt8 → List UInt8 → Prop
  | plain {b : UInt8} {behind : List UInt8} (noQuote : b ≠ quote) (noEscape : b ≠ backslash)
    (inline : isBreakByte b = false) : IsItem quote [b] behind
  | lineEnd {ending behind : List UInt8} (isEnd : IsLineEnd ending behind) :
    IsItem quote (backslash :: ending) behind
  | skip {space behind : List UInt8} (all : ∀ b ∈ space, isSpaceByte b)
    (maximal : ∀ b ∈ behind.head?, isSpaceByte b = false) :
    IsItem quote (backslash :: skipMark :: space) behind
  | escape {b : UInt8} {behind : List UInt8} (noSkip : b ≠ skipMark)
    (inline : isBreakByte b = false) : IsItem quote [backslash, b] behind

/-- Any number of items before what is behind the last one. -/
inductive Items (quote : UInt8) : List UInt8 → List UInt8 → Prop
  | nil {behind : List UInt8} : Items quote [] behind
  | cons {item others behind : List UInt8} (first : IsItem quote item (others ++ behind))
    (rest : Items quote others behind) : Items quote (item ++ others) behind

/-- Items between two quotes. -/
def strings (quote : UInt8) : Language UInt8 :=
  {w | ∃ items, w = quote :: (items ++ [quote]) ∧ Items quote items [quote]}

/-- Behind the quote and these items stands a line break that no item covers. -/
def BreaksBehind (quote : UInt8) (s items : List UInt8) : Prop :=
  ∃ behind, s = quote :: (items ++ behind) ∧ Items quote items behind ∧
    ∃ b ∈ behind.head?, isBreakByte b

/-- No item can begin here. -/
def IsStuck (quote : UInt8) (s : List UInt8) : Prop :=
  ∀ item behind, s = item ++ behind → ¬ IsItem quote item behind

section Single

theorem isBreakByte_of_pair {a b : UInt8} (h : isBytePair a b) : isBreakByte a ∧ isBreakByte b :=
  isLineBreak_of_isBreakPair h

variable {ending others behind further : List UInt8}

theorem IsLineEnd.breaks (h : IsLineEnd ending behind) : ∃ a rest, ending = a :: rest ∧
    isBreakByte a := by
  cases h with
  | pair pair => exact ⟨_, _, rfl, (isBreakByte_of_pair pair).1⟩
  | single breaks => exact ⟨_, _, rfl, breaks⟩

theorem IsLineEnd.unique (h : IsLineEnd ending behind) (g : IsLineEnd others further)
    (same : ending ++ behind = others ++ further) : ending = others := by
  cases h with
  | pair pair =>
    cases g with
    | pair => simp_all
    | single breaks alone =>
      simp only [List.cons_append, List.nil_append, List.cons.injEq] at same
      obtain ⟨rfl, rfl⟩ := same
      rw [alone _ rfl] at pair
      cases pair
  | single breaks alone =>
    cases g with
    | pair pair =>
      simp only [List.cons_append, List.nil_append, List.cons.injEq] at same
      obtain ⟨rfl, rfl⟩ := same
      rw [alone _ rfl] at pair
      cases pair
    | single => simp_all

/-- A run of white space that goes as far as it can is determined by the text. -/
theorem run_unique {first second : List UInt8} (h : ∀ b ∈ first, isSpaceByte b)
    (g : ∀ b ∈ second, isSpaceByte b) (stops : ∀ b ∈ behind.head?, isSpaceByte b = false)
    (alsoStops : ∀ b ∈ further.head?, isSpaceByte b = false)
    (same : first ++ behind = second ++ further) : first = second := by
  have none (rest : List UInt8) (stops : ∀ b ∈ rest.head?, isSpaceByte b = false) :
      rest.takeWhile isSpaceByte = [] := by
    cases rest with
    | nil => rfl
    | cons b rest => rw [List.takeWhile_cons_of_neg (by simp [stops b rfl])]
  have runs := congrArg (List.takeWhile isSpaceByte) same
  rwa [List.takeWhile_append_of_pos h, List.takeWhile_append_of_pos g, none _ stops,
    none _ alsoStops, List.append_nil, List.append_nil] at runs

end Single

section Cuts

variable {quote : UInt8} {item other items others behind further : List UInt8}

theorem IsItem.ne_nil (h : IsItem quote item behind) : item ≠ [] := by
  cases h <;> exact List.cons_ne_nil _ _

/-- An item looks at most at the first byte behind it. -/
theorem IsItem.of_head (h : IsItem quote item behind) (same : further.head? = behind.head?) :
    IsItem quote item further := by
  cases h with
  | plain noQuote noEscape inline => exact .plain noQuote noEscape inline
  | lineEnd isEnd =>
    refine .lineEnd ?_
    cases isEnd with
    | pair pair => exact .pair pair
    | single breaks alone => exact .single breaks (same ▸ alone)
  | skip all maximal => exact .skip all (same ▸ maximal)
  | escape noSkip inline => exact .escape noSkip inline

theorem IsItem.unique (h : IsItem quote item behind) (g : IsItem quote other further)
    (same : item ++ behind = other ++ further) : item = other := by
  cases h with
  | plain noQuote noEscape inline =>
    cases g with
    | plain => simp_all
    | _ => exact absurd (List.cons.inj same).1 noEscape
  | lineEnd isEnd =>
    obtain ⟨a, rest, rfl, breaks⟩ := isEnd.breaks
    cases g with
    | plain noQuote noEscape inline => exact absurd (List.cons.inj same).1.symm noEscape
    | lineEnd alsoEnd =>
      rw [isEnd.unique alsoEnd (List.cons.inj same).2]
    | skip =>
      obtain rfl := (List.cons.inj (List.cons.inj same).2).1
      cases breaks
    | escape noSkip inline =>
      obtain rfl := (List.cons.inj (List.cons.inj same).2).1
      rw [inline] at breaks
      cases breaks
  | skip all maximal =>
    cases g with
    | plain noQuote noEscape inline => exact absurd (List.cons.inj same).1.symm noEscape
    | lineEnd isEnd =>
      obtain ⟨a, rest, rfl, breaks⟩ := isEnd.breaks
      obtain rfl := (List.cons.inj (List.cons.inj same).2).1
      cases breaks
    | skip alsoAll alsoMaximal =>
      rw [run_unique all alsoAll maximal alsoMaximal (List.cons.inj (List.cons.inj same).2).2]
    | escape noSkip inline => exact absurd (List.cons.inj (List.cons.inj same).2).1.symm noSkip
  | escape noSkip inline =>
    cases g with
    | plain noQuote noEscape inline => exact absurd (List.cons.inj same).1.symm noEscape
    | lineEnd isEnd =>
      obtain ⟨a, rest, rfl, breaks⟩ := isEnd.breaks
      obtain rfl := (List.cons.inj (List.cons.inj same).2).1
      rw [inline] at breaks
      cases breaks
    | skip => exact absurd (List.cons.inj (List.cons.inj same).2).1 noSkip
    | escape => simp_all

theorem Items.of_head (h : Items quote items behind) (same : further.head? = behind.head?) :
    Items quote items further := by
  induction h with
  | nil => exact .nil
  | cons first rest ih => exact .cons (first.of_head (by simp [same])) (ih same)

/-- Two ways of cutting a text into items as far as possible are the same. -/
theorem Items.unique (h : Items quote items behind) (g : Items quote others further)
    (stuck : IsStuck quote behind) (alsoStuck : IsStuck quote further)
    (same : items ++ behind = others ++ further) : items = others := by
  induction h generalizing others with
  | nil =>
    cases g with
    | nil => rfl
    | cons first =>
      rw [List.nil_append, List.append_assoc] at same
      exact absurd first (stuck _ _ same)
  | cons first rest ih =>
    rw [List.append_assoc] at same
    cases g with
    | nil => exact absurd first (alsoStuck _ _ same.symm)
    | cons alsoFirst alsoRest =>
      rw [List.append_assoc] at same
      obtain rfl := first.unique alsoFirst same
      rw [ih alsoRest stuck (List.append_cancel_left same)]

theorem isStuck_nil : IsStuck quote [] := by
  intro item behind same isItem
  exact isItem.ne_nil (List.append_eq_nil_iff.mp same.symm).1

/-- A backslash needs something behind it. -/
theorem isStuck_backslash : IsStuck quote [backslash] := by
  intro item behind same isItem
  cases isItem with
  | plain noQuote noEscape inline => exact noEscape (List.cons.inj same).1.symm
  | lineEnd isEnd =>
    obtain ⟨a, rest, rfl, -⟩ := isEnd.breaks
    simp at same
  | skip => simp at same
  | escape => simp at same

/-- No item begins with a quote or a line break. -/
theorem isStuck_of_head {b : UInt8} (first : b ∈ behind.head?) (noEscape : b ≠ backslash)
    (stops : b = quote ∨ isBreakByte b) : IsStuck quote behind := by
  obtain ⟨rest, rfl⟩ := List.head?_eq_some_iff.mp first
  intro item further same isItem
  cases isItem with
  | plain noQuote _ inline =>
    obtain rfl := (List.cons.inj same).1
    rcases stops with rfl | breaks
    · exact noQuote rfl
    · rw [inline] at breaks
      cases breaks
  | _ => exact noEscape (List.cons.inj same).1

theorem ne_backslash_of_isBreakByte {b : UInt8} (h : isBreakByte b) : b ≠ backslash := by
  rintro rfl
  cases h

/-- Where another way of cutting leads to a line break, that line break is behind these items. -/
theorem BreaksBehind.unique (h : BreaksBehind quote (quote :: (items ++ behind)) others)
    (cut : Items quote items behind) (stuck : IsStuck quote behind) :
    others = items ∧ ∃ b ∈ behind.head?, isBreakByte b := by
  obtain ⟨further, same, alsoCut, b, first, breaks⟩ := h
  have rest := (List.cons.inj same).2
  have alsoStuck : IsStuck quote further :=
    isStuck_of_head first (ne_backslash_of_isBreakByte breaks) (.inr breaks)
  obtain rfl := cut.unique alsoCut stuck alsoStuck rest
  obtain rfl := List.append_cancel_left rest
  exact ⟨rfl, b, first, breaks⟩

variable (noEscape : quote ≠ backslash)

include noEscape

theorem isStuck_quote (behind : List UInt8) : IsStuck quote (quote :: behind) :=
  isStuck_of_head rfl noEscape (.inl rfl)

/-- If the items behind a quote do not lead to another one, no front of the text is a string. -/
theorem notMem_strings {w : List UInt8} (cut : Items quote items behind)
    (stuck : IsStuck quote behind) (open_ : behind.head? ≠ some quote)
    (front : w <+: quote :: (items ++ behind)) : w ∉ strings quote := by
  rintro ⟨others, rfl, alsoCut⟩
  obtain ⟨further, same⟩ := front
  simp only [List.cons_append, List.append_assoc, List.nil_append, List.cons.injEq,
    true_and] at same
  have there : Items quote others (quote :: further) := alsoCut.of_head rfl
  obtain rfl := there.unique cut (isStuck_quote noEscape _) stuck same
  obtain rfl := List.append_cancel_left same
  exact open_ rfl

/-- At most one front of a text is a string. -/
theorem strings_unique {s v w : List UInt8} (front : v <+: s) (also : w <+: s)
    (isString : v ∈ strings quote) (alsoString : w ∈ strings quote) : v = w := by
  obtain ⟨items, rfl, cut⟩ := isString
  obtain ⟨others, rfl, alsoCut⟩ := alsoString
  obtain ⟨behind, rfl⟩ := front
  obtain ⟨further, same⟩ := also
  simp only [List.cons_append, List.append_assoc, List.nil_append, List.cons.injEq,
    true_and] at same
  have here : Items quote items (quote :: behind) := cut.of_head rfl
  have there : Items quote others (quote :: further) := alsoCut.of_head rfl
  rw [here.unique there (isStuck_quote noEscape _) (isStuck_quote noEscape _) same.symm]

end Cuts

end LuaFrontend.Lexeme.Quotation
