import LuaFrontend.Proofs.QuotedLanguage
import LuaFrontend.Proofs.ReportedPositions
import LuaFrontend.Proofs.ScannerMoves

set_option autoImplicit false

namespace LuaFrontend

namespace Lexeme.Quotation

section Bytes

variable {c d : Char} {b : UInt8}

theorem isSpaceByte_of_mem (h : b ∈ String.utf8EncodeChar c) : isSpaceByte b = isSpace c :=
  test_of_mem_utf8EncodeChar (fun _ => utf8Size_of_isSpace) h

theorem isBreakByte_of_mem (h : b ∈ String.utf8EncodeChar c) : isBreakByte b = isLineBreak c :=
  test_of_mem_utf8EncodeChar (fun _ => utf8Size_of_isLineBreak) h

/-- Only an ASCII character has its byte among its bytes. -/
theorem ne_toUInt8_of_mem (ascii : d.utf8Size = 1) (other : c ≠ d)
    (h : b ∈ String.utf8EncodeChar c) : b ≠ d.toUInt8 := by
  rintro rfl
  have isAscii (c : Char) (is : c == d) : c.utf8Size = 1 := by
    rw [beq_iff_eq.mp is]
    exact ascii
  have same := test_of_mem_utf8EncodeChar isAscii h
  rw [Char.toUInt8, ofUInt8_of_utf8Size ascii] at same
  simp [other] at same

theorem bytesOf_singleton (one : c.utf8Size = 1) (text : List Char) :
    bytesOf (c :: text) = c.toUInt8 :: bytesOf text := by
  rw [bytesOf_cons, String.utf8EncodeChar_eq_singleton one]
  rfl

theorem length_bytesOf (text : List Char) : (bytesOf text).length = byteLength text :=
  length_flatMap_utf8EncodeChar text

/-- What holds of the first byte holds of the first character. -/
theorem head?_bytesOf {test : Char → Bool} {result : Bool} (ascii : ∀ c, test c → c.utf8Size = 1)
    {text : List Char} (h : ∀ c ∈ text.head?, test c = result) :
    ∀ b ∈ (bytesOf text).head?, test (.ofUInt8 b) = result := by
  intro b first
  cases text with
  | nil => cases first
  | cons c text =>
    obtain ⟨a, rest, bytes⟩ := exists_utf8EncodeChar c
    rw [bytesOf_cons, bytes] at first
    obtain rfl := Option.some.inj first
    rw [test_of_mem_utf8EncodeChar ascii (bytes ▸ List.mem_cons_self), h c rfl]

end Bytes

section Items

/-- The two signs that strings stand between. -/
def IsQuote (quote : Char) : Prop := quote = '"' ∨ quote = '\''

variable {quote c : Char} {items behind : List UInt8}

theorem IsQuote.utf8Size (h : IsQuote quote) : quote.utf8Size = 1 := by
  rcases h with rfl | rfl <;> rfl

theorem IsQuote.ne_backslash (h : IsQuote quote) : quote.toUInt8 ≠ backslash := by
  rcases h with rfl | rfl <;> decide

theorem IsQuote.start (h : IsQuote quote) (dialect : Dialect) (s : List Char) :
    start dialect (quote :: s) = .quote := by
  rcases h with rfl | rfl <;> simp [Lexeme.start, isNameStart]

/-- Bytes that are neither the quote, nor a backslash, nor a line break. -/
theorem Items.plain {q : UInt8} {bytes : List UInt8}
    (h : ∀ b ∈ bytes, b ≠ q ∧ b ≠ backslash ∧ isBreakByte b = false)
    (rest : Items q items behind) : Items q (bytes ++ items) behind := by
  induction bytes with
  | nil => exact rest
  | cons b bytes ih =>
    obtain ⟨noQuote, noEscape, inline⟩ := h b List.mem_cons_self
    exact @Items.cons q [b] _ _ (.plain noQuote noEscape inline)
      (ih fun a member => h a (List.mem_cons_of_mem b member))

theorem Items.char (isQuote : IsQuote quote) (noQuote : c ≠ quote) (noEscape : c ≠ '\\')
    (inline : isLineBreak c = false) (rest : Items quote.toUInt8 items behind) :
    Items quote.toUInt8 (String.utf8EncodeChar c ++ items) behind :=
  .plain (fun _ member => ⟨ne_toUInt8_of_mem isQuote.utf8Size noQuote member,
    ne_toUInt8_of_mem rfl noEscape member, (isBreakByte_of_mem member).trans inline⟩) rest

/-- A backslash takes the first byte of a character; the other ones stand for themselves. -/
theorem Items.escaped (isQuote : IsQuote quote) (noSkip : c ≠ 'z') (inline : isLineBreak c = false)
    (rest : Items quote.toUInt8 items behind) :
    Items quote.toUInt8 (backslash :: (String.utf8EncodeChar c ++ items)) behind := by
  obtain ⟨b, others, bytes⟩ := exists_utf8EncodeChar c
  have first : b ∈ String.utf8EncodeChar c := bytes ▸ List.mem_cons_self
  have item (further : List UInt8) : IsItem quote.toUInt8 [backslash, b] further :=
    .escape (ne_toUInt8_of_mem rfl noSkip first) ((isBreakByte_of_mem first).trans inline)
  rw [bytes]
  refine @Items.cons _ [backslash, b] _ _ (item _) (.plain (fun a member => ?_) rest)
  have more : c.utf8Size ≠ 1 := by
    intro one
    rw [String.utf8EncodeChar_eq_singleton one] at bytes
    obtain ⟨-, rfl⟩ := List.cons.inj bytes
    cases member
  have isPart : a ∈ String.utf8EncodeChar c := bytes ▸ List.mem_cons_of_mem b member
  have notAscii {d : Char} (ascii : d.utf8Size = 1) : c ≠ d := by
    rintro rfl
    exact more ascii
  exact ⟨ne_toUInt8_of_mem isQuote.utf8Size (notAscii isQuote.utf8Size) isPart,
    ne_toUInt8_of_mem rfl (notAscii rfl) isPart, (isBreakByte_of_mem isPart).trans inline⟩

/-- A backslash and the character behind it, if white space does not come in. -/
theorem Items.escape {a : Char} {s : List Char} (isQuote : IsQuote quote) (noSkip : a ≠ 'z')
    (alone : ∀ b ∈ s.head?, isBreakPair a b = false) (split : bytesOf s = items ++ behind)
    (rest : Items quote.toUInt8 items behind) :
    Items quote.toUInt8 (bytesOf ['\\', a] ++ items) behind := by
  cases breaks : isLineBreak a with
  | false =>
    rw [bytesOf_singleton rfl, bytesOf_cons, bytesOf_nil, List.append_nil]
    exact rest.escaped isQuote noSkip breaks
  | true =>
    have one := utf8Size_of_isLineBreak breaks
    have isPair (c : Char) (pair : isBreakPair a c) : c.utf8Size = 1 :=
      utf8Size_of_isLineBreak (isLineBreak_of_isBreakPair pair).2
    have single : IsLineEnd [a.toUInt8] (items ++ behind) := by
      refine .single ?_ ?_
      · rwa [isBreakByte, Char.toUInt8, ofUInt8_of_utf8Size one]
      · rw [← split]
        intro b first
        rw [isBytePair, Char.toUInt8, ofUInt8_of_utf8Size one]
        exact head?_bytesOf isPair alone b first
    rw [bytesOf_singleton rfl, bytesOf_singleton one]
    exact .cons (.lineEnd single) rest

theorem Items.pair {q : UInt8} {a b : Char} (pair : isBreakPair a b)
    (rest : Items q items behind) : Items q (bytesOf ['\\', a, b] ++ items) behind := by
  obtain ⟨first, second⟩ := isLineBreak_of_isBreakPair pair
  have one := utf8Size_of_isLineBreak first
  have also := utf8Size_of_isLineBreak second
  rw [bytesOf_singleton rfl, bytesOf_singleton one, bytesOf_singleton also]
  refine .cons (.lineEnd (.pair ?_)) rest
  rwa [isBytePair, Char.toUInt8, Char.toUInt8, ofUInt8_of_utf8Size one, ofUInt8_of_utf8Size also]

/-- `\z` with all the white space behind it. -/
theorem Items.skip {q : UInt8} {space s : List Char} (all : ∀ c ∈ space, isSpace c)
    (maximal : ∀ c ∈ s.head?, isSpace c = false) (split : bytesOf s = items ++ behind)
    (rest : Items q items behind) :
    Items q (bytesOf ('\\' :: 'z' :: space) ++ items) behind := by
  rw [bytesOf_singleton rfl, bytesOf_singleton rfl]
  refine .cons (.skip (fun b member => ?_) ?_) rest
  · obtain ⟨c, inside, isByte⟩ := List.mem_flatMap.mp member
    rw [isSpaceByte_of_mem isByte, all c inside]
  · rw [← split]
    exact head?_bytesOf (fun _ => utf8Size_of_isSpace) maximal

end Items

/-- How reading a string ends behind its items: at the quote, at a line break, or at the end of the
text, where a backslash may be left. -/
inductive Ends (quote : UInt8) (p : Part) (items behind : List UInt8) : Prop
  | closed (whole : p.complete = true) (taken : bytesOf p.taken = items ++ [quote])
    (next : behind.head? = some quote)
  | broken (half : p.complete = false) (taken : bytesOf p.taken = items)
    (next : ∃ b ∈ behind.head?, isBreakByte b)
  | unfinished (half : p.complete = false) (rest : p.rest = [])
    (next : behind = [] ∨ behind = [backslash])

section Reading

variable {quote : Char} {items behind bytes : List UInt8} {s : List Char} {p : Part}

theorem Ends.push {q : UInt8} (h : Ends q p items behind) (taken : List Char) :
    Ends q (p.push taken) (bytesOf taken ++ items) behind := by
  cases h with
  | closed whole same next =>
    exact .closed whole (by rw [Part.push, bytesOf_append, same, List.append_assoc]) next
  | broken half same next => exact .broken half (by rw [Part.push, bytesOf_append, same]) next
  | unfinished half rest next => exact .unfinished half rest next

/-- The text is cut into items up to where reading it ends. -/
def IsCut (quote : Char) (p : Part) (s : List Char) : Prop :=
  ∃ items behind, bytesOf s = items ++ behind ∧ Items quote.toUInt8 items behind ∧
    Ends quote.toUInt8 p items behind

/-- A cut text with more items in front of it. -/
theorem IsCut.push (h : IsCut quote p s) (taken : List Char)
    (item : ∀ items behind, bytesOf s = items ++ behind → Items quote.toUInt8 items behind →
      Items quote.toUInt8 (bytesOf taken ++ items) behind) :
    IsCut quote (p.push taken) (taken ++ s) := by
  obtain ⟨items, behind, split, cut, ends⟩ := h
  exact ⟨_, behind, by rw [bytesOf_append, split, List.append_assoc], item items behind split cut,
    ends.push taken⟩

theorem isCut_end : IsCut quote ⟨s, [], false⟩ [] :=
  ⟨[], [], rfl, .nil, .unfinished rfl rfl (.inl rfl)⟩

/-- Behind `\z` reading goes on behind the white space. -/
theorem isCut_skip (s : List Char)
    (h : IsCut quote (quotedRest quote false (s.dropWhile isSpace)) (s.dropWhile isSpace)) :
    IsCut quote ((quotedRest quote true s).push ['\\', 'z']) ('\\' :: 'z' :: s) := by
  have whole : '\\' :: 'z' :: s =
      ('\\' :: 'z' :: s.takeWhile isSpace) ++ s.dropWhile isSpace := by
    simp [List.takeWhile_append_dropWhile]
  rw [whole, quotedRest_skipping]
  refine h.push _ fun items behind split cut => ?_
  refine cut.skip (fun c => List.mem_takeWhile_imp) (fun c first => ?_) split
  have stops := List.head?_dropWhile_not isSpace s
  rwa [Option.mem_def.mp first] at stops

/-- Behind a backslash and one other character. -/
theorem isCut_single (isQuote : IsQuote quote) {a : Char} (noSkip : a ≠ 'z')
    (alone : ∀ b ∈ s.head?, isBreakPair a b = false) (h : IsCut quote p s) :
    IsCut quote (p.push ['\\', a]) ('\\' :: a :: s) :=
  h.push ['\\', a] fun _ _ split cut => cut.escape isQuote noSkip alone split

/-- Behind a backslash. -/
theorem isCut_escape (isQuote : IsQuote quote) (s : List Char)
    (others : ∀ {t : List Char}, t.length ≤ s.length → IsCut quote (quotedRest quote false t) t) :
    IsCut quote (quotedRest quote false ('\\' :: s)) ('\\' :: s) := by
  have other : ¬ ('\\' == quote) = true := by
    rcases isQuote with rfl | rfl <;> decide
  have inline : ¬ isLineBreak '\\' = true := by decide
  rw [quotedRest_cons]
  simp only [Bool.false_and, Bool.false_eq_true, if_false, if_neg other, if_neg inline,
    beq_self_eq_true, if_true]
  match s with
  | [] => exact ⟨[], [backslash], rfl, .nil, .unfinished rfl rfl (.inr rfl)⟩
  | [a] =>
    by_cases skips : a = 'z'
    · subst skips
      exact isCut_skip [] isCut_end
    · exact isCut_single isQuote skips (fun b first => by cases first) isCut_end
  | a :: b :: s =>
    dsimp only
    split
    · next pair =>
      exact (others (by simp; omega)).push ['\\', a, b] fun _ _ _ cut => cut.pair pair
    · next alone =>
      by_cases skips : a = 'z'
      · subst skips
        have shorter := List.length_dropWhile_le isSpace (b :: s)
        exact isCut_skip (b :: s) (others (by simp at shorter ⊢; omega))
      · rw [beq_eq_false_iff_ne.mpr skips]
        refine isCut_single isQuote skips (fun c first => ?_) (others (by simp))
        obtain rfl := Option.some.inj first
        simpa using alone

/-- Reading goes on from a place where no white space is skipped, so the induction is on how much
text is left: behind `\z` it is less by a whole run. -/
theorem isCut_quotedRest (isQuote : IsQuote quote) (s : List Char) :
    IsCut quote (quotedRest quote false s) s := by
  induction size : s.length using Nat.strong_induction_on generalizing s with
  | _ n ih =>
    subst size
    cases s with
    | nil => exact isCut_end
    | cons c s =>
      by_cases escapes : c = '\\'
      · subst escapes
        exact isCut_escape isQuote s fun less => ih _ (Nat.lt_succ_of_le less) _ rfl
      rw [quotedRest_cons]
      simp only [Bool.false_and, Bool.false_eq_true, if_false, beq_iff_eq, if_neg escapes]
      split
      · next breaks =>
        have one := utf8Size_of_isLineBreak breaks
        refine ⟨[], bytesOf (c :: s), rfl, .nil, .broken rfl rfl ⟨c.toUInt8, ?_, ?_⟩⟩
        · rw [bytesOf_singleton one]
          rfl
        · rwa [isBreakByte, Char.toUInt8, ofUInt8_of_utf8Size one]
      split
      · next closes =>
        subst closes
        have one := isQuote.utf8Size
        refine ⟨[], bytesOf (c :: s), rfl, .nil, .closed rfl (bytesOf_singleton one []) ?_⟩
        rw [bytesOf_singleton one]
        rfl
      · next inline closes =>
        refine (ih _ (Nat.lt_succ_self _) s rfl).push [c] fun items behind split cut => ?_
        rw [bytesOf_cons, bytesOf_nil, List.append_nil]
        exact cut.char isQuote closes escapes (by simpa using inline)

end Reading

theorem Ends.isStuck {q : UInt8} {p : Part} {items behind : List UInt8} (h : Ends q p items behind)
    (noEscape : q ≠ backslash) : IsStuck q behind := by
  cases h with
  | closed _ _ next => exact isStuck_of_head next noEscape (.inl rfl)
  | broken _ _ next =>
    obtain ⟨b, first, breaks⟩ := next
    exact isStuck_of_head first (ne_backslash_of_isBreakByte breaks) (.inr breaks)
  | unfinished _ _ next =>
    rcases next with rfl | rfl
    · exact isStuck_nil
    · exact isStuck_backslash

theorem IsQuote.isBreakByte {quote : Char} (h : IsQuote quote) :
    isBreakByte quote.toUInt8 = false := by
  rcases h with rfl | rfl <;> rfl

/-- What does not end at the quote is no string. -/
theorem Ends.open_ {quote : Char} {p : Part} {items behind : List UInt8}
    (h : Ends quote.toUInt8 p items behind) (isQuote : IsQuote quote) (half : p.complete = false) :
    behind.head? ≠ some quote.toUInt8 := by
  intro closes
  cases h with
  | closed whole =>
    rw [whole] at half
    cases half
  | broken _ _ next =>
    obtain ⟨b, first, breaks⟩ := next
    rw [closes] at first
    obtain rfl := Option.some.inj first
    rw [isQuote.isBreakByte] at breaks
    cases breaks
  | unfinished _ _ next =>
    rcases next with rfl | rfl
    · cases closes
    · exact isQuote.ne_backslash (Option.some.inj closes).symm

section Results

variable {quote : Char} {rest : List Char} (isQuote : IsQuote quote)

include isQuote

/-- What is read to its closing quote is a string. -/
theorem mem_strings_of_complete (whole : (quotedRest quote false rest).complete) :
    bytesOf (quote :: (quotedRest quote false rest).taken) ∈ strings quote.toUInt8 := by
  obtain ⟨items, behind, -, cut, ends⟩ := isCut_quotedRest isQuote rest
  cases ends with
  | closed _ taken next =>
    refine ⟨items, ?_, cut.of_head next.symm⟩
    rw [bytesOf_singleton isQuote.utf8Size, taken]
  | broken half => simp [whole] at half
  | unfinished half => simp [whole] at half

/-- Where reading stops early, no front of the text is a string. -/
theorem notMem_strings_of_half (half : (quotedRest quote false rest).complete = false)
    {w : List UInt8} (front : w <+: bytesOf (quote :: rest)) : w ∉ strings quote.toUInt8 := by
  obtain ⟨items, behind, split, cut, ends⟩ := isCut_quotedRest isQuote rest
  rw [bytesOf_singleton isQuote.utf8Size, split] at front
  exact notMem_strings isQuote.ne_backslash cut (ends.isStuck isQuote.ne_backslash)
    (ends.open_ isQuote half) front

/-- Reading stops at the line break that no item covers, if there is one, and else takes all. -/
theorem stops_of_half (half : (quotedRest quote false rest).complete = false) :
    (∀ items, BreaksBehind quote.toUInt8 (bytesOf (quote :: rest)) items →
      byteLength (quotedRest quote false rest).taken = items.length) ∧
    ((∀ items, ¬ BreaksBehind quote.toUInt8 (bytesOf (quote :: rest)) items) →
      (quotedRest quote false rest).taken = rest) := by
  obtain ⟨items, behind, split, cut, ends⟩ := isCut_quotedRest isQuote rest
  have stuck := ends.isStuck isQuote.ne_backslash
  have text := text_quotedRest quote false rest
  rw [bytesOf_singleton isQuote.utf8Size, split]
  cases ends with
  | closed whole => simp [half] at whole
  | broken _ taken next =>
    refine ⟨fun others breaks => ?_, fun none => ?_⟩
    · rw [(breaks.unique cut stuck).1, ← taken, length_bytesOf]
    · exact absurd ⟨behind, rfl, cut, next⟩ (none items)
  | unfinished _ last next =>
    refine ⟨fun others breaks => ?_, fun _ => by rwa [Part.text, last, List.append_nil] at text⟩
    -- The items are those that were read, but behind them there is no line break.
    obtain ⟨-, b, first, isBreak⟩ := breaks.unique cut stuck
    rcases next with rfl | rfl
    · cases first
    · obtain rfl := Option.some.inj first
      cases isBreak

end Results

end Lexeme.Quotation

open Lexeme.Quotation in
/-- Where a token begins with a quote, at most one front of the text is a string. If one is, it is
the token; if not, the string is unfinished, and the error is at the first line break that no item
covers or, where there is none, at the end of the text. -/
theorem strings_are_read_exactly (dialect : Dialect) (source : String) (calls : Nat) {quote : Char}
    (isQuote : IsQuote quote)
    (begins : ((Tokenizer.ofSource dialect source).after calls).skipSpace.rest.head? =
      some quote) :
    let t := (Tokenizer.ofSource dialect source).after calls
    let s := bytesOf t.skipSpace.rest
    (∀ v w, v <+: s → w <+: s → v ∈ strings quote.toUInt8 → w ∈ strings quote.toUInt8 → v = w) ∧
    (∀ w, w <+: s → w ∈ strings quote.toUInt8 → ∃ text, bytesOf text = w ∧
      t.next.1 = .ok ⟨.string, String.ofList text, t.skipSpace.here⟩) ∧
    ((∀ w, w <+: s → w ∉ strings quote.toUInt8) → ∃ e, t.next.1 = .error e ∧
      e.fault = .unfinishedString ∧ e.start = t.skipSpace.here ∧
      (∀ items, BreaksBehind quote.toUInt8 s items →
        e.position.offset = t.skipSpace.here.offset + (1 + items.length)) ∧
      ((∀ items, ¬ BreaksBehind quote.toUInt8 s items) →
        e.position.offset = source.utf8ByteSize)) := by
  intro t s
  have stands : t.skipSpace.StandsIn source.toList :=
    ((Tokenizer.standsIn_ofSource dialect source).after calls).skipSpace
  obtain ⟨rest, whole⟩ := List.head?_eq_some_iff.mp begins
  have bytes : s = bytesOf (quote :: rest) := congrArg bytesOf whole
  have read : Lexeme.read t.dialect t.skipSpace.rest =
      .ofPart ((Lexeme.quotedRest quote false rest).push [quote]) .string .unfinishedString := by
    rw [whole, Lexeme.read, isQuote.start]
    rfl
  have next := Tokenizer.next_of_part read
  have text := Lexeme.text_quotedRest quote false rest
  refine ⟨fun v w => strings_unique isQuote.ne_backslash, ?_⟩
  rw [bytes]
  cases complete : (Lexeme.quotedRest quote false rest).complete with
  | true =>
    have isString := mem_strings_of_complete isQuote complete
    have front : bytesOf (quote :: (Lexeme.quotedRest quote false rest).taken) <+:
        bytesOf (quote :: rest) := by
      nth_rewrite 2 [← text]
      exact ⟨_, (bytesOf_append (quote :: _) _).symm⟩
    refine ⟨fun w begins is => ⟨_, strings_unique isQuote.ne_backslash front begins isString is, ?_⟩,
      fun none => absurd isString (none _ front)⟩
    rw [next, Lexeme.Part.push, complete]
    rfl
  | false =>
    refine ⟨fun w begins is => absurd is (notMem_strings_of_half isQuote complete begins),
      fun _ => ⟨⟨.unfinishedString, t.skipSpace.here,
        String.ofList (quote :: (Lexeme.quotedRest quote false rest).taken)⟩, ?_, rfl, rfl, ?_⟩⟩
    · rw [next, Lexeme.Part.push, complete]
      rfl
    · obtain ⟨atBreak, atEnd⟩ := stops_of_half isQuote complete
      simp only [LexError.position, Position.offset_after, String.toList_ofList, byteLength_cons,
        isQuote.utf8Size]
      refine ⟨fun items breaks => by rw [atBreak items breaks], fun none => ?_⟩
      rw [← stands.offset_add, whole, byteLength_cons, isQuote.utf8Size, atEnd none]

open Lexeme.Quotation in
/-- A backslash takes the pair of line break characters behind it, but the next line break is too
early. -/
theorem line_break_ends_string :
    let t := (Tokenizer.ofSource {} "x='a\\\r\nb\r'").after 2
    IsQuote '\'' ∧ t.skipSpace.rest.head? = some '\'' ∧
      ∃ e, t.next.1 = .error e ∧ e.fault = .unfinishedString ∧ e.position.offset = 8 := by
  intro t
  have begins : t.skipSpace.rest.head? = some '\'' := by decide +kernel
  obtain ⟨-, ofString, ofNone⟩ := strings_are_read_exactly {} "x='a\\\r\nb\r'" 2 (.inr rfl) begins
  have failed : t.next.1.toOption = none := by decide +kernel
  have noString : ∀ w, w <+: bytesOf t.skipSpace.rest → w ∉ strings '\''.toUInt8 := by
    intro w front isString
    obtain ⟨text, -, token⟩ := ofString w front isString
    rw [token] at failed
    cases failed
  obtain ⟨e, error, fault, -, atBreak, -⟩ := ofNone noString
  have plain (c : Char) (h : c = 'a' ∨ c = 'b') (behind : List UInt8) :
      IsItem '\''.toUInt8 [c.toUInt8] behind := by
    rcases h with rfl | rfl <;> exact .plain (by decide) (by decide) rfl
  have breaks : BreaksBehind '\''.toUInt8 (bytesOf t.skipSpace.rest)
      ['a'.toUInt8, backslash, '\r'.toUInt8, '\n'.toUInt8, 'b'.toUInt8] := by
    refine ⟨['\r'.toUInt8, '\''.toUInt8], by decide +kernel, ?_, _, rfl, rfl⟩
    refine .cons (plain 'a' (.inl rfl) _) (.cons (.lineEnd (.pair (a := '\r'.toUInt8)
      (b := '\n'.toUInt8) rfl)) (.cons (plain 'b' (.inr rfl) _) .nil))
  refine ⟨.inr rfl, begins, e, error, fault, (atBreak _ breaks).trans ?_⟩
  decide +kernel

end LuaFrontend
