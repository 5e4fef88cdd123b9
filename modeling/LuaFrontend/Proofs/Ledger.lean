import LuaFrontend.Grammar.Chunk
import LuaFrontend.Proofs.CursorReading
import LuaFrontend.Proofs.Room
import Mathlib.Algebra.Ring.Int.Defs

set_option autoImplicit false

/-
Keeping an account of a parse. Every production that is entered has its price, and every token that
is passed pays a fee. There is one rule for each way of putting parsers together, which says how the
account stands behind it, also where a run fails. What a token pays is known only where one is
passed for certain, which is never the end token.
-/

namespace LuaFrontend

open Outcome (IsInput)

/-- A sum of ones and zeros counts the ones. -/
theorem sum_eq_countP {α : Type} {value : α → Int} {counted : α → Bool}
    (h : ∀ a, value a = if counted a then 1 else 0) (l : List α) :
    (l.map value).sum = l.countP counted := by
  induction l with
  | nil => rfl
  | cons a l ih =>
    rw [List.map_cons, List.sum_cons, List.countP_cons, ih, h]
    split <;> omega

/-- What productions cost and what tokens pay. -/
structure Rates where
  price : Production → Int
  fee : Int

/-- The price of the production that is entered. -/
def Event.price (r : Rates) : Event → Int
  | enter p => r.price p
  | token _ | exit _ => 0

/-- Reading costs nothing. -/
theorem Event.sum_price_tokens (r : Rates) (tokens : List Token) :
    ((tokens.map token).map (price r)).sum = 0 := by
  induction tokens with
  | nil => rfl
  | cons t tokens ih => simpa [price] using ih

namespace Cursor

/-- What the productions entered so far have cost, less what the tokens passed have paid. -/
def balance (r : Rates) (c : Cursor) : Int :=
  (c.journal.map (Event.price r)).sum - r.fee * c.passed.length

variable {r : Rates} {c d : Cursor}

theorem balance_record (c : Cursor) (e : Event) :
    (c.record e).balance r = c.balance r + e.price r := by
  simp only [balance, record, List.map_cons, List.sum_cons]
  omega

theorem balance_record_exit (c : Cursor) (p : Production) :
    (c.record (.exit p)).balance r = c.balance r := by
  rw [balance_record, Event.price, Int.add_zero]

theorem balance_keep (c : Cursor) (t : Token) : (c.keep t).balance r = c.balance r := by
  have read : (c.record (.token t)).balance r = c.balance r := by
    rw [balance_record, Event.price, Int.add_zero]
  unfold keep
  split <;> exact read

/-- Reading costs nothing and passes nothing, also where it meets an error. -/
theorem balance_readFrom (wanted : Nat) (pending : List Outcome) (c : Cursor) :
    match readFrom wanted pending c with
    | .ok _ d | .error _ d => d.balance r = c.balance r := by
  induction pending generalizing c with
  | nil => rfl
  | cons o more ih =>
    cases o with
    | ok t =>
      rw [readFrom]
      by_cases enough : wanted ≤ c.ready.length
      · rw [if_pos enough]
        rfl
      · rw [if_neg enough, ← balance_keep c t]
        exact ih (c.keep t)
    | error e =>
      rw [readFrom]
      by_cases enough : wanted ≤ c.ready.length
      · rw [if_pos enough]
        rfl
      · rw [if_neg enough]
        rfl

theorem balance_of_read {wanted : Nat} (run : read wanted c = .ok () d) :
    d.balance r = c.balance r := by
  have same := balance_readFrom (r := r) wanted c.pending c
  rwa [show readFrom wanted c.pending c = _ from run] at same

theorem balance_of_read_error {wanted : Nat} {e : LexError} (run : read wanted c = .error e d) :
    d.balance r = c.balance r := by
  have same := balance_readFrom (r := r) wanted c.pending c
  rwa [show readFrom wanted c.pending c = _ from run] at same

/-- The token that is moved on from pays. -/
theorem balance_step {t : Token} {more : List Token} (ready : c.ready = t :: more) :
    c.step.balance r = c.balance r - r.fee := by
  simp only [step, ready, balance, List.length_cons]
  push_cast
  rw [Int.mul_add, Int.mul_one]
  omega

/-- A token that is moved on from pays, and one that is not is the last one. -/
theorem balance_of_advance (run : advance c = .ok () d) :
    d.balance r = c.balance r - r.fee ∨
      d.balance r = c.balance r ∧ c.upcoming = [.ok c.current] := by
  obtain ⟨_, e, read, result⟩ := Parser.bind_ok.mp run
  cases result
  cases ready : e.ready with
  | nil =>
    obtain ⟨passes, enough⟩ := passes_of_readFrom read
    have ended : e.pending = [] := enough.resolve_left (by simp [ready])
    refine .inr ⟨?_, upcoming_of_ready_nil passes ready ended⟩
    rw [← balance_of_read read, step, ready]
  | cons t more => exact .inl (by rw [balance_step ready, balance_of_read read])

theorem balance_of_advance_error {e : LexError} (run : advance c = .error e d) :
    d.balance r = c.balance r := by
  rcases bind_error.mp run with failed | ⟨_, f, -, result⟩
  · exact balance_of_read_error failed
  · cases result

/-- At the first token of a text nothing has been entered or passed. -/
theorem balance_of_opening {dialect : Dialect} {final : Token} {aside : List Token}
    {items : List Outcome} (h : opening dialect final aside items = .ok c) : c.balance r = 0 := by
  induction items generalizing aside with
  | nil =>
    cases h
    simpa [balance] using Event.sum_price_tokens r (final :: aside)
  | cons o items ih =>
    cases o with
    | error e => cases h
    | ok t =>
      rw [opening] at h
      split at h
      · exact ih h
      · cases h
        simpa [balance] using Event.sum_price_tokens r (t :: aside)

end Cursor

/-- At least so many tokens have paid. -/
def Rates.Lowers (r : Rates) (least : Nat) (n m : Int) : Prop :=
  ∃ taken : Nat, least ≤ taken ∧ m = n - r.fee * taken

namespace Parser

variable {α β : Type}

/-- How the account stands behind a result. -/
def Settles (r : Rates) (post : α → Int → Prop) (fails : Int → Prop) :
    EStateM.Result Error Cursor α → Prop
  | .ok a d => IsInput d.upcoming ∧ post a (d.balance r)
  | .error _ d => fails (d.balance r)

/-- Where such a token is current and the account stands at `n`, it stands behind the parser as the
two conditions say: the first one if the parser succeeds, the second one if it fails. -/
def PaysFrom (r : Rates) (start : Token → Prop) (n : Int) (p : Parser α) (post : α → Int → Prop)
    (fails : Int → Prop) : Prop :=
  ∀ ⦃c⦄, IsInput c.upcoming → start c.current → c.balance r = n → Settles r post fails (p c)

/-- The same at any token. -/
abbrev Pays (r : Rates) (n : Int) (p : Parser α) (post : α → Int → Prop)
    (fails : Int → Prop) : Prop :=
  PaysFrom r (fun _ => True) n p post fails

variable {r : Rates} {start : Token → Prop} {n : Int} {p q : Parser α} {post good : α → Int → Prop}
  {fine : β → Int → Prop} {fails : Int → Prop} {f : α → Parser β}

section Basics

theorem Pays.from (h : Pays r n p post fails) : PaysFrom r start n p post fails :=
  fun _ input _ stands => h input trivial stands

theorem PaysFrom.at {t : Token} (h : PaysFrom r start n p post fails) (holds : start t) :
    PaysFrom r (· = t) n p post fails := by
  rintro c input rfl stands
  exact h input holds stands

theorem PaysFrom.mono (h : PaysFrom r start n p good fails) (le : ∀ a m, good a m → post a m) :
    PaysFrom r start n p post fails := by
  intro c input begins stands
  have settles := h input begins stands
  cases run : p c with
  | ok a d =>
    rw [run] at settles
    exact settles.imp_right (le a _)
  | error e d =>
    rw [run] at settles
    exact settles

theorem pays_pure {a : α} (h : post a n) : PaysFrom r start n (pure a) post fails :=
  fun _ input _ stands => ⟨input, stands ▸ h⟩

theorem PaysFrom.bind (h : PaysFrom r start n p good fails)
    (next : ∀ a m, good a m → Pays r m (f a) fine fails) :
    PaysFrom r start n (p >>= f) fine fails := by
  intro c input begins stands
  have first := h input begins stands
  cases run : p c with
  | ok a d =>
    rw [run] at first
    rw [bind_eq_of_ok run]
    exact next a _ first.2 first.1 trivial rfl
  | error e d =>
    rw [run] at first
    rw [bind_eq_of_error run]
    exact first

theorem pays_ite {condition : Prop} [Decidable condition]
    (yes : PaysFrom r start n p post fails) (no : PaysFrom r start n q post fails) :
    PaysFrom r start n (if condition then p else q) post fails := by
  split
  · exact yes
  · exact no

theorem pays_production (production : Production)
    (h : PaysFrom r start (n + r.price production) p post fails) :
    PaysFrom r start n (Parser.production production p) post fails := by
  intro c input begins stands
  have entered := c.balance_record (r := r) (.enter production)
  have settles := h (c := c.record (.enter production)) input begins (by rw [entered, stands]; rfl)
  unfold Parser.production
  cases run : p (c.record (.enter production)) with
  | ok a d =>
    rw [run] at settles
    exact ⟨settles.1, (d.balance_record_exit production).symm ▸ settles.2⟩
  | error e d =>
    rw [run] at settles
    change fails ((d.record (.exit production)).balance r)
    rwa [d.balance_record_exit]

theorem pays_get_bind {g : Cursor → Parser β}
    (h : ∀ c : Cursor, start c.current → PaysFrom r (· = c.current) n (g c) fine fails) :
    PaysFrom r start n (get >>= g) fine fails :=
  fun c input begins stands => h c begins input rfl stands

theorem pays_current_bind {g : Token → Parser β}
    (h : ∀ t, start t → PaysFrom r (· = t) n (g t) fine fails) :
    PaysFrom r start n (current >>= g) fine fails :=
  fun c input begins stands => h c.current begins input rfl stands

theorem pays_failHere (fault : SyntaxFault) (safe : fails n) :
    PaysFrom r start n (failHere fault) post fails := by
  rintro c _ _ rfl
  exact safe

theorem pays_discard {p : Parser α} {post : Unit → Int → Prop}
    (h : PaysFrom r start n p (fun _ => post ()) fails) :
    PaysFrom r start n (discard p) post fails := by
  intro c input begins stands
  have settles := h input begins stands
  change Settles r post fails (EStateM.map _ p c)
  unfold EStateM.map
  cases run : p c with
  | ok a d =>
    rw [run] at settles
    exact settles
  | error e d =>
    rw [run] at settles
    exact settles

end Basics

section Tokens

/-- Looking at the next token changes nothing. -/
theorem pays_next (safe : fails n) :
    PaysFrom r start n (liftM Cursor.next : Parser Token) (fun _ m => m = n) fails := by
  rintro c input - rfl
  change Settles r _ fails (act Cursor.next c)
  unfold act
  cases run : Cursor.next c with
  | ok t d =>
    obtain ⟨_, e, read, result⟩ := bind_ok.mp run
    obtain ⟨-, rfl⟩ := pure_ok.mp result
    exact ⟨(Cursor.passes_of_next run).input input, Cursor.balance_of_read read⟩
  | error e d =>
    rcases Cursor.bind_error.mp run with failed | ⟨_, e, -, result⟩
    · change fails (d.balance r)
      rwa [Cursor.balance_of_read_error failed]
    · cases result

theorem pays_unexpected (safe : fails n) : PaysFrom r start n unexpected post fails := by
  refine pays_get_bind fun _ _ => (pays_next safe).bind fun _ m same => ?_
  rintro c _ _ rfl
  change fails (c.balance r)
  rwa [same]

/-- Moving on from any token but the last one. -/
theorem pays_advance_bind {g : Unit → Parser β} (safe : fails n)
    (next : Pays r (n - r.fee) (g ()) fine fails) :
    PaysFrom r Inside n (liftM Cursor.advance >>= g) fine fails := by
  rintro c input inside rfl
  change Settles r fine fails ((act Cursor.advance >>= g) c)
  simp only [Bind.bind, EStateM.bind, act]
  cases run : Cursor.advance c with
  | ok u d =>
    have passes := Cursor.passes_of_advance run input inside
    refine next (passes.input input) trivial ?_
    rcases Cursor.balance_of_advance (r := r) run with paid | ⟨-, last⟩
    · exact paid
    · rw [last] at input
      exact absurd rfl (input.tail_ne_nil inside)
  | error e d =>
    change fails (d.balance r)
    rwa [Cursor.balance_of_advance_error run]

theorem pays_advance (safe : fails n) :
    PaysFrom r start n (liftM Cursor.advance : Parser Unit) (fun _ => r.Lowers 0 n) fails := by
  rintro c input - rfl
  change Settles r _ fails (act Cursor.advance c)
  unfold act
  cases run : Cursor.advance c with
  | ok u d =>
    refine ⟨?_, ?_⟩
    · rcases Cursor.advance_cases c with ⟨e, same, passes, -⟩ | ⟨t, rest, e, same, passes, -⟩ |
        ⟨x, rest, e, same, -⟩
      all_goals
        rw [run] at same
        cases same
      · exact passes.input input
      · exact passes.input input
    · rcases Cursor.balance_of_advance (r := r) run with paid | ⟨same, -⟩
      · exact ⟨1, Nat.zero_le _, by rw [paid]; omega⟩
      · exact ⟨0, Nat.le_refl _, by rw [same]; omega⟩
  | error e d =>
    change fails (d.balance r)
    rwa [Cursor.balance_of_advance_error run]

/-- A token that is taken pays; otherwise the cursor stays where it is. -/
theorem pays_consume_bind {pattern : Pattern} {g : Bool → Parser β}
    (inside : ∀ t, pattern.accepts t → Inside t) (safe : fails n)
    (yes : Pays r (n - r.fee) (g true) fine fails) (no : PaysFrom r start n (g false) fine fails) :
    PaysFrom r start n (liftM (Cursor.consume pattern) >>= g) fine fails := by
  rw [liftM_consume]
  simp only [bind_assoc]
  refine pays_get_bind fun c holds => ?_
  split
  · next accepted =>
    simp only [bind_assoc, pure_bind]
    exact (pays_advance_bind safe yes).at (inside _ accepted)
  · rw [pure_bind]
    exact no.at holds

theorem pays_takes_bind {text : String} {g : Bool → Parser β} (safe : fails n)
    (yes : Pays r (n - r.fee) (g true) fine fails) (no : PaysFrom r start n (g false) fine fails) :
    PaysFrom r start n (takes text >>= g) fine fails :=
  pays_consume_bind (fun _ => isEnd_of_accepts) safe yes no

theorem pays_takes (text : String) (safe : fails n) :
    PaysFrom r start n (takes text) (fun taken m => m = if taken then n - r.fee else n) fails := by
  have alone : PaysFrom r start n (takes text >>= pure)
      (fun taken m => m = if taken then n - r.fee else n) fails :=
    pays_takes_bind safe (pays_pure rfl) (pays_pure rfl)
  rwa [bind_pure] at alone

theorem pays_expect_bind {text : String} {g : Unit → Parser β} (safe : fails n)
    (next : Pays r (n - r.fee) (g ()) fine fails) :
    PaysFrom r start n (expect text >>= g) fine fails := by
  rw [expect, bind_assoc]
  refine pays_takes_bind safe next ?_
  exact (pays_failHere (.expected (.text text)) safe : PaysFrom r start n _ (fun _ _ => False)
    fails).bind fun _ _ impossible => impossible.elim

theorem pays_identifier (safe : fails n) :
    PaysFrom r start n identifier (fun _ m => m = n - r.fee) fails := by
  refine pays_current_bind fun t _ => ?_
  split
  · next name =>
    have inside : Inside t := by simp [Inside, Token.isEnd, name]
    refine (pays_advance_bind safe ?_).at inside
    exact pays_pure rfl
  · exact pays_failHere _ safe

theorem pays_nextMatchesAny (patterns : List Pattern) (safe : fails n) :
    PaysFrom r start n (liftM (Cursor.nextMatchesAny patterns) : Parser Bool) (fun _ m => m = n)
      fails := by
  rw [liftM_nextMatchesAny]
  exact (pays_next safe).bind fun _ _ same => pays_pure same

end Tokens

section Parts

theorem pays_required (what : Expectation) {p : Parser (Option α)} {good : Option α → Int → Prop}
    (h : PaysFrom r start n p good fails) (present : ∀ a m, good (some a) m → post a m)
    (absent : ∀ m, good none m → fails m) :
    PaysFrom r start n (required what p) post fails := by
  refine h.bind fun result m isGood => ?_
  cases result with
  | some a => exact pays_pure (present a m isGood)
  | none => exact pays_failHere _ (absent m isGood)

theorem pays_behind {text : String} {post : Option α → Int → Prop} (safe : fails n)
    (present : Pays r (n - r.fee) p (fun a => post (some a)) fails) (absent : post none n) :
    PaysFrom r start n (behind text p) post fails :=
  pays_takes_bind safe (present.bind fun _ _ => pays_pure) (pays_pure absent)

/-- What every round of a loop keeps holds behind the loop. -/
theorem pays_many {step : Parser (Option α)} {keeps : List α → Int → Prop} (begins : keeps [] n)
    (round : ∀ l m, keeps l m → Pays r m step (fun part => keeps (l ++ part.toList)) fails) :
    Pays r n (many step) keeps fails := by
  -- Only the length of the bound counts, and it is not that of what is ahead in the next round.
  have upTo {γ : Type} (bound : List γ) (l : List α) (m : Int) (h : keeps l m) :
      Pays r m (manyUpTo step bound) (fun parts => keeps (l ++ parts)) fails := by
    induction bound generalizing l m with
    | nil => exact pays_pure (by rwa [List.append_nil])
    | cons _ bound ih =>
      refine (round l m h).bind fun part k kept => ?_
      cases part with
      | some a =>
        refine (ih (l ++ [a]) k kept).bind fun others i holds => pays_pure ?_
        rwa [List.append_assoc] at holds
      | none => exact pays_pure kept
  exact pays_get_bind fun c _ => (upTo c.ahead [] n begins).at trivial

theorem pays_grow {step : α → Parser (Option α)} {keeps : α → Int → Prop} {a : α}
    (begins : keeps a n)
    (round : ∀ a m, keeps a m → Pays r m (step a) (fun built => keeps (built.getD a)) fails) :
    Pays r n (grow step a) keeps fails := by
  have upTo {γ : Type} (bound : List γ) (a : α) (m : Int) (h : keeps a m) :
      Pays r m (growUpTo step bound a) keeps fails := by
    induction bound generalizing a m with
    | nil => exact pays_pure h
    | cons _ bound ih =>
      refine (round a m h).bind fun built k kept => ?_
      cases built with
      | some b => exact ih b k kept
      | none => exact pays_pure kept
  exact pays_get_bind fun c _ => (upTo c.ahead a n begins).at trivial

end Parts

end Parser

namespace Rates.Lowers

variable {r : Rates} {least more : Nat} {n m k : Int}

theorem refl (n : Int) : r.Lowers 0 n n := ⟨0, Nat.le_refl _, by simp⟩

theorem fee (n : Int) : r.Lowers 1 n (n - r.fee) := ⟨1, Nat.le_refl _, by simp⟩

theorem trans (h : r.Lowers least n m) (g : r.Lowers more m k) : r.Lowers (least + more) n k := by
  obtain ⟨taken, few, rfl⟩ := h
  obtain ⟨further, alsoFew, rfl⟩ := g
  refine ⟨taken + further, by omega, ?_⟩
  push_cast
  rw [Int.mul_add]
  omega

theorem any (h : r.Lowers least n m) : r.Lowers 0 n m := by
  obtain ⟨taken, -, same⟩ := h
  exact ⟨taken, Nat.zero_le _, same⟩

theorem of_takes {taken : Bool} (h : m = if taken then n - r.fee else n) : r.Lowers 0 n m := by
  subst h
  cases taken with
  | true => exact (fee n).any
  | false => exact refl n

end Rates.Lowers

namespace Grammar

open LuaFrontend.Parser

variable {r : Rates} {start : Token → Prop} {n : Int} {fails : Int → Prop}

section Tokens

theorem pays_consumeNext (pattern : Pattern) (safe : ∀ m, r.Lowers 0 n m → fails m) :
    Pays r n (liftM (Cursor.consumeNext pattern) : Parser Bool) (fun _ => r.Lowers 0 n) fails := by
  rw [liftM_consumeNext]
  refine (pays_next (safe n (.refl n))).bind fun t m same => ?_
  subst same
  refine pays_ite ?_ (pays_pure (.refl m))
  refine (pays_advance (safe m (.refl m))).bind fun _ k first => ?_
  exact (pays_advance (safe k first)).bind fun _ _ second => pays_pure (first.trans second)

theorem pays_parameter (list : Parameters) (safe : ∀ m, r.Lowers 0 n m → fails m) :
    Pays r n (parameter list) (fun _ => r.Lowers 0 n) fails := by
  have here := safe n (.refl n)
  refine pays_ite (pays_pure (.refl n)) (pays_current_bind fun t _ => pays_ite ?_ ?_)
  · refine (pays_identifier here).bind fun name m same => ?_
    have first : r.Lowers 0 n m := same ▸ (Rates.Lowers.fee n).any
    refine (pays_takes "," (safe m first)).bind fun taken k comma => pays_pure ?_
    exact first.trans (.of_takes comma)
  · refine pays_consume_bind (fun t vararg => ?_) here (pays_pure (Rates.Lowers.fee n).any)
      (pays_failHere _ here)
    simp only [Pattern.accepts, beq_iff_eq] at vararg
    simp [Inside, Token.isEnd, vararg]

/-- Both parentheses pay. -/
theorem pays_parameters (safe : ∀ m, r.Lowers 0 n m → fails m) :
    Pays r n parameters (fun _ => r.Lowers 2 n) fails := by
  have opened := Rates.Lowers.fee (r := r) n
  refine pays_expect_bind (safe n (.refl n)) (pays_takes_bind (safe _ opened.any) ?_ ?_)
  · exact pays_pure (opened.trans (.fee _))
  · have all : Pays r (n - r.fee) (grow parameter {}) (fun _ => r.Lowers 1 n) fails :=
      pays_grow opened fun list m kept =>
        (pays_parameter list fun k less => safe k (kept.trans less).any).mono
          fun _ _ less => kept.trans less
    refine all.bind fun list m kept => ?_
    exact pays_expect_bind (safe m kept.any) (pays_pure (kept.trans (.fee m)))

theorem pays_isKey (safe : fails n) : Pays r n isKey (fun _ m => m = n) fails :=
  pays_current_bind fun _ _ => pays_ite (pays_nextMatchesAny _ safe) (pays_pure rfl)

theorem pays_isJump (safe : fails n) : Pays r n isJump (fun _ m => m = n) fails :=
  pays_get_bind fun _ _ => pays_ite (pays_nextMatchesAny _ safe) (pays_pure rfl)

theorem pays_separator (safe : fails n) :
    Pays r n separator (fun taken m => m = if taken then n - r.fee else n) fails := by
  refine pays_get_bind fun c _ => ?_
  split
  · next matched =>
    have inside : Inside c.current := by
      simp only [Cursor.matchesAny, List.any_cons, List.any_nil, Bool.or_false,
        Bool.or_eq_true] at matched
      exact matched.elim isEnd_of_accepts isEnd_of_accepts
    refine (pays_advance_bind safe ?_).at inside
    exact pays_pure rfl
  · exact pays_pure rfl

end Tokens

end Grammar
end LuaFrontend
