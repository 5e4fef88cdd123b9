import LuaFrontend.Proofs.EventTrace
import LuaFrontend.Proofs.Ledger
import LuaFrontend.Proofs.LevelsNeeded
import LuaFrontend.Proofs.LoopRounds

set_option autoImplicit false

/-
The work of a parse is linear. Each production that is entered costs one and each token pays three:
with five in advance the account never runs out. Where a part is looked for and is absent, nothing
has paid for looking, so it stands higher behind it, and what has to follow there, or the error,
bears the difference.
-/

namespace LuaFrontend

open LuaFrontend.Parser
open Outcome (IsInput)

/-- Every production costs one, and every token pays three. -/
def Rates.work : Rates where
  price _ := 1
  fee := 3

theorem Rates.le_of_lowers {least : Nat} {n m : Int} (h : Rates.work.Lowers least n m) :
    m ≤ n - 3 * least := by
  obtain ⟨taken, few, rfl⟩ := h
  change n - 3 * (taken : Int) ≤ _
  omega

namespace Parser

variable {α β : Type}

/-- From `n` on the account never rises above the limit, and stands behind the parser as it may. -/
abbrev AffordsFrom (start : Token → Prop) (limit n : Int) (p : Parser α)
    (post : α → Int → Prop) : Prop :=
  PaysFrom .work start n p post (· ≤ limit)

abbrev Affords (limit n : Int) (p : Parser α) (post : α → Int → Prop) : Prop :=
  Pays .work n p post (· ≤ limit)

/-- The account has come down so far if the part is present, and is not above the other bound if it
is absent: then nothing has paid for looking for it. -/
def Within (present absent : Int) : Option α → Int → Prop
  | some _, m => m ≤ present
  | none, m => m ≤ absent

theorem Within.mono {present absent more other m : Int} {part : Option α}
    (h : Within present absent part m) (le : present ≤ more) (alsoLe : absent ≤ other) :
    Within more other part m := by
  cases part with
  | some a => exact Int.le_trans h le
  | none => exact Int.le_trans h alsoLe

variable {start : Token → Prop} {limit n : Int} {p : Parser α} {post : α → Int → Prop}
  {fine : β → Int → Prop}

theorem affords_production (production : Production)
    (h : AffordsFrom start limit (n + 1) p post) :
    AffordsFrom start limit n (Parser.production production p) post :=
  pays_production production h

theorem affords_advance_bind {g : Unit → Parser β} (safe : n ≤ limit)
    (next : Affords limit (n - 3) (g ()) fine) :
    AffordsFrom Inside limit n (liftM Cursor.advance >>= g) fine :=
  pays_advance_bind safe next

/-- A parser behind which tokens have paid. -/
theorem affords_of_lowers {least : Nat} (safe : n ≤ limit)
    (h : (∀ m, Rates.work.Lowers 0 n m → m ≤ limit) →
      PaysFrom .work start n p (fun _ => Rates.work.Lowers least n) (· ≤ limit)) :
    AffordsFrom start limit n p fun _ m => m ≤ n - 3 * least := by
  refine (h fun m less => ?_).mono fun _ _ => Rates.le_of_lowers
  have le := Rates.le_of_lowers less
  omega

/-- A token may have been passed. -/
theorem affords_advance (safe : n ≤ limit) :
    AffordsFrom start limit n (liftM Cursor.advance : Parser Unit) fun _ m => m ≤ n :=
  .mono (pays_advance safe) fun _ m less => by
    have le := Rates.le_of_lowers less
    omega

theorem affords_takes_bind {text : String} {g : Bool → Parser β} (safe : n ≤ limit)
    (yes : Affords limit (n - 3) (g true) fine) (no : AffordsFrom start limit n (g false) fine) :
    AffordsFrom start limit n (takes text >>= g) fine :=
  pays_takes_bind safe yes no

theorem affords_takes (text : String) (safe : n ≤ limit) :
    AffordsFrom start limit n (takes text) fun _ m => m ≤ n :=
  .mono (pays_takes text safe) fun _ m same => by
    have le := Rates.le_of_lowers (.of_takes same)
    omega

theorem affords_expect_bind {text : String} {g : Unit → Parser β} (safe : n ≤ limit)
    (next : Affords limit (n - 3) (g ()) fine) :
    AffordsFrom start limit n (expect text >>= g) fine :=
  pays_expect_bind safe next

theorem affords_identifier (safe : n ≤ limit) :
    AffordsFrom start limit n identifier fun _ m => m ≤ n - 3 :=
  .mono (pays_identifier safe) fun _ _ same => Int.le_of_eq same

theorem affords_behind {text : String} (safe : n ≤ limit)
    (item : Affords limit (n - 3) p fun _ m => m ≤ n) :
    AffordsFrom start limit n (behind text p) fun _ m => m ≤ n :=
  pays_behind safe item (Int.le_refl n)

/-- A loop whose rounds do not raise the account. -/
theorem affords_many {step : Parser (Option α)}
    (round : ∀ m ≤ n, Affords limit m step fun _ k => k ≤ m) :
    Affords limit n (many step) fun _ m => m ≤ n :=
  pays_many (Int.le_refl n) fun _ m le => (round m le).mono fun _ _ less => Int.le_trans less le

theorem affords_grow {step : α → Parser (Option α)}
    (round : ∀ a, ∀ m ≤ n, Affords limit m (step a) fun _ k => k ≤ m) (a : α) :
    Affords limit n (grow step a) fun _ m => m ≤ n :=
  pays_grow (Int.le_refl n) fun a m le => (round a m le).mono fun _ _ less => Int.le_trans less le

theorem affords_afterCommas (safe : n ≤ limit)
    (item : ∀ m ≤ n, Affords limit (m - 3) p fun _ k => k ≤ m) :
    Affords limit n (afterCommas p) fun _ m => m ≤ n :=
  affords_many fun m le => affords_behind (Int.le_trans le safe) (item m le)

theorem affords_commaSeparated (safe : n ≤ limit)
    (item : ∀ m ≤ n, Affords limit m p fun _ k => k ≤ m) :
    Affords limit n (commaSeparated p) fun _ m => m ≤ n := by
  refine (item n (Int.le_refl n)).bind fun _ m le => ?_
  have others : Affords limit m (afterCommas p) fun _ k => k ≤ m :=
    affords_afterCommas (Int.le_trans le safe) fun k less =>
      (item (k - 3) (by omega)).mono fun _ _ further => by omega
  exact others.bind fun _ _ less => pays_pure (Int.le_trans less le)

end Parser

/-- How far the account may rise while a form is read. -/
def Form.risk : Form → Int
  | block => 4
  | operand _ => 2
  | suffixed => 1
  | table => 1
  | arguments => 3

/-- How the account stands behind a form. -/
def Form.Pays (n : Int) : (form : Form) → form.Tree → Int → Prop
  | block, _, m => m ≤ n + 1
  | operand _, tree, m => Within (n - 1) (n + 2) tree m
  | suffixed, tree, m => Within (n - 2) (n + 1) tree m
  | table, _, m => m ≤ n - 2
  | arguments, _, m => m ≤ n

namespace Grammar

/-- Behind every form the account stands as it may, and never above the limit. -/
def AffordsForms (limit : Int) (below : Below) : Prop :=
  ∀ form n, n + form.risk ≤ limit → Affords limit n (below form) (form.Pays n)

variable {limit n : Int} {below : Below}

section Expressions

/-- Looking for an expression costs one production more than looking for an operand. -/
theorem affords_expression? (h : AffordsForms limit below) (safe : n + 3 ≤ limit) :
    Affords limit n (expression? below) (Within n (n + 3)) :=
  affords_production _ ((h (.operand 0) (n + 1) (by simp only [Form.risk]; omega)).mono
    fun _ _ within => within.mono (by omega) (by omega))

theorem affords_expression (h : AffordsForms limit below) (safe : n + 3 ≤ limit) :
    Affords limit n (expression below) fun _ m => m ≤ n :=
  pays_required _ (affords_expression? h safe) (fun _ _ le => le)
    fun _ (le : _ ≤ n + 3) => Int.le_trans le safe

theorem affords_expressionList (h : AffordsForms limit below) (safe : n + 3 ≤ limit) :
    Affords limit n (expressionList below) fun _ m => m ≤ n :=
  affords_commaSeparated (by omega) fun _ le => affords_expression h (by omega)

theorem affords_functionBody (h : AffordsForms limit below) (safe : n + 1 ≤ limit) :
    Affords limit n (functionBody below) fun _ m => m ≤ n := by
  have list : Affords limit (n + 1) parameters fun _ m => m ≤ n - 5 :=
    (affords_of_lowers safe pays_parameters).mono fun _ _ le => by omega
  refine affords_production _ (list.bind fun _ m le => ?_)
  refine (h .block m (by simp only [Form.risk]; omega)).bind fun _ k (less : k ≤ m + 1) => ?_
  exact affords_expect_bind (by omega) (pays_pure (by omega))

theorem affords_field? (h : AffordsForms limit below) (safe : n + 3 ≤ limit) :
    Affords limit n (field? below) (Within n (n + 3)) := by
  refine affords_takes_bind (by omega) ?_ ((pays_isKey (by omega)).bind fun key m same => ?_)
  · refine (affords_expression h (by omega)).bind fun _ m le => affords_expect_bind (by omega) ?_
    refine affords_expect_bind (by omega) ((affords_expression h (by omega)).bind fun _ k less => ?_)
    exact pays_pure (show k ≤ n by omega)
  · subst same
    refine pays_ite (pays_current_bind fun t _ => ?_) ?_
    · have name : Affords limit m (discard (liftM (Cursor.consumeNext (.text "=")) : Parser Bool))
          fun _ k => k ≤ m :=
        pays_discard ((affords_of_lowers (by omega) (pays_consumeNext _)).mono
          fun _ _ le => by omega)
      refine name.from.bind fun _ k le => ?_
      refine (affords_expression h (by omega)).bind fun _ i less => ?_
      exact pays_pure (show i ≤ m by omega)
    · refine (affords_expression? h safe).bind fun e k within => pays_pure ?_
      cases e <;> exact within

theorem affords_fields (h : AffordsForms limit below) (safe : n + 3 ≤ limit) :
    Affords limit n (fields below) fun _ m => m ≤ n + 3 := by
  have round (m : Int) (le : m ≤ n) :
      Affords limit m (do if ← separator then field? below else return none) fun _ k => k ≤ m := by
    refine (pays_separator (by omega)).bind fun taken k same => ?_
    cases taken with
    | true =>
      obtain rfl : k = m - 3 := same
      refine (affords_field? h (by omega)).mono fun field i within => ?_
      cases field with
      | some _ => exact Int.le_trans within (by omega)
      | none => exact Int.le_trans within (by omega)
    | false => exact pays_pure (Int.le_of_eq same)
  refine (affords_field? h safe).bind fun first m within => ?_
  cases first with
  | some first =>
    have le : m ≤ n := within
    have others := affords_many fun k less => round k (Int.le_trans less le)
    exact others.bind fun _ k less => pays_pure (by omega)
  | none => exact pays_pure within

theorem affords_table (h : AffordsForms limit below) (safe : n + 1 ≤ limit) :
    Affords limit n (table below) fun _ m => m ≤ n - 2 := by
  refine affords_production _ (affords_expect_bind safe ?_)
  refine (affords_fields h (by omega)).bind fun _ m le => ?_
  exact affords_expect_bind (by omega) (pays_pure (by omega))

theorem affords_arguments (h : AffordsForms limit below) (safe : n + 3 ≤ limit) :
    Affords limit n (arguments below) fun _ m => m ≤ n :=
  pays_get_bind fun _ _ => pays_ite (pays_pure (Int.le_refl n)) (affords_expressionList h safe).from

theorem affords_callArguments? (h : AffordsForms limit below) (safe : n + 1 ≤ limit) :
    Affords limit n (callArguments? below) fun _ m => m ≤ n := by
  refine pays_current_bind fun t _ => affords_takes_bind (by omega) ?_
    (pays_get_bind fun _ _ => pays_ite ?_ (pays_ite ?_ (pays_pure (Int.le_refl n))))
  · refine (h .arguments (n - 3) (by simp only [Form.risk]; omega)).bind
      fun _ m (le : m ≤ n - 3) => ?_
    exact affords_expect_bind (by omega) (pays_pure (by omega))
  · exact (h .table n safe).from.bind fun _ m (le : m ≤ n - 2) => pays_pure (by omega)
  · exact (affords_advance (by omega)).bind fun _ _ le => pays_pure le

theorem affords_base? (h : AffordsForms limit below) (safe : n ≤ limit) :
    Affords limit n (base? below) (Within (n - 3) n) := by
  refine pays_current_bind fun t _ => pays_ite ?_
    (affords_takes_bind safe ?_ (pays_pure (Int.le_refl n)))
  · exact (affords_identifier safe).bind fun _ _ le => pays_pure le
  · refine (affords_expression h (by omega)).bind fun _ m le => affords_expect_bind (by omega) ?_
    exact pays_pure (show m - 3 ≤ n - 3 by omega)

theorem affords_suffix? (h : AffordsForms limit below) (safe : n + 1 ≤ limit)
    (base : Expression) : Affords limit n (suffix? below base) fun _ m => m ≤ n := by
  have here : n ≤ limit := by omega
  refine affords_takes_bind here ?_ (affords_takes_bind here ?_ (affords_takes_bind here ?_ ?_))
  · refine (affords_expression h (by omega)).bind fun _ m le => ?_
    exact affords_expect_bind (by omega) (pays_pure (by omega))
  · exact (affords_identifier (by omega)).bind fun _ m le => pays_pure (by omega)
  · refine (affords_identifier (by omega)).bind fun _ m le => ?_
    have given : Affords limit m (required .arguments (callArguments? below)) fun _ k => k ≤ m :=
      pays_required _ (affords_callArguments? h (by omega)) (fun _ _ less => less)
        fun _ less => by omega
    exact given.bind fun _ k less => pays_pure (by omega)
  · exact (affords_callArguments? h safe).bind fun _ _ le => pays_pure le

theorem affords_suffixed (h : AffordsForms limit below) (safe : n + 1 ≤ limit) :
    Affords limit n (suffixed below) (Within (n - 2) (n + 1)) := by
  refine affords_production _ ((affords_base? h safe).bind fun base m within => ?_)
  cases base with
  | some base =>
    have le : m ≤ n + 1 - 3 := within
    refine (affords_grow (fun base k less => affords_suffix? h (by omega) base) base).bind
      fun _ k less => ?_
    exact pays_pure (show k ≤ n - 2 by omega)
  | none => exact pays_pure within

theorem inside_of_literal {t : Token} {value : Literal} (h : Literal.ofToken? t = some value) :
    Inside t := by
  unfold Literal.ofToken? at h
  split at h <;> simp_all [Inside, Token.isEnd]

theorem affords_primary? (h : AffordsForms limit below) (safe : n + 2 ≤ limit) :
    Affords limit n (primary? below) (Within (n - 1) (n + 2)) := by
  refine affords_production _ (pays_current_bind fun t _ => ?_)
  cases found : Literal.ofToken? t with
  | some value =>
    refine (affords_advance_bind (by omega) ?_).at (inside_of_literal found)
    exact pays_pure (show n + 1 - 3 ≤ n - 1 by omega)
  | none =>
    refine affords_takes_bind (by omega) ?_ (pays_get_bind fun _ _ => pays_ite ?_ ?_)
    · refine (affords_functionBody h (by omega)).bind fun _ m le => pays_pure ?_
      exact show m ≤ n - 1 by omega
    · refine (h .table (n + 1) (by simp only [Form.risk]; omega)).from.bind
        fun _ m (le : m ≤ n + 1 - 2) => pays_pure ?_
      exact show m ≤ n - 1 by omega
    · refine (h .suffixed (n + 1) (by simp only [Form.risk]; omega)).from.mono
        fun _ _ within => within.mono (by omega) (by omega)

theorem affords_operandForm (h : AffordsForms limit below) (safe : n + 2 ≤ limit) (binding : Nat) :
    Affords limit n (required .expression (below (.operand binding))) fun _ m => m ≤ n - 1 :=
  pays_required _ (h (.operand binding) n safe) (fun _ _ le => le)
    fun _ (le : _ ≤ n + 2) => Int.le_trans le safe

theorem affords_prefixed? (h : AffordsForms limit below) (safe : n + 2 ≤ limit) :
    Affords limit n (prefixed? below) (Within (n - 1) (n + 2)) := by
  refine pays_current_bind fun t _ => ?_
  cases found : unaryOperator? t with
  | none => exact (affords_primary? h safe).from
  | some operator =>
    refine (affords_advance_bind (by omega) ?_).at (inside_of_unaryOperator? found)
    refine (affords_operandForm h (by omega) _).bind fun _ m le => pays_pure ?_
    exact show m ≤ n - 1 by omega

theorem affords_joined? (h : AffordsForms limit below) (safe : n ≤ limit) (binding : Nat)
    (left : Expression) : Affords limit n (joined? below binding left) fun _ m => m ≤ n := by
  refine pays_current_bind fun t _ => ?_
  cases found : binaryOperator? t with
  | none => exact pays_pure (Int.le_refl n)
  | some operator =>
    refine pays_ite (pays_pure (Int.le_refl n)) ?_
    refine (affords_advance_bind safe ?_).at (inside_of_binaryOperator? found)
    exact (affords_operandForm h (by omega) _).bind fun _ m le => pays_pure (by omega)

theorem affords_operand (h : AffordsForms limit below) (safe : n + 2 ≤ limit) (binding : Nat) :
    Affords limit n (operand below binding) (Within (n - 1) (n + 2)) := by
  refine (affords_prefixed? h safe).bind fun left m within => ?_
  cases left with
  | some left =>
    have le : m ≤ n - 1 := within
    refine (affords_grow (fun left k less => affords_joined? h (by omega) binding left) left).bind
      fun _ k less => ?_
    exact pays_pure (show k ≤ n - 1 by omega)
  | none => exact pays_pure within

end Expressions

section Statements

/-- A name or more, with commas between them. -/
theorem affords_names (safe : n ≤ limit) :
    Affords limit n (commaSeparated identifier) fun _ m => m ≤ n :=
  affords_commaSeparated safe fun _ _ => .mono (affords_identifier (by omega)) fun _ _ _ => by omega

theorem affords_localDeclaration (h : AffordsForms limit below) (safe : n + 1 ≤ limit) :
    AffordsFrom Inside limit n (localDeclaration below) fun _ m => m ≤ n - 1 := by
  refine affords_production _ (affords_advance_bind safe (affords_takes_bind (by omega) ?_ ?_))
  · refine (affords_identifier (by omega)).bind fun _ m le => ?_
    exact (affords_functionBody h (by omega)).bind fun _ k less => pays_pure (by omega)
  · refine (affords_names (by omega)).bind fun _ m le => ?_
    refine (affords_behind (by omega) ?_).bind fun _ k less => pays_pure (by omega)
    exact .mono (affords_expressionList h (by omega)) fun _ _ _ => by omega

/-- A clause pays for what it guards. -/
theorem affords_clause (h : AffordsForms limit below) (safe : n ≤ limit) :
    AffordsFrom Inside limit n (clause below) fun _ m => m ≤ n - 5 := by
  refine affords_advance_bind safe ((affords_expression h (by omega)).bind fun _ m le => ?_)
  refine affords_expect_bind (by omega) ?_
  exact (h .block (m - 3) (by simp only [Form.risk]; omega)).bind
    fun _ k (less : k ≤ m - 3 + 1) => pays_pure (by omega)

theorem affords_elseClause? (h : AffordsForms limit below) (safe : n ≤ limit) :
    Affords limit n (elseClause? below) fun _ m => m ≤ n := by
  refine pays_current_bind fun t _ => ?_
  split
  · next word =>
    refine ((affords_clause h safe).at (inside_of_isWord word)).bind fun _ m le => ?_
    exact pays_pure (by omega)
  · exact pays_pure (Int.le_refl n)

theorem affords_conditional (h : AffordsForms limit below) (safe : n + 1 ≤ limit) :
    AffordsFrom Inside limit n (conditional below) fun _ m => m ≤ n - 1 := by
  refine affords_production _ ((affords_clause h safe).bind fun _ m le => ?_)
  refine (affords_many fun k less => affords_elseClause? h (by omega)).bind fun _ k less => ?_
  have otherwise : Affords limit (k - 3) (below .block) fun _ i => i ≤ k :=
    (h .block (k - 3) (by simp only [Form.risk]; omega)).mono
      fun _ i (further : i ≤ k - 3 + 1) => by omega
  refine (affords_behind (by omega) otherwise).bind fun _ i further => ?_
  exact affords_expect_bind (by omega) (pays_pure (by omega))

theorem affords_functionStatement (h : AffordsForms limit below) (safe : n + 1 ≤ limit) :
    AffordsFrom Inside limit n (functionStatement below) fun _ m => m ≤ n - 1 := by
  have field (m : Int) (text : String) (le : m ≤ limit) :
      Affords limit m (behind text identifier) fun _ k => k ≤ m :=
    affords_behind le (.mono (affords_identifier (by omega)) fun _ _ _ => by omega)
  refine affords_production _ (affords_advance_bind safe ?_)
  refine (affords_identifier (by omega)).bind fun _ m le => ?_
  refine (affords_many fun k less => field k "." (by omega)).bind fun _ k less => ?_
  refine (field k ":" (by omega)).bind fun _ i further => ?_
  exact (affords_functionBody h (by omega)).bind fun _ j last => pays_pure (by omega)

theorem affords_enclosedBlock (h : AffordsForms limit below) (safe : n + 1 ≤ limit) :
    Affords limit n (enclosedBlock below) fun _ m => m ≤ n - 5 := by
  refine affords_expect_bind (by omega) ?_
  refine (h .block (n - 3) (by simp only [Form.risk]; omega)).bind
    fun _ m (le : m ≤ n - 3 + 1) => ?_
  exact affords_expect_bind (by omega) (pays_pure (by omega))

theorem affords_whileLoop (h : AffordsForms limit below) (safe : n + 1 ≤ limit) :
    AffordsFrom Inside limit n (whileLoop below) fun _ m => m ≤ n - 1 := by
  refine affords_production _ (affords_advance_bind safe ?_)
  refine (affords_expression h (by omega)).bind fun _ m le => ?_
  exact (affords_enclosedBlock h (by omega)).bind fun _ k less => pays_pure (by omega)

theorem affords_forLoop (h : AffordsForms limit below) (safe : n + 1 ≤ limit) :
    AffordsFrom Inside limit n (forLoop below) fun _ m => m ≤ n - 1 := by
  refine affords_production _ (affords_advance_bind safe ?_)
  refine (affords_identifier (by omega)).bind fun _ m le => affords_takes_bind (by omega) ?_ ?_
  · refine (affords_expression h (by omega)).bind fun _ k less => affords_expect_bind (by omega) ?_
    refine (affords_expression h (by omega)).bind fun _ i further => ?_
    have step : Affords limit (i - 3) (expression below) fun _ j => j ≤ i :=
      .mono (affords_expression h (by omega)) fun _ _ _ => by omega
    refine (affords_behind (by omega) step).bind fun _ j last => ?_
    exact (affords_enclosedBlock h (by omega)).bind fun _ _ _ => pays_pure (by omega)
  · have others : Affords limit m (afterCommas identifier) fun _ k => k ≤ m :=
      affords_afterCommas (by omega) fun k less =>
        .mono (affords_identifier (by omega)) fun _ _ _ => by omega
    refine others.bind fun _ k less => affords_expect_bind (by omega) ?_
    refine (affords_expressionList h (by omega)).bind fun _ i further => ?_
    exact (affords_enclosedBlock h (by omega)).bind fun _ _ _ => pays_pure (by omega)

theorem affords_repeatLoop (h : AffordsForms limit below) (safe : n + 2 ≤ limit) :
    AffordsFrom Inside limit n (repeatLoop below) fun _ m => m ≤ n - 1 := by
  refine affords_production _ (affords_advance_bind (by omega) ?_)
  refine (h .block (n + 1 - 3) (by simp only [Form.risk]; omega)).bind
    fun _ m (le : m ≤ n + 1 - 3 + 1) => affords_expect_bind (by omega) ?_
  exact (affords_expression h (by omega)).bind fun _ k less => pays_pure (by omega)

theorem affords_doBlock (h : AffordsForms limit below) (safe : n + 2 ≤ limit) :
    Affords limit n (doBlock below) fun _ m => m ≤ n - 1 :=
  affords_production _ ((affords_enclosedBlock h (by omega)).bind fun _ _ _ =>
    pays_pure (by omega))

theorem affords_goto (safe : n + 1 ≤ limit) : Affords limit n goto fun _ m => m ≤ n - 1 := by
  refine affords_production _ ((affords_advance safe).bind fun _ m le => ?_)
  exact (affords_identifier (by omega)).bind fun _ k less => pays_pure (by omega)

theorem affords_label (safe : n + 1 ≤ limit) : Affords limit n label fun _ m => m ≤ n - 1 := by
  refine affords_production _ ((affords_advance safe).bind fun _ m le => ?_)
  refine (affords_identifier (by omega)).bind fun _ k less => ?_
  exact affords_expect_bind (by omega) (pays_pure (by omega))

theorem affords_target (h : AffordsForms limit below) (safe : n + 1 ≤ limit) :
    Affords limit n (target below) fun _ m => m ≤ n - 2 := by
  refine (h .suffixed n safe).bind fun value m within => ?_
  cases value with
  | some value => exact pays_pure within
  | none => exact pays_unexpected (Int.le_trans within safe)

theorem affords_assignmentOrCall (h : AffordsForms limit below) (safe : n + 2 ≤ limit) :
    Affords limit n (assignmentOrCall below) fun _ m => m ≤ n - 1 := by
  refine affords_production _ ((affords_target h (by omega)).bind fun first m le =>
    pays_get_bind fun _ _ => ?_)
  have here : m ≤ limit := by omega
  refine pays_ite ?_ (pays_ite (pays_pure (by omega)) (pays_unexpected here))
  have others : Affords limit m (afterCommas (target below)) fun _ k => k ≤ m :=
    affords_afterCommas here fun k less =>
      .mono (affords_target h (by omega)) fun _ _ _ => by omega
  refine others.from.bind fun _ k less => pays_ite ?_ (pays_unexpected (by omega))
  refine affords_expect_bind (by omega) ?_
  exact (affords_expressionList h (by omega)).bind fun _ i further => pays_pure (by omega)

/-- Every kind of statement pays for one production more than its own. -/
theorem affords_statement (h : AffordsForms limit below) (safe : n + 3 ≤ limit) :
    AffordsFrom Inside limit n (statement below) fun _ m => m ≤ n := by
  have paid : AffordsFrom Inside limit n (statement below) fun _ m => m ≤ n + 1 - 1 := by
    refine affords_production _ (pays_current_bind fun t inside => ?_)
    cases Heading.ofToken t with
    | localDeclaration => exact (affords_localDeclaration h (by omega)).at inside
    | conditional => exact (affords_conditional h (by omega)).at inside
    | function => exact (affords_functionStatement h (by omega)).at inside
    | whileLoop => exact (affords_whileLoop h (by omega)).at inside
    | forLoop => exact (affords_forLoop h (by omega)).at inside
    | repeatLoop => exact (affords_repeatLoop h (by omega)).at inside
    | doBlock => exact (affords_doBlock h (by omega)).from
    | goto => exact (affords_goto (by omega)).from
    | breakLoop =>
      refine (affords_advance_bind (by omega) ?_).at inside
      exact pays_pure (by omega)
    | label => exact (affords_label (by omega)).from
    | gotoName =>
      refine (pays_isJump (by omega)).from.bind fun _ m same => ?_
      subst same
      exact pays_ite (affords_goto (by omega)) (affords_assignmentOrCall h (by omega))
    | assignmentOrCall => exact (affords_assignmentOrCall h (by omega)).from
  exact paid.mono fun _ _ _ => by omega

theorem affords_returning (h : AffordsForms limit below) (safe : n + 1 ≤ limit) :
    AffordsFrom Inside limit n (returning below) fun _ m => m ≤ n := by
  refine affords_production _ (affords_advance_bind safe ?_)
  have values : Affords limit (n + 1 - 3) (returnedValues below) fun _ m => m ≤ n + 1 - 3 :=
    pays_current_bind fun _ _ => pays_get_bind fun _ _ =>
      pays_ite (affords_expressionList h (by omega)).from (pays_pure (by omega))
  refine values.bind fun _ m le => ?_
  have semicolon : Affords limit m (discard (takes ";")) fun _ k => k ≤ m :=
    pays_discard (affords_takes ";" (by omega))
  exact semicolon.bind fun _ k less => pays_pure (by omega)

theorem affords_statement? (h : AffordsForms limit below) (safe : n + 3 ≤ limit) :
    Affords limit n (statement? below) fun _ m => m ≤ n := by
  have semicolons : Affords limit n (discard (many (behind ";" (pure ())))) fun _ m => m ≤ n :=
    pays_discard (affords_many fun m le => affords_behind (by omega) (pays_pure (by omega)))
  refine semicolons.bind fun _ m le => pays_current_bind fun t _ => ?_
  split
  · next more =>
    simp only [isInBlock, Bool.and_eq_true, Bool.not_eq_true'] at more
    refine ((affords_statement h (by omega)).at more.1.1).bind fun _ k less => pays_pure ?_
    omega
  · exact pays_pure le

theorem affords_block (h : AffordsForms limit below) (safe : n + 4 ≤ limit) :
    Affords limit n (block below) fun _ m => m ≤ n + 1 := by
  refine affords_production _ ((affords_many fun m le => affords_statement? h (by omega)).bind
    fun _ m le => pays_current_bind fun t _ => ?_)
  split
  · next word =>
    refine ((affords_returning h (by omega)).at (inside_of_isWord word)).bind fun _ k less => ?_
    exact pays_pure (by omega)
  · exact pays_pure le

end Statements

/-- However many levels there are, every form pays for itself but for what is open around it. -/
theorem affords_levels (limit : Int) (depth : Nat) : AffordsForms limit (levels depth) := by
  -- Where no level is left, a form fails before anything is entered.
  induction depth with
  | zero =>
    intro form n safe
    refine pays_failHere _ (Int.le_trans ?_ safe)
    cases form <;> simp only [Form.risk] <;> omega
  | succ depth ih =>
    intro form n safe
    cases form with
    | block => exact affords_block ih safe
    | operand binding => exact affords_operand ih safe binding
    | suffixed => exact affords_suffixed ih safe
    | table => exact affords_table ih safe
    | arguments => exact affords_arguments ih safe

theorem affords_chunk {limit : Int} (depth : Nat) (safe : 5 ≤ limit) :
    Affords limit 0 (chunk depth) fun _ m => m ≤ limit := by
  refine affords_production _ ((affords_levels limit depth .block 1 safe).bind
    fun _ m (le : m ≤ 1 + 1) => pays_current_bind fun _ _ => ?_)
  refine pays_ite ?_ (pays_unexpected (by omega))
  have taken : Affords limit m (liftM Cursor.takeComments : Parser (List Token)) fun _ k => k = m :=
    fun _ input _ stands => ⟨input, stands⟩
  exact taken.from.bind fun _ _ _ => pays_pure (by omega)

end Grammar

section Reported

/-- A production was entered. -/
def Event.isEnter : Event → Bool
  | enter _ => true
  | token _ | exit _ => false

/-- A token was read that is no comment. -/
def Event.isKept : Event → Bool
  | token t => !t.isComment
  | enter _ | exit _ => false

theorem Event.sum_price_work (events : List Event) :
    (events.map (Event.price .work)).sum = events.countP isEnter :=
  sum_eq_countP (fun e => by cases e <;> rfl) events

/-- Every token in the buffer has been reported. -/
def Cursor.IsHeard (c : Cursor) : Prop := c.journal.countP Event.isKept = c.buffered

namespace Cursor.IsHeard

variable {c : Cursor}

theorem record (h : c.IsHeard) {e : Event} (other : e.isKept = false) : (c.record e).IsHeard :=
  (List.countP_cons_of_neg (by simp [other])).trans h

theorem keep (h : c.IsHeard) (t : Token) : (c.keep t).IsHeard := by
  unfold Cursor.keep
  split
  · next comment => exact h.record (e := .token t) (by simp [Event.isKept, comment])
  · next seen =>
    refine (List.countP_cons_of_pos (by simp [Event.isKept, seen])).trans ?_
    rw [show c.journal.countP Event.isKept = c.buffered from h]
    simp only [buffered, Cursor.record, List.length_append, List.length_singleton]
    omega

theorem step (h : c.IsHeard) : c.step.IsHeard := by
  rw [IsHeard, buffered_step, ← h, Cursor.step]
  split <;> rfl

theorem readFrom (h : c.IsHeard) (wanted : Nat) (pending : List Outcome) :
    match Cursor.readFrom wanted pending c with
    | .ok _ d | .error _ d => d.IsHeard := by
  induction pending generalizing c with
  | nil => exact h
  | cons o more ih =>
    cases o with
    | ok t =>
      rw [Cursor.readFrom]
      by_cases enough : wanted ≤ c.ready.length
      · rw [if_pos enough]
        exact h
      · rw [if_neg enough]
        exact ih (h.keep t)
    | error e =>
      rw [Cursor.readFrom]
      by_cases enough : wanted ≤ c.ready.length
      · rw [if_pos enough]
        exact h
      · rw [if_neg enough]
        exact h

theorem of_opening {dialect : Dialect} {final : Token} {aside : List Token} {items : List Outcome}
    (h : opening dialect final aside items = .ok c) (last : final.isEnd)
    (comments : ∀ t ∈ aside, t.isComment) : c.IsHeard := by
  have none : (aside.map Event.token).countP Event.isKept = 0 := by
    rw [List.countP_eq_zero]
    exact List.forall_mem_map.mpr fun t member => by simp [Event.isKept, comments t member]
  induction items generalizing aside with
  | nil =>
    cases h
    have seen : final.isComment = false := by
      simp only [Token.isEnd, beq_iff_eq] at last
      simp [Token.isComment, last]
    simp [IsHeard, buffered, Event.isKept, seen, none]
  | cons o items ih =>
    cases o with
    | error e => cases h
    | ok t =>
      rw [opening] at h
      split at h
      · next comment =>
        refine ih h (List.forall_mem_cons.mpr ⟨comment, comments⟩) ?_
        simpa [Event.isKept, comment] using none
      · next other =>
        cases h
        simp [IsHeard, buffered, Event.isKept, other, none]

end Cursor.IsHeard

namespace RunRelation

/-- A run leaves no token in the buffer that has not been reported. -/
def hears : RunRelation where
  leads c d := c.IsHeard → d.IsHeard
  fails c _ d := c.IsHeard → d.IsHeard

theorem hears_read {α : Type} (wanted : Nat) (result : Cursor → α) (moved : Cursor → Cursor)
    (keeps : ∀ c, c.IsHeard → (moved c).IsHeard) (c : Cursor) :
    hears.Result c (act (Cursor.read wanted >>= fun _ d => .ok (result d) (moved d)) c) := by
  unfold act
  simp only [bind, EStateM.bind, Cursor.read]
  cases run : Cursor.readFrom wanted c.pending c with
  | ok _ d =>
    intro heard
    have read := heard.readFrom wanted c.pending
    rw [run] at read
    exact keeps d read
  | error x d =>
    intro heard
    have read := heard.readFrom wanted c.pending
    rwa [run] at read

theorem hears_next : hears.Holds (liftM Cursor.next : Parser Token) :=
  hears_read 1 (Cursor.peek · 1) id fun _ => id

theorem isLaw_hears : hears.IsLaw where
  refl _ := id
  trans h g heard := g (h heard)
  trans_fails h g heard := g (h heard)
  next := hears_next
  advance := hears_read 1 (fun _ => ()) Cursor.step fun _ => Cursor.IsHeard.step
  takeComments _ := id
  failHere _ _ := id
  unexpected c := by
    have following := hears_next c
    rw [unexpected, Parser.get_bind]
    cases run : (liftM Cursor.next : Parser Token) c with
    | ok t d =>
      rw [run] at following
      rw [bind_eq_of_ok run]
      exact following
    | error x d =>
      rw [run] at following
      rw [bind_eq_of_error run]
      exact following
  production p body h c := by
    have inside := h (c.record (.enter p))
    unfold Parser.production
    cases run : body (c.record (.enter p)) with
    | ok a d =>
      rw [run] at inside
      exact fun heard => (inside (heard.record rfl)).record rfl
    | error x d =>
      rw [run] at inside
      exact fun heard => (inside (heard.record rfl)).record rfl

end RunRelation

/-- A text has one end token. -/
theorem Report.countP_isEnd_le (options : Options) (source : String) :
    ((ofSource options source).events.filterMap Event.token?).countP (·.isEnd) ≤ 1 := by
  obtain ⟨-, unread, split, -⟩ := Report.trace options source
  have one : (Lexed.ofSource options.toDialect source).outcomes.countP
      (fun o => o.toOption.any (·.isEnd)) ≤ 1 := by
    rw [Lexed.outcomes, List.countP_append, List.countP_eq_zero.mpr, Nat.zero_add]
    · exact List.countP_le_length
    · intro o member
      cases o with
      | ok t => exact Bool.eq_false_iff.mp (Lexed.isEnd_of_mem_items _ _ member)
      | error e => exact Bool.false_ne_true
  rw [split, List.countP_append, List.countP_map] at one
  exact (Nat.le_add_right _ _).trans one

/-- The tokens that have been read, comments apart, are the buffer. -/
theorem Cursor.IsHeard.countP_eq {c : Cursor} (h : c.IsHeard) :
    (c.journal.reverse.filterMap Event.token?).countP (fun t => !t.isComment) = c.buffered := by
  rw [List.countP_filterMap, ← h, List.countP_reverse]
  congr 1
  funext e
  cases e <;> rfl

/-- Every token that is passed is one that was read and is not the last one, so what the account
shows bounds the productions by the tokens. -/
theorem Cursor.countP_isEnter_le {c : Cursor} (heard : c.IsHeard) (paid : c.balance .work ≤ 5)
    (ends : (c.journal.reverse.filterMap Event.token?).countP (·.isEnd) ≤ 1) :
    c.journal.reverse.countP Event.isEnter ≤
      3 * (c.journal.reverse.filterMap Event.token?).countP
        (fun t => !t.isComment && !t.isEnd) + 5 := by
  have read := heard.countP_eq
  have account : (c.journal.reverse.countP Event.isEnter : Int) - 3 * c.passed.length ≤ 5 := by
    rw [List.countP_reverse, ← Event.sum_price_work]
    exact paid
  generalize c.journal.reverse.filterMap Event.token? = tokens at read ends ⊢
  rw [List.countP_eq_countP_filter_add tokens _ (·.isEnd), List.countP_filter,
    List.countP_filter] at read
  have last : tokens.countP (fun t => !t.isComment && t.isEnd) ≤ tokens.countP (·.isEnd) :=
    List.countP_mono_left fun t _ both => (Bool.and_eq_true_iff.mp both).2
  have others : tokens.countP (fun t => !t.isComment && decide ¬ t.isEnd = true) =
      tokens.countP fun t => !t.isComment && !t.isEnd := by
    simp only [Bool.not_eq_true, Bool.decide_eq_false]
  simp only [buffered] at read
  omega

end Reported

/-- Parsing takes work in proportion to the text, whatever the text and the options are and whether
or not it succeeds: there are at most three productions for each token that is read, comments and
the end token apart, and five more. However many levels of nesting are allowed, each loop of the
grammar ends by itself, wherever in a text it begins; and a text that is opened is such a place. -/
theorem work_is_linear (options : Options) (source : String) :
    (Report.ofSource options source).events.countP Event.isEnter ≤
      3 * ((Report.ofSource options source).events.filterMap Event.token?).countP
        (fun t => !t.isComment && !t.isEnd) + 5 ∧
    (∀ depth, Grammar.LoopsEnd (Grammar.levels depth)) ∧
    ∀ c, Cursor.ofSource options.toDialect source = .ok c → IsInput c.upcoming := by
  refine ⟨?_, fun depth => Grammar.loopsEnd (Grammar.reads_levels depth),
    fun c opened => (ofSource_view opened).2.2.2.1⟩
  have ends := Report.countP_isEnd_le options source
  unfold Report.ofSource at ends ⊢
  cases opened : Cursor.ofSource options.toDialect source with
  | error refusal =>
    obtain ⟨read, journal, -⟩ := Cursor.journal_of_opening_error opened
    have none : refusal.journal.reverse.countP Event.isEnter = 0 := by
      rw [journal, List.countP_reverse, List.countP_map]
      exact congrFun List.countP_false _
    rw [none]
    exact Nat.zero_le _
  | ok c =>
    have input := (ofSource_view opened).2.2.2.1
    have heard : c.IsHeard := .of_opening opened (Lexed.isEnd_final _ source) nofun
    have hears := RunRelation.isLaw_hears.chunk options.maxDepth c
    have settles := Grammar.affords_chunk options.maxDepth (Int.le_refl 5) input trivial
      (Cursor.balance_of_opening opened)
    simp only [opened] at ends ⊢
    cases run : Grammar.chunk options.maxDepth c with
    | ok chunk d =>
      rw [run] at hears settles
      simp only [run] at ends ⊢
      exact Cursor.countP_isEnter_le (hears heard) settles.2 ends
    | error e d =>
      rw [run] at hears settles
      simp only [run] at ends ⊢
      exact Cursor.countP_isEnter_le (hears heard) settles ends

end LuaFrontend
