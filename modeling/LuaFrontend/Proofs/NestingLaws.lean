import LuaFrontend.Grammar.Chunk
import LuaFrontend.Proofs.NestingCount
import LuaFrontend.Proofs.ResultLaws
import LuaFrontend.Proofs.Room

set_option autoImplicit false

namespace LuaFrontend

/-- A place in the text with what has been counted on the way to it. -/
structure Spot where
  levels : Nat
  marks : List Bool
  last : Option Token
  now : Token

namespace Spot

variable {s t u : Spot} {count first second : Count}

/-- One token further on. -/
def move (s : Spot) (now : Token) : Spot := { s with last := some s.now, now }

/-- Behind these tokens, for which so many levels were needed. -/
def pass (s : Spot) (tokens : List Token) (n : Nat) (now : Token) : Spot :=
  ⟨max s.levels n, s.marks ++ tableMarks s.last tokens, tokens.getLast?.or s.last, now⟩

theorem pass_nil (s : Spot) : s.pass [] 0 s.now = s := by
  simp [pass, tableMarks]

theorem pass_one {now : Token} (h : s.now.closesTable = false) :
    s.pass [s.now] 0 now = s.move now := by
  simp [pass, move, tableMarks, h]

theorem pass_append (s : Spot) (tokens others : List Token) (n m : Nat) (middle now : Token) :
    (s.pass tokens n middle).pass others m now = s.pass (tokens ++ others) (max n m) now := by
  simp [pass, tableMarks_append, Nat.max_assoc, List.getLast?_append, Option.or_assoc]

/-- Between the places stands something that counts so. -/
def Adds (s : Spot) (count : Count) (t : Spot) : Prop :=
  ∃ marks n, count.Takes marks n ∧ t.levels = max s.levels n ∧ t.marks = s.marks ++ marks

theorem Adds.refl (s : Spot) : s.Adds .zero s :=
  ⟨[], 0, Count.takes_zero, (Nat.max_zero _).symm, (List.append_nil _).symm⟩

theorem Adds.trans (h : s.Adds first t) (g : t.Adds second u) : s.Adds (first.beside second) u := by
  obtain ⟨marks, n, takes, levels, same⟩ := h
  obtain ⟨others, m, also, further, more⟩ := g
  refine ⟨marks ++ others, max n m, takes.beside also, ?_, ?_⟩
  · rw [further, levels, Nat.max_assoc]
  · rw [more, same, List.append_assoc]

theorem Adds.zero_trans (h : s.Adds .zero t) (g : t.Adds count u) : s.Adds count u := by
  simpa using h.trans g

theorem Adds.trans_zero (h : s.Adds count t) (g : t.Adds .zero u) : s.Adds count u := by
  simpa using h.trans g

/-- What stands last is no separator. -/
def IsClean (s : Spot) : Prop := s.last.any (·.isSeparator) = false

end Spot

namespace Token

variable {t : Token}

theorem closesTable_of_kind (h : t.kind ≠ .symbol) : t.closesTable = false := by
  simp [closesTable, h]

theorem isSeparator_of_kind (h : t.kind ≠ .symbol) : t.isSeparator = false := by
  simp [isSeparator, h]

end Token

namespace Pattern

variable {text : String} {t : Token}

theorem text_of_accepts (h : (Pattern.text text).accepts t) : t.text = text := by
  simp only [accepts, Bool.and_eq_true, beq_iff_eq] at h
  exact h.2

theorem closesTable_of_accepts (h : (Pattern.text text).accepts t) (other : text ≠ "\x7d") :
    t.closesTable = false := by
  simp [Token.closesTable, text_of_accepts h, other]

/-- Separators and braces are symbols. -/
theorem symbol_of_accepts {dialect : Dialect} (h : (Pattern.text text).accepts t)
    (whole : t.isEnd = false → Word.IsWhole dialect t.spelling) (sign : text ∈ [",", ";", "\x7d"]) :
    t.kind = .symbol := by
  have same := text_of_accepts h
  have spelled : isFreelySpelled t.kind = false := by
    simp only [accepts, Bool.and_eq_true, Bool.not_eq_true'] at h
    exact h.1
  simp only [List.mem_cons, List.not_mem_nil, or_false] at sign
  rcases (whole (Parser.isEnd_of_accepts h)).kind_cases with name | free | ⟨-, symbol⟩
  · have named : wordKind dialect.contextualGoto text = .identifier := by
      rcases sign with rfl | rfl | rfl <;> simp [wordKind, isReserved, reservedWords]
    have kind : t.kind = .identifier := by
      rw [← named, ← same]
      exact name
    simp [kind, isFreelySpelled] at spelled
  · rcases free with kind | kind | kind <;>
      simp [show t.kind = _ from kind, isFreelySpelled] at spelled
  · refine symbol.trans (if_neg fun dots => ?_)
    have long : t.text.toList = ['.', '.', '.'] := dots
    rw [same] at long
    rcases sign with rfl | rfl | rfl <;> simp at long

theorem isSeparator_of_accepts (h : (Pattern.text text).accepts t)
    (other : text ≠ "," ∧ text ≠ ";") : t.isSeparator = false := by
  simp [Token.isSeparator, text_of_accepts h, other]

end Pattern

namespace Grammar

open LuaFrontend.Parser

variable {α β : Type} {p q : Below → Parser α} {n m depth : Nat} {c d e : Cursor} {a : α}
  {s : Spot}

/-- The parser gives this wherever it has enough levels, and else reaches the limit. -/
def IsExact (p : Below → Parser α) (n : Nat) (c : Cursor) (a : α) (e : Cursor) : Prop :=
  ∀ depth, (n ≤ depth → p (levels depth) c = .ok a e) ∧
    (depth < n → ∃ x f, p (levels depth) c = .error x f ∧ x.IsTooDeep)

theorem isExact_zero {p : Parser α} (run : p c = .ok a e) : IsExact (fun _ => p) 0 c a e :=
  fun _ => ⟨fun _ => run, fun less => absurd less (Nat.not_lt_zero _)⟩

theorem IsExact.bind {f : α → Below → Parser β} {b : β} (h : IsExact p n c a d)
    (g : IsExact (f a) m d b e) :
    IsExact (fun below => p below >>= fun a => f a below) (max n m) c b e := by
  intro depth
  constructor
  · intro enough
    obtain ⟨forFirst, forSecond⟩ := Nat.max_le.mp enough
    exact (bind_eq_of_ok ((h depth).1 forFirst)).trans ((g depth).1 forSecond)
  · intro less
    change ∃ x i, (p (levels depth) >>= fun a => f a (levels depth)) c = .error x i ∧ x.IsTooDeep
    by_cases forFirst : n ≤ depth
    · obtain ⟨x, i, run, deep⟩ := (g depth).2 (by omega)
      exact ⟨x, i, (bind_eq_of_ok ((h depth).1 forFirst)).trans run, deep⟩
    · obtain ⟨x, i, run, deep⟩ := (h depth).2 (Nat.lt_of_not_le forFirst)
      exact ⟨x, i, bind_eq_of_error run, deep⟩

variable (dialect : Dialect) (depth : Nat)

/-- Where the parser succeeds with as many levels as this, the levels it needs are counted, and with
them what it gives is good. -/
def Counts (s : Spot) (p : Below → Parser α) (good : α → Spot → Prop) : Prop :=
  ∀ ⦃c a e⦄, c.IsLegible dialect → c.current = s.now → p (levels depth) c = .ok a e →
    ∃ tokens n, c.Passes tokens e ∧ n ≤ depth ∧ IsExact p n c a e ∧
      good a (s.pass tokens n e.current)

variable {dialect depth} {good better : α → Spot → Prop} {fine : β → Spot → Prop}

section Basics

theorem Counts.mono (h : Counts dialect depth s p better) (le : ∀ a t, better a t → good a t) :
    Counts dialect depth s p good := by
  intro c a e legible here run
  obtain ⟨tokens, n, passes, few, needs, isBetter⟩ := h legible here run
  exact ⟨tokens, n, passes, few, needs, le a _ isBetter⟩

/-- A parser that opens no level itself. -/
theorem counts_of_run {p : Parser α} (h : ∀ c a e, c.IsLegible dialect → c.current = s.now →
    p c = .ok a e → ∃ tokens, c.Passes tokens e ∧ good a (s.pass tokens 0 e.current)) :
    Counts dialect depth s (fun _ => p) good := by
  intro c a e legible here run
  obtain ⟨tokens, passes, isGood⟩ := h c a e legible here run
  exact ⟨tokens, 0, passes, Nat.zero_le _, isExact_zero run, isGood⟩

theorem counts_pure (h : good a s) : Counts dialect depth s (fun _ => pure a) good := by
  refine counts_of_run fun c b e legible here run => ?_
  obtain ⟨rfl, rfl⟩ := pure_ok.mp run
  exact ⟨[], .refl _, by rwa [here, Spot.pass_nil]⟩

theorem Counts.bind {f : α → Below → Parser β} (h : Counts dialect depth s p good)
    (next : ∀ a t, good a t → Counts dialect depth t (f a) fine) :
    Counts dialect depth s (fun below => p below >>= fun a => f a below) fine := by
  intro c b e legible here run
  obtain ⟨a, d, first, second⟩ := bind_ok.mp run
  obtain ⟨tokens, n, passes, few, needs, isGood⟩ := h legible here first
  obtain ⟨others, m, further, alsoFew, also, isFine⟩ :=
    next a _ isGood (legible.of_passes passes) rfl second
  refine ⟨tokens ++ others, max n m, passes.trans further, Nat.max_le.mpr ⟨few, alsoFew⟩,
    needs.bind also, ?_⟩
  rwa [Spot.pass_append] at isFine

theorem counts_ite {condition : Prop} [Decidable condition]
    (yes : condition → Counts dialect depth s p good)
    (no : ¬ condition → Counts dialect depth s q good) :
    Counts dialect depth s (fun below => if condition then p below else q below) good := by
  by_cases h : condition
  · simpa only [if_pos h] using yes h
  · simpa only [if_neg h] using no h

theorem counts_failing {p : Parser α} (h : ∀ c a e, ¬ p c = .ok a e) :
    Counts dialect depth s (fun _ => p) good :=
  counts_of_run fun c a e _ _ run => absurd run (h c a e)

theorem counts_unexpected : Counts dialect depth s (fun _ => unexpected) good :=
  counts_failing fun _ _ _ => not_unexpected_ok

theorem counts_expected (what : Expectation) :
    Counts dialect depth s (fun _ => expected what) good :=
  counts_failing fun _ _ _ => not_expected_ok

theorem counts_production {production : Production} (h : Counts dialect depth s p good) :
    Counts dialect depth s (fun below => Parser.production production (p below)) good := by
  intro c a e legible here run
  obtain ⟨f, body, rfl⟩ := production_ok.mp run
  obtain ⟨tokens, n, passes, few, needs, isGood⟩ :=
    h (legible.record (.enter production)) here body
  refine ⟨tokens, n, ⟨passes.upcoming, passes.remarks, passes.dialect, passes.pending⟩, few, ?_,
    isGood⟩
  intro depth
  refine ⟨fun enough => production_ok.mpr ⟨f, (needs depth).1 enough, rfl⟩, fun less => ?_⟩
  obtain ⟨x, g, failed, deep⟩ := (needs depth).2 less
  obtain ⟨i, run⟩ := error_production failed
  exact ⟨x, i, run, deep⟩

theorem counts_current_bind {f : Token → Below → Parser α}
    (h : (s.now.isEnd = false → Word.IsWhole dialect s.now.spelling) →
      Counts dialect depth s (f s.now) good) :
    Counts dialect depth s (fun below => current >>= fun t => f t below) good := by
  intro c a e legible here run
  change f c.current (levels depth) c = .ok a e at run
  rw [here] at run
  obtain ⟨tokens, n, passes, few, needs, isGood⟩ := h (here ▸ legible.current) legible here run
  refine ⟨tokens, n, passes, few, ?_, isGood⟩
  rw [← here] at needs
  exact needs

theorem counts_get_bind {f : Cursor → Below → Parser α}
    (h : ∀ c, c.IsLegible dialect → c.current = s.now → Counts dialect depth s (f c) good) :
    Counts dialect depth s (fun below => get >>= fun c => f c below) good :=
  fun c _ _ legible here run => h c legible here legible here run

theorem counts_advance_bind {f : Unit → Below → Parser α} (plain : s.now.closesTable = false)
    (more : s.now.isEnd = false) (h : ∀ now, Counts dialect depth (s.move now) (f ()) good) :
    Counts dialect depth s
      (fun below => (liftM Cursor.advance : Parser Unit) >>= fun u => f u below) good := by
  have first : Counts dialect depth s (fun _ => liftM Cursor.advance) fun _ t =>
      Counts dialect depth t (f ()) good := by
    refine counts_of_run fun c u e legible here run => ?_
    have passes := Cursor.passes_of_advance (liftM_ok.mp run) legible.input (here ▸ more)
    refine ⟨[c.current], passes, ?_⟩
    rw [here, Spot.pass_one plain]
    exact h _
  exact first.bind fun _ _ => id

theorem counts_discard {good : Spot → Prop} (h : Counts dialect depth s p fun _ t => good t) :
    Counts dialect depth s (fun below => Functor.discard (p below)) fun _ t => good t := by
  intro c u e legible here run
  obtain ⟨a, run⟩ := discard_ok.mp run
  obtain ⟨tokens, n, passes, few, needs, isGood⟩ := h legible here run
  refine ⟨tokens, n, passes, few, fun depth => ?_, isGood⟩
  refine ⟨fun enough => discard_ok.mpr ⟨a, (needs depth).1 enough⟩, fun less => ?_⟩
  obtain ⟨x, i, failed, deep⟩ := (needs depth).2 less
  exact ⟨x, i, discard_error failed, deep⟩

end Basics

section Parts

variable {text : String}

theorem counts_consume {pattern : Pattern} {good : Bool → Spot → Prop}
    (plain : pattern.accepts s.now → s.now.closesTable = false ∧ s.now.isEnd = false)
    (yes : pattern.accepts s.now → ∀ now, good true (s.move now)) (no : good false s) :
    Counts dialect depth s (fun _ => liftM (Cursor.consume pattern)) good := by
  refine counts_of_run fun c taken e legible here run => ?_
  have moved := consume_ok (liftM_ok.mp run)
  cases taken with
  | false =>
    obtain rfl : e = c := moved
    exact ⟨[], .refl _, by rwa [here, Spot.pass_nil]⟩
  | true =>
    obtain ⟨accepted, moved⟩ := moved
    rw [here] at accepted
    have passes := Cursor.passes_of_advance moved legible.input (here ▸ (plain accepted).2)
    refine ⟨[c.current], passes, ?_⟩
    rw [here, Spot.pass_one (plain accepted).1]
    exact yes accepted _

theorem counts_takes {good : Bool → Spot → Prop} (other : text ≠ "\x7d")
    (yes : (Pattern.text text).accepts s.now → ∀ now, good true (s.move now)) (no : good false s) :
    Counts dialect depth s (fun _ => takes text) good :=
  counts_consume
    (fun accepted => ⟨Pattern.closesTable_of_accepts accepted other, isEnd_of_accepts accepted⟩)
    yes no

theorem counts_takes_bind {f : Bool → Below → Parser α} (other : text ≠ "\x7d")
    (yes : (Pattern.text text).accepts s.now → ∀ now,
      Counts dialect depth (s.move now) (f true) good)
    (no : Counts dialect depth s (f false) good) :
    Counts dialect depth s (fun below => takes text >>= fun taken => f taken below) good := by
  have first : Counts dialect depth s (fun _ => takes text) fun taken t =>
      Counts dialect depth t (f taken) good := counts_takes other yes no
  exact first.bind fun _ _ => id

theorem counts_takes_ite (other : text ≠ "\x7d")
    (yes : (Pattern.text text).accepts s.now → ∀ now, Counts dialect depth (s.move now) p good)
    (no : Counts dialect depth s q good) :
    Counts dialect depth s
      (fun below => takes text >>= fun taken => if taken = true then p below else q below)
      good := by
  refine counts_takes_bind other (fun accepted now => ?_) ?_
  · simpa using yes accepted now
  · simpa using no

theorem counts_expect_bind {f : Unit → Below → Parser α} (other : text ≠ "\x7d")
    (h : (Pattern.text text).accepts s.now → ∀ now, Counts dialect depth (s.move now) (f ()) good) :
    Counts dialect depth s (fun below => expect text >>= fun u => f u below) good := by
  have first : Counts dialect depth s (fun _ => expect text) fun _ t =>
      Counts dialect depth t (f ()) good :=
    counts_takes_bind other (fun accepted now => counts_pure (h accepted now)) (counts_expected _)
  exact first.bind fun _ _ => id

theorem counts_identifier : Counts dialect depth s (fun _ => identifier) fun _ t =>
    s.Adds .zero t ∧ t.IsClean := by
  refine counts_current_bind fun _ => counts_ite (fun named => ?_) fun _ => counts_expected _
  have other : s.now.kind ≠ .symbol := by simp [named]
  exact counts_advance_bind (Token.closesTable_of_kind other) (by simp [Token.isEnd, named])
    fun now => counts_pure ⟨.refl s, Token.isSeparator_of_kind other⟩

theorem counts_required {part : Below → Parser (Option α)} {what : Expectation}
    (h : Counts dialect depth s part fun result t => ∀ a ∈ result, good a t) :
    Counts dialect depth s (fun below => required what (part below)) good := by
  refine h.bind fun result t all => ?_
  cases result with
  | none => exact counts_expected _
  | some a => exact counts_pure (all a rfl)

theorem counts_behind {count : α → Count} (other : text ≠ "\x7d")
    (h : ∀ now, Counts dialect depth (s.move now) p fun a t => s.Adds (count a) t) :
    Counts dialect depth s (fun below => behind text (p below)) fun result t =>
      s.Adds (result.elim .zero count) t :=
  counts_takes_ite other
    (fun _ now => (h now).bind fun _ _ adds => counts_pure adds) (counts_pure (.refl s))

variable {step : Below → Parser (Option α)} {keeps : Spot → Prop} {ends : Spot → Spot → Prop}
  {count : α → Count}

theorem counts_manyUpTo
    (round : ∀ s, keeps s → Counts dialect depth s step fun result t =>
      result.elim (ends s t) fun a => s.Adds (count a) t ∧ keeps t)
    (stays : ∀ s, keeps s → ends s s) (bound : List β) (h : keeps s) :
    Counts dialect depth s (fun below => manyUpTo (step below) bound) fun parts t =>
      ∃ u, s.Adds (Count.each count parts) u ∧ keeps u ∧ ends u t := by
  induction bound generalizing s with
  | nil => exact counts_pure ⟨s, .refl s, h, stays s h⟩
  | cons _ bound ih =>
    refine (round s h).bind fun result t post => ?_
    cases result with
    | none => exact counts_pure ⟨s, .refl s, h, post⟩
    | some a =>
      obtain ⟨adds, kept⟩ := post
      refine (ih kept).bind fun others v rest => ?_
      obtain ⟨u, more, alsoKept, ended⟩ := rest
      exact counts_pure ⟨u, adds.trans more, alsoKept, ended⟩

/-- What every part keeps holds where the last one ends. The step that gives no more may go on. -/
theorem counts_many_ending
    (round : ∀ s, keeps s → Counts dialect depth s step fun result t =>
      result.elim (ends s t) fun a => s.Adds (count a) t ∧ keeps t)
    (stays : ∀ s, keeps s → ends s s) (h : keeps s) :
    Counts dialect depth s (fun below => many (step below)) fun parts t =>
      ∃ u, s.Adds (Count.each count parts) u ∧ keeps u ∧ ends u t :=
  counts_get_bind fun c _ _ => counts_manyUpTo round stays c.ahead h

theorem counts_many
    (round : ∀ s, Counts dialect depth s step fun result t => s.Adds (result.elim .zero count) t) :
    Counts dialect depth s (fun below => many (step below)) fun parts t =>
      s.Adds (Count.each count parts) t := by
  have each (s : Spot) (_ : True) : Counts dialect depth s step fun result t =>
      result.elim (s.Adds .zero t) fun a => s.Adds (count a) t ∧ True := by
    refine (round s).mono fun result t adds => ?_
    cases result with
    | none => exact adds
    | some a => exact ⟨adds, trivial⟩
  have all := counts_many_ending each (fun s _ => .refl s) (s := s) trivial
  refine all.mono fun parts t post => ?_
  obtain ⟨u, adds, -, ended⟩ := post
  exact adds.trans_zero ended

/-- Parts in which nothing is counted. -/
theorem counts_many_silent
    (round : ∀ s, Counts dialect depth s step fun _ t => s.Adds .zero t) (s : Spot) :
    Counts dialect depth s (fun below => many (step below)) fun _ t => s.Adds .zero t := by
  have each (s : Spot) : Counts dialect depth s step fun (result : Option α) t =>
      s.Adds (result.elim .zero fun _ => .zero) t := by
    refine (round s).mono fun result t adds => ?_
    cases result <;> exact adds
  refine (counts_many each).mono fun parts t adds => ?_
  rwa [Count.each_zero] at adds

theorem counts_afterCommas {item : Below → Parser α}
    (h : ∀ s, Counts dialect depth s item fun a t => s.Adds (count a) t) (s : Spot) :
    Counts dialect depth s (fun below => afterCommas (item below)) fun items t =>
      s.Adds (Count.each count items) t :=
  counts_many fun s => counts_behind (by decide) fun _ => h _

theorem counts_commaSeparated {item : Below → Parser α}
    (h : ∀ s, Counts dialect depth s item fun a t => s.Adds (count a) t) (s : Spot) :
    Counts dialect depth s (fun below => commaSeparated (item below)) fun items t =>
      s.Adds (Count.each count items) t :=
  (h s).bind fun _ _ adds => (counts_afterCommas h _).bind fun _ _ more =>
    counts_pure (adds.trans more)

theorem counts_growUpTo {step : Below → α → Parser (Option α)}
    (round : ∀ a s, good a s → Counts dialect depth s (fun below => step below a) fun result t =>
      result.elim (good a t) (good · t)) (bound : List β) (h : good a s) :
    Counts dialect depth s (fun below => growUpTo (step below) bound a) good := by
  induction bound generalizing s a with
  | nil => exact counts_pure h
  | cons _ bound ih =>
    refine (round a s h).bind fun result t post => ?_
    cases result with
    | none => exact counts_pure post
    | some b => exact ih post

/-- What every step keeps holds of the result. -/
theorem counts_grow {step : Below → α → Parser (Option α)}
    (round : ∀ a s, good a s → Counts dialect depth s (fun below => step below a) fun result t =>
      result.elim (good a t) (good · t)) (h : good a s) :
    Counts dialect depth s (fun below => grow (step below) a) good :=
  counts_get_bind fun c _ _ => counts_growUpTo round c.ahead h

end Parts
end Grammar
end LuaFrontend
