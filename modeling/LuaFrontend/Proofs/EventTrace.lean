import LuaFrontend.Proofs.CursorSession
import LuaFrontend.Proofs.FirstError

set_option autoImplicit false

namespace LuaFrontend

open LuaFrontend.Parser

namespace Event

/-- The token that was read. -/
def token? : Event → Option Token
  | token t => some t
  | enter _ | exit _ => none

/-- The productions that are open behind the event, the innermost first. Only the innermost one can
be left. -/
def open? (opened : List Production) : Event → Option (List Production)
  | token _ => some opened
  | enter p => some (p :: opened)
  | exit p => if opened.head? = some p then some opened.tail else none

/-- The productions that are open behind all of the events. -/
def openAfter (opened : List Production) (events : List Event) : Option (List Production) :=
  events.foldlM open? opened

/-- Whatever is open when the events begin is open behind them, and has not been left. -/
def AreBalanced (events : List Event) : Prop := ∀ opened, openAfter opened events = some opened

theorem openAfter_append (opened : List Production) (first second : List Event) :
    openAfter opened (first ++ second) =
      (openAfter opened first).bind fun inner => openAfter inner second :=
  List.foldlM_append

theorem AreBalanced.nil : AreBalanced [] := fun _ => rfl

theorem AreBalanced.append {first second : List Event} (h : AreBalanced first)
    (g : AreBalanced second) : AreBalanced (first ++ second) := by
  intro opened
  rw [openAfter_append, h opened]
  exact g opened

theorem AreBalanced.tokens (tokens : List Token) : AreBalanced (tokens.map token) := by
  intro opened
  induction tokens with
  | nil => rfl
  | cons t tokens ih => exact ih

theorem AreBalanced.production {events : List Event} (h : AreBalanced events) (p : Production) :
    AreBalanced (enter p :: (events ++ [exit p])) := by
  intro opened
  change openAfter (p :: opened) (events ++ [exit p]) = _
  rw [openAfter_append, h]
  simp [openAfter, open?]

/-- A production reports the tokens that its body reports. -/
theorem filterMap_token?_production (p : Production) (events : List Event) :
    (enter p :: (events ++ [exit p])).filterMap token? = events.filterMap token? := by
  rw [List.filterMap_cons_none rfl, List.filterMap_append]
  exact List.append_nil _

theorem filterMap_token?_tokens (tokens : List Token) :
    (tokens.map token).filterMap token? = tokens := by
  rw [List.filterMap_map]
  exact List.filterMap_some

end Event

namespace Cursor

/-- These events happened between the two cursors: the tokens that were read are not pending any
more, and nothing was opened or left for good. -/
structure Reports (c : Cursor) (events : List Event) (d : Cursor) : Prop where
  journal : d.journal = events.reverse ++ c.journal
  pending : c.pending = (events.filterMap Event.token?).map .ok ++ d.pending
  balanced : Event.AreBalanced events

/-- The same of two cursors with an error between them. -/
structure ReportsError (c : Cursor) (events : List Event) (d : Cursor) : Prop where
  journal : d.journal = events.reverse ++ c.journal
  pending : (events.filterMap Event.token?).map .ok <+: c.pending
  balanced : Event.AreBalanced events

variable {c d e : Cursor} {first second events : List Event}

theorem Reports.refl (c : Cursor) : c.Reports [] c := ⟨rfl, rfl, .nil⟩

theorem Reports.trans (h : c.Reports first d) (g : d.Reports second e) :
    c.Reports (first ++ second) e where
  journal := by rw [g.journal, h.journal, List.reverse_append, List.append_assoc]
  pending := by
    rw [h.pending, g.pending, List.filterMap_append, List.map_append, List.append_assoc]
  balanced := h.balanced.append g.balanced

theorem Reports.trans_error (h : c.Reports first d) (g : d.ReportsError second e) :
    c.ReportsError (first ++ second) e where
  journal := by rw [g.journal, h.journal, List.reverse_append, List.append_assoc]
  pending := by
    rw [h.pending, List.filterMap_append, List.map_append]
    exact (List.prefix_append_right_inj _).mpr g.pending
  balanced := h.balanced.append g.balanced

/-- The run has failed with everything reported so far. -/
theorem Reports.error (h : c.Reports events d) : c.ReportsError events d :=
  ⟨h.journal, h.pending ▸ List.prefix_append _ _, h.balanced⟩

theorem Reports.production (p : Production) (h : (c.record (.enter p)).Reports events d) :
    c.Reports (.enter p :: (events ++ [.exit p])) (d.record (.exit p)) where
  journal := by
    change .exit p :: d.journal = _
    rw [h.journal]
    simp [record]
  pending := by
    rw [Event.filterMap_token?_production]
    exact h.pending
  balanced := h.balanced.production p

theorem ReportsError.production (p : Production)
    (h : (c.record (.enter p)).ReportsError events d) :
    c.ReportsError (.enter p :: (events ++ [.exit p])) (d.record (.exit p)) where
  journal := by
    change .exit p :: d.journal = _
    rw [h.journal]
    simp [record]
  pending := by
    rw [Event.filterMap_token?_production]
    exact h.pending
  balanced := h.balanced.production p

theorem reports_keep (c : Cursor) (t : Token) (more : List Outcome) :
    { c with pending := .ok t :: more }.Reports [.token t] { c.keep t with pending := more } := by
  by_cases comment : t.isComment
  · exact ⟨by simp [keep, comment, record], by simp [Event.token?], .tokens [t]⟩
  · exact ⟨by simp [keep, comment, record], by simp [Event.token?], .tokens [t]⟩

theorem reports_of_readFrom {wanted : Nat} {pending : List Outcome} {c d : Cursor}
    (h : readFrom wanted pending c = .ok () d) :
    ∃ tokens : List Token, { c with pending }.Reports (tokens.map .token) d := by
  induction pending generalizing c with
  | nil =>
    cases h
    exact ⟨[], .refl _⟩
  | cons o more ih =>
    cases o with
    | ok t =>
      rw [readFrom] at h
      split at h
      · cases h
        exact ⟨[], .refl _⟩
      · obtain ⟨tokens, later⟩ := ih h
        exact ⟨t :: tokens, (reports_keep c t more).trans later⟩
    | error e =>
      rw [readFrom] at h
      split at h
      · cases h
        exact ⟨[], .refl _⟩
      · cases h

theorem reportsError_of_readFrom {wanted : Nat} {pending : List Outcome} {c d : Cursor}
    {e : LexError} (h : readFrom wanted pending c = .error e d) :
    ∃ tokens : List Token, { c with pending }.ReportsError (tokens.map .token) d := by
  induction pending generalizing c with
  | nil => cases h
  | cons o more ih =>
    cases o with
    | ok t =>
      rw [readFrom] at h
      split at h
      · cases h
      · obtain ⟨tokens, later⟩ := ih h
        exact ⟨t :: tokens, (reports_keep c t more).trans_error later⟩
    | error f =>
      rw [readFrom] at h
      split at h
      · cases h
      · cases h
        exact ⟨[], rfl, List.nil_prefix, .nil⟩

end Cursor

namespace RunRelation

/-- A run opens no production. It reports the tokens that it has read. -/
def readsTokens : RunRelation where
  leads c d := ∃ tokens : List Token, c.Reports (tokens.map .token) d
  fails c _ d := ∃ tokens : List Token, c.ReportsError (tokens.map .token) d

/-- Reading ahead, and moving the cursor without reading. -/
theorem readsTokens_read {α : Type} (wanted : Nat) (result : Cursor → α) (moved : Cursor → Cursor)
    (journal : ∀ c, (moved c).journal = c.journal) (pending : ∀ c, (moved c).pending = c.pending)
    (c : Cursor) :
    readsTokens.Result c (act (Cursor.read wanted >>= fun _ d => .ok (result d) (moved d)) c) := by
  unfold act
  simp only [bind, EStateM.bind, Cursor.read]
  cases run : Cursor.readFrom wanted c.pending c with
  | ok _ d =>
    obtain ⟨tokens, read⟩ := Cursor.reports_of_readFrom run
    exact ⟨tokens, (journal d).trans read.journal, (pending d).symm ▸ read.pending, read.balanced⟩
  | error x d => exact Cursor.reportsError_of_readFrom run

theorem readsTokens_next : readsTokens.Holds (liftM Cursor.next : Parser Token) :=
  readsTokens_read 1 (Cursor.peek · 1) id (fun _ => rfl) fun _ => rfl

theorem readsTokens_advance : readsTokens.Holds (liftM Cursor.advance : Parser Unit) := by
  refine readsTokens_read 1 (fun _ => ()) Cursor.step ?_ ?_
  all_goals
    intro c
    unfold Cursor.step
    split <;> rfl

theorem readsTokens_takeComments :
    readsTokens.Holds (liftM Cursor.takeComments : Parser (List Token)) :=
  fun _ => ⟨[], rfl, rfl, .nil⟩

theorem readsTokens_failHere {α : Type} (fault : SyntaxFault) :
    readsTokens.Holds (failHere fault : Parser α) :=
  fun c => ⟨[], (Cursor.Reports.refl c).error⟩

theorem readsTokens_unexpected {α : Type} : readsTokens.Holds (unexpected : Parser α) := by
  intro c
  have following := readsTokens_next c
  rw [unexpected, Parser.get_bind]
  cases run : (liftM Cursor.next : Parser Token) c with
  | ok t d =>
    rw [run] at following
    obtain ⟨tokens, read⟩ := following
    rw [bind_eq_of_ok run]
    exact ⟨tokens, read.error⟩
  | error x d =>
    rw [run] at following
    rw [bind_eq_of_error run]
    exact following

/-- What a run reports is balanced, and its tokens are what it has read. -/
def reports : RunRelation where
  leads c d := ∃ events, c.Reports events d
  fails c _ d := ∃ events, c.ReportsError events d

theorem reports_of_readsTokens {α : Type} {p : Parser α} (h : readsTokens.Holds p) :
    reports.Holds p :=
  h.mono (fun ⟨tokens, read⟩ => ⟨tokens.map .token, read⟩)
    fun ⟨tokens, read⟩ => ⟨tokens.map .token, read⟩

theorem isLaw_reports : reports.IsLaw where
  refl c := ⟨[], .refl c⟩
  trans := by
    rintro c d e ⟨first, h⟩ ⟨second, g⟩
    exact ⟨first ++ second, h.trans g⟩
  trans_fails := by
    rintro c d e x ⟨first, h⟩ ⟨second, g⟩
    exact ⟨first ++ second, h.trans_error g⟩
  next := reports_of_readsTokens readsTokens_next
  advance := reports_of_readsTokens readsTokens_advance
  takeComments := reports_of_readsTokens readsTokens_takeComments
  failHere fault := reports_of_readsTokens (readsTokens_failHere fault)
  unexpected := reports_of_readsTokens readsTokens_unexpected
  production p body h c := by
    have inside := h (c.record (.enter p))
    unfold Parser.production
    cases run : body (c.record (.enter p)) with
    | ok a d =>
      rw [run] at inside
      obtain ⟨events, read⟩ := inside
      exact ⟨_, read.production p⟩
    | error x d =>
      rw [run] at inside
      obtain ⟨events, read⟩ := inside
      exact ⟨_, read.production p⟩

end RunRelation

namespace Cursor

variable {dialect : Dialect} {final : Token} {aside : List Token} {items : List Outcome}

/-- At the first token of a text, everything up to it has been reported. -/
theorem journal_of_opening {c : Cursor} (h : opening dialect final aside items = .ok c) :
    ∃ read : List Token, c.journal = (aside.reverse ++ read).reverse.map .token ∧
      items ++ [.ok final] = read.map .ok ++ c.pending := by
  induction items generalizing aside with
  | nil =>
    cases h
    exact ⟨[final], by simp, rfl⟩
  | cons o items ih =>
    cases o with
    | error e => cases h
    | ok t =>
      rw [opening] at h
      split at h
      · obtain ⟨read, journal, split⟩ := ih h
        refine ⟨t :: read, ?_, congrArg (List.cons (Except.ok t)) split⟩
        rw [journal, List.reverse_cons, List.append_assoc]
        rfl
      · cases h
        exact ⟨[t], by simp, rfl⟩

theorem journal_of_opening_error {refusal : Refusal}
    (h : opening dialect final aside items = .error refusal) :
    ∃ read : List Token, refusal.journal = (aside.reverse ++ read).reverse.map .token ∧
      read.map .ok <+: items := by
  induction items generalizing aside with
  | nil => cases h
  | cons o items ih =>
    cases o with
    | error e =>
      cases h
      exact ⟨[], by simp, List.nil_prefix⟩
    | ok t =>
      rw [opening] at h
      split at h
      · obtain ⟨read, journal, front⟩ := ih h
        refine ⟨t :: read, ?_, List.cons_prefix_cons.mpr ⟨rfl, front⟩⟩
        rw [journal, List.reverse_cons, List.append_assoc]
        rfl
      · cases h

end Cursor

/-- A program is read to its end. -/
theorem pending_of_chunk {dialect : Dialect} {source : String} {depth : Nat} {c d : Cursor}
    {chunk : Chunk} (opened : Cursor.ofSource dialect source = .ok c)
    (run : Grammar.chunk depth c = .ok chunk d) : d.pending = [] := by
  obtain ⟨-, -, -, input, closed⟩ := ofSource_view opened
  obtain ⟨tokens, e, passes, rest, last, -, -, same⟩ := Grammar.chunk_passes input run
  rw [same, Cursor.pending_of_isEnd passes closed rest last]

/-- The events of a parse are balanced, and their tokens are what the text begins with. Behind a
program nothing is left unread. -/
theorem Report.trace (options : Options) (source : String) :
    Event.AreBalanced (ofSource options source).events ∧
      ∃ unread, (Lexed.ofSource options.toDialect source).outcomes =
        ((ofSource options source).events.filterMap Event.token?).map .ok ++ unread ∧
        ∀ chunk, (ofSource options source).result = .ok chunk → unread = [] := by
  unfold Report.ofSource
  cases opened : Cursor.ofSource options.toDialect source with
  | error refusal =>
    obtain ⟨read, journal, unread, split⟩ := Cursor.journal_of_opening_error opened
    have events : refusal.journal.reverse = read.map .token := by simp [journal]
    simp only [events, Event.filterMap_token?_tokens]
    refine ⟨.tokens read, unread ++ [.ok (Lexed.ofSource options.toDialect source).final], ?_, ?_⟩
    · rw [Lexed.outcomes, ← split, List.append_assoc]
    · intro chunk program
      cases program
  | ok c =>
    obtain ⟨read, journal, split⟩ := Cursor.journal_of_opening opened
    have before : c.journal.reverse = read.map .token := by simp [journal]
    have reports := RunRelation.isLaw_reports.chunk options.maxDepth c
    cases run : Grammar.chunk options.maxDepth c with
    | ok chunk d =>
      rw [run] at reports
      obtain ⟨events, reports⟩ := reports
      have whole : d.journal.reverse = read.map .token ++ events := by
        simp [reports.journal, before]
      simp only [run, whole, List.filterMap_append, Event.filterMap_token?_tokens, List.map_append]
      refine ⟨(Event.AreBalanced.tokens read).append reports.balanced, d.pending, ?_, fun _ _ =>
        pending_of_chunk opened run⟩
      rw [Lexed.outcomes, split, reports.pending, List.append_assoc]
    | error e d =>
      rw [run] at reports
      obtain ⟨events, reports⟩ := reports
      have whole : d.journal.reverse = read.map .token ++ events := by
        simp [reports.journal, before]
      obtain ⟨unread, pending⟩ := reports.pending
      simp only [run, whole, List.filterMap_append, Event.filterMap_token?_tokens, List.map_append]
      refine ⟨(Event.AreBalanced.tokens read).append reports.balanced, unread, ?_, ?_⟩
      · rw [Lexed.outcomes, split, ← pending, List.append_assoc]
      · intro chunk program
        cases program

/-- The tokens that the parse of a program reports are all that its text is cut into. -/
theorem Report.tokenize_of_ok {options : Options} {source : String} {chunk : Chunk}
    (h : (ofSource options source).result = .ok chunk) :
    tokenize options.toDialect source =
      .ok ((ofSource options source).events.filterMap Event.token?) := by
  obtain ⟨-, unread, split, all⟩ := Report.trace options source
  rw [all chunk h, List.append_nil] at split
  obtain ⟨before, last, tokens, items, final⟩ := List.append_eq_map_iff.mp split
  obtain ⟨t, rfl, same⟩ := List.map_eq_singleton_iff.mp final
  rw [tokens]
  exact tokenize_ok.mpr ⟨before, items.symm, by rw [Except.ok.inj same]⟩

/-- The trace of a parse, whatever becomes of it: every production that is left is the innermost one
open, none stays open, and the tokens are, in their order and each once, the first that the text is
cut into, with no error before them. Those of a program are all its tokens, comments and the end
token included. -/
theorem trace_is_complete (options : Options) (source : String) :
    Event.openAfter [] (Report.ofSource options source).events = some [] ∧
    ((Report.ofSource options source).events.filterMap Event.token?).map .ok <+:
      (Lexed.ofSource options.toDialect source).outcomes ∧
    ∀ chunk, (Report.ofSource options source).result = .ok chunk →
      tokenize options.toDialect source =
        .ok ((Report.ofSource options source).events.filterMap Event.token?) := by
  obtain ⟨balanced, unread, split, -⟩ := Report.trace options source
  exact ⟨balanced [], split ▸ List.prefix_append _ _, fun _ => Report.tokenize_of_ok⟩

/-- The tokens of a program that is one statement and a comment. -/
theorem trace_of_break :
    ∃ chunk, (Report.ofSource .forParser "break --c").result = .ok chunk ∧
      tokenize Options.forParser.toDialect "break --c" =
        .ok ((Report.ofSource .forParser "break --c").events.filterMap Event.token?) := by
  obtain ⟨-, -, program⟩ := trace_is_complete .forParser "break --c"
  exact ⟨_, rfl, program _ rfl⟩

end LuaFrontend
