import LuaFrontend.Source.Position

set_option autoImplicit false

namespace LuaFrontend

/-- The line ends of a text that begins at this offset. Pairs are taken from the left. -/
def lineEnds (offset : Nat) : List Char → List Span
  | [] => []
  | [a] => if isLineBreak a then [⟨offset, offset + 1⟩] else []
  | a :: b :: rest =>
    if isBreakPair a b then ⟨offset, offset + 2⟩ :: lineEnds (offset + 2) rest
    else if isLineBreak a then ⟨offset, offset + 1⟩ :: lineEnds (offset + 1) (b :: rest)
    else lineEnds (offset + a.utf8Size) (b :: rest)

/-- Where the last of these line ends stops. -/
def lastStop (first : Nat) (ends : List Span) : Nat := (ends.getLast?.map (·.stop)).getD first

/-- The position of an offset: the line ends that stop at or before it are counted, and its line
begins where the last of them stops. -/
def lineAt (source : List Char) (offset : Nat) : Position :=
  let past := (lineEnds 0 source).filter (·.stop ≤ offset)
  ⟨offset, 1 + past.length, lastStop 0 past⟩

/-- No pair of line break characters is cut between the two texts. -/
def CutsClean : List Char → List Char → Prop
  | [], _ => True
  | [a], behind => ∀ b ∈ behind.head?, isBreakPair a b = false
  | a :: b :: rest, behind =>
    if isBreakPair a b then CutsClean rest behind else CutsClean (b :: rest) behind

theorem isBreakPair_eq_false_left {a : Char} (h : isLineBreak a = false) (b : Char) :
    isBreakPair a b = false := by
  cases pair : isBreakPair a b with
  | false => rfl
  | true => rw [(isLineBreak_of_isBreakPair pair).1] at h; contradiction

theorem isBreakPair_eq_false_right {b : Char} (h : isLineBreak b = false) (a : Char) :
    isBreakPair a b = false := by
  cases pair : isBreakPair a b with
  | false => rfl
  | true => rw [(isLineBreak_of_isBreakPair pair).2] at h; contradiction

namespace CutsClean

theorem of_head {behind : List Char} (h : ∀ b ∈ behind.head?, isLineBreak b = false)
    (before : List Char) : CutsClean before behind := by
  fun_induction CutsClean before behind with
  | case1 => trivial
  | case2 a behind => exact fun b first => isBreakPair_eq_false_right (h b first) a
  | case3 a b rest behind pair ih => exact ih h
  | case4 a b rest behind alone ih => exact ih h

theorem nil_right (before : List Char) : CutsClean before [] :=
  of_head (fun _ first => by cases first) before

/-- A text without line breaks, and whatever follows it. -/
theorem of_forall {before : List Char} (h : ∀ c ∈ before, isLineBreak c = false)
    (behind : List Char) : CutsClean before behind := by
  fun_induction CutsClean before behind with
  | case1 => trivial
  | case2 a behind =>
    exact fun b _ => isBreakPair_eq_false_left (h a List.mem_cons_self) b
  | case3 a b rest behind pair ih =>
    rw [isBreakPair_eq_false_left (h a List.mem_cons_self)] at pair
    contradiction
  | case4 a b rest behind alone ih =>
    exact ih fun c inside => h c (List.mem_cons_of_mem a inside)

/-- Where two texts meet without a cut pair, only the end of the second matters. -/
theorem append_iff {a b c : List Char} (h : CutsClean a (b ++ c)) :
    CutsClean (a ++ b) c ↔ CutsClean b c := by
  generalize whole : b ++ c = behind at h
  fun_induction CutsClean a behind with
  | case1 => rfl
  | case2 x behind =>
    subst whole
    cases b with
    | nil => exact iff_of_true h trivial
    | cons y b =>
      have single : isBreakPair x y = false := h y rfl
      rw [List.singleton_append, CutsClean, if_neg (by simp [single])]
  | case3 x y rest behind pair ih =>
    rw [List.cons_append, List.cons_append, CutsClean, if_pos pair]
    exact ih whole h
  | case4 x y rest behind alone ih =>
    rw [List.cons_append, List.cons_append, CutsClean, if_neg alone]
    exact ih whole h

theorem append {a b c : List Char} (h : CutsClean a (b ++ c)) (g : CutsClean b c) :
    CutsClean (a ++ b) c :=
  (append_iff h).mpr g

/-- More text behind the place where it goes on does not matter. -/
theorem of_append_right {a b c : List Char} (h : CutsClean a (b ++ c)) : CutsClean a b := by
  cases b with
  | nil => exact nil_right a
  | cons x b =>
    generalize whole : (x :: b) ++ c = behind at h
    fun_induction CutsClean a behind with
    | case1 => trivial
    | case2 y behind =>
      subst whole
      exact h
    | case3 y z rest behind pair ih =>
      rw [CutsClean, if_pos pair]
      exact ih whole h
    | case4 y z rest behind alone ih =>
      rw [CutsClean, if_neg alone]
      exact ih whole h

theorem of_last {c : Char} (h : isLineBreak c = false) (before behind : List Char) :
    CutsClean (before ++ [c]) behind := by
  apply append
  · apply of_head
    intro b first
    obtain rfl := Option.some.inj first
    exact h
  · exact fun b _ => isBreakPair_eq_false_left h b

end CutsClean

theorem lineEnds_append {before behind : List Char} (h : CutsClean before behind) (offset : Nat) :
    lineEnds offset (before ++ behind) =
      lineEnds offset before ++ lineEnds (offset + byteLength before) behind := by
  fun_induction lineEnds offset before with
  | case1 => rfl
  | case2 offset a breaks =>
    cases behind with
    | nil => simp [lineEnds, breaks]
    | cons b behind =>
      have alone : isBreakPair a b = false := h b rfl
      simp [lineEnds, alone, breaks, utf8Size_of_isLineBreak breaks]
  | case3 offset a other =>
    cases behind with
    | nil => simp [lineEnds, other]
    | cons b behind =>
      have alone : isBreakPair a b = false := h b rfl
      simp [lineEnds, alone, other]
  | case4 offset a b rest pair ih =>
    simp only [CutsClean, pair, ↓reduceIte] at h
    have breaks := isLineBreak_of_isBreakPair pair
    simp only [List.cons_append, lineEnds, pair, ↓reduceIte, ih h, byteLength_cons,
      utf8Size_of_isLineBreak breaks.1, utf8Size_of_isLineBreak breaks.2, ← Nat.add_assoc]
  | case5 offset a b rest alone breaks ih =>
    rw [CutsClean, if_neg alone] at h
    have later := ih h
    rw [List.cons_append] at later
    rw [List.cons_append, List.cons_append, lineEnds, if_neg alone, if_pos breaks, later,
      byteLength_cons a, utf8Size_of_isLineBreak breaks, Nat.add_assoc, List.cons_append]
  | case6 offset a b rest alone other ih =>
    rw [CutsClean, if_neg alone] at h
    have later := ih h
    rw [List.cons_append] at later
    rw [List.cons_append, List.cons_append, lineEnds, if_neg alone, if_neg other, later,
      byteLength_cons a, Nat.add_assoc]

/-- Line ends lie inside the text, and none of them is empty. -/
theorem bounds_of_mem_lineEnds {offset : Nat} {text : List Char} {s : Span}
    (h : s ∈ lineEnds offset text) :
    offset ≤ s.start ∧ s.start < s.stop ∧ s.stop ≤ offset + byteLength text := by
  fun_induction lineEnds offset text with
  | case1 => simp at h
  | case2 offset a breaks =>
    rw [List.mem_singleton] at h
    subst h
    simp [utf8Size_of_isLineBreak breaks]
  | case3 => simp at h
  | case4 offset a b rest pair ih =>
    have breaks := isLineBreak_of_isBreakPair pair
    simp only [byteLength_cons, utf8Size_of_isLineBreak breaks.1, utf8Size_of_isLineBreak breaks.2]
    rcases List.mem_cons.mp h with rfl | later
    · dsimp only
      omega
    · have inside := ih later
      omega
  | case5 offset a b rest _ breaks ih =>
    simp only [byteLength_cons, utf8Size_of_isLineBreak breaks]
    rcases List.mem_cons.mp h with rfl | later
    · dsimp only
      omega
    · have inside := ih later
      simp only [byteLength_cons] at inside
      omega
  | case6 offset a b rest _ _ ih =>
    have inside := ih h
    simp only [byteLength_cons] at inside ⊢
    omega

theorem lastStop_append (first : Nat) (ends others : List Span) :
    lastStop first (ends ++ others) = lastStop (lastStop first ends) others := by
  unfold lastStop
  rw [List.getLast?_append]
  cases others.getLast? <;> rfl

theorem lastStop_cons (first : Nat) (s : Span) (others : List Span) :
    lastStop first (s :: others) = lastStop s.stop others :=
  lastStop_append first [s] others

/-- A position that is carried over a text counts the line ends of that text. -/
theorem Position.after_eq (p : Position) (text : List Char) :
    p.after text = ⟨p.offset + byteLength text, p.line + (lineEnds p.offset text).length,
      lastStop p.lineStart (lineEnds p.offset text)⟩ := by
  fun_induction after p text with
  | case1 => rfl
  | case2 p a breaks =>
    simp [lineEnds, breaks, lastStop, nextLine, utf8Size_of_isLineBreak breaks]
  | case3 p a other => simp [lineEnds, other, lastStop, forward]
  | case4 p a b rest pair ih =>
    have breaks := isLineBreak_of_isBreakPair pair
    rw [ih]
    simp only [lineEnds, pair, ↓reduceIte, byteLength_cons, utf8Size_of_isLineBreak breaks.1,
      utf8Size_of_isLineBreak breaks.2, List.length_cons, nextLine, lastStop_cons,
      mk.injEq, and_true]
    omega
  | case5 p a b rest alone breaks ih =>
    rw [ih]
    simp only [lineEnds, if_neg alone, if_pos breaks, byteLength_cons,
      utf8Size_of_isLineBreak breaks, List.length_cons, nextLine, lastStop_cons,
      mk.injEq, and_true]
    omega
  | case6 p a b rest alone other ih =>
    rw [ih]
    simp only [lineEnds, if_neg alone, if_neg other, byteLength_cons, forward, Nat.add_assoc]

/-- A position may be carried over a text in two steps if the text is not cut inside a pair. -/
theorem Position.after_append (p : Position) {first second : List Char}
    (h : CutsClean first second) : (p.after first).after second = p.after (first ++ second) := by
  simp only [after_eq, lineEnds_append h, byteLength_append, List.length_append, lastStop_append,
    Nat.add_assoc]

theorem lineStart_lineAt_le (source : List Char) (offset : Nat) :
    (lineAt source offset).lineStart ≤ offset := by
  simp only [lineAt, lastStop]
  cases last : ((lineEnds 0 source).filter (·.stop ≤ offset)).getLast? with
  | none => exact Nat.zero_le _
  | some s =>
    have member := (List.mem_filter.mp (List.mem_of_getLast? last)).2
    simpa using member

/-- A position in a text is the one that the count gives for its offset, and it is not inside a line
end. Its column is counted from where its line begins. -/
structure Position.IsCounted (source : List Char) (p : Position) : Prop where
  eq_lineAt : p = lineAt source p.offset
  column_eq : p.column = p.offset - (lineAt source p.offset).lineStart + 1
  lineStart_le : (lineAt source p.offset).lineStart ≤ p.offset
  offset_le : p.offset ≤ byteLength source
  outside : ∀ s ∈ lineEnds 0 source, ¬ (s.start < p.offset ∧ p.offset < s.stop)

/-- What is carried along from the beginning of a text is what is counted there. -/
theorem Position.isCounted_after {before behind : List Char} (h : CutsClean before behind) :
    (({} : Position).after before).IsCounted (before ++ behind) := by
  have ends := lineEnds_append h 0
  rw [Nat.zero_add] at ends
  have front : (lineEnds 0 before).filter (·.stop ≤ byteLength before) = lineEnds 0 before := by
    rw [List.filter_eq_self]
    intro s inside
    have bounds := bounds_of_mem_lineEnds inside
    simp only [decide_eq_true_eq]
    omega
  have back : (lineEnds (byteLength before) behind).filter (·.stop ≤ byteLength before) = [] := by
    rw [List.filter_eq_nil_iff]
    intro s inside
    have bounds := bounds_of_mem_lineEnds inside
    simp only [decide_eq_true_eq]
    omega
  have counted : ({} : Position).after before =
      lineAt (before ++ behind) (({} : Position).after before).offset := by
    simp only [after_eq, lineAt, ends, Nat.zero_add, List.filter_append, front, back,
      List.append_nil]
  refine ⟨counted, ?_, lineStart_lineAt_le _ _, ?_, ?_⟩
  · rw [← counted]
    rfl
  · simp [offset_after]
  · intro s inside
    rw [ends, List.mem_append] at inside
    simp only [after_eq, Nat.zero_add]
    rcases inside with left | right
    · have bounds := bounds_of_mem_lineEnds left
      omega
    · have bounds := bounds_of_mem_lineEnds right
      omega

/-- A pair of a carriage return and a line feed ends one line, a third character the next. -/
example : lineAt "a\r\n\rb".toList 4 = ⟨4, 3, 4⟩ := by decide

end LuaFrontend
