/-
The texts that are read as expressions.  A text is a layout of tokens if it has them in
order with blanks and comments around them, and reading accepts exactly the layouts of
the tokens of its result.
-/
import Mathlib.Data.List.TakeWhile
import Tableau.Problem.Basic

namespace Tableau

namespace Text

/-- A line ends in front of the text `rest`. -/
def AtLineEnd (rest : List Char) : Prop :=
  rest = [] ∨ (∃ more, rest = '\n' :: more) ∨ ∃ more, rest = '\r' :: '\n' :: more

/-- No character of a text belongs to the end of a line. -/
def IsWithinLine (cs : List Char) : Prop := ∀ c ∈ cs, c ≠ '\r' ∧ c ≠ '\n'

/-- One blank in front of the text `rest`: a character, or a comment, which goes up to
the end of its line. -/
inductive Blank (rest : List Char) : List Char → Prop where
  | char {c : Char} : c ∈ [' ', '\t', '\r', '\n'] → Blank rest [c]
  | comment {body : List Char} : IsWithinLine body → AtLineEnd rest → Blank rest (';' :: body)

/-- Any number of blanks in front of the text `rest`. -/
inductive Gap (rest : List Char) : List Char → Prop where
  | nil : Gap rest []
  | cons {blank gap : List Char} : Blank (gap ++ rest) blank → Gap rest gap →
      Gap rest (blank ++ gap)

/-- The name of a symbol: a run of characters that are neither white space nor
parentheses nor semicolons. -/
structure IsSymbol (name : List Char) : Prop where
  nonempty : name ≠ []
  chars : ∀ c ∈ name, isSpace c = false ∧ c ∉ ['(', ')', ';']

/-- A text has the given tokens in order, with blanks before, between and after them.
`behind` tells whether the text stands behind a symbol; from a further symbol at least
one blank separates it. -/
inductive Layout : (behind : Bool) → List Token → List Char → Prop where
  | nil {behind : Bool} {gap : List Char} : Gap [] gap → Layout behind [] gap
  | opening {behind : Bool} {tokens : List Token} {gap rest : List Char} :
      Gap ('(' :: rest) gap → Layout false tokens rest →
      Layout behind (.opening :: tokens) (gap ++ '(' :: rest)
  | closing {behind : Bool} {tokens : List Token} {gap rest : List Char} :
      Gap (')' :: rest) gap → Layout false tokens rest →
      Layout behind (.closing :: tokens) (gap ++ ')' :: rest)
  | symbol {behind : Bool} {tokens : List Token} {gap name rest : List Char} :
      Gap (name ++ rest) gap → (behind = true → gap ≠ []) → IsSymbol name →
        Layout true tokens rest →
      Layout behind (.symbol (String.ofList name) :: tokens) (gap ++ (name ++ rest))

/-- A text has the given tokens in order, with blanks before, between and after them, where
it stands in front of the text `rest`, in which its last symbol does not go on. -/
inductive LayoutBefore (rest : List Char) : (behind : Bool) → List Token → List Char → Prop where
  | nil {behind : Bool} {gap : List Char} :
      Gap rest gap → (behind = true → ∀ c ∈ (gap ++ rest).head?, ¬ IsSymbol [c]) →
      LayoutBefore rest behind [] gap
  | opening {behind : Bool} {tokens : List Token} {gap more : List Char} :
      Gap ('(' :: (more ++ rest)) gap → LayoutBefore rest false tokens more →
      LayoutBefore rest behind (.opening :: tokens) (gap ++ '(' :: more)
  | closing {behind : Bool} {tokens : List Token} {gap more : List Char} :
      Gap (')' :: (more ++ rest)) gap → LayoutBefore rest false tokens more →
      LayoutBefore rest behind (.closing :: tokens) (gap ++ ')' :: more)
  | symbol {behind : Bool} {tokens : List Token} {gap name more : List Char} :
      Gap (name ++ (more ++ rest)) gap → (behind = true → gap ≠ []) → IsSymbol name →
      LayoutBefore rest true tokens more →
      LayoutBefore rest behind (.symbol (String.ofList name) :: tokens) (gap ++ (name ++ more))

end Text

namespace Lexeme

open Text

variable {text rest gap : List Char} {c : Char}

/-! Blanks and comments are skipped, and nothing else is. -/

theorem isSymbolChar_iff : isSymbolChar c = true ↔ isSpace c = false ∧ c ∉ ['(', ')', ';'] := by
  simp [isSymbolChar, and_assoc]

theorem isBlank_iff : isBlank c = true ↔ c ∈ [' ', '\t', '\r', '\n'] := by
  simp [isBlank, or_assoc]

theorem isSymbolChar_of_isBlank (h : isBlank c = true) : isSymbolChar c = false := by
  simp [isSymbolChar, isSpace_of_isBlank h]

/-- The text behind a semicolon is a comment up to the end of the first line. -/
theorem isComment_iff :
    isComment text = true ↔
      ∃ body rest, text = body ++ rest ∧ IsWithinLine body ∧ AtLineEnd rest := by
  constructor
  · intro h
    fun_induction isComment text with
    | case1 => exact ⟨[], [], rfl, by simp [IsWithinLine], Or.inl rfl⟩
    | case2 more => exact ⟨[], _, rfl, by simp [IsWithinLine], Or.inr (Or.inl ⟨more, rfl⟩)⟩
    | case3 more =>
        obtain ⟨more, rfl⟩ := List.head?_eq_some_iff.mp (beq_iff_eq.mp h)
        exact ⟨[], _, rfl, by simp [IsWithinLine], Or.inr (Or.inr ⟨more, rfl⟩)⟩
    | case4 c more hfeed hreturn ih =>
        obtain ⟨body, rest, rfl, hbody, hend⟩ := ih h
        refine ⟨c :: body, rest, rfl, ?_, hend⟩
        exact List.forall_mem_cons.mpr ⟨⟨fun h => hreturn h, fun h => hfeed h⟩, hbody⟩
  · rintro ⟨body, rest, rfl, hbody, hend⟩
    induction body with
    | nil => rcases hend with rfl | ⟨more, rfl⟩ | ⟨more, rfl⟩ <;> simp [isComment]
    | cons c body ih =>
        obtain ⟨⟨hreturn, hfeed⟩, hbody⟩ := List.forall_mem_cons.mp hbody
        rw [List.cons_append, isComment]
        · exact ih hbody
        · exact hfeed
        · exact hreturn

/-- Inside a comment, the rest of the line is skipped. -/
theorem skipFrom_comment {body : List Char} (hbody : IsWithinLine body) (hend : AtLineEnd rest) :
    skipFrom true (body ++ rest) = skipBlanks rest := by
  induction body with
  | nil =>
      rcases hend with rfl | ⟨more, rfl⟩ | ⟨more, rfl⟩ <;> simp [skipBlanks, skipFrom, isBlank]
  | cons c body ih =>
      obtain ⟨⟨hreturn, hfeed⟩, hbody⟩ := List.forall_mem_cons.mp hbody
      have hinside : (c != '\r' && c != '\n') = true := by simp [hreturn, hfeed]
      rw [List.cons_append, skipFrom, hinside]
      exact ih hbody

theorem skipBlanks_blank {blank : List Char} (h : Blank rest blank) :
    skipBlanks (blank ++ rest) = skipBlanks rest := by
  cases h with
  | char hc => simp [skipBlanks, skipFrom, isBlank_iff.mpr hc]
  | @comment body hbody hend =>
      have hcomment : isComment (body ++ rest) = true :=
        isComment_iff.mpr ⟨body, rest, rfl, hbody, hend⟩
      rw [← skipFrom_comment hbody hend]
      simp [skipBlanks, skipFrom, isBlank, hcomment]

theorem skipBlanks_gap (h : Gap rest gap) : skipBlanks (gap ++ rest) = skipBlanks rest := by
  induction h with
  | nil => rfl
  | cons hblank _ ih => rw [List.append_assoc, skipBlanks_blank hblank, ih]

/-- A blank is skipped with those behind it. -/
theorem exists_gap_append {blank : List Char} (hblank : Blank rest blank)
    (h : ∃ gap, rest = gap ++ skipBlanks rest ∧ Gap (skipBlanks rest) gap) :
    ∃ gap, blank ++ rest = gap ++ skipBlanks (blank ++ rest) ∧
      Gap (skipBlanks (blank ++ rest)) gap := by
  obtain ⟨gap, hrest, hgap⟩ := h
  rw [skipBlanks_blank hblank]
  refine ⟨blank ++ gap, by rw [List.append_assoc, ← hrest], .cons ?_ hgap⟩
  rwa [← hrest]

/-- What is skipped is a sequence of blanks. -/
theorem exists_gap (text : List Char) :
    ∃ gap, text = gap ++ skipBlanks text ∧ Gap (skipBlanks text) gap := by
  cases text with
  | nil => exact ⟨[], rfl, .nil⟩
  | cons c rest =>
      by_cases hblank : isBlank c = true
      · exact exists_gap_append (.char (isBlank_iff.mp hblank)) (exists_gap rest)
      · by_cases hcomment : c = ';' ∧ isComment rest = true
        · obtain ⟨rfl, hcomment⟩ := hcomment
          obtain ⟨body, more, hrest, hbody, hend⟩ := isComment_iff.mp hcomment
          have hle : more.length ≤ rest.length := by simp [hrest]
          rw [hrest]
          exact exists_gap_append (.comment hbody hend) (exists_gap more)
        · refine ⟨[], ?_, .nil⟩
          simp [skipBlanks, skipFrom, hblank, hcomment]
termination_by text.length
decreasing_by
  · simp
  · exact Nat.lt_succ_of_le hle

/-- Blanks do not begin with a character of a symbol. -/
theorem isSymbolChar_of_gap {more : List Char} (h : Gap rest (c :: more)) :
    isSymbolChar c = false := by
  generalize htext : c :: more = text at h
  cases h with
  | nil => contradiction
  | cons hblank _ =>
      cases hblank with
      | char hc =>
          obtain ⟨rfl, -⟩ := List.cons.inj htext
          exact isSymbolChar_of_isBlank (isBlank_iff.mpr hc)
      | comment =>
          obtain ⟨rfl, -⟩ := List.cons.inj htext
          rfl

/-! One step of scanning, by what stands behind the blanks. -/

theorem scan_nil (h : skipBlanks text = []) : scan text = ([], []) := by
  rw [scan]
  split
  · rfl
  · simp_all

theorem scan_cons (h : skipBlanks text = c :: rest) :
    scan text =
      if c = '(' then (⟨.opening, c :: rest⟩ :: (scan rest).1, (scan rest).2)
      else if c = ')' then (⟨.closing, c :: rest⟩ :: (scan rest).1, (scan rest).2)
      else if isSymbolChar c then
        (⟨.symbol (String.ofList (c :: rest.takeWhile isSymbolChar)), c :: rest⟩ ::
          (scan (rest.dropWhile isSymbolChar)).1, (scan (rest.dropWhile isSymbolChar)).2)
      else ([], c :: rest) := by
  rw [scan]
  split
  · simp_all
  · next heq =>
      obtain ⟨rfl, rfl⟩ := List.cons.inj (h.symm.trans heq)
      rfl

theorem scan_symbol (h : skipBlanks text = c :: rest) (hc : isSymbolChar c = true) :
    scan text =
      (⟨.symbol (String.ofList (c :: rest.takeWhile isSymbolChar)), c :: rest⟩ ::
        (scan (rest.dropWhile isSymbolChar)).1, (scan (rest.dropWhile isSymbolChar)).2) := by
  obtain ⟨-, hparens⟩ := isSymbolChar_iff.mp hc
  have hopening : c ≠ '(' := by rintro rfl; simp at hparens
  have hclosing : c ≠ ')' := by rintro rfl; simp at hparens
  rw [scan_cons h, if_neg hopening, if_neg hclosing, if_pos hc]

/-! Symbols are as long as possible. -/

/-- No symbol goes on at the beginning of a text. -/
def IsApart (text : List Char) : Prop := ∀ c ∈ text.head?, isSymbolChar c = false

theorem isApart_dropWhile (rest : List Char) : IsApart (rest.dropWhile isSymbolChar) := by
  intro c hc
  have hnot := List.head?_dropWhile_not isSymbolChar rest
  simp_all

/-- Blanks keep what is in front of them apart. -/
theorem isApart_append (h : Gap rest gap) (hrest : gap = [] → IsApart rest) :
    IsApart (gap ++ rest) := by
  cases gap with
  | nil => exact hrest rfl
  | cons c more =>
      rintro _ ⟨⟩
      exact isSymbolChar_of_gap h

theorem isSymbol_iff {name : List Char} :
    IsSymbol name ↔ ∃ c cs, name = c :: cs ∧ isSymbolChar c = true ∧
      ∀ d ∈ cs, isSymbolChar d = true := by
  constructor
  · rintro ⟨hnonempty, hchars⟩
    obtain ⟨c, cs, rfl⟩ := List.exists_cons_of_ne_nil hnonempty
    obtain ⟨hc, hcs⟩ := List.forall_mem_cons.mp hchars
    exact ⟨c, cs, rfl, isSymbolChar_iff.mpr hc, fun d hd => isSymbolChar_iff.mpr (hcs d hd)⟩
  · rintro ⟨c, cs, rfl, hc, hcs⟩
    refine ⟨by simp, List.forall_mem_cons.mpr ⟨isSymbolChar_iff.mp hc, fun d hd => ?_⟩⟩
    exact isSymbolChar_iff.mp (hcs d hd)

/-- A run of characters of a symbol ends where the next text stands apart. -/
theorem span_symbol {cs : List Char} (hcs : ∀ d ∈ cs, isSymbolChar d = true)
    (hrest : IsApart rest) :
    (cs ++ rest).takeWhile isSymbolChar = cs ∧ (cs ++ rest).dropWhile isSymbolChar = rest := by
  rw [List.takeWhile_append_of_pos hcs, List.dropWhile_append_of_pos hcs]
  cases rest with
  | nil => simp
  | cons c rest => simp [hrest c rfl]

theorem isApart_iff : IsApart text ↔ ∀ c ∈ text.head?, ¬ IsSymbol [c] := by
  simp [IsApart, isSymbol_iff]

/-- In front of nothing, a layout is one of a whole text. -/
theorem layoutBefore_nil_iff {behind : Bool} {tokens : List Token} :
    LayoutBefore [] behind tokens text ↔ Layout behind tokens text := by
  constructor
  · intro h
    induction h with
    | nil hgap _ => exact .nil hgap
    | opening hgap _ ih => exact .opening (by simpa using hgap) ih
    | closing hgap _ ih => exact .closing (by simpa using hgap) ih
    | symbol hgap hsep hname _ ih => exact .symbol (by simpa using hgap) hsep hname ih
  · intro h
    induction h with
    | nil hgap =>
        refine .nil hgap fun _ => isApart_iff.mp ?_
        exact isApart_append hgap fun _ => by simp [IsApart]
    | opening hgap _ ih => exact .opening (by simpa using hgap) ih
    | closing hgap _ ih => exact .closing (by simpa using hgap) ih
    | symbol hgap hsep hname _ ih => exact .symbol (by simpa using hgap) hsep hname ih

/-- A symbol that is cut off in front of the first character that does not belong to it. -/
theorem layoutBefore_symbol {behind : Bool} {tokens : List Token} {more : List Char}
    (hgap : Gap (c :: rest) gap) (hbehind : behind = true → IsApart (gap ++ c :: rest))
    (hc : isSymbolChar c = true) {after : List Char}
    (hcut : rest.dropWhile isSymbolChar = more ++ after)
    (hmore : LayoutBefore after true tokens more) :
    ∃ front, gap ++ c :: rest = front ++ after ∧
      LayoutBefore after behind
        (.symbol (String.ofList (c :: rest.takeWhile isSymbolChar)) :: tokens) front := by
  have hname : IsSymbol (c :: rest.takeWhile isSymbolChar) :=
    isSymbol_iff.mpr ⟨c, _, rfl, hc, fun d hd => List.mem_takeWhile_imp hd⟩
  have hrest : c :: rest = (c :: rest.takeWhile isSymbolChar) ++ (more ++ after) := by
    rw [← hcut, List.cons_append, List.takeWhile_append_dropWhile]
  have hsep : behind = true → gap ≠ [] := by
    rintro hbehind' rfl
    have hnot := hbehind hbehind' c rfl
    simp [hnot] at hc
  refine ⟨gap ++ (_ ++ more), ?_, .symbol (hrest ▸ hgap) hsep hname hmore⟩
  rw [List.append_assoc, List.append_assoc, ← hrest]

/-! Scanning, and the layouts of what is scanned. -/

/-- The text that the given lexemes begin; `stop` is the text behind all of them. -/
def startOf (stop : List Char) : List Lexeme → List Char
  | [] => stop
  | lexeme :: _ => lexeme.rest

theorem startOf_scan (text : List Char) :
    startOf (scan text).2 (scan text).1 = skipBlanks text := by
  cases hskip : skipBlanks text with
  | nil => rw [scan_nil hskip]; rfl
  | cons c rest =>
      rw [scan_cons hskip]
      split_ifs <;> rfl

theorem cons_pair_inj {lexeme lexeme' : Lexeme} {scanned : List Lexeme × List Char}
    {lexemes : List Lexeme} {stop : List Char}
    (h : (lexeme :: scanned.1, scanned.2) = (lexeme' :: lexemes, stop)) :
    lexeme = lexeme' ∧ scanned = (lexemes, stop) := by
  obtain ⟨hcons, hstop⟩ := Prod.mk.inj h
  obtain ⟨hhead, htail⟩ := List.cons.inj hcons
  exact ⟨hhead, Prod.ext htail hstop⟩

/-- The first lexemes of a text are those of a text in front of the other lexemes. -/
theorem layoutBefore_of_scan {front back : List Lexeme} {stop : List Char} (text : List Char)
    (behind : Bool) (hbehind : behind = true → IsApart text)
    (h : scan text = (front ++ back, stop)) :
    ∃ read, text = read ++ startOf stop back ∧
      LayoutBefore (startOf stop back) behind (front.map (·.token)) read := by
  induction front generalizing text behind with
  | nil =>
      obtain ⟨gap, htext, hgap⟩ := exists_gap text
      have hstart : startOf stop back = skipBlanks text := by
        rw [← startOf_scan text, h]
        rfl
      rw [hstart]
      exact ⟨gap, htext, .nil hgap fun hb => isApart_iff.mp (htext ▸ hbehind hb)⟩
  | cons lexeme front ih =>
      obtain ⟨gap, htext, hgap⟩ := exists_gap text
      cases hskip : skipBlanks text with
      | nil =>
          rw [scan_nil hskip] at h
          simp at h
      | cons c rest =>
          rw [hskip] at htext hgap
          rw [scan_cons hskip] at h
          split_ifs at h with hopening hclosing hc
          · obtain ⟨rfl, hscan⟩ := cons_pair_inj h
            obtain ⟨read, hread, hlayout⟩ := ih rest false (by simp) hscan
            rw [hopening, hread] at htext hgap
            exact ⟨gap ++ '(' :: read, by simp [htext], .opening hgap hlayout⟩
          · obtain ⟨rfl, hscan⟩ := cons_pair_inj h
            obtain ⟨read, hread, hlayout⟩ := ih rest false (by simp) hscan
            rw [hclosing, hread] at htext hgap
            exact ⟨gap ++ ')' :: read, by simp [htext], .closing hgap hlayout⟩
          · obtain ⟨rfl, hscan⟩ := cons_pair_inj h
            obtain ⟨read, hread, hlayout⟩ := ih _ true (fun _ => isApart_dropWhile rest) hscan
            rw [htext] at hbehind ⊢
            exact layoutBefore_symbol hgap hbehind hc hread hlayout
          · exact absurd (congrArg Prod.fst h) (List.cons_ne_nil _ _).symm

/-- A text that is scanned to its end is a layout of its tokens. -/
theorem layout_of_scan (text : List Char) (behind : Bool) (hbehind : behind = true → IsApart text)
    (hend : (scan text).2 = []) : Layout behind ((scan text).1.map (·.token)) text := by
  have hscan : scan text = ((scan text).1 ++ [], []) := by rw [List.append_nil, ← hend]
  obtain ⟨read, htext, hlayout⟩ := layoutBefore_of_scan text behind hbehind hscan
  rw [startOf, List.append_nil] at htext
  rw [← htext] at hlayout
  exact layoutBefore_nil_iff.mp hlayout

/-- At a character that is neither blank nor a semicolon, nothing is skipped. -/
theorem skipBlanks_cons (hblank : isBlank c = false) (hsemicolon : c ≠ ';') :
    skipBlanks (c :: rest) = c :: rest := by
  simp [skipBlanks, skipFrom, hblank, hsemicolon]

theorem skipBlanks_symbol (hc : isSymbolChar c = true) : skipBlanks (c :: rest) = c :: rest := by
  refine skipBlanks_cons ?_ ?_
  · rw [← Bool.not_eq_true]
    intro hblank
    simp [isSymbolChar_of_isBlank hblank] at hc
  · rintro rfl
    contradiction

/-- Scanning depends only on what stands behind the leading blanks. -/
theorem scan_congr {text' : List Char} (h : skipBlanks text = skipBlanks text') :
    scan text = scan text' := by
  cases hskip : skipBlanks text' with
  | nil => rw [scan_nil hskip, scan_nil (h.trans hskip)]
  | cons c rest => rw [scan_cons hskip, scan_cons (h.trans hskip)]

/-- A layout in front of a text is scanned as the tokens that it has, and then the text is. -/
theorem scan_of_layoutBefore {behind : Bool} {tokens : List Token}
    (h : LayoutBefore rest behind tokens text) :
    ∃ front : List Lexeme, front.map (·.token) = tokens ∧
      scan (text ++ rest) = (front ++ (scan rest).1, (scan rest).2) ∧
      (behind = true → IsApart (text ++ rest)) := by
  induction h with
  | nil hgap hbehind =>
      exact ⟨[], rfl, scan_congr (skipBlanks_gap hgap), fun hb => isApart_iff.mpr (hbehind hb)⟩
  | @opening behind tokens gap more hgap _ ih =>
      obtain ⟨front, htokens, hscan, -⟩ := ih
      have hskip := (skipBlanks_gap hgap).trans (skipBlanks_cons rfl (by decide))
      have hapart := isApart_append hgap fun _ => by simp [IsApart, isSymbolChar]
      rw [List.append_assoc, List.cons_append, scan_cons hskip, if_pos rfl, hscan]
      exact ⟨⟨.opening, _⟩ :: front, congrArg (Token.opening :: ·) htokens, rfl, fun _ => hapart⟩
  | @closing behind tokens gap more hgap _ ih =>
      obtain ⟨front, htokens, hscan, -⟩ := ih
      have hskip := (skipBlanks_gap hgap).trans (skipBlanks_cons rfl (by decide))
      have hapart := isApart_append hgap fun _ => by simp [IsApart, isSymbolChar]
      rw [List.append_assoc, List.cons_append, scan_cons hskip, if_neg (by decide),
        if_pos rfl, hscan]
      exact ⟨⟨.closing, _⟩ :: front, congrArg (Token.closing :: ·) htokens, rfl, fun _ => hapart⟩
  | @symbol behind tokens gap name more hgap hsep hname _ ih =>
      obtain ⟨front, htokens, hscan, hrest⟩ := ih
      obtain ⟨c, cs, rfl, hc, hcs⟩ := isSymbol_iff.mp hname
      have hskip : skipBlanks (gap ++ (c :: cs ++ (more ++ rest))) = c :: (cs ++ (more ++ rest)) :=
        (skipBlanks_gap hgap).trans (skipBlanks_symbol hc)
      obtain ⟨htake, hdrop⟩ := span_symbol hcs (hrest rfl)
      rw [List.append_assoc, List.append_assoc, scan_symbol hskip hc, htake, hdrop, hscan]
      refine ⟨⟨.symbol _, _⟩ :: front,
        congrArg (Token.symbol (String.ofList (c :: cs)) :: ·) htokens, rfl, fun hbehind => ?_⟩
      exact isApart_append hgap fun hnil => absurd hnil (hsep hbehind)

/-- A layout is scanned to its end, with the tokens that it has. -/
theorem scan_of_layout {behind : Bool} {tokens : List Token} (h : Layout behind tokens text) :
    (scan text).1.map (·.token) = tokens ∧ (scan text).2 = [] := by
  obtain ⟨front, htokens, hscan, -⟩ := scan_of_layoutBefore (layoutBefore_nil_iff.mpr h)
  rw [scan_nil (rfl : skipBlanks [] = []), List.append_nil, List.append_nil] at hscan
  rw [hscan]
  exact ⟨htokens, rfl⟩

end Lexeme

namespace SExpr

/-- The tokens read so far, when `done` and `outer` are the expressions of the open lists. -/
def openTokens (done : List SExpr) : List (List SExpr) → List Token
  | [] => tokensAll done.reverse
  | siblings :: outer => openTokens siblings outer ++ .opening :: tokensAll done.reverse

variable {stop start : List Char} {done es : List SExpr} {outer : List (List SExpr)}
  {lexemes rest : List Lexeme}

theorem tokensAll_append (es es' : List SExpr) :
    tokensAll (es ++ es') = tokensAll es ++ tokensAll es' := by
  induction es with
  | nil => rfl
  | cons e es ih => simp [tokensAll, ih]

theorem openTokens_cons (e : SExpr) :
    openTokens (e :: done) outer = openTokens done outer ++ tokens e := by
  cases outer <;> simp [openTokens, tokensAll_append, tokensAll]

/-- Expressions that are built have the tokens that are read. -/
theorem tokens_of_build (h : build stop start done outer lexemes = .ok es) :
    stop = [] ∧ openTokens done outer ++ lexemes.map (·.token) = tokensAll es := by
  fun_induction build stop start done outer lexemes with
  | case1 start done hstop =>
      obtain ⟨⟩ := h
      exact ⟨hstop, by simp [openTokens]⟩
  | case2 => contradiction
  | case3 => contradiction
  | case4 start done text rest ih => simpa [openTokens, tokensAll] using ih h
  | case5 start done siblings outer text rest ih => simpa [openTokens, tokensAll] using ih h
  | case6 => contradiction
  | case7 start done siblings outer text rest ih =>
      simpa [openTokens_cons, openTokens, tokens] using ih h
  | case8 start done outer name text rest ih => simpa [openTokens_cons, tokens] using ih h

mutual

/-- The lexemes of an expression are built into the expression. -/
theorem build_tokens (e : SExpr) {stop start : List Char} {done : List SExpr}
    {outer : List (List SExpr)} {lexemes rest : List Lexeme}
    (h : lexemes.map (·.token) = tokens e) :
    ∃ start', build stop start done outer (lexemes ++ rest) =
      build stop start' (e :: done) outer rest := by
  cases e with
  | symbol name =>
      obtain ⟨⟨token, text⟩, rfl, rfl⟩ := List.map_eq_singleton_iff.mp h
      exact ⟨start, by cases outer <;> rfl⟩
  | list items =>
      obtain ⟨⟨_, text⟩, lexemes, rfl, rfl, hlexemes⟩ := List.map_eq_cons_iff.mp h
      obtain ⟨inner, last, rfl, hinner, hlast⟩ := List.map_eq_append_iff.mp hlexemes
      obtain ⟨⟨_, text'⟩, rfl, rfl⟩ := List.map_eq_singleton_iff.mp hlast
      simp only [List.cons_append, List.append_assoc, List.nil_append]
      cases outer with
      | nil =>
          obtain ⟨start', hbuild⟩ := build_tokensAll items hinner
          exact ⟨start', by rw [build, hbuild, build]; simp⟩
      | cons siblings outer =>
          obtain ⟨start', hbuild⟩ := build_tokensAll items hinner
          exact ⟨start', by rw [build, hbuild, build]; simp⟩

theorem build_tokensAll (es : List SExpr) {stop start : List Char} {done : List SExpr}
    {outer : List (List SExpr)} {lexemes rest : List Lexeme}
    (h : lexemes.map (·.token) = tokensAll es) :
    ∃ start', build stop start done outer (lexemes ++ rest) =
      build stop start' (es.reverse ++ done) outer rest := by
  cases es with
  | nil =>
      obtain rfl := List.map_eq_nil_iff.mp h
      exact ⟨start, rfl⟩
  | cons e es =>
      obtain ⟨first, others, rfl, hfirst, hothers⟩ := List.map_eq_append_iff.mp h
      rw [List.append_assoc]
      obtain ⟨mid, hmid⟩ := build_tokens e hfirst
      obtain ⟨last, hlast⟩ := build_tokensAll es hothers
      exact ⟨last, by rw [hmid, hlast, List.reverse_cons, List.append_assoc]; rfl⟩

end

/-- All expressions of a layout are read. -/
theorem readAll_eq_ok_iff {text : List Char} {es : List SExpr} :
    readAll text = .ok es ↔ Text.Layout false (tokensAll es) text := by
  constructor
  · intro h
    obtain ⟨hend, htokens⟩ := tokens_of_build h
    have hlayout := Lexeme.layout_of_scan text false nofun hend
    rwa [show (Lexeme.scan text).1.map (·.token) = tokensAll es from htokens] at hlayout
  · intro h
    obtain ⟨htokens, hend⟩ := Lexeme.scan_of_layout h
    obtain ⟨start, hbuild⟩ := build_tokensAll es htokens
    have hread : readAll text = build (Lexeme.scan text).2 [] [] []
        ((Lexeme.scan text).1 ++ []) := by
      rw [List.append_nil]
      rfl
    rw [hread, hbuild, hend, build]
    simp

theorem read_eq_ok_iff {text : String} {es : List SExpr} :
    read text = .ok es ↔ readAll text.toList = .ok es := by
  rw [read]
  cases readAll text.toList <;> simp

/-- A text is read as given expressions if and only if it is a layout of their tokens. -/
theorem read_eq_ok_iff_layout (text : String) (es : List SExpr) :
    read text = .ok es ↔ Text.Layout false (tokensAll es) text.toList :=
  read_eq_ok_iff.trans readAll_eq_ok_iff

/-- A text that is read by evaluation shows its tokens, and so its expressions. -/
theorem read_of_tokens {text : String} {es : List SExpr}
    (h : (read text).toOption.map tokensAll = some (tokensAll es)) : read text = .ok es := by
  obtain ⟨es', hes', htokens⟩ := Option.map_eq_some_iff.mp h
  have hread : read text = .ok es' := by
    cases hcase : read text <;> simp_all [Except.toOption]
  rw [read_eq_ok_iff, readAll_eq_ok_iff] at hread ⊢
  rwa [htokens] at hread

end SExpr

end Tableau
