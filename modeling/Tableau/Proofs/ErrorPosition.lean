/-
Where a text cannot be read.  Complete expressions, with blanks and comments around them, take up
a beginning of the text, as long a one as possible.  What is left is quoted in the error, and the
lines of the beginning are counted.
-/
import Tableau.Proofs.Layout

namespace Tableau

namespace Text

/-! Lines against line feeds. -/

/-- Every line feed ends a line, and the text behind the last one is a line if there is any. -/
theorem lineCountFrom_eq (started : Bool) (cs : List Char) :
    lineCountFrom started cs =
      cs.count '\n' + if (cs.getLast?.map (· != '\n')).getD started then 1 else 0 := by
  induction cs generalizing started with
  | nil => cases started <;> rfl
  | cons c cs ih =>
      rw [lineCountFrom, List.getLast?_cons]
      by_cases hc : c = '\n'
      · rw [if_pos hc, ih, hc, List.count_cons_self]
        cases cs.getLast? <;> simp [Nat.add_right_comm]
      · rw [if_neg hc, ih, List.count_cons_of_ne hc]
        cases cs.getLast? <;> simp [hc]

/-- Counted from the first line on, there is one line more than line feeds, unless the text ends
with one. -/
theorem max_lineCount_one (cs : List Char) :
    max (lineCount cs) 1 = if cs.getLast? = some '\n' then cs.count '\n'
      else cs.count '\n' + 1 := by
  rw [lineCount, lineCountFrom_eq]
  cases hlast : cs.getLast? with
  | none =>
      obtain rfl := List.getLast?_eq_none_iff.mp hlast
      rfl
  | some c =>
      by_cases hc : c = '\n'
      · have hpos : 0 < cs.count '\n' := List.count_pos_iff.mpr (hc ▸ List.mem_of_getLast? hlast)
        rw [hc, if_pos rfl]
        exact Nat.max_eq_left hpos
      · have hstarted : ((some c).map (· != '\n')).getD false = true := by simp [hc]
        rw [if_pos hstarted, if_neg fun h => hc (Option.some.inj h)]
        exact Nat.max_eq_left (Nat.le_add_left ..)

end Text

namespace SExpr

open Text Lexeme

variable {stop start rest : List Char} {done : List SExpr} {outer : List (List SExpr)}
  {lexemes : List Lexeme}

/-- Where building fails, the error is the text behind complete expressions, or the text from the
open list on. -/
theorem build_eq_error (h : build stop start done outer lexemes = .error rest) :
    (∃ front back es, lexemes = front ++ back ∧ rest = startOf stop back ∧
      openTokens done outer ++ front.map (·.token) = tokensAll es) ∨
    (outer ≠ [] ∧ rest = start) := by
  fun_induction build stop start done outer lexemes with
  | case1 => contradiction
  | case2 start done _ =>
      obtain ⟨⟩ := h
      exact .inl ⟨[], [], done.reverse, rfl, rfl, by simp [openTokens]⟩
  | case3 =>
      obtain ⟨⟩ := h
      exact .inr ⟨by simp, rfl⟩
  | case4 start done text lexemes ih =>
      rcases ih h with ⟨front, back, es, rfl, hrest, htokens⟩ | ⟨-, rfl⟩
      · exact .inl
          ⟨_ :: front, back, es, rfl, hrest, by simpa [openTokens, tokensAll] using htokens⟩
      · exact .inl ⟨[], _, done.reverse, rfl, rfl, by simp [openTokens]⟩
  | case5 start done siblings outer text lexemes ih =>
      rcases ih h with ⟨front, back, es, rfl, hrest, htokens⟩ | ⟨-, rfl⟩
      · exact .inl
          ⟨_ :: front, back, es, rfl, hrest, by simpa [openTokens, tokensAll] using htokens⟩
      · exact .inr ⟨by simp, rfl⟩
  | case6 start done text lexemes =>
      obtain ⟨⟩ := h
      exact .inl ⟨[], _, done.reverse, rfl, rfl, by simp [openTokens]⟩
  | case7 start done siblings outer text lexemes ih =>
      rcases ih h with ⟨front, back, es, rfl, hrest, htokens⟩ | ⟨-, rfl⟩
      · refine .inl ⟨_ :: front, back, es, rfl, hrest, ?_⟩
        simpa [openTokens_cons, openTokens, tokens] using htokens
      · exact .inr ⟨by simp, rfl⟩
  | case8 start done outer name text lexemes ih =>
      rcases ih h with ⟨front, back, es, rfl, hrest, htokens⟩ | hopen
      · exact .inl
          ⟨_ :: front, back, es, rfl, hrest, by simpa [openTokens_cons, tokens] using htokens⟩
      · exact .inr hopen

/-- Outside of all lists, the error is the text behind complete expressions. -/
theorem build_top_eq_error (h : build stop start done [] lexemes = .error rest) :
    ∃ front back es, lexemes = front ++ back ∧ rest = startOf stop back ∧
      tokensAll done.reverse ++ front.map (·.token) = tokensAll es := by
  rcases build_eq_error h with hfront | ⟨hopen, -⟩
  · exact hfront
  · contradiction

/-- The longest beginning of a text that complete expressions take up, with the blanks and comments
around them, and the rest of the text. -/
structure IsConsumed (text consumed rest : List Char) : Prop where
  split : text = consumed ++ rest
  complete : ∃ es, LayoutBefore rest false (tokensAll es) consumed
  longest : ∀ {consumed' rest' : List Char} {es : List SExpr}, text = consumed' ++ rest' →
    LayoutBefore rest' false (tokensAll es) consumed' → consumed'.length ≤ consumed.length

theorem IsConsumed.unique {text consumed rest consumed' rest' : List Char}
    (h : IsConsumed text consumed rest) (h' : IsConsumed text consumed' rest') :
    consumed = consumed' ∧ rest = rest' := by
  obtain ⟨es, hes⟩ := h.complete
  obtain ⟨es', hes'⟩ := h'.complete
  have hlength := Nat.le_antisymm (h'.longest h.split hes) (h.longest h'.split hes')
  exact List.append_inj (h.split.symm.trans h'.split) hlength

/-- What is left behind complete expressions goes on with the text of the error. -/
theorem length_le_of_layoutBefore {consumed rest rest' : List Char} {es : List SExpr}
    (h : readAll (consumed ++ rest') = .error rest)
    (hlayout : LayoutBefore rest' false (tokensAll es) consumed) : rest.length ≤ rest'.length := by
  obtain ⟨front, htokens, hscan, -⟩ := scan_of_layoutBefore hlayout
  have hbuild : ∃ start, build (scan rest').2 [] [] [] (front ++ (scan rest').1) =
      build (scan rest').2 start (es.reverse ++ []) [] (scan rest').1 := build_tokensAll es htokens
  obtain ⟨start, hbuild⟩ := hbuild
  rw [readAll, hscan] at h
  obtain ⟨front', back, _, hback, hrest, -⟩ := build_top_eq_error (hbuild.symm.trans h)
  obtain ⟨read, hread, -⟩ := layoutBefore_of_scan rest' false (by simp) (Prod.ext hback rfl)
  calc rest.length
      ≤ (read ++ rest).length := by simp
    _ = rest'.length := by rw [hrest, ← hread]

/-- The text of the error is what the complete expressions leave. -/
theorem exists_isConsumed {text rest : List Char} (h : readAll text = .error rest) :
    ∃ consumed, IsConsumed text consumed rest := by
  obtain ⟨front, back, es, hscan, hrest, htokens⟩ := build_top_eq_error h
  obtain ⟨consumed, hsplit, hlayout⟩ :=
    layoutBefore_of_scan text false (by simp) (Prod.ext hscan rfl)
  rw [← hrest] at hsplit hlayout
  refine ⟨consumed, hsplit, ⟨es, ?_⟩, ?_⟩
  · rwa [← htokens]
  · intro consumed' rest' es' hsplit' hlayout'
    have hrest := length_le_of_layoutBefore (hsplit' ▸ h) hlayout'
    have hlength := congrArg List.length (hsplit.symm.trans hsplit')
    simp only [List.length_append] at hlength
    omega

/-- Something is left of a text that is rejected, and nothing of one that is read. -/
theorem readAll_eq_error_iff {text rest : List Char} :
    readAll text = .error rest ↔ rest ≠ [] ∧ ∃ consumed, IsConsumed text consumed rest := by
  constructor
  · intro h
    obtain ⟨consumed, hconsumed⟩ := exists_isConsumed h
    refine ⟨?_, consumed, hconsumed⟩
    rintro rfl
    obtain ⟨es, hlayout⟩ := hconsumed.complete
    have htext : text = consumed := by rw [hconsumed.split, List.append_nil]
    rw [htext, readAll_eq_ok_iff.mpr (layoutBefore_nil_iff.mp hlayout)] at h
    contradiction
  · rintro ⟨hne, consumed, hconsumed⟩
    cases hread : readAll text with
    | ok es =>
        -- All of the text would be a longer beginning.
        have hlayout := layoutBefore_nil_iff.mpr (readAll_eq_ok_iff.mp hread)
        have hle := hconsumed.longest (List.append_nil text).symm hlayout
        have hlength := congrArg List.length hconsumed.split
        rw [List.length_append] at hlength
        exact absurd (List.length_eq_zero_iff.mp (by omega)) hne
    | error rest' =>
        obtain ⟨_, hconsumed'⟩ := exists_isConsumed hread
        rw [(hconsumed.unique hconsumed').2]

theorem read_of_readAll_eq_error {text : String} {consumed rest : List Char}
    (h : readAll text.toList = .error rest) (hconsumed : IsConsumed text.toList consumed rest) :
    read text =
      .error (.unexpectedInput (max (lineCount consumed) 1) (String.ofList (rest.take 20))) := by
  have htake : text.toList.take (text.toList.length - rest.length) = consumed := by
    rw [hconsumed.split]
    simp
  simp only [read, h, htake]

theorem message_unexpectedInput (line : Nat) (found : String) :
    (ReadError.unexpectedInput line found).message =
      "Syntax error: unexpected input on line " ++ toString line ++ ": " ++ found := by
  have hhead : "Syntax" ++ " error: " ++ "unexpected input on line " =
      "Syntax error: unexpected input on line " := by decide +kernel
  calc (ReadError.unexpectedInput line found).message
      = "Syntax" ++ " error: " ++
        ("unexpected input on line " ++ toString line ++ ": " ++ found) := rfl
    _ = "Syntax" ++ " error: " ++ "unexpected input on line " ++ toString line ++
      ": " ++ found := by
        simp only [String.append_assoc]
    _ = _ := congrArg (· ++ toString line ++ ": " ++ found) hhead

/-- A text is rejected if and only if complete expressions leave something of it.  The error quotes
what is left, and gives the number of the lines in front of it: it stands on the last one of them,
or at the beginning of the next one. -/
theorem read_eq_error_iff (text : String) (e : ReadError) :
    read text = .error e ↔
      ∃ consumed rest line, IsConsumed text.toList consumed rest ∧ rest ≠ [] ∧
        (line = if consumed.getLast? = some '\n' then consumed.count '\n'
          else consumed.count '\n' + 1) ∧
        e = .unexpectedInput line (String.ofList (rest.take 20)) ∧
        e.message = "Syntax error: unexpected input on line " ++ toString line ++ ": " ++
          String.ofList (rest.take 20) := by
  constructor
  · intro h
    cases hread : readAll text.toList with
    | ok es =>
        rw [read_eq_ok_iff.mpr hread] at h
        contradiction
    | error rest =>
        obtain ⟨hne, consumed, hconsumed⟩ := readAll_eq_error_iff.mp hread
        rw [read_of_readAll_eq_error hread hconsumed, max_lineCount_one] at h
        obtain ⟨⟩ := h
        exact ⟨consumed, rest, _, hconsumed, hne, rfl, rfl, message_unexpectedInput _ _⟩
  · rintro ⟨consumed, rest, line, hconsumed, hne, rfl, rfl, -⟩
    have hread := readAll_eq_error_iff.mpr ⟨hne, consumed, hconsumed⟩
    rw [read_of_readAll_eq_error hread hconsumed, max_lineCount_one]

/-- What is left of the text `A\n)` stands on its second line, and the error says the first. -/
theorem read_line_ne :
    ¬ ∀ (text : String) (e : ReadError), read text = .error e →
      ∃ consumed rest, IsConsumed text.toList consumed rest ∧
        e = .unexpectedInput (consumed.count '\n' + 1) (String.ofList (rest.take 20)) := by
  intro hline
  have hread : readAll "A\n)".toList = .error [')'] := by
    have heval : (readAll "A\n)".toList).map (fun _ => ()) = .error [')'] := by decide +kernel
    cases hcase : readAll "A\n)".toList <;> simp_all [Except.map]
  obtain ⟨-, consumed, hconsumed⟩ := readAll_eq_error_iff.mp hread
  obtain rfl : ['A', '\n'] = consumed := List.append_cancel_right hconsumed.split
  obtain ⟨consumed', rest', hconsumed', herror⟩ :=
    hline _ _ (read_of_readAll_eq_error hread hconsumed)
  obtain ⟨rfl, rfl⟩ := hconsumed.unique hconsumed'
  exact absurd (ReadError.unexpectedInput.inj herror).1 (by decide)

end SExpr

end Tableau
