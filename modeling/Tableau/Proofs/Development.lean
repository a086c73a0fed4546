/-
How lexicons develop.  Whatever is asked of a lexicon, sentences are entered one at a time,
each of them new and after all its parts.  This holds of texts, too, even of those that
cannot be read to the end.
-/
import Tableau.Proofs.Lexicon
import Tableau.Proofs.Section

namespace Tableau

namespace Lexicon

variable {lex lex' lex'' : Lexicon} {s : Sentence}

/-- A lexicon becomes another one.  New sentences are entered after their parts, sorts are
declared, and minted constants are counted. -/
inductive Develops (lex : Lexicon) : Lexicon → Prop where
  | refl : Develops lex lex
  | append {lex' : Lexicon} (s : Sentence) : Develops lex lex' → s ∉ lex'.entries →
      (∀ x ∈ s.parts, x ∈ lex'.entries) → Develops lex (lex'.append s)
  | declare {lex' : Lexicon} {name : String} {parent sort : SortId} {sorts : Sorts} :
      Develops lex lex' → lex'.sorts.declare name parent = .ok (sort, sorts) →
      Develops lex { lex' with sorts }
  | count {lex' : Lexicon} (fresh minted : Nat) : Develops lex lex' →
      Develops lex { lex' with fresh, minted }

namespace Develops

theorem trans (h : Develops lex lex') (h' : Develops lex' lex'') : Develops lex lex'' := by
  induction h' with
  | refl => exact h
  | append s _ hnew hparts ih => exact ih.append s hnew hparts
  | declare _ hdeclare ih => exact ih.declare hdeclare
  | count fresh minted _ ih => exact ih.count fresh minted

theorem entries_extend (h : Develops lex lex') : lex.entries <+: lex'.entries := by
  induction h with
  | refl => exact List.prefix_rfl
  | append s _ _ _ ih => exact ih.trans (extends_append _ _)
  | declare _ _ ih => exact ih
  | count _ _ _ ih => exact ih

end Develops

/-- A new sentence is entered after its parts. -/
theorem intern_of_not_mem (h : s ∉ lex.entries) :
    lex.intern s = (lex.internAll s.parts).append s := by
  unfold intern
  rw [if_neg (by simpa using h)]
  cases s <;> simp [Sentence.parts, internAll]

theorem internAll_of_mem {xs : List Sentence} (h : ∀ x ∈ xs, x ∈ lex.entries) :
    lex.internAll xs = lex := by
  induction xs with
  | nil => rfl
  | cons x xs ih =>
      obtain ⟨hx, hxs⟩ := List.forall_mem_cons.mp h
      rw [internAll, intern_of_mem hx, ih hxs]

theorem internAll_append (lex : Lexicon) (xs ys : List Sentence) :
    lex.internAll (xs ++ ys) = (lex.internAll xs).internAll ys := by
  induction xs generalizing lex with
  | nil => rfl
  | cons x xs ih => exact ih (lex.intern x)

/-- The parts of a sentence may be entered before the sentence. -/
theorem HasParts.intern_internAll (h : lex.HasParts) (s : Sentence) :
    (lex.internAll s.parts).intern s = lex.intern s := by
  by_cases hmem : s ∈ lex.entries
  · rw [internAll_of_mem (h s hmem)]
  · rw [intern_of_not_mem hmem]
    by_cases hlater : s ∈ (lex.internAll s.parts).entries
    · rw [intern_of_mem hlater, append_of_mem hlater]
    · rw [intern_of_not_mem hlater, internAll_of_mem fun x hx => mem_entries_internAll hx]

/-- A lexicon becomes another one without any constant being minted. -/
inductive Absorbs (lex : Lexicon) : Lexicon → Prop where
  | refl : Absorbs lex lex
  | append {lex' : Lexicon} (s : Sentence) : Absorbs lex lex' → s ∉ lex'.entries →
      (∀ x ∈ s.parts, x ∈ lex'.entries) → Absorbs lex (lex'.append s)
  | declare {lex' : Lexicon} {name : String} {parent sort : SortId} {sorts : Sorts} :
      Absorbs lex lex' → lex'.sorts.declare name parent = .ok (sort, sorts) →
      Absorbs lex { lex' with sorts }

namespace Absorbs

theorem trans (h : Absorbs lex lex') (h' : Absorbs lex' lex'') : Absorbs lex lex'' := by
  induction h' with
  | refl => exact h
  | append s _ hnew hparts ih => exact ih.append s hnew hparts
  | declare _ hdeclare ih => exact ih.declare hdeclare

theorem develops (h : Absorbs lex lex') : Develops lex lex' := by
  induction h with
  | refl => exact .refl
  | append s _ hnew hparts ih => exact ih.append s hnew hparts
  | declare _ hdeclare ih => exact ih.declare hdeclare

theorem fresh (h : Absorbs lex lex') : lex'.fresh = lex.fresh := by
  induction h with
  | refl => rfl
  | append s _ _ _ ih => exact (fresh_append _ _).trans ih
  | declare _ _ ih => exact ih

end Absorbs

theorem absorbs_append (h : ∀ x ∈ s.parts, x ∈ lex.entries) : lex.Absorbs (lex.append s) := by
  by_cases hmem : s ∈ lex.entries
  · rw [append_of_mem hmem]
    exact .refl
  · exact .append s .refl hmem h

mutual

theorem absorbs_intern (lex : Lexicon) (s : Sentence) : lex.Absorbs (lex.intern s) := by
  by_cases hmem : s ∈ lex.entries
  · rw [intern_of_mem hmem]
    exact .refl
  · rw [intern_of_not_mem hmem]
    refine .trans ?_ (absorbs_append fun x hx => mem_entries_internAll hx)
    cases s with
    | atom | const | var => exact .refl
    | app _ _ xs | pred _ xs | conj xs | disj xs | equal xs => exact absorbs_internAll lex xs
    | neg x => exact absorbs_intern lex x
    | imp l r | iff l r | all l r | ex l r =>
        exact (absorbs_intern lex l).trans (absorbs_intern _ r)

theorem absorbs_internAll (lex : Lexicon) (xs : List Sentence) :
    lex.Absorbs (lex.internAll xs) := by
  cases xs with
  | nil => exact .refl
  | cons x xs => exact (absorbs_intern lex x).trans (absorbs_internAll _ xs)

end

theorem develops_intern (lex : Lexicon) (s : Sentence) : lex.Develops (lex.intern s) :=
  (absorbs_intern lex s).develops

theorem develops_internAll (lex : Lexicon) (xs : List Sentence) :
    lex.Develops (lex.internAll xs) :=
  (absorbs_internAll lex xs).develops

theorem develops_mint (lex : Lexicon) (sort : SortId) : lex.Develops (lex.mint sort).2 :=
  (Develops.refl.count _ _).trans (develops_intern _ _)

end Lexicon

namespace Reader

variable {r r' : Reader}

theorem Step.absorbs (h : Step r r') : r.lexicon.Absorbs r'.lexicon := by
  cases h with
  | enter s => exact r.lexicon.absorbs_intern s
  | addConstant => exact .refl
  | addSymbol =>
      rw [lexicon_addSymbol]
      exact .refl
  | declareSort _ hdeclare => exact Lexicon.Absorbs.refl.declare hdeclare

theorem Steps.absorbs (h : Steps r r') : r.lexicon.Absorbs r'.lexicon :=
  h.keeps (P := (r.lexicon.Absorbs ·.lexicon)) (fun _ _ hstep hq => hq.trans hstep.absorbs) .refl

end Reader

/-- A text develops the lexicon, up to the place where reading fails if it does. -/
theorem Lexicon.absorbs_read (lex : Lexicon) (text : String) :
    lex.Absorbs (Problem.read lex text).2 := by
  obtain ⟨r', hsteps, hlexicon⟩ := Problem.exists_steps_read lex text
  exact hlexicon ▸ hsteps.absorbs

end Tableau
