/-
Minted constants.  The numbers behind the last one that was used are tried one after the other,
until the name of one is free.  The trial ends, because a lexicon takes only finitely many names,
and since numbers are never given back, constants that are minted later have greater ones.
-/
import Tableau.Proofs.Shape

namespace Tableau.Lexicon

variable {lex lex' : Lexicon} {n m : Nat}

/-- Trying the numbers behind `n` one after the other ends, with the first one whose name is
free. -/
inductive FindsFree (lex : Lexicon) : Nat → Nat → Prop where
  | free {n : Nat} : lex.isTaken (constantName (n + 1)) = false → FindsFree lex n (n + 1)
  | taken {n m : Nat} : lex.isTaken (constantName (n + 1)) = true → FindsFree lex (n + 1) m →
      FindsFree lex n m

namespace FindsFree

theorem lt (h : lex.FindsFree n m) : n < m := by
  induction h with
  | free => exact Nat.lt_succ_self _
  | taken _ _ ih => exact Nat.lt_of_succ_lt ih

theorem isTaken (h : lex.FindsFree n m) : lex.isTaken (constantName m) = false := by
  induction h with
  | free hfree => exact hfree
  | taken _ _ ih => exact ih

end FindsFree

/-- If a number is free after so many trials, they have ended with the first free one. -/
theorem findsFree_freeNumber {tries : Nat}
    (h : lex.isTaken (constantName (freeNumber lex.isTaken tries (n + 1))) = false) :
    lex.FindsFree n (freeNumber lex.isTaken tries (n + 1)) := by
  induction tries generalizing n with
  | zero => exact .free h
  | succ tries ih =>
      unfold freeNumber at h ⊢
      split
      · next htaken =>
          rw [if_pos htaken] at h
          exact .taken htaken (ih h)
      · next hfree => exact .free (by simpa using hfree)

theorem fresh_mint (lex : Lexicon) (sort : SortId) : (lex.mint sort).2.fresh = lex.count.fresh :=
  fresh_intern _ _

theorem findsFree_mint (lex : Lexicon) (sort : SortId) :
    lex.FindsFree lex.fresh (lex.mint sort).2.fresh := by
  rw [fresh_mint]
  exact findsFree_freeNumber lex.isTaken_count

/-- A constant and a lexicon are what minting has to yield.  The trial of numbers has ended, the
constant with the number found is entered as the last sentence, no constant of any sort had its
name before, and it occurred nowhere. -/
structure Mints (lex : Lexicon) (sort : SortId) (minted : Sentence × Lexicon) : Prop where
  found : lex.FindsFree lex.fresh minted.2.fresh
  constant : minted.1 = .const (constantName minted.2.fresh) sort
  entries : minted.2.entries = lex.entries ++ [minted.1]
  number : minted.2.number? minted.1 = some lex.size
  unused : ∀ other, .const (constantName minted.2.fresh) other ∉ lex.entries
  absent : ∀ s ∈ lex.entries, minted.1 ∉ s.subsentences

/-- A new sentence without parts is entered as the last one. -/
theorem entries_intern_of_parts_eq_nil {s : Sentence} (h : s ∉ lex.entries)
    (hparts : s.parts = []) :
    (lex.intern s).entries = lex.entries ++ [s] := by
  rw [intern_of_not_mem h, hparts]
  exact entries_append_of_not_mem h

theorem mints_mint (h : lex.IsThorough) (sort : SortId) : lex.Mints sort (lex.mint sort) := by
  have hfound := lex.findsFree_mint sort
  have hconstant : (lex.mint sort).1 = .const (constantName (lex.mint sort).2.fresh) sort := by
    rw [fresh_mint]
    rfl
  have hunused : ∀ other, .const (constantName (lex.mint sort).2.fresh) other ∉ lex.entries := by
    intro other hmem
    have htaken := h.hasNames.isTaken_iff.mpr ⟨other, hmem⟩
    rw [hfound.isTaken] at htaken
    contradiction
  have hnew : (lex.mint sort).1 ∉ lex.entries := by
    rw [hconstant]
    exact hunused sort
  have hentries : (lex.mint sort).2.entries = lex.entries ++ [(lex.mint sort).1] := by
    -- The constant is entered after it has been counted, which does not change the entries.
    have hcount : (lex.mint sort).1 ∉ lex.count.entries := hnew
    exact entries_intern_of_parts_eq_nil hcount rfl
  refine ⟨hfound, hconstant, hentries, ?_, hunused, fun s hs hoccurs => ?_⟩
  · rw [number?_eq, hentries, Key.sentence_key, idxOf?_append_new hnew, if_pos rfl, length_entries]
  · exact hnew (h.hasParts.mem_of_mem_subsentences hs hoccurs)

/-! Numbers are never given back. -/

theorem fresh_le_perform? {call : Call} (h : lex.perform? call = some lex') :
    lex.fresh ≤ lex'.fresh := by
  rcases absorbs_or_mint_of_perform? h with habsorbs | ⟨sort, rfl⟩
  · exact Nat.le_of_eq habsorbs.fresh.symm
  · exact Nat.le_of_lt (lex.findsFree_mint sort).lt

theorem fresh_le_performAll? {calls : List Call} (h : lex.performAll? calls = some lex') :
    lex.fresh ≤ lex'.fresh := by
  induction calls generalizing lex with
  | nil =>
      cases h
      exact Nat.le_refl _
  | cons call calls ih =>
      rw [performAll?, List.foldlM_cons, Option.bind_eq_bind, Option.bind_eq_some_iff] at h
      obtain ⟨mid, hfirst, hrest⟩ := h
      exact Nat.le_trans (fresh_le_perform? hfirst) (ih hrest)

/-- Whatever is asked of a lexicon that was empty at first, minting ends with a constant that is
new to it.  One that is minted later, after whatever else has been asked, is another one, with a
greater number in its name and a greater number as a sentence. -/
theorem mint_is_fresh {sorts : Sorts} {calls later : List Call} (sort sort' : SortId)
    (hcalls : performAll? { sorts } calls = some lex)
    (hlater : (lex.mint sort).2.performAll? later = some lex') :
    lex.Mints sort (lex.mint sort) ∧ lex'.Mints sort' (lex'.mint sort') ∧
      (lex.mint sort).2.fresh < (lex'.mint sort').2.fresh ∧ lex.size < lex'.size ∧
      (lex.mint sort).1 ≠ (lex'.mint sort').1 := by
  have hdevelops := develops_performAll? hlater
  have hthorough : lex.IsThorough := (develops_performAll? hcalls).isThorough
  have hthorough' : lex'.IsThorough :=
    ((develops_performAll? hcalls).trans ((lex.develops_mint sort).trans hdevelops)).isThorough
  have hfirst := mints_mint hthorough sort
  have hsecond := mints_mint hthorough' sort'
  have hkept : lex.entries ++ [(lex.mint sort).1] <+: lex'.entries :=
    hfirst.entries ▸ hdevelops.entries_extend
  refine ⟨hfirst, hsecond, ?_, ?_, fun hsame => ?_⟩
  · exact Nat.lt_of_le_of_lt (fresh_le_performAll? hlater) hsecond.found.lt
  · rw [← length_entries, ← length_entries, Nat.lt_iff_add_one_le]
    simpa using hkept.length_le
  · have hentered : (lex'.mint sort').1 ∈ lex'.entries := hkept.subset (by simp [hsame])
    exact hsecond.absent _ hentered (Sentence.self_mem_subsentences _)

/-- Names are taken by a declaration, a first use, an earlier constant and a sentence that is
entered directly, under two sorts, and more of them between the two constants. -/
theorem mint_is_fresh_among_taken_names :
    let calls : List Call := [.read "(declarations (sort s) (constant c2 s)) (premises (P c1))",
      .mint 0, .enter ⟨.const "c4" 1, []⟩]
    let later : List Call := [.mint 1, .enter ⟨.const "c7" 0, []⟩]
    ∃ lex lex', performAll? {} calls = some lex ∧
      (lex.mint 0).2.performAll? later = some lex' ∧
      (lex.mint 0).1 = .const "c5" 0 ∧ (lex'.mint 1).1 = .const "c8" 1 ∧
      lex.Mints 0 (lex.mint 0) ∧ lex'.Mints 1 (lex'.mint 1) ∧
      (lex.mint 0).2.fresh < (lex'.mint 1).2.fresh ∧ lex.size < lex'.size ∧
      (lex.mint 0).1 ≠ (lex'.mint 1).1 := by
  intro calls later
  have heval : (performAll? {} calls).any (fun lex => ((lex.mint 0).2.performAll? later).any
      fun lex' => decide ((lex.mint 0).1 = .const "c5" 0 ∧ (lex'.mint 1).1 = .const "c8" 1)) =
      true := by
    decide +kernel
  obtain ⟨lex, hcalls, hlex⟩ := (Option.any_eq_true _ _).mp heval
  obtain ⟨lex', hlater, htest⟩ := (Option.any_eq_true _ _).mp hlex
  obtain ⟨hfirst, hsecond⟩ := of_decide_eq_true htest
  exact ⟨lex, lex', hcalls, hlater, hfirst, hsecond, mint_is_fresh 0 1 hcalls hlater⟩

end Tableau.Lexicon
