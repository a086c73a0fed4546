/-
What putting a ground term for a variable does.  The term stands at every free occurrence of
the variable, everywhere else the symbols are those that were there before, and the value is
the one that the sentence has when the variable has the value of the term.
-/
import Tableau.Proofs.Structure
import Tableau.Proofs.Substitution

namespace Tableau

namespace Sentence

variable {s r v term : Sentence} {i : Nat} {path : List Nat}

/-- What a path leads to.  Each of its steps names a part by its place. -/
def follow? (s : Sentence) : List Nat → Option Sentence
  | [] => some s
  | i :: path => s.parts[i]?.bind (·.follow? path)

/-- Whether a path leads to a free occurrence of a variable: it leads to the variable, but
not to a binder, nor through a quantifier that binds the variable. -/
def isFreeAt (v s : Sentence) : List Nat → Bool
  | [] => s = v
  | i :: path => s.symbol.bound ≤ i && v ∉ s.binders && s.parts[i]?.any (v.isFreeAt · path)

/-- A sentence is another one with a term at the free occurrences of a variable: the term
stands there, and all symbols elsewhere are the same. -/
structure Replaces (s v term r : Sentence) : Prop where
  free : ∀ path, v.isFreeAt s path = true → r.follow? path = some term
  other : ∀ path, (∀ front, front <+: path → v.isFreeAt s front = false) →
    (r.follow? path).map symbol = (s.follow? path).map symbol

theorem follow?_append (s : Sentence) (front rest : List Nat) :
    s.follow? (front ++ rest) = (s.follow? front).bind (·.follow? rest) := by
  induction front generalizing s with
  | nil => rfl
  | cons i front ih =>
      simp only [List.cons_append, follow?, Option.bind_assoc]
      exact Option.bind_congr fun x _ => ih x

/-- A sentence is known from the symbols that paths lead to. -/
theorem eq_of_symbols (h : ∀ path, (s.follow? path).map symbol = (r.follow? path).map symbol) :
    s = r := by
  induction s using partsInduction generalizing r with
  | step s ih =>
      refine eq_of_symbol_of_parts (Option.some.inj (h [])) (List.ext_getElem? fun i => ?_)
      have hpart := fun path => h (i :: path)
      simp only [follow?] at hpart
      cases hs : s.parts[i]? with
      | none =>
          cases hr : r.parts[i]? with
          | none => rfl
          | some y => simpa [hs, hr, follow?] using hpart []
      | some x =>
          cases hr : r.parts[i]? with
          | none => simpa [hs, hr, follow?] using hpart []
          | some y =>
              rw [hs, hr] at hpart
              rw [ih x (List.mem_of_getElem? hs) hpart]

/-- There is only one way to replace the free occurrences. -/
theorem Replaces.unique {r' : Sentence} (h : s.Replaces v term r) (h' : s.Replaces v term r') :
    r = r' := by
  refine eq_of_symbols fun path => ?_
  by_cases hfree : ∃ front, front <+: path ∧ v.isFreeAt s front = true
  · obtain ⟨front, ⟨rest, rfl⟩, hfront⟩ := hfree
    rw [follow?_append, follow?_append, h.free front hfront, h'.free front hfront]
  · have hnone : ∀ front, front <+: path → v.isFreeAt s front = false := fun front hfront =>
      Bool.eq_false_iff.mpr fun htrue => hfree ⟨front, hfront, htrue⟩
    rw [h.other path hnone, h'.other path hnone]

theorem length_binders (s : Sentence) : s.binders.length = s.symbol.bound := by
  cases s <;> rfl

theorem getElem?_parts_subst (hs : s ≠ v) (hbinds : v ∉ s.binders) (i : Nat) :
    (s.subst v term).parts[i]? =
      if i < s.symbol.bound then s.parts[i]? else s.parts[i]?.map (·.subst v term) := by
  rw [parts_subst hs hbinds, ← binders_append_operands s, List.getElem?_append,
    List.getElem?_append, length_binders, List.getElem?_map]
  split <;> rfl

theorem parts_of_isVariable (hv : v.isVariable = true) : v.parts = [] := by
  cases v <;> simp_all [isVariable, parts]

theorem isFreeAt_cons :
    v.isFreeAt s (i :: path) = true ↔
      s.symbol.bound ≤ i ∧ v ∉ s.binders ∧ ∃ x, s.parts[i]? = some x ∧
        v.isFreeAt x path = true := by
  simp [isFreeAt, and_assoc, Option.any_eq_true]

theorem replaces_subst (hv : v.isVariable = true) (s term : Sentence) :
    s.Replaces v term (s.subst v term) where
  free path hfree := by
    induction path generalizing s with
    | nil =>
        obtain rfl : s = v := of_decide_eq_true hfree
        rw [subst_self]
        rfl
    | cons i path ih =>
        obtain ⟨hi, hbinds, x, hx, hfree⟩ := isFreeAt_cons.mp hfree
        have hs : s ≠ v := by
          rintro rfl
          simp [parts_of_isVariable hv] at hx
        rw [follow?, getElem?_parts_subst hs hbinds, if_neg (by omega), hx]
        exact ih x hfree
  other path hnone := by
    induction path generalizing s with
    | nil =>
        have hs : s ≠ v := of_decide_eq_false (hnone [] List.prefix_rfl)
        exact congrArg some (symbol_subst hs)
    | cons i path ih =>
        have hs : s ≠ v := of_decide_eq_false (hnone [] List.nil_prefix)
        by_cases hbinds : v ∈ s.binders
        · rw [subst_of_mem_binders hs hbinds]
        · rw [follow?, follow?, getElem?_parts_subst hs hbinds]
          split
          · rfl
          · next hi =>
              cases hx : s.parts[i]? with
              | none => rfl
              | some x =>
                  refine ih x fun front hfront => Bool.eq_false_iff.mpr fun hfree => ?_
                  have hstep := hnone (i :: front) (List.cons_prefix_cons.mpr ⟨rfl, hfront⟩)
                  rw [isFreeAt_cons.mpr ⟨by omega, hbinds, x, hx, hfree⟩] at hstep
                  contradiction

/-- Putting a term for a variable is replacing its free occurrences. -/
theorem replaces_iff (hv : v.isVariable = true) : s.Replaces v term r ↔ r = s.subst v term := by
  constructor
  · exact fun h => h.unique (replaces_subst hv s term)
  · rintro rfl
    exact replaces_subst hv s term

/-! Once a ground term is put for a variable, the variable does not occur free any more. -/

theorem subst_eq_self (hs : s ≠ v) (h : v ∉ s.binders → ∀ x ∈ s.operands, x.subst v term = x) :
    s.subst v term = s := by
  by_cases hbinds : v ∈ s.binders
  · exact subst_of_mem_binders hs hbinds
  · refine eq_of_symbol_of_parts (symbol_subst hs) ?_
    rw [parts_subst hs hbinds, List.map_congr_left (h hbinds), List.map_id',
      binders_append_operands]

theorem subst_of_isGround (hv : v.isVariable = true) (h : s.isGround = true) :
    s.subst v term = s := by
  rw [isGround_eq, List.all_eq_true] at h
  induction s using partsInduction with
  | step s ih =>
      refine subst_eq_self ?_ fun _ x hx => ?_
      · rintro rfl
        simpa [hv] using h s (self_mem_subsentences s)
      · have hpart := mem_parts_of_mem_operands hx
        exact ih x hpart fun y hy => h y (mem_subsentences_of_part hpart hy)

theorem operands_subst (hs : s ≠ v) (hbinds : v ∉ s.binders) :
    (s.subst v term).operands = s.operands.map (·.subst v term) := by
  rw [operands, parts_subst hs hbinds, symbol_subst hs, ← length_binders s, List.drop_left]

theorem eq_of_isVariable_of_symbol (hv : v.isVariable = true) (h : s.symbol = v.symbol) :
    s = v := by
  cases v <;> simp [isVariable] at hv
  cases s <;> simp_all [symbol]

theorem subst_subst (hv : v.isVariable = true) (hterm : term.isGround = true) (s : Sentence) :
    (s.subst v term).subst v term = s.subst v term := by
  induction s using partsInduction with
  | step s ih =>
      by_cases hs : s = v
      · rw [hs, subst_self, subst_of_isGround hv hterm]
      · by_cases hbinds : v ∈ s.binders
        · rw [subst_of_mem_binders hs hbinds, subst_of_mem_binders hs hbinds]
        · have hresult : s.subst v term ≠ v := fun heq =>
            hs (eq_of_isVariable_of_symbol hv (by rw [← symbol_subst hs, heq]))
          refine subst_eq_self hresult fun _ y hy => ?_
          rw [operands_subst hs hbinds] at hy
          obtain ⟨x, hx, rfl⟩ := List.mem_map.mp hy
          exact ih x (mem_parts_of_mem_operands hx)

end Sentence

namespace Lexicon

universe u

variable {lex : Lexicon} {s v term : Sentence} {n a b : Nat}

/-- If the sentence with the term has a number, it is given and nothing is entered. -/
theorem IsOrderly.substituteNumber?_of_subst_eq {r : Nat} {result : Sentence} (h : lex.IsOrderly)
    (hn : lex.entries[n]? = some s) (ha : lex.entries[a]? = some v)
    (hb : lex.entries[b]? = some term)
    (hr : lex.entries[r]? = some result) (hresult : s.subst v term = result) :
    lex.substituteNumber? n a b = some (r, lex) := by
  rw [h.substituteNumber?_eq hn ha hb, hresult, entered, intern_of_mem (List.mem_of_getElem? hr),
    h.number_eq hr]

/-- Putting a ground term for a variable gives a number for the sentence with the free
occurrences of the variable replaced.  Its value is that of the sentence when the variable
has the value of the term; all numbers keep their shapes, and to put the term for the variable
again, in the sentence or in the result, changes nothing. -/
theorem substituteNumber?_replaces (h : lex.IsOrderly) (hn : lex.entries[n]? = some s)
    (ha : lex.entries[a]? = some v) (hb : lex.entries[b]? = some term) (hv : v.isVariable = true)
    (hterm : term.isGroundTerm = true) :
    ∃ r lex' result, lex.substituteNumber? n a b = some (r, lex') ∧ lex'.expand? r = some result ∧
      lex.substitute s v term = (result, lex') ∧
      (∀ other, s.Replaces v term other ↔ other = result) ∧
      (∀ (sorts : Sorts) (U : Type u) (M : Structure sorts U) (env : Sentence → U),
        let env' := Function.update env v (M.value env term)
        M.value env result = M.value env' s ∧ (M.holds env result ↔ M.holds env' s)) ∧
      (∀ k shape, lex.shape? k = some shape → lex'.shape? k = some shape) ∧
      lex'.substituteNumber? n a b = some (r, lex') ∧
      lex'.substituteNumber? r a b = some (r, lex') := by
  have hdevelops := lex.develops_intern (s.subst v term)
  have hextends := hdevelops.entries_extend
  have horderly := hdevelops.isOrderly h
  have hresult := horderly.getElem?_number (mem_entries_intern lex (s.subst v term))
  have ha' := getElem?_of_extends hextends ha
  have hb' := getElem?_of_extends hextends hb
  refine ⟨_, _, s.subst v term, h.substituteNumber?_eq hn ha hb, ?_, rfl,
    fun _ => Sentence.replaces_iff hv, fun sorts U M env => ?_, fun k shape =>
      hdevelops.shape? h, ?_, ?_⟩
  · rw [horderly.expand?_eq]
    exact hresult
  · exact ⟨Structure.value_subst hv s env, Structure.holds_subst hv hterm s env⟩
  · exact horderly.substituteNumber?_of_subst_eq (getElem?_of_extends hextends hn) ha'
      hb' hresult rfl
  · exact horderly.substituteNumber?_of_subst_eq hresult ha' hb' hresult
      (Sentence.subst_subst hv (Sentence.isGround_of_isGroundTerm hterm) s)

/-- A quantifier that binds the variable, and one that binds a variable of the same name and
another sort. -/
theorem substituteNumber?_replaces_instances :
    let x := Sentence.var "x" 0
    let y := Sentence.var "x" 1
    let c := Sentence.const "c1" 0
    let s := Sentence.conj [.pred "P" [x], .all x (.pred "Q" [x]), .all y (.pred "R" [x, y])]
    let result := Sentence.conj [.pred "P" [c], .all x (.pred "Q" [x]), .all y (.pred "R" [c, y])]
    let calls : List Call :=
      [.enter ⟨.var "x" 0, []⟩, .enter ⟨.var "x" 1, []⟩, .enter ⟨.pred "P", [0]⟩,
        .enter ⟨.pred "Q", [0]⟩, .enter ⟨.all, [0, 3]⟩, .enter ⟨.pred "R", [0, 1]⟩,
        .enter ⟨.all, [1, 5]⟩, .enter ⟨.conj, [2, 4, 6]⟩, .mint 0]
    ∃ lex r lex', performAll? {} calls = some lex ∧ lex.entries[7]? = some s ∧
      lex.entries[0]? = some x ∧ lex.entries[8]? = some c ∧
      lex.substituteNumber? 7 0 8 = some (r, lex') ∧ lex'.expand? r = some result ∧
      s.Replaces x c result ∧ lex'.substituteNumber? r 0 8 = some (r, lex') := by
  intro x y c s result calls
  have heval : (performAll? {} calls).any (fun lex => decide (lex.entries[7]? = some s ∧
      lex.entries[0]? = some x ∧ lex.entries[8]? = some c)) = true := by
    decide +kernel
  obtain ⟨lex, hcalls, htest⟩ := (Option.any_eq_true _ _).mp heval
  obtain ⟨hs, hx, hc⟩ := of_decide_eq_true htest
  have horderly : lex.IsOrderly := (develops_performAll? hcalls).isOrderly (isOrderly_empty {})
  obtain ⟨r, lex', found, hsubst, hexpand, hresult, hreplaces, -, -, -, hagain⟩ :=
    substituteNumber?_replaces.{0} horderly hs hx hc rfl rfl
  have hmade : s.subst x c = result := by decide
  obtain rfl : found = result := (congrArg Prod.fst hresult).symm.trans hmade
  exact ⟨lex, r, lex', hcalls, hs, hx, hc, hsubst, hexpand, (hreplaces _).mpr rfl, hagain⟩

end Lexicon

end Tableau
