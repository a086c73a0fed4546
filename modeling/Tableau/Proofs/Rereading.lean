/-
Reading again.  The written form of what a reader has read is read as the same sentences,
without a change of the reader, unless a constant has become the name of a function in the
meantime.
-/
import Mathlib.Data.List.Forall2
import Tableau.Proofs.Expression
import Tableau.Proofs.Knowledge

namespace Tableau

namespace Keyword

/-- The word for a keyword. -/
def word : Keyword → String
  | .not => "not"
  | .and => "and"
  | .or => "or"
  | .implies => "implies"
  | .iff => "iff"
  | .equals => "="
  | .all => "forall"
  | .ex => "exists"

theorem ofHead?_word (keyword : Keyword) : ofHead? keyword.word = some keyword := by
  cases keyword <;> rfl

theorem isLexical_word (keyword : Keyword) : (SExpr.symbol keyword.word).IsLexical := by
  have hchars : keyword.word.toList.all Lexeme.isSymbolChar = true := by cases keyword <;> rfl
  refine SExpr.isLexical_symbol.mpr ⟨by cases keyword <;> decide, fun c hc => ?_⟩
  exact Lexeme.isSymbolChar_iff.mp (List.all_eq_true.mp hchars c hc)

variable {keyword : Keyword} {xs : List Sentence} {v x s : Sentence}

theorem toExpr_of_connect? (h : keyword.connect? xs = some s) (sorts : Sorts) :
    s.toExpr sorts = .list (.symbol keyword.word :: xs.map (·.toExpr sorts)) := by
  unfold connect? at h
  split at h <;> cases h <;> simp [Sentence.toExpr, Sentence.toExprs_eq_map, word]

theorem toExpr_of_quantify? (h : keyword.quantify? v x = some s) (sorts : Sorts) :
    s.toExpr sorts =
      .list [.symbol keyword.word, v.binderExpr sorts (v.toExpr sorts), x.toExpr sorts] := by
  unfold quantify? at h
  split at h <;> cases h <;> rfl

end Keyword

theorem Sorts.name_of_find? {sorts : Sorts} {name : String} {sort : SortId}
    (h : sorts.find? name = some sort) : sorts.name sort = name := by
  obtain ⟨hlt, hname, -⟩ := List.findIdx?_eq_some_iff_getElem.mp h
  rw [Sorts.name, List.getElem?_eq_getElem hlt]
  exact beq_iff_eq.mp hname

namespace Reader

variable {r r' R : Reader} {category : Category} {scope : Scope} {e : SExpr} {es : List SExpr}
  {s v : Sentence} {xs : List Sentence} {name : String} {sorts : Sorts}

/-- A bound variable is written so that the same variable is bound. -/
theorem Binds.written (h : Binds sorts e name v) :
    Binds sorts (v.binderExpr sorts (v.toExpr sorts)) name v := by
  cases h with
  | plain => exact .plain
  | sorted hsort =>
      simp only [Sentence.binderExpr, Sentence.toExpr]
      split
      · next hroot => exact hroot ▸ .plain
      · exact .sorted ((Sorts.name_of_find? hsort).symm ▸ hsort)

theorem Binds.isLexical (h : Binds sorts e name v) (he : e.IsLexical) :
    (v.binderExpr sorts (v.toExpr sorts)).IsLexical := by
  cases h with
  | plain => exact he
  | sorted hsort =>
      obtain ⟨hname, hsortName⟩ := List.forall_mem_cons.mp (SExpr.isLexical_list.mp he)
      simp only [Sentence.binderExpr, Sentence.toExpr]
      split
      · exact hname
      · rw [Sorts.name_of_find? hsort]
        exact he

/-- The written form of a sentence is read as the sentence, without a change of the reader,
and has the symbols of a text if the expression does that the sentence was read from. -/
structure Rereads (category : Category) (scope : Scope) (R : Reader) (e : SExpr) (s : Sentence) :
    Prop where
  written : Yields category scope [s.toExpr R.lexicon.sorts] R [s] R
  isLexical : e.IsLexical → (s.toExpr R.lexicon.sorts).IsLexical

namespace Rereads

theorem all_written (h : List.Forall₂ (Rereads category scope R) es xs) :
    Yields category scope (xs.map (·.toExpr R.lexicon.sorts)) R xs R := by
  induction h with
  | nil => exact .nil
  | cons hhead _ ih => exact .cons hhead.written ih

theorem all_isLexical (h : List.Forall₂ (Rereads category scope R) es xs)
    (hes : ∀ e ∈ es, e.IsLexical) : ∀ x ∈ xs, (x.toExpr R.lexicon.sorts).IsLexical := by
  induction h with
  | nil => simp
  | cons hhead _ ih =>
      obtain ⟨he, hes⟩ := List.forall_mem_cons.mp hes
      exact List.forall_mem_cons.mpr ⟨hhead.isLexical he, ih hes⟩

/-- From the parts of a sentence to the sentence, whose expression has the head `word`. -/
theorem of_list {category' : Category} {head word : String} {args : List SExpr}
    (hargs : List.Forall₂ (Rereads category' scope R) args xs)
    (hread : ∀ args', (args' = [] → args = []) → Yields category' scope args' R xs R →
      Yields category scope [.list (.symbol word :: args')] R [s] R)
    (hexpr : s.toExpr R.lexicon.sorts = .list (.symbol word :: xs.map (·.toExpr R.lexicon.sorts)))
    (hword : (SExpr.symbol head).IsLexical → (SExpr.symbol word).IsLexical) :
    Rereads category scope R (.list (.symbol head :: args)) s where
  written := by
    rw [hexpr]
    refine hread _ (fun hnil => ?_) (all_written hargs)
    obtain rfl := List.map_eq_nil_iff.mp hnil
    exact List.forall₂_nil_right_iff.mp hargs
  isLexical he := by
    obtain ⟨hhead, hitems⟩ := List.forall_mem_cons.mp (SExpr.isLexical_list.mp he)
    rw [hexpr, SExpr.isLexical_list, List.forall_mem_cons, List.forall_mem_map]
    exact ⟨hword hhead, all_isLexical hargs hitems⟩

end Rereads

/-- What has been read can be written and read again, if no constant in it has become the
name of a function with arguments. -/
theorem Yields.rereads (h : Yields category scope es r xs r') (hgrows : GrowsTo r' R)
    (hscope : IsNamed scope) (hallows : ∀ x ∈ xs, x.ConstantsHave R.AllowsConstant) :
    List.Forall₂ (Rereads category scope R) es xs := by
  -- `R` stays where it is while the first reading moves towards it: at `R`, all that any
  -- part has taught and entered is there already.
  induction h with
  | nil => exact .nil
  | cons _ hes ihe ihes =>
      obtain ⟨hs, hxs⟩ := List.forall_mem_cons.mp hallows
      obtain ⟨⟩ | ⟨he, -⟩ := ihe (hes.growsTo.trans hgrows) hscope (by simpa using hs)
      exact .cons he (ihes hgrows hscope hxs)
  | @var scope name v r hlookup =>
      obtain ⟨sort, rfl⟩ := hscope name v hlookup
      exact .cons ⟨.var hlookup, id⟩ .nil
  | @const scope name sort r hlookup _ hsort =>
      obtain ⟨hsame, hknown⟩ := ((growsTo_enter ..).trans hgrows).constant hsort
      have hallowed : R.AllowsConstant name :=
        hallows _ List.mem_cons_self name sort (Sentence.self_mem_subsentences _)
      have hread : Yields .term scope [.symbol name] R [.const name sort] _ :=
        .const hlookup hallowed (hsame.symm ▸ hknown)
      rw [hsame, hgrows.enter_eq] at hread
      exact .cons ⟨hread, id⟩ .nil
  | @app scope name args xs sig r mid hargs _ haccepts ih =>
      have hused := (growsTo_enter ..).trans hgrows
      obtain ⟨hsame, hknown⟩ := hused.accepts haccepts
      have hxs := ih ((growsTo_used ..).trans hused) hscope fun x hx =>
        (hallows _ List.mem_cons_self).of_part hx
      refine .cons (.of_list hxs ?_ (by rw [Sentence.toExpr, Sentence.toExprs_eq_map]) id) .nil
      intro args' hnil hread
      have hread := Yields.app (mt hnil hargs) hread (hsame.symm ▸ hknown)
      rwa [hsame, hgrows.enter_eq] at hread
  | @atom scope name e sig r hatom hlookup haccepts =>
      have hused : GrowsTo (r.used .predicate name 0) R := (growsTo_enter ..).trans hgrows
      obtain ⟨hsame, hknown⟩ := @GrowsTo.accepts _ _ _ _ [] _ hused haccepts
      have hread := Yields.atom IsAtom.symbol hlookup (hsame.symm ▸ hknown)
      rw [show R.used .predicate name 0 = R from hsame, hgrows.enter_eq] at hread
      refine .cons ⟨hread, fun he => ?_⟩ .nil
      cases hatom with
      | symbol => exact he
      | list => exact SExpr.isLexical_list.mp he _ List.mem_cons_self
  | @pred scope name args xs sig r mid hhead hargs _ haccepts ih =>
      have hused := (growsTo_enter ..).trans hgrows
      obtain ⟨hsame, hknown⟩ := hused.accepts haccepts
      have hxs := ih ((growsTo_used ..).trans hused) hscope fun x hx =>
        (hallows _ List.mem_cons_self).of_part hx
      refine .cons (.of_list hxs ?_ (by rw [Sentence.toExpr, Sentence.toExprs_eq_map]) id) .nil
      intro args' hnil hread
      have hread := Yields.pred hhead (mt hnil hargs) hread (hsame.symm ▸ hknown)
      rwa [hsame, hgrows.enter_eq] at hread
  | @equal scope head args xs r mid hhead hargs _ ih =>
      have hxs := ih ((growsTo_enter ..).trans hgrows) hscope fun x hx =>
        (hallows _ List.mem_cons_self).of_part hx
      have hexpr : (Sentence.equal xs).toExpr R.lexicon.sorts =
          .list (.symbol Keyword.equals.word :: xs.map (·.toExpr R.lexicon.sorts)) := by
        rw [Sentence.toExpr, Sentence.toExprs_eq_map, Keyword.word]
      refine .cons (.of_list hxs ?_ hexpr fun _ => Keyword.isLexical_word _) .nil
      intro args' hnil hread
      have hread := Yields.equal (Keyword.ofHead?_word _) (mt hnil hargs) hread
      rwa [hgrows.enter_eq] at hread
  | @connective scope head keyword args xs s r mid hhead _ hs ih =>
      have hxs := ih ((growsTo_enter ..).trans hgrows) hscope fun x hx =>
        (hallows _ List.mem_cons_self).of_part (Keyword.parts_of_connect? hs ▸ hx)
      refine .cons (.of_list hxs ?_ (Keyword.toExpr_of_connect? hs _) fun _ =>
        Keyword.isLexical_word _) .nil
      intro args' hnil hread
      have hread := Yields.connective (Keyword.ofHead?_word _) hread hs
      rwa [hgrows.enter_eq] at hread
  | @quantifier scope head name keyword b body v x s r mid hhead hbinds hbody hs ih =>
      have hmid := (growsTo_enter ..).trans hgrows
      have hv := hbody.growsTo.trans hmid
      have hsorts : R.lexicon.sorts = r.lexicon.sorts := ((growsTo_enter r v).trans hv).lags.sorts
      rw [← hsorts] at hbinds
      obtain ⟨⟩ | ⟨hx, -⟩ := ih hmid (hscope.cons hbinds) fun y hy => by
        refine (hallows _ List.mem_cons_self).of_part ?_
        rw [Keyword.parts_of_quantify? hs, List.mem_singleton.mp hy]
        simp
      have hexpr := Keyword.toExpr_of_quantify? hs R.lexicon.sorts
      refine .cons ⟨?_, fun he => ?_⟩ .nil
      · have hread := Yields.quantifier (Keyword.ofHead?_word keyword) hbinds.written
          (hv.enter_eq.symm ▸ hx.written) hs
        rwa [hv.enter_eq, hgrows.enter_eq, ← hexpr] at hread
      · have hitems := SExpr.isLexical_list.mp he
        rw [hexpr, SExpr.isLexical_list]
        simp only [List.forall_mem_cons] at hitems ⊢
        exact ⟨Keyword.isLexical_word _, hbinds.isLexical hitems.2.1, hx.isLexical hitems.2.2.1,
          hitems.2.2.2⟩

/-- No name is known both for a constant and for a function with arguments. -/
def SeparatesNames (r : Reader) : Prop :=
  ∀ c ∈ r.constants, ∀ sig ∈ r.functions.lookup c.1, sig.arity = 0

instance (r : Reader) : Decidable r.SeparatesNames :=
  inferInstanceAs (Decidable (∀ c ∈ r.constants, ∀ sig ∈ r.functions.lookup c.1, sig.arity = 0))

theorem SeparatesNames.allowsConstant (h : r.SeparatesNames) {sort : SortId}
    (hknown : r.constants.lookup name = some sort) : r.AllowsConstant name := by
  obtain ⟨front, back, hsplit, -⟩ := List.lookup_eq_some_iff.mp hknown
  intro sig hsig
  refine h (name, sort) ?_ sig hsig
  rw [hsplit]
  exact List.mem_append_right _ List.mem_cons_self

theorem SupportsAll.constantsHave (h : r.SupportsAll s) (hapart : r.SeparatesNames) :
    s.ConstantsHave r.AllowsConstant :=
  fun _ _ hmem => hapart.allowsConstant (h _ hmem)

/-- Writing and reading are inverse.  If reading a formula has left no name for both a
constant and a function with arguments, the written form of the formula is the text of a
single expression, and reading that expression gives the same formula and changes nothing. -/
theorem formula_of_read_render {r r' : Reader} {e : SExpr} {s : Sentence} (he : e.IsLexical)
    (hread : (formula [] e).run.run r = (.ok s, r')) (hapart : r'.SeparatesNames) :
    ∃ e', SExpr.read (s.render r'.lexicon.sorts) = .ok [e'] ∧
      (formula [] e').run.run r' = (.ok s, r') := by
  have hyields : Yields .formula [] [e] r [s] r' :=
    yields_iff.mpr (succeeds_readAll_singleton_iff.mpr ⟨s, rfl, hread⟩)
  have hallows : ∀ x ∈ [s], x.ConstantsHave r'.AllowsConstant :=
    fun x hx => (hyields.supports isNamed_nil x hx).constantsHave hapart
  obtain ⟨⟩ | ⟨hrereads, -⟩ := hyields.rereads (.refl r') isNamed_nil hallows
  refine ⟨s.toExpr r'.lexicon.sorts, ?_, ?_⟩
  · rw [← Sentence.render_toExpr]
    exact SExpr.read_render _ (hrereads.isLexical he)
  · obtain ⟨_, ⟨⟩, hs⟩ := succeeds_readAll_singleton_iff.mp (yields_iff.mp hrereads.written)
    exact hs

/-- A binder inside a binder of the same name.  The keywords, the sort of the inner binder
and the parentheses of the last name are written otherwise again. -/
def rebinding : SExpr :=
  .list [.symbol "Forall", .list [.symbol "x", .symbol "human"],
    .list [.symbol "exists", .list [.symbol "x", .symbol "OBJECT"],
      .list [.symbol "AND",
        .list [.symbol "Loves", .list [.symbol "mother", .symbol "x"], .symbol "human"],
        .list [.symbol "raining"]]]]

theorem formula_of_read_render_rebinding :
    let r : Reader := ((declaration (.list [.symbol "sort", .symbol "human"])).run.run {}).2
    rebinding.IsLexical ∧ ∃ s r', (formula [] rebinding).run.run r = (.ok s, r') ∧
      r'.SeparatesNames ∧ s.render r'.lexicon.sorts =
        "(forall (x human) (exists x (and (Loves (mother x) human) raining)))" ∧
      ∃ e', SExpr.read (s.render r'.lexicon.sorts) = .ok [e'] ∧
        (formula [] e').run.run r' = (.ok s, r') := by
  intro r
  have htext : SExpr.read
      "(Forall (x human) (exists (x OBJECT) (AND (Loves (mother x) human) (raining))))" =
      .ok [rebinding] := SExpr.read_of_tokens (by decide +kernel)
  have hlexical := SExpr.isLexical_of_read htext rebinding List.mem_cons_self
  obtain ⟨s, r', hread, htest⟩ := exists_ok_of_any ((formula [] rebinding).run.run r)
    (fun s r' => decide (r'.SeparatesNames ∧ s.render r'.lexicon.sorts =
      "(forall (x human) (exists x (and (Loves (mother x) human) raining)))")) (by decide +kernel)
  obtain ⟨hapart, hrender⟩ := of_decide_eq_true htest
  exact ⟨hlexical, s, r', hread, hapart, hrender, formula_of_read_render hlexical hread hapart⟩

end Reader

end Tableau
