/-
Declarations of constants and functions.  A reader that has read declarations knows every name
by the sort that it is declared with, and a first use adds no more than names of the root
sort.  Constants keep their sort for good, but a function that has been used gets another sort
when it is declared.
-/
import Tableau.Proofs.Denotation
import Tableau.Proofs.Section

namespace Tableau

/-- The name that is declared, and the name of its sort if one is given. -/
def SExpr.declares? (kind : TermKind) : SExpr → Option (String × Option String)
  | .list (.symbol head :: rest) =>
      match kind, Text.lowercase head, rest with
      | .constant, "constant", [.symbol name] => some (name, none)
      | .constant, "constant", [.symbol name, .symbol sort] => some (name, some sort)
      | .function, "function", [.symbol name, .list _] => some (name, none)
      | .function, "function", [.symbol name, .list _, .symbol result] => some (name, some result)
      | _, _, _ => none
  | _ => none

namespace Sorts

/-- The sort of a name by its first declaration, the root sort if there is none. -/
def declaredSort (sorts : Sorts) (table : List (String × Option String)) (name : String) : SortId :=
  ((table.lookup name).bind sorts.resolve?).getD SortId.object

/-- All names for sorts are kept. -/
def Extends (sorts sorts' : Sorts) : Prop :=
  ∀ name sort, sorts.find? name = some sort → sorts'.find? name = some sort

/-- Declarations give a name a sort: all declarations of the name give it that sort, and it is
the root sort if there are none. -/
structure Gives (sorts : Sorts) (table : List (String × Option String)) (name : String)
    (sort : SortId) : Prop where
  declared : ∀ result, (name, result) ∈ table → sorts.resolve? result = some sort
  undeclared : (∀ result, (name, result) ∉ table) → sort = SortId.object

variable {sorts sorts' : Sorts} {table : List (String × Option String)} {name name' : String}
  {result : Option String} {sort : SortId}

theorem Extends.resolve? (h : sorts.Extends sorts') (hsort : sorts.resolve? result = some sort) :
    sorts'.resolve? result = some sort := by
  cases result with
  | none => exact hsort
  | some name => exact h name sort hsort

theorem extends_declare {parent : SortId} (h : sorts.declare name parent = .ok (sort, sorts')) :
    sorts.Extends sorts' := by
  intro name' sort' hsort
  unfold declare at h
  split at h
  · split at h
    · cases h
      exact hsort
    · contradiction
  · cases h
    unfold find? at hsort ⊢
    rw [List.findIdx?_append, hsort]
    rfl

namespace Gives

theorem declaredSort_eq (h : sorts.Gives table name sort) :
    sorts.declaredSort table name = sort := by
  unfold declaredSort
  cases hlookup : table.lookup name with
  | none =>
      have hnone : ∀ result, (name, result) ∉ table := by
        intro result hmem
        simpa using List.lookup_eq_none_iff.mp hlookup _ hmem
      exact (h.undeclared hnone).symm
  | some result =>
      obtain ⟨front, back, rfl, -⟩ := List.lookup_eq_some_iff.mp hlookup
      rw [Option.bind_some, h.declared result (by simp), Option.getD_some]

theorem mono (h : sorts.Gives table name sort) (hextends : sorts.Extends sorts') :
    sorts'.Gives table name sort :=
  ⟨fun result hmem => hextends.resolve? (h.declared result hmem), h.undeclared⟩

theorem append_of_ne (h : sorts.Gives table name sort) (hne : name ≠ name') :
    sorts.Gives (table ++ [(name', result)]) name sort := by
  have hmem : ∀ other, (name, other) ∈ table ++ [(name', result)] ↔ (name, other) ∈ table := by
    simp [hne]
  exact ⟨fun other hother => h.declared other ((hmem other).mp hother),
    fun hnone => h.undeclared fun other hother => hnone other ((hmem other).mpr hother)⟩

theorem append_self (h : ∀ other, (name, other) ∈ table → sorts.resolve? other = some sort)
    (hsort : sorts.resolve? result = some sort) :
    sorts.Gives (table ++ [(name, result)]) name sort := by
  refine ⟨fun other hother => ?_, fun hnone => (hnone result (by simp)).elim⟩
  rcases List.mem_append.mp hother with hold | hnew
  · exact h other hold
  · obtain rfl : other = result := by simpa using hnew
    exact hsort

/-- One more declaration, of a name that has no other sort yet. -/
theorem append {known known' : String → Option SortId}
    (h : ∀ name sort, known name = some sort → sorts.Gives table name sort)
    (hold : ∀ other, (name, other) ∈ table → sorts.resolve? other = some sort)
    (hsort : sorts.resolve? result = some sort)
    (hknown : ∀ name', known' name' = if name' = name then some sort else known name')
    (name' : String) (sort' : SortId) (hsort' : known' name' = some sort') :
    sorts.Gives (table ++ [(name, result)]) name' sort' := by
  rw [hknown] at hsort'
  split at hsort'
  · next heq =>
      cases hsort'
      subst heq
      exact append_self hold hsort
  · next hne => exact (h name' sort' hsort').append_of_ne hne

end Gives

end Sorts

namespace Reader

variable {r r' r'' : Reader} {e : SExpr} {ds es : List SExpr} {kind : TermKind} {name : String}
  {sort : SortId} {result : Option String}

/-- What a reader knows of the sort of a name. -/
def sortOf? (r : Reader) : TermKind → String → Option SortId
  | .constant, name => r.constants.lookup name
  | .function, name => (r.functions.lookup name).map (·.result)

/-- The declarations of the given kind, in a list of declarations. -/
def declared (kind : TermKind) (ds : List SExpr) : List (String × Option String) :=
  ds.filterMap (·.declares? kind)

/-- A reader has read declarations: it knows all declared names, and all names that it knows
by the sorts that they are declared with. -/
structure Records (r : Reader) (ds : List SExpr) : Prop where
  sortOf? : ∀ kind name sort, r.sortOf? kind name = some sort →
    r.lexicon.sorts.Gives (declared kind ds) name sort
  constants : ∀ name result, (name, result) ∈ declared .constant ds →
    ∃ sort, r.constants.lookup name = some sort
  functions : ∀ name result, (name, result) ∈ declared .function ds →
    ∃ sig, r.functions.lookup name = some sig ∧ sig.args.isSome = true

/-- Sorts and constants stay what they are.  Functions do not. -/
structure KeepsSorts (r r' : Reader) : Prop where
  sorts : r.lexicon.sorts.Extends r'.lexicon.sorts
  constants : ∀ name sort, r.constants.lookup name = some sort →
    r'.constants.lookup name = some sort

namespace KeepsSorts

theorem refl (r : Reader) : KeepsSorts r r := ⟨fun _ _ => id, fun _ _ => id⟩

theorem trans (h : KeepsSorts r r') (h' : KeepsSorts r' r'') : KeepsSorts r r'' :=
  ⟨fun name sort hsort => h'.sorts name sort (h.sorts name sort hsort),
    fun name sort hsort => h'.constants name sort (h.constants name sort hsort)⟩

end KeepsSorts

theorem Step.keepsSorts (h : Step r r') : KeepsSorts r r' := by
  cases h with
  | enter s =>
      refine ⟨fun _ _ hsort => ?_, fun _ _ => id⟩
      rwa [Reader.enter, Lexicon.sorts_intern]
  | @addConstant name _ hnew =>
      refine ⟨fun _ _ => id, fun name' known hknown => ?_⟩
      rw [Reader.addConstant, lookup_cons_eq, if_neg]
      · exact hknown
      · rintro rfl
        rw [hnew] at hknown
        contradiction
  | addSymbol =>
      exact ⟨fun _ _ hsort => by simpa using hsort, fun _ _ hknown => by simpa using hknown⟩
  | declareSort _ hdeclare => exact ⟨Sorts.extends_declare hdeclare, fun _ _ => id⟩

theorem Steps.keepsSorts (h : Steps r r') : KeepsSorts r r' :=
  h.keeps (P := KeepsSorts r) (fun _ _ hstep hq => hq.trans hstep.keepsSorts) (.refl r)

/-- What is known of a name is kept, or it is learnt from a first use. -/
theorem Lags.sortOf? (h : Lags r r') (hsort : r'.sortOf? kind name = some sort) :
    r.sortOf? kind name = some sort ∨ r.sortOf? kind name = none ∧ sort = SortId.object := by
  cases kind with
  | constant =>
      rcases h.constants name with hsame | ⟨hnone, taught, htaught, rfl⟩
      · exact Or.inl (hsame.trans hsort)
      · exact Or.inr ⟨hnone, (Option.some.inj (htaught.symm.trans hsort)).symm⟩
  | function =>
      obtain ⟨sig, hsig, rfl⟩ := Option.map_eq_some_iff.mp hsort
      rcases h.symbols .function name with hsame | ⟨hnone, _, htaught, arity, rfl⟩
      · exact Or.inl (Option.map_eq_some_iff.mpr ⟨sig, hsame.trans hsig, rfl⟩)
      · obtain rfl := Option.some.inj (htaught.symm.trans hsig)
        exact Or.inr ⟨Option.map_eq_none_iff.mpr hnone, rfl⟩

namespace Records

theorem exists_sortOf? (h : r.Records ds) (hmem : (name, result) ∈ declared kind ds) :
    ∃ sort, r.sortOf? kind name = some sort := by
  cases kind with
  | constant => exact h.constants name result hmem
  | function =>
      obtain ⟨sig, hsig, -⟩ := h.functions name result hmem
      exact ⟨sig.result, Option.map_eq_some_iff.mpr ⟨sig, hsig, rfl⟩⟩

/-- A first use does not touch what is declared. -/
theorem mono (h : r.Records ds) (hlags : Lags r r') : r'.Records ds where
  sortOf? kind name sort hsort := by
    rw [hlags.sorts]
    rcases hlags.sortOf? hsort with hold | ⟨hnone, rfl⟩
    · exact h.sortOf? kind name sort hold
    · refine ⟨fun result hmem => ?_, fun _ => rfl⟩
      obtain ⟨sort, hsome⟩ := h.exists_sortOf? hmem
      exact nomatch hnone.symm.trans hsome
  constants name result hmem := by
    obtain ⟨sort, hsort⟩ := h.constants name result hmem
    exact ⟨sort, hlags.constant hsort⟩
  functions name result hmem := by
    obtain ⟨sig, hsig, hargs⟩ := h.functions name result hmem
    exact ⟨sig, @Lags.known _ _ .function _ _ hlags hsig, hargs⟩

end Records

/-! Declarations. -/

theorem declared_append (kind : TermKind) (ds : List SExpr) (e : SExpr) :
    declared kind (ds ++ [e]) = declared kind ds ++ (e.declares? kind).toList := by
  rw [declared, List.filterMap_append]
  cases h : e.declares? kind <;> simp [declared, h]

namespace Records

/-- A declaration of something else does not matter. -/
theorem keep (h : r.Records ds) (hnone : ∀ kind, e.declares? kind = none)
    (hsorts : r.lexicon.sorts.Extends r'.lexicon.sorts) (hconstants : r'.constants = r.constants)
    (hfunctions : r'.functions = r.functions) : r'.Records (ds ++ [e]) := by
  have htable : ∀ kind, declared kind (ds ++ [e]) = declared kind ds := fun kind => by
    rw [declared_append, hnone kind, Option.toList_none, List.append_nil]
  have hsortOf? : ∀ kind name, r'.sortOf? kind name = r.sortOf? kind name := fun kind name => by
    cases kind <;> simp [Reader.sortOf?, hconstants, hfunctions]
  refine ⟨fun kind name sort hsort => ?_, fun name result hmem => ?_, fun name result hmem => ?_⟩
  · rw [htable]
    exact (h.sortOf? kind name sort (hsortOf? kind name ▸ hsort)).mono hsorts
  · rw [hconstants]
    exact h.constants name result (htable _ ▸ hmem)
  · rw [hfunctions]
    exact h.functions name result (htable _ ▸ hmem)

/-- A constant gets the sort that it has been declared with before, if it has. -/
theorem declareConstant (h : r.Records ds) (hconstant : e.declares? .constant = some (name, result))
    (hfunction : e.declares? .function = none)
    (hsort : r.lexicon.sorts.resolve? result = some sort)
    (hread : Succeeds (Reader.declareConstant name sort) r () r') : r'.Records (ds ++ [e]) := by
  have htable : declared .function (ds ++ [e]) = declared .function ds := by
    rw [declared_append, hfunction, Option.toList_none, List.append_nil]
  have hadded : declared .constant (ds ++ [e]) = declared .constant ds ++ [(name, result)] := by
    rw [declared_append, hconstant, Option.toList_some]
  obtain ⟨hknown, hsorts, hfunctions, hconstants⟩ :
      (∀ known, r.constants.lookup name = some known → known = sort) ∧
        r'.lexicon.sorts = r.lexicon.sorts ∧ r'.functions = r.functions ∧
        ∀ name', r'.constants.lookup name' =
          if name' = name then some sort else r.constants.lookup name' := by
    rcases succeeds_declareConstant_iff.mp hread with ⟨hsome, rfl⟩ | ⟨hnone, rfl⟩
    · refine ⟨fun known hknown => Option.some.inj (hknown.symm.trans hsome),
        Lexicon.sorts_intern .., rfl, fun name' => ?_⟩
      split
      · next heq => exact heq ▸ hsome
      · rfl
    · exact ⟨fun known hknown => (nomatch hnone.symm.trans hknown), Lexicon.sorts_intern .., rfl,
        fun name' => lookup_cons_eq name name' sort r.constants⟩
  -- All declarations of the constant so far have given it the same sort.
  have hold : ∀ other, (name, other) ∈ declared .constant ds →
      r.lexicon.sorts.resolve? other = some sort := by
    intro other hmem
    obtain ⟨known, hsome⟩ := h.constants name other hmem
    rw [← hknown known hsome]
    exact (h.sortOf? .constant name known hsome).declared other hmem
  refine ⟨fun kind => ?_, fun name' other hmem => ?_, fun name' other hmem => ?_⟩
  · rw [hsorts]
    cases kind with
    | constant =>
        rw [hadded]
        exact Sorts.Gives.append (h.sortOf? .constant) hold hsort hconstants
    | function =>
        rw [htable]
        intro name' sort' hsort'
        exact h.sortOf? .function name' sort' (by rwa [Reader.sortOf?, hfunctions] at hsort')
  · rw [hconstants]
    split
    · exact ⟨sort, rfl⟩
    · next hne =>
        rw [hadded] at hmem
        exact h.constants name' other (by simpa [hne] using hmem)
  · rw [hfunctions]
    exact h.functions name' other (htable ▸ hmem)

/-- A function has not been declared before. -/
theorem declareFunction {sig : Signature} (h : r.Records ds)
    (hfunction : e.declares? .function = some (name, result))
    (hconstant : e.declares? .constant = none)
    (hsort : r.lexicon.sorts.resolve? result = some sig.result) (hargs : sig.args.isSome = true)
    (hknown : ∀ known, r.functions.lookup name = some known → known.args = none) :
    (r.addSymbol name sig .function).Records (ds ++ [e]) := by
  have htable : declared .constant (ds ++ [e]) = declared .constant ds := by
    rw [declared_append, hconstant, Option.toList_none, List.append_nil]
  have hadded : declared .function (ds ++ [e]) = declared .function ds ++ [(name, result)] := by
    rw [declared_append, hfunction, Option.toList_some]
  have hold : ∀ other, (name, other) ∉ declared .function ds := by
    intro other hmem
    obtain ⟨known, hsome, hdeclared⟩ := h.functions name other hmem
    rw [hknown known hsome] at hdeclared
    contradiction
  have hlookup : ∀ name', (r.addSymbol name sig .function).functions.lookup name' =
      if name' = name then some sig else r.functions.lookup name' :=
    fun name' => lookup_cons_eq name name' sig r.functions
  refine ⟨fun kind => ?_, fun name' other hmem => ?_, fun name' other hmem => ?_⟩
  · rw [lexicon_addSymbol]
    cases kind with
    | constant =>
        rw [htable]
        exact h.sortOf? .constant
    | function =>
        rw [hadded]
        refine Sorts.Gives.append (h.sortOf? .function) ?_ hsort fun name' => ?_
        · exact fun other hmem => (hold other hmem).elim
        · rw [Reader.sortOf?, hlookup]
          split <;> rfl
  · exact h.constants name' other (htable ▸ hmem)
  · rw [hlookup]
    split
    · exact ⟨sig, rfl, hargs⟩
    · next hne =>
        rw [hadded] at hmem
        exact h.functions name' other (by simpa [hne] using hmem)

/-- A declaration is recorded. -/
theorem declare (h : r.Records ds) (hdeclares : Declares r e r') : r'.Records (ds ++ [e]) := by
  cases hdeclares with
  | @sort _ _ parentName _ _ _ hhead _ hdeclare =>
      refine h.keep (fun kind => ?_) (Sorts.extends_declare hdeclare) rfl rfl
      cases kind <;> simp [SExpr.declares?, hhead]
  | @constant _ _ sortName _ _ hhead hsort hread =>
      refine h.declareConstant ?_ (by simp [SExpr.declares?, hhead]) hsort hread
      cases sortName <;> simp [SExpr.declares?, hhead, trailing]
  | predicate hhead =>
      refine h.keep (fun kind => ?_) (fun _ _ => id) rfl rfl
      cases kind <;> simp [SExpr.declares?, hhead]
  | @function _ _ _ _ resultName _ hhead hresult _ hmay =>
      refine h.declareFunction ?_ (by simp [SExpr.declares?, hhead]) hresult rfl
        fun known hknown => (hmay known hknown).2
      cases resultName <;> simp [SExpr.declares?, hhead, trailing]

theorem declarations {u : Unit} (h : r.Records ds)
    (hread : Succeeds (Reader.declarations es) r u r') : r'.Records (ds ++ es) := by
  induction es generalizing r ds with
  | nil =>
      obtain rfl := succeeds_declarations_nil_iff.mp hread
      rwa [List.append_nil]
  | cons e es ih =>
      obtain ⟨mid, hfirst, hrest⟩ := succeeds_declarations_cons_iff.mp hread
      have hrecords := ih (h.declare hfirst) hrest
      rwa [List.append_assoc] at hrecords

end Records

end Reader

end Tableau
