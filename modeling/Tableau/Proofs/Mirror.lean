/-
Lexicons and registers.  A register mirrors a lexicon if it holds its shapes, index, names and
counters.  Whatever is asked of both, texts that cannot be read to the end included, the
mirror stays true; so the numbers of a lexicon are as canonical as those of a register.
-/
import Tableau.Proofs.Register

namespace Tableau

namespace BuildM

variable {σ τ α : Type} {R : σ → τ → Prop}

/-- On related stores, `f` gives what `g` gives, and the stores stay related. -/
def Follows (R : σ → τ → Prop) (f : BuildM σ α) (g : BuildM τ α) : Prop :=
  ∀ ⦃store store' k after'⦄, R store store' → g store' = some (k, after') →
    ∃ after, f store = some (k, after) ∧ R after after'

theorem mapM_follows {f : Nat → BuildM σ Nat} {g : Nat → BuildM τ Nat} {ms : List Nat}
    (h : ∀ m ∈ ms, Follows R (f m) (g m)) : Follows R (ms.mapM f) (ms.mapM g) := by
  induction ms with
  | nil =>
      intro store store' ks after' hstores hrun
      cases hrun
      exact ⟨store, rfl, hstores⟩
  | cons m ms ih =>
      intro store store' ks after' hstores hrun
      obtain ⟨hm, hms⟩ := List.forall_mem_cons.mp h
      rw [mapM_cons_run] at hrun
      obtain ⟨⟨first, mid'⟩, hfirst, hmap⟩ := Option.bind_eq_some_iff.mp hrun
      obtain ⟨⟨rest, last'⟩, hrest, heq⟩ := Option.map_eq_some_iff.mp hmap
      cases heq
      obtain ⟨mid, hfirst, hmid⟩ := hm hstores hfirst
      obtain ⟨last, hrest, hlast⟩ := ih hms hmid hrest
      refine ⟨last, ?_, hlast⟩
      rw [mapM_cons_run, hfirst, Option.bind_some, hrest]
      rfl

end BuildM

/-- Replacing in one store follows replacing in another if building does. -/
theorem Shape.replace_follows {σ τ : Type} {R : σ → τ → Prop} {kind? : σ → Nat → Option Shape}
    {kind'? : τ → Nat → Option Shape} {build : Shape → BuildM σ Nat}
    {build' : Shape → BuildM τ Nat}
    (hkinds : ∀ store store', R store store' → ∀ n, kind? store n = kind'? store' n)
    (hbuild : ∀ shape, BuildM.Follows R (build shape) (build' shape)) (a b n : Nat) :
    BuildM.Follows R (replace kind? build a b n) (replace kind'? build' a b n) := by
  induction n using Nat.strongRecOn with
  | ind n ih =>
      intro store store' k after' hstores hrun
      by_cases hn : n = a
      · subst hn
        rw [replace_self] at hrun
        cases hrun
        exact ⟨store, replace_self, hstores⟩
      · cases hshape : kind'? store' n with
        | none =>
            rw [replace_of_none hn hshape] at hrun
            cases hrun
        | some shape =>
            have hoperands : BuildM.Follows R
                ((shape.parts.drop shape.symbol.bound).mapM fun m =>
                  if m < n then replace kind? build a b m else failure)
                ((shape.parts.drop shape.symbol.bound).mapM fun m =>
                  if m < n then replace kind'? build' a b m else failure) := by
              refine BuildM.mapM_follows fun m _ => ?_
              by_cases hm : m < n
              · simpa only [if_pos hm] using ih m hm
              · intro _ _ _ _ _ hfail
                rw [if_neg hm] at hfail
                cases hfail
            rw [replace_of_some hn hshape] at hrun
            rw [replace_of_some hn ((hkinds _ _ hstores n).trans hshape)]
            split at hrun
            · cases hrun
              exact ⟨store, if_pos ‹_›, hstores⟩
            · rw [if_neg ‹_›]
              obtain ⟨⟨ks, mid'⟩, hmapM, hlast⟩ := Option.bind_eq_some_iff.mp hrun
              obtain ⟨mid, hmapM, hmid⟩ := hoperands hstores hmapM
              rw [hmapM, Option.bind_some]
              simp only at hlast ⊢
              split at hlast
              · cases hlast
                exact ⟨mid, if_pos ‹_›, hmid⟩
              · rw [if_neg ‹_›]
                exact hbuild _ hmid hlast

namespace Lexicon

variable {lex lex' : Lexicon} {s : Sentence} {n : Nat}

abbrev IsCanonical (lex : Lexicon) : Prop := Shape.IsCanonical lex.shape? lex.find? lex.names

/-- The shape of a sentence whose parts are entered. -/
def shapeOf (lex : Lexicon) (s : Sentence) : Shape := ⟨s.symbol, s.parts.map (lex.number ·.key)⟩

/-- A new sentence comes last, with the shape that it had before. -/
theorem IsOrderly.shape?_append (h : lex.IsOrderly) (hnew : s ∉ lex.entries)
    (hparts : ∀ x ∈ s.parts, x ∈ lex.entries) (n : Nat) :
    (lex.append s).shape? n = if n = lex.size then some (lex.shapeOf s) else lex.shape? n := by
  have hdevelops : lex.Develops (lex.append s) := .append s .refl hnew hparts
  have hentries : (lex.append s).entries = lex.entries ++ [s] := entries_append_of_not_mem hnew
  by_cases hn : n = lex.size
  · have hnumbers : s.parts.map ((lex.append s).number ·.key) = s.parts.map (lex.number ·.key) :=
      List.map_congr_left fun x hx => hdevelops.number_eq h (hparts x hx)
    rw [if_pos hn, shape?, hentries, hn, ← length_entries, List.getElem?_concat_length,
      Option.map_some, hnumbers]
    rfl
  · rw [if_neg hn]
    cases hshape : lex.shape? n with
    | some shape => exact hdevelops.shape? h hshape
    | none =>
        have hsize : lex.entries.length ≤ n := by simpa [shape?] using hshape
        rw [← length_entries] at hn
        rw [shape?, hentries, List.getElem?_eq_none (by simp; omega)]
        rfl

end Lexicon

namespace Register

variable {reg reg' : Register} {lex lex' : Lexicon} {shape : Shape} {s : Sentence} {n : Nat}

/-- A register and a lexicon that hold the same: shapes, index, names and counters agree, and
numbers stand for the sentences that they are the numbers of. -/
structure Mirrors (reg : Register) (lex : Lexicon) : Prop where
  kept : reg.IsWellKept
  orderly : lex.IsOrderly
  kinds : ∀ n, reg.kind? n = lex.shape? n
  index : ∀ shape, reg.find? shape = lex.find? shape
  sentences : ∀ n, reg.expand? n = lex.entries[n]?
  names : reg.names = lex.names
  fresh : reg.fresh = lex.fresh
  minted : reg.minted = lex.minted

/-- The index and the sentences are determined by the shapes. -/
theorem mirrors_of_kinds (hkept : reg.IsWellKept) (horderly : lex.IsOrderly)
    (hkinds : ∀ n, reg.kind? n = lex.shape? n) (hnames : reg.names = lex.names)
    (hfresh : reg.fresh = lex.fresh) (hminted : reg.minted = lex.minted) : reg.Mirrors lex where
  kept := hkept
  orderly := horderly
  kinds := hkinds
  index shape := by
    refine Option.ext fun n => ?_
    rw [← hkept.found, hkinds, horderly.shape?_eq_some_iff, horderly.find?_eq_some_iff]
  sentences n := by
    rw [← horderly.expand?_eq, expand?, Lexicon.expand?, funext hkinds]
  names := hnames
  fresh := hfresh
  minted := hminted

theorem mirrors_empty (sorts : Sorts) : Mirrors {} { sorts } :=
  mirrors_of_kinds isWellKept_empty (Lexicon.isOrderly_empty sorts)
    (fun n => by simp [kind?, Lexicon.shape?, Lexicon.entries]) rfl rfl rfl

namespace Mirrors

theorem size_eq (h : reg.Mirrors lex) : reg.size = lex.size := by
  have hlt : ∀ n, n < reg.size ↔ n < lex.size := by
    intro n
    rw [← isSome_kind?_iff, h.kinds, Lexicon.lt_size_iff, Lexicon.shape?, Option.isSome_map,
      Option.isSome_iff_exists]
  have hreg := hlt reg.size
  have hlex := hlt lex.size
  omega

theorem isCanonical (h : reg.Mirrors lex) : lex.IsCanonical := by
  have hcanonical := h.kept.isCanonical
  rwa [IsCanonical, funext h.kinds, funext h.index, h.names] at hcanonical

theorem count (h : reg.Mirrors lex) : reg.count.Mirrors lex.count := by
  refine mirrors_of_kinds h.kept.count ⟨h.orderly.nodup, h.orderly.parts⟩ h.kinds h.names ?_ ?_
  · unfold Register.count Lexicon.count Lexicon.isTaken
    rw [h.names, h.fresh]
  · exact congrArg (· + 1) h.minted

/-- A new sentence is entered as its shape is added. -/
theorem push (h : reg.Mirrors lex) (hnew : s ∉ lex.entries)
    (hparts : ∀ x ∈ s.parts, x ∈ lex.entries) :
    reg.Admits (lex.shapeOf s) ∧ reg.find? (lex.shapeOf s) = none ∧
      (reg.push (lex.shapeOf s)).Mirrors (lex.append s) := by
  have hadmits : reg.Admits (lex.shapeOf s) := by
    refine ⟨fun m hm => ?_, ?_⟩
    · obtain ⟨x, hx, rfl⟩ := List.mem_map.mp hm
      rw [h.size_eq, Lexicon.lt_size_iff]
      exact ⟨x, h.orderly.getElem?_number (hparts x hx)⟩
    · rw [Lexicon.shapeOf, List.length_map]
      exact Symbol.takes_length_parts s
  have hfind : reg.find? (lex.shapeOf s) = none := by
    rw [h.index, Option.eq_none_iff_forall_ne_some]
    intro n hn
    obtain ⟨t, ht, hsentence⟩ := h.orderly.find?_eq_some_iff.mp hn
    have hs : lex.sentence? (lex.shapeOf s) = some s :=
      Lexicon.sentence?_eq_some_iff.mpr ⟨rfl, h.orderly.number_iff.mpr ⟨rfl, hparts⟩⟩
    obtain rfl := Option.some.inj (hsentence.symm.trans hs)
    exact hnew (List.mem_of_getElem? ht)
  refine ⟨hadmits, hfind, ?_⟩
  refine mirrors_of_kinds (h.kept.push hadmits hfind) (h.orderly.append hnew hparts) (fun n => ?_)
    ?_ ?_ ?_
  · rw [kind?_push, h.orderly.shape?_append hnew hparts, h.size_eq, h.kinds]
  · rw [Lexicon.names_append_of_not_mem hnew, ← h.names, ← Symbol.constantName?_symbol]
    rfl
  · rw [Lexicon.fresh_append]
    exact h.fresh
  · rw [Lexicon.minted_append]
    exact h.minted

/-- A shape is interned as its sentence is entered, with the same number. -/
theorem intern (h : reg.Mirrors lex) (henter : lex.enter? shape = some (n, lex')) :
    reg.Admits shape ∧ (reg.intern shape).1 = n ∧ (reg.intern shape).2.Mirrors lex' := by
  obtain ⟨s, hsentence, hentered⟩ := Option.map_eq_some_iff.mp henter
  cases hentered
  obtain ⟨hsymbol, hnumbers⟩ := Lexicon.sentence?_eq_some_iff.mp hsentence
  obtain ⟨hparts, hmem⟩ := h.orderly.number_iff.mp hnumbers
  have hshape : shape = lex.shapeOf s := by
    rw [Lexicon.shapeOf, hsymbol, ← hparts]
  by_cases hs : s ∈ lex.entries
  · have hget := h.orderly.getElem?_number hs
    have hfind : reg.find? shape = some (lex.number s) := by
      rw [h.index]
      exact h.orderly.find?_eq_some_iff.mpr ⟨s, hget, hsentence⟩
    have hkind := (h.kept.found _ _).mpr hfind
    rw [intern_of_some hfind, Lexicon.intern_of_mem hs]
    refine ⟨⟨fun m hm => ?_, h.kept.arity _ _ hkind⟩, rfl, h⟩
    exact Nat.lt_trans (h.kept.parts _ _ hkind m hm) (lt_size_of_kind? hkind)
  · obtain ⟨hadmits, hfind, hpush⟩ := h.push hs hmem
    rw [← hshape] at hadmits hfind hpush
    have hintern : lex.intern s = lex.append s := by
      rw [Lexicon.intern_of_not_mem hs, Lexicon.internAll_of_mem hmem]
    have hlast : (lex.append s).entries[lex.size]? = some s := by
      rw [Lexicon.entries_append_of_not_mem hs, ← Lexicon.length_entries,
        List.getElem?_concat_length]
      rfl
    rw [intern_of_none hfind, hintern]
    refine ⟨hadmits, ?_, hpush⟩
    exact h.size_eq.trans (hpush.orderly.number_eq hlast).symm

theorem mint (h : reg.Mirrors lex) (sort : SortId) :
    (reg.mint sort).2.Mirrors (lex.mint sort).2 := by
  have hsame : reg.count.fresh = lex.count.fresh := h.count.fresh
  have henter : lex.count.enter? ⟨.const (Lexicon.constantName lex.count.fresh) sort, []⟩ =
      some (lex.count.entered (.const (Lexicon.constantName lex.count.fresh) sort)) := rfl
  rw [Register.mint, hsame]
  exact (h.count.intern henter).2.2

theorem substitute? {target term k : Nat} (h : reg.Mirrors lex)
    (hrun : lex.substituteNumber? n target term = some (k, lex')) :
    ∃ reg', reg.substitute? n target term = some (k, reg') ∧ reg'.Mirrors lex' := by
  have hfollows : ∀ shape, BuildM.Follows Mirrors (interning shape) (Lexicon.entering shape) := by
    intro shape reg lex k lex' h henter
    obtain ⟨-, hk, hmirrors⟩ := h.intern henter
    exact ⟨_, congrArg some (Prod.ext hk rfl), hmirrors⟩
  exact Shape.replace_follows (fun _ _ h => h.kinds) hfollows target term n h hrun

/-- What a text enters is interned. -/
theorem exists_interns (h : reg.Mirrors lex) (habsorbs : lex.Absorbs lex') :
    ∃ reg', reg.Interns reg' ∧ reg'.Mirrors lex' := by
  induction habsorbs with
  | refl => exact ⟨reg, .refl, h⟩
  | append s _ hnew hparts ih =>
      obtain ⟨mid, hinterns, hmid⟩ := ih
      obtain ⟨hadmits, hfind, hpush⟩ := hmid.push hnew hparts
      have hnext := hinterns.intern hadmits
      rw [intern_of_none hfind] at hnext
      exact ⟨_, hnext, hpush⟩
  | declare _ _ ih =>
      obtain ⟨mid, hinterns, hmid⟩ := ih
      exact ⟨mid, hinterns, mirrors_of_kinds hmid.kept ⟨hmid.orderly.nodup, hmid.orderly.parts⟩
        hmid.kinds hmid.names hmid.fresh hmid.minted⟩

/-- A register performs a call as the lexicon does that it mirrors. -/
theorem exists_performs {call : Lexicon.Call} (h : reg.Mirrors lex)
    (hcall : lex.perform? call = some lex') :
    ∃ reg', reg.Performs call reg' ∧ reg'.Mirrors lex' := by
  cases call with
  | enter shape =>
      obtain ⟨⟨n, after⟩, henter, rfl⟩ := Option.map_eq_some_iff.mp hcall
      obtain ⟨hadmits, -, hmirrors⟩ := h.intern henter
      exact ⟨_, .enter hadmits, hmirrors⟩
  | mint sort =>
      cases hcall
      exact ⟨_, .mint sort, h.mint sort⟩
  | substitute n a b =>
      simp only [Lexicon.perform?, Option.bind_eq_bind, Option.bind_eq_some_iff, Option.pure_def,
        Option.some.injEq] at hcall
      obtain ⟨s, hs, target, htarget, term, hterm, rfl⟩ := hcall
      have hrun := h.orderly.substituteNumber?_eq hs htarget hterm
      obtain ⟨reg', hrun, hmirrors⟩ := h.substitute? hrun
      have hlt : ∀ {m x}, lex.entries[m]? = some x → m < reg.size :=
        fun hx => h.size_eq ▸ Lexicon.lt_size_iff.mpr ⟨_, hx⟩
      exact ⟨reg', .substitute (hlt hs) (hlt htarget) (hlt hterm) hrun, hmirrors⟩
  | read text =>
      cases hcall
      obtain ⟨reg', hinterns, hmirrors⟩ := h.exists_interns (lex.absorbs_read text)
      exact ⟨reg', .read text hinterns, hmirrors⟩

theorem exists_performsAll {calls : List Lexicon.Call} (h : reg.Mirrors lex)
    (hcalls : lex.performAll? calls = some lex') :
    ∃ reg', reg.PerformsAll calls reg' ∧ reg'.Mirrors lex' := by
  induction calls generalizing reg lex with
  | nil =>
      cases hcalls
      exact ⟨reg, .nil, h⟩
  | cons call calls ih =>
      rw [Lexicon.performAll?, List.foldlM_cons, Option.bind_eq_bind, Option.bind_eq_some_iff]
        at hcalls
      obtain ⟨mid, hfirst, hrest⟩ := hcalls
      obtain ⟨reg', hperforms, hmid⟩ := h.exists_performs hfirst
      obtain ⟨reg'', hall, hmirrors⟩ := ih hmid hrest
      exact ⟨reg'', .cons hperforms hall, hmirrors⟩

end Mirrors

/-- Whatever is asked of a register or a lexicon that was empty at first, its numbers are
canonical, each of them keeps its shape in all that is asked later, and whatever else may be
asked is done.  What a lexicon becomes is mirrored by what a register becomes. -/
theorem isCanonical_of_performsAll (calls later : List Lexicon.Call) :
    (∀ reg reg', PerformsAll {} calls reg → reg.PerformsAll later reg' →
      reg.IsCanonical ∧
      (∀ n shape, reg.kind? n = some shape → reg'.kind? n = some shape) ∧
      ∀ call : Lexicon.Call, call.isWellFormed = true → (∀ n ∈ call.arguments, n < reg.size) →
        ∃ next, reg.Performs call next) ∧
    ∀ (sorts : Sorts) (lex lex' : Lexicon),
      Lexicon.performAll? { sorts } calls = some lex → lex.performAll? later = some lex' →
      lex.IsCanonical ∧
      (∀ n shape, lex.shape? n = some shape → lex'.shape? n = some shape) ∧
      (∀ call : Lexicon.Call, call.isWellFormed = true → (∀ n ∈ call.arguments, n < lex.size) →
        ∃ next, lex.perform? call = some next) ∧
      ∃ reg reg', PerformsAll {} calls reg ∧ reg.PerformsAll later reg' ∧
        reg.Mirrors lex ∧ reg'.Mirrors lex' := by
  refine ⟨fun reg reg' hcalls hlater => ?_, fun sorts lex lex' hcalls hlater => ?_⟩
  · obtain ⟨hreg, -⟩ := hcalls.keeps isWellKept_empty
    obtain ⟨-, hkinds⟩ := hlater.keeps hreg
    refine ⟨hreg.isCanonical, fun n shape hkind => ?_, fun call => hreg.exists_performs⟩
    exact kind?_of_extends hkinds hkind
  · obtain ⟨reg, hperforms, hmirrors⟩ := (mirrors_empty sorts).exists_performsAll hcalls
    obtain ⟨reg', hperforms', hmirrors'⟩ := hmirrors.exists_performsAll hlater
    refine ⟨hmirrors.isCanonical, fun n shape hshape => ?_, fun call => Lexicon.exists_perform?,
      reg, reg', hperforms, hperforms', hmirrors, hmirrors'⟩
    exact (Lexicon.develops_performAll? hlater).shape? hmirrors.orderly hshape

/-- Two variables of one name, an instance, a minted constant and a text that fails in the
middle of a formula; then the instance is asked for again. -/
theorem isCanonical_of_performsAll_instances :
    let calls : List Lexicon.Call := [.enter ⟨.var "x" 0, []⟩, .enter ⟨.pred "P", [0]⟩, .mint 0,
      .substitute 1 0 2,
      .read "(declarations (sort s)) (premises (forall (x s) (P x)) (or (P c1) (forall y y)))"]
    ∃ lex lex' reg, Lexicon.performAll? {} calls = some lex ∧
      lex.performAll? [.substitute 1 0 2] = some lex' ∧ lex.size = 8 ∧
      lex.shape? 5 = some ⟨.pred "P", [4]⟩ ∧ lex.names = ["c1"] ∧ lex.IsCanonical ∧
      (∀ n shape, lex.shape? n = some shape → lex'.shape? n = some shape) ∧
      PerformsAll {} calls reg ∧ reg.Mirrors lex ∧ reg.IsCanonical := by
  intro calls
  have heval : (Lexicon.performAll? {} calls).any (fun lex =>
      (lex.performAll? [.substitute 1 0 2]).any fun _ =>
        decide (lex.size = 8 ∧ lex.shape? 5 = some ⟨.pred "P", [4]⟩ ∧ lex.names = ["c1"])) =
      true := by
    decide +kernel
  obtain ⟨lex, hcalls, hlex⟩ := (Option.any_eq_true _ _).mp heval
  obtain ⟨lex', hlater, htest⟩ := (Option.any_eq_true _ _).mp hlex
  obtain ⟨hsize, hshape, hnames⟩ := of_decide_eq_true htest
  obtain ⟨hregister, hlexicon⟩ := isCanonical_of_performsAll calls [.substitute 1 0 2]
  obtain ⟨hcanonical, hkept, -, reg, reg', hperforms, hperforms', hmirrors, -⟩ :=
    hlexicon {} lex lex' hcalls hlater
  exact ⟨lex, lex', reg, hcalls, hlater, hsize, hshape, hnames, hcanonical, hkept, hperforms,
    hmirrors, (hregister reg reg' hperforms hperforms').1⟩

end Register

end Tableau
