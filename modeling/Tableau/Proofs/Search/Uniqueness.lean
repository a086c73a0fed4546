/-
No rule is fired twice.  A rule that has been fired leaves something behind on all branches
through its node: its sentence is marked, or it is a true universal sentence that remembers its
terms.  The rule of a marked sentence is not fired again, and a universal sentence is only
instantiated for terms that are new to it.  Nor does it turn into its dual, for then it would
have both values on a branch that is consistent.  So of two inferences from one sentence on one
branch both instantiate it, for different terms.
-/
import Mathlib.Data.List.Nodup
import Tableau.Proofs.Search.Frontier

namespace Tableau

/-- One of two nodes is the other one or lies below it. -/
def Tree.OnOneBranch (tree : Tree) (id other : NodeId) : Prop :=
  tree.isDescendant id other = true ∨ tree.isDescendant other id = true

namespace Tree

variable {tree tree' : Tree} {id other : NodeId}

/-- Nodes do not come together on a branch later on. -/
theorem GrowsTo.onOneBranch (h : tree.GrowsTo tree') (hid : id < tree.size)
    (hother : other < tree.size) (hbranch : tree'.OnOneBranch id other) :
    tree.OnOneBranch id other := by
  simp only [OnOneBranch, isDescendant_iff, h.ancestry id hid, h.ancestry other hother] at hbranch ⊢
  exact hbranch

/-- A node on one branch with a node without children is at or above it. -/
theorem Coherent.mem_ancestry_of_onOneBranch (h : tree.Coherent) (hchildren : tree.children id = [])
    (hbranch : tree.OnOneBranch id other) : other ∈ tree.ancestry id := by
  simp only [OnOneBranch, isDescendant_iff] at hbranch
  rcases hbranch with habove | hbelow
  · exact habove
  · rw [h.eq_of_childless hchildren hbelow]
    exact mem_ancestry_self ..

end Tree

namespace Inference

variable {tree : Tree} {inf other : Inference}

/-- Both inferences instantiate universal sentences, for different terms. -/
def InstantiateApart (inf other : Inference) : Prop :=
  ∃ binder terms facts binder' terms' facts', inf.effect = .universal binder terms facts ∧
    other.effect = .universal binder' terms' facts' ∧ terms.Disjoint terms'

/-- Neither inference repeats the other one.  If they have the same origin, are made on one
branch and do not close it, then they instantiate it for different terms. -/
def IsNoRepetition (tree : Tree) (inf other : Inference) : Prop :=
  inf.isClosure = false → other.isClosure = false → inf.origin = other.origin →
    tree.OnOneBranch inf.node other.node → inf.InstantiateApart other

theorem IsNoRepetition.symm (h : inf.IsNoRepetition tree other) :
    other.IsNoRepetition tree inf := by
  intro hother hinf horigin hbranch
  obtain ⟨binder, terms, facts, binder', terms', facts', heffect, heffect', hdisjoint⟩ :=
    h hinf hother horigin.symm hbranch.symm
  exact ⟨binder', terms', facts', binder, terms, facts, heffect', heffect,
    List.disjoint_symm hdisjoint⟩

/-- Nor do they repeat each other later on. -/
theorem IsNoRepetition.mono {tree' : Tree} (h : inf.IsNoRepetition tree other)
    (hgrows : tree.GrowsTo tree') (hinf : inf.isClosure = false → inf.node < tree.size)
    (hother : other.isClosure = false → other.node < tree.size) :
    inf.IsNoRepetition tree' other := by
  intro hclosure hclosure' horigin hbranch
  apply h hclosure hclosure' horigin
  exact hgrows.onOneBranch (hinf hclosure) (hother hclosure') hbranch

end Inference

/-! What a rule leaves behind. -/

/-- The origin of an inference is marked on the branch of its node, or it is true and universal
there and remembers all terms of the inference. -/
structure Tree.Remembers (tree : Tree) (inf : Inference) : Prop where
  node_lt : inf.node < tree.size
  traces : (tree.branch inf.node).isDecomposed inf.origin = true ∨
    ∃ binder body terms facts, inf.origin = .all binder body ∧
      inf.effect = .universal binder terms facts ∧
      (tree.branch inf.node).has inf.origin true = true ∧
      ∀ term ∈ terms, term ∈ (tree.branch inf.node).instancesOf inf.origin

theorem Tree.Remembers.mono {tree tree' : Tree} {inf : Inference} (h : tree.Remembers inf)
    (hgrows : tree.GrowsTo tree') : tree'.Remembers inf where
  node_lt := Nat.lt_of_lt_of_le h.node_lt hgrows.size_le
  traces := by
    rcases h.traces with hmark | ⟨binder, body, terms, facts, hall, heffect, htrue, hterms⟩
    · exact Or.inl (hgrows.isDecomposed _ h.node_lt _ hmark)
    · exact Or.inr ⟨binder, body, terms, facts, hall, heffect, hgrows.has _ h.node_lt _ _ htrue,
        fun term hterm => hgrows.instancesOf _ h.node_lt _ (hterms term hterm)⟩

namespace Rule.Fires

variable {lex lex' : Lexicon} {tree tree' : Tree} {leaf : NodeId} {k : Key} {value : Bool}
  {inf : Inference} (h : Rule.Fires lex tree leaf k value inf lex')
include h

/-- A rule that is put off leaves a mark. -/
theorem remembers_of_mark (hleaf : leaf < tree.size) {added : Addition}
    (hadds : tree.Adds leaf added tree') (hmark : k ∈ added.marks) : tree'.Remembers inf where
  node_lt := by
    rw [h.node_eq, hadds.size]
    exact hleaf
  traces := by
    rw [h.node_eq, h.origin_eq, Key.key_sentence, hadds.isDecomposed]
    exact Or.inl (Or.inr ⟨Tree.mem_ancestry_self .., hmark⟩)

/-- A rule that is carried out leaves a mark or its terms. -/
theorem remembers_of_addition (hleaf : leaf < tree.size)
    (hadds : tree.Adds leaf inf.addition tree') : tree'.Remembers inf := by
  have horigin : inf.origin.key = k := by rw [h.origin_eq, Key.key_sentence]
  by_cases huniversal : ∃ binder terms facts, inf.effect = .universal binder terms facts
  · obtain ⟨binder, terms, facts, heffect⟩ := huniversal
    obtain ⟨body, hall, rfl, -⟩ := (heffect ▸ h.yields).of_universal
    constructor
    · rw [h.node_eq, hadds.size]
      exact hleaf
    · rw [h.node_eq, horigin]
      refine Or.inr ⟨binder, body, terms, facts, h.origin_eq.trans hall, heffect, ?_, ?_⟩
      · exact (hadds.has ..).mpr (Or.inl (Branch.has_of_models h.models))
      · intro term hterm
        apply (hadds.mem_instancesOf ..).mpr
        exact Or.inr ⟨Tree.mem_ancestry_self ..,
          Inference.mem_terms_addition.mpr ⟨horigin.symm, binder, terms, facts, heffect, hterm⟩⟩
  · apply h.remembers_of_mark hleaf hadds
    rw [← horigin]
    exact Inference.origin_mem_marks_addition fun binder terms facts heffect =>
      huniversal ⟨binder, terms, facts, heffect⟩

/-- A rule is not fired below a node where it has been fired before, unless it is that of a
universal sentence, which is instantiated for other terms. -/
theorem instantiateApart (hcoh : tree.Coherent) {old : Inference} (hold : tree.Remembers old)
    (habove : old.node ∈ tree.ancestry leaf) (horigin : inf.origin = old.origin) :
    inf.InstantiateApart old := by
  have hk : old.origin = k.sentence := horigin.symm.trans h.origin_eq
  have htraces := hold.traces
  rw [hk, Key.key_sentence] at htraces
  rcases htraces with hmark | ⟨binder, body, terms, facts, hall, heffect, htrue, hterms⟩
  · have hmarked := hcoh.isDecomposed_branch_mono habove hmark
    rw [h.not_decomposed] at hmarked
    contradiction
  · -- the branch is consistent, so the sentence has not become false meanwhile
    have hcons := h.consistent (by rw [hall]; rfl)
    have hopposite := Branch.isConsistent_iff.mp hcons k value (Branch.has_of_models h.models)
    have htrue' := hcoh.has_branch_mono habove htrue
    obtain rfl : value = true := by
      cases value with
      | true => rfl
      | false => simp [htrue'] at hopposite
    obtain ⟨terms', facts', heffect'⟩ := (hall ▸ h.yields).exists_universal
    refine ⟨binder, terms', facts', binder, terms, facts, heffect', heffect, ?_⟩
    intro term hterm' hterm
    have hused := hcoh.instancesOf_branch_mono habove (hterms term hterm)
    rcases h.unused binder terms' facts' heffect' with hnone | hunused
    · simp [hnone] at hused
    · exact (hunused term hterm').2 hused

end Rule.Fires

/-! What has been issued. -/

/-- All of the inferences have left something behind, none lists a term twice, and none repeats
another one. -/
structure Tree.FiresOnce (tree : Tree) (issued : List Inference) : Prop where
  remembers : ∀ inf ∈ issued, inf.isClosure = false → tree.Remembers inf
  nodup : ∀ inf ∈ issued, ∀ binder terms facts, inf.effect = .universal binder terms facts →
    terms.Nodup
  noRepetition : issued.Pairwise (Inference.IsNoRepetition tree)

namespace Tree.FiresOnce

variable {tree tree' : Tree} {issued : List Inference} (h : tree.FiresOnce issued)
include h

theorem mono (hgrows : tree.GrowsTo tree') : tree'.FiresOnce issued where
  remembers inf hinf hclosure := (h.remembers inf hinf hclosure).mono hgrows
  nodup := h.nodup
  noRepetition := by
    apply h.noRepetition.imp_of_mem
    intro inf other hinf hother hno
    exact hno.mono hgrows (fun hclosure => (h.remembers inf hinf hclosure).node_lt)
      (fun hclosure => (h.remembers other hother hclosure).node_lt)

/-- The inferences may be forgotten and may come in any order. -/
theorem of_perm {kept issued' : List Inference} (hperm : issued'.Perm kept)
    (hsub : kept.Sublist issued) : tree.FiresOnce issued' where
  remembers inf hinf := h.remembers inf (hsub.subset (hperm.mem_iff.mp hinf))
  nodup inf hinf := h.nodup inf (hsub.subset (hperm.mem_iff.mp hinf))
  noRepetition :=
    hperm.symm.pairwise (h.noRepetition.sublist hsub) Inference.IsNoRepetition.symm

theorem cons {inf : Inference} (hremembers : inf.isClosure = false → tree.Remembers inf)
    (hnodup : ∀ binder terms facts, inf.effect = .universal binder terms facts → terms.Nodup)
    (hno : ∀ old ∈ issued, inf.IsNoRepetition tree old) : tree.FiresOnce (inf :: issued) where
  remembers := List.forall_mem_cons.mpr ⟨hremembers, h.remembers⟩
  nodup := List.forall_mem_cons.mpr ⟨hnodup, h.nodup⟩
  noRepetition := List.pairwise_cons.mpr ⟨hno, h.noRepetition⟩

end Tree.FiresOnce

namespace Prover

variable {p q : Prover}

section Issues

variable {inf : Inference} (hissues : p.Issues inf q) (hp : p.Coherent)
include hissues hp

theorem Issues.remembers : q.tree.Remembers inf := by
  obtain ⟨leaf, hleaf, k, value, hfires, htree⟩ := hissues
  have hlt := hp.open_lt leaf hleaf
  cases hsplit : inf.isBranching with
  | true =>
      rw [hsplit, if_pos rfl] at htree
      have hadds := hp.adds_of_deferred hleaf hfires htree
      exact hfires.remembers_of_mark hlt hadds (List.mem_singleton_self k)
  | false =>
      rw [hsplit, if_neg Bool.false_ne_true] at htree
      exact hfires.remembers_of_addition hlt (hp.adds_of_performed hleaf hfires hsplit htree)

/-- A rule that is fired now repeats nothing that has been issued. -/
theorem Issues.isNoRepetition (hgrows : p.tree.GrowsTo q.tree) (h : p.tree.FiresOnce p.issued)
    (old : Inference) (hold : old ∈ p.issued) : inf.IsNoRepetition q.tree old := by
  obtain ⟨leaf, hleaf, k, value, hfires, -⟩ := hissues
  have hno : inf.IsNoRepetition p.tree old := by
    intro _ hclosure horigin hbranch
    rw [hfires.node_eq] at hbranch
    have habove := hp.tree.mem_ancestry_of_onOneBranch (hp.childless leaf hleaf) hbranch
    exact hfires.instantiateApart hp.tree (h.remembers old hold hclosure) habove horigin
  apply hno.mono hgrows
  · exact fun _ => hfires.node_eq ▸ hp.open_lt leaf hleaf
  · exact fun hclosure => (h.remembers old hold hclosure).node_lt

end Issues

theorem Advance.firesOnce (hadvance : Advance p q) (hp : p.Coherent)
    (h : p.tree.FiresOnce p.issued) : q.tree.FiresOnce q.issued := by
  have hgrows := hadvance.growsTo hp
  have hlater := h.mono hgrows
  rcases hadvance.issued_cases with
    ⟨kept, hperm, hsub, -⟩ | ⟨new, -, hperm, -, ⟨conflict, rfl⟩ | hissues⟩
  · exact hlater.of_perm hperm hsub
  · refine (hlater.cons ?_ ?_ ?_).of_perm hperm (List.Sublist.refl _)
    · intro hclosure
      contradiction
    · intro binder terms facts heffect
      contradiction
    · intro old hold hclosure
      contradiction
  · have hno := hissues.isNoRepetition hp hgrows h
    have hremembers := hissues.remembers hp
    obtain ⟨leaf, hleaf, k, value, hfires, -⟩ := hissues
    exact (hlater.cons (fun _ => hremembers) hfires.nodup hno).of_perm hperm (List.Sublist.refl _)

variable {lexicon : Lexicon} {premises goals : List Sentence} {options : Options} {s : Search}

theorem firesOnce_start : (start lexicon premises goals options).tree.FiresOnce
    (start lexicon premises goals options).issued := by
  constructor <;> simp [issued]

/-- Each rule is fired at most once for each sentence and branch.  Of all that has been
concluded or is pending, two inferences from one sentence on one branch instantiate it, for
different terms.  Only closures are exempt.  No instantiation has a term twice. -/
theorem Reaches.fires_once (h : (start lexicon premises goals options).Reaches s) :
    ((s.prover.log.toList ++ s.prover.pending).Pairwise fun inf other =>
      inf.isClosure = false → other.isClosure = false → inf.origin = other.origin →
        s.prover.tree.isDescendant inf.node other.node = true ∨
          s.prover.tree.isDescendant other.node inf.node = true →
        ∃ binder terms facts binder' terms' facts', inf.effect = .universal binder terms facts ∧
          other.effect = .universal binder' terms' facts' ∧ terms.Disjoint terms') ∧
      ∀ inf ∈ s.prover.log.toList ++ s.prover.pending, ∀ binder terms facts,
        inf.effect = .universal binder terms facts → terms.Nodup := by
  have honce : s.prover.tree.FiresOnce s.prover.issued :=
    h.of_advance (fun _ _ hp honce hadvance => hadvance.firesOnce hp honce) firesOnce_start
  exact ⟨honce.noRepetition, honce.nodup⟩

/-- A universal sentence with a function in its body, and a split.  It is instantiated once
above the split, and then on both sides of it for the next term. -/
theorem fires_once_across_split :
    let text := "(premises (forall x (P (f x))) (P a) (or A B))"
    let x : Sentence := .var "x" SortId.object
    let f (term : Sentence) : Sentence := .app "f" SortId.object [term]
    let P (term : Sentence) : Sentence := .pred "P" [term]
    let a : Sentence := .const "a" SortId.object
    let every : Sentence := .all x (P (f x))
    let above : Inference := ⟨0, every, 2, 0, .universal x [a] [⟨P (f a), true⟩]⟩
    let left : Inference := ⟨1, every, 3, 0, .universal x [f a] [⟨P (f (f a)), true⟩]⟩
    let right : Inference := ⟨2, every, 4, 0, .universal x [f a] [⟨P (f (f a)), true⟩]⟩
    ∃ problem lexicon', Problem.read {} text = (.ok problem, lexicon') ∧
      let s := (start lexicon' problem.premises problem.goals {}).after 13
      (∃ split, s.prover.log.toList ++ s.prover.pending = [above, split, left, right]) ∧
        s.prover.tree.isDescendant left.node above.node = true ∧
        s.prover.tree.isDescendant right.node left.node = false ∧ [a].Disjoint [f a] := by
  intro text x f P a every above left right
  let split : Inference := ⟨0, .disj [.atom "A", .atom "B"], 1, 0,
    .branch [[⟨Sentence.atom "A", true⟩], [⟨Sentence.atom "B", true⟩]]⟩
  obtain ⟨problem, lexicon', hread, htest⟩ := Problem.exists_read_of_any {} text
    (fun problem lexicon' =>
      let s := (start lexicon' problem.premises problem.goals {}).after 13
      decide (s.prover.log.toList ++ s.prover.pending = [above, split, left, right] ∧
        s.prover.tree.isDescendant left.node above.node = true ∧
        s.prover.tree.isDescendant right.node left.node = false))
    (by decide +kernel)
  refine ⟨problem, lexicon', hread, ?_⟩
  intro s
  obtain ⟨hlog, hbelow, hbeside⟩ := of_decide_eq_true htest
  refine ⟨⟨split, hlog⟩, hbelow, hbeside, ?_⟩
  have hreach := reaches_after (start lexicon' problem.premises problem.goals {}) 13
  have hpairwise := hreach.fires_once.1
  rw [hlog] at hpairwise
  have hleft := (List.pairwise_cons.mp hpairwise).1 left (by simp)
  obtain ⟨-, -, -, -, -, -, ⟨⟩, ⟨⟩, hdisjoint⟩ := hleft rfl rfl rfl (Or.inr hbelow)
  exact hdisjoint

end Prover

end Tableau
