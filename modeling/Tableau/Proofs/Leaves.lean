/-
Conflicts and leaves.  A branch is consistent if and only if none of its nodes clashes with
the branch above it, and a conflict names two nodes of the branch that hold opposite values.
The leaves below a node are the ends of the ways down that meet no clash, which are the
nodes without children below it whose branches are consistent.
-/
import Tableau.Proofs.Tree

namespace Tableau.Tree

variable {tree tree' : Tree} {lex : Lexicon} {id m : NodeId} {conflict : Conflict}

/-! Conflicts. -/

/-- A branch is consistent if and only if no node on it clashes. -/
theorem Coherent.isPathConsistent_iff (h : tree.Coherent) :
    tree.isPathConsistent id = true ↔ ∀ n ∈ tree.ancestry id, tree.clashes n = false := by
  constructor
  · intro hcons n hn
    rw [← Bool.not_eq_true]
    intro hclash
    obtain ⟨k, value, hvalue, hopposite⟩ := Branch.clashes_cons.mp hclash
    have hbelow : (tree.branch id).has k value = true :=
      h.has_branch_mono hn (has_branch.mpr ⟨n, mem_ancestry_self .., hvalue⟩)
    have hnone := Branch.isConsistent_iff.mp hcons k value hbelow
    rw [h.has_branch_mono hn hopposite] at hnone
    contradiction
  · intro hnone
    cases hcons : tree.isPathConsistent id with
    | true => rfl
    | false =>
        obtain ⟨n, hn, hclash⟩ := h.exists_clash hcons
        rw [hnone n hn] at hclash
        contradiction

theorem Coherent.isPathConsistent_of_mem (h : tree.Coherent) (hm : m ∈ tree.ancestry id)
    (hcons : tree.isPathConsistent id = true) : tree.isPathConsistent m = true := by
  apply h.isPathConsistent_iff.mpr
  intro n hn
  exact h.isPathConsistent_iff.mp hcons n (h.mem_ancestry_trans hm hn)

/-- A conflict of a node is one between its own facts and those of a node on its branch. -/
theorem of_conflict_eq_some (h : Tree.conflict lex tree id = some conflict) :
    conflict.node = id ∧ conflict.against ∈ tree.ancestry id ∧
      ∃ value, (tree.content id).has conflict.sentence value = true ∧
        (tree.content conflict.against).has conflict.sentence (!value) = true := by
  obtain ⟨fact, hfact, hfound⟩ := List.exists_of_findSome?_eq_some h
  obtain ⟨against, hagainst, rfl⟩ := Option.map_eq_some_iff.mp hfound
  have hvalue := Assignment.mem_facts.mp (Lexicon.mem_arrange.mp hfact)
  have hopposite := List.find?_some hagainst
  refine ⟨rfl, List.mem_of_find?_eq_some hagainst, fact.value, ?_, ?_⟩
  · simpa using hvalue
  · simpa using hopposite

/-- The sentence of a conflict has both values on the branch. -/
theorem has_branch_of_conflict_eq_some (h : Tree.conflict lex tree id = some conflict)
    (value : Bool) :
    (tree.branch id).has conflict.sentence value = true := by
  obtain ⟨-, hagainst, v, hvalue, hopposite⟩ := of_conflict_eq_some h
  by_cases hsame : v = value
  · subst hsame
    exact has_branch.mpr ⟨id, mem_ancestry_self .., hvalue⟩
  · rw [← Bool.eq_not.mpr (Ne.symm hsame)] at hopposite
    exact has_branch.mpr ⟨conflict.against, hagainst, hopposite⟩

/-- A node has a conflict if and only if it clashes with its branch. -/
theorem isSome_conflict (lex : Lexicon) (tree : Tree) (id : NodeId) :
    (Tree.conflict lex tree id).isSome = tree.clashes id := by
  rw [Bool.eq_iff_iff, clashes, branch, ancestry, List.map_cons, Branch.clashes_cons]
  constructor
  · intro hsome
    obtain ⟨conflict, hconflict⟩ := Option.isSome_iff_exists.mp hsome
    obtain ⟨-, hagainst, value, hvalue, hopposite⟩ := of_conflict_eq_some hconflict
    exact ⟨conflict.sentence, value, hvalue, has_branch.mpr ⟨_, hagainst, hopposite⟩⟩
  · rintro ⟨k, value, hvalue, hopposite⟩
    obtain ⟨n, hn, hother⟩ := has_branch.mp hopposite
    have hmem : ⟨k, value⟩ ∈ lex.arrange (tree.content id).facts :=
      Lexicon.mem_arrange.mpr (Assignment.mem_facts.mpr hvalue)
    rw [Tree.conflict, List.findSome?_isSome_iff]
    refine ⟨_, hmem, ?_⟩
    rw [Option.isSome_map, List.find?_isSome]
    exact ⟨n, hn, hother⟩

theorem find?_clashes_bind (lex : Lexicon) (tree : Tree) (ids : List NodeId) :
    (ids.find? tree.clashes).bind (Tree.conflict lex tree) =
      ids.findSome? (Tree.conflict lex tree) := by
  induction ids with
  | nil => rfl
  | cons id ids ih =>
      rw [List.find?_cons, List.findSome?_cons, ← isSome_conflict lex tree id]
      cases hconflict : Tree.conflict lex tree id with
      | none => exact ih
      | some conflict => exact hconflict

/-- The conflict on the way to a node is the first that a node of the way has. -/
theorem Coherent.pathConflict_eq (h : tree.Coherent) (lex : Lexicon) (id : NodeId) :
    pathConflict lex tree id = (tree.path id).findSome? (Tree.conflict lex tree) := by
  unfold pathConflict
  split
  · next hcons =>
      refine (List.findSome?_eq_none_iff.mpr fun n hn => ?_).symm
      rw [← Option.not_isSome_iff_eq_none, isSome_conflict, Bool.not_eq_true]
      exact h.isPathConsistent_iff.mp hcons n (List.mem_reverse.mp hn)
  · exact find?_clashes_bind lex tree (tree.path id)

/-- The way to a node has a conflict if and only if its branch is inconsistent. -/
theorem Coherent.pathConflict_eq_none (h : tree.Coherent) (lex : Lexicon) (id : NodeId) :
    pathConflict lex tree id = none ↔ tree.isPathConsistent id = true := by
  rw [h.pathConflict_eq, List.findSome?_eq_none_iff, h.isPathConsistent_iff]
  simp only [path, List.mem_reverse, ← Option.not_isSome_iff_eq_none, isSome_conflict,
    Bool.not_eq_true]

/-- The conflict on the way to a node is one of a node on that way. -/
theorem of_pathConflict_eq_some (h : pathConflict lex tree id = some conflict) :
    conflict.node ∈ tree.ancestry id ∧ tree.clashes conflict.node = true ∧
      Tree.conflict lex tree conflict.node = some conflict := by
  simp only [pathConflict] at h
  split at h
  · contradiction
  · obtain ⟨n, hn, hconflict⟩ := Option.bind_eq_some_iff.mp h
    have hnode := (of_conflict_eq_some hconflict).1
    have hmem := List.mem_of_find?_eq_some hn
    rw [hnode]
    exact ⟨by simpa [path] using hmem, List.find?_some hn, hconflict⟩

/-- The way to a node goes from earlier to later nodes. -/
theorem Coherent.pairwise_path (h : tree.Coherent) (id : NodeId) :
    (tree.path id).Pairwise (· < ·) :=
  List.pairwise_reverse.mpr (h.ancestral.pairwise id)

/-- The conflict on the way to a node is the first one: above it all branches are consistent. -/
theorem Coherent.isPathConsistent_of_pathConflict (h : tree.Coherent)
    (hconflict : pathConflict lex tree id = some conflict) {ancestor : NodeId}
    (hancestor : ancestor ∈ tree.lineage conflict.node) :
    tree.isPathConsistent ancestor = true := by
  -- nodes are tried in the order of the way, in which ancestors come first
  have hfirst : ∀ n ∈ tree.lineage conflict.node, tree.clashes n = false := by
    intro n hn
    have hnode := (of_pathConflict_eq_some hconflict).1
    rw [h.pathConflict_eq, List.findSome?_eq_some_iff] at hconflict
    obtain ⟨before, node, after, hpath, hof, hbefore⟩ := hconflict
    obtain rfl := (of_conflict_eq_some hof).1
    have hordered := h.pairwise_path id
    have hmem : n ∈ tree.path id := by
      rw [path, List.mem_reverse]
      exact h.mem_ancestry_trans hnode (List.mem_cons_of_mem _ hn)
    have hlt := h.ancestral.lt_of_mem hn
    rw [hpath, List.mem_append, List.mem_cons] at hmem
    rw [hpath, List.pairwise_append, List.pairwise_cons] at hordered
    rcases hmem with hmem | rfl | hmem
    · rw [← isSome_conflict lex, hbefore n hmem, Option.isSome_none]
    · exact absurd hlt (Nat.lt_irrefl _)
    · exact absurd hlt (Nat.lt_asymm (hordered.2.1.1 n hmem))
  apply h.isPathConsistent_iff.mpr
  intro n hn
  have hall := h.mem_ancestry_trans (List.mem_cons_of_mem conflict.node hancestor) hn
  rcases List.mem_cons.mp hall with rfl | hproper
  · exact absurd (h.le_of_mem_ancestry hn) (Nat.not_le.mpr (h.ancestral.lt_of_mem hancestor))
  · exact hfirst n hproper

/-- Below consistent branches the conflict is at the node itself. -/
theorem Coherent.node_of_pathConflict (h : tree.Coherent)
    (habove : ∀ n ∈ tree.lineage id, tree.isPathConsistent n = true)
    (hconflict : pathConflict lex tree id = some conflict) : conflict.node = id := by
  obtain ⟨hnode, hclash, -⟩ := of_pathConflict_eq_some hconflict
  rcases List.mem_cons.mp hnode with hself | hproper
  · exact hself
  · have hnone := h.isPathConsistent_iff.mp (habove _ hproper) _ (mem_ancestry_self ..)
    rw [hclash] at hnone
    contradiction

/-- Opposite values at two nodes of a branch make it inconsistent. -/
theorem isPathConsistent_eq_false {against : NodeId} {k : Key} {value : Bool}
    (hagainst : against ∈ tree.ancestry id) (hvalue : (tree.content id).has k value = true)
    (hopposite : (tree.content against).has k (!value) = true) :
    tree.isPathConsistent id = false := by
  rw [← Bool.not_eq_true]
  intro hcons
  have hnone := Branch.isConsistent_iff.mp hcons k value
    (has_branch.mpr ⟨id, mem_ancestry_self .., hvalue⟩)
  rw [has_branch.mpr ⟨against, hagainst, hopposite⟩] at hnone
  contradiction

/-! Children. -/

/-- A node with something below it has children. -/
theorem Coherent.children_ne_nil (h : tree.Coherent) (hm : m ∈ tree.lineage id) :
    tree.children m ≠ [] := by
  intro hnone
  have hself := h.eq_of_childless hnone (List.mem_cons_of_mem id hm)
  have hlt := h.ancestral.lt_of_mem hm
  rw [hself] at hlt
  exact Nat.lt_irrefl id hlt

/-- Every node that is listed as a child is one. -/
def OwnsChildren (tree : Tree) : Prop :=
  ∀ parent, ∀ child ∈ tree.children parent,
    child < tree.size ∧ tree.lineage child = tree.ancestry parent

theorem OwnsChildren.ancestry_eq (howns : tree.OwnsChildren) {parent child : NodeId}
    (hchild : child ∈ tree.children parent) : tree.ancestry child = child :: tree.ancestry parent :=
  congrArg (child :: ·) (howns parent child hchild).2

/-- Parents come before their children. -/
theorem Coherent.lt_of_mem_children (h : tree.Coherent) (howns : tree.OwnsChildren)
    {parent child : NodeId} (hchild : child ∈ tree.children parent) : parent < child := by
  apply h.ancestral.lt_of_mem
  rw [(howns parent child hchild).2]
  exact mem_ancestry_self ..

theorem ownsChildren_ofRoot (content : Assignment) : (ofRoot content).OwnsChildren := by
  intro parent child hchild
  cases parent with
  | zero => simp [children, node, ofRoot] at hchild
  | succ parent => simp [children, node, ofRoot] at hchild

theorem Adds.ownsChildren {added : Addition} (h : Adds tree id added tree')
    (howns : tree.OwnsChildren) : tree'.OwnsChildren := by
  intro parent child hchild
  rw [h.children] at hchild
  obtain ⟨hlt, hlineage⟩ := howns parent child hchild
  rw [h.size, h.lineage, h.ancestry]
  exact ⟨hlt, hlineage⟩

theorem OwnsChildren.addChildren (howns : tree.OwnsChildren) (hid : id < tree.size)
    (contents : List Assignment) : (tree.addChildren id contents).1.OwnsChildren := by
  intro parent child hchild
  rcases Nat.lt_or_ge parent tree.size with hold | hnew
  · have hparent : (tree.addChildren id contents).1.ancestry parent = tree.ancestry parent :=
      congrArg (parent :: ·) (lineage_addChildren_of_lt hold)
    rw [children_addChildren_of_lt hold, List.mem_append] at hchild
    rw [size_addChildren, hparent]
    rcases hchild with hchild | hchild
    · obtain ⟨hlt, hlineage⟩ := howns parent child hchild
      rw [lineage_addChildren_of_lt hlt]
      exact ⟨Nat.lt_add_right _ hlt, hlineage⟩
    · split at hchild
      · next heq =>
          subst heq
          obtain ⟨hge, hlt⟩ := List.mem_range'_1.mp hchild
          rcases lineage_addChildren_cases parent contents child with h | ⟨-, -, h⟩ | ⟨h, -⟩
          · exact absurd h (Nat.not_lt.mpr hge)
          · exact ⟨hlt, h⟩
          · exact absurd hlt (Nat.not_lt.mpr h)
      · simp at hchild
  · rw [children_addChildren_of_le hnew] at hchild
    exact absurd hchild List.not_mem_nil

theorem OwnsChildren.split {inf : Inference} {alternatives : List Outcome} {leaves : List NodeId}
    (howns : tree.OwnsChildren) (hleaves : ∀ leaf ∈ leaves, leaf < tree.size) :
    (inf.split alternatives tree leaves).1.OwnsChildren := by
  induction leaves generalizing tree with
  | nil => exact howns
  | cons leaf leaves ih =>
      apply ih (howns.addChildren (hleaves leaf List.mem_cons_self) _)
      intro other hother
      rw [size_addChildren]
      exact Nat.lt_add_right _ (hleaves other (List.mem_cons_of_mem leaf hother))

/-- A leaf of a graft gets children. -/
theorem Grafts.children_ne_nil {leaves created : List NodeId} {contents : List Assignment}
    (h : Grafts tree leaves contents tree' created) (hcoh : tree.Coherent) {leaf : NodeId}
    (hleaf : leaf ∈ leaves) (hcontents : contents ≠ []) : tree'.children leaf ≠ [] := by
  obtain ⟨content, hcontent⟩ := List.exists_mem_of_ne_nil contents hcontents
  obtain ⟨child, -, hnode⟩ := h.exists_created hleaf hcontent
  have hparent : leaf ∈ tree'.lineage child := by
    rw [Tree.lineage, hnode]
    exact mem_ancestry_self ..
  exact (h.coherent hcoh).children_ne_nil hparent

/-- The new nodes have no children. -/
theorem Grafts.children_of_mem_created {leaves created : List NodeId} {contents : List Assignment}
    (h : Grafts tree leaves contents tree' created) (hm : m ∈ created) : tree'.children m = [] := by
  obtain ⟨leaf, -, content, -, hnode⟩ := h.exists_of_mem_created hm
  rw [Tree.children, hnode]
  rfl

/-! Leaves. -/

/-- Collecting leaves adds those of every child in turn. -/
theorem collectLeaves_eq (tree : Tree) (fuel : Nat) (id : NodeId) (found : List NodeId) :
    tree.collectLeaves fuel id found = found ++ tree.leavesBelow fuel id := by
  induction fuel generalizing id found with
  | zero => simp [collectLeaves, leavesBelow]
  | succ fuel ih =>
      have hchildren : ∀ (children found : List NodeId), children.foldl (fun found child =>
          if tree.clashes child then found else tree.collectLeaves fuel child found) found =
            found ++ (children.filter fun child => !tree.clashes child).flatMap
              (tree.leavesBelow fuel) := by
        intro children
        induction children with
        | nil => simp
        | cons child children ihc =>
            intro found
            rw [List.foldl_cons, ihc]
            by_cases hclash : tree.clashes child = true
            · simp [hclash]
            · simp [hclash, ih]
      simp only [collectLeaves, leavesBelow, hchildren]
      split
      · next hnone =>
          rw [List.isEmpty_iff] at hnone
          simp [hnone]
      · rfl

/-- The leaves below a node are the nodes without children below it, if no node on the way
down clashes.  The fuel suffices since children come later than their parents. -/
theorem Coherent.mem_leavesBelow (h : tree.Coherent) (howns : tree.OwnsChildren) {fuel : Nat}
    (hid : id < tree.size) (hfuel : tree.size ≤ fuel + id) :
    m ∈ tree.leavesBelow fuel id ↔ id ∈ tree.ancestry m ∧ tree.children m = [] ∧
      ∀ n ∈ tree.ancestry m, n ∉ tree.ancestry id → tree.clashes n = false := by
  induction fuel generalizing id with
  | zero => exact absurd hid (Nat.not_lt.mpr (Nat.zero_add id ▸ hfuel))
  | succ fuel ih =>
      have hlater : ∀ child ∈ tree.children id, id < child :=
        fun _ hchild => h.lt_of_mem_children howns hchild
      have hchild : ∀ child ∈ tree.children id, (m ∈ tree.leavesBelow fuel child ↔
          child ∈ tree.ancestry m ∧ tree.children m = [] ∧
            ∀ n ∈ tree.ancestry m, n ∉ tree.ancestry child → tree.clashes n = false) := by
        intro child hchild
        apply ih (howns id child hchild).1
        calc tree.size ≤ fuel + 1 + id := hfuel
          _ = fuel + (id + 1) := by rw [Nat.add_assoc, Nat.add_comm 1]
          _ ≤ fuel + child := Nat.add_le_add_left (hlater child hchild) fuel
      simp only [leavesBelow]
      split
      · next hnone =>
          rw [List.isEmpty_iff] at hnone
          rw [List.mem_singleton]
          constructor
          · rintro rfl
            exact ⟨mem_ancestry_self .., hnone, fun n hn hnot => absurd hn hnot⟩
          · rintro ⟨hmem, -⟩
            exact (h.eq_of_childless hnone hmem).symm
      · next hsome =>
          rw [List.isEmpty_iff] at hsome
          simp only [List.mem_flatMap, List.mem_filter, Bool.not_eq_true']
          constructor
          · rintro ⟨child, ⟨hlisted, hclash⟩, hmem⟩
            obtain ⟨hbelow, hleaf, hway⟩ := (hchild child hlisted).mp hmem
            have hup : id ∈ tree.ancestry child := by
              rw [howns.ancestry_eq hlisted]
              exact List.mem_cons_of_mem child (mem_ancestry_self ..)
            refine ⟨h.mem_ancestry_trans hbelow hup, hleaf, ?_⟩
            intro n hn hnot
            by_cases hself : n = child
            · rw [hself]
              exact hclash
            · apply hway n hn
              rw [howns.ancestry_eq hlisted, List.mem_cons]
              exact not_or.mpr ⟨hself, hnot⟩
          · rintro ⟨hbelow, hleaf, hway⟩
            have hproper : id ∈ tree.lineage m := by
              rcases List.mem_cons.mp hbelow with rfl | hproper
              · exact absurd hleaf hsome
              · exact hproper
            obtain ⟨child, hmem, hlineage⟩ := h.ancestral.exists_child hproper
            have hlisted : child ∈ tree.children id :=
              h.lists_child child id (by simp [hlineage])
            have hnot : child ∉ tree.ancestry id := fun hup =>
              Nat.not_lt.mpr (h.le_of_mem_ancestry hup) (hlater child hlisted)
            refine ⟨child, ⟨hlisted, hway child hmem hnot⟩, (hchild child hlisted).mpr ?_⟩
            refine ⟨hmem, hleaf, fun n hn hout => hway n hn fun hup => hout ?_⟩
            rw [howns.ancestry_eq hlisted]
            exact List.mem_cons_of_mem child hup

/-- The leaves below a node are the nodes without children at or below it whose branches are
consistent. -/
theorem Coherent.mem_leaves (h : tree.Coherent) (howns : tree.OwnsChildren) (hid : id < tree.size) :
    m ∈ tree.leaves id ↔
      id ∈ tree.ancestry m ∧ tree.children m = [] ∧ tree.isPathConsistent m = true := by
  simp only [leaves, collectLeaves_eq, List.nil_append]
  split
  · next hcons =>
      have habove := h.isPathConsistent_iff.mp hcons
      rw [h.mem_leavesBelow howns hid (Nat.le_add_right tree.size id), h.isPathConsistent_iff]
      constructor
      · rintro ⟨hup, hleaf, hway⟩
        refine ⟨hup, hleaf, fun n hn => ?_⟩
        by_cases hin : n ∈ tree.ancestry id
        · exact habove n hin
        · exact hway n hn hin
      · rintro ⟨hup, hleaf, hway⟩
        exact ⟨hup, hleaf, fun n hn _ => hway n hn⟩
  · next hcons =>
      simp only [List.not_mem_nil, false_iff]
      rintro ⟨hup, -, hconsistent⟩
      exact hcons (h.isPathConsistent_of_mem hup hconsistent)

theorem lt_size_of_mem_ancestry (hid : id < tree.size) (hup : id ∈ tree.ancestry m) :
    m < tree.size := by
  rcases Nat.lt_or_ge m tree.size with hlt | hge
  · exact hlt
  · simp only [ancestry, node_eq_of_size_le hge, List.mem_singleton] at hup
    exact hup ▸ hid

/-- The leaves below the root are the nodes without children whose branches are
consistent. -/
theorem Coherent.mem_leaves_root (h : tree.Coherent) (howns : tree.OwnsChildren)
    (hroot : NodeId.root < tree.size) :
    m ∈ tree.leaves NodeId.root ↔
      m < tree.size ∧ tree.children m = [] ∧ tree.isPathConsistent m = true := by
  rw [h.mem_leaves howns hroot]
  exact and_congr_left fun _ => ⟨lt_size_of_mem_ancestry hroot, h.root_mem_ancestry⟩

end Tableau.Tree
