import Mathlib.Data.Fintype.Card
import Mathlib.Logic.Relation

/-!
# Dominators

A node of a flow graph dominates another one if every path from the entry to the other one
passes it. Paths are followed edge by edge: a node is not dominated exactly if a path that
avoids the would-be dominator reaches it.

## Main definitions

* `Avoids`, `Dominates`, `StrictlyDominates`
* `DominatorTree`, `DominatorTree.findNearestCommonDominator`: the tree of immediate
  dominators, and the walk up to a common one

## Main results

* `strictlyDominates_of_edges`: what dominates all sources of the edges into a node
  strictly dominates the node
* `StrictlyDominates.card_lt`: a strictly dominated node has more dominators
* `DominatorTree.findNearestCommonDominator_spec`: the walk ends at a common dominator
-/

namespace TVMCompiler.Lib

section Dominates

variable {V : Type*} (entry : V) (edge : V → V → Prop)

/-- A path from the entry that does not pass `d` reaches the node. -/
inductive Avoids (d : V) : V → Prop
  | entry : entry ≠ d → Avoids d entry
  | step {u v : V} : Avoids d u → edge u v → v ≠ d → Avoids d v

/-- Every path from the entry to `v` passes `d`. -/
def Dominates (d v : V) : Prop := ¬ Avoids entry edge d v

def StrictlyDominates (d v : V) : Prop := Dominates entry edge d v ∧ d ≠ v

variable {entry edge} {a b c d v : V}

theorem Avoids.ne (h : Avoids entry edge d v) : v ≠ d := by
  cases h with
  | entry hne => exact hne
  | step _ _ hne => exact hne

theorem dominates_refl (d : V) : Dominates entry edge d d := fun h => h.ne rfl

theorem dominates_entry (v : V) : Dominates entry edge entry v := by
  intro h
  induction h with
  | entry hne => exact hne rfl
  | step _ _ _ ih => exact ih

/-- A dominator of a node that can be reached can be reached. -/
theorem Dominates.reachable (h : Dominates entry edge d v)
    (hreach : Relation.ReflTransGen edge entry v) : Relation.ReflTransGen edge entry d := by
  by_contra hnot
  -- no path from the entry passes such a node
  have hpath (w : V) (hw : Relation.ReflTransGen edge entry w) : Avoids entry edge d w := by
    induction hw with
    | refl => exact .entry fun h => hnot (h ▸ .refl)
    | @tail w x hw hwx ih => exact ih.step hwx fun h => hnot (h ▸ hw.tail hwx)
  exact h (hpath v hreach)

/-- A path that avoids `a` avoids `b` too, or it passes `b`. -/
theorem Avoids.or (h : Avoids entry edge a v) (b : V) :
    Avoids entry edge b v ∨ Avoids entry edge a b := by
  induction h with
  | entry hne =>
    by_cases hb : entry = b
    · exact Or.inr (hb ▸ .entry hne)
    · exact Or.inl (.entry hb)
  | @step u v hu huv hne ih =>
    rcases ih with ih | ih
    · by_cases hb : v = b
      · exact Or.inr (hb ▸ hu.step huv hne)
      · exact Or.inl (ih.step huv hb)
    · exact Or.inr ih

theorem Dominates.trans (hab : Dominates entry edge a b) (hbc : Dominates entry edge b c) :
    Dominates entry edge a c := fun h => (h.or b).elim hbc hab

/-- What dominates the source of each edge into a node dominates the node. -/
theorem dominates_of_edges (hentry : v ≠ entry)
    (h : ∀ u, edge u v → Dominates entry edge d u) : Dominates entry edge d v := by
  intro havoids
  cases havoids with
  | entry _ => exact hentry rfl
  | step hu huv _ => exact h _ huv hu

/-- A path to a node comes to it for the first time over some edge. -/
theorem exists_first_edge (hreach : Relation.ReflTransGen edge entry v) (hentry : v ≠ entry) :
    ∃ u, edge u v ∧ Avoids entry edge v u := by
  have hpath (w : V) (hw : Relation.ReflTransGen edge entry w) :
      Avoids entry edge v w ∨ ∃ u, edge u v ∧ Avoids entry edge v u := by
    induction hw with
    | refl => exact Or.inl (.entry (Ne.symm hentry))
    | @tail w x _ hwx ih =>
      rcases ih with ih | ih
      · by_cases hx : x = v
        · exact Or.inr ⟨w, hx ▸ hwx, ih⟩
        · exact Or.inl (ih.step hwx hx)
      · exact Or.inr ih
  exact (hpath v hreach).resolve_left fun h => h.ne rfl

/-- **Dominating the edges**: a node other than the entry that can be reached is strictly
dominated by what dominates the source of each edge into it. -/
theorem strictlyDominates_of_edges (hreach : Relation.ReflTransGen edge entry v)
    (hentry : v ≠ entry) (h : ∀ u, edge u v → Dominates entry edge d u) :
    StrictlyDominates entry edge d v := by
  refine ⟨dominates_of_edges hentry h, ?_⟩
  rintro rfl
  obtain ⟨u, hu, havoids⟩ := exists_first_edge hreach hentry
  exact h u hu havoids

theorem Dominates.antisymm (hreach : Relation.ReflTransGen edge entry b)
    (hab : Dominates entry edge a b) (hba : Dominates entry edge b a) : a = b := by
  by_contra hne
  -- no path comes to one of the two first
  have hpath (w : V) (hw : Relation.ReflTransGen edge entry w) :
      Avoids entry edge a w ∧ Avoids entry edge b w := by
    induction hw with
    | refl =>
      constructor
      · refine .entry ?_
        rintro rfl
        exact hba (.entry hne)
      · refine .entry ?_
        rintro rfl
        exact hab (.entry (Ne.symm hne))
    | @tail w x _ hwx ih =>
      obtain ⟨iha, ihb⟩ := ih
      constructor
      · refine iha.step hwx ?_
        rintro rfl
        exact hba (ihb.step hwx hne)
      · refine ihb.step hwx ?_
        rintro rfl
        exact hab (iha.step hwx (Ne.symm hne))
  exact (hpath b hreach).2.ne rfl

open Classical in
/-- The nodes that dominate `v`. -/
noncomputable def dominators [Fintype V] (entry : V) (edge : V → V → Prop) (v : V) : Finset V :=
  Finset.univ.filter fun d => Dominates entry edge d v

/-- **The dominator tree is well founded**: a strictly dominated node has more dominators. -/
theorem StrictlyDominates.card_lt [Fintype V] (hreach : Relation.ReflTransGen edge entry v)
    (h : StrictlyDominates entry edge d v) :
    (dominators entry edge d).card < (dominators entry edge v).card := by
  refine Finset.card_lt_card (Finset.ssubset_iff_of_subset ?_ |>.mpr ⟨v, ?_, ?_⟩)
  · intro c hc
    have hcd : Dominates entry edge c d := by simpa [dominators] using hc
    simpa [dominators] using hcd.trans h.1
  · simpa [dominators] using dominates_refl v
  · intro hv
    have hvd : Dominates entry edge v d := by simpa [dominators] using hv
    exact h.2 (h.1.antisymm hreach hvd)

end Dominates

/-! ## The dominator tree -/

section Tree

variable {V : Type*} (entry : V) (edge : V → V → Prop)

/-- `d` is the strict dominator of `v` that all others dominate. -/
def ImmediatelyDominates (d v : V) : Prop :=
  StrictlyDominates entry edge d v ∧
    ∀ c, StrictlyDominates entry edge c v → Dominates entry edge c d

/-- The tree of immediate dominators: the parent of each node but the root, and its depth. -/
structure DominatorTree where
  idom : V → Option V
  level : V → ℕ
  immediate : ∀ v d, idom v = some d → ImmediatelyDominates entry edge d v
  root : ∀ v, Relation.ReflTransGen edge entry v → idom v = none → v = entry
  level_idom : ∀ v d, idom v = some d → level v = level d + 1
  level_root : ∀ v, idom v = none → level v = 0

variable {entry edge}

namespace DominatorTree

section Walk

variable [DecidableEq V] (t : DominatorTree entry edge)

/-- The walk up from two nodes, the deeper one first. -/
def walkUp : ℕ → V → V → Option V
  | 0, _, _ => none
  | fuel + 1, a, b =>
    if a = b then some a
    else if t.level a < t.level b then (t.idom b).bind fun b => walkUp fuel b a
    else (t.idom a).bind fun a => walkUp fuel a b

/-- `findNearestCommonDominator`. -/
def findNearestCommonDominator (a b : V) : Option V :=
  if a = entry ∨ b = entry then some entry else t.walkUp (t.level a + t.level b + 1) a b

end Walk

variable {t : DominatorTree entry edge} {a b : V}

/-- The parent of a node that can be reached can be reached, and dominates it. -/
theorem idom_spec {v d : V} (hreach : Relation.ReflTransGen edge entry v)
    (h : t.idom v = some d) :
    Relation.ReflTransGen edge entry d ∧ Dominates entry edge d v ∧ t.level v = t.level d + 1 := by
  have hdom := (t.immediate v d h).1.1
  exact ⟨hdom.reachable hreach, hdom, t.level_idom v d h⟩

/-- Two different nodes that can be reached are not both the root, and the deeper one is not. -/
theorem idom_ne_none (ha : Relation.ReflTransGen edge entry a)
    (hb : Relation.ReflTransGen edge entry b) (hne : a ≠ b) (hlevel : t.level b ≤ t.level a) :
    t.idom a ≠ none := by
  intro hroot
  have hlevel_b : t.level b = 0 := by
    rw [t.level_root a hroot] at hlevel
    exact Nat.le_zero.mp hlevel
  have hroot_b : t.idom b = none := by
    rw [Option.eq_none_iff_forall_ne_some]
    intro d hd
    have := t.level_idom b d hd
    omega
  exact hne ((t.root a ha hroot).trans (t.root b hb hroot_b).symm)

theorem walkUp_spec [DecidableEq V] {fuel : ℕ} (ha : Relation.ReflTransGen edge entry a)
    (hb : Relation.ReflTransGen edge entry b) (hfuel : t.level a + t.level b < fuel) :
    ∃ c, t.walkUp fuel a b = some c ∧ Relation.ReflTransGen edge entry c ∧
      Dominates entry edge c a ∧ Dominates entry edge c b := by
  induction fuel generalizing a b with
  | zero => omega
  | succ fuel ih =>
    unfold walkUp
    split_ifs with hab hlevel
    · subst hab
      exact ⟨a, rfl, ha, dominates_refl a, dominates_refl a⟩
    · obtain ⟨d, hd⟩ := Option.ne_none_iff_exists'.mp (idom_ne_none hb ha (Ne.symm hab) hlevel.le)
      obtain ⟨hreach, hdom, hstep⟩ := idom_spec hb hd
      obtain ⟨c, hc, hc_reach, hcd, hca⟩ := ih hreach ha (by omega)
      exact ⟨c, by rw [hd]; exact hc, hc_reach, hca, hcd.trans hdom⟩
    · obtain ⟨d, hd⟩ := Option.ne_none_iff_exists'.mp (idom_ne_none ha hb hab (Nat.not_lt.mp hlevel))
      obtain ⟨hreach, hdom, hstep⟩ := idom_spec ha hd
      obtain ⟨c, hc, hc_reach, hcd, hcb⟩ := ih hreach hb (by omega)
      exact ⟨c, by rw [hd]; exact hc, hc_reach, hcd.trans hdom, hcb⟩

/-- **The walk up the tree ends at a common dominator.** -/
theorem findNearestCommonDominator_spec [DecidableEq V] (t : DominatorTree entry edge)
    (ha : Relation.ReflTransGen edge entry a)
    (hb : Relation.ReflTransGen edge entry b) :
    ∃ c, t.findNearestCommonDominator a b = some c ∧ Relation.ReflTransGen edge entry c ∧
      Dominates entry edge c a ∧ Dominates entry edge c b := by
  unfold findNearestCommonDominator
  split
  · exact ⟨entry, rfl, .refl, dominates_entry a, dominates_entry b⟩
  · exact walkUp_spec ha hb (Nat.lt_succ_self _)

/-- The nearest common dominator of several nodes, one after the other. -/
theorem foldlM_findNearestCommonDominator_spec [DecidableEq V] {nodes : List V}
    (ha : Relation.ReflTransGen edge entry a)
    (hnodes : ∀ v ∈ nodes, Relation.ReflTransGen edge entry v) :
    ∃ c, nodes.foldlM t.findNearestCommonDominator a = some c ∧ Dominates entry edge c a ∧
      ∀ v ∈ nodes, Dominates entry edge c v := by
  induction nodes generalizing a with
  | nil => exact ⟨a, rfl, dominates_refl a, by simp⟩
  | cons b nodes ih =>
    obtain ⟨hb, hnodes⟩ := List.forall_mem_cons.mp hnodes
    obtain ⟨d, hd, hreach, hda, hdb⟩ := t.findNearestCommonDominator_spec ha hb
    obtain ⟨c, hc, hcd, hrest⟩ := ih hreach hnodes
    refine ⟨c, ?_, hcd.trans hda, List.forall_mem_cons.mpr ⟨hcd.trans hdb, hrest⟩⟩
    rw [List.foldlM_cons, hd]
    exact hc

end DominatorTree

end Tree

end TVMCompiler.Lib
