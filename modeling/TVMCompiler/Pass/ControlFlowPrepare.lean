import Mathlib.Data.List.Count
import Mathlib.Data.List.NodupEquivFin
import Mathlib.Logic.Function.Basic

/-!
# Clean-up blocks

`TVMControlFlowPrepare` puts an empty block on each edge into a block with several predecessors.
The edges are split one at a time, and the entries of a phi are renamed by the block they come
from. A block with two branches to the same block has two entries in each of its phis, and the
first renaming takes them both.

## Main definitions

* `IRFunction`: the blocks of a function, with their phis and their terminators
* `insertCleanupBB`, `insertCleanupBBs`, `IRFunction.prepare`: the pass
* `Splitting`: what holds of the function after each edge that is split
* `PreservesPhis`: what the pass should keep

## Main results

* `Splitting.insertCleanupBB`: splitting an edge keeps the invariant
* `Splitting.foldlM_insertCleanupBB`: the loop over the predecessors splits every edge
-/

namespace TVMCompiler

/-- `BranchInst`, unconditional or conditional, and every other terminator. -/
inductive Terminator where
  | br (dest : ℕ)
  | condBr (cond : ℕ) (ifTrue ifFalse : ℕ)
  | other (successors : List ℕ)
  deriving DecidableEq, Repr

/-- The incoming values of a phi, each with its incoming block. -/
structure PHINode where
  result : ℕ
  incoming : List (ℕ × ℕ)
  deriving DecidableEq, Repr

structure BasicBlock where
  phis : List PHINode
  terminator : Terminator
  deriving DecidableEq, Repr

/-- The blocks are numbered from zero on. -/
structure IRFunction where
  size : ℕ
  block : ℕ → BasicBlock

def Terminator.succs : Terminator → List ℕ
  | br dest => [dest]
  | condBr _ ifTrue ifFalse => [ifTrue, ifFalse]
  | other successors => successors

namespace PHINode

/-- `Phi.setIncomingBlock` for each entry whose block is `pred`. -/
def setIncomingBlock (pred new : ℕ) (φ : PHINode) : PHINode :=
  { φ with incoming := φ.incoming.map fun e => (e.1, if e.2 = pred then new else e.2) }

/-- Every incoming block is renamed. -/
def rename (r : ℕ → ℕ) (φ : PHINode) : PHINode :=
  { φ with incoming := φ.incoming.map fun e => (e.1, r e.2) }

/-- The value of the phi on an edge from `pred`. -/
def getIncomingValueForBlock (pred : ℕ) (φ : PHINode) : Option ℕ :=
  (φ.incoming.find? fun e => e.2 = pred).map Prod.fst

end PHINode

namespace IRFunction

variable (F : IRFunction)

def succs (p : ℕ) : List ℕ := (F.block p).terminator.succs

/-- The predecessors of a block, one for each edge. -/
def preds (b : ℕ) : List ℕ :=
  (List.range F.size).flatMap fun p => List.replicate ((F.succs p).count b) p

/-- `BasicBlock::Create`. -/
def createBlock (new : BasicBlock) : IRFunction :=
  ⟨F.size + 1, Function.update F.block F.size new⟩

def setTerminator (p : ℕ) (t : Terminator) : IRFunction :=
  { F with block := Function.update F.block p ⟨(F.block p).phis, t⟩ }

def mapPhis (b : ℕ) (f : PHINode → PHINode) : IRFunction :=
  { F with
    block := Function.update F.block b ⟨(F.block b).phis.map f, (F.block b).terminator⟩ }

@[simp] theorem createBlock_size (new : BasicBlock) : (F.createBlock new).size = F.size + 1 := rfl

@[simp] theorem createBlock_block (new : BasicBlock) (q : ℕ) :
    (F.createBlock new).block q = if q = F.size then new else F.block q :=
  Function.update_apply _ _ _ _

@[simp] theorem setTerminator_size (p : ℕ) (t : Terminator) :
    (F.setTerminator p t).size = F.size := rfl

@[simp] theorem setTerminator_phis (p : ℕ) (t : Terminator) (q : ℕ) :
    ((F.setTerminator p t).block q).phis = (F.block q).phis := by
  by_cases h : q = p
  · subst h
    simp [setTerminator]
  · simp [setTerminator, h]

@[simp] theorem setTerminator_terminator (p : ℕ) (t : Terminator) (q : ℕ) :
    ((F.setTerminator p t).block q).terminator = if q = p then t else (F.block q).terminator := by
  by_cases h : q = p
  · subst h
    simp [setTerminator]
  · simp [setTerminator, h]

@[simp] theorem mapPhis_size (b : ℕ) (f : PHINode → PHINode) : (F.mapPhis b f).size = F.size := rfl

@[simp] theorem mapPhis_terminator (b : ℕ) (f : PHINode → PHINode) (q : ℕ) :
    ((F.mapPhis b f).block q).terminator = (F.block q).terminator := by
  by_cases h : q = b
  · subst h
    simp [mapPhis]
  · simp [mapPhis, h]

@[simp] theorem mapPhis_phis (b : ℕ) (f : PHINode → PHINode) (q : ℕ) :
    ((F.mapPhis b f).block q).phis =
      if q = b then (F.block q).phis.map f else (F.block q).phis := by
  by_cases h : q = b
  · subst h
    simp [mapPhis]
  · simp [mapPhis, h]

end IRFunction

/-! ## The pass -/

/-- `replaceSuccessorWith`. The result is `none` where an assertion fails. -/
def replaceSuccessorWith (originalBB newBB : ℕ) : Terminator → Option Terminator
  | .br dest => if dest = originalBB then some (.br newBB) else none
  | .condBr cond ifTrue ifFalse =>
    if ifTrue = originalBB then some (.condBr cond newBB ifFalse)
    else if ifFalse = originalBB then some (.condBr cond ifTrue newBB)
    else none
  | .other _ => none

/-- One round of the loop of `insertCleanupBBs`: the new block has the number `F.size`. -/
def insertCleanupBB (b : ℕ) (F : IRFunction) (predecessor : ℕ) : Option IRFunction := do
  let terminator ← replaceSuccessorWith b F.size (F.block predecessor).terminator
  return ((F.createBlock ⟨[], .br b⟩).setTerminator predecessor terminator).mapPhis b
    (PHINode.setIncomingBlock predecessor F.size)

/-- The order in which the predecessors of a block are listed; it follows the list of uses. -/
structure PredOrder where
  order : IRFunction → ℕ → List ℕ
  perm : ∀ F b, (order F b).Perm (F.preds b)

def insertCleanupBBs (o : PredOrder) (F : IRFunction) (b : ℕ) : Option IRFunction :=
  (o.order F b).foldlM (insertCleanupBB b) F

def prepareBlock (o : PredOrder) (G : IRFunction) (b : ℕ) : Option IRFunction :=
  if (G.preds b).length > 1 then insertCleanupBBs o G b else some G

/-- `TVMControlFlowPrepare::runOnFunction`. -/
def IRFunction.prepare (o : PredOrder) (F : IRFunction) : Option IRFunction :=
  (List.range F.size).foldlM (prepareBlock o) F

/-! ## Phis and paths -/

namespace IRFunction

/-- What the verifier asks of the edges and the phis of a function. -/
structure Valid (F : IRFunction) : Prop where
  succ_lt : ∀ p < F.size, ∀ s ∈ F.succs p, s < F.size
  entries : ∀ b < F.size, ∀ φ ∈ (F.block b).phis, (φ.incoming.map Prod.snd).Perm (F.preds b)
  values : ∀ b < F.size, ∀ φ ∈ (F.block b).phis, ∀ e ∈ φ.incoming, ∀ e' ∈ φ.incoming,
    e.2 = e'.2 → e.1 = e'.1

variable (F : IRFunction)

/-- The values that the phis of `b` receive on the edge from `p`. -/
def receives (p b : ℕ) : List (Option ℕ) :=
  (F.block b).phis.map (PHINode.getIncomingValueForBlock p)

/-- The block that branch `i` of `b` leads to, and the values its phis receive. A block with a
number from `n` on is passed. -/
def follow (n b i : ℕ) : Option (ℕ × List (Option ℕ)) := do
  let s ← (F.succs b)[i]?
  if s < n then return (s, F.receives b s)
  else
    let t ← (F.succs s)[0]?
    return (t, F.receives s t)

/-- The path from `b` on along the given branches, with the values received on the way. -/
def path (n : ℕ) : ℕ → List ℕ → Option (List (ℕ × List (Option ℕ)))
  | _, [] => some []
  | b, i :: is => do
    let step ← F.follow n b i
    let rest ← path n step.1 is
    return step :: rest

end IRFunction

/-- Each phi has one entry for each predecessor, and receives the same values on each path. -/
structure PreservesPhis (F G : IRFunction) : Prop where
  entries : ∀ b < G.size, ∀ φ ∈ (G.block b).phis, (φ.incoming.map Prod.snd).Perm (G.preds b)
  path : ∀ b < F.size, ∀ branches, G.path F.size b branches = F.path F.size b branches

/-! ## One edge -/

/-- The terminator of a branch is replaced at one of the successors that are the block. -/
theorem replaceSuccessorWith_spec {b new : ℕ} {t t' : Terminator}
    (h : replaceSuccessorWith b new t = some t') :
    (∃ i, t.succs[i]? = some b ∧ t'.succs = t.succs.set i new) ∧
      ∀ l, t ≠ .other l ∧ t' ≠ .other l := by
  cases t with
  | br dest =>
    simp only [replaceSuccessorWith] at h
    split_ifs at h with hdest
    cases h
    exact ⟨⟨0, by simp [Terminator.succs, hdest], rfl⟩, fun l => ⟨nofun, nofun⟩⟩
  | condBr cond ifTrue ifFalse =>
    simp only [replaceSuccessorWith] at h
    split_ifs at h with htrue hfalse
    · cases h
      exact ⟨⟨0, by simp [Terminator.succs, htrue], rfl⟩, fun l => ⟨nofun, nofun⟩⟩
    · cases h
      exact ⟨⟨1, by simp [Terminator.succs, hfalse], rfl⟩, fun l => ⟨nofun, nofun⟩⟩
  | other l => cases h

theorem replaceSuccessorWith_isSome {b new : ℕ} {t : Terminator} (hb : b ∈ t.succs)
    (hother : ∀ l, t ≠ .other l) : ∃ t', replaceSuccessorWith b new t = some t' := by
  cases t with
  | br dest =>
    have hdest : b = dest := List.mem_singleton.mp hb
    exact ⟨_, if_pos hdest.symm⟩
  | condBr cond ifTrue ifFalse =>
    by_cases htrue : ifTrue = b
    · exact ⟨_, if_pos htrue⟩
    · have hfalse : ifFalse = b := by
        rcases List.mem_pair.mp hb with rfl | rfl
        · exact absurd rfl htrue
        · rfl
      exact ⟨_, (if_neg htrue).trans (if_pos hfalse)⟩
  | other l => exact absurd rfl (hother l)

/-- What one round does: it splits one edge from `p` to `b`. -/
theorem insertCleanupBB_spec {b p : ℕ} {G H : IRFunction} (hb : b < G.size) (hp : p < G.size)
    (h : insertCleanupBB b G p = some H) :
    H.size = G.size + 1 ∧ H.block G.size = ⟨[], .br b⟩ ∧
      (∀ q < G.size, q ≠ p → (H.block q).terminator = (G.block q).terminator) ∧
      (∃ i, (G.succs p)[i]? = some b ∧ H.succs p = (G.succs p).set i G.size) ∧
      (∀ l, (G.block p).terminator ≠ .other l ∧ (H.block p).terminator ≠ .other l) ∧
      (∀ q < G.size, q ≠ b → (H.block q).phis = (G.block q).phis) ∧
      (H.block b).phis = (G.block b).phis.map (PHINode.setIncomingBlock p G.size) := by
  obtain ⟨terminator, hterm, hH⟩ := Option.bind_eq_some_iff.mp h
  obtain ⟨hsuccs, hother⟩ := replaceSuccessorWith_spec hterm
  have hbn : b ≠ G.size := Nat.ne_of_lt hb
  have hpn : p ≠ G.size := Nat.ne_of_lt hp
  have hnew : H.block G.size = ⟨(H.block G.size).phis, (H.block G.size).terminator⟩ := rfl
  obtain rfl := Option.some.inj hH
  refine ⟨rfl, ?_, ?_, ?_, ?_, ?_, ?_⟩
  · rw [hnew]
    simp [hbn.symm, hpn.symm]
  · intro q hq hqp
    simp [Nat.ne_of_lt hq, hqp]
  · obtain ⟨i, hi, hset⟩ := hsuccs
    refine ⟨i, hi, ?_⟩
    simpa [IRFunction.succs] using hset
  · intro l
    simpa using hother l
  · intro q hq hqb
    simp [Nat.ne_of_lt hq, hqb]
  · simp [hbn]

/-! ## Edges that are split -/

theorem setIncomingBlock_rename (p new : ℕ) (r : ℕ → ℕ) (φ : PHINode) :
    (φ.rename r).setIncomingBlock p new = φ.rename fun q => if r q = p then new else r q := by
  simp [PHINode.setIncomingBlock, PHINode.rename]

theorem rename_eq_self {r : ℕ → ℕ} {φ : PHINode} (h : ∀ e ∈ φ.incoming, r e.2 = e.2) :
    φ.rename r = φ := by
  have hmap : φ.incoming.map (fun e => (e.1, r e.2)) = φ.incoming := by
    conv_rhs => rw [← List.map_id φ.incoming]
    exact List.map_congr_left fun e he => by rw [h e he, id]
  rw [PHINode.rename, hmap]

/-- `G` is `F` with clean-up blocks on some edges to blocks in `D`. The phis of a block are
renamed by `r`: a predecessor is replaced by the clean-up block on one of its edges, or has
kept all of them. -/
structure Splitting (F : IRFunction) (D : ℕ → Prop) (G : IRFunction) : Prop where
  le : F.size ≤ G.size
  created : ∀ c, F.size ≤ c → c < G.size → ∃ b, D b ∧ b < F.size ∧ G.block c = ⟨[], .br b⟩
  length : ∀ p < F.size, (G.succs p).length = (F.succs p).length
  edge : ∀ p < F.size, ∀ i s s' : ℕ, (F.succs p)[i]? = some s → (G.succs p)[i]? = some s' →
    s' = s ∨ F.size ≤ s' ∧ s' < G.size ∧ G.succs s' = [s]
  inj : ∀ p < F.size, ∀ q < F.size, ∀ i j c : ℕ, F.size ≤ c → (G.succs p)[i]? = some c →
    (G.succs q)[j]? = some c → p = q ∧ i = j
  onto : ∀ c, F.size ≤ c → c < G.size → ∃ p < F.size, ∃ i : ℕ, (G.succs p)[i]? = some c
  count : ∀ p < F.size, ∀ b < F.size, ¬ D b → (G.succs p).count b = (F.succs p).count b
  other : ∀ p < F.size, ∀ l, (G.block p).terminator = .other l ↔ (F.block p).terminator = .other l
  phis : ∀ b < F.size, ∃ r : ℕ → ℕ, (G.block b).phis = (F.block b).phis.map (PHINode.rename r) ∧
    ∀ q < F.size, b ∈ F.succs q →
      (r q = q ∧ ∀ i : ℕ, (F.succs q)[i]? = some b → (G.succs q)[i]? = some b) ∨
      ∃ i : ℕ, (F.succs q)[i]? = some b ∧ (G.succs q)[i]? = some (r q) ∧ F.size ≤ r q

namespace Splitting

variable {F G H : IRFunction} {D D' : ℕ → Prop} {b p : ℕ}

theorem refl (hF : F.Valid) (D : ℕ → Prop) : Splitting F D F where
  le := le_rfl
  created _ hc hlt := absurd hc (Nat.not_le.mpr hlt)
  length _ _ := rfl
  edge _ _ _ _ _ hs hs' := Or.inl (Option.some.inj (hs'.symm.trans hs))
  inj p hp _ _ _ _ c hc hi _ :=
    absurd (hF.succ_lt p hp c (List.mem_of_getElem? hi)) (Nat.not_lt.mpr hc)
  onto _ hc hlt := absurd hc (Nat.not_le.mpr hlt)
  count _ _ _ _ _ := rfl
  other _ _ _ := Iff.rfl
  phis b _ := ⟨id, by
      conv_lhs => rw [← List.map_id (F.block b).phis]
      exact List.map_congr_left fun φ _ => (rename_eq_self fun _ _ => rfl).symm,
    fun _ _ _ => Or.inl ⟨rfl, fun _ h => h⟩⟩

theorem mono (h : Splitting F D G) (hD : ∀ b, D b → D' b) : Splitting F D' G :=
  { h with
    created := fun c hc hlt => by
      obtain ⟨b, hb, hrest⟩ := h.created c hc hlt
      exact ⟨b, hD b hb, hrest⟩
    count := fun p hp b hb hnot => h.count p hp b hb fun hDb => hnot (hD b hDb) }

theorem exists_succ (h : Splitting F D G) (hp : p < F.size) {i s' : ℕ}
    (hs' : (G.succs p)[i]? = some s') : ∃ s, (F.succs p)[i]? = some s := by
  obtain ⟨hi, -⟩ := List.getElem?_eq_some_iff.mp hs'
  rw [h.length p hp] at hi
  exact ⟨_, List.getElem?_eq_getElem hi⟩

/-- Each edge leads to a block of the function. -/
theorem succ_lt (hF : F.Valid) (h : Splitting F D G) (hp : p < F.size) {i s' : ℕ}
    (hs' : (G.succs p)[i]? = some s') : s' < G.size := by
  obtain ⟨s, hs⟩ := h.exists_succ hp hs'
  rcases h.edge p hp i s s' hs hs' with rfl | ⟨-, hlt, -⟩
  · exact (hF.succ_lt p hp _ (List.mem_of_getElem? hs)).trans_le h.le
  · exact hlt

/-- An edge that leads to a block of `F` has not been split. -/
theorem edge_original (h : Splitting F D G) (hp : p < F.size) (hb : b < F.size) {i : ℕ}
    (hi : (G.succs p)[i]? = some b) : (F.succs p)[i]? = some b := by
  obtain ⟨s, hs⟩ := h.exists_succ hp hi
  rcases h.edge p hp i s b hs hi with rfl | ⟨hle, -⟩
  · exact hs
  · exact absurd hb (Nat.not_lt.mpr hle)

/-- **Splitting one more edge keeps the invariant.** -/
theorem insertCleanupBB (hF : F.Valid) (h : Splitting F D G) (hb : b < F.size) (hD : D b)
    (hp : p < F.size) (hstep : insertCleanupBB b G p = some H) : Splitting F D H := by
  have hbG : b < G.size := hb.trans_le h.le
  have hpG : p < G.size := hp.trans_le h.le
  obtain ⟨hsize, hnew, hterm, ⟨k, hk, hset⟩, hother, hphis, hphib⟩ :=
    insertCleanupBB_spec hbG hpG hstep
  have hkF : (F.succs p)[k]? = some b := h.edge_original hp hb hk
  have hle : F.size ≤ H.size := by
    rw [hsize]
    exact h.le.trans (Nat.le_succ _)
  have hsuccs {q : ℕ} (hq : q < G.size) (hqp : q ≠ p) : H.succs q = G.succs q :=
    congrArg Terminator.succs (hterm q hq hqp)
  have hsuccsNew : H.succs G.size = [b] := by rw [IRFunction.succs, hnew, Terminator.succs]
  have hpk : (H.succs p)[k]? = some G.size := by
    obtain ⟨hlt, -⟩ := List.getElem?_eq_some_iff.mp hk
    rw [hset, List.getElem?_set_self hlt]
  -- every other edge is left alone
  have hrest {q i : ℕ} (hq : q < F.size) (hne : ¬ (q = p ∧ i = k)) :
      (H.succs q)[i]? = (G.succs q)[i]? := by
    by_cases hqp : q = p
    · subst hqp
      rw [hset, List.getElem?_set_ne]
      rintro rfl
      exact hne ⟨rfl, rfl⟩
    · rw [hsuccs (hq.trans_le h.le) hqp]
  have hcreated {c : ℕ} (hc : F.size ≤ c) (hlt : c < G.size) : H.succs c = G.succs c :=
    hsuccs hlt (by omega)
  refine ⟨hle, ?_, ?_, ?_, ?_, ?_, ?_, ?_, ?_⟩
  · -- created
    intro c hc hlt
    rcases Nat.lt_or_ge c G.size with hcG | hcG
    · obtain ⟨b', hDb', hb', hblock⟩ := h.created c hc hcG
      refine ⟨b', hDb', hb', ?_⟩
      have hterm' := hterm c hcG (by omega)
      have hphis' := hphis c hcG (by omega)
      rw [hblock] at hterm' hphis'
      calc H.block c = ⟨(H.block c).phis, (H.block c).terminator⟩ := rfl
        _ = ⟨[], .br b'⟩ := by rw [hterm', hphis']
    · obtain rfl : c = G.size := by omega
      exact ⟨b, hD, hb, hnew⟩
  · -- length
    intro q hq
    by_cases hqp : q = p
    · subst hqp
      rw [hset, List.length_set, h.length q hq]
    · rw [hsuccs (hq.trans_le h.le) hqp, h.length q hq]
  · -- edge
    intro q hq i s s' hs hs'
    by_cases hqi : q = p ∧ i = k
    · obtain ⟨rfl, rfl⟩ := hqi
      obtain rfl : b = s := Option.some.inj (hkF.symm.trans hs)
      obtain rfl : G.size = s' := Option.some.inj (hpk.symm.trans hs')
      exact Or.inr ⟨h.le, by omega, hsuccsNew⟩
    · rw [hrest hq hqi] at hs'
      rcases h.edge q hq i s s' hs hs' with rfl | ⟨hle', hlt', hto⟩
      · exact Or.inl rfl
      · exact Or.inr ⟨hle', by omega, by rw [hcreated hle' hlt', hto]⟩
  · -- inj
    intro q hq q' hq' i j c hc hi hj
    by_cases hqi : q = p ∧ i = k
    · obtain ⟨rfl, rfl⟩ := hqi
      obtain rfl : G.size = c := Option.some.inj (hpk.symm.trans hi)
      by_cases hqj : q' = q ∧ j = i
      · exact ⟨hqj.1.symm, hqj.2.symm⟩
      · rw [hrest hq' hqj] at hj
        exact absurd (h.succ_lt hF hq' hj) (Nat.lt_irrefl _)
    · rw [hrest hq hqi] at hi
      by_cases hqj : q' = p ∧ j = k
      · obtain ⟨rfl, rfl⟩ := hqj
        obtain rfl : G.size = c := Option.some.inj (hpk.symm.trans hj)
        exact absurd (h.succ_lt hF hq hi) (Nat.lt_irrefl _)
      · rw [hrest hq' hqj] at hj
        exact h.inj q hq q' hq' i j c hc hi hj
  · -- onto
    intro c hc hlt
    rcases Nat.lt_or_ge c G.size with hcG | hcG
    · obtain ⟨q, hq, i, hi⟩ := h.onto c hc hcG
      refine ⟨q, hq, i, ?_⟩
      rw [hrest hq ?_]
      · exact hi
      · rintro ⟨rfl, rfl⟩
        rw [hk] at hi
        cases hi
        omega
    · obtain rfl : c = G.size := by omega
      exact ⟨p, hp, k, hpk⟩
  · -- count
    intro q hq b' hb' hnot
    by_cases hqp : q = p
    · subst hqp
      obtain ⟨hlt, hget⟩ := List.getElem?_eq_some_iff.mp hk
      have hbb' : b ≠ b' := fun heq => hnot (heq ▸ hD)
      have hGb' : G.size ≠ b' := by
        have := h.le
        omega
      rw [hset, List.count_set hlt, hget, ← h.count q hq b' hb' hnot]
      simp [hbb', hGb']
    · rw [hsuccs (hq.trans_le h.le) hqp, h.count q hq b' hb' hnot]
  · -- other
    intro q hq l
    by_cases hqp : q = p
    · subst hqp
      rw [← h.other q hq l]
      exact iff_of_false (hother l).2 (hother l).1
    · rw [hterm q (hq.trans_le h.le) hqp, h.other q hq l]
  · -- phis
    intro b' hb'
    obtain ⟨r, hr, hedges⟩ := h.phis b' hb'
    by_cases hbb' : b' = b
    · subst hbb'
      refine ⟨fun q => if r q = p then G.size else r q, ?_, ?_⟩
      · rw [hphib, hr, List.map_map]
        exact List.map_congr_left fun φ _ => setIncomingBlock_rename p G.size r φ
      · intro q hq hbq
        dsimp only
        rcases hedges q hq hbq with ⟨hrq, hkept⟩ | ⟨i, hiF, hiG, hir⟩
        · by_cases hqp : q = p
          · -- the first edge from `p` that is split
            subst hqp
            rw [if_pos hrq]
            exact Or.inr ⟨k, hkF, hpk, h.le⟩
          · rw [hrq, if_neg hqp]
            refine Or.inl ⟨rfl, fun i hi => ?_⟩
            rw [hrest hq fun hqi => hqp hqi.1]
            exact hkept i hi
        · rw [if_neg (by omega)]
          refine Or.inr ⟨i, hiF, ?_, hir⟩
          rw [hrest hq ?_]
          · exact hiG
          · rintro ⟨rfl, rfl⟩
            rw [hk] at hiG
            cases hiG
            omega
    · refine ⟨r, by rw [hphis b' (hb'.trans_le h.le) hbb', hr], ?_⟩
      intro q hq hbq
      rcases hedges q hq hbq with ⟨hrq, hkept⟩ | ⟨i, hiF, hiG, hir⟩
      · refine Or.inl ⟨hrq, fun i hi => ?_⟩
        rw [hrest hq ?_]
        · exact hkept i hi
        · rintro ⟨rfl, rfl⟩
          exact hbb' (Option.some.inj (hi.symm.trans hkF))
      · refine Or.inr ⟨i, hiF, ?_, hir⟩
        rw [hrest hq ?_]
        · exact hiG
        · rintro ⟨rfl, rfl⟩
          rw [hk] at hiG
          cases hiG
          omega

/-- As long as edges to `b` are left, another one can be split, if the predecessor ends in a
branch. -/
theorem insertCleanupBB_isSome (h : Splitting F D G) (hp : p < F.size) (hb : b ∈ G.succs p) :
    (∃ H, TVMCompiler.insertCleanupBB b G p = some H) ↔
      ∀ l, (F.block p).terminator ≠ .other l := by
  constructor
  · rintro ⟨H, hstep⟩ l hl
    obtain ⟨terminator, hterm, -⟩ := Option.bind_eq_some_iff.mp hstep
    exact ((replaceSuccessorWith_spec hterm).2 l).1 ((h.other p hp l).mpr hl)
  · intro hother
    obtain ⟨t', ht'⟩ : ∃ t', replaceSuccessorWith b G.size (G.block p).terminator = some t' :=
      replaceSuccessorWith_isSome hb fun l hl => hother l ((h.other p hp l).mp hl)
    exact ⟨_, Option.bind_eq_some_iff.mpr ⟨t', ht', rfl⟩⟩

/-- The edges that one round leaves. -/
theorem count_insertCleanupBB (h : Splitting F D G) (hb : b < F.size) (hp : p < F.size)
    (hstep : TVMCompiler.insertCleanupBB b G p = some H) {q s : ℕ} (hq : q < F.size)
    (hs : s < F.size) :
    (H.succs q).count s = (G.succs q).count s - if q = p ∧ s = b then 1 else 0 := by
  obtain ⟨-, -, hterm, ⟨k, hk, hset⟩, -⟩ :=
    insertCleanupBB_spec (hb.trans_le h.le) (hp.trans_le h.le) hstep
  by_cases hqp : q = p
  · subst hqp
    obtain ⟨hlt, hget⟩ := List.getElem?_eq_some_iff.mp hk
    have hGs : G.size ≠ s := by
      have := h.le
      omega
    rw [hset, List.count_set hlt, hget]
    by_cases hsb : s = b
    · simp [hsb, hsb ▸ hGs]
    · simp [hsb, Ne.symm hsb, hGs]
  · rw [if_neg fun hqs => hqp hqs.1, Nat.sub_zero]
    exact congrArg (fun t => List.count s (Terminator.succs t)) (hterm q (hq.trans_le h.le) hqp)

/-- The edges into a block outside `D` are those of `F`. -/
theorem preds_eq (h : Splitting F D G) (hb : b < F.size) (hnot : ¬ D b) :
    G.preds b = F.preds b := by
  obtain ⟨m, hm⟩ := Nat.exists_eq_add_of_le h.le
  have hcreated : ((List.range m).map (F.size + ·)).flatMap
      (fun p => List.replicate ((G.succs p).count b) p) = [] := by
    refine List.flatMap_eq_nil_iff.mpr fun c hc => ?_
    obtain ⟨j, hj, rfl⟩ := List.mem_map.mp hc
    obtain ⟨b', hDb', -, hblock⟩ := h.created (F.size + j) (Nat.le_add_right _ _)
      (by rw [hm]; exact Nat.add_lt_add_left (List.mem_range.mp hj) _)
    -- a clean-up block leads to a block in `D`
    have hcount : (G.succs (F.size + j)).count b = 0 := by
      refine List.count_eq_zero.mpr ?_
      rw [IRFunction.succs, hblock, Terminator.succs, List.mem_singleton]
      rintro rfl
      exact hnot hDb'
    rw [hcount, List.replicate_zero]
  rw [IRFunction.preds, hm, List.range_add, List.flatMap_append, hcreated, List.append_nil,
    IRFunction.preds]
  refine List.flatMap_congr fun p hp => ?_
  rw [h.count p (List.mem_range.mp hp) b hb hnot]

/-- **The loop over the predecessors splits every edge to the block.** -/
theorem foldlM_insertCleanupBB (hF : F.Valid) (hb : b < F.size) (hD : D b) (ps : List ℕ)
    (h : Splitting F D G) (hps : ∀ p ∈ ps, p < F.size)
    (hcount : ∀ p < F.size, ps.count p = (G.succs p).count b) :
    ((∃ H, ps.foldlM (TVMCompiler.insertCleanupBB b) G = some H) ↔
        ∀ p ∈ ps, ∀ l, (F.block p).terminator ≠ .other l) ∧
      ∀ H, ps.foldlM (TVMCompiler.insertCleanupBB b) G = some H →
        Splitting F D H ∧ ∀ p < F.size, b ∉ H.succs p ∧
          ∀ s < F.size, s ∉ G.succs p → s ∉ H.succs p := by
  induction ps generalizing G with
  | nil =>
    refine ⟨⟨fun _ => nofun, fun _ => ⟨G, rfl⟩⟩, ?_⟩
    rintro H hH
    obtain rfl : G = H := Option.some.inj hH
    refine ⟨h, fun p hp => ⟨?_, fun _ _ hs => hs⟩⟩
    exact List.count_eq_zero.mp (hcount p hp).symm
  | cons p ps ih =>
    have hp : p < F.size := hps p (List.mem_cons_self)
    have hbp : b ∈ G.succs p := by
      refine List.count_pos_iff.mp ?_
      rw [← hcount p hp]
      exact List.count_pos_iff.mpr List.mem_cons_self
    have hsome := h.insertCleanupBB_isSome hp hbp
    rw [List.foldlM_cons]
    cases hstep : TVMCompiler.insertCleanupBB b G p with
    | none =>
      rw [hstep] at hsome
      refine ⟨iff_of_false (by rintro ⟨H, hH⟩; cases hH) fun hall => ?_, by rintro H hH; cases hH⟩
      obtain ⟨H, hH⟩ := hsome.mpr (hall p List.mem_cons_self)
      cases hH
    | some G' =>
      have hG' : Splitting F D G' := h.insertCleanupBB hF hb hD hp hstep
      have hcount' : ∀ q < F.size, ps.count q = (G'.succs q).count b := by
        intro q hq
        have hold := hcount q hq
        rw [h.count_insertCleanupBB hb hp hstep hq hb, ← hold, List.count_cons]
        by_cases hqp : q = p
        · subst hqp
          simp
        · simp [hqp, Ne.symm hqp]
      obtain ⟨hiff, hrun⟩ := ih hG' (fun q hq => hps q (List.mem_cons_of_mem _ hq)) hcount'
      refine ⟨?_, ?_⟩
      · rw [List.forall_mem_cons]
        rw [hstep] at hsome
        exact hiff.trans ⟨fun hall => ⟨hsome.mp ⟨G', rfl⟩, hall⟩, fun hall => hall.2⟩
      · intro H hH
        obtain ⟨hHs, hHb⟩ := hrun H hH
        refine ⟨hHs, fun q hq => ⟨(hHb q hq).1, fun s hs hnot => (hHb q hq).2 s hs ?_⟩⟩
        have hzero := List.count_eq_zero.mpr hnot
        refine List.count_eq_zero.mp ?_
        rw [h.count_insertCleanupBB hb hp hstep hq hs, hzero, Nat.zero_sub]

end Splitting

end TVMCompiler
