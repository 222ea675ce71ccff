import Mathlib.Data.List.Find
import Mathlib.Data.List.NodupEquivFin
import TVMCompiler.Pass.ControlFlowPrepare

/-!
# Phis behind clean-up blocks

The whole pass splits the edges into the blocks with several predecessors. A phi has one entry
for each clean-up block afterwards if no block has two branches to its block; otherwise the
first of two clean-up blocks takes both entries.

## Main definitions

* `IRFunction.Several`, `IRFunction.UniqueEdges`
* `EdgesSplit`: the function after the pass

## Main results

* `IRFunction.prepare_loop`: the loop over the blocks splits the edges into those with several
  predecessors
* `EdgesSplit.preserves_iff`, `IRFunction.prepare_preserves_iff`: when the phis are preserved
-/

namespace TVMCompiler

/-! ## The whole pass -/

theorem count_flatMap_replicate (f : ℕ → ℕ) (n p : ℕ) :
    ((List.range n).flatMap fun q => List.replicate (f q) q).count p = if p < n then f p else 0 := by
  induction n with
  | zero => simp
  | succ n ih =>
    rw [List.range_succ, List.flatMap_append, List.count_append, ih]
    simp only [List.flatMap_cons, List.flatMap_nil, List.append_nil, List.count_replicate,
      beq_iff_eq]
    rcases Nat.lt_trichotomy p n with hlt | rfl | hgt
    · rw [if_pos hlt, if_neg (by omega), if_pos (by omega), Nat.add_zero]
    · rw [if_neg (Nat.lt_irrefl p), if_pos rfl, if_pos (Nat.lt_succ_self p), Nat.zero_add]
    · rw [if_neg (by omega), if_neg (by omega), if_neg (by omega)]

namespace IRFunction

variable {F : IRFunction} {b p : ℕ}

theorem count_preds (F : IRFunction) (b p : ℕ) :
    (F.preds b).count p = if p < F.size then (F.succs p).count b else 0 :=
  count_flatMap_replicate (fun q => (F.succs q).count b) F.size p

theorem mem_preds : p ∈ F.preds b ↔ p < F.size ∧ b ∈ F.succs p := by
  rw [← List.count_pos_iff, count_preds, ← List.count_pos_iff]
  split <;> simp_all

/-- A block of `F` below `k` with several predecessors. -/
def Several (F : IRFunction) (k b : ℕ) : Prop := b < k ∧ b < F.size ∧ 2 ≤ (F.preds b).length

/-- The terminators that lead to a block with several predecessors are branches. -/
def BranchesOnly (F : IRFunction) (k : ℕ) : Prop :=
  ∀ b, F.Several k b → ∀ p ∈ F.preds b, ∀ l, (F.block p).terminator ≠ .other l

theorem foldlM_singleton {α β : Type*} (f : β → α → Option β) (b : β) (a : α) :
    (some b >>= fun b => [a].foldlM f b) = f b a := by
  simp

/-- **The loop over the blocks splits the edges into those with several predecessors.** -/
theorem prepare_loop (hF : F.Valid) (o : PredOrder) {k : ℕ} (hk : k ≤ F.size) :
    ((∃ G, (List.range k).foldlM (prepareBlock o) F = some G) ↔ F.BranchesOnly k) ∧
    ∀ G, (List.range k).foldlM (prepareBlock o) F = some G →
      Splitting F (F.Several k) G ∧ ∀ b, F.Several k b → ∀ p < F.size, b ∉ G.succs p := by
  induction k with
  | zero =>
    refine ⟨iff_of_true ⟨F, rfl⟩ fun b hb => absurd hb.1 (Nat.not_lt_zero b), ?_⟩
    rintro G hG
    obtain rfl : F = G := Option.some.inj hG
    exact ⟨.refl hF _, fun b hb => absurd hb.1 (Nat.not_lt_zero b)⟩
  | succ k ih =>
    obtain ⟨hiff, hrun⟩ := ih (Nat.le_of_succ_le hk)
    have hkF : k < F.size := hk
    have hmono : ∀ b, F.Several k b → F.Several (k + 1) b := fun b hb =>
      ⟨Nat.lt_succ_of_lt hb.1, hb.2⟩
    have hnot : ¬ F.Several k k := fun h => Nat.lt_irrefl k h.1
    -- a block below `k + 1` is one below `k`, or `k` itself
    have hcases : ∀ b, F.Several (k + 1) b → F.Several k b ∨ b = k ∧ F.Several (k + 1) k := by
      intro b hb
      rcases Nat.lt_succ_iff_lt_or_eq.mp hb.1 with hlt | rfl
      · exact Or.inl ⟨hlt, hb.2⟩
      · exact Or.inr ⟨rfl, hb⟩
    rw [List.range_succ, List.foldlM_append]
    cases hrunk : (List.range k).foldlM (prepareBlock o) F with
    | none =>
      rw [hrunk] at hiff
      refine ⟨iff_of_false (by rintro ⟨G, hG⟩; cases hG) fun hall => ?_, by rintro G hG; cases hG⟩
      obtain ⟨G, hG⟩ := hiff.mpr fun b hb => hall b (hmono b hb)
      cases hG
    | some G =>
      obtain ⟨hs, hclear⟩ := hrun G hrunk
      rw [hrunk] at hiff
      have hbranches := hiff.mp ⟨G, rfl⟩
      have hpreds : G.preds k = F.preds k := hs.preds_eq hkF hnot
      by_cases hmany : (F.preds k).length > 1
      · have hD : F.Several (k + 1) k := ⟨Nat.lt_succ_self k, hkF, hmany⟩
        have horder := o.perm G k
        rw [hpreds] at horder
        obtain ⟨hsome, hloop⟩ := (hs.mono hmono).foldlM_insertCleanupBB hF hkF hD (o.order G k)
          (fun p hp => (mem_preds.mp (horder.mem_iff.mp hp)).1)
          (fun p hp => by
            rw [horder.count_eq, count_preds, if_pos hp, hs.count p hp k hkF hnot])
        rw [foldlM_singleton, prepareBlock, hpreds, if_pos hmany]
        refine ⟨?_, ?_⟩
        · refine hsome.trans ⟨fun hall b hb p hp => ?_, fun hall p hp => ?_⟩
          · rcases hcases b hb with hb | ⟨rfl, -⟩
            · exact hbranches b hb p hp
            · exact hall p (horder.mem_iff.mpr hp)
          · exact hall k hD p (horder.mem_iff.mp hp)
        · intro H hH
          obtain ⟨hHs, hHb⟩ := hloop H hH
          refine ⟨hHs, fun b hb p hp => ?_⟩
          rcases hcases b hb with hb | ⟨rfl, -⟩
          · exact (hHb p hp).2 b hb.2.1 (hclear b hb p hp)
          · exact (hHb p hp).1
      · have hsame : ∀ b, F.Several (k + 1) b → F.Several k b := by
          intro b hb
          rcases hcases b hb with hb | ⟨rfl, hb⟩
          · exact hb
          · exact absurd hb.2.2 hmany
        rw [foldlM_singleton, prepareBlock, hpreds, if_neg hmany]
        refine ⟨iff_of_true ⟨G, rfl⟩ fun b hb => hbranches b (hsame b hb), ?_⟩
        rintro H hH
        obtain rfl : G = H := Option.some.inj hH
        exact ⟨hs.mono hmono, fun b hb => hclear b (hsame b hb)⟩

/-- No block has two branches to `b`. -/
def UniqueEdges (F : IRFunction) (b : ℕ) : Prop :=
  ∀ p < F.size, ∀ i j : ℕ, (F.succs p)[i]? = some b → (F.succs p)[j]? = some b → i = j

theorem two_le_count_iff {l : List ℕ} {a : ℕ} :
    2 ≤ l.count a ↔ ∃ i j : ℕ, i ≠ j ∧ l[i]? = some a ∧ l[j]? = some a := by
  rw [← List.duplicate_iff_two_le_count, List.duplicate_iff_exists_distinct_get]
  constructor
  · rintro ⟨i, j, hlt, hi, hj⟩
    refine ⟨i, j, Nat.ne_of_lt hlt, ?_, ?_⟩
    · rw [List.getElem?_eq_getElem i.isLt, hi]
      rfl
    · rw [List.getElem?_eq_getElem j.isLt, hj]
      rfl
  · rintro ⟨i, j, hne, hi, hj⟩
    obtain ⟨hil, hi⟩ := List.getElem?_eq_some_iff.mp hi
    obtain ⟨hjl, hj⟩ := List.getElem?_eq_some_iff.mp hj
    rcases Nat.lt_or_gt_of_ne hne with hlt | hgt
    · exact ⟨⟨i, hil⟩, ⟨j, hjl⟩, hlt, hi.symm, hj.symm⟩
    · exact ⟨⟨j, hjl⟩, ⟨i, hil⟩, hgt, hj.symm, hi.symm⟩

theorem UniqueEdges.nodup_preds (h : F.UniqueEdges b) : (F.preds b).Nodup := by
  refine List.nodup_iff_count_le_one.mpr fun p => ?_
  rw [count_preds]
  split
  · rename_i hp
    by_contra hlt
    obtain ⟨i, j, hne, hi, hj⟩ := two_le_count_iff.mp (Nat.lt_of_not_le hlt)
    exact hne (h p hp i j hi hj)
  · exact Nat.zero_le 1

/-- A block with two branches to `b` makes up two of its predecessors. -/
theorem several_of_two_edges (hb : b < F.size) (hp : p < F.size) {i j : ℕ} (hne : i ≠ j)
    (hi : (F.succs p)[i]? = some b) (hj : (F.succs p)[j]? = some b) : F.Several F.size b := by
  refine ⟨hb, hb, ?_⟩
  calc 2 ≤ (F.succs p).count b := two_le_count_iff.mpr ⟨i, j, hne, hi, hj⟩
    _ = (F.preds b).count p := by rw [count_preds, if_pos hp]
    _ ≤ (F.preds b).length := List.count_le_length

end IRFunction

theorem getIncomingValueForBlock_rename {r : ℕ → ℕ} {c p : ℕ} {φ : PHINode}
    (h : ∀ e ∈ φ.incoming, r e.2 = c ↔ e.2 = p) :
    (φ.rename r).getIncomingValueForBlock c = φ.getIncomingValueForBlock p := by
  simp only [PHINode.getIncomingValueForBlock, PHINode.rename, List.find?_map, Option.map_map]
  have hfind : φ.incoming.find? ((fun e : ℕ × ℕ => decide (e.2 = c)) ∘ fun e => (e.1, r e.2)) =
      φ.incoming.find? fun e => decide (e.2 = p) :=
    List.find?_congr fun e he => decide_eq_decide.mpr (h e he)
  rw [hfind]
  rfl

/-- The function after the pass: the edges into each block with several predecessors, and no
others, are split. -/
structure EdgesSplit (F G : IRFunction) : Prop where
  valid : F.Valid
  splitting : Splitting F (F.Several F.size) G
  clear : ∀ b, F.Several F.size b → ∀ p < F.size, b ∉ G.succs p

namespace EdgesSplit

variable {F G : IRFunction} {b p : ℕ}

/-- The edges to a block with a single predecessor are kept, and so are its phis. -/
theorem phis_eq (h : EdgesSplit F G) (hb : b < F.size) (hnot : ¬ F.Several F.size b) :
    (G.block b).phis = (F.block b).phis := by
  obtain ⟨r, hr, hedges⟩ := h.splitting.phis b hb
  have hself : ∀ q < F.size, b ∈ F.succs q → r q = q := by
    intro q hq hbq
    rcases hedges q hq hbq with ⟨hrq, -⟩ | ⟨i, hiF, hiG, hir⟩
    · exact hrq
    · rcases h.splitting.edge q hq i b (r q) hiF hiG with heq | ⟨-, hlt, hto⟩
      · omega
      · -- a clean-up block would lead to `b`
        obtain ⟨b', hD, -, hblock⟩ := h.splitting.created (r q) hir hlt
        rw [IRFunction.succs, hblock, Terminator.succs] at hto
        obtain rfl : b' = b := (List.cons.inj hto).1
        exact absurd hD hnot
  conv_rhs => rw [← List.map_id (F.block b).phis]
  rw [hr]
  refine List.map_congr_left fun φ hφ => rename_eq_self fun e he => ?_
  have hmem : e.2 ∈ F.preds b :=
    (h.valid.entries b hb φ hφ).mem_iff.mp (List.mem_map_of_mem he)
  exact hself e.2 (IRFunction.mem_preds.mp hmem).1 (IRFunction.mem_preds.mp hmem).2

/-- A phi of a block with several predecessors names clean-up blocks only. -/
theorem exists_rename (h : EdgesSplit F G) (hb : F.Several F.size b) :
    ∃ r : ℕ → ℕ, (G.block b).phis = (F.block b).phis.map (PHINode.rename r) ∧
      ∀ q ∈ F.preds b, ∃ i : ℕ, (F.succs q)[i]? = some b ∧ (G.succs q)[i]? = some (r q) ∧
        F.size ≤ r q := by
  obtain ⟨r, hr, hedges⟩ := h.splitting.phis b hb.1
  refine ⟨r, hr, fun q hq => ?_⟩
  obtain ⟨hqF, hbq⟩ := IRFunction.mem_preds.mp hq
  rcases hedges q hqF hbq with ⟨-, hkept⟩ | hsplit
  · obtain ⟨i, hi⟩ := List.mem_iff_getElem?.mp hbq
    exact absurd (List.mem_of_getElem? (hkept i hi)) (h.clear b hb q hqF)
  · exact hsplit

/-- The predecessors of a block with several ones are the clean-up blocks on its edges. -/
theorem mem_preds (h : EdgesSplit F G) (hb : F.Several F.size b) {c : ℕ} :
    c ∈ G.preds b ↔ ∃ p < F.size, ∃ i : ℕ, (F.succs p)[i]? = some b ∧ (G.succs p)[i]? = some c := by
  rw [IRFunction.mem_preds]
  constructor
  · rintro ⟨hlt, hbc⟩
    have hle : F.size ≤ c := by
      by_contra hltF
      exact h.clear b hb c (by omega) hbc
    obtain ⟨p, hp, i, hi⟩ := h.splitting.onto c hle hlt
    obtain ⟨s, hs⟩ := h.splitting.exists_succ hp hi
    refine ⟨p, hp, i, ?_, hi⟩
    rcases h.splitting.edge p hp i s c hs hi with rfl | ⟨-, -, hto⟩
    · exact absurd (h.valid.succ_lt p hp _ (List.mem_of_getElem? hs)) (by omega)
    · rw [hto, List.mem_singleton] at hbc
      rw [hs, hbc]
  · rintro ⟨p, hp, i, hiF, hiG⟩
    rcases h.splitting.edge p hp i b c hiF hiG with rfl | ⟨-, hlt, hto⟩
    · exact absurd (List.mem_of_getElem? hiG) (h.clear c hb p hp)
    · exact ⟨hlt, by rw [hto]; exact List.mem_singleton_self b⟩

theorem nodup_preds (h : EdgesSplit F G) (hb : F.Several F.size b) : (G.preds b).Nodup := by
  refine List.nodup_iff_count_le_one.mpr fun c => ?_
  rw [IRFunction.count_preds]
  split
  · rename_i hlt
    rcases Nat.lt_or_ge c F.size with hc | hc
    · rw [List.count_eq_zero.mpr (h.clear b hb c hc)]
      exact Nat.zero_le 1
    · obtain ⟨b', -, -, hblock⟩ := h.splitting.created c hc hlt
      rw [IRFunction.succs, hblock]
      exact List.count_le_length
  · exact Nat.zero_le 1

/-- With unique edges, the renaming is one-to-one between the predecessors before and after. -/
theorem rename_eq_iff (h : EdgesSplit F G) (hunique : F.UniqueEdges b)
    {r : ℕ → ℕ} (hr : ∀ q ∈ F.preds b, ∃ i : ℕ, (F.succs q)[i]? = some b ∧
      (G.succs q)[i]? = some (r q) ∧ F.size ≤ r q) {q c i : ℕ} (hq : q ∈ F.preds b)
    (hp : p < F.size) (hiF : (F.succs p)[i]? = some b) (hiG : (G.succs p)[i]? = some c) :
    r q = c ↔ q = p := by
  obtain ⟨j, hjF, hjG, hjr⟩ := hr q hq
  constructor
  · rintro rfl
    exact (h.splitting.inj q (IRFunction.mem_preds.mp hq).1 p hp j i (r q) hjr hjG hiG).1
  · rintro rfl
    obtain rfl := hunique q hp i j hiF hjF
    exact Option.some.inj (hjG.symm.trans hiG)

/-- With unique edges, the phis of a block with several predecessors have one entry for each. -/
theorem entries_of_unique (h : EdgesSplit F G) (hb : F.Several F.size b)
    (hunique : F.UniqueEdges b) {φ : PHINode} (hφ : φ ∈ (G.block b).phis) :
    (φ.incoming.map Prod.snd).Perm (G.preds b) := by
  obtain ⟨r, hphis, hr⟩ := h.exists_rename hb
  rw [hphis] at hφ
  obtain ⟨ψ, hψ, rfl⟩ := List.mem_map.mp hφ
  have hentries := h.valid.entries b hb.1 ψ hψ
  have hblocks : (ψ.rename r).incoming.map Prod.snd = (ψ.incoming.map Prod.snd).map r := by
    simp [PHINode.rename]
  rw [hblocks]
  refine (hentries.map r).trans ((List.perm_ext_iff_of_nodup ?_ (h.nodup_preds hb)).mpr ?_)
  · -- the renaming is injective on the predecessors
    refine hunique.nodup_preds.map_on fun q hq q' hq' heq => ?_
    obtain ⟨i, hiF, hiG, -⟩ := hr q' hq'
    exact (h.rename_eq_iff hunique hr hq (IRFunction.mem_preds.mp hq').1 hiF hiG).mp heq
  · intro c
    rw [List.mem_map, h.mem_preds hb]
    constructor
    · rintro ⟨q, hq, rfl⟩
      obtain ⟨i, hiF, hiG, -⟩ := hr q hq
      exact ⟨q, (IRFunction.mem_preds.mp hq).1, i, hiF, hiG⟩
    · rintro ⟨p, hp, i, hiF, hiG⟩
      have hmem : p ∈ F.preds b := IRFunction.mem_preds.mpr ⟨hp, List.mem_of_getElem? hiF⟩
      exact ⟨p, hmem, (h.rename_eq_iff hunique hr hmem hp hiF hiG).mpr rfl⟩

/-- With unique edges, each branch leads to the same block with the same values. -/
theorem follow_eq (h : EdgesSplit F G)
    (hunique : ∀ b < F.size, (F.block b).phis ≠ [] → F.UniqueEdges b) (hp : p < F.size) (i : ℕ) :
    G.follow F.size p i = F.follow F.size p i := by
  cases hs' : (G.succs p)[i]? with
  | none =>
    have hs : (F.succs p)[i]? = none := by
      rw [List.getElem?_eq_none_iff, ← h.splitting.length p hp]
      exact List.getElem?_eq_none_iff.mp hs'
    simp [IRFunction.follow, hs, hs']
  | some s' =>
    obtain ⟨s, hs⟩ := h.splitting.exists_succ hp hs'
    have hsF : s < F.size := h.valid.succ_lt p hp s (List.mem_of_getElem? hs)
    have hFfollow : F.follow F.size p i = some (s, F.receives p s) := by
      simp [IRFunction.follow, hs, hsF]
    rw [hFfollow]
    rcases h.splitting.edge p hp i s s' hs hs' with rfl | ⟨hle, -, hto⟩
    · -- the edge has been kept
      have hnot : ¬ F.Several F.size s' :=
        fun hD => h.clear s' hD p hp (List.mem_of_getElem? hs')
      simp [IRFunction.follow, hs', hsF, IRFunction.receives, h.phis_eq hsF hnot]
    · have hGfollow : G.follow F.size p i = some (s, G.receives s' s) := by
        simp [IRFunction.follow, hs', Nat.not_lt.mpr hle, hto]
      rw [hGfollow]
      by_cases hD : F.Several F.size s
      · obtain ⟨r, hphis, hr⟩ := h.exists_rename hD
        have hvalues : G.receives s' s = F.receives p s := by
          rw [IRFunction.receives, hphis, List.map_map, IRFunction.receives]
          refine List.map_congr_left fun φ hφ => getIncomingValueForBlock_rename fun e he => ?_
          have hmem : e.2 ∈ F.preds s :=
            (h.valid.entries s hsF φ hφ).mem_iff.mp (List.mem_map_of_mem he)
          exact h.rename_eq_iff (hunique s hsF (List.ne_nil_of_mem hφ)) hr hmem hp hs hs'
        rw [hvalues]
      · -- the clean-up block would not be there
        have hcount := h.splitting.count p hp s hsF hD
        exfalso
        obtain ⟨b', hDb', -, hblock⟩ :=
          h.splitting.created s' hle (h.splitting.succ_lt h.valid hp hs')
        rw [IRFunction.succs, hblock, Terminator.succs] at hto
        obtain rfl : b' = s := (List.cons.inj hto).1
        exact hD hDb'

theorem path_eq (h : EdgesSplit F G)
    (hunique : ∀ b < F.size, (F.block b).phis ≠ [] → F.UniqueEdges b) (hp : p < F.size)
    (branches : List ℕ) : G.path F.size p branches = F.path F.size p branches := by
  induction branches generalizing p with
  | nil => rfl
  | cons i branches ih =>
    rw [IRFunction.path, IRFunction.path, h.follow_eq hunique hp i]
    cases hfollow : F.follow F.size p i with
    | none => rfl
    | some step =>
      have hstep : step.1 < F.size := by
        simp only [IRFunction.follow] at hfollow
        obtain ⟨s, hs, hrest⟩ := Option.bind_eq_some_iff.mp hfollow
        have hsF := h.valid.succ_lt p hp s (List.mem_of_getElem? hs)
        rw [if_pos hsF] at hrest
        cases hrest
        exact hsF
      change (G.path F.size step.1 branches >>= _) = (F.path F.size step.1 branches >>= _)
      rw [ih hstep]

/-- **After the pass the phis are preserved exactly if no block has two branches to a block with
a phi.** -/
theorem preserves_iff (h : EdgesSplit F G) :
    PreservesPhis F G ↔ ∀ b < F.size, (F.block b).phis ≠ [] → F.UniqueEdges b := by
  constructor
  · intro hkept b hb hne p hp i j hi hj
    by_contra hij
    -- both clean-up blocks are predecessors, and the phi names only one of them
    have hD := IRFunction.several_of_two_edges hb hp hij hi hj
    obtain ⟨φ, hφ⟩ := List.exists_mem_of_ne_nil _ hne
    obtain ⟨r, hphis, hr⟩ := h.exists_rename hD
    have hφG : φ.rename r ∈ (G.block b).phis := by
      rw [hphis]
      exact List.mem_map_of_mem hφ
    have hentries := hkept.entries b (hb.trans_le h.splitting.le) _ hφG
    have hnamed {k : ℕ} (hk : (F.succs p)[k]? = some b) : (G.succs p)[k]? = some (r p) := by
      obtain ⟨hlt, -⟩ := List.getElem?_eq_some_iff.mp hk
      rw [← h.splitting.length p hp] at hlt
      have hc : (G.succs p)[k]? = some (G.succs p)[k] := List.getElem?_eq_getElem hlt
      have hmem : (G.succs p)[k] ∈ (φ.rename r).incoming.map Prod.snd :=
        hentries.mem_iff.mpr ((h.mem_preds hD).mpr ⟨p, hp, k, hk, hc⟩)
      obtain ⟨e', he', heq⟩ := List.mem_map.mp hmem
      obtain ⟨e, he, rfl⟩ := List.mem_map.mp he'
      have hq : e.2 ∈ F.preds b :=
        (h.valid.entries b hb φ hφ).mem_iff.mp (List.mem_map_of_mem he)
      obtain ⟨m, -, hmG, hmr⟩ := hr e.2 hq
      have hec : r e.2 = (G.succs p)[k] := heq
      rw [hec] at hmG hmr
      obtain ⟨hqp, -⟩ := h.splitting.inj e.2 (IRFunction.mem_preds.mp hq).1 p hp m k _ hmr hmG hc
      rw [hc, ← hec, hqp]
    obtain ⟨m, -, -, hmr⟩ := hr p (IRFunction.mem_preds.mpr ⟨hp, List.mem_of_getElem? hi⟩)
    exact hij (h.splitting.inj p hp p hp i j (r p) hmr (hnamed hi) (hnamed hj)).2
  · intro hunique
    refine ⟨fun b hb φ hφ => ?_, fun b hb branches => h.path_eq hunique hb branches⟩
    rcases Nat.lt_or_ge b F.size with hbF | hbF
    · by_cases hD : F.Several F.size b
      · refine h.entries_of_unique hD (hunique b hbF ?_) hφ
        obtain ⟨r, hphis, -⟩ := h.exists_rename hD
        rintro hnil
        rw [hphis, hnil] at hφ
        cases hφ
      · rw [h.phis_eq hbF hD] at hφ
        rw [h.splitting.preds_eq hbF hD]
        exact h.valid.entries b hbF φ hφ
    · obtain ⟨b', -, -, hblock⟩ := h.splitting.created b hbF hb
      rw [hblock] at hφ
      cases hφ

end EdgesSplit

theorem IRFunction.prepare_edgesSplit {F G : IRFunction} (hF : F.Valid) {o : PredOrder}
    (h : F.prepare o = some G) : EdgesSplit F G := by
  obtain ⟨hs, hclear⟩ := (prepare_loop hF o le_rfl).2 G h
  exact ⟨hF, hs, hclear⟩

/-- **The pass preserves the phis exactly if branches alone lead to a block with several
predecessors, and no block has two branches to a block with a phi.** -/
theorem IRFunction.prepare_preserves_iff (o : PredOrder) (F : IRFunction) (hF : F.Valid) :
    (∃ G, F.prepare o = some G ∧ PreservesPhis F G) ↔
      (∀ b < F.size, 2 ≤ (F.preds b).length → ∀ p ∈ F.preds b,
        ∀ l, (F.block p).terminator ≠ .other l) ∧
      ∀ b < F.size, (F.block b).phis ≠ [] → F.UniqueEdges b := by
  have hsome : (∃ G, F.prepare o = some G) ↔ F.BranchesOnly F.size := (prepare_loop hF o le_rfl).1
  have hbranches : F.BranchesOnly F.size ↔ ∀ b < F.size, 2 ≤ (F.preds b).length →
      ∀ p ∈ F.preds b, ∀ l, (F.block p).terminator ≠ .other l :=
    ⟨fun h b hb hlen => h b ⟨hb, hb, hlen⟩, fun h b hb => h b hb.1 hb.2.2⟩
  rw [← hbranches, ← hsome]
  constructor
  · rintro ⟨G, hG, hkept⟩
    exact ⟨⟨G, hG⟩, (prepare_edgesSplit hF hG).preserves_iff.mp hkept⟩
  · rintro ⟨⟨G, hG⟩, hunique⟩
    exact ⟨G, hG, (prepare_edgesSplit hF hG).preserves_iff.mpr hunique⟩

/-- The predecessors in the order of their blocks. -/
def PredOrder.forward : PredOrder := ⟨IRFunction.preds, fun _ _ => List.Perm.refl _⟩

/-- A block that branches to itself or to an exit, whose phi counts the rounds. -/
def loopFunction : IRFunction where
  size := 3
  block
    | 0 => ⟨[], .br 1⟩
    | 1 => ⟨[⟨3, [(10, 0), (11, 1)]⟩], .condBr 4 1 2⟩
    | _ => ⟨[], .other []⟩

theorem loopFunction_valid : loopFunction.Valid := ⟨by decide, by decide, by decide⟩

theorem loopFunction_preserves :
    (∃ G, loopFunction.prepare .forward = some G ∧ PreservesPhis loopFunction G) ↔
      (∀ b < loopFunction.size, 2 ≤ (loopFunction.preds b).length → ∀ p ∈ loopFunction.preds b,
        ∀ l, (loopFunction.block p).terminator ≠ .other l) ∧
      ∀ b < loopFunction.size, (loopFunction.block b).phis ≠ [] → loopFunction.UniqueEdges b :=
  IRFunction.prepare_preserves_iff .forward loopFunction loopFunction_valid

/-- Both branches of the entry lead to the same block. -/
def twoEdges : IRFunction where
  size := 2
  block
    | 0 => ⟨[], .condBr 4 1 1⟩
    | _ => ⟨[⟨3, [(10, 0), (10, 0)]⟩], .other []⟩

/-- The first clean-up block takes both entries of the phi, and the second one has none. -/
theorem twoEdges_not_preserved :
    twoEdges.Valid ∧
      (twoEdges.prepare .forward).map (fun G => ((G.block 1).phis, G.preds 1)) =
        some ([⟨3, [(10, 2), (10, 2)]⟩], [2, 3]) ∧
      ¬ ∃ G, twoEdges.prepare .forward = some G ∧ PreservesPhis twoEdges G := by
  have hrun : (twoEdges.prepare .forward).map (fun G => ((G.block 1).phis, G.preds 1, G.size)) =
      some ([⟨3, [(10, 2), (10, 2)]⟩], [2, 3], 4) := by decide
  refine ⟨⟨by decide, by decide, by decide⟩, by decide, ?_⟩
  rintro ⟨G, hG, hkept⟩
  rw [hG] at hrun
  simp only [Option.map_some, Option.some.injEq, Prod.mk.injEq] at hrun
  obtain ⟨hphis, hpreds, hsize⟩ := hrun
  have hentries := hkept.entries 1 (by omega) ⟨3, [(10, 2), (10, 2)]⟩ (by simp [hphis])
  rw [hpreds] at hentries
  exact absurd hentries (by decide)

end TVMCompiler
