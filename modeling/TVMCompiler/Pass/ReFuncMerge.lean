import TVMCompiler.Pass.ReFunc

/-!
# Assigning formats to messages

The merger of `TVMReFunc` takes some of the messages as candidates, and gives each message the
candidate that it agrees with most. A candidate that several messages have is merged with all of
them, and the merged format becomes a function that is called for each of the messages.

## Main definitions

* `Candidate`, `insertCandidate`: the set of candidates, in its order
* `findCandidate`, `mergeCells`: `find_candidate` and `merge_cells`
* `candidatesOf`, `bestCandidate`, `group`, `format`: the passes of `merger::process`
* `Serialized`: a message is serialized by the format of its candidate
* `SameOps`: the messages of a candidate have the same store operations
* `MergesKept`: no merge of these messages misplaces the right part of an operation

## Main results

* `exists_bestCandidate`: each message has a candidate
* `foldl_mergeCells`: the merged format covers the messages, if they have the same operations and
  no merge misplaces a right part
* `serialized_spec`: when all messages are serialized
-/

namespace TVMCompiler.ReFunc

variable {V : Type}

/-- A message cell that a format is made of. -/
structure Candidate (V : Type) where
  val : Builder V
  len : ℕ
  idx : ℕ

/-- `candidate::operator<`. -/
def Candidate.before (c d : Candidate V) : Bool :=
  c.len > d.len || (c.len = d.len && c.idx > d.idx)

/-- `std::set::insert`. -/
def insertCandidate (c : Candidate V) : List (Candidate V) → List (Candidate V)
  | [] => [c]
  | d :: ds =>
    if c.before d then c :: d :: ds
    else if d.before c then d :: insertCandidate c ds
    else d :: ds

/-- The length of the cell of a message. -/
def cellLen (msg : Builder V) : ℕ := 1 + msg.len

/-- The loop of `find_candidate`, from the candidate found so far and what it has in common with the
message. The result is the index of the candidate, 0 for none, and what they have in common. -/
def findFrom (msg : Builder V) : List (Candidate V) → ℕ → ℕ → ℕ × ℕ
  | [], curBest, maxMerge => (curBest, maxMerge)
  | c :: cs, curBest, maxMerge =>
    if c.len > cellLen msg then findFrom msg cs curBest maxMerge
    else
      let m := mergeBuilders c.val msg
      if m.fullEqual || m.leftPrefix then (c.idx, c.len)
      else if m.b.len > maxMerge then
        if m.b.len ≥ c.len then (c.idx, m.b.len) else findFrom msg cs c.idx m.b.len
      else if maxMerge ≥ c.len then (curBest, maxMerge)
      else findFrom msg cs curBest maxMerge

def findCandidate (candidates : List (Candidate V)) (msg : Builder V) : ℕ × ℕ :=
  findFrom msg candidates 0 0

def mergeCells (l r : Builder V) : Builder V :=
  let m := mergeBuilders l r
  if m.fullEqual || m.leftPrefix then l else m.b

/-- The body of the first loop of `merger::process`: short messages are skipped, and a message
becomes a candidate if no candidate has enough in common with it. -/
def addCandidate (candidates : List (Candidate V)) (msg : Builder V) : List (Candidate V) :=
  if cellLen msg < 5 then candidates
  else
    let (bestIdx, maxDepth) := findCandidate candidates msg
    if bestIdx = 0 ∨ maxDepth < min 10 (cellLen msg) ∨ cellLen msg > maxDepth + 5 then
      insertCandidate ⟨msg, cellLen msg, candidates.length + 1⟩ candidates
    else candidates

def candidatesOf (msgs : List (Builder V)) : List (Candidate V) := msgs.foldl addCandidate []

/-- The candidate that a message gets in the second loop. -/
def bestCandidate (msgs : List (Builder V)) (msg : Builder V) : ℕ :=
  (findCandidate (candidatesOf msgs) msg).1

/-- The messages that have a candidate. Their number is its weight. -/
def group (msgs : List (Builder V)) (idx : ℕ) : List (Builder V) :=
  msgs.filter fun msg => 5 ≤ cellLen msg && bestCandidate msgs msg = idx

/-- The candidate with an index. -/
def candidateAt (msgs : List (Builder V)) (idx : ℕ) : Option (Candidate V) :=
  (candidatesOf msgs).find? fun c => c.idx = idx

/-- The format that a candidate becomes. -/
def format (msgs : List (Builder V)) (idx : ℕ) : Option (Builder V) :=
  (candidateAt msgs idx).map fun c => (group msgs idx).foldl mergeCells c.val

/-- The message gets a format with other messages. -/
def Refunctioned (msgs : List (Builder V)) (msg : Builder V) : Prop :=
  5 ≤ cellLen msg ∧ 1 < (group msgs (bestCandidate msgs msg)).length

/-- The format of the message's candidate is the message but for its parameters, and `gen_call`
takes from the message exactly the arguments for these, in their order. -/
def Serialized (msgs : List (Builder V)) (msg : Builder V) : Prop :=
  ∃ fmt, format msgs (bestCandidate msgs msg) = some fmt ∧ ∃ vals, BuilderArguments fmt msg vals

/-- The messages that have the candidate of `msg` store the same as `msg`, and the candidate at
least as much. -/
def SameOps (msgs : List (Builder V)) (msg : Builder V) : Prop :=
  (∀ other ∈ group msgs (bestCandidate msgs msg), other.ops = msg.ops) ∧
    ∀ c, candidateAt msgs (bestCandidate msgs msg) = some c → msg.ops <+: c.val.ops

/-- The merges of messages into a format, one by one, misplace no right part. -/
def RightsKept : Builder V → List (Builder V) → Prop
  | _, [] => True
  | fmt, msg :: msgs => fmt.KeepsRight msg ∧ RightsKept (mergeCells fmt msg) msgs

/-- The messages that have the candidate of `msg` are merged into it so. -/
def MergesKept (msgs : List (Builder V)) (msg : Builder V) : Prop :=
  ∀ c, candidateAt msgs (bestCandidate msgs msg) = some c →
    RightsKept c.val (group msgs (bestCandidate msgs msg))

/-- The last one of these messages is merged so into the format that the others have made. -/
def LastMergeKept (msgs : List (Builder V)) (msg : Builder V) : Prop :=
  ∀ c, candidateAt msgs (bestCandidate msgs msg) = some c →
    ∀ init last, group msgs (bestCandidate msgs msg) = init ++ [last] →
      (init.foldl mergeCells c.val).KeepsRight last

/-! ## Each message has a candidate -/

theorem findFrom_of_lt {msg : Builder V} {cs : List (Candidate V)}
    (h : ∀ c ∈ cs, c.len > cellLen msg) (curBest maxMerge : ℕ) :
    findFrom msg cs curBest maxMerge = (curBest, maxMerge) := by
  induction cs with
  | nil => rfl
  | cons c cs ih =>
    rw [findFrom, if_pos (h c List.mem_cons_self)]
    exact ih fun d hd => h d (List.mem_cons_of_mem _ hd)

/-- The index that is found is that of a candidate, or the one found before. -/
theorem findFrom_idx (msg : Builder V) (cs : List (Candidate V)) (curBest maxMerge : ℕ) :
    (findFrom msg cs curBest maxMerge).1 = curBest ∨
      ∃ c ∈ cs, c.idx = (findFrom msg cs curBest maxMerge).1 := by
  induction cs generalizing curBest maxMerge with
  | nil => exact Or.inl rfl
  | cons c cs ih =>
    have hlater {best depth : ℕ} (h : best = curBest ∨ best = c.idx) :
        (findFrom msg cs best depth).1 = curBest ∨
          ∃ d ∈ c :: cs, d.idx = (findFrom msg cs best depth).1 := by
      rcases ih best depth with heq | ⟨d, hd, hidx⟩
      · rcases h with rfl | rfl
        · exact Or.inl heq
        · exact Or.inr ⟨c, List.mem_cons_self, heq.symm⟩
      · exact Or.inr ⟨d, List.mem_cons_of_mem _ hd, hidx⟩
    rw [findFrom]
    dsimp only
    split_ifs
    · exact hlater (Or.inl rfl)
    · exact Or.inr ⟨c, List.mem_cons_self, rfl⟩
    · exact Or.inr ⟨c, List.mem_cons_self, rfl⟩
    · exact hlater (Or.inr rfl)
    · exact Or.inl rfl
    · exact hlater (Or.inl rfl)

/-- If a candidate is not longer than the message, one is found. -/
theorem exists_findCandidate {msg : Builder V} {cs : List (Candidate V)}
    (h : ∃ c ∈ cs, c.len ≤ cellLen msg) (curBest : ℕ) :
    ∃ c ∈ cs, c.idx = (findFrom msg cs curBest 0).1 := by
  induction cs with
  | nil => simp at h
  | cons c cs ih =>
    rw [findFrom]
    dsimp only
    split_ifs with hlong hfull hmore hlast hall
    · -- the candidate is skipped
      obtain ⟨d, hd, hle⟩ := h
      rcases List.mem_cons.mp hd with rfl | hd
      · omega
      · obtain ⟨e, he, hidx⟩ := ih ⟨d, hd, hle⟩
        exact ⟨e, List.mem_cons_of_mem _ he, hidx⟩
    · exact ⟨c, List.mem_cons_self, rfl⟩
    · exact ⟨c, List.mem_cons_self, rfl⟩
    · rcases findFrom_idx msg cs c.idx (mergeBuilders c.val msg).b.len with heq | ⟨d, hd, hidx⟩
      · exact ⟨c, List.mem_cons_self, heq.symm⟩
      · exact ⟨d, List.mem_cons_of_mem _ hd, hidx⟩
    all_goals
      -- a builder has some length
      rw [Builder.len] at hmore
      omega

theorem mem_insertCandidate {c d : Candidate V} {cs : List (Candidate V)} (h : d ∈ cs) :
    d ∈ insertCandidate c cs := by
  induction cs with
  | nil => exact absurd h List.not_mem_nil
  | cons e es ih =>
    rw [insertCandidate]
    split_ifs
    · exact List.mem_cons_of_mem _ h
    · rcases List.mem_cons.mp h with rfl | h
      · exact List.mem_cons_self
      · exact List.mem_cons_of_mem _ (ih h)
    · exact h

/-- The set has a candidate of the length of the inserted one. -/
theorem exists_insertCandidate (c : Candidate V) (cs : List (Candidate V)) :
    ∃ d ∈ insertCandidate c cs, d.len = c.len := by
  induction cs with
  | nil => exact ⟨c, List.mem_cons_self, rfl⟩
  | cons e es ih =>
    rw [insertCandidate]
    split_ifs with hbefore hafter
    · exact ⟨c, List.mem_cons_self, rfl⟩
    · obtain ⟨d, hd, hlen⟩ := ih
      exact ⟨d, List.mem_cons_of_mem _ hd, hlen⟩
    · refine ⟨e, List.mem_cons_self, ?_⟩
      simp only [Candidate.before, Bool.or_eq_true, Bool.and_eq_true, decide_eq_true_eq] at *
      omega

theorem mem_addCandidate {c : Candidate V} {cs : List (Candidate V)} (h : c ∈ cs)
    (msg : Builder V) : c ∈ addCandidate cs msg := by
  rw [addCandidate]
  dsimp only
  split_ifs
  · exact h
  · exact mem_insertCandidate h
  · exact h

theorem exists_addCandidate {msg : Builder V} (hmsg : 5 ≤ cellLen msg) (cs : List (Candidate V)) :
    ∃ c ∈ addCandidate cs msg, c.len ≤ cellLen msg := by
  rw [addCandidate, if_neg (by omega)]
  dsimp only
  split_ifs with hadd
  · obtain ⟨d, hd, hlen⟩ := exists_insertCandidate ⟨msg, cellLen msg, cs.length + 1⟩ cs
    exact ⟨d, hd, Nat.le_of_eq hlen⟩
  · by_contra hnone
    refine hadd (Or.inl ?_)
    rw [findCandidate, findFrom_of_lt]
    intro c hc
    by_contra hle
    exact hnone ⟨c, hc, by omega⟩

theorem exists_candidatesOf {msgs : List (Builder V)} {msg : Builder V} (hmem : msg ∈ msgs)
    (hmsg : 5 ≤ cellLen msg) : ∃ c ∈ candidatesOf msgs, c.len ≤ cellLen msg := by
  unfold candidatesOf
  generalize ([] : List (Candidate V)) = cs
  have hkeep (c : Candidate V) (ms : List (Builder V)) (cs : List (Candidate V)) (hc : c ∈ cs) :
      c ∈ ms.foldl addCandidate cs := by
    induction ms generalizing cs with
    | nil => exact hc
    | cons m ms ih => exact ih _ (mem_addCandidate hc m)
  induction msgs generalizing cs with
  | nil => exact absurd hmem List.not_mem_nil
  | cons m ms ih =>
    rcases List.mem_cons.mp hmem with rfl | hmem
    · obtain ⟨c, hc, hlen⟩ := exists_addCandidate hmsg cs
      exact ⟨c, hkeep c ms _ hc, hlen⟩
    · exact ih hmem _

/-- **Each message that is long enough has a candidate.** -/
theorem exists_bestCandidate {msgs : List (Builder V)} {msg : Builder V} (hmem : msg ∈ msgs)
    (hmsg : 5 ≤ cellLen msg) : ∃ c, candidateAt msgs (bestCandidate msgs msg) = some c := by
  obtain ⟨c, hc, hidx⟩ := exists_findCandidate (exists_candidatesOf hmem hmsg) 0
  rw [← Option.isSome_iff_exists, candidateAt, List.find?_isSome]
  exact ⟨c, hc, decide_eq_true hidx⟩

/-! ## Merging a group -/

/-- Merging a message that stores what the format begins with. -/
theorem mergeCells_spec {l r : Builder V} (h : r.ops <+: l.ops) :
    (mergeCells l r).ops = r.ops ∧ ((mergeCells l r).Covers r ↔ l.KeepsRight r) ∧
      (l.ops = r.ops → ((mergeCells l r).Covers l ↔ l.KeepsRight r)) := by
  obtain ⟨hops, hbegins⟩ := ops_mergeBuilders h
  obtain ⟨hleft, hright⟩ := mergeBuilders_mergedOf l r
  rw [mergeCells, hbegins, Bool.or_false]
  split_ifs with hequal
  · obtain ⟨hcovers, -, hkeeps⟩ := mergeBuilders_same hequal
    exact ⟨hcovers.ops_eq, iff_of_true hcovers hkeeps, fun _ => iff_of_true (.refl l) hkeeps⟩
  · exact ⟨hops, hright (congrArg List.length hops),
      fun heq => hleft (congrArg List.length (hops.trans heq.symm))⟩

/-- A format that stores what the messages store covers them after the merge, and covers what it
was. -/
theorem foldl_mergeCells_of_eq {ops : List StoreOp} {ms : List (Builder V)} {fmt : Builder V}
    (hms : ∀ m ∈ ms, m.ops = ops) (hfmt : fmt.ops = ops) (hkept : RightsKept fmt ms) :
    (ms.foldl mergeCells fmt).Covers fmt ∧ ∀ m ∈ ms, (ms.foldl mergeCells fmt).Covers m := by
  induction ms generalizing fmt with
  | nil => exact ⟨.refl fmt, nofun⟩
  | cons m ms ih =>
    obtain ⟨hm, hms⟩ := List.forall_mem_cons.mp hms
    obtain ⟨hkeeps, hkept⟩ := hkept
    have heq : fmt.ops = m.ops := hfmt.trans hm.symm
    have hbegins : m.ops <+: fmt.ops := ⟨[], by rw [List.append_nil, heq]⟩
    obtain ⟨hops, hright, hleft⟩ := mergeCells_spec hbegins
    obtain ⟨hmerged, hlater⟩ := ih hms (hops.trans hm) hkept
    exact ⟨hmerged.trans ((hleft heq).mpr hkeeps),
      List.forall_mem_cons.mpr ⟨hmerged.trans (hright.mpr hkeeps), hlater⟩⟩

/-- **The merged format covers the messages**, if they store the same, the candidate at least as
much, and no merge misplaces a right part. -/
theorem foldl_mergeCells {ops : List StoreOp} {ms : List (Builder V)} {fmt : Builder V}
    (hms : ∀ m ∈ ms, m.ops = ops) (hfmt : ops <+: fmt.ops) (hkept : RightsKept fmt ms) :
    ∀ m ∈ ms, (ms.foldl mergeCells fmt).Covers m := by
  cases ms with
  | nil => exact nofun
  | cons m ms =>
    obtain ⟨hm, hms⟩ := List.forall_mem_cons.mp hms
    obtain ⟨hkeeps, hkept⟩ := hkept
    -- the first message cuts the format to its own length
    obtain ⟨hops, hright, -⟩ := mergeCells_spec (hm.symm ▸ hfmt)
    obtain ⟨hmerged, hlater⟩ := foldl_mergeCells_of_eq hms (hops.trans hm) hkept
    exact List.forall_mem_cons.mpr ⟨hmerged.trans (hright.mpr hkeeps), hlater⟩

theorem ops_mergeCells_begins (l r : Builder V) :
    (mergeCells l r).ops <+: l.ops ∧ (mergeCells l r).ops <+: r.ops := by
  obtain ⟨hleft, hright, hprefix⟩ := mergeBuilders_prefix l r
  rw [mergeCells]
  split_ifs with hkeep
  · refine ⟨List.prefix_refl _, ?_⟩
    rcases Bool.or_eq_true_iff.mp hkeep with hequal | hbegins
    · have hsame := (mergeBuilders_same hequal).left.ops_eq
      exact ⟨[], by rw [List.append_nil, hsame]⟩
    · exact hprefix hbegins
  · exact ⟨hleft, hright⟩

/-- A merged format stores what all begin with. -/
theorem ops_foldl_begins (ms : List (Builder V)) (fmt : Builder V) :
    (ms.foldl mergeCells fmt).ops <+: fmt.ops := by
  induction ms generalizing fmt with
  | nil => exact List.prefix_refl _
  | cons m ms ih => exact (ih (mergeCells fmt m)).trans (ops_mergeCells_begins fmt m).1

/-! ## All messages -/

theorem mem_group {msgs : List (Builder V)} {idx : ℕ} {msg : Builder V} :
    msg ∈ group msgs idx ↔ msg ∈ msgs ∧ 5 ≤ cellLen msg ∧ bestCandidate msgs msg = idx := by
  simp [group]

/-- A message is serialized if the format of its candidate covers it. -/
theorem serialized_iff_covers {msgs : List (Builder V)} {msg : Builder V} :
    Serialized msgs msg ↔
      ∃ fmt, format msgs (bestCandidate msgs msg) = some fmt ∧ fmt.Covers msg :=
  exists_congr fun _ => and_congr_right fun _ => Builder.arguments_iff

/-- If all messages are serialized, the format of a candidate covers all that have it. -/
theorem format_covers {msgs : List (Builder V)}
    (h : ∀ msg ∈ msgs, Refunctioned msgs msg → Serialized msgs msg) {msg : Builder V}
    (hrefunc : Refunctioned msgs msg) {c : Candidate V}
    (hc : candidateAt msgs (bestCandidate msgs msg) = some c) :
    ∀ other ∈ group msgs (bestCandidate msgs msg),
      ((group msgs (bestCandidate msgs msg)).foldl mergeCells c.val).Covers other := by
  intro other hother
  obtain ⟨hmem, hlen, hbest⟩ := mem_group.mp hother
  obtain ⟨fmt, hfmt, hcovers⟩ :=
    serialized_iff_covers.mp (h other hmem ⟨hlen, by rw [hbest]; exact hrefunc.2⟩)
  rw [hbest, format, hc] at hfmt
  cases hfmt
  exact hcovers

/-- Messages that one format covers store the same, and its candidate at least as much. -/
theorem sameOps_of_covers {msgs : List (Builder V)} {msg : Builder V} {c : Candidate V}
    (hc : candidateAt msgs (bestCandidate msgs msg) = some c)
    (hself : msg ∈ group msgs (bestCandidate msgs msg))
    (hcovers : ∀ other ∈ group msgs (bestCandidate msgs msg),
      ((group msgs (bestCandidate msgs msg)).foldl mergeCells c.val).Covers other) :
    SameOps msgs msg := by
  refine ⟨fun other hother => ?_, fun c' hc' => ?_⟩
  · exact (hcovers other hother).ops_eq.symm.trans (hcovers msg hself).ops_eq
  · cases hc.symm.trans hc'
    exact (hcovers msg hself).ops_eq ▸ ops_foldl_begins _ c.val

/-- **All messages that get a common format are serialized by it if those with one candidate store
the same, and no merge misplaces a right part.** The first is needed, and so is the second at the
last merge of a candidate, behind which nothing is given up. -/
theorem serialized_spec (msgs : List (Builder V)) :
    ((∀ msg ∈ msgs, Refunctioned msgs msg → SameOps msgs msg ∧ MergesKept msgs msg) →
      ∀ msg ∈ msgs, Refunctioned msgs msg → Serialized msgs msg) ∧
    ((∀ msg ∈ msgs, Refunctioned msgs msg → Serialized msgs msg) →
      ∀ msg ∈ msgs, Refunctioned msgs msg → SameOps msgs msg ∧ LastMergeKept msgs msg) := by
  constructor
  · -- by induction over the merges of the candidate, each covers what the ones before have covered
    intro h msg hmem hrefunc
    obtain ⟨⟨hsame, hcandidate⟩, hkept⟩ := h msg hmem hrefunc
    obtain ⟨c, hc⟩ := exists_bestCandidate hmem hrefunc.1
    have hcovers := foldl_mergeCells hsame (hcandidate c hc) (hkept c hc) msg
      (mem_group.mpr ⟨hmem, hrefunc.1, rfl⟩)
    exact serialized_iff_covers.mpr ⟨_, Option.map_eq_some_iff.mpr ⟨c, hc, rfl⟩, hcovers⟩
  · intro h msg hmem hrefunc
    obtain ⟨c, hc⟩ := exists_bestCandidate hmem hrefunc.1
    have hcovers := format_covers h hrefunc hc
    have hsame := sameOps_of_covers hc (mem_group.mpr ⟨hmem, hrefunc.1, rfl⟩) hcovers
    refine ⟨hsame, fun c' hc' init last hgroup => ?_⟩
    cases hc.symm.trans hc'
    have hlast : last ∈ group msgs (bestCandidate msgs msg) := by
      rw [hgroup]
      exact List.mem_append_right _ List.mem_cons_self
    have hcover := hcovers last hlast
    rw [hgroup, List.foldl_append] at hcover
    -- the format of the others stores at least what the last one stores
    have hbegins : last.ops <+: (init.foldl mergeCells c.val).ops :=
      hcover.ops_eq ▸ (ops_mergeCells_begins _ last).1
    exact (mergeCells_spec hbegins).2.1.mp hcover

/-- A message that stores zeros. -/
def storeZeros : ℕ → Builder ℕ
  | 0 => .newc
  | n + 1 => .chunk (.stu 8) (.constant (some n) 0) (storeZeros n)

/-- A message that stores `x * n + 5`. -/
def storeProduct (n : ℤ) : Builder ℕ :=
  .chunk (.stu 8)
    (.binop none 0 (.binop none 1 (.unknown (some 0)) (.constant none n)) (.constant none 5)) .newc

/-- Two messages of which one begins with the other: both get this one as their format. And two
messages with the same operations: their format is `x * p + x * 3`. -/
theorem serialized_fails :
    (Refunctioned [storeZeros 5, storeZeros 6] (storeZeros 6) ∧
      ¬ Serialized [storeZeros 5, storeZeros 6] (storeZeros 6)) ∧
    (Refunctioned [storeProduct 2, storeProduct 3] (storeProduct 2) ∧
      SameOps [storeProduct 2, storeProduct 3] (storeProduct 2) ∧
        ¬ Serialized [storeProduct 2, storeProduct 3] (storeProduct 2)) := by
  refine ⟨⟨⟨by decide, by decide⟩, ?_⟩, ⟨by decide, by decide⟩, ⟨fun other hother => ?_, ?_⟩, ?_⟩
  · rintro ⟨fmt, hfmt, vals, hcall, -⟩
    cases hfmt
    cases hcall
  · have hgroup : group [storeProduct 2, storeProduct 3]
        (bestCandidate [storeProduct 2, storeProduct 3] (storeProduct 2)) =
          [storeProduct 2, storeProduct 3] := rfl
    rw [hgroup, List.mem_pair] at hother
    rcases hother with rfl | rfl <;> rfl
  · intro c hc
    cases hc
    exact List.prefix_refl _
  · rintro ⟨fmt, hfmt, vals, hcall, -⟩
    cases hfmt
    -- the constant of the message meets the product of the other one
    cases hcall

end TVMCompiler.ReFunc
