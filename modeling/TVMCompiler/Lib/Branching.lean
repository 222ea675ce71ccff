import TVMCompiler.Lib.Simulation
import TVMCompiler.Lib.Ssa

/-!
# Code with branches

The blocks of a function in static single assignment form, with terminators between them. An
instruction may have no behaviour, and then the run is stuck. An instruction that has been replaced
by other code, which may have blocks of its own, leaves the behaviours of the function as they are.

## Main definitions

* `Follows`: every step of a machine has a run of another one
* `Program`, `Program.step`: the blocks with their terminators, and a step of the execution
* `Simulates`: the behaviours of a program are behaviours of another one
* `Program.Forall`, `Program.AllUses`: what holds of the instructions, the values and the blocks
* `Program.Scoped`: the names and the blocks are in use
* `Replaces`: an instruction is replaced by other code

## Main results

* `Follows.trace`, `Follows.unbounded`: runs of a machine that follows another one
* `trace_instrs`: instructions one after the other
* `Replaces.simulates`: the replacement keeps the behaviours
-/

namespace TVMCompiler.Lib

/-! ## Machines that follow one another -/

section Follows

variable {σ τ ε : Type*} {step : σ → Option (Option ε × σ)} {step' : τ → Option (Option ε × τ)}

theorem Trace.append {m n : ℕ} {s t u : σ} {es es' : List ε} (h : Trace step m s es t)
    (h' : Trace step n t es' u) : Trace step (m + n) s (es ++ es') u := by
  induction h with
  | refl s =>
    rw [Nat.zero_add]
    exact h'
  | cons hstep _ ih =>
    rw [List.append_assoc, Nat.add_right_comm]
    exact .cons hstep (ih h')

/-- The machine can take any number of steps. -/
def Unbounded (step : σ → Option (Option ε × σ)) (s : σ) : Prop :=
  ∀ n, ∃ k es t, n ≤ k ∧ Trace step k s es t

/-- Every step of the first machine has a run of the second one to related states, with the same
events. A step may have the empty run if it makes the state smaller. -/
def Follows (step : σ → Option (Option ε × σ)) (step' : τ → Option (Option ε × τ))
    (R : σ → τ → Prop) (size : σ → ℕ) : Prop :=
  ∀ s t, R s t → ∀ e s', step s = some (e, s') →
    ∃ k t', Trace step' k t e.toList t' ∧ R s' t' ∧ (k = 0 → size s' < size s)

variable {R : σ → τ → Prop} {size : σ → ℕ} {s : σ} {t : τ}

theorem Follows.trace (hfollows : Follows step step' R size) {n : ℕ} {es : List ε} {s' : σ}
    (hrun : Trace step n s es s') (h : R s t) : ∃ k t', Trace step' k t es t' ∧ R s' t' := by
  induction hrun generalizing t with
  | refl s => exact ⟨0, t, .refl t, h⟩
  | cons hstep _ ih =>
    obtain ⟨k, t₁, hfirst, hrel, -⟩ := hfollows _ t h _ _ hstep
    obtain ⟨l, t₂, hrest, hlast⟩ := ih hrel
    exact ⟨k + l, t₂, hfirst.append hrest, hlast⟩

theorem Unbounded.of_trace {n : ℕ} {es : List ε} {s' : σ} (hrun : Trace step n s es s')
    (h : Unbounded step s') : Unbounded step s := by
  intro m
  obtain ⟨k, es', u, hk, hrest⟩ := h m
  exact ⟨n + k, _, u, Nat.le_trans hk (Nat.le_add_left k n), hrun.append hrest⟩

/-- A machine that can always go on still can after a step. -/
theorem Unbounded.exists_step (h : Unbounded step s) :
    ∃ e s', step s = some (e, s') ∧ Unbounded step s' := by
  obtain ⟨k, es, u, hk, hrun⟩ := h 1
  cases hrun with
  | refl => exact absurd hk (by decide)
  | @cons _ _ s' _ e _ hstep _ =>
    refine ⟨e, s', hstep, fun n => ?_⟩
    obtain ⟨k, es, u, hk, hrun⟩ := h (n + 1)
    cases hrun with
    | refl => exact absurd hk (Nat.not_succ_le_zero n)
    | @cons k _ s'' _ _ _ hstep' hrest =>
      rw [hstep] at hstep'
      cases hstep'
      exact ⟨k, _, u, Nat.le_of_succ_le_succ hk, hrest⟩

theorem Follows.unbounded (hfollows : Follows step step' R size) (h : R s t)
    (hs : Unbounded step s) : Unbounded step' t := by
  intro n
  induction n generalizing s t with
  | zero => exact ⟨0, [], t, Nat.le_refl 0, .refl t⟩
  | succ n ih =>
    -- the empty run makes the state smaller
    induction hsize : size s using Nat.strongRecOn generalizing s t with
    | ind m ihm =>
      obtain ⟨e, s', hstep, hs'⟩ := hs.exists_step
      obtain ⟨k, t', hrun, hrel, hsmaller⟩ := hfollows s t h e s' hstep
      by_cases hk : k = 0
      · obtain ⟨l, es, u, hl, hrest⟩ := ihm (size s') (hsize ▸ hsmaller hk) hrel hs' rfl
        exact ⟨k + l, _, u, Nat.le_trans hl (Nat.le_add_left l k), hrun.append hrest⟩
      · obtain ⟨l, es, u, hl, hrest⟩ := ih hrel hs'
        refine ⟨k + l, _, u, ?_, hrun.append hrest⟩
        have := Nat.pos_of_ne_zero hk
        omega

end Follows

namespace Ssa

/-! ## Code -/

section Code

variable {Op Ty C V S E : Type}

inductive Terminator (Ty C : Type) where
  | br (dest : ℕ)
  | condBr (cond : Value Ty C) (ifTrue ifFalse : ℕ)
  | ret (v : Value Ty C)

namespace Terminator

def successors : Terminator Ty C → List ℕ
  | br dest => [dest]
  | condBr _ ifTrue ifFalse => [ifTrue, ifFalse]
  | ret _ => []

def operands : Terminator Ty C → List (Value Ty C)
  | br _ => []
  | condBr cond _ _ => [cond]
  | ret v => [v]

end Terminator

/-- The blocks from `nextBlock` on are not in use. A run begins in block 0. -/
structure Program (Op Ty C : Type) extends Function Op Ty C where
  nextBlock : ℕ
  term : ℕ → Terminator Ty C

/-- What the instructions do, and what is seen of them. -/
structure Semantics (Op C V S E : Type) where
  const : C → V
  undef : V
  eval : Op → List V → S → Option (V × S)
  event : Op → List V → Option E
  truth : V → Option Bool

/-- The instructions of the block that are left. -/
structure Config (Op Ty C V S : Type) where
  block : ℕ
  rest : List (Instr Op Ty C)
  env : ℕ → V
  memory : S

namespace Semantics

variable (M : Semantics Op C V S E)

def value (env : ℕ → V) : Value Ty C → V
  | .undef _ => M.undef
  | .const c => M.const c
  | .name n => env n

def args (env : ℕ → V) (i : Instr Op Ty C) : List V := i.operands.map (M.value env)

/-- The phis on an edge from `p`. -/
def assignPhis (p : ℕ) (phis : List (Phi Ty C)) (env : ℕ → V) : ℕ → V := fun n =>
  match findPhi phis n with
  | some φ => ((φ.incoming.find? (·.2 = p)).map fun e => M.value env e.1).getD M.undef
  | none => env n

/-- Instructions one after the other. -/
def exec : List (Instr Op Ty C) → (ℕ → V) × S → Option ((ℕ → V) × S)
  | [], s => some s
  | i :: is, (env, memory) =>
    (M.eval i.op (M.args env i) memory).bind fun r =>
      exec is (Function.update env i.result r.1, r.2)

end Semantics

namespace Program

variable (M : Semantics Op C V S E) (F : Program Op Ty C)

/-- The beginning of the block `q`, on the edge from `p`. -/
def enter (p q : ℕ) (env : ℕ → V) (memory : S) : Config Op Ty C V S :=
  ⟨q, (F.block q).instrs, M.assignPhis p (F.block q).phis env, memory⟩

/-- The terminator of the block. -/
def leave (b : ℕ) (env : ℕ → V) (memory : S) : Option (Option E × Config Op Ty C V S) :=
  match F.term b with
  | .br dest => some (none, F.enter M b dest env memory)
  | .condBr cond ifTrue ifFalse => (M.truth (M.value env cond)).map fun x =>
      (none, F.enter M b (if x then ifTrue else ifFalse) env memory)
  | .ret _ => none

def step (c : Config Op Ty C V S) : Option (Option E × Config Op Ty C V S) :=
  match c.rest with
  | i :: rest => (M.eval i.op (M.args c.env i) c.memory).map fun r =>
      (M.event i.op (M.args c.env i), ⟨c.block, rest, Function.update c.env i.result r.1, r.2⟩)
  | [] => F.leave M c.block c.env c.memory

/-- The value that the function has returned. -/
def returned (c : Config Op Ty C V S) : Option V :=
  match c.rest, F.term c.block with
  | [], .ret v => some (M.value c.env v)
  | _, _ => none

def start (env : ℕ → V) (memory : S) : Config Op Ty C V S := ⟨0, (F.block 0).instrs, env, memory⟩

end Program

/-- The behaviours of the first program are behaviours of the second one: what is seen, what is in
memory, what is returned, and that the run does not end. -/
def Simulates (M : Semantics Op C V S E) (F F' : Program Op Ty C) : Prop :=
  ∀ env memory,
    (∀ n es c, Trace (F.step M) n (F.start env memory) es c →
      ∃ n' c', Trace (F'.step M) n' (F'.start env memory) es c' ∧ c'.memory = c.memory ∧
        ∀ v, F.returned M c = some v → F'.returned M c' = some v) ∧
      (Unbounded (F.step M) (F.start env memory) → Unbounded (F'.step M) (F'.start env memory))

variable {M : Semantics Op C V S E} {F F' F'' : Program Op Ty C}

theorem Simulates.refl (M : Semantics Op C V S E) (F : Program Op Ty C) : Simulates M F F :=
  fun _ _ => ⟨fun n _ c h => ⟨n, c, h, rfl, fun _ hv => hv⟩, fun h => h⟩

theorem Simulates.trans (h : Simulates M F F') (h' : Simulates M F' F'') : Simulates M F F'' := by
  intro env memory
  refine ⟨fun n es c hrun => ?_, fun hrun => (h' env memory).2 ((h env memory).2 hrun)⟩
  obtain ⟨n', c', hrun', hmem, hret⟩ := (h env memory).1 n es c hrun
  obtain ⟨n'', c'', hrun'', hmem', hret'⟩ := (h' env memory).1 n' es c' hrun'
  exact ⟨n'', c'', hrun'', hmem'.trans hmem, fun v hv => hret' v (hret v hv)⟩

/-! ## Runs -/

section Trace

variable {b : ℕ} {env env' : ℕ → V} {memory memory' : S}

theorem exec_append (is is' : List (Instr Op Ty C)) (s : (ℕ → V) × S) :
    M.exec (is ++ is') s = (M.exec is s).bind (M.exec is') := by
  induction is generalizing s with
  | nil => rfl
  | cons i is ih =>
    show (M.eval i.op (M.args s.1 i) s.2).bind _ = _
    rw [Semantics.exec, Option.bind_assoc]
    congr 1
    funext r
    exact ih _

/-- Instructions of which nothing is seen. -/
theorem trace_instrs {is : List (Instr Op Ty C)}
    (h : M.exec is (env, memory) = some (env', memory'))
    (hsilent : ∀ i ∈ is, ∀ args, M.event i.op args = none) (rest : List (Instr Op Ty C)) :
    Trace (F.step M) is.length ⟨b, is ++ rest, env, memory⟩ [] ⟨b, rest, env', memory'⟩ := by
  induction is generalizing env memory with
  | nil =>
    cases h
    exact .refl _
  | cons i is ih =>
    obtain ⟨r, hr, hrest⟩ := Option.bind_eq_some_iff.mp h
    refine .cons (e := none) ?_ (ih hrest fun i hi => hsilent i (List.mem_cons_of_mem _ hi))
    show (M.eval i.op (M.args env i) memory).map _ = _
    rw [hr, Option.map_some, hsilent i List.mem_cons_self]
    rfl

theorem trace_br {dest : ℕ} (h : F.term b = .br dest) :
    Trace (F.step M) 1 ⟨b, [], env, memory⟩ [] (F.enter M b dest env memory) := by
  refine .cons (e := none) ?_ (.refl _)
  show F.leave M b env memory = _
  rw [Program.leave, h]

theorem trace_condBr {cond : Value Ty C} {ifTrue ifFalse : ℕ} {x : Bool}
    (h : F.term b = .condBr cond ifTrue ifFalse) (hx : M.truth (M.value env cond) = some x) :
    Trace (F.step M) 1 ⟨b, [], env, memory⟩ []
      (F.enter M b (if x then ifTrue else ifFalse) env memory) := by
  refine .cons (e := none) ?_ (.refl _)
  show F.leave M b env memory = _
  rw [Program.leave, h]
  show (M.truth (M.value env cond)).map _ = _
  rw [hx]
  rfl

/-- A block without phis. -/
theorem enter_of_phis_nil {q : ℕ} {is : List (Instr Op Ty C)} (h : F.block q = ⟨[], is⟩) (p : ℕ)
    (env : ℕ → V) (memory : S) : F.enter M p q env memory = ⟨q, is, env, memory⟩ := by
  rw [Program.enter, h]
  rfl

/-- **A loop that is counted up to `n`.** -/
theorem trace_loop {σ ε : Type*} {step : σ → Option (Option ε × σ)} {n : ℕ} {P : ℕ → σ → Prop}
    {Q : σ → Prop} (hbody : ∀ i s, i < n → P i s →
      ∃ k s', Trace step k s [] s' ∧ if i + 1 < n then P (i + 1) s' else Q s')
    {i : ℕ} (hi : i < n) {s : σ} (h : P i s) : ∃ k s', Trace step k s [] s' ∧ Q s' := by
  induction hleft : n - i generalizing i s with
  | zero => omega
  | succ m ih =>
    obtain ⟨k, s', hrun, hnext⟩ := hbody i s hi h
    split_ifs at hnext with hlt
    · obtain ⟨l, t, hrest, hQ⟩ := ih hlt hnext (by omega)
      exact ⟨k + l, t, hrun.silent_append hrest, hQ⟩
    · exact ⟨k, s', hrun, hnext⟩

/-- **A loop of one block**, which goes on in the block `next` after `n` rounds. `P` is the state in
front of the `i`-th round, and `Q` the one after `i` rounds. -/
theorem trace_loopBlock {loop ifTrue ifFalse n : ℕ} (next : ℕ) {phis : List (Phi Ty C)}
    {body : List (Instr Op Ty C)} {cond : Value Ty C} {P Q : ℕ → (ℕ → V) → S → Prop}
    (hblock : F.block loop = ⟨phis, body⟩) (hterm : F.term loop = .condBr cond ifTrue ifFalse)
    (hsilent : ∀ i ∈ body, ∀ args, M.event i.op args = none)
    (hbody : ∀ i < n, ∀ env memory, P i env memory → ∃ env' memory' x,
      M.exec body (env, memory) = some (env', memory') ∧ M.truth (M.value env' cond) = some x ∧
      (if x then ifTrue else ifFalse) = (if i + 1 < n then loop else next) ∧
      (i + 1 < n → P (i + 1) (M.assignPhis loop phis env') memory') ∧ Q (i + 1) env' memory')
    (hn : 0 < n) (h : P 0 env memory) :
    ∃ k env' memory', Trace (F.step M) k ⟨loop, body, env, memory⟩ []
      (F.enter M loop next env' memory') ∧ Q n env' memory' := by
  have hround : ∀ i (c : Config Op Ty C V S), i < n →
      (∃ env memory, c = ⟨loop, body, env, memory⟩ ∧ P i env memory) →
      ∃ k c', Trace (F.step M) k c [] c' ∧
        if i + 1 < n then ∃ env memory, c' = ⟨loop, body, env, memory⟩ ∧ P (i + 1) env memory
        else ∃ env memory, c' = F.enter M loop next env memory ∧ Q n env memory := by
    rintro i _ hi ⟨env, memory, rfl, hP⟩
    obtain ⟨env', memory', x, hexec, hx, hdest, hnext, hQ⟩ := hbody i hi env memory hP
    have hrun := trace_instrs (F := F) (b := loop) hexec hsilent []
    rw [List.append_nil] at hrun
    refine ⟨_, _, hrun.silent_append (trace_condBr hterm hx), ?_⟩
    rw [hdest]
    split_ifs with hlt
    · refine ⟨M.assignPhis loop phis env', memory', ?_, hnext hlt⟩
      rw [Program.enter, hblock]
    · obtain rfl : i + 1 = n := by omega
      exact ⟨env', memory', rfl, hQ⟩
  obtain ⟨k, _, hrun, env', memory', rfl, hQ⟩ := trace_loop (Q := fun c : Config Op Ty C V S =>
    ∃ env memory, c = F.enter M loop next env memory ∧ Q n env memory)
    (fun i c => hround i c) hn ⟨env, memory, rfl, h⟩
  exact ⟨k, env', memory', hrun, hQ⟩

end Trace

/-! ## Uses -/

/-- Every instruction has the property `I`, every value of a phi or a terminator has `P`, and every
block that is named has `Q`. -/
structure Program.Forall (F : Program Op Ty C) (I : Instr Op Ty C → Prop) (P : Value Ty C → Prop)
    (Q : ℕ → Prop) : Prop where
  instr : ∀ q, ∀ i ∈ (F.block q).instrs, I i
  incoming : ∀ q, ∀ φ ∈ (F.block q).phis, ∀ e ∈ φ.incoming, P e.1 ∧ Q e.2
  term : ∀ q, ∀ v ∈ (F.term q).operands, P v
  successor : ∀ q, ∀ q' ∈ (F.term q).successors, Q q'

/-- Every value that is used has the property `P`, and every block that is named has `Q`. -/
abbrev Program.AllUses (F : Program Op Ty C) (P : Value Ty C → Prop) (Q : ℕ → Prop) : Prop :=
  F.Forall (fun i => ∀ v ∈ i.operands, P v) P Q

/-- The names and the blocks in use are below `next` and `nextBlock`. -/
structure Program.Scoped (F : Program Op Ty C) : Prop where
  uses : F.AllUses (Value.Below F.next) (· < F.nextBlock)
  entry_lt : 0 < F.nextBlock

/-- Nothing uses the name. -/
def Program.Unused (F : Program Op Ty C) (n : ℕ) : Prop :=
  F.AllUses (· ≠ .name n) fun _ => True

theorem Program.Forall.mono {I I' : Instr Op Ty C → Prop} {P P' : Value Ty C → Prop}
    {Q Q' : ℕ → Prop} (h : F.Forall I P Q) (hI : ∀ i, I i → I' i) (hP : ∀ v, P v → P' v)
    (hQ : ∀ q, Q q → Q' q) : F.Forall I' P' Q' :=
  ⟨fun q i hi => hI i (h.instr q i hi),
    fun q φ hφ e he => ⟨hP _ (h.incoming q φ hφ e he).1, hQ _ (h.incoming q φ hφ e he).2⟩,
    fun q v hv => hP v (h.term q v hv), fun q q' hq => hQ q' (h.successor q q' hq)⟩

section Agree

variable {P : Value Ty C → Prop} {N : Set ℕ} {env env' : ℕ → V}

theorem value_congr (henv : ∀ n ∈ N, env' n = env n) {v : Value Ty C}
    (hv : ∀ n, v = .name n → n ∈ N) : M.value env' v = M.value env v := by
  cases v with
  | undef => rfl
  | const => rfl
  | name n => exact henv n (hv n rfl)

theorem args_congr (henv : ∀ n ∈ N, env' n = env n) {i : Instr Op Ty C}
    (hi : ∀ v ∈ i.operands, ∀ n, v = .name n → n ∈ N) : M.args env' i = M.args env i :=
  List.map_congr_left fun v hv => value_congr henv (hi v hv)

theorem assignPhis_congr (henv : ∀ n ∈ N, env' n = env n) {phis : List (Phi Ty C)}
    (hphis : ∀ φ ∈ phis, ∀ e ∈ φ.incoming, ∀ n, e.1 = .name n → n ∈ N) (p : ℕ) :
    ∀ n ∈ N, M.assignPhis p phis env' n = M.assignPhis p phis env n := by
  intro n hn
  unfold Semantics.assignPhis
  cases hfind : findPhi phis n with
  | none => exact henv n hn
  | some φ =>
    have hφ := List.mem_of_find?_eq_some hfind
    show (Option.map _ _).getD M.undef = (Option.map _ _).getD M.undef
    cases he : φ.incoming.find? (·.2 = p) with
    | none => rfl
    | some e => exact value_congr henv (hphis φ hφ e (List.mem_of_find?_eq_some he))

end Agree

/-! ## An instruction that is replaced -/

/-- The instruction `call` of the block `b` is replaced by code that goes on in the block `last`. -/
structure Replaces (M : Semantics Op C V S E) (F F' : Program Op Ty C) (b last : ℕ)
    (call : Instr Op Ty C) : Prop where
  lt : b < F.nextBlock
  instrs : ∃ pre code post, (F.block b).instrs = pre ++ call :: post ∧
    (F'.block b).instrs = pre ++ code ∧
    ∀ env memory v memory', M.eval call.op (M.args env call) memory = some (v, memory') →
      M.event call.op (M.args env call) = none ∧
      ∃ k env', Trace (F'.step M) k ⟨b, code, env, memory⟩ [] ⟨last, post, env', memory'⟩ ∧
        ∀ n < F.next, env' n = env n
  other : ∀ q < F.nextBlock, q ≠ b →
    (F'.block q).instrs = (F.block q).instrs ∧ F'.term q = F.term q
  term : F'.term last = F.term b
  phis : ∀ p < F.nextBlock, ∀ q ∈ (F.term p).successors, ∀ env,
    M.assignPhis (if p = b then last else p) (F'.block q).phis env =
      M.assignPhis p (F.block q).phis env

section Replaces

variable {b last : ℕ} {call : Instr Op Ty C} {pre code post : List (Instr Op Ty C)}

/-- The states agree in the names of the program, and in what is left of the block, where the code
stands for the instruction. -/
structure Replaced (F : Program Op Ty C) (b last : ℕ) (call : Instr Op Ty C)
    (pre code post : List (Instr Op Ty C)) (c c' : Config Op Ty C V S) : Prop where
  memory : c'.memory = c.memory
  env : ∀ n ∈ {n | n < F.next ∧ n ≠ call.result}, c'.env n = c.env n
  rest : (c.block < F.nextBlock ∧ c.block ≠ b ∧ c'.block = c.block ∧ c'.rest = c.rest ∧
      c.rest <:+ (F.block c.block).instrs) ∨
    (c.block = b ∧ c'.block = b ∧ ∃ pre', pre' <:+ pre ∧ c.rest = pre' ++ call :: post ∧
      c'.rest = pre' ++ code) ∨
    (c.block = b ∧ c'.block = last ∧ c'.rest = c.rest ∧ c.rest <:+ post)

variable (F call) in
/-- The names that are used are the ones that both programs agree on. -/
def UsesAgreed : Prop :=
  F.AllUses (fun v => ∀ n, v = .name n → n ∈ {n | n < F.next ∧ n ≠ call.result}) fun _ => True

theorem Replaced.args {c c' : Config Op Ty C V S} (h : Replaced F b last call pre code post c c')
    (huses : UsesAgreed F call) {q : ℕ} {i : Instr Op Ty C} (hi : i ∈ (F.block q).instrs) :
    M.args c'.env i = M.args c.env i :=
  args_congr h.env (huses.instr q i hi)

/-- An instruction that is in both programs. -/
theorem Replaced.step_instr {c c' : Config Op Ty C V S}
    (h : Replaced F b last call pre code post c c') (F' : Program Op Ty C)
    (huses : UsesAgreed F call) {q : ℕ} {i : Instr Op Ty C}
    (hi : i ∈ (F.block q).instrs) {rest rest' : List (Instr Op Ty C)} (hrest : c.rest = i :: rest)
    (hrest' : c'.rest = i :: rest') {e : Option E} {d : Config Op Ty C V S}
    (hstep : F.step M c = some (e, d)) :
    ∃ d', F'.step M c' = some (e, d') ∧ d.block = c.block ∧ d.rest = rest ∧ d'.block = c'.block ∧
      d'.rest = rest' ∧ d'.memory = d.memory ∧
      ∀ n ∈ {n | n < F.next ∧ n ≠ call.result}, d'.env n = d.env n := by
  obtain ⟨block, _, env, memory⟩ := c
  obtain ⟨block', _, env', memory'⟩ := c'
  obtain rfl : _ = i :: rest := hrest
  obtain rfl : _ = i :: rest' := hrest'
  have hargs : M.args env' i = M.args env i := h.args huses hi
  obtain rfl : memory' = memory := h.memory
  obtain ⟨r, hr, heq⟩ := Option.map_eq_some_iff.mp hstep
  cases heq
  refine ⟨⟨block', rest', Function.update env' i.result r.1, r.2⟩, ?_, rfl, rfl, rfl, rfl, rfl,
    fun n hn => ?_⟩
  · show (M.eval i.op (M.args env' i) memory').map _ = _
    rw [hargs, hr]
    rfl
  · show Function.update env' i.result r.1 n = Function.update env i.result r.1 n
    by_cases hni : n = i.result
    · rw [hni, Function.update_self, Function.update_self]
    · rw [Function.update_of_ne hni, Function.update_of_ne hni]
      exact h.env n hn

/-- The terminators lead to the beginning of the same block. -/
theorem Replaced.leave {c c' : Config Op Ty C V S} (h : Replaced F b last call pre code post c c')
    (hreplaces : Replaces M F F' b last call) (hscoped : F.Scoped) (huses : UsesAgreed F call)
    (hpre : (F.block b).instrs = pre ++ call :: post)
    (hcode : (F'.block b).instrs = pre ++ code) (hlt : c.block < F.nextBlock)
    (hblock : c'.block = if c.block = b then last else c.block) {e : Option E}
    {d : Config Op Ty C V S} (hstep : F.leave M c.block c.env c.memory = some (e, d)) :
    ∃ d', F'.leave M c'.block c'.env c'.memory = some (e, d') ∧
      Replaced F b last call pre code post d d' := by
  have hterm : F'.term c'.block = F.term c.block := by
    rw [hblock]
    split_ifs with hb
    · rw [hb]
      exact hreplaces.term
    · exact (hreplaces.other c.block hlt hb).2
  have hvalue {v : Value Ty C} (hv : v ∈ (F.term c.block).operands) :
      M.value c'.env v = M.value c.env v :=
    value_congr h.env (huses.term _ v hv)
  -- the beginning of a block
  have henter {q : ℕ} (hq : q ∈ (F.term c.block).successors) :
      Replaced F b last call pre code post (F.enter M c.block q c.env c.memory)
        (F'.enter M c'.block q c'.env c'.memory) := by
    have hqlt := hscoped.uses.successor c.block q hq
    refine ⟨h.memory, fun n hn => ?_, ?_⟩
    · show M.assignPhis c'.block (F'.block q).phis c'.env n = _
      rw [hblock, hreplaces.phis c.block hlt q hq c'.env]
      exact assignPhis_congr h.env (fun φ hφ e he => (huses.incoming q φ hφ e he).1) c.block n hn
    · by_cases hqb : q = b
      · subst hqb
        exact Or.inr (Or.inl ⟨rfl, rfl, pre, List.suffix_refl pre, hpre, hcode⟩)
      · exact Or.inl ⟨hqlt, hqb, rfl, (hreplaces.other q hqlt hqb).1, List.suffix_refl _⟩
  unfold Program.leave at hstep ⊢
  rw [hterm]
  cases ht : F.term c.block with
  | br dest =>
    rw [ht] at hstep henter
    cases hstep
    exact ⟨_, rfl, henter List.mem_cons_self⟩
  | condBr cond ifTrue ifFalse =>
    rw [ht] at hstep henter hvalue
    obtain ⟨x, hx, heq⟩ := Option.map_eq_some_iff.mp hstep
    cases heq
    refine ⟨F'.enter M c'.block (if x then ifTrue else ifFalse) c'.env c'.memory, ?_, henter ?_⟩
    · show (M.truth (M.value c'.env cond)).map _ = _
      rw [hvalue List.mem_cons_self, hx]
      rfl
    · cases x
      · exact List.mem_cons_of_mem _ List.mem_cons_self
      · exact List.mem_cons_self
  | ret v =>
    rw [ht] at hstep
    cases hstep

theorem suffix_of_cons_suffix {α : Type} {a : α} {l l' : List α} (h : a :: l <:+ l') : l <:+ l' :=
  (List.suffix_cons a l).trans h

/-- Every step of the program has a run of the one in which the instruction is replaced. -/
theorem Replaces.follows (h : Replaces M F F' b last call) (hscoped : F.Scoped)
    (huses : UsesAgreed F call) (hpre : (F.block b).instrs = pre ++ call :: post)
    (hcode : (F'.block b).instrs = pre ++ code)
    (hrun : ∀ env memory v memory', M.eval call.op (M.args env call) memory = some (v, memory') →
      M.event call.op (M.args env call) = none ∧
      ∃ k env', Trace (F'.step M) k ⟨b, code, env, memory⟩ [] ⟨last, post, env', memory'⟩ ∧
        ∀ n < F.next, env' n = env n) :
    Follows (F.step M) (F'.step M) (Replaced F b last call pre code post)
      fun c => c.rest.length := by
  intro c c' hrel e d hstep
  have hone {d' : Config Op Ty C V S} (hd' : F'.step M c' = some (e, d')) :
      Trace (F'.step M) 1 c' e.toList d' := by
    have hrun := Trace.cons hd' (.refl d')
    rwa [List.append_nil] at hrun
  have hlt : c.block < F.nextBlock := by
    rcases hrel.rest with ⟨hlt, -⟩ | ⟨hcb, -⟩ | ⟨hcb, -⟩
    · exact hlt
    · exact hcb ▸ h.lt
    · exact hcb ▸ h.lt
  have hleave (hrest : c.rest = []) (hrest' : c'.rest = [])
      (hblock : c'.block = if c.block = b then last else c.block) :
      ∃ k d', Trace (F'.step M) k c' e.toList d' ∧ Replaced F b last call pre code post d d' ∧
        (k = 0 → d.rest.length < c.rest.length) := by
    have hstep' : F.leave M c.block c.env c.memory = some (e, d) := by
      rw [← hstep, Program.step, hrest]
    obtain ⟨d', hd', hnext⟩ := hrel.leave h hscoped huses hpre hcode hlt hblock hstep'
    refine ⟨1, d', hone ?_, hnext, fun h => by cases h⟩
    rw [Program.step, hrest']
    exact hd'
  rcases hrel.rest with ⟨-, hne, hblock, hrest, hsuffix⟩ |
    ⟨hcb, hcb', pre', hsuffix, hrest, hrest'⟩ | ⟨hcb, hcb', hrest, hsuffix⟩
  · -- in another block
    cases hcr : c.rest with
    | nil => exact hleave hcr (hrest.trans hcr) (hblock.trans (if_neg hne).symm)
    | cons i rest =>
      rw [hcr] at hrest hsuffix
      obtain ⟨d', hd', hdb, hdr, hdb', hdr', hmem, henv⟩ :=
        hrel.step_instr F' huses (hsuffix.subset List.mem_cons_self) hcr hrest hstep
      refine ⟨1, d', hone hd', ⟨hmem, henv, Or.inl ?_⟩, fun h => by cases h⟩
      rw [hdb, hdr, hdb', hdr']
      exact ⟨hlt, hne, hblock, rfl, suffix_of_cons_suffix hsuffix⟩
  · cases pre' with
    | nil =>
      -- at the instruction that is replaced
      obtain ⟨block, _, env, memory⟩ := c
      obtain ⟨block', _, env', memory'⟩ := c'
      obtain rfl : _ = call :: post := hrest
      obtain rfl : _ = code := hrest'
      obtain rfl : block = b := hcb
      obtain rfl : block' = block := hcb'
      obtain rfl : memory' = memory := hrel.memory
      have hargs : M.args env' call = M.args env call := hrel.args huses
        (hpre ▸ List.mem_append_right _ List.mem_cons_self : call ∈ (F.block block').instrs)
      obtain ⟨r, hr, heq⟩ := Option.map_eq_some_iff.mp hstep
      cases heq
      obtain ⟨hsilent, k, env'', htrace, henv⟩ := hrun env' memory' r.1 r.2 (hargs.symm ▸ hr)
      refine ⟨k, ⟨last, post, env'', r.2⟩, ?_, ⟨rfl, fun n hn => ?_,
        Or.inr (Or.inr ⟨rfl, rfl, rfl, List.suffix_refl post⟩)⟩, fun _ => Nat.lt_succ_self _⟩
      · show Trace (F'.step M) k _ (M.event call.op (M.args env call)).toList _
        rw [← hargs, hsilent]
        exact htrace
      · show env'' n = Function.update env call.result r.1 n
        rw [Function.update_of_ne hn.2, henv n hn.1]
        exact hrel.env n hn
    | cons i pre' =>
      have hi : i ∈ (F.block b).instrs := by
        rw [hpre]
        exact List.mem_append_left _ (hsuffix.subset List.mem_cons_self)
      obtain ⟨d', hd', hdb, hdr, hdb', hdr', hmem, henv⟩ :=
        hrel.step_instr F' huses hi hrest hrest' hstep
      refine ⟨1, d', hone hd', ⟨hmem, henv, Or.inr (Or.inl ?_)⟩, fun h => by cases h⟩
      rw [hdb, hdr, hdb', hdr']
      exact ⟨hcb, hcb', pre', suffix_of_cons_suffix hsuffix, rfl, rfl⟩
  · -- behind the instruction
    cases hcr : c.rest with
    | nil => exact hleave hcr (hrest.trans hcr) (hcb'.trans (if_pos hcb).symm)
    | cons i rest =>
      rw [hcr] at hrest hsuffix
      have hi : i ∈ (F.block b).instrs := by
        rw [hpre]
        exact List.mem_append_right _ (List.mem_cons_of_mem _ (hsuffix.subset List.mem_cons_self))
      obtain ⟨d', hd', hdb, hdr, hdb', hdr', hmem, henv⟩ :=
        hrel.step_instr F' huses hi hcr hrest hstep
      refine ⟨1, d', hone hd', ⟨hmem, henv, Or.inr (Or.inr ?_)⟩, fun h => by cases h⟩
      rw [hdb, hdr, hdb', hdr']
      exact ⟨hcb, hcb', rfl, suffix_of_cons_suffix hsuffix⟩

theorem Replaced.returned {c c' : Config Op Ty C V S}
    (h : Replaced F b last call pre code post c c') (hreplaces : Replaces M F F' b last call)
    (huses : UsesAgreed F call) {v : V} (hv : F.returned M c = some v) :
    F'.returned M c' = some v := by
  obtain ⟨block, rest, env, memory⟩ := c
  obtain ⟨block', rest', env', memory'⟩ := c'
  -- nothing is left of the block
  have hret : rest = [] ∧ ∃ x, F.term block = .ret x ∧ M.value env x = v := by
    unfold Program.returned at hv
    split at hv
    · next x hrest hterm => exact ⟨hrest, x, hterm, Option.some.inj hv⟩
    · cases hv
  obtain ⟨rfl, x, hterm, rfl⟩ := hret
  have hx : M.value env' x = M.value env x :=
    value_congr h.env (huses.term block x (hterm ▸ List.mem_cons_self))
  have hback (hrest' : rest' = []) (hterm' : F'.term block' = .ret x) :
      F'.returned M ⟨block', rest', env', memory'⟩ = some (M.value env x) := by
    unfold Program.returned
    rw [hrest', hterm', ← hx]
  rcases h.rest with ⟨hlt, hne, hblock, hrest, -⟩ | ⟨-, -, pre', -, hrest, -⟩ |
    ⟨hb, hlast, hrest, -⟩
  · refine hback hrest ?_
    rw [show block' = block from hblock, (hreplaces.other block hlt hne).2, hterm]
  · exact absurd hrest.symm (List.append_ne_nil_of_right_ne_nil pre' (List.cons_ne_nil _ _))
  · refine hback hrest ?_
    rw [show block' = last from hlast, hreplaces.term, ← hterm, show block = b from hb]

/-- **A program in which an instruction is replaced** behaves as before. -/
theorem Replaces.simulates (h : Replaces M F F' b last call) (hscoped : F.Scoped)
    (hunused : F.Unused call.result) : Simulates M F F' := by
  obtain ⟨pre, code, post, hpre, hcode, hrun⟩ := h.instrs
  have huses : UsesAgreed F call := by
    have hmem {v : Value Ty C} (hlt : v.Below F.next) (hne : v ≠ .name call.result) (n : ℕ)
        (hv : v = .name n) : n ∈ {n | n < F.next ∧ n ≠ call.result} :=
      ⟨hlt n hv, fun heq => hne (heq ▸ hv)⟩
    exact ⟨fun q i hi v hv => hmem (hscoped.uses.instr q i hi v hv) (hunused.instr q i hi v hv),
      fun q φ hφ e he => ⟨hmem (hscoped.uses.incoming q φ hφ e he).1
        (hunused.incoming q φ hφ e he).1, trivial⟩,
      fun q v hv => hmem (hscoped.uses.term q v hv) (hunused.term q v hv), fun _ _ _ => trivial⟩
  have hfollows := h.follows hscoped huses hpre hcode hrun
  intro env memory
  have hstart : Replaced F b last call pre code post (F.start env memory)
      (F'.start env memory) := by
    refine ⟨rfl, fun _ _ => rfl, ?_⟩
    by_cases hb : 0 = b
    · subst hb
      exact Or.inr (Or.inl ⟨rfl, rfl, pre, List.suffix_refl pre, hpre, hcode⟩)
    · exact Or.inl ⟨hscoped.entry_lt, hb, rfl, (h.other 0 hscoped.entry_lt hb).1,
        List.suffix_refl _⟩
  refine ⟨fun n es c htrace => ?_, hfollows.unbounded hstart⟩
  obtain ⟨n', c', htrace', hrel⟩ := hfollows.trace htrace hstart
  exact ⟨n', c', htrace', hrel.memory, fun v hv => hrel.returned h huses hv⟩

end Replaces

end Code

end Ssa

end TVMCompiler.Lib
