import TVMCompiler.Lib.Except

/-!
# Writers and readers

A writer appends to what it is given, and a reader takes from the front of what it is given; both
may fail. A reader undoes a writer if it returns the written value and leaves whatever followed.

## Main definitions

* `RoundTrips write read a`: what `write` appends is read back by `read` as `a`

## Main results

* `RoundTrips.bind`: writers and readers one after the other
* `RoundTrips.map`: a converted result
-/

namespace TVMCompiler.Lib

universe u

variable {S ε α β : Type u} [Append S]

/-- Whatever `write` appends, `read` returns `a` on it and leaves what follows. -/
def RoundTrips (write : S → Except ε S) (read : S → Except ε (α × S)) (a : α) : Prop :=
  ∀ b b', write b = .ok b' → ∃ s, b' = b ++ s ∧ ∀ rest, read (s ++ rest) = .ok (a, rest)

variable {write write₁ write₂ : S → Except ε S} {read read₁ : S → Except ε (α × S)} {a : α}

theorem RoundTrips.map (h : RoundTrips write read a) (f : α → β) :
    RoundTrips write (fun p => (read p).map fun r => (f r.1, r.2)) (f a) := by
  intro b b' hb
  obtain ⟨s, hs, hread⟩ := h b b' hb
  refine ⟨s, hs, fun rest => ?_⟩
  dsimp only
  rw [hread]
  rfl

/-- The second reader may depend on what the first one has read. -/
theorem RoundTrips.bind [hassoc : Std.Associative (fun s t : S => s ++ t)] {c : β}
    (h₁ : RoundTrips write₁ read₁ a) (read₂ : α → S → Except ε (β × S))
    (h₂ : RoundTrips write₂ (read₂ a) c) :
    RoundTrips (fun b => (write₁ b).bind write₂)
      (fun p => (read₁ p).bind fun r => read₂ r.1 r.2) c := by
  intro b b'' hb
  obtain ⟨b', hb', hb''⟩ := bind_eq_ok.mp hb
  obtain ⟨s₁, rfl, hread₁⟩ := h₁ b b' hb'
  obtain ⟨s₂, rfl, hread₂⟩ := h₂ _ b'' hb''
  have assoc (x y z : S) : x ++ y ++ z = x ++ (y ++ z) :=
    hassoc.assoc x y z
  refine ⟨s₁ ++ s₂, assoc _ _ _, fun rest => ?_⟩
  dsimp only
  rw [assoc, hread₁]
  exact hread₂ rest

end TVMCompiler.Lib
