import Mathlib.Algebra.Group.Nat.Defs
import TVMCompiler.Sdk.SmartSwitch

/-!
# The timestamp replay protection

The protection stores the timestamp of the last message that it accepted. The next one has to be
later, and not too far ahead of the clock. The number 0, which the store starts with, also says that
no message has been accepted yet.

## Main definitions

* `check`, `timestamp`: the check, and the replay protection
* `accepted`: the messages accepted among those checked one after another
* `Protects`: the accepted timestamps increase, and are not too far ahead

## Main results

* `protects_iff`: the sequences of messages that the protection protects from replay
* `neverTwice_timestamp`: from the first accepted message on, unless its timestamp is 0
-/

namespace TVMCompiler.Sdk.Timestamp

/-- `timestamp::check`. -/
def check (interval now msgTime last : ℕ) : Option ℕ :=
  if last ≠ 0 ∧ msgTime ≤ last then none
  else if msgTime ≥ (now + interval) * 1000 then none
  else some msgTime

/-- The replay protection `timestamp`. Its state starts at 0. -/
def timestamp (interval : ℕ) : ReplayProtection ExternalHeader ℕ where
  init := 0
  value := 0
  check := fun now header last => check interval now header.timestamp last

/-- The messages accepted among those checked one after another. An accepted one replaces the state,
a refused one keeps it. -/
def accepted (interval : ℕ) : ℕ → List (ℕ × ExternalHeader) → List (ℕ × ExternalHeader)
  | _, [] => []
  | last, m :: ms =>
    match check interval m.1 m.2.timestamp last with
    | some last => m :: accepted interval last ms
    | none => accepted interval last ms

/-- The timestamp is not too far ahead of the clock. -/
def Timely (interval : ℕ) (m : ℕ × ExternalHeader) : Prop :=
  m.2.timestamp < (m.1 + interval) * 1000

instance instDecidableTimely (interval : ℕ) (m : ℕ × ExternalHeader) :
    Decidable (Timely interval m) := Nat.decLt _ _

/-- The accepted timestamps increase, and none is too far ahead of the clock. -/
def Protects (interval : ℕ) (ms : List (ℕ × ExternalHeader)) : Prop :=
  (accepted interval (timestamp interval).init ms).Pairwise
      (fun m m' => m.2.timestamp < m'.2.timestamp) ∧
    ∀ m ∈ accepted interval (timestamp interval).init ms, Timely interval m

/-- The messages before the first one with a positive timestamp that is not too far ahead. -/
def beforeFirst (interval : ℕ) (ms : List (ℕ × ExternalHeader)) : List (ℕ × ExternalHeader) :=
  ms.takeWhile fun m => !(decide (0 < m.2.timestamp) && decide (Timely interval m))

/-- The messages with the timestamp 0 that are not too far ahead. -/
def zeros (interval : ℕ) (ms : List (ℕ × ExternalHeader)) : List (ℕ × ExternalHeader) :=
  ms.filter fun m => decide (m.2.timestamp = 0) && decide (Timely interval m)

variable {interval last : ℕ} {m : ℕ × ExternalHeader} {ms : List (ℕ × ExternalHeader)}

/-! ## One check -/

/-- A check gives back the timestamp that it accepts. -/
theorem check_eq (interval last : ℕ) (m : ℕ × ExternalHeader) :
    check interval m.1 m.2.timestamp last =
      if (last = 0 ∨ last < m.2.timestamp) ∧ Timely interval m then some m.2.timestamp
      else none := by
  unfold check Timely
  -- the two tests of the source, one after the other
  by_cases hlast : last ≠ 0 ∧ m.2.timestamp ≤ last
  · rw [if_pos hlast, if_neg (by omega)]
  · rw [if_neg hlast]
    by_cases htime : m.2.timestamp ≥ (m.1 + interval) * 1000
    · rw [if_pos htime, if_neg (by omega)]
    · rw [if_neg htime, if_pos (by omega)]

theorem accepted_cons_of_pos (hlast : last = 0 ∨ last < m.2.timestamp) (hm : Timely interval m) :
    accepted interval last (m :: ms) = m :: accepted interval m.2.timestamp ms := by
  have hcheck : check interval m.1 m.2.timestamp last = some m.2.timestamp := by
    rw [check_eq, if_pos ⟨hlast, hm⟩]
  rw [accepted, hcheck]

theorem accepted_cons_of_neg (h : ¬ ((last = 0 ∨ last < m.2.timestamp) ∧ Timely interval m)) :
    accepted interval last (m :: ms) = accepted interval last ms := by
  have hcheck : check interval m.1 m.2.timestamp last = none := by
    rw [check_eq, if_neg h]
  rw [accepted, hcheck]

/-! ## A row of checks -/

/-- The headers are those that the check lets through in the switch. -/
theorem threaded_timestamp (interval last : ℕ) (ms : List (ℕ × ExternalHeader)) :
    threaded (timestamp interval).check last ms = (accepted interval last ms).map Prod.snd := by
  induction ms generalizing last with
  | nil => rfl
  | cons m ms ih =>
    by_cases h : (last = 0 ∨ last < m.2.timestamp) ∧ Timely interval m
    · have hcheck : (timestamp interval).check m.1 m.2 last = some m.2.timestamp := by
        show check interval m.1 m.2.timestamp last = _
        rw [check_eq, if_pos h]
      simp only [threaded, hcheck]
      rw [accepted_cons_of_pos h.1 h.2, List.map_cons, ih]
    · have hcheck : (timestamp interval).check m.1 m.2 last = none := by
        show check interval m.1 m.2.timestamp last = _
        rw [check_eq, if_neg h]
      simp only [threaded, hcheck]
      rw [accepted_cons_of_neg h, ih]

/-- No message is accepted too early. -/
theorem timely_of_accepted (hm : m ∈ accepted interval last ms) : Timely interval m := by
  induction ms generalizing last with
  | nil => cases hm
  | cons m' ms ih =>
    by_cases h : (last = 0 ∨ last < m'.2.timestamp) ∧ Timely interval m'
    · rw [accepted_cons_of_pos h.1 h.2] at hm
      rcases List.mem_cons.mp hm with rfl | hm
      · exact h.2
      · exact ih hm
    · rw [accepted_cons_of_neg h] at hm
      exact ih hm

/-- **Behind a positive timestamp the accepted ones increase.** -/
theorem accepted_increasing (hlast : last ≠ 0) :
    (∀ m ∈ accepted interval last ms, last < m.2.timestamp) ∧
      (accepted interval last ms).Pairwise fun m m' => m.2.timestamp < m'.2.timestamp := by
  induction ms generalizing last with
  | nil => exact ⟨fun m hm => absurd hm List.not_mem_nil, List.Pairwise.nil⟩
  | cons m ms ih =>
    by_cases h : (last = 0 ∨ last < m.2.timestamp) ∧ Timely interval m
    · rw [accepted_cons_of_pos h.1 h.2]
      have hlt : last < m.2.timestamp := h.1.resolve_left hlast
      -- the accepted timestamp is positive again
      obtain ⟨habove, hsorted⟩ := ih (Nat.ne_of_gt (Nat.zero_lt_of_lt hlt))
      refine ⟨fun m' hm' => ?_, List.pairwise_cons.mpr ⟨habove, hsorted⟩⟩
      rcases List.mem_cons.mp hm' with rfl | hm'
      · exact hlt
      · exact Nat.lt_trans hlt (habove m' hm')
    · rw [accepted_cons_of_neg h]
      exact ih hlast

/-- Up to the first positive timestamp, every message with the timestamp 0 is accepted that is not
too far ahead. -/
theorem accepted_zero (interval : ℕ) (ms : List (ℕ × ExternalHeader)) :
    ∃ later, accepted interval 0 ms = zeros interval (beforeFirst interval ms) ++ later ∧
      (∀ m ∈ later, 0 < m.2.timestamp) ∧
      later.Pairwise fun m m' => m.2.timestamp < m'.2.timestamp := by
  induction ms with
  | nil => exact ⟨[], rfl, fun m hm => absurd hm List.not_mem_nil, List.Pairwise.nil⟩
  | cons m ms ih =>
    obtain ⟨later, heq, hpos, hsorted⟩ := ih
    by_cases hfirst : 0 < m.2.timestamp ∧ Timely interval m
    · -- the state is positive from here on
      obtain ⟨habove, hincreasing⟩ : (∀ m' ∈ accepted interval m.2.timestamp ms, _) ∧ _ :=
        accepted_increasing (Nat.ne_of_gt hfirst.1)
      refine ⟨m :: accepted interval m.2.timestamp ms, ?_, fun m' hm' => ?_,
        List.pairwise_cons.mpr ⟨habove, hincreasing⟩⟩
      · rw [accepted_cons_of_pos (Or.inl rfl) hfirst.2, beforeFirst,
          List.takeWhile_cons_of_neg (by simp [hfirst.1, hfirst.2])]
        rfl
      · rcases List.mem_cons.mp hm' with rfl | hm'
        · exact hfirst.1
        · exact Nat.zero_lt_of_lt (habove m' hm')
    · have hbefore : beforeFirst interval (m :: ms) = m :: beforeFirst interval ms := by
        rw [beforeFirst, List.takeWhile_cons_of_pos (by rw [← Bool.decide_and, decide_eq_false hfirst]; rfl)]
        rfl
      refine ⟨later, ?_, hpos, hsorted⟩
      rw [hbefore]
      by_cases hm : Timely interval m
      · -- the timestamp is 0, and the state stays 0
        have hzero : m.2.timestamp = 0 := by
          by_contra hne
          exact hfirst ⟨Nat.pos_of_ne_zero hne, hm⟩
        rw [accepted_cons_of_pos (Or.inl rfl) hm, hzero, heq, zeros, zeros,
          List.filter_cons_of_pos (by simp [hzero, hm])]
        rfl
      · rw [accepted_cons_of_neg fun h => hm h.2, heq, zeros, zeros,
          List.filter_cons_of_neg (by simp [hm])]

theorem timestamp_of_mem_zeros (hm : m ∈ zeros interval ms) : m.2.timestamp = 0 := by
  have h := (List.mem_filter.mp hm).2
  rw [Bool.and_eq_true, decide_eq_true_eq] at h
  exact h.1

/-- **The messages that are protected from replay**: at most one message with the timestamp 0 comes
in time before the first one with a positive timestamp that is in time. -/
theorem protects_iff (interval : ℕ) (ms : List (ℕ × ExternalHeader)) :
    Protects interval ms ↔ (zeros interval (beforeFirst interval ms)).length ≤ 1 := by
  obtain ⟨later, heq, hpos, hsorted⟩ := accepted_zero interval ms
  have hzero : ∀ m ∈ zeros interval (beforeFirst interval ms), m.2.timestamp = 0 :=
    fun m hm => timestamp_of_mem_zeros hm
  constructor
  · rintro ⟨hpairwise, -⟩
    rw [show (timestamp interval).init = 0 from rfl, heq] at hpairwise
    have hzeros := (List.pairwise_append.mp hpairwise).1
    -- a second accepted 0 is not greater than the first one
    generalize zeros interval (beforeFirst interval ms) = zs at hzero hzeros
    rcases zs with _ | ⟨z, _ | ⟨z', zs⟩⟩
    · exact Nat.zero_le 1
    · exact Nat.le_refl 1
    · have hlt := (List.pairwise_cons.mp hzeros).1 z' List.mem_cons_self
      rw [hzero z' (List.mem_cons_of_mem z List.mem_cons_self)] at hlt
      exact absurd hlt (Nat.not_lt_zero _)
  · intro hlen
    refine ⟨?_, fun m hm => timely_of_accepted hm⟩
    rw [show (timestamp interval).init = 0 from rfl, heq]
    refine List.pairwise_append.mpr ⟨?_, hsorted, fun m hm m' hm' => ?_⟩
    · generalize zeros interval (beforeFirst interval ms) = zs at hlen
      rcases zs with _ | ⟨z, _ | ⟨z', zs⟩⟩
      · exact List.Pairwise.nil
      · exact List.pairwise_singleton _ _
      · rw [List.length_cons, List.length_cons] at hlen
        omega
    · rw [hzero m hm]
      exact hpos m' hm'

/-- From a positive timestamp on no message is accepted twice. -/
theorem neverTwice_timestamp (hlast : last ≠ 0) :
    NeverTwice (timestamp interval).check last := by
  intro ms
  rw [threaded_timestamp]
  refine List.pairwise_map.mpr ?_
  refine (accepted_increasing hlast).2.imp fun hlt heq => ?_
  rw [heq] at hlt
  exact absurd hlt (Nat.lt_irrefl _)

/-- A header with the given timestamp. -/
def headerAt (time : ℕ) : ExternalHeader :=
  { pubkey := none, timestamp := time, expire := 0, functionId := 0 }

/-- The same message with the timestamp 0 is accepted each time that it comes. -/
theorem not_protects_zero : ¬ Protects 30 [(100, headerAt 0), (101, headerAt 0)] := by
  rintro ⟨hpairwise, -⟩
  have hlt := (List.pairwise_cons.mp hpairwise).1 (101, headerAt 0) List.mem_cons_self
  exact absurd hlt (Nat.lt_irrefl 0)

end TVMCompiler.Sdk.Timestamp
