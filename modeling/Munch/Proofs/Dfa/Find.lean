import Munch.Dfa.Find
import Munch.Proofs.Dfa.Walk

/-!
The search for the longest match, by responses.

A prefix of what is left matches if the response to it is a rule.  The walk keeps the last prefix that
did (`longest_cases`), so the search ends with the longest one, or with nothing if no prefix matches
(`find_cases`).  The empty prefix does not count.  So a search accepts exactly the longest slice that
has a rule (`find_eq_accept_iff`), and automata that respond alike find the same
(`find_eq_of_response_eq`).
-/

set_option autoImplicit false

namespace Munch

def slice (input : List UInt8) (start stop : Nat) : List UInt8 :=
  (input.drop start).take (stop - start)

namespace Dfa

theorem responseFrom_take_of_next {d : Dfa} {i : Nat} {b : UInt8} {rest : List UInt8} {n : Nat}
    (positive : 0 < n) :
    d.responseFrom i ((b :: rest).take n) =
      (d.next i b).bind fun j => d.responseFrom j (rest.take (n - 1)) := by
  obtain ⟨m, rfl⟩ := Nat.exists_eq_add_of_lt positive
  rw [Nat.zero_add, List.take_succ_cons, responseFrom_cons, Nat.add_sub_cancel]

theorem longest_of_next {d : Dfa} {i : Nat} {b : UInt8} {j : Nat} (next : d.next i b = some j)
    (pos : Nat) (best : Verdict) (rest : List UInt8) :
    d.longest i pos best (b :: rest) = d.longest j (pos + 1)
      ((d.accept j).elim best fun rule => .accept rule (pos + 1)) rest := by
  simp only [longest, next]
  cases d.accept j <;> rfl

/-- The verdict of a walk: its last match, or the best one from before if it comes by none. -/
theorem longest_cases (d : Dfa) (rest : List UInt8) (i pos : Nat) (best : Verdict) :
    (∃ n rule, 0 < n ∧ n ≤ rest.length ∧ d.responseFrom i (rest.take n) = some (some rule) ∧
      (∀ m, n < m → m ≤ rest.length → (d.responseFrom i (rest.take m)).join = none) ∧
      d.longest i pos best rest = .accept rule (pos + n)) ∨
    ((∀ m, 0 < m → m ≤ rest.length → (d.responseFrom i (rest.take m)).join = none) ∧
      d.longest i pos best rest = best) := by
  induction rest generalizing i pos best with
  | nil =>
      refine .inr ⟨fun m positive le => ?_, rfl⟩
      simp only [List.length_nil] at le
      omega
  | cons b rest ih =>
      cases next : d.next i b with
      | none =>
          refine .inr ⟨fun m positive _ => ?_, by rw [longest, next]⟩
          rw [responseFrom_take_of_next positive, next]
          rfl
      | some j =>
          have later : ∀ m, 0 < m → d.responseFrom i ((b :: rest).take m) =
              d.responseFrom j (rest.take (m - 1)) := by
            intro m positive
            rw [responseFrom_take_of_next positive, next]
            rfl
          rw [longest_of_next next, List.length_cons]
          rcases ih j (pos + 1) ((d.accept j).elim best fun rule => .accept rule (pos + 1)) with
            ⟨n, rule, positive, le, found, last, verdict⟩ | ⟨none, verdict⟩
          · refine .inl ⟨n + 1, rule, by omega, by omega, ?_, fun m above le => ?_, ?_⟩
            · rw [later (n + 1) (by omega), Nat.add_sub_cancel]
              exact found
            · rw [later m (by omega)]
              exact last (m - 1) (by omega) (by omega)
            · rw [show pos + (n + 1) = pos + 1 + n by omega]
              exact verdict
          · have beyond : ∀ m, 1 < m → m ≤ rest.length + 1 →
                (d.responseFrom i ((b :: rest).take m)).join = Option.none := by
              intro m above le
              rw [later m (by omega)]
              exact none (m - 1) (by omega) (by omega)
            have single : d.responseFrom i ((b :: rest).take 1) = some (d.accept j) := by
              rw [later 1 (by omega)]
              rfl
            -- nothing matches beyond the first byte, so the state behind it decides
            cases accepts : d.accept j with
            | some rule =>
                refine .inl ⟨1, rule, by omega, by omega, by rw [single, accepts], beyond, ?_⟩
                rw [accepts] at verdict
                exact verdict
            | none =>
                refine .inr ⟨fun m positive le => ?_, ?_⟩
                · rcases Nat.lt_or_eq_of_le positive with above | rfl
                  · exact beyond m above le
                  · rw [single, accepts]
                    rfl
                · rw [accepts] at verdict
                  exact verdict

/-- The verdict of a search before the end of the input: the longest slice with a rule for its
response, or no match. -/
theorem find_cases (d : Dfa) {input : List UInt8} {pos : Nat} (before : pos < input.length) :
    (∃ stop rule, pos < stop ∧ stop ≤ input.length ∧
      d.response (slice input pos stop) = some (some rule) ∧
      (∀ later, stop < later → later ≤ input.length →
        (d.response (slice input pos later)).join = none) ∧
      d.find input pos = .accept rule stop) ∨
    ((∀ stop, pos < stop → stop ≤ input.length →
        (d.response (slice input pos stop)).join = none) ∧
      d.find input pos = .noMatch) := by
  rw [find, if_neg (Nat.not_le_of_lt before)]
  cases states : d.isEmpty with
  | true =>
      refine .inr ⟨fun stop _ _ => ?_, rfl⟩
      simp [response, states]
  | false =>
      rw [response_eq_responseFrom states]
      simp only [slice]
      rcases d.longest_cases (input.drop pos) d.entry pos .noMatch with
        ⟨n, rule, positive, le, found, last, verdict⟩ | ⟨none, verdict⟩
      · rw [List.length_drop] at le last
        refine .inl ⟨pos + n, rule, by omega, by omega, ?_, fun later above le => ?_, verdict⟩
        · rw [Nat.add_sub_cancel_left]
          exact found
        · exact last (later - pos) (by omega) (by omega)
      · rw [List.length_drop] at none
        exact .inr ⟨fun stop above le => none (stop - pos) (by omega) (by omega), verdict⟩

theorem find_eq_endOfInput_iff (d : Dfa) (input : List UInt8) (pos : Nat) :
    d.find input pos = .endOfInput ↔ input.length ≤ pos := by
  constructor
  · intro ended
    refine Nat.le_of_not_lt fun before => ?_
    rcases d.find_cases before with ⟨stop, rule, -, -, -, -, verdict⟩ | ⟨-, verdict⟩
    all_goals
      rw [verdict] at ended
      cases ended
  · intro beyond
    rw [find, if_pos beyond]

theorem join_eq_none_iff {answer : Option (Option Nat)} :
    answer.join = none ↔ ∀ rule, answer ≠ some (some rule) := by
  cases answer with
  | none => simp
  | some marker => cases marker <;> simp

theorem find_eq_accept_iff {d : Dfa} {input : List UInt8} {pos rule stop : Nat} :
    d.find input pos = .accept rule stop ↔
      pos < stop ∧ stop ≤ input.length ∧ d.response (slice input pos stop) = some (some rule) ∧
        ∀ later, stop < later → later ≤ input.length →
          ∀ other, d.response (slice input pos later) ≠ some (some other) := by
  simp only [← join_eq_none_iff]
  constructor
  · intro accepted
    have before : pos < input.length := by
      apply Nat.lt_of_not_le
      intro beyond
      rw [(d.find_eq_endOfInput_iff input pos).mpr beyond] at accepted
      cases accepted
    rcases d.find_cases before with ⟨stop', rule', after, le, found, last, verdict⟩ | ⟨-, verdict⟩
    · rw [verdict] at accepted
      cases accepted
      exact ⟨after, le, found, last⟩
    · rw [verdict] at accepted
      cases accepted
  · intro longest
    obtain ⟨after, le, found, last⟩ := longest
    rcases d.find_cases (Nat.lt_of_lt_of_le after le) with
      ⟨stop', rule', after', le', found', last', verdict⟩ | ⟨none, -⟩
    · -- neither of the two slices is longer than the other
      have same : stop = stop' := by
        rcases Nat.lt_trichotomy stop stop' with less | same | more
        · have missed := last stop' less le'
          rw [found'] at missed
          cases missed
        · exact same
        · have missed := last' stop more le
          rw [found] at missed
          cases missed
      subst same
      rw [found, Option.some.injEq, Option.some.injEq] at found'
      rw [verdict, found']
    · have missed := none stop after le
      rw [found] at missed
      cases missed

theorem find_eq_of_response_eq {d e : Dfa} (same : d.response = e.response) (input : List UInt8)
    (pos : Nat) : d.find input pos = e.find input pos := by
  have accepts : ∀ rule stop,
      d.find input pos = .accept rule stop ↔ e.find input pos = .accept rule stop := by
    intro rule stop
    rw [find_eq_accept_iff, find_eq_accept_iff, same]
  have ends : d.find input pos = .endOfInput ↔ e.find input pos = .endOfInput := by
    rw [find_eq_endOfInput_iff, find_eq_endOfInput_iff]
  cases verdict : e.find input pos with
  | accept rule stop => exact (accepts rule stop).mpr verdict
  | endOfInput => exact ends.mpr verdict
  | noMatch =>
      cases other : d.find input pos with
      | accept rule stop =>
          rw [(accepts rule stop).mp other] at verdict
          cases verdict
      | endOfInput =>
          rw [ends.mp other] at verdict
          cases verdict
      | noMatch => rfl

end Dfa

end Munch
