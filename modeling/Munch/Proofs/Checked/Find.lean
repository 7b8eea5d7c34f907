import Munch.Proofs.Checked.Automaton
import Munch.Proofs.Dfa.Find

/-!
The search for the longest match, checked.

Bisection looks at edges between its bounds, the walk goes on from states to states, and it stands
before a byte of the input whenever it notes the position behind that byte (`longest_eq`).
-/

set_option autoImplicit false

namespace Munch.Checked

variable {d : Dfa}

def bisect (edges : List Edge) (rank lo hi : Nat) : Except Panic (Option Edge) :=
  if lo < hi then
    let middle := (lo + hi) / 2
    match edges[middle]? with
    | none => throw (.outOfRange middle edges.length)
    | some e =>
        if e.label.rank < rank then bisect edges rank (middle + 1) hi
        else if rank < e.label.rank then bisect edges rank lo middle
        else return some e
  else return none
termination_by hi - lo

def next (d : Dfa) (i : Nat) (b : UInt8) : Except Panic (Option Nat) := do
  let s ← state d.graph i
  let edge ← bisect s.edges (Label.byte b).rank 0 s.edges.length
  return edge.map Edge.target

/-- The walk before the given bytes of an input.  The position behind a byte must not be beyond the end
of the input. -/
def longest (d : Dfa) (size : Nat) (i pos : Nat) (best : Verdict) :
    List UInt8 → Except Panic Verdict
  | [] => return best
  | b :: rest => do
      match ← next d i b with
      | none => return best
      | some j =>
          let s ← state d.graph j
          match s.accept with
          | some rule =>
              check pos size
              longest d size j (pos + 1) (.accept rule (pos + 1)) rest
          | none => longest d size j (pos + 1) best rest

def search (d : Dfa) (input : List UInt8) (pos : Nat) : Except Panic Verdict := do
  if input.length ≤ pos then return .endOfInput
  if d.isEmpty then return .noMatch
  check pos input.length
  longest d input.length d.entry pos .noMatch (input.drop pos)

theorem bisect_eq (edges : List Edge) (rank lo hi : Nat) (bound : hi ≤ edges.length) :
    bisect edges rank lo hi = pure (Dfa.bisect edges rank lo hi) := by
  fun_induction Dfa.bisect edges rank lo hi with
  | case1 lo hi lt middle none =>
      have inside : middle < edges.length := by omega
      rw [List.getElem?_eq_getElem inside] at none
      cases none
  | case2 lo hi lt middle e found below ih =>
      rw [bisect, if_pos lt]
      simp only [middle] at found
      simp only [found, if_pos below]
      exact ih bound
  | case3 lo hi lt middle e found notBelow above ih =>
      rw [bisect, if_pos lt]
      simp only [middle] at found
      simp only [found, if_neg notBelow, if_pos above]
      exact ih (by omega)
  | case4 lo hi lt middle e found notBelow notAbove =>
      rw [bisect, if_pos lt]
      simp only [middle] at found
      simp only [found, if_neg notBelow, if_neg notAbove]
  | case5 lo hi done => rw [bisect, if_neg done]

theorem next_eq {i : Nat} (inside : i < d.size) (b : UInt8) : next d i b = pure (d.next i b) := by
  rw [next, state_eq inside, pure_bind, bisect_eq _ _ _ _ (Nat.le_refl _), pure_bind]
  rfl

theorem longest_eq {size i pos : Nat} {rest : List UInt8} (inside : i < d.size)
    (fits : pos + rest.length ≤ size) (best : Verdict) :
    longest d size i pos best rest = pure (d.longest i pos best rest) := by
  induction rest generalizing i pos best with
  | nil => rfl
  | cons b rest ih =>
      rw [List.length_cons] at fits
      rw [longest, next_eq inside, pure_bind, Dfa.longest]
      cases found : d.next i b with
      | none => rfl
      | some j =>
          have reached := Dfa.next_lt found
          have before : pos < size := by omega
          simp only [state_eq reached, check_of_lt before, pure_bind]
          show (match d.accept j with | some rule => _ | none => _) = _
          cases d.accept j with
          | some rule => exact ih reached (by omega) _
          | none => exact ih reached (by omega) best

theorem search_eq (d : Dfa) (input : List UInt8) (pos : Nat) :
    search d input pos = pure (d.find input pos) := by
  rw [search, Dfa.find]
  split
  · rfl
  · rename_i before
    cases states : d.isEmpty with
    | true => rfl
    | false =>
        have entry : d.entry < d.size := Automaton.entry_lt_size states
        have inside : pos < input.length := Nat.lt_of_not_le before
        rw [check_of_lt inside]
        apply longest_eq entry
        rw [List.length_drop]
        omega

end Munch.Checked
