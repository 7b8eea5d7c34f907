import Munch.Proofs.Checked.Find
import Munch.Proofs.Checked.Minimize
import Munch.Proofs.Checked.Reduce
import Munch.Proofs.RuleSet.History

/-!
The compilation of rules and the use of rule sets, checked.

Whatever rules are attached to a lone entry, under whatever numbers, all phases of the compilation run
through (`compile_eq`).  Rules of a set are numbered by their places, so a rule that is found is in the
set, and what it matches ends within the input (`perform_eq`).  Hence no sequence of operations on sets
and their copies comes upon a check that fails (`pipeline_total`).
-/

set_option autoImplicit false

namespace Munch

/-- The automaton of patterns with rules for them, attached to a lone entry one after the other. -/
def Automaton.attachAll (rules : List (Pattern × Nat)) : Automaton :=
  rules.foldl (fun a rule => (a.attach rule.1 rule.2).1) .root

namespace Checked

def attachAll (rules : List (Pattern × Nat)) : Except Panic Automaton :=
  rules.foldlM (fun a rule => do return (← attach a rule.1 rule.2).1) .root

def compile (a : Automaton) : Except Panic Compilation := do
  let nfa ← reduce a
  let dfa ← determinize nfa
  let minimal ← minimize dfa
  return ⟨nfa, dfa, minimal⟩

theorem attachAll_eq (rules : List (Pattern × Nat)) :
    attachAll rules = pure (.attachAll rules) := by
  apply foldlM_eq_pure Automaton.HasRoot Automaton.hasRoot_root
  · intro a rooted rule _
    exact (Automaton.yields_attach rooted rule.1 rule.2).root
  · intro a rooted rule _
    rw [attach_eq rooted, pure_bind]

theorem hasRoot_attachAll (rules : List (Pattern × Nat)) : (Automaton.attachAll rules).HasRoot :=
  List.foldlRecOn (motive := Automaton.HasRoot) rules _ Automaton.hasRoot_root
    fun _ rooted rule _ => (Automaton.yields_attach rooted rule.1 rule.2).root

/-- All phases run through from any automaton that has states. -/
theorem compile_eq {a : Automaton} (nonempty : a.isEmpty = false) : compile a = pure a.compile := by
  rw [compile, reduce_eq, pure_bind, determinize_eq (Automaton.hasEpsilon_reduce nonempty),
    pure_bind, minimize_eq, pure_bind]
  rfl

section Sets

open RuleSet (Source Operation Answer Step Kept)

def register (s : RuleSet) (source : Source) : Except Panic RuleSet := do
  let (graph, fragment) ← attach s.graph source.pattern s.rules.size
  let rule := ⟨source.name, s.rules.size, source.pattern, fragment, source.action⟩
  return ⟨s.rules.push rule, graph, none⟩

def compiled (s : RuleSet) : Except Panic (Dfa × RuleSet) :=
  match s.compiled with
  | some d => return (d, s)
  | none => do
      let phases ← compile s.graph
      return (phases.minimal, { s with compiled := some phases.minimal })

/-- What a verdict says about the input: the rule has to be one of the set, and the match a slice of the
input. -/
def outcome (s : RuleSet) (input : List UInt8) (pos : Nat) (verdict : Verdict) :
    Except Panic Outcome := do
  if let .accept index stop := verdict then
    check index s.rules.size
    check pos (stop + 1)
    check stop (input.length + 1)
  return s.outcome input pos verdict

def find (s : RuleSet) (input : List UInt8) (pos : Nat) : Except Panic (Outcome × RuleSet) := do
  let (d, s) ← compiled s
  let verdict ← search d input pos
  return (← outcome s input pos verdict, s)

def perform (s : RuleSet) : Operation → Except Panic (Answer × RuleSet)
  | .register source => do
      return (.index s.rules.size, ← register s source)
  | .registerText u name text =>
      match Pattern.parse u text with
      | .error e => return (.refused e, s)
      | .ok pattern => do
          return (.index s.rules.size, ← register s ⟨name, pattern, none⟩)
  | .compile => do
      let (d, s) ← compiled s
      return (.automaton d, s)
  | .invalidate => return (.done, s.invalidate)
  | .find input pos => do
      let (found, s) ← find s input pos
      return (.outcome found, s)
  | .tables => do
      let (d, s) ← compiled s
      return (.tables (.ofDfa d), s)

def step (pool : List RuleSet) : Step → Except Panic (Option Answer × List RuleSet)
  | .perform i op =>
      match pool[i]? with
      | none => return (none, pool)
      | some s => do
          let (answer, s) ← perform s op
          return (some answer, pool.set i s)
  | .clone i => return (none, pool ++ pool[i]?.toList)

def run (pool : List RuleSet) : List Step → Except Panic (List (Option Answer) × List RuleSet)
  | [] => return ([], pool)
  | st :: rest => do
      let (answer, pool) ← step pool st
      let (answers, pool) ← run pool rest
      return (answer :: answers, pool)

variable {s : RuleSet} {sources : List Source}

theorem register_eq (kept : Kept s sources) (source : Source) :
    register s source = pure (s.registerSource source) := by
  rw [register, attach_eq kept.holds.root, pure_bind]
  rfl

theorem compiled_eq (kept : Kept s sources) : compiled s = pure s.compile := by
  rw [compiled, RuleSet.compile]
  cases s.compiled with
  | some d => rfl
  | none =>
      rw [compile_eq kept.holds.root.nonempty]
      rfl

theorem outcome_eq (kept : Kept s sources) (input : List UInt8) (pos : Nat) :
    outcome s input pos (s.build.find input pos) =
      pure (s.outcome input pos (s.build.find input pos)) := by
  by_cases before : pos < input.length
  · rcases s.build.find_cases before with ⟨stop, index, after, le, response, -, verdict⟩ | ⟨-, verdict⟩
    · have listed := kept.response_lt response
      have ordered : pos < stop + 1 := by omega
      have within : stop < input.length + 1 := by omega
      simp [verdict, outcome, listed, ordered, within]
    · rw [verdict]
      rfl
  · rw [(Dfa.find_eq_endOfInput_iff s.build input pos).mpr (Nat.le_of_not_lt before)]
    rfl

theorem find_eq (kept : Kept s sources) (input : List UInt8) (pos : Nat) :
    find s input pos = pure (s.find input pos) := by
  have after : Kept s.compile.2 sources := (RuleSet.alike_compile s).trans kept
  have same : s.compile.2.build = s.compile.1 := after.compile_eq.symm.trans
    (RuleSet.alike_compile s).compile_eq
  have meaning := outcome_eq after input pos
  rw [same] at meaning
  show (compiled s >>= fun c => search c.1 input pos >>= fun verdict =>
    outcome c.2 input pos verdict >>= fun found => pure (found, c.2)) = _
  rw [compiled_eq kept, pure_bind, search_eq, pure_bind, meaning, pure_bind]
  rfl

theorem perform_eq (kept : Kept s sources) (op : Operation) :
    perform s op = pure (s.perform op) := by
  cases op with
  | register source =>
      rw [perform, register_eq kept]
      rfl
  | registerText u name text =>
      rw [perform]
      cases read : Pattern.parse u text with
      | error e => rw [RuleSet.registerText_error read]
      | ok pattern =>
          rw [RuleSet.registerText_ok read]
          simp only [register_eq kept, pure_bind]
  | compile =>
      rw [perform, compiled_eq kept]
      rfl
  | invalidate => rfl
  | find input pos =>
      rw [perform, find_eq kept]
      rfl
  | tables =>
      rw [perform, compiled_eq kept]
      rfl

theorem step_eq {pool : List RuleSet} {lists : List (List Source)}
    (kept : List.Forall₂ Kept pool lists) (st : Step) :
    step pool st = pure (RuleSet.step RuleSet.perform pool st) := by
  cases st with
  | perform i op =>
      have here := RuleSet.rel_getElem? kept i
      rw [step, RuleSet.step]
      generalize pool[i]? = a, lists[i]? = b at here
      cases here with
      | none => rfl
      | some here => simp only [perform_eq here, pure_bind]
  | clone i => rfl

theorem run_eq (steps : List Step) {pool : List RuleSet} {lists : List (List Source)}
    (kept : List.Forall₂ Kept pool lists) :
    run pool steps = pure (RuleSet.run RuleSet.perform pool steps) := by
  induction steps generalizing pool lists with
  | nil => rfl
  | cons st rest ih =>
      have next := (RuleSet.step_simulates Kept.simulates kept st).2
      show (step pool st >>= fun first => run first.2 rest >>= fun later =>
        pure (first.1 :: later.1, later.2)) = _
      rw [step_eq kept, pure_bind, ih next, pure_bind]
      rfl

/-- No check of the compilation or of a search fails.  Rules attached to a lone entry, any patterns
under any numbers, go through all phases: a removed edge is there, every number of a state is in range,
what reduction gives has no epsilon edge, and what is frozen is deterministic.  Any operations on a set
of rules and its copies, searches from any position of any input among them, go through as well, so a
search looks up a rule of the set and a slice of the input, and never counts beyond its end. -/
theorem pipeline_total :
    (∀ rules : List (Pattern × Nat),
      (attachAll rules >>= compile) = .ok (Automaton.attachAll rules).compile ∧
      (Automaton.attachAll rules).compile.nfa.hasEpsilon = false ∧
      (Automaton.attachAll rules).compile.nfa.subsetGraph.isDeterministic = true ∧
      (Automaton.attachAll rules).compile.dfa.merged.isDeterministic = true) ∧
    ∀ steps : List Step, run [.empty] steps = .ok (RuleSet.run RuleSet.perform [.empty] steps) := by
  constructor
  · intro rules
    have nonempty := (hasRoot_attachAll rules).nonempty
    refine ⟨?_, Automaton.hasEpsilon_reduce nonempty, Automaton.subsetGraph_isDeterministic _,
      Dfa.merged_isDeterministic _⟩
    rw [attachAll_eq, pure_bind]
    exact compile_eq nonempty
  · intro steps
    have start : List.Forall₂ Kept [RuleSet.empty] [[]] := .cons (.refl _) .nil
    exact run_eq steps start

end Sets

end Checked

end Munch
