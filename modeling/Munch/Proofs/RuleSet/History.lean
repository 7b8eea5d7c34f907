import Munch.Proofs.RuleSet.LongestMatch

/-!
Sets of rules under any sequence of operations.

An operation adds a rule, compiles, forgets what was compiled, or searches.  Whether a set keeps a
compiled automaton is all that a history leaves behind beside the rules it added: two sets that
differ in nothing else are `Alike`, and alike sets answer every operation alike (`Alike.perform`).  So
a set is at any time alike to the one that its rules make when they are registered one after the
other (`Kept.perform`), and its graph is well numbered (`Numbered`).

Sets are copied as well.  A pool holds the copies, and runs as a pool of mere lists of rules does, in
which every answer comes from a set made for it (`Kept.simulates`, `run_simulates`).
-/

set_option autoImplicit false

namespace Munch

def Rule.source (rule : Rule) : RuleSet.Source :=
  ⟨rule.name, rule.pattern, rule.action⟩

namespace RuleSet

def registerSource (s : RuleSet) (source : Source) : RuleSet :=
  s.register source.name source.pattern source.action

inductive Operation where
  | register (source : Source)
  | registerText (u : Universe) (name text : String)
  | compile
  | invalidate
  | find (input : List UInt8) (pos : Nat)
  | tables

/-- What an operation gives back. -/
inductive Answer where
  | done
  | index (i : Nat)
  | refused (e : Pattern.Error)
  | automaton (d : Dfa)
  | outcome (o : Outcome)
  | tables (t : Tables)

def perform (s : RuleSet) : Operation → Answer × RuleSet
  | .register source => (.index s.rules.size, s.registerSource source)
  | .registerText u name text =>
      match s.registerText u name text with
      | .error e => (.refused e, s)
      | .ok grown => (.index s.rules.size, grown)
  | .compile => (.automaton s.compile.1, s.compile.2)
  | .invalidate => (.done, s.invalidate)
  | .find input pos => (.outcome (s.find input pos).1, (s.find input pos).2)
  | .tables => (.tables s.tables.1, s.tables.2)

def Operation.added : Operation → List Source
  | .register source => [source]
  | .registerText u name text =>
      match Pattern.parse u text with
      | .error _ => []
      | .ok pattern => [⟨name, pattern, none⟩]
  | _ => []

theorem ofList_concat (sources : List Source) (source : Source) :
    ofList (sources ++ [source]) = (ofList sources).registerSource source := by
  rw [ofList, List.foldl_append]
  rfl

theorem registerText_error {u : Universe} {text : String} {e : Pattern.Error}
    (unread : Pattern.parse u text = .error e) (s : RuleSet) (name : String) :
    s.perform (.registerText u name text) = (.refused e, s) := by
  rw [perform, registerText, unread]
  rfl

theorem registerText_ok {u : Universe} {text : String} {pattern : Pattern}
    (read : Pattern.parse u text = .ok pattern) (s : RuleSet) (name : String) :
    s.perform (.registerText u name text) =
      (.index s.rules.size, s.registerSource ⟨name, pattern, none⟩) := by
  rw [perform, registerText, read]
  rfl

/-- Sets of the same rules that compile to the same automaton; one may keep it and the other not. -/
structure Alike (s t : RuleSet) : Prop where
  rules_eq : s.rules = t.rules
  graph_eq : s.graph = t.graph
  compile_eq : s.compile.1 = t.compile.1

theorem alike_compile (s : RuleSet) : Alike s.compile.2 s := by
  obtain ⟨rules, graph, compiled⟩ := s
  cases compiled <;> exact ⟨rfl, rfl, rfl⟩

theorem alike_find (s : RuleSet) (input : List UInt8) (pos : Nat) :
    Alike (s.find input pos).2 s :=
  alike_compile s

theorem alike_tables (s : RuleSet) : Alike s.tables.2 s :=
  alike_compile s

namespace Alike

variable {s t r : RuleSet}

theorem refl (s : RuleSet) : Alike s s :=
  ⟨rfl, rfl, rfl⟩

theorem symm (alike : Alike s t) : Alike t s :=
  ⟨alike.rules_eq.symm, alike.graph_eq.symm, alike.compile_eq.symm⟩

theorem trans (first : Alike s t) (second : Alike t r) : Alike s r :=
  ⟨first.rules_eq.trans second.rules_eq, first.graph_eq.trans second.graph_eq,
    first.compile_eq.trans second.compile_eq⟩

theorem registerSource_eq (alike : Alike s t) (source : Source) :
    s.registerSource source = t.registerSource source := by
  rw [registerSource, registerSource, register, register, alike.rules_eq, alike.graph_eq]

theorem invalidate_eq (alike : Alike s t) : s.invalidate = t.invalidate := by
  rw [invalidate, invalidate, alike.rules_eq, alike.graph_eq]

theorem compiled (alike : Alike s t) : Alike s.compile.2 t.compile.2 :=
  (alike_compile s).trans (alike.trans (alike_compile t).symm)

theorem find_eq (alike : Alike s t) (input : List UInt8) (pos : Nat) :
    (s.find input pos).1 = (t.find input pos).1 := by
  simp only [find, outcome, alike.compile_eq, alike.compiled.rules_eq]

theorem tables_eq (alike : Alike s t) : s.tables.1 = t.tables.1 :=
  congrArg Tables.ofDfa alike.compile_eq

/-- Alike sets answer every operation alike, and are alike after it. -/
theorem perform (alike : Alike s t) (op : Operation) :
    (s.perform op).1 = (t.perform op).1 ∧ Alike (s.perform op).2 (t.perform op).2 := by
  have size : s.rules.size = t.rules.size := congrArg Array.size alike.rules_eq
  cases op with
  | register source =>
      refine ⟨congrArg Answer.index size, ?_⟩
      simp only [RuleSet.perform, alike.registerSource_eq]
      exact .refl _
  | registerText u name text =>
      cases read : Pattern.parse u text with
      | error e =>
          rw [registerText_error read, registerText_error read]
          exact ⟨rfl, alike⟩
      | ok pattern =>
          rw [registerText_ok read, registerText_ok read, alike.registerSource_eq, size]
          exact ⟨rfl, .refl _⟩
  | compile => exact ⟨congrArg Answer.automaton alike.compile_eq, alike.compiled⟩
  | invalidate =>
      simp only [RuleSet.perform, alike.invalidate_eq]
      exact ⟨trivial, .refl _⟩
  | find input pos => exact ⟨congrArg Answer.outcome (alike.find_eq input pos), alike.compiled⟩
  | tables => exact ⟨congrArg Answer.tables alike.tables_eq, alike.compiled⟩

end Alike

/-- The rules are numbered by their places, and the automaton accepts each in the exit of its
fragment and nowhere else. -/
structure Numbered (s : RuleSet) : Prop where
  index_eq : ∀ {i : Nat} {rule : Rule}, s.rules[i]? = some rule → rule.index = i
  accept_iff : ∀ i j, s.graph.accept j = some i ↔
    ∃ rule : Rule, s.rules[i]? = some rule ∧ j = rule.fragment.exit

def nextRule (s : RuleSet) (source : Source) : Rule :=
  ⟨source.name, s.rules.size, source.pattern, (s.graph.attach source.pattern s.rules.size).2,
    source.action⟩

theorem getElem?_registerSource (s : RuleSet) (source : Source) (i : Nat) (rule : Rule) :
    (s.registerSource source).rules[i]? = some rule ↔
      s.rules[i]? = some rule ∨ i = s.rules.size ∧ s.nextRule source = rule := by
  have pushed : (s.registerSource source).rules = s.rules.push (s.nextRule source) := rfl
  rw [pushed, Array.getElem?_push]
  by_cases last : i = s.rules.size
  · simp [last]
  · simp [last]

namespace Numbered

theorem empty : Numbered .empty where
  index_eq found := by cases found
  accept_iff i j := by
    have bare : Automaton.root.accept j = none :=
      ((Automaton.Extends.refl .empty).addState).plain j (Nat.zero_le j)
    rw [RuleSet.empty, bare]
    constructor
    · intro accepts
      cases accepts
    · intro given
      obtain ⟨rule, found, -⟩ := given
      cases found

theorem register {s : RuleSet} (numbered : Numbered s) (rooted : s.graph.HasRoot)
    (source : Source) : Numbered (s.registerSource source) where
  index_eq {i rule} found := by
    rcases (getElem?_registerSource s source i rule).mp found with old | ⟨last, new⟩
    · exact numbered.index_eq old
    · rw [← new, last]
      rfl
  accept_iff i j := by
    apply (Automaton.accept_attach rooted source.pattern s.rules.size j i).trans
    simp only [getElem?_registerSource, numbered.accept_iff]
    constructor
    · intro either
      rcases either with ⟨rule, found, exit⟩ | ⟨exit, last⟩
      · exact ⟨rule, .inl found, exit⟩
      · exact ⟨s.nextRule source, .inr ⟨last, rfl⟩, exit⟩
    · intro given
      obtain ⟨rule, old | ⟨last, new⟩, exit⟩ := given
      · exact .inl ⟨rule, old, exit⟩
      · rw [← new] at exit
        exact .inr ⟨exit, last⟩

theorem ofList (sources : List Source) : Numbered (ofList sources) := by
  induction sources using List.reverseRecOn with
  | nil => exact .empty
  | append_singleton sources source ih =>
      rw [ofList_concat]
      exact ih.register (Holds.ofList sources).root source

end Numbered

theorem sources_ofList (sources : List Source) :
    (ofList sources).rules.toList.map Rule.source = sources := by
  induction sources using List.reverseRecOn with
  | nil => rfl
  | append_singleton sources source ih =>
      rw [ofList_concat, registerSource, register, Array.toList_push, List.map_append, ih]
      rfl

theorem compiled_ofList (sources : List Source) : (ofList sources).compiled = none := by
  induction sources using List.reverseRecOn with
  | nil => rfl
  | append_singleton sources source _ =>
      rw [ofList_concat]
      rfl

/-- What holds of a set that was given some rules: it holds these in order, each is numbered by its
place, the automaton accepts it in the exit of its fragment, and an automaton that is kept is the one
that the graph compiles to. -/
structure Sound (s : RuleSet) (sources : List Source) : Prop extends Numbered s where
  sources_eq : s.rules.toList.map Rule.source = sources
  compiled_eq : ∀ {d}, s.compiled = some d → d = s.build

def Kept (s : RuleSet) (sources : List Source) : Prop :=
  Alike s (ofList sources)

namespace Kept

variable {s : RuleSet} {sources : List Source}

theorem compile_eq (kept : Kept s sources) : s.compile.1 = s.build := by
  rw [Alike.compile_eq kept, (Holds.ofList sources).compile_eq, build, build, Alike.graph_eq kept]

theorem compiled_eq (kept : Kept s sources) {d : Dfa} (cached : s.compiled = some d) :
    d = s.build := by
  rw [← kept.compile_eq, compile, cached]

theorem sound (kept : Kept s sources) : Sound s sources := by
  obtain ⟨index, accept⟩ := Numbered.ofList sources
  have list := sources_ofList sources
  rw [← Alike.rules_eq kept] at index accept list
  rw [← Alike.graph_eq kept] at accept
  exact ⟨⟨index, accept⟩, list, kept.compiled_eq⟩

theorem holds (kept : Kept s sources) : Holds s sources := by
  obtain ⟨root, yields, names, -⟩ := Holds.ofList sources
  rw [← Alike.graph_eq kept] at root yields
  rw [← Alike.rules_eq kept] at names
  refine ⟨root, yields, names, ?_⟩
  cases cached : s.compiled with
  | none => exact .inl rfl
  | some d => exact .inr (congrArg some (kept.compiled_eq cached))

theorem response_lt (kept : Kept s sources) {w : List UInt8} {rule : Nat}
    (response : s.build.response w = some (some rule)) : rule < s.rules.size := by
  have lowest := kept.holds.isLowest_response_build w
  rw [response] at lowest
  obtain ⟨⟨source, found, -⟩, -⟩ := lowest
  rw [kept.holds.size_eq]
  exact (List.getElem?_eq_some_iff.mp found).1

/-- A set made of rules is, after an operation, alike to the one made of these and the added ones. -/
theorem ofList_perform (sources : List Source) (op : Operation) :
    Kept ((ofList sources).perform op).2 (sources ++ op.added) := by
  have same : ∀ {s}, Alike s (ofList sources) → Kept s (sources ++ []) := by
    intro s alike
    rwa [List.append_nil]
  have grown : ∀ source, Kept ((ofList sources).registerSource source) (sources ++ [source]) := by
    intro source
    rw [← ofList_concat]
    exact .refl _
  cases op with
  | register source => exact grown source
  | registerText u name text =>
      rw [Operation.added]
      cases read : Pattern.parse u text with
      | error e =>
          rw [registerText_error read]
          exact same (.refl _)
      | ok pattern =>
          rw [registerText_ok read]
          exact grown _
  | compile => exact same (alike_compile _)
  | invalidate =>
      have bare : (ofList sources).invalidate = ofList sources := by
        rw [invalidate, ← compiled_ofList sources]
      exact same (bare ▸ .refl _)
  | find input pos => exact same (alike_find _ input pos)
  | tables => exact same (alike_tables _)

theorem perform (kept : Kept s sources) (op : Operation) :
    Kept (s.perform op).2 (sources ++ op.added) :=
  (Alike.perform kept op).2.trans (ofList_perform sources op)

end Kept

section Pool

/-- What can be done with a pool of sets: an operation on one of them, or a copy of one, which joins
the others. -/
inductive Step where
  | perform (i : Nat) (op : Operation)
  | clone (i : Nat)

variable {α β : Type} (f : α → Operation → Answer × α) (g : β → Operation → Answer × β)

/-- A step on a pool whose sets answer operations by `f`.  A set that is not there answers nothing. -/
def step (pool : List α) : Step → Option Answer × List α
  | .perform i op =>
      match pool[i]? with
      | none => (none, pool)
      | some s => (some (f s op).1, pool.set i (f s op).2)
  | .clone i => (none, pool ++ pool[i]?.toList)

def run (pool : List α) : List Step → List (Option Answer) × List α
  | [] => ([], pool)
  | st :: rest =>
      let (answer, pool) := step f pool st
      let (answers, pool) := run pool rest
      (answer :: answers, pool)

variable {f g} {R : α → β → Prop} {as : List α} {bs : List β}

theorem rel_getElem? (related : List.Forall₂ R as bs) (i : Nat) : Option.Rel R as[i]? bs[i]? := by
  induction related generalizing i with
  | nil => exact .none
  | cons head _ ih =>
      cases i with
      | zero => exact .some head
      | succ i => exact ih i

theorem forall₂_set (related : List.Forall₂ R as bs) (i : Nat) {a : α} {b : β} (new : R a b) :
    List.Forall₂ R (as.set i a) (bs.set i b) := by
  induction related generalizing i with
  | nil => exact .nil
  | cons head tail ih =>
      cases i with
      | zero => exact .cons new tail
      | succ i => exact .cons head (ih i)

theorem step_simulates
    (simulates : ∀ a b op, R a b → (f a op).1 = (g b op).1 ∧ R (f a op).2 (g b op).2)
    (related : List.Forall₂ R as bs) (st : Step) :
    (step f as st).1 = (step g bs st).1 ∧ List.Forall₂ R (step f as st).2 (step g bs st).2 := by
  cases st with
  | perform i op =>
      have here := rel_getElem? related i
      rw [step, step]
      generalize as[i]? = a, bs[i]? = b at here
      cases here with
      | none => exact ⟨rfl, related⟩
      | some here =>
          obtain ⟨answer, next⟩ := simulates _ _ op here
          exact ⟨congrArg some answer, forall₂_set related i next⟩
  | clone i =>
      have here := rel_getElem? related i
      rw [step, step]
      generalize as[i]? = a, bs[i]? = b at here
      cases here with
      | none => exact ⟨rfl, List.rel_append related .nil⟩
      | some here => exact ⟨rfl, List.rel_append related (.cons here .nil)⟩

theorem run_simulates
    (simulates : ∀ a b op, R a b → (f a op).1 = (g b op).1 ∧ R (f a op).2 (g b op).2)
    (steps : List Step) (related : List.Forall₂ R as bs) :
    (run f as steps).1 = (run g bs steps).1 ∧
      List.Forall₂ R (run f as steps).2 (run g bs steps).2 := by
  induction steps generalizing as bs with
  | nil => exact ⟨rfl, related⟩
  | cons st rest ih =>
      obtain ⟨answer, next⟩ := step_simulates simulates related st
      obtain ⟨answers, final⟩ := ih next
      exact ⟨congrArg₂ List.cons answer answers, final⟩

end Pool

/-- An operation on a list of rules: the answer is that of a set made of them for this operation. -/
def performFresh (sources : List Source) (op : Operation) : Answer × List Source :=
  (((ofList sources).perform op).1, sources ++ op.added)

theorem Kept.simulates (s : RuleSet) (sources : List Source) (op : Operation)
    (kept : Kept s sources) :
    (s.perform op).1 = (performFresh sources op).1 ∧
      Kept (s.perform op).2 (performFresh sources op).2 :=
  ⟨(Alike.perform kept op).1, kept.perform op⟩

/-- Operations and copies in any order, from an empty set: every answer is the one of a set made
afresh of the rules that were registered, in their order; every set stays sound; and a rule whose
pattern cannot be read leaves all sets as they are, with what they keep compiled. -/
theorem run_pool_spec (steps : List Step) :
    (run perform [.empty] steps).1 = (run performFresh [[]] steps).1 ∧
    List.Forall₂ Sound (run perform [.empty] steps).2 (run performFresh [[]] steps).2 ∧
    ∀ (i : Nat) (u : Universe) (name text : String) (e : Pattern.Error),
      Pattern.parse u text = .error e →
      step perform (run perform [.empty] steps).2 (.perform i (.registerText u name text)) =
        ((run perform [.empty] steps).2[i]?.map fun _ => .refused e,
          (run perform [.empty] steps).2) := by
  have start : List.Forall₂ Kept [RuleSet.empty] [[]] := .cons (.refl _) .nil
  obtain ⟨answers, kept⟩ := run_simulates Kept.simulates steps start
  refine ⟨answers, kept.imp fun _ _ => Kept.sound, fun i u name text e unread => ?_⟩
  generalize (run perform [.empty] steps).2 = pool
  cases found : pool[i]? with
  | none => simp only [step, found, Option.map_none]
  | some s =>
      obtain ⟨inside, same⟩ := List.getElem?_eq_some_iff.mp found
      simp only [step, found, registerText_error unread, Option.map_some]
      rw [← same, List.set_getElem_self]

end RuleSet

end Munch
