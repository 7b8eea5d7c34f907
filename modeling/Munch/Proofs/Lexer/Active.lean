import Munch.Proofs.Lexer.Modes

/-!
The active mode, by its place and behind switches.

The active mode can be kept by its place among the modes as well as by its name: the place changes when
`INITIAL` is added and when a switch succeeds (`placeAfter`), it is always one of a mode, and that mode
has the name (`stands_performAll`).  So it comes to the same whether a search goes by the place or by the
name (`find_performAll`).

A stream takes its tokens from the mode that was switched to last, or from the one that was active
before (`next_eq_ok_iff_of_active`), and a switch to a mode that is not there changes nothing
(`calls_setMode_unknown`).
-/

set_option autoImplicit false

namespace Munch

namespace Lexer

variable {l m : Lexer} {place : Option Nat}

theorem switched_of_mem {name : String} (known : name ∈ l.names) :
    l.switched name = { l with active := some name } := by
  rw [switched, setMode, if_pos known]

theorem switched_of_not_mem {name : String} (unknown : name ∉ l.names) : l.switched name = l := by
  rw [switched, setMode, if_neg unknown]

section Places

/-- The active mode stands at a place, or none is active and there is no place. -/
def Stands (l : Lexer) : Option Nat → Prop
  | none => l.active = none
  | some i => ∃ name, l.names[i]? = some name ∧ l.active = some name

def placeAfter (l : Lexer) (place : Option Nat) : Operation → Option Nat
  | .addMode name _ => if name ∉ l.names ∧ name = initial then some l.modes.length else place
  | .setMode name => (l.names.idxOf? name).or place
  | _ => place

def placeAfterAll (l : Lexer) (place : Option Nat) : List Operation → Option Nat
  | [] => place
  | op :: rest => (l.perform op).placeAfterAll (l.placeAfter place op) rest

theorem setRules_eq_set (nodup : l.names.Nodup) {i : Nat} {name : String} {old : RuleSet}
    (here : l.modes[i]? = some (name, old)) (rules : RuleSet) :
    l.setRules name rules = { l with modes := l.modes.set i (name, rules) } := by
  have own : l.names[i]? = some name := by
    rw [names, List.getElem?_map, here]
    rfl
  rw [setRules, Lexer.mk.injEq]
  refine ⟨List.ext_getElem? fun j => ?_, rfl⟩
  rw [List.getElem?_map, List.getElem?_set]
  by_cases same : i = j
  · subst same
    have inside := (List.getElem?_eq_some_iff.mp here).1
    rw [here, Option.map_some, if_pos rfl, if_pos rfl, if_pos inside]
  · rw [if_neg same]
    cases other : l.modes[j]? with
    | none => rfl
    | some mode =>
        have apart : mode.1 ≠ name := by
          intro again
          have alike : l.names[j]? = some name := by
            rw [names, List.getElem?_map, other, Option.map_some, again]
          have inside := (List.getElem?_eq_some_iff.mp own).1
          exact same ((List.getElem?_inj inside nodup).mp (own.trans alike.symm))
        rw [Option.map_some, if_neg apart]

namespace Stands

theorem grow (stands : l.Stands place) {fresh : List String} (active : m.active = l.active)
    (names : m.names = l.names ++ fresh) : m.Stands place := by
  cases place with
  | none => exact active.trans stands
  | some i =>
      obtain ⟨name, here, is⟩ := stands
      have inside := (List.getElem?_eq_some_iff.mp here).1
      refine ⟨name, ?_, active.trans is⟩
      rw [names, List.getElem?_append_left inside]
      exact here

theorem perform (stands : l.Stands place) (op : Operation) :
    (l.perform op).Stands (l.placeAfter place op) := by
  have active := l.active_perform op
  have names := l.names_perform op
  cases op with
  | addMode name ops =>
      by_cases opens : name ∉ l.names ∧ name = initial
      · rw [activated, if_pos opens, Option.some_or] at active
        rw [placeAfter, if_pos opens]
        refine ⟨initial, ?_, active⟩
        have last : l.modes.length = l.names.length := (List.length_map _).symm
        rw [addMode_new opens.1, last, ← opens.2, Lexer.names, List.map_append]
        exact List.getElem?_concat_length
      · rw [activated, if_neg opens, Option.none_or] at active
        rw [placeAfter, if_neg opens]
        exact stands.grow active names
  | setMode name =>
      rw [activated] at active
      rw [placeAfter]
      cases found : l.names.idxOf? name with
      | none =>
          rw [if_neg (List.idxOf?_eq_none_iff.mp found), Option.none_or] at active
          exact stands.grow active names
      | some i =>
          rw [List.idxOf?, List.findIdx?_eq_some_iff_getElem] at found
          obtain ⟨inside, same, -⟩ := found
          have here : l.names[i]? = some name := by
            rw [List.getElem?_eq_getElem inside, eq_of_beq same]
          rw [if_pos (List.mem_of_getElem? here), Option.some_or] at active
          rw [Option.some_or]
          refine ⟨name, ?_, active⟩
          rw [names]
          exact (List.getElem?_append_left inside).trans here
  | _ => exact stands.grow (active.trans Option.none_or) names

theorem performAll (stands : l.Stands place) (ops : List Operation) :
    (l.performAll ops).Stands (l.placeAfterAll place ops) := by
  induction ops generalizing l place with
  | nil => exact stands
  | cons op rest ih => exact ih (stands.perform op)

theorem find_none (stands : l.Stands none) (input : List UInt8) (pos : Nat) :
    l.find input pos = .error .missingInitial := by
  apply find_of_inactive
  rw [activeRules?, stands]

theorem find_some (made : Made l) {i : Nat} (stands : l.Stands (some i)) (input : List UInt8)
    (pos : Nat) :
    ∃ name rules, l.modes[i]? = some (name, rules) ∧ l.active = some name ∧
      l.find input pos = .ok ((rules.find input pos).1,
        { l with modes := l.modes.set i (name, (rules.find input pos).2) }) := by
  obtain ⟨name, here, active⟩ := stands
  rw [names, List.getElem?_map] at here
  obtain ⟨⟨_, rules⟩, mode, rfl⟩ := Option.map_eq_some_iff.mp here
  refine ⟨_, rules, mode, active, ?_⟩
  have present := made.mode?_eq (List.mem_of_getElem? mode)
  rw [find_of_active active present, setRules_eq_set made.nodup mode]

end Stands

theorem stands_performAll (ops : List Operation) :
    (empty.performAll ops).Stands (empty.placeAfterAll none ops) := by
  have inactive : empty.Stands none := rfl
  exact inactive.performAll ops

/-- Whatever was done: if there is a place, it is the place of a mode with the name of the active one, and
a search is one in that mode; if there is none, no mode is active. -/
theorem find_performAll (ops : List Operation) (input : List UInt8) (pos : Nat) :
    let l := empty.performAll ops
    match empty.placeAfterAll none ops with
    | none => l.active = none ∧ l.find input pos = .error .missingInitial
    | some i => ∃ name rules, l.modes[i]? = some (name, rules) ∧ l.active = some name ∧
        l.find input pos = .ok ((rules.find input pos).1,
          { l with modes := l.modes.set i (name, (rules.find input pos).2) }) := by
  intro l
  have stands := stands_performAll ops
  cases place : empty.placeAfterAll none ops with
  | none =>
      rw [place] at stands
      exact ⟨stands, stands.find_none input pos⟩
  | some i =>
      rw [place] at stands
      exact stands.find_some (Made.empty.performAll ops) input pos

end Places

end Lexer

namespace TokenStream

variable {l : Lexer} {input : List UInt8}

section Switches

/-- Those of the names that calls switch to, one after the other. -/
def switchesTo (names : List String) : List Call → List String
  | [] => []
  | .next :: rest => switchesTo names rest
  | .setMode name :: rest => (if name ∈ names then [name] else []) ++ switchesTo names rest

/-- Calls change nothing of a lexer but what is active, which is the mode that was switched to last. -/
theorem lexerAfter_eq (l : Lexer) (cs : List Call) :
    lexerAfter l cs = { l with active := (switchesTo l.names cs).getLast?.or l.active } := by
  induction cs generalizing l with
  | nil => rfl
  | cons c rest ih =>
      cases c with
      | next => exact ih l
      | setMode name =>
          have step : lexerAfter l (.setMode name :: rest) = lexerAfter (l.switched name) rest := rfl
          rw [step, switchesTo, List.getLast?_append, Option.or_assoc]
          by_cases known : name ∈ l.names
          · rw [Lexer.switched_of_mem known, ih, if_pos known]
            rfl
          · rw [Lexer.switched_of_not_mem known, ih, if_neg known]
            rfl

/-- A stream takes the next token from the rules of the mode that was switched to last, or of the one
that was active from the beginning. -/
theorem next_eq_ok_iff_of_active {cs : List Call} {name : String} {rules : RuleSet}
    (active : (switchesTo l.names cs).getLast?.or l.active = some name)
    (present : l.mode? name = some rules) :
    let s := ((start l input).calls cs).2
    s.done = false → ∀ token,
      s.next.1 = some (.ok token) ↔ (rules.find input s.pos).1 = .matched token := by
  intro s going token
  have scanned := (Scanned.start l input).calls cs
  have found : (lexerAfter l cs).found input s.pos = .ok (rules.find input s.pos).1 := by
    rw [lexerAfter_eq, active, Lexer.found]
    exact congrArg (Except.map Prod.fst)
      (Lexer.find_of_active (l := { l with active := some name }) rfl present input s.pos)
  rw [scanned.next_eq_ok_iff going, found, Except.ok.injEq]

theorem switchesTo_append (names : List String) (cs more : List Call) :
    switchesTo names (cs ++ more) = switchesTo names cs ++ switchesTo names more := by
  induction cs with
  | nil => rfl
  | cons c rest ih =>
      cases c with
      | next => exact ih
      | setMode name => rw [List.cons_append, switchesTo, switchesTo, ih, List.append_assoc]

/-- Behind a switch to a mode that is there a stream goes on with the rules of that mode. -/
theorem next_eq_ok_iff_of_setMode {name : String} {rules : RuleSet}
    (present : l.mode? name = some rules) (cs : List Call) :
    let s := ((start l input).calls (cs ++ [.setMode name])).2
    s.done = false → ∀ token,
      s.next.1 = some (.ok token) ↔ (rules.find input s.pos).1 = .matched token := by
  refine next_eq_ok_iff_of_active ?_ present
  have known : name ∈ l.names := List.mem_map_of_mem (f := Prod.fst) (Lexer.Made.mem_of_mode? present)
  rw [switchesTo_append, switchesTo, switchesTo, if_pos known, List.append_nil, List.getLast?_concat,
    Option.some_or]

/-- A switch to a mode that is not there changes nothing. -/
theorem calls_setMode_unknown {name : String} (unknown : name ∉ l.names) (cs : List Call) :
    (start l input).calls (cs ++ [.setMode name]) = (start l input).calls cs := by
  have same := (Scanned.start l input).calls cs
  have refused : ((start l input).calls cs).2.lexer.setMode name = .error (.unknownMode name) := by
    refine if_neg ?_
    rw [same.lexer.names_eq, lexerAfter_eq]
    exact unknown
  rw [calls_append, calls, calls, call, setMode, refused]
  simp [Except.map]

end Switches

end TokenStream

end Munch
