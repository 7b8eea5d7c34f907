import Munch.Proofs.Lexer.Export
import Munch.Proofs.Lexer.Tiling

/-!
The modes of a lexer and the active one, after any requests.

A request is an operation, or a scan of an input in which modes are switched between tokens.  A scan
does to the lexer what searches and switches do (`lexer_calls`), so that requests are sequences of
operations (`serveAll_eq`).

What an operation makes active is `INITIAL` when it is added or a mode that is switched to
(`active_perform`); from this follows that the active mode is always there, and when there is none
(`Tracked.performAll`).  An operation leaves every mode alone but the one it works on
(`kept_performAll`).  `Orderly` says all that the requests keep, and how the lexer behind them
answers.
-/

set_option autoImplicit false

namespace Munch

namespace TokenStream

def operations (s : TokenStream) : List Call → List Lexer.Operation
  | [] => []
  | .next :: rest =>
      (if s.done then [] else [.find s.input s.pos]) ++ (s.call .next).2.operations rest
  | .setMode name :: rest => .setMode name :: (s.call (.setMode name)).2.operations rest

theorem lexer_next (s : TokenStream) :
    s.next.2.lexer = if s.done then s.lexer else s.lexer.perform (.find s.input s.pos) := by
  rw [next, Lexer.perform]
  split
  · rfl
  · cases s.lexer.find s.input s.pos with
    | error e => rfl
    | ok answer =>
        obtain ⟨outcome, lexer⟩ := answer
        cases outcome <;> rfl

theorem lexer_setMode (s : TokenStream) (name : String) :
    (s.call (.setMode name)).2.lexer = s.lexer.perform (.setMode name) := by
  rw [call, setMode, Lexer.perform, Lexer.switched]
  cases s.lexer.setMode name <;> rfl

theorem lexer_calls (s : TokenStream) (cs : List Call) :
    (s.calls cs).2.lexer = s.lexer.performAll (s.operations cs) := by
  induction cs generalizing s with
  | nil => rfl
  | cons c rest ih =>
      rw [calls, ih]
      cases c with
      | next =>
          rw [operations, Lexer.performAll, Lexer.performAll, List.foldl_append, call, lexer_next]
          cases s.done <;> rfl
      | setMode name =>
          rw [operations, lexer_setMode]
          rfl

end TokenStream

namespace Lexer

/-- What can be asked of a lexer: an operation, or to scan an input with switches in between. -/
inductive Request where
  | perform (op : Operation)
  | scan (input : List UInt8) (calls : List TokenStream.Call)

namespace Request

def added : Request → List String
  | .perform op => op.added
  | .scan _ _ => []

def operations (l : Lexer) : Request → List Operation
  | .perform op => [op]
  | .scan input calls => (TokenStream.start l input).operations calls

end Request

def serve (l : Lexer) : Request → Lexer
  | .perform op => l.perform op
  | .scan input calls => ((TokenStream.start l input).calls calls).2.lexer

def serveAll (l : Lexer) (requests : List Request) : Lexer :=
  requests.foldl serve l

def switches (l : Lexer) : Operation → List String
  | .setMode name =>
      match l.setMode name with
      | .ok _ => [name]
      | .error _ => []
  | _ => []

def switchesAll (l : Lexer) : List Operation → List String
  | [] => []
  | op :: rest => l.switches op ++ (l.perform op).switchesAll rest

def history (l : Lexer) : List Request → List Operation
  | [] => []
  | request :: rest => request.operations l ++ (l.serve request).history rest

variable {l m : Lexer} {requests : List Request}

theorem serve_eq (l : Lexer) (request : Request) :
    l.serve request = l.performAll (request.operations l) := by
  cases request with
  | perform op => rfl
  | scan input calls => exact TokenStream.lexer_calls _ calls

theorem serveAll_eq (l : Lexer) (requests : List Request) :
    l.serveAll requests = l.performAll (l.history requests) := by
  induction requests generalizing l with
  | nil => rfl
  | cons request rest ih =>
      rw [history, performAll, List.foldl_append, ← performAll, ← performAll, ← serve_eq, ← ih]
      rfl

theorem added_operations (l : Lexer) (request : Request) :
    (request.operations l).flatMap Operation.added = request.added := by
  cases request with
  | perform op => exact List.flatMap_singleton ..
  | scan input calls =>
      rw [Request.operations, Request.added]
      generalize TokenStream.start l input = s
      induction calls generalizing s with
      | nil => rfl
      | cons c rest ih =>
          cases c with
          | next =>
              rw [TokenStream.operations, List.flatMap_append, ih]
              cases s.done <;> rfl
          | setMode name =>
              rw [TokenStream.operations, List.flatMap_cons, ih]
              rfl

theorem added_history (l : Lexer) (requests : List Request) :
    (l.history requests).flatMap Operation.added = requests.flatMap Request.added := by
  induction requests generalizing l with
  | nil => rfl
  | cons request rest ih =>
      rw [history, List.flatMap_append, ih, added_operations, List.flatMap_cons]

section Active

theorem switches_setMode (l : Lexer) (name : String) :
    l.switches (.setMode name) = if name ∈ l.names then [name] else [] := by
  rw [switches, setMode]
  split
  · rename_i given
    split at given
    · rename_i known
      rw [if_pos known]
    · cases given
  · rename_i given
    split at given
    · cases given
    · rename_i unknown
      rw [if_neg unknown]

/-- The mode that an operation makes active, if any. -/
def activated (l : Lexer) : Operation → Option String
  | .addMode name _ => if name ∉ l.names ∧ name = initial then some initial else none
  | .setMode name => if name ∈ l.names then some name else none
  | _ => none

theorem active_perform (l : Lexer) (op : Operation) :
    (l.perform op).active = (l.activated op).or l.active := by
  cases op with
  | addMode name ops =>
      by_cases present : name ∈ l.names
      · rw [addMode_present present]
        simp [activated, present]
      · rw [addMode_new present]
        by_cases first : name = initial
        · subst first
          simp [activated, present]
        · simp [activated, first]
  | setMode name =>
      rw [perform, switched, activated, setMode]
      by_cases known : name ∈ l.names
      · rw [if_pos known, if_pos known, Option.some_or]
      · rw [if_neg known, if_neg known, Option.none_or]
  | onMode name op =>
      rw [perform]
      cases l.mode? name <;> rfl
  | replaceMode name ops => exact Option.none_or.symm
  | find input pos => exact (alike_perform_find l input pos).active_eq
  | compile => exact Option.none_or.symm
  | exportTables => exact (alike_perform_exportTables l).active_eq

/-- A mode `INITIAL` that comes late takes over from the mode that was switched to. -/
example : (empty.performAll [.addMode "A" [], .setMode "A", .addMode "INITIAL" []]).active =
    some "INITIAL" := by
  decide

theorem names_perform (l : Lexer) (op : Operation) :
    (l.perform op).names = l.names ++ op.added.removeAll l.names :=
  (l.effect_perform op).names_eq

/-- An operation makes a mode active that is there afterwards, and it does so if it adds `INITIAL` or
succeeds to switch. -/
theorem activated_cases (l : Lexer) (op : Operation) :
    (∃ name, l.activated op = some name ∧ name ∈ (l.perform op).names ∧
      (initial ∈ (l.perform op).names ∨ l.switches op ≠ [])) ∨
    (l.activated op = none ∧ l.switches op = [] ∧
      (initial ∈ (l.perform op).names ↔ initial ∈ l.names)) := by
  rw [names_perform]
  cases op with
  | addMode name ops =>
      rw [activated]
      by_cases present : name ∈ l.names
      · refine .inr ⟨if_neg fun new => new.1 present, rfl, ?_⟩
        simp [Operation.added, List.removeAll, present]
      · by_cases first : name = initial
        · subst first
          refine .inl ⟨initial, if_pos ⟨present, rfl⟩, ?_⟩
          simp [Operation.added, List.removeAll, present]
        · refine .inr ⟨if_neg fun new => first new.2, rfl, ?_⟩
          simp [Operation.added, List.removeAll, present, Ne.symm first]
  | setMode name =>
      rw [activated, switches_setMode]
      by_cases known : name ∈ l.names
      · exact .inl ⟨name, if_pos known, List.mem_append_left _ known, .inr (by simp [known])⟩
      · exact .inr ⟨if_neg known, if_neg known, by simp [Operation.added, List.removeAll]⟩
  | _ => exact .inr ⟨rfl, rfl, by simp [Operation.added, List.removeAll]⟩

/-- The active mode is there, and it is missing only as long as `INITIAL` is and nothing was switched
to. -/
structure Tracked (l : Lexer) (switched : List String) : Prop where
  active_mem : ∀ name, l.active = some name → name ∈ l.names
  active_eq_none_iff : l.active = none ↔ initial ∉ l.names ∧ switched = []

namespace Tracked

variable {switched : List String}

theorem empty : Tracked empty [] where
  active_mem _ active := nomatch active
  active_eq_none_iff := ⟨fun _ => ⟨List.not_mem_nil, rfl⟩, fun _ => rfl⟩

theorem perform (tracked : Tracked l switched) (op : Operation) :
    Tracked (l.perform op) (switched ++ l.switches op) := by
  have active := l.active_perform op
  rcases l.activated_cases op with ⟨name, activated, present, why⟩ | ⟨none, unswitched, same⟩
  · rw [activated, Option.some_or] at active
    refine ⟨fun other is => ?_, ?_⟩
    · rw [active] at is
      cases is
      exact present
    · rw [active]
      refine ⟨nofun, fun ⟨missing, nothing⟩ => ?_⟩
      rcases why with added | switched
      · exact absurd added missing
      · exact absurd (List.append_eq_nil_iff.mp nothing).2 switched
  · rw [none, Option.none_or] at active
    refine ⟨fun other is => ?_, ?_⟩
    · rw [names_perform]
      exact List.mem_append_left _ (tracked.active_mem other (active ▸ is))
    · rw [active, same, unswitched, List.append_nil]
      exact tracked.active_eq_none_iff

theorem performAll (tracked : Tracked l switched) (ops : List Operation) :
    Tracked (l.performAll ops) (switched ++ l.switchesAll ops) := by
  induction ops generalizing l switched with
  | nil =>
      rw [switchesAll, List.append_nil]
      exact tracked
  | cons op rest ih =>
      rw [switchesAll, ← List.append_assoc]
      exact ih (tracked.perform op)

end Tracked

end Active

/-- The operation is one on the rules of the mode. -/
def Operation.WorksOn : Operation → String → Prop
  | .onMode name _, key => name = key
  | .replaceMode name _, key => name = key
  | _, _ => False

def Request.WorksOn : Request → String → Prop
  | .perform op, name => op.WorksOn name
  | .scan _ _, _ => False

def Kept (l m : Lexer) (name : String) : Prop :=
  ∃ rules other, l.mode? name = some rules ∧ m.mode? name = some other ∧
    RuleSet.Alike other rules

section Kept

variable {name : String} {rules : RuleSet}

theorem Kept.of_mode?_eq (present : l.mode? name = some rules)
    (same : m.mode? name = l.mode? name) : Kept l m name :=
  ⟨rules, rules, present, same.trans present, .refl rules⟩

theorem Kept.of_alike (present : l.mode? name = some rules) (alike : Alike l m) : Kept l m name := by
  obtain ⟨other, same, sets⟩ := alike.mode?_some present
  exact ⟨rules, other, present, same, sets.symm⟩

theorem mode?_setRules_of_ne {key : String} (apart : key ≠ name) (l : Lexer) (rules : RuleSet) :
    (l.setRules key rules).mode? name = l.mode? name := by
  rw [mode?_setRules, if_neg apart.symm]

theorem kept_perform (present : l.mode? name = some rules) {op : Operation}
    (apart : ¬ op.WorksOn name) : Kept l (l.perform op) name := by
  cases op with
  | addMode key ops =>
      by_cases had : key ∈ l.names
      · rw [addMode_present had]
        exact .of_mode?_eq present rfl
      · rw [addMode_new had]
        refine .of_mode?_eq present ?_
        rw [mode?_append, ← mode?, present, Option.some_or]
  | setMode key =>
      rw [perform, switched, setMode]
      refine .of_mode?_eq present ?_
      split
      · rename_i given
        split at given
        · cases given
          rfl
        · cases given
      · rfl
  | onMode key op =>
      rw [perform]
      cases l.mode? key with
      | none => exact .of_mode?_eq present rfl
      | some old => exact .of_mode?_eq present (mode?_setRules_of_ne apart l _)
  | replaceMode key ops => exact .of_mode?_eq present (mode?_setRules_of_ne apart l _)
  | find input pos => exact .of_alike present (alike_perform_find l input pos).symm
  | compile => exact .of_alike present (alike_compile l).symm
  | exportTables => exact .of_alike present (alike_perform_exportTables l).symm

theorem Kept.trans {k : Lexer} (first : Kept l m name) (second : Kept m k name) : Kept l k name := by
  obtain ⟨rules, other, present, same, sets⟩ := first
  obtain ⟨old, last, again, found, kept⟩ := second
  rw [same] at again
  cases again
  exact ⟨rules, last, present, found, kept.trans sets⟩

theorem kept_performAll {ops : List Operation} (apart : ∀ op ∈ ops, ¬ op.WorksOn name)
    (present : l.mode? name = some rules) : Kept l (l.performAll ops) name := by
  induction ops generalizing l rules with
  | nil => exact .of_mode?_eq present rfl
  | cons op rest ih =>
      obtain ⟨own, later⟩ := List.forall_mem_cons.mp apart
      have step := kept_perform present own
      have ⟨_, other, _, same, _⟩ := step
      exact step.trans (ih later same)

theorem not_worksOn_operations (s : TokenStream) (cs : List TokenStream.Call) :
    ∀ op ∈ s.operations cs, ¬ op.WorksOn name := by
  induction cs generalizing s with
  | nil => exact fun _ mem => nomatch mem
  | cons c rest ih =>
      cases c with
      | next =>
          refine List.forall_mem_append.mpr ⟨fun op mem => ?_, ih _⟩
          split at mem
          · cases mem
          · rw [List.mem_singleton.mp mem]
            exact id
      | setMode key => exact List.forall_mem_cons.mpr ⟨id, ih _⟩

theorem kept_serve (present : l.mode? name = some rules) {request : Request}
    (apart : ¬ request.WorksOn name) : Kept l (l.serve request) name := by
  rw [serve_eq]
  refine kept_performAll ?_ present
  cases request with
  | perform op => exact List.forall_mem_singleton.mpr apart
  | scan input calls => exact not_worksOn_operations _ calls

end Kept

theorem names_scan (l : Lexer) (input : List UInt8) (calls : List TokenStream.Call) :
    (l.serve (.scan input calls)).names = l.names := by
  have nothing := List.flatMap_eq_nil_iff.mp (added_operations l (.scan input calls))
  rw [serve_eq]
  generalize (Request.scan input calls).operations l = ops at nothing
  induction ops generalizing l with
  | nil => rfl
  | cons op rest ih =>
      obtain ⟨own, later⟩ := List.forall_mem_cons.mp nothing
      refine (ih (l.perform op) later).trans ?_
      rw [names_perform, own]
      exact List.append_nil _

theorem mode?_isSome_of_mem {name : String} (mem : name ∈ l.names) :
    ∃ rules, l.mode? name = some rules := by
  obtain ⟨mode, present, rfl⟩ := List.mem_map.mp mem
  rw [mode?]
  generalize l.modes = modes at present
  induction modes with
  | nil => cases present
  | cons first rest ih =>
      rw [lookup_cons_if]
      split
      · exact ⟨_, rfl⟩
      · rename_i apart
        cases present with
        | head => exact absurd rfl apart
        | tail _ later => exact ih later

theorem mode?_eq_none {name : String} (unknown : name ∉ l.names) : l.mode? name = none := by
  rw [mode?, List.lookup_eq_none_iff]
  intro mode present
  have apart : name ≠ mode.1 := fun same => unknown (same ▸ List.mem_map_of_mem present)
  exact bne_iff_ne.mpr apart

theorem Tracked.find_eq_error_iff {switched : List String} (tracked : Tracked l switched)
    (input : List UInt8) (pos : Nat) (e : Error) :
    l.find input pos = .error e ↔ l.active = none ∧ e = .missingInitial := by
  cases active : l.active with
  | none =>
      have inactive : l.activeRules? = none := activeRules?_eq_none_iff.mpr (by simp [active])
      rw [find_of_inactive inactive]
      simp [eq_comm]
  | some name =>
      obtain ⟨rules, present⟩ := mode?_isSome_of_mem (tracked.active_mem name active)
      rw [find_of_active active present]
      simp

theorem mem_names_performAll {name : String} (mem : name ∈ l.names) (ops : List Operation) :
    name ∈ (l.performAll ops).names := by
  induction ops generalizing l with
  | nil => exact mem
  | cons op rest ih =>
      apply ih
      rw [names_perform]
      exact List.mem_append_left _ mem

/-- Where the mode `INITIAL` is, searches and exports succeed, whatever was asked before. -/
theorem Tracked.serveAll_ne_error {switched : List String} (tracked : Tracked l switched)
    (present : initial ∈ l.names) (requests : List Request) (e : Error) :
    (∀ input pos, (l.serveAll requests).find input pos ≠ .error e) ∧
      (l.serveAll requests).exportTables ≠ .error e := by
  rw [serveAll_eq]
  have later := tracked.performAll (l.history requests)
  have still := mem_names_performAll present (l.history requests)
  constructor
  · intro input pos failed
    have inactive := ((later.find_eq_error_iff input pos e).mp failed).1
    exact (later.active_eq_none_iff.mp inactive).1 still
  · rw [exportTables, if_pos still]
    intro failed
    cases failed

/-- A lexer that some requests lead to, and how it answers. -/
structure Orderly (requests : List Request) (l : Lexer) : Prop where
  names_nodup : l.names.Nodup
  names_eq : l.names = (requests.flatMap Request.added).eraseDups
  active_mem : ∀ name, l.active = some name → name ∈ l.names
  active_eq_none_iff : l.active = none ↔ initial ∉ requests.flatMap Request.added ∧
    empty.switchesAll (empty.history requests) = []
  addMode_known : ∀ name ∈ l.names, ∀ rules,
    l.addMode name rules = .error (.duplicateMode name)
  addMode_new : ∀ name, name ∉ l.names → ∀ rules, ∃ grown, l.addMode name rules = .ok grown ∧
    grown.names = l.names ++ [name] ∧ grown.mode? name = some rules ∧
    (∀ other, other ≠ name → grown.mode? other = l.mode? other) ∧
    grown.active = if name = initial then some initial else l.active
  setMode_known : ∀ name ∈ l.names, l.setMode name = .ok { l with active := some name }
  setMode_new : ∀ name, name ∉ l.names → l.setMode name = .error (.unknownMode name)
  addMode_refused : ∀ name ∈ l.names, ∀ ops, l.serve (.perform (.addMode name ops)) = l
  setMode_refused : ∀ name, name ∉ l.names → l.serve (.perform (.setMode name)) = l
  /-- Also in a scan exactly the modes are switched to that are there. -/
  scan_setMode_eq_error_iff : ∀ input calls name e,
    ((TokenStream.start l input).calls calls).2.setMode name = .error e ↔
      name ∉ l.names ∧ e = .unknownMode name
  find_eq_error_iff : ∀ input pos e,
    l.find input pos = .error e ↔ l.active = none ∧ e = .missingInitial
  exportTables_eq_error_iff : ∀ e,
    l.exportTables = .error e ↔ initial ∉ l.names ∧ e = .missingInitial
  /-- A request leaves the modes alone that it does not work on: their rules are the same, and what
  they find. -/
  others_kept : ∀ request name rules, l.mode? name = some rules → ¬ request.WorksOn name →
    ∃ kept, (l.serve request).mode? name = some kept ∧ kept.rules = rules.rules ∧
      ∀ input pos, (kept.find input pos).1 = (rules.find input pos).1

/-- Whatever was asked of a lexer: its modes have different names and stand in the order in which they
were added, the active one is one of them and is missing only as long as `INITIAL` is and no switch
succeeded, and every request is answered accordingly. -/
theorem serveAll_orderly (requests : List Request) :
    Orderly requests (empty.serveAll requests) := by
  have tracked := Tracked.empty.performAll (empty.history requests)
  have made := Made.empty.performAll (empty.history requests)
  have order := names_performAll (empty.history requests)
  rw [← serveAll_eq] at tracked made order
  rw [List.nil_append] at tracked
  rw [added_history] at order
  generalize empty.serveAll requests = l at tracked made order
  have unseen : initial ∉ l.names ↔ initial ∉ requests.flatMap Request.added := by
    rw [order, List.mem_eraseDups]
  constructor
  case names_nodup => exact made.nodup
  case names_eq => exact order
  case active_mem => exact tracked.active_mem
  case active_eq_none_iff => rw [tracked.active_eq_none_iff, unseen]
  case addMode_known => exact fun name known rules => if_pos known
  case addMode_new =>
    intro name new rules
    have absent : l.modes.lookup name = none := mode?_eq_none new
    refine ⟨_, if_neg new, by simp [names], ?_, fun other apart => ?_, ?_⟩
    · rw [mode?_append, absent, Option.none_or, if_pos rfl]
    · rw [mode?_append, if_neg apart, Option.or_none, mode?]
    · split
      · rename_i first
        rw [first]
      · rfl
  case setMode_known => exact fun name known => if_pos known
  case setMode_new => exact fun name new => if_neg new
  case addMode_refused => exact fun name known ops => addMode_present known ops
  case setMode_refused =>
    intro name new
    rw [serve, perform, switched, setMode, if_neg new]
  case scan_setMode_eq_error_iff =>
    intro input calls name e
    rw [← names_scan l input calls, serve, TokenStream.setMode, setMode]
    split <;> simp_all [Except.map, eq_comm]
  case find_eq_error_iff => exact tracked.find_eq_error_iff
  case exportTables_eq_error_iff =>
    intro e
    rw [exportTables]
    split <;> simp_all [eq_comm]
  case others_kept =>
    intro request name rules present apart
    obtain ⟨old, kept, same, found, sets⟩ := kept_serve present apart
    rw [present] at same
    cases same
    exact ⟨kept, found, sets.rules_eq, sets.find_eq⟩

end Lexer

end Munch
