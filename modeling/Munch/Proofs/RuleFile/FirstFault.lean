import Munch.Proofs.RuleFile.Contents
import Munch.Proofs.Text.Lines

/-!
The first line of a rule file that is wrong.

Lines are taken one after the other.  One that is wrong ends this, whatever stands behind it, and those
before it have all been taken (`Draft.addLines_error`).  When all lines are taken nothing can go wrong
any more (`compile_of_draft`), so that an error is one of the line that it names: the text before the
line compiles, and every text with the same first lines is refused for the same reason
(`compile_error_local`).
-/

set_option autoImplicit false

namespace Munch.RuleFile

def Cause.message (cause : Cause) : String :=
  match cause.patternError? with
  | none => cause.summary
  | some e => cause.summary ++ ": " ++ e.message

theorem message_atLine (number : Nat) (cause : Cause) :
    (Error.atLine number cause).message = "line " ++ toString number ++ ": " ++ cause.message := by
  rw [Error.message, Error.patternError?, Cause.message]
  cases cause.patternError? with
  | none => rfl
  | some e => simp only [Error.summary, String.append_assoc]

variable {u : Universe} {text : String} {error : Error}

namespace Draft

theorem addLines_error {d e : Draft} {number : Nat} {lines : List (List Char)}
    (failed : d.addLines u number lines = (e, some error)) :
    ∃ before cause, error = .atLine (number + before) cause ∧ before < lines.length ∧
      d.addLines u number (lines.take before) = (e, none) ∧
      ∀ more, d.addLines u number (lines.take (before + 1) ++ more) = (e, some error) := by
  induction lines generalizing d number with
  | nil => cases failed
  | cons line rest ih =>
      rw [addLines] at failed
      cases added : d.addLine u (.read (Text.chopReturn line)) with
      | error cause =>
          simp only [added] at failed
          cases failed
          refine ⟨0, cause, rfl, Nat.succ_pos _, rfl, fun more => ?_⟩
          rw [List.take_succ_cons, List.cons_append, addLines, added]
      | ok next =>
          simp only [added] at failed
          -- the wrong line is one further behind this one than behind the next
          obtain ⟨before, cause, same, inside, taken, wrong⟩ := ih failed
          refine ⟨before + 1, cause, ?_, Nat.succ_lt_succ inside, ?_, fun more => ?_⟩
          · rw [same, Nat.add_assoc, Nat.add_comm 1]
          · simp only [List.take_succ_cons, addLines, added, taken]
          · simp only [List.take_succ_cons, List.cons_append, addLines, added, wrong more]

end Draft

/-- A rule file is refused for a line, and for nothing else. -/
theorem compile_eq_error_iff : compile u text = .error error ↔ (draft u text).2 = some error := by
  cases drawn : draft u text with
  | mk d fault =>
      cases fault with
      | none => simp [compile_of_draft drawn]
      | some e => simp [compile, drawn]

/-- The text that ends before a line is drafted by the lines before it. -/
theorem draft_firstLines {k : Nat} (inside : k < (Text.lines text.toList).length) :
    draft u (.ofList (Text.firstLines k text.toList)) =
      Draft.new.addLines u 1 ((Text.lines text.toList).take k) := by
  have ended : k ≤ text.toList.count '\n' := by
    have most := Text.length_lines_le text.toList
    omega
  rw [draft, String.toList_ofList, Text.lines_firstLines ended]

/-- An error is made by a line of the text, which its message names.  The text that ends behind the
line feed before this line compiles.  If the line has a line feed, every text that begins with the lines
up to this one is refused with the same error. -/
theorem compile_error_local (failed : compile u text = .error error) :
    ∃ before cause, error = .atLine (before + 1) cause ∧
      error.message = "line " ++ toString (before + 1) ++ ": " ++ cause.message ∧
      (draft u text).2 = some error ∧
      before < (Text.lines text.toList).length ∧
      (∃ l, compile u (.ofList (Text.firstLines before text.toList)) = .ok l) ∧
      (before + 1 ≤ text.toList.count '\n' → ∀ later : String,
        Text.firstLines (before + 1) text.toList <+: later.toList →
          compile u later = .error error) := by
  have fault := compile_eq_error_iff.mp failed
  obtain ⟨d, drawn⟩ : ∃ d, draft u text = (d, some error) := ⟨_, Prod.ext rfl fault⟩
  obtain ⟨before, cause, rfl, inside, taken, wrong⟩ := Draft.addLines_error drawn
  rw [Nat.add_comm 1 before] at wrong fault ⊢
  refine ⟨before, cause, rfl, message_atLine _ _, fault, inside, ?_, fun ended later begins => ?_⟩
  · exact ⟨_, compile_of_draft ((draft_firstLines inside).trans taken)⟩
  · obtain ⟨more, same⟩ := begins
    have again : draft u later = (d, some (.atLine (before + 1) cause)) := by
      rw [draft, ← same, Text.lines_firstLines_append ended]
      exact wrong _
    exact compile_eq_error_iff.mpr (congrArg Prod.snd again)

theorem compile_error_local_openGroup :
    compile .bytes "a=>a\n\nb=>(b\nc=>c" = .error (.atLine 3 (.badPattern "b" .unclosedGroup)) ∧
      ∀ rest : String, compile .bytes ("a=>a\n\nb=>(b\n" ++ rest) =
        .error (.atLine 3 (.badPattern "b" .unclosedGroup)) := by
  have failed : compile .bytes "a=>a\n\nb=>(b\nc=>c" =
      .error (.atLine 3 (.badPattern "b" .unclosedGroup)) := by
    rw [compile_eq_error_iff]
    decide +kernel
  refine ⟨failed, fun rest => ?_⟩
  obtain ⟨before, cause, same, -, -, -, -, again⟩ := compile_error_local failed
  injection same with number
  cases number
  refine again (by decide) _ ?_
  rw [String.toList_append]
  exact List.prefix_append _ _

end Munch.RuleFile
