import Mathlib.Data.List.Nodup
import PegTree.Command.Run

/-!
# Codes of failures

A tool that runs the program sees of a failure its code.  There is one code for each `Cause`, and no two
causes have the same (`Cause.code_injective`), so the code tells the cause; the code that a failure is
reported with is that of its cause (`Failure.code_diagnostic`).
-/

namespace PegTree

/-- The causes of failures that codes tell apart. -/
inductive Cause where
  | unreadableFile
  | badEncoding
  | missingRoot
  | unreadableGrammar
  | duplicateRule
  | undefinedRule
  | invalidCharacter
  | leftRecursion
  | noEntry
  | unknownEntry
  | unexpected
  | recursionLimit
deriving DecidableEq

/-- The code of a cause. -/
def Cause.code : Cause → String
  | .unreadableFile => "rulecraft::source::read"
  | .badEncoding => "rulecraft::source::encoding"
  | .missingRoot => "rulecraft::source::walk"
  | .unreadableGrammar => "rulecraft::grammar::syntax"
  | .duplicateRule => "rulecraft::grammar::duplicate_rule"
  | .undefinedRule => "rulecraft::grammar::undefined_rule"
  | .invalidCharacter => "rulecraft::grammar::invalid_character"
  | .leftRecursion => "rulecraft::grammar::left_recursion"
  | .noEntry => "rulecraft::grammar::no_entry"
  | .unknownEntry => "rulecraft::grammar::unknown_entry"
  | .unexpected => "rulecraft::parse::unexpected"
  | .recursionLimit => "rulecraft::parse::recursion_limit"

/-- Every cause. -/
def Cause.all : List Cause :=
  [.unreadableFile, .badEncoding, .missingRoot, .unreadableGrammar, .duplicateRule, .undefinedRule,
    .invalidCharacter, .leftRecursion, .noEntry, .unknownEntry, .unexpected, .recursionLimit]

theorem Cause.mem_all (cause : Cause) : cause ∈ all := by
  cases cause <;> decide

/-- A code tells its cause. -/
theorem Cause.code_injective : Function.Injective Cause.code := by
  have hdistinct : (all.map code).Nodup := by decide +kernel
  exact fun a b => List.inj_on_of_nodup_map hdistinct a.mem_all b.mem_all

/-! ## Causes of failures -/

/-- Why a text cannot be had. -/
def SourceError.cause : SourceError → Cause
  | .unreadable _ => .unreadableFile
  | .badEncoding _ _ => .badEncoding
  | .missingRoot _ => .missingRoot

/-- Why no parser can be built. -/
def GrammarError.cause : GrammarError → Cause
  | .refused _ (.unreadable _) => .unreadableGrammar
  | .refused _ (.duplicateRule ..) => .duplicateRule
  | .refused _ (.undefinedRule ..) => .undefinedRule
  | .refused _ (.invalidCharacter ..) => .invalidCharacter
  | .refused _ (.leftRecursion ..) => .leftRecursion
  | .noEntry => .noEntry
  | .unknownEntry _ => .unknownEntry

/-- Why a text is not parsed. -/
def ParseError.cause : ParseError → Cause
  | .unexpected .. => .unexpected
  | .recursionLimit .. => .recursionLimit

/-- Why a run has ended. -/
def Failure.cause : Failure → Cause
  | .source e => e.cause
  | .grammar e => e.cause
  | .parse e => e.cause

/-- A failure is reported with the code of its cause. -/
theorem Failure.code_diagnostic (f : Failure) : f.diagnostic.code = f.cause.code := by
  cases f with
  | source e => cases e <;> rfl
  | grammar e =>
    cases e with
    | refused source fault => cases fault <;> rfl
    | noEntry | unknownEntry name => rfl
  | parse e => cases e <;> rfl

/-! ## Codes of runs -/

/-- The code with which a run has failed. -/
def Report.code? (report : Report) : Option String :=
  report.failure.map fun f => f.diagnostic.code

/-- A run has failed with the code of what has ended it. -/
theorem Report.code?_eq (report : Report) :
    report.code? = report.failure.map fun f => f.cause.code := by
  rw [code?]
  exact congrArg (report.failure.map ·) (funext Failure.code_diagnostic)

end PegTree
