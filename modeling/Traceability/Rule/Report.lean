import Traceability.Rule.BrokenReference
import Traceability.Rule.Format
import Traceability.Rule.Structure

/-! Reports: the findings of a list of rules, suppressed findings apart. -/

namespace Traceability

structure Report where
  violations : List Finding
  suppressed : List Finding
deriving Repr, DecidableEq

namespace Report

/-- A run passes if no error is left that was not announced. -/
def passed (report : Report) : Bool :=
  !report.violations.any (fun finding => finding.severity = .error)

def count (report : Report) (severity : Severity) : Nat :=
  report.violations.countP (fun finding => finding.severity = severity)

def byRule (report : Report) (rule : String) : List Finding :=
  report.violations.filter (fun finding => finding.rule = rule)

/-- Adds findings that no rule made. -/
def extend (report : Report) (findings : List Finding) : Report :=
  { report with violations := Finding.sort (report.violations ++ findings) }

end Report

namespace Rule

/-- All rules. -/
def standard : List Rule :=
  [duplicateId, brokenReference, orphan, hierarchy, cycle, assertionSequence, metadata,
    storedHash]

/-- The report of the rules on a graph. -/
def report (rules : List Rule) (context : RuleContext) : Report :=
  let found := rules.flatMap (fun rule => rule.check context)
  let (suppressed, violations) := found.partition Finding.suppressed
  { violations := Finding.sort violations, suppressed := Finding.sort suppressed }

end Rule

end Traceability
