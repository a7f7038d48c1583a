/-
# Remarks as text

A remark has a level, a message, and named numbers in decimal.

Key definitions: `Remark.level`, `Remark.message`, `Remark.values`,
`Remark.text`.
-/
import SparcIU.Execution.Step

namespace SparcIU
namespace Remark

/-- How much a remark matters. -/
def level : Remark → String
  | executes .. | annuls .. => "TRACE"
  | misalignedFetch .. | fetchFailed .. | misalignedLoad .. | loadFailed .. | misalignedStore ..
  | storeFailed .. | raises .. | enters .. | delivered .. => "DEBUG"
  | output .. | passed | failed .. => "INFO"
  | spillFailed .. | fillSkipped .. | fillFailed .. => "WARN"
  | unimplemented .. => "ERROR"

def message : Remark → String
  | executes _ i => i.relativeText
  | annuls _ i => "annulled: " ++ i.relativeText
  | misalignedFetch _ => "misaligned instruction fetch"
  | fetchFailed _ e => "instruction fetch failed: " ++ e.message
  | misalignedLoad _ => "misaligned load"
  | loadFailed _ e => "load failed: " ++ e.message
  | misalignedStore _ => "misaligned store"
  | storeFailed _ e => "store failed: " ++ e.message
  | raises _ t => "raise " ++ t.text
  | enters _ _ _ t => "enter " ++ t.text
  | spillFailed _ _ e => "window spill store failed: " ++ e.message
  | fillSkipped _ => "window fill with null stack pointer, skipped"
  | fillFailed _ _ e => "window fill load failed: " ++ e.message
  | delivered _ t => "delivered " ++ t.text
  | unimplemented pc word => unimplementedText pc word
  | output _ => "guest output"
  | passed => "guest test completed successfully"
  | failed _ => "guest test failed"

/-- The named numbers of a remark. -/
def values : Remark → List (String × Nat)
  | executes pc _ | annuls pc _ | misalignedFetch pc | fetchFailed pc _ | raises pc _ =>
    [("pc", pc.toNat)]
  | misalignedLoad a | loadFailed a _ | misalignedStore a | storeFailed a _ => [("addr", a.toNat)]
  | enters pc npc cwp _ => [("pc", pc.toNat), ("npc", npc.toNat), ("cwp", cwp)]
  | spillFailed a cwp _ | fillFailed a cwp _ => [("addr", a.toNat), ("cwp", cwp)]
  | fillSkipped cwp => [("cwp", cwp)]
  | delivered steps _ => [("steps", steps)]
  | unimplemented _ word => [("op", word.op), ("op2", word.op2), ("op3", word.op3)]
  | output v => [("value", v.toNat)]
  | passed => []
  | failed line => [("line", line.toNat)]

/-- The remark in one line. -/
def text (r : Remark) : String :=
  (r.values.map fun (name, n) => " " ++ name ++ "=" ++ n.repr).foldl (· ++ ·)
    (r.level ++ " " ++ r.message)

end Remark
end SparcIU
