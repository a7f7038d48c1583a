/-
# Runs

A run steps until it is told to stop or its budget of attempts is spent, and
delivers every trap on the way. It is asked whether to stop before each step,
and once more at the end of the budget. A trap that cannot be delivered ends
the run, and so does a word that is not implemented.

Key definitions: `Exit`, `RunResult`, `Cpu.run`.
-/
import SparcIU.Execution.Step
import SparcIU.Execution.Delivery

namespace SparcIU

/-- How a run ended. -/
inductive Exit where
  | stopped
  | budgetSpent
  | trapped (t : Trap)
  | unimplemented (word : Word)
  deriving DecidableEq, Repr

structure RunResult (σ : Type) where
  exit : Exit
  /-- The completed rounds: steps, with the delivery of their traps. -/
  steps : Nat
  /-- How often the run was asked whether to stop. -/
  asked : Nat
  cpu : Cpu
  device : σ

namespace Cpu

/-- Runs from `steps` rounds on for at most `budget` more. `stop` sees the
rounds completed so far and the device. -/
def runFrom (bus : Bus σ) (stop : Nat → σ → Bool) :
    Nat → Nat → Nat → Cpu → σ → RunResult σ
  | 0, steps, asked, c, s =>
    ⟨if stop steps s then .stopped else .budgetSpent, steps, asked + 1, c, s⟩
  | budget + 1, steps, asked, c, s =>
    if stop steps s then ⟨.stopped, steps, asked + 1, c, s⟩
    else
      match c.step.hold bus s with
      | ((.completed, c), s) => runFrom bus stop budget (steps + 1) (asked + 1) c s
      | ((.unimplemented word, c), s) => ⟨.unimplemented word, steps, asked + 1, c, s⟩
      | ((.trapped t, c), s) =>
        match c.deliver.hold bus s with
        | ((some refused, c), s) => ⟨.trapped refused, steps, asked + 1, c, s⟩
        | ((none, c), s) =>
          runFrom bus stop budget (steps + 1) (asked + 1) c (bus.hear (.delivered steps t) s)

/-- Runs for at most `budget` rounds. -/
def run (bus : Bus σ) (stop : Nat → σ → Bool) (budget : Nat) (c : Cpu) (s : σ) : RunResult σ :=
  runFrom bus stop budget 0 0 c s

end Cpu
end SparcIU
