/-
Faults: the steps that cannot be carried out.

A build reports what is wrong in the user's files as diagnostics, and what is wrong around it (an
unreadable configuration, a broken source map) as errors. A fault is neither. It marks a step
whose operands do not admit it, such as a cut of a text in the middle of a character, and whoever
asked for the step gets no result at all. Functions that can meet one say so in their type, and
the laws about them say for which operands they do not.
-/

set_option autoImplicit false

namespace Bundler

/-- Why a step could not be carried out. -/
inductive Fault where
  /-- A text was to be cut at an offset inside a character or behind its end. -/
  | badCut
  /-- A result does not fit the number range it is meant for. -/
  | overflow
  /-- A position was asked for that a list does not have. -/
  | outOfRange
  deriving DecidableEq

/-- The result of a cut, which is a fault where there is no such cut. -/
def Fault.ofCut {α : Type} : Option α → Except Fault α
  | some a => .ok a
  | none => .error .badCut

end Bundler
