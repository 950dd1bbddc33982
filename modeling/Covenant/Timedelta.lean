import Covenant.Error

/-!
# Covenant — spans of time

`timedelta(days, seconds, weeks=.., hours=.., minutes=..)` is a number of seconds, added up at
compile time. Every product and every partial sum has to be a signed 64-bit number.
-/

namespace Covenant

/-- The 64-bit number of the given value, if there is one. -/
def int64? (n : Int) : Option Int64 :=
  if Int64.minValue.toInt ≤ n ∧ n ≤ Int64.maxValue.toInt then some (.ofInt n) else none

namespace Timedelta

/-- How many seconds a unit has. -/
def scale? : Ident → Option Int
  | "weeks" => some 604800
  | "days" => some 86400
  | "hours" => some 3600
  | "minutes" => some 60
  | "seconds" => some 1
  | _ => none

/-- The units of positional arguments. -/
def positional : List Ident := ["days", "seconds"]

/-- Adds the value of one unit to a number of seconds. -/
def add (total : Int64) (unit : Ident) (value : Expr) : Except ArgumentFault Int64 :=
  match scale? unit with
  | none => .error (.timedeltaUnit unit)
  | some scale =>
    match value.integer? with
    | none => .error (.timedeltaValue unit)
    | some n =>
      match int64? (n.toInt * scale) with
      | none => .error .timedeltaRange
      | some seconds =>
        match int64? (total.toInt + seconds.toInt) with
        | none => .error .timedeltaRange
        | some total => .ok total

/-- Adds the values of units, in order, to a number of seconds. -/
def addAll : Int64 → List (Ident × Expr) → Except ArgumentFault Int64
  | total, [] => .ok total
  | total, (unit, value) :: rest => do addAll (← add total unit value) rest

/-- The number of seconds that a call stands for. -/
def seconds (args : List Expr) (keywords : List (Ident × Expr)) : Except ArgumentFault Int64 :=
  if positional.length < args.length then
    .error .timedeltaPositional
  else
    addAll 0 (positional.zip args ++ keywords)

end Timedelta

end Covenant
