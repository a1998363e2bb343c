import Spoond.Lib.Fair

namespace Spoond.AdmitQueue.Wake

open Lib

-- The two flags of the wake-ups; `passes` counts the passes that the loops have started.
structure Flags where
  wakePending : Bool := false
  wakeScheduled : Bool := false
  passes : Nat := 0

inductive Task
  | depth
  | store
  | schedule
  | clear
  | start
  | pass
  | release
  | pending
  | retake
  | done

structure Env where
  depth : Nat := 1

def next (env : Env) (f : Flags) : Task → Option (Pool.Next Flags Task)
  | .depth => some { shared := f, task := if env.depth = 0 then .done else .store }
  | .store => some { shared := { f with wakePending := true }, task := .schedule }
  | .schedule =>
    if f.wakeScheduled then some { shared := f, task := .done }
    else some { shared := { f with wakeScheduled := true }, task := .done, spawned := [.clear] }
  | .clear => some { shared := { f with wakePending := false }, task := .start }
  | .start => some { shared := { f with passes := f.passes + 1 }, task := .pass }
  | .pass => some { shared := f, task := .release }
  | .release =>
    if f.wakeScheduled then some { shared := { f with wakeScheduled := false }, task := .pending }
    else some { shared := f, task := .done }
  | .pending => some { shared := f, task := if f.wakePending then .retake else .done }
  | .retake =>
    if f.wakeScheduled then some { shared := f, task := .done }
    else some { shared := { f with wakeScheduled := true }, task := .clear }
  | .done => none

def Task.entry : Task → Bool
  | .depth => true
  | _ => false

abbrev Sys := Pool Flags Task

abbrev step : Sys → Pool.Action Task Env → Option Sys :=
  Pool.step Task.entry next

-- A loop is active while it owns wakeScheduled: from the swap that starts it to the one that gives it back.
def Task.active : Task → Bool
  | .clear | .start | .pass | .release => true
  | _ => false

def Task.loops : Task → Bool
  | .clear | .start | .pass | .release | .pending | .retake => true
  | _ => false

end Spoond.AdmitQueue.Wake
