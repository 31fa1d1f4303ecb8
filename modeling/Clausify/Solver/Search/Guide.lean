import Clausify.Solver.Search.Code
import Clausify.Solver.Search.Queue

/-!
Which variable to decide next, and how. Variables that took part in recent conflicts come first:
each conflict raises the ranks of its variables by a step that grows, so older conflicts count less.
A variable is tried with the value it had last. None of this has to do with which answer is right,
only with how soon it is found.
-/

namespace Clausify.Search

structure Guide where
  /-- The ranks of the variables. -/
  ranks : Array Nat
  /-- By how much a conflict raises ranks. -/
  step : Nat := 1024
  queue : Queue := .empty
  /-- The number of entries in the queue. -/
  waiting : Nat := 0
  /-- One more than the rank under which a variable waits, or zero if it does not. -/
  queued : Array Nat
  /-- The last values of the variables. -/
  values : Array Bool

namespace Guide

/-- Lets a variable wait under its rank. -/
def enqueue (g : Guide) (k : Nat) : Guide :=
  let rank := g.ranks.getD k 0
  if g.queued.getD k 0 = rank + 1 then g
  else { g with
    queue := g.queue.insert rank k
    waiting := g.waiting + 1
    queued := g.queued.setIfInBounds k (rank + 1) }

/-- Lets all variables wait and nothing else. -/
def refill (g : Guide) : Guide :=
  let count := g.ranks.size
  { g with
    queue := Queue.mergeAll ((List.range count).map fun k => .node (g.ranks.getD k 0) k [])
    waiting := count
    queued := g.ranks.map (· + 1) }

def bump (g : Guide) (k : Nat) : Guide := { g with ranks := g.ranks.modify k (· + g.step) }

def stepLimit : Nat := 1000000000000

/-- By what ranks are divided when the step gets too large. -/
def scale : Nat := 1000000000

/-- Makes the step larger by a sixteenth. Ranks and step are scaled down together. -/
def age (g : Guide) : Guide :=
  if g.step < stepLimit then { g with step := g.step + g.step / 16 }
  else
    let ranks := g.ranks.map (· / scale)
    refill { g with ranks, step := g.step / scale }

/-- Keeps the value of a variable that is given up, and lets it wait again. -/
def release (g : Guide) (code : Nat) : Guide :=
  enqueue { g with values := g.values.setIfInBounds (slot code) (code % 2 = 0) } (slot code)

/-- The first variable of the queue for which a test holds; others leave the queue. -/
def next (test : Nat → Bool) : Nat → Guide → Option Nat × Guide
  | 0, g => (none, g)
  | fuel + 1, g =>
    match g.queue.pop? with
    | none => (none, g)
    | some (rank, k, queue) =>
      let g := { g with queue, waiting := g.waiting - 1 }
      if g.queued.getD k 0 = rank + 1 then
        let g := { g with queued := g.queued.setIfInBounds k 0 }
        if test k then (some k, g) else next test fuel g
      else next test fuel g

/-- The literal to decide a variable with. -/
def literal (g : Guide) (k : Nat) : Nat := if g.values.getD k true then 2 * k else 2 * k + 1

/-- A number below 1024 for each number, without a pattern. -/
def scatter (k : Nat) : Nat := (k + 1) * 2654435761 % 4294967296 / 4194304

/-- The guide at the start: variables that occur more often come first. Otherwise the order and the
values to be tried first have no pattern, so that no end of a range of values is preferred. -/
def ofClauses (count : Nat) (clauses : Array (Array Nat)) : Guide :=
  let occurrences := clauses.foldl (fun counts c =>
    c.foldl (fun counts code => counts.modify (slot code) (· + 1)) counts) (Array.replicate count 0)
  let ranks := occurrences.mapIdx fun k n => 32 * n + scatter k % 64
  refill { ranks, queued := Array.replicate count 0
           values := ranks.mapIdx fun k _ => scatter k / 64 % 2 = 0 }

end Guide

end Clausify.Search
