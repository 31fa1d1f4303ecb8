/-!
Queues that give out the entry with the greatest rank first. A queue is a tree whose root has a
rank at least that of every entry below it; two queues are merged by putting one of them below the
root of the other, and when a root is taken, what stood below it is merged in pairs.
-/

namespace Clausify.Search

inductive Queue where
  | empty
  | node (rank entry : Nat) (below : List Queue)

namespace Queue

def merge : Queue → Queue → Queue
  | empty, q => q
  | q, empty => q
  | node r a below, node s b under =>
    if r < s then node s b (node r a below :: under) else node r a (node s b under :: below)

def insert (rank entry : Nat) (q : Queue) : Queue := merge (node rank entry []) q

/-- Merges neighbours; `done` holds the pairs before. -/
def pairs (done : List Queue) : List Queue → List Queue
  | [] => done
  | [q] => q :: done
  | a :: b :: rest => pairs (merge a b :: done) rest

def mergeAll (qs : List Queue) : Queue := (pairs [] qs).foldl merge empty

/-- The entry with the greatest rank, and the queue without it. -/
def pop? : Queue → Option (Nat × Nat × Queue)
  | empty => none
  | node rank entry below => some (rank, entry, mergeAll below)

end Queue

end Clausify.Search
