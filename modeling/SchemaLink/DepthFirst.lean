/-!
# Depth-first search

One search serves every question of the form "what can be reached": which groupings a use brings
in, to which positions `..` leads, whether a node has a place in the data, and which modules lie on
a cycle of imports.

**Elements are told apart by numbers**, and only those with a number below `size` are visited. The
next visit is to the first pending element whose number has not been seen; those before it are
dropped, and its successors go to the front. So elements are listed in the order of a depth-first
walk, each at most once.

**The search ends** because there are no more visits than numbers.
-/

namespace SchemaLink.DepthFirst

variable {α : Type}

/-- An element is not visited if its number has been seen or is out of range. -/
def stale (number : α → Nat) (size : Nat) (seen : List Nat) (a : α) : Bool :=
  size ≤ number a || number a ∈ seen

/-- The next visits, at most `n` of them, to what can be reached from `pending`. -/
def visits (number : α → Nat) (size : Nat) (next : α → List α) :
    Nat → List Nat → List α → List α
  | 0, _, _ => []
  | n + 1, seen, pending =>
    match pending.dropWhile (stale number size seen) with
    | [] => []
    | a :: rest => a :: visits number size next n (number a :: seen) (next a ++ rest)

/-- Visits what can be reached from `pending`. -/
def search (number : α → Nat) (size : Nat) (next : α → List α) (pending : List α) : List α :=
  visits number size next size [] pending

end SchemaLink.DepthFirst
