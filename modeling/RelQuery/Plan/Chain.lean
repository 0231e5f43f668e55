/-
Lists that share their beginnings.

Appending to a chain makes a new last node on top of the nodes that were there, so that a longer chain shares all of a
shorter one. Two chains are the same object when they end in the same node, whatever they hold; chains without a node
are all the same. Nodes are numbered by the supply they are taken from.
-/
namespace RelQuery

structure Chain (α : Type) where
  /-- the items from the first to the last -/
  items : List α
  /-- the last node -/
  last : Option Nat
deriving DecidableEq, Repr

namespace Chain

variable {α : Type}

def empty : Chain α := ⟨[], none⟩

/-- the chain with one more item, in the next node of the supply, and the supply after it -/
def push (supply : Nat) (chain : Chain α) (item : α) : Chain α × Nat :=
  (⟨chain.items ++ [item], some supply⟩, supply + 1)

/-- whether two chains end in the same node -/
def isSame (a b : Chain α) : Bool := a.last = b.last

def length (chain : Chain α) : Nat := chain.items.length

def isEmpty (chain : Chain α) : Bool := chain.items.isEmpty

end Chain

end RelQuery
