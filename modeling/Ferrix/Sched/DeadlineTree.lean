import Ferrix.Foundations.WrappingClock

/-!
The tree the scheduler keeps entities in: ordered by deadline, balanced by
height, each node remembering the smallest virtual runtime below it.
-/

namespace Ferrix.Sched.DeadlineTree

open Foundations.WrappingClock

/-- `a` is strictly before `b` in virtual time, which is allowed to wrap. -/
def before (a b : BitVec 64) : Bool := decide (offset a b < 0)

def earlier (a b : BitVec 64) : BitVec 64 := if before b a then b else a

structure Key where
  deadline : BitVec 64
  id : Nat
  deriving DecidableEq

def Key.order (self other : Key) : Ordering :=
  if self.deadline = other.deadline then compare self.id other.id
  else if before self.deadline other.deadline then .lt
  else .gt

structure Entity (T : Type) where
  id : Nat
  weight : Nat
  vruntime : BitVec 64
  deadline : BitVec 64
  sumExec : Nat
  payload : Option T
  deriving DecidableEq

def Entity.key {T : Type} (entity : Entity T) : Key := ⟨entity.deadline, entity.id⟩

inductive Link (T : Type) where
  | empty
  | node (entity : Entity T) (left right : Link T) (height : Nat) (minVruntime : BitVec 64)

variable {T : Type}

namespace Link

def height : Link T → Nat
  | empty => 0
  | node _ _ _ height _ => height

def minVruntime : Link T → Option (BitVec 64)
  | empty => none
  | node _ _ _ _ minVruntime => some minVruntime

def smallest (vruntime : BitVec 64) (left right : Option (BitVec 64)) : BitVec 64 :=
  let min := left.elim vruntime (earlier vruntime)
  right.elim min (earlier min)

def update (entity : Entity T) (left right : Link T) : Link T :=
  node entity left right (1 + max left.height right.height)
    (smallest entity.vruntime left.minVruntime right.minVruntime)

def balance : Link T → Int
  | empty => 0
  | node _ left right _ _ => (left.height : Int) - right.height

def rotateRight : Link T → Link T
  | node entity (node pivot first second _ _) right _ _ =>
    update pivot first (update entity second right)
  | link => link

def rotateLeft : Link T → Link T
  | node entity left (node pivot first second _ _) _ _ =>
    update pivot (update entity left first) second
  | link => link

def rebalance (entity : Entity T) (left right : Link T) : Link T :=
  let here := update entity left right
  if here.balance > 1 then
    let left := if left.balance < 0 then rotateLeft left else left
    rotateRight (node entity left right here.height (here.minVruntime.getD 0#64))
  else if here.balance < -1 then
    let right := if right.balance > 0 then rotateRight right else right
    rotateLeft (node entity left right here.height (here.minVruntime.getD 0#64))
  else here

def insert : Link T → Entity T → Link T
  | empty, new => update new empty empty
  | node entity left right _ _, new =>
    if new.key.order entity.key = .lt then rebalance entity (left.insert new) right
    else rebalance entity left (right.insert new)

def removeMin (entity : Entity T) : Link T → Link T → Link T × Entity T
  | empty, right => (right, entity)
  | node leftmost left middle _ _, right =>
    let removed := removeMin leftmost left middle
    (rebalance entity removed.1 right, removed.2)

def join : Link T → Link T → Link T
  | empty, right => right
  | left, empty => left
  | left, node entity middle right _ _ =>
    let removed := removeMin entity middle right
    rebalance removed.2 left removed.1

def remove : Link T → Key → Link T × Option (Entity T)
  | empty, _ => (empty, none)
  | node entity left right _ _, key =>
    match key.order entity.key with
    | .lt =>
      let removed := left.remove key
      (rebalance entity removed.1 right, removed.2)
    | .gt =>
      let removed := right.remove key
      (rebalance entity left removed.1, removed.2)
    | .eq => (join left right, some entity)

def toList : Link T → List (Entity T)
  | empty => []
  | node entity left right _ _ => left.toList ++ entity :: right.toList

def find : Link T → Nat → Option Key
  | empty, _ => none
  | node entity left right _ _, id =>
    if entity.id = id then some entity.key
    else (left.find id).or (right.find id)

def first : Link T → Option (Entity T)
  | empty => none
  | node entity empty _ _ _ => some entity
  | node _ left _ _ _ => left.first

/-- The earliest-deadline entity whose virtual runtime is `eligible`. -/
def pick (eligible : BitVec 64 → Bool) : Link T → Option (Entity T)
  | empty => none
  | node entity left right _ _ =>
    if left.minVruntime.any eligible then left.pick eligible
    else if eligible entity.vruntime then some entity
    else right.pick eligible

/-- Check the subtree, whose keys must all lie strictly between `low` and
`high`; what it proved is its height, its smallest virtual runtime and how many
entities it holds. -/
def checkNode : Link T → Option Key → Option Key →
    Except String (Nat × Option (BitVec 64) × Nat)
  | empty, _, _ => .ok (0, none, 0)
  | node entity left right height minVruntime, low, high =>
    if (low.any fun low => entity.key.order low ≠ .gt) ||
        (high.any fun high => entity.key.order high ≠ .lt) then
      .error "the tree is out of deadline order"
    else
      match left.checkNode low (some entity.key) with
      | .error error => .error error
      | .ok (leftHeight, leftMin, leftCount) =>
        match right.checkNode (some entity.key) high with
        | .error error => .error error
        | .ok (rightHeight, rightMin, rightCount) =>
          if height ≠ 1 + max leftHeight rightHeight then
            .error "a node's height is stale"
          else if ((leftHeight : Int) - rightHeight).natAbs > 1 then
            .error "the tree is out of balance"
          else if smallest entity.vruntime leftMin rightMin ≠ minVruntime then
            .error "a subtree's smallest virtual runtime is stale"
          else .ok (height, some minVruntime, leftCount + rightCount + 1)

end Link

structure Tree (T : Type) where
  root : Link T
  len : Nat

namespace Tree

def new : Tree T := ⟨.empty, 0⟩

variable (tree : Tree T)

def isEmpty : Bool := tree.len == 0

def insert (entity : Entity T) : Tree T :=
  ⟨tree.root.insert entity, tree.len + 1⟩

def remove (key : Key) : Tree T × Option (Entity T) :=
  let removed := tree.root.remove key
  (⟨removed.1, if removed.2.isSome then tree.len - 1 else tree.len⟩, removed.2)

def first : Option (Entity T) := tree.root.first

def popFirst : Tree T × Option (Entity T) :=
  match tree.first with
  | none => (tree, none)
  | some entity => tree.remove entity.key

def find (id : Nat) : Option Key := tree.root.find id

def pick (eligible : BitVec 64 → Bool) : Option (Entity T) :=
  tree.root.pick eligible

def toList : List (Entity T) := tree.root.toList

def check : Except String Nat :=
  match tree.root.checkNode none none with
  | .error error => .error error
  | .ok (_, _, count) => .ok count

end Tree

end Ferrix.Sched.DeadlineTree
