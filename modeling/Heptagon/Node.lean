import Heptagon.Layout
import Heptagon.Tree

/-!
# Trees with positions

`Tree.place` lays a concrete tree over the slots of a layout: each token gets
its span, and the comments before a token become children of the innermost
node that has tokens on both sides of them.  So a node starts with its first
token and ends with its last, and never with a comment.

The two lexemes of a mixed state name must touch.
-/

namespace Heptagon

inductive Node where
  | token (leaf : Leaf) (span : Span)
  /-- a comment; `inside` says whether it stands inside a definition -/
  | comment (inside : Bool) (span : Span)
  | branch (kind : Kind) (children : List Node)
  deriving Repr

namespace Node

mutual

/-- Nodes are compared child by child. -/
def decideEq : (m n : Node) → Decidable (m = n)
  | token l s, token l' s' => decidable_of_iff (l = l' ∧ s = s') (by simp)
  | comment i s, comment i' s' => decidable_of_iff (i = i' ∧ s = s') (by simp)
  | branch k ms, branch k' ns =>
      let _ := decideEqAll ms ns
      decidable_of_iff (k = k' ∧ ms = ns) (by simp)
  | token .., comment .. | token .., branch .. | comment .., token .. | comment .., branch ..
  | branch .., token .. | branch .., comment .. => isFalse (by simp)

def decideEqAll : (ms ns : List Node) → Decidable (ms = ns)
  | [], [] => isTrue rfl
  | [], _ :: _ | _ :: _, [] => isFalse (by simp)
  | m :: ms, n :: ns =>
      let _ := decideEq m n
      let _ := decideEqAll ms ns
      decidable_of_iff (m = n ∧ ms = ns) (by simp)

end

instance : DecidableEq Node := decideEq

def label : Node → Label
  | token l _ => l.label
  | comment _ _ => .named .comment
  | branch k _ => .named k

mutual

/-- Where a node starts: where its first child does. -/
def start : Node → Nat
  | token _ s => s.start
  | comment _ s => s.start
  | branch _ children => startAll children

def startAll : List Node → Nat
  | [] => 0
  | n :: _ => n.start

end

mutual

/-- Where a node stops: where its last child does. -/
def stop : Node → Nat
  | token _ s => s.stop
  | comment _ s => s.stop
  | branch _ children => stopAll children

def stopAll : List Node → Nat
  | [] => 0
  | [n] => n.stop
  | _ :: ns => stopAll ns

end

def span (n : Node) : Span := ⟨n.start, n.stop⟩

/-- Whether the node is a comment where the grammar asks for none. -/
def isExtra : Node → Bool
  | comment inside _ => inside
  | _ => false

end Node

/-- The span of a token that is written with the first lexemes of a layout. -/
def Leaf.place (l : Leaf) : List Slot → Option (Span × List Slot)
  | [] => none
  | s :: slots =>
    match l.lexemes, slots with
    | [_, _], t :: slots =>
      if t.comments.isEmpty && s.span.stop == t.span.start then
        some (⟨s.span.start, t.span.stop⟩, slots)
      else none
    | [_], slots => some (s.span, slots)
    | _, _ => none

/-- The comments before the first of the slots, as nodes inside a definition. -/
def Slot.commentsInside : List Slot → List Node
  | [] => []
  | s :: _ => s.comments.map (.comment true)

namespace Tree

mutual

/-- A tree over the first slots, and the slots after it. -/
def place : Tree → List Slot → Option (Node × List Slot)
  | leaf l, slots => do
    let (span, slots) ← l.place slots
    return (.token l span, slots)
  | node k children, slots => do
    let (nodes, slots) ← placeAll children slots
    return (.branch k nodes, slots)

/-- The children of a node; the comments before the first one belong further out. -/
def placeAll : List Tree → List Slot → Option (List Node × List Slot)
  | [], slots => some ([], slots)
  | t :: ts, slots => do
    let (n, slots) ← t.place slots
    let (ns, slots) ← placeMore ts slots
    return (n :: ns, slots)

/-- The children of a node after the first one, with the comments before each. -/
def placeMore : List Tree → List Slot → Option (List Node × List Slot)
  | [], slots => some ([], slots)
  | t :: ts, slots => do
    let comments := Slot.commentsInside slots
    let (n, slots) ← t.place slots
    let (ns, slots) ← placeMore ts slots
    return (comments ++ n :: ns, slots)

end

end Tree

end Heptagon
