import Mathlib.Data.List.Basic
import Mathlib.Tactic.Common

/-!
Documents as trees of nodes, and the way from element to element that a DOM
interface offers: to the first child that is an element, and to the next
sibling that is one. Both may be absent, and so may the text of an element,
which is its first child if that is a text.
-/

namespace OLog.Lib

inductive XmlNode where
  | element (children : List XmlNode)
  | text (value : String)
  /-- A comment, a declaration or anything else. -/
  | other

/-- An element at its place in the document: what it holds, and the nodes that
follow it under the same parent. -/
structure XmlElement where
  children : List XmlNode
  following : List XmlNode

/-- The first of the nodes that is an element. -/
def firstElement : List XmlNode → Option XmlElement
  | [] => none
  | .element children :: rest => some ⟨children, rest⟩
  | .text _ :: rest => firstElement rest
  | .other :: rest => firstElement rest

/-- All elements among the nodes. -/
def elements : List XmlNode → List XmlElement
  | [] => []
  | .element children :: rest => ⟨children, rest⟩ :: elements rest
  | .text _ :: rest => elements rest
  | .other :: rest => elements rest

namespace XmlElement

def firstChildElement (e : XmlElement) : Option XmlElement := firstElement e.children

def nextSiblingElement (e : XmlElement) : Option XmlElement := firstElement e.following

def getText (e : XmlElement) : Option String :=
  match e.children with
  | .text value :: _ => some value
  | _ => none

/-- What a loop from the first child to the next sibling, as long as there is
one, passes through. -/
def childElements (e : XmlElement) : List XmlElement := elements e.children

end XmlElement

end OLog.Lib
