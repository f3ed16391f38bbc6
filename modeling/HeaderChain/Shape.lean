import HeaderChain.Bytes

/-!
# Shapes

What is looked for in a document, as far as the reading of its text depends on that. A text says the
same whatever is looked for, with one exception: a list of the bytes of a hash may end in a way that
no other list may (`Json.Trailing`). So a shape tells where in a document the hashes are.

* `Shape.part`, `Shape.itemAfter` — the shape of a part of what has a shape;
* `Shape.isComplete` — whether a list already has all the bytes of a hash.
-/

namespace HeaderChain

/-- What is looked for at a place in a document. -/
inductive Shape
  /-- Whatever stands there, and no hash in it. -/
  | anything
  | hash
  /-- A list whose items have one shape. -/
  | listOf (item : Shape)
  /-- Parts under these names, or a list of them in this order. -/
  | parts (named : List (String × Shape))

namespace Shape

/-- The shape of the part of a name. -/
def part (name : Bytes) : Shape → Shape
  | parts named => ((named.find? fun p => Bytes.ofString p.1 == name).map (·.2)).getD anything
  | _ => anything

/-- The shape of the next item of a list that starts with these items. -/
def itemAfter (items : List α) : Shape → Shape
  | listOf item => item
  | parts named => (named[items.length]?.map (·.2)).getD anything
  | _ => anything

/-- Whether these items are as many as a hash has bytes, where a hash is looked for. -/
def isComplete (items : List α) : Shape → Bool
  | hash => items.length == 32
  | _ => false

end Shape

end HeaderChain
