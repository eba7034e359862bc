import OpGraph.ElementType
import OpGraph.Shape.Partial

/-!
# Value descriptions

What inference knows about a graph value: its element type and its shape.
-/

namespace OpGraph

/-- The element type and shape of a graph value. -/
structure Desc where
  elementType : ElementType
  shape : PartialShape
  deriving DecidableEq, Repr, Inhabited

/-- The written form: the name of the type followed by the shape. -/
def Desc.text (d : Desc) : String := d.elementType.name ++ d.shape.text

end OpGraph
