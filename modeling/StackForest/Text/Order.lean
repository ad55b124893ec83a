/-!
# The order of texts

Texts compare by the code points of their characters, the first difference deciding, and a text
stands in front of every longer one that it begins.
-/

namespace StackForest.Text

/-- Whether a text is equal to another one or stands in front of it. -/
def ascending : List Char → List Char → Bool
  | [], _ => true
  | _ :: _, [] => false
  | c :: cs, d :: ds => if c = d then ascending cs ds else decide (c.toNat < d.toNat)

end StackForest.Text
