import PageTree.Key

/-! # Edit errors

Why an edit cannot be carried out. -/

namespace PageTree

/-- Why an edit cannot be carried out. -/
inductive EditError where
  /-- No node has the key. -/
  | nodeNotFound (key : Key)
  /-- No node has the key of the parent. -/
  | parentNotFound (key : Key)
  /-- The parent is not a container. -/
  | cannotHaveChildren (key : Key)
  /-- The index is past the end of a list of so many children. -/
  | indexOutOfBounds (index length : Nat)
  /-- The key, or another key with the same class, is in use already. -/
  | duplicateKey (key : Key)
  /-- There is nothing to paste. -/
  | emptyClipboard
  deriving DecidableEq, Repr

/-- The message of an error. -/
def EditError.message : EditError → String
  | .nodeNotFound key => "Node not found: " ++ key.toText
  | .parentNotFound key => "Parent not found: " ++ key.toText
  | .cannotHaveChildren key => "Node " ++ key.toText ++ " cannot have children"
  | .indexOutOfBounds index length =>
    "Index " ++ Digits.text index ++ " out of bounds for " ++ Digits.text length ++ " children"
  | .duplicateKey key => "Key " ++ key.toText ++ " is already used in this tree"
  | .emptyClipboard => "Nothing has been copied"

end PageTree
