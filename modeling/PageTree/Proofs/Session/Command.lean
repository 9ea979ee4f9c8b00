import PageTree.Proofs.Clash
import PageTree.Proofs.ListEdit

/-! # Commands of a session

The commands of a session as data, and what each of them does to the forest. **`Session.perform`**
carries out a command and **`Session.after`** is the session after it, which is the one before if
the command fails; **`Session.Reachable`** are the sessions that commands lead to. A command that
succeeds changes one place of the forest: nodes there go (**`Session.departing`**), others come in
their stead (**`Session.arriving`**), and all around stays (**`Session.create_eq_ok`** and those
after it). The commands that create a node are one kind (**`Command.Creates`**), and what holds of
commands is proved kind by kind (**`Command.kinds`**). -/

namespace PageTree

/-- A command of a session with its arguments. A parent that is not given is the list of roots. -/
inductive Command where
  /-- Creates a container. -/
  | newContainer (parent : Option Key) (tag : String)
  /-- Creates a self-closing element. -/
  | newSingle (parent : Option Key) (tag : String)
  /-- Creates a text. -/
  | newText (parent : Option Key) (content : String)
  /-- Copies a subtree to the clipboard. -/
  | copy (key : Key)
  /-- Puts a copy of the clipboard behind the children of a parent. -/
  | paste (parent : Option Key)
  /-- Takes a subtree out. -/
  | delete (key : Key)
  /-- Merges an edited copy of a node. -/
  | edit (edited : Node)
  /-- Changes the children of a parent. -/
  | editChildren (parent : Option Key) (change : ListEdit)

namespace Session

/-- Carries out a command; gives the session after it. -/
def perform (s : Session) : Command → Except EditError Session
  | .newContainer parent tag => (s.newContainer parent tag).map Prod.snd
  | .newSingle parent tag => (s.newSingle parent tag).map Prod.snd
  | .newText parent content => (s.newText parent content).map Prod.snd
  | .copy key => s.copy key
  | .paste parent => (s.paste parent).map Prod.snd
  | .delete key => (s.delete key).map Prod.snd
  | .edit edited => (s.edit edited).map Prod.snd
  | .editChildren parent change => s.editChildren parent change

/-- The session after a command, whether it succeeds or fails. -/
def after (s : Session) (command : Command) : Session :=
  match s.perform command with
  | .ok s' => s'
  | .error _ => s

/-- The sessions that commands lead to, failing ones included, from an empty forest or from one that
was taken in, as long as a number is free after each command. -/
inductive Reachable : Session → Prop where
  /-- A session without nodes. -/
  | empty (reclaim : Bool) : Reachable { reclaim := reclaim }
  /-- A session that starts from a forest. -/
  | ofForest {forest : Forest} {reclaim : Bool} {s : Session} :
      ofForest forest reclaim = .ok s → Reachable s
  /-- The session after one more command. -/
  | after {s : Session} (command : Command) :
      Reachable s → (s.after command).slots.HasRoom → Reachable (s.after command)

/-- The nodes that a command takes out of the forest. The one that an edited copy is merged into is
among them, since what it becomes takes its place. -/
def departing (s : Session) : Command → Forest
  | .delete key | .editChildren _ (.remove key) | .editChildren _ (.replace key _) =>
    (Forest.find? key s.forest).toList
  | .edit edited => (Forest.find? edited.key s.forest).toList
  | .editChildren parent .clear => (s.childrenOf parent).toOption.getD []
  | .newContainer _ _ | .newSingle _ _ | .newText _ _ | .copy _ | .paste _
  | .editChildren _ (.insert _ _) | .editChildren _ (.append _) => []

/-- The nodes that a command brings into the forest: a new one under the next free key, a copy with
keys of its own, what the node to merge into becomes, or those that a change adds. -/
def arriving (s : Session) : Command → Forest
  | .newContainer _ tag => [.container tag s.slots.allocate.1]
  | .newSingle _ tag => [.single tag s.slots.allocate.1]
  | .newText _ content => [.text content s.slots.allocate.1]
  | .paste _ => s.clipboard.toList.map fun node => (s.slots.rekey node).1
  | .edit edited => (Forest.find? edited.key s.forest).toList.map fun node => node.merge edited
  | .editChildren _ change => change.added
  | .copy _ | .delete _ => []

end Session

/-! ## Commands that create a node -/

namespace Command

/-- A command creates a node behind the children of a parent, and makes it from its key. -/
inductive Creates : Command → Option Key → (Key → Node) → Prop where
  /-- A container. -/
  | container (parent : Option Key) (tag : String) :
      Creates (.newContainer parent tag) parent (.container tag)
  /-- A self-closing element. -/
  | single (parent : Option Key) (tag : String) :
      Creates (.newSingle parent tag) parent (.single tag)
  /-- A text. -/
  | text (parent : Option Key) (content : String) :
      Creates (.newText parent content) parent (.text content)

/-- What holds of commands kind by kind holds of all. Those that create a node are of one kind. -/
@[elab_as_elim]
theorem kinds {motive : Command → Prop}
    (creates : ∀ (command : Command) (parent : Option Key) (make : Key → Node),
      command.Creates parent make → motive command)
    (copy : ∀ key, motive (.copy key)) (paste : ∀ parent, motive (.paste parent))
    (delete : ∀ key, motive (.delete key)) (edit : ∀ edited, motive (.edit edited))
    (editChildren : ∀ parent change, motive (.editChildren parent change))
    (command : Command) : motive command := by
  cases command with
  | newContainer parent tag => exact creates _ _ _ (.container parent tag)
  | newSingle parent tag => exact creates _ _ _ (.single parent tag)
  | newText parent content => exact creates _ _ _ (.text parent content)
  | copy key => exact copy key
  | paste parent => exact paste parent
  | delete key => exact delete key
  | edit edited => exact edit edited
  | editChildren parent change => exact editChildren parent change

namespace Creates

variable {command : Command} {parent : Option Key} {make : Key → Node}

/-- The node is made with its key. -/
theorem key_make (h : command.Creates parent make) (key : Key) : (make key).key = key := by
  cases h <;> rfl

/-- The node is made without children, so its key is the only one. -/
theorem keys_make (h : command.Creates parent make) (key : Key) : (make key).keys = [key] := by
  cases h <;> rfl

/-- The command is carried out by creating the node. -/
theorem perform_eq (h : command.Creates parent make) (s : Session) :
    s.perform command = (s.create parent make).map Prod.snd := by
  cases h <;> rfl

/-- The command takes no node out. -/
theorem departing_eq (h : command.Creates parent make) (s : Session) :
    s.departing command = [] := by
  cases h <;> rfl

/-- The command brings the node in under the next free key. -/
theorem arriving_eq (h : command.Creates parent make) (s : Session) :
    s.arriving command = [make s.slots.allocate.1] := by
  cases h <;> rfl

end Creates

end Command

/-! ## The children of a parent -/

namespace Session

variable {s s' : Session} {parent : Option Key} {key : Key}

/-- A parent that is named is a container at a spot that the search for it leads to. -/
theorem exists_spot_of_childrenOf_some {children : Forest}
    (h : s.childrenOf (some key) = .ok children) :
    ∃ (spot : Spot) (node : Node), spot.LeadsTo key ∧ node.key = key ∧ node.kind = .container ∧
      node.children = children ∧ s.forest = spot.fill [node] := by
  rw [childrenOf] at h
  split at h
  next => contradiction
  next node hfind =>
    split at h
    next hkind =>
      obtain ⟨spot, hleads, hkey, hforest⟩ := Forest.exists_spot_of_find? hfind
      exact ⟨spot, node, hleads, hkey, hkind, Except.ok.inj h, hforest⟩
    next => contradiction

/-- A place in the list of children of a parent is a place in the forest. -/
theorem exists_spot_of_childrenOf {inner : Spot} {gone : Forest}
    (h : s.childrenOf parent = .ok (inner.fill gone)) :
    ∃ spot : Spot, s.forest = spot.fill gone ∧
      ∀ nodes, s.withChildrenOf parent (inner.fill nodes) = spot.fill nodes := by
  cases parent with
  | none => exact ⟨inner, Except.ok.inj h, fun nodes => rfl⟩
  | some key =>
    -- the place in the list is one inside the parent, which stands at a spot itself
    obtain ⟨outer, node, hleads, hkey, -, hchildren, hforest⟩ := exists_spot_of_childrenOf_some h
    refine ⟨outer.inside node inner, ?_, fun nodes => ?_⟩
    · rw [Spot.fill_inside, ← hchildren, hforest]
      cases node; rfl
    · rw [withChildrenOf, hforest, hleads.update?_fill hkey, Spot.fill_inside]
      rfl

/-- Putting the children of a parent back leaves the forest as it is. -/
theorem withChildrenOf_childrenOf {children : Forest} (h : s.childrenOf parent = .ok children) :
    s.withChildrenOf parent children = s.forest := by
  cases parent with
  | none => exact (Except.ok.inj h).symm
  | some key =>
    obtain ⟨spot, node, hleads, hkey, -, rfl, hforest⟩ := exists_spot_of_childrenOf_some h
    rw [withChildrenOf, hforest, hleads.update?_fill hkey]
    cases node; rfl

/-- What is put into the place of the children of a parent are its children afterwards, and putting
others there leaves nothing of them. -/
theorem childrenOf_of_forest_eq {children children' : Forest}
    (h : s.childrenOf parent = .ok children)
    (hforest : s'.forest = s.withChildrenOf parent children') :
    s'.childrenOf parent = .ok children' ∧
      ∀ nodes, s'.withChildrenOf parent nodes = s.withChildrenOf parent nodes := by
  cases parent with
  | none => exact ⟨congrArg Except.ok hforest, fun _ => rfl⟩
  | some key =>
    obtain ⟨spot, node, hleads, hkey, hkind, -, hbefore⟩ := exists_spot_of_childrenOf_some h
    have hwith : ∀ nodes, s.withChildrenOf (some key) nodes =
        spot.fill [{ node with children := nodes }] := by
      intro nodes
      rw [withChildrenOf, hbefore, hleads.update?_fill hkey]
      rfl
    -- the parent is found in its place again, since its key is still the one searched for
    have hkey' : ({ node with children := children' } : Node).key = key := hkey
    rw [hwith] at hforest
    refine ⟨?_, fun nodes => ?_⟩
    · rw [childrenOf, hforest, hleads.find?_fill hkey']
      exact if_pos hkind
    · rw [hwith, withChildrenOf, hforest, hleads.update?_fill hkey']
      rfl

/-- What is put behind the children of a parent comes to an empty place of the forest. -/
theorem exists_spot_of_append {children : Forest} (h : s.childrenOf parent = .ok children) :
    ∃ spot : Spot, s.forest = spot.fill [] ∧
      ∀ nodes, s.withChildrenOf parent (children ++ nodes) = spot.fill nodes := by
  have hempty : s.childrenOf parent = .ok ((Spot.top children []).fill []) := by
    rw [h, Spot.fill, List.nil_append, List.append_nil]
  obtain ⟨spot, hforest, hwith⟩ := exists_spot_of_childrenOf hempty
  refine ⟨spot, hforest, fun nodes => ?_⟩
  rw [← hwith nodes, Spot.fill, List.append_nil]

/-! ## What a command does to the forest -/

/-- A result that was turned into another one was there before. -/
theorem exists_of_map_eq_ok {α β : Type} {f : α → β} {result : Except EditError α} {b : β}
    (h : result.map f = .ok b) : ∃ a, result = .ok a ∧ f a = b := by
  cases result with
  | error e => contradiction
  | ok a => exact ⟨a, rfl, Except.ok.inj h⟩

/-- A command that also gives something back succeeds with the session after it. -/
theorem exists_of_map_snd_eq_ok {α : Type} {result : Except EditError (α × Session)}
    (h : result.map Prod.snd = .ok s') : ∃ a, result = .ok (a, s') := by
  obtain ⟨pair, hpair, rfl⟩ := exists_of_map_eq_ok h
  exact ⟨pair.1, hpair⟩

/-- A new node comes behind the children of its parent, under the next free key. -/
theorem exists_of_create_eq_ok {make : Key → Node} (h : s.create parent make = .ok (key, s')) :
    ∃ children, s.childrenOf parent = .ok children ∧ key = s.slots.allocate.1 ∧
      s' = { s with
        forest := s.withChildrenOf parent (children ++ [make key])
        slots := s.slots.allocate.2 } := by
  rw [create] at h
  cases hchildren : s.childrenOf parent with
  | error e =>
    rw [hchildren] at h
    contradiction
  | ok children =>
    rw [hchildren] at h
    obtain ⟨rfl, rfl⟩ := Prod.mk.inj (Except.ok.inj h)
    exact ⟨children, rfl, rfl, rfl⟩

/-- A new node comes to an empty place, under the next free key. -/
theorem create_eq_ok {make : Key → Node} (h : s.create parent make = .ok (key, s')) :
    ∃ spot : Spot, s.forest = spot.fill [] ∧ key = s.slots.allocate.1 ∧
      s' = { s with forest := spot.fill [make key], slots := s.slots.allocate.2 } := by
  obtain ⟨children, hchildren, hkey, rfl⟩ := exists_of_create_eq_ok h
  obtain ⟨spot, hforest, hwith⟩ := exists_spot_of_append hchildren
  refine ⟨spot, hforest, hkey, ?_⟩
  rw [hwith]

/-- Copying puts the node that is found on the clipboard and changes nothing else. -/
theorem copy_eq_ok (h : s.copy key = .ok s') :
    ∃ node, Forest.find? key s.forest = some node ∧ s' = { s with clipboard := some node } := by
  rw [copy] at h
  split at h
  next node hfind =>
    obtain rfl := Except.ok.inj h
    exact ⟨node, hfind, rfl⟩
  next => contradiction

/-- A copy comes behind the children of its parent, with keys of its own. -/
theorem exists_of_paste_eq_ok (h : s.paste parent = .ok (key, s')) :
    ∃ children node, s.childrenOf parent = .ok children ∧ s.clipboard = some node ∧
      key = (s.slots.rekey node).1.key ∧
      s' = { s with
        forest := s.withChildrenOf parent (children ++ [(s.slots.rekey node).1])
        slots := (s.slots.rekey node).2 } := by
  rw [paste] at h
  split at h
  next => contradiction
  next node hclipboard =>
    cases hchildren : s.childrenOf parent with
    | error e =>
      rw [hchildren] at h
      contradiction
    | ok children =>
      rw [hchildren] at h
      obtain ⟨rfl, rfl⟩ := Prod.mk.inj (Except.ok.inj h)
      exact ⟨children, node, rfl, hclipboard, rfl, rfl⟩

/-- A copy comes to an empty place, with keys of its own. -/
theorem paste_eq_ok (h : s.paste parent = .ok (key, s')) :
    ∃ (spot : Spot) (node : Node), s.forest = spot.fill [] ∧ s.clipboard = some node ∧
      key = (s.slots.rekey node).1.key ∧
      s' = { s with
        forest := spot.fill [(s.slots.rekey node).1]
        slots := (s.slots.rekey node).2 } := by
  obtain ⟨children, node, hchildren, hclipboard, hkey, rfl⟩ := exists_of_paste_eq_ok h
  obtain ⟨spot, hforest, hwith⟩ := exists_spot_of_append hchildren
  refine ⟨spot, node, hforest, hclipboard, hkey, ?_⟩
  rw [hwith]

/-- The node taken out leaves its place empty. -/
theorem delete_eq_ok {removed : Node} (h : s.delete key = .ok (removed, s')) :
    ∃ spot : Spot, spot.LeadsTo key ∧ removed.key = key ∧ s.forest = spot.fill [removed] ∧
      s' = { s with
        forest := spot.fill []
        slots := if s.reclaim then s.slots.releaseAll removed.keys else s.slots } := by
  rw [delete] at h
  cases hfind : Forest.find? key s.forest with
  | none =>
    rw [Forest.remove?_eq_none hfind] at h
    contradiction
  | some node =>
    obtain ⟨spot, hleads, hkey, hforest⟩ := Forest.exists_spot_of_find? hfind
    rw [hforest, hleads.remove?_fill hkey] at h
    obtain ⟨rfl, rfl⟩ := Prod.mk.inj (Except.ok.inj h)
    exact ⟨spot, hleads, hkey, hforest, rfl⟩

/-- Deleting the key that leads to a node takes the node out. -/
theorem delete_eq_of_leadsTo {node : Node} {spot : Spot} (hleads : spot.LeadsTo node.key)
    (hforest : s.forest = spot.fill [node]) :
    s.delete node.key = .ok (node, { s with
      forest := spot.fill []
      slots := if s.reclaim then s.slots.releaseAll node.keys else s.slots }) := by
  rw [delete, hforest, hleads.remove?_fill rfl]

/-- A change of a list takes nodes out of one place and puts those that it adds there. -/
theorem exists_spot_of_apply {change : ListEdit} {children children' removed : Forest}
    (h : change.apply children = .ok (children', removed)) :
    ∃ inner : Spot, children = inner.fill removed ∧ children' = inner.fill change.added := by
  obtain ⟨front, back, -, hchildren, hchildren'⟩ := ListEdit.apply_eq_ok_iff.1 h
  refine ⟨.top front back, ?_, ?_⟩
  · rw [hchildren, Spot.fill, List.append_assoc]
  · rw [hchildren', Spot.fill, List.append_assoc]

/-- An edited copy of a node that is gone changes nothing. -/
theorem edit_eq_of_find?_eq_none {edited : Node} (h : Forest.find? edited.key s.forest = none) :
    s.edit edited = .ok (false, s) := by
  rw [edit, h]

/-- An edited copy is merged into the node in its place, unless one of its keys clashes. -/
theorem edit_eq_of_leadsTo {edited current : Node} {spot : Spot} (hleads : spot.LeadsTo edited.key)
    (hkey : current.key = edited.key) (hforest : s.forest = spot.fill [current]) :
    s.edit edited =
      match firstClash? (takenWithout current.keys s.forest) edited.keys with
      | some key => .error (.duplicateKey key)
      | none => .ok (true, { s with
          forest := spot.fill [current.merge edited]
          slots := s.exchangeKeys current.keys (current.merge edited).keys }) := by
  have hfind : Forest.find? edited.key s.forest = some current := by
    rw [hforest, hleads.find?_fill hkey]
  have hmerge : Forest.mergeNode? edited s.forest = some (spot.fill [current.merge edited]) := by
    rw [Forest.mergeNode?, hforest, hleads.update?_fill hkey]
  rw [edit, hfind]
  show (match firstClash? (takenWithout current.keys s.forest) edited.keys with
    | some key => _
    | none => _) = _
  rw [hmerge]

/-- An edited copy of a node that is gone leaves the session; any other is merged into the node in
its place, and none of its keys clashes. -/
theorem edit_eq_ok {edited : Node} {there : Bool} (h : s.edit edited = .ok (there, s')) :
    (Forest.find? edited.key s.forest = none ∧ there = false ∧ s' = s) ∨
    ∃ (spot : Spot) (current : Node), Forest.find? edited.key s.forest = some current ∧
      current.key = edited.key ∧ s.forest = spot.fill [current] ∧
      firstClash? (takenWithout current.keys s.forest) edited.keys = none ∧ there = true ∧
      s' = { s with
        forest := spot.fill [current.merge edited]
        slots := s.exchangeKeys current.keys (current.merge edited).keys } := by
  cases hfind : Forest.find? edited.key s.forest with
  | none =>
    rw [edit_eq_of_find?_eq_none hfind] at h
    obtain ⟨rfl, rfl⟩ := Prod.mk.inj (Except.ok.inj h)
    exact .inl ⟨rfl, rfl, rfl⟩
  | some current =>
    obtain ⟨spot, hleads, hkey, hforest⟩ := Forest.exists_spot_of_find? hfind
    rw [edit_eq_of_leadsTo hleads hkey hforest] at h
    split at h
    next => contradiction
    next hclash =>
      obtain ⟨rfl, rfl⟩ := Prod.mk.inj (Except.ok.inj h)
      exact .inr ⟨spot, current, rfl, hkey, hforest, hclash, rfl, rfl⟩

/-- A change that can be made to the children of a parent is made, unless one of the keys that it
brings in clashes. -/
theorem editChildren_eq {change : ListEdit} {children children' removed : Forest}
    (hchildren : s.childrenOf parent = .ok children)
    (happly : change.apply children = .ok (children', removed)) :
    s.editChildren parent change =
      match firstClash? (takenWithout (s.leavingKeys change) s.forest)
        (Forest.keys change.added) with
      | some key => .error (.duplicateKey key)
      | none => .ok { s with
          forest := s.withChildrenOf parent children'
          slots := Slots.reserveAll
            (if s.reclaim then s.slots.releaseAll (Forest.keys removed) else s.slots)
            (Forest.keys change.added) } := by
  rw [editChildren, hchildren]
  cases firstClash? (takenWithout (s.leavingKeys change) s.forest) (Forest.keys change.added) with
  | some key => rfl
  | none =>
    show (change.apply children >>= _) = _
    rw [happly]
    rfl

/-- A change that is made had its parent, its place and no clash. -/
theorem editChildren_eq_ok {change : ListEdit} (h : s.editChildren parent change = .ok s') :
    ∃ children children' removed, s.childrenOf parent = .ok children ∧
      change.apply children = .ok (children', removed) ∧
      firstClash? (takenWithout (s.leavingKeys change) s.forest)
        (Forest.keys change.added) = none ∧
      s' = { s with
        forest := s.withChildrenOf parent children'
        slots := Slots.reserveAll
          (if s.reclaim then s.slots.releaseAll (Forest.keys removed) else s.slots)
          (Forest.keys change.added) } := by
  rw [editChildren] at h
  split at h
  next => contradiction
  next hclash =>
    cases hchildren : s.childrenOf parent with
    | error e =>
      rw [hchildren] at h
      contradiction
    | ok children =>
      rw [hchildren] at h
      cases happly : change.apply children with
      | error e =>
        have h : (change.apply children >>= _) = Except.ok s' := h
        rw [happly] at h
        contradiction
      | ok result =>
        have h : (change.apply children >>= _) = Except.ok s' := h
        rw [happly] at h
        exact ⟨children, result.1, result.2, rfl, happly, hclash, (Except.ok.inj h).symm⟩

end Session

end PageTree
