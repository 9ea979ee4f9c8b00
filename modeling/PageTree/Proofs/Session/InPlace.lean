import PageTree.Proofs.Session.KeyCheck

/-! # Commands carried out in place

A command of a session gives the session after it or an error. Here the same commands are carried
out in place, one step after the other: an error ends them where it occurs, and what the steps
before it have changed stays changed (**`InPlace`**). **`ListEdit.applyInPlace`** changes a list of
siblings that way and **`Command.inPlace`** a session; the steps come to what the commands say
(**`ListEdit.runOn_applyInPlace`**, **`Session.runOn_inPlace`**). Main statement:
`Session.unchanged_of_failure`, a command that fails has changed nothing, since all that can fail in
it comes before the first change that stays. -/

namespace PageTree

/-- Steps that change a state in place. An error ends them without undoing those before it. -/
abbrev InPlace (σ : Type) := ExceptT EditError (StateM σ)

/-- Carries steps out on a state; gives their result and the state that they leave. -/
def InPlace.runOn {σ α : Type} (steps : InPlace σ α) (state : σ) : Except EditError α × σ :=
  (ExceptT.run steps).run state

namespace InPlace

variable {σ α β : Type} (state : σ)

/-- A result changes nothing. -/
@[simp] theorem runOn_pure (a : α) : (pure a : InPlace σ α).runOn state = (.ok a, state) := rfl

/-- An error changes nothing by itself. -/
@[simp] theorem runOn_throw (e : EditError) :
    (throw e : InPlace σ α).runOn state = (.error e, state) := rfl

/-- Looking at the state changes nothing. -/
@[simp] theorem runOn_get : (get : InPlace σ σ).runOn state = (.ok state, state) := rfl

/-- A new state takes the place of the one there was. -/
@[simp] theorem runOn_set (next : σ) :
    (set next : InPlace σ PUnit).runOn state = (.ok ⟨⟩, next) := rfl

/-- A change is made in the state there was. -/
@[simp] theorem runOn_modify (change : σ → σ) :
    (modify change : InPlace σ PUnit).runOn state = (.ok ⟨⟩, change state) := rfl

/-- A result that was worked out changes nothing. -/
@[simp] theorem runOn_liftM (result : Except EditError α) :
    (liftM result : InPlace σ α).runOn state = (result, state) := rfl

/-- What comes next is carried out on the state that the steps before it leave, unless there was an
error. -/
theorem runOn_bind (steps : InPlace σ α) (next : α → InPlace σ β) :
    (steps >>= next).runOn state =
      match steps.runOn state with
      | (.ok a, state') => (next a).runOn state'
      | (.error e, state') => (.error e, state') := by
  have hbind : (steps >>= next).runOn state =
      StateT.run (ExceptT.bindCont next (steps.runOn state).1) (steps.runOn state).2 := rfl
  rw [hbind]
  cases steps.runOn state with
  | mk result state' => cases result <;> rfl

/-- A result is only turned into another one if there was no error. -/
@[simp] theorem runOn_map (f : α → β) (steps : InPlace σ α) :
    (f <$> steps).runOn state =
      match steps.runOn state with
      | (.ok a, state') => (.ok (f a), state')
      | (.error e, state') => (.error e, state') := by
  rw [map_eq_pure_bind, runOn_bind]
  rfl

end InPlace

/-! ## Lists of siblings -/

namespace ListEdit

/-- Looks for the place of the node with a key. -/
def indexInPlace (key : Key) : InPlace Forest Nat := do
  match (← get).findIdx? fun node => node.key == key with
  | some index => return index
  | none => throw (.nodeNotFound key)

/-- Makes a change in a list; gives the nodes taken out. -/
def applyInPlace : ListEdit → InPlace Forest Forest
  | .insert index node => do
    let length := (← get).length
    if index.toNat > length then throw (.indexOutOfBounds index.toNat length)
    modify fun forest => forest.insertIdx index.toNat node
    return []
  | .remove key => do
    let index ← indexInPlace key
    let removed := (← get)[index]?
    modify fun forest => forest.eraseIdx index
    return removed.toList
  | .replace key node => do
    let index ← indexInPlace key
    let replaced := (← get)[index]?
    modify fun forest => forest.set index node
    return replaced.toList
  | .append nodes => do
    modify fun forest => forest ++ nodes
    return []
  | .clear => do
    let removed ← get
    set ([] : Forest)
    return removed

end ListEdit

/-! ## Sessions -/

namespace Session

/-- Refuses keys of which one has a class name that is taken, or that of an earlier one. -/
def refuseClash (taken : List String) (keys : List Key) : InPlace Session Unit :=
  match firstClash? taken keys with
  | some key => throw (.duplicateKey key)
  | none => return

/-- Gives the slots of keys back, if that is done at all. -/
def giveBack (keys : List Key) : InPlace Session Unit :=
  modify fun s => { s with slots := if s.reclaim then s.slots.releaseAll keys else s.slots }

/-- Takes the slots of keys into use. -/
def takeUp (keys : List Key) : InPlace Session Unit :=
  modify fun s => { s with slots := s.slots.reserveAll keys }

/-- Carries steps out on the children of a parent, which stay in their place in the forest. What an
error leaves of them stays there too. -/
def onChildren {α : Type} (parent : Option Key) (steps : InPlace Forest α) :
    InPlace Session α := do
  let s ← get
  let children ← s.childrenOf parent
  let (result, children) := steps.runOn children
  set { s with forest := s.withChildrenOf parent children }
  result

/-- Puts a new node with the next free key behind the children of a parent. -/
def createInPlace (parent : Option Key) (make : Key → Node) : InPlace Session Key := do
  let children ← (← get).childrenOf parent
  let key ← modifyGet fun s => (s.slots.allocate.1, { s with slots := s.slots.allocate.2 })
  modify fun s => { s with forest := s.withChildrenOf parent (children ++ [make key]) }
  return key

/-- Copies a subtree to the clipboard. -/
def copyInPlace (key : Key) : InPlace Session Unit := do
  match Forest.find? key (← get).forest with
  | some node => modify fun s => { s with clipboard := some node }
  | none => throw (.nodeNotFound key)

/-- Puts a copy of the clipboard, with keys of its own, behind the children of a parent. -/
def pasteInPlace (parent : Option Key) : InPlace Session Key := do
  match (← get).clipboard with
  | none => throw .emptyClipboard
  | some node =>
    let children ← (← get).childrenOf parent
    let copy ← modifyGet fun s =>
      ((s.slots.rekey node).1, { s with slots := (s.slots.rekey node).2 })
    modify fun s => { s with forest := s.withChildrenOf parent (children ++ [copy]) }
    return copy.key

/-- Takes a subtree out. -/
def deleteInPlace (key : Key) : InPlace Session Node := do
  match Forest.remove? key (← get).forest with
  | none => throw (.nodeNotFound key)
  | some (removed, forest) =>
    modify fun s => { s with forest := forest }
    giveBack removed.keys
    return removed

/-- Merges an edited copy of a node. The answer tells whether the node was still there. -/
def editInPlace (edited : Node) : InPlace Session Bool := do
  let s ← get
  match Forest.find? edited.key s.forest with
  | none => return false
  | some current =>
    refuseClash (takenWithout current.keys s.forest) edited.keys
    match Forest.mergeNode? edited s.forest with
    | none => return false
    | some forest =>
      modify fun s => { s with forest := forest }
      let before := current.keys
      let after := (current.merge edited).keys
      giveBack (before.filter fun key => !after.contains key)
      takeUp (after.filter fun key => !before.contains key)
      return true

/-- Changes the children of a parent. -/
def editChildrenInPlace (parent : Option Key) (change : ListEdit) : InPlace Session Unit := do
  let s ← get
  let added := Forest.keys change.added
  refuseClash (takenWithout (s.leavingKeys change) s.forest) added
  let removed ← onChildren parent change.applyInPlace
  giveBack (Forest.keys removed)
  takeUp added

end Session

/-- What a command that succeeds answers. -/
inductive Answer where
  /-- The key of a node that it put in. -/
  | key (key : Key)
  /-- The subtree that it took out. -/
  | removed (node : Node)
  /-- Whether the node to merge into was there. -/
  | merged (found : Bool)
  /-- Nothing more. -/
  | done

/-- Carries a command out in place. -/
def Command.inPlace : Command → InPlace Session Answer
  | .newContainer parent tag => return .key (← Session.createInPlace parent (Node.container tag))
  | .newSingle parent tag => return .key (← Session.createInPlace parent (Node.single tag))
  | .newText parent content => return .key (← Session.createInPlace parent (Node.text content))
  | .copy key => do Session.copyInPlace key; return .done
  | .paste parent => return .key (← Session.pasteInPlace parent)
  | .delete key => return .removed (← Session.deleteInPlace key)
  | .edit edited => return .merged (← Session.editInPlace edited)
  | .editChildren parent change => do Session.editChildrenInPlace parent change; return .done

/-- What a command answers, with the session after it. -/
def Session.answer (s : Session) : Command → Except EditError (Answer × Session)
  | .newContainer parent tag => (s.newContainer parent tag).map fun r => (.key r.1, r.2)
  | .newSingle parent tag => (s.newSingle parent tag).map fun r => (.key r.1, r.2)
  | .newText parent content => (s.newText parent content).map fun r => (.key r.1, r.2)
  | .copy key => (s.copy key).map fun s' => (.done, s')
  | .paste parent => (s.paste parent).map fun r => (.key r.1, r.2)
  | .delete key => (s.delete key).map fun r => (.removed r.1, r.2)
  | .edit edited => (s.edit edited).map fun r => (.merged r.1, r.2)
  | .editChildren parent change => (s.editChildren parent change).map fun s' => (.done, s')

/-! ## What the steps come to -/

namespace ListEdit

variable {key : Key}

/-- The place of a key among siblings is that of the first node that has it. -/
theorem findIdx?_append {left : Forest} {node : Node} (right : Forest)
    (hleft : ∀ other ∈ left, other.key ≠ key) (hkey : node.key = key) :
    (left ++ node :: right).findIdx? (fun other => other.key == key) = some left.length := by
  have hnone : left.findIdx? (fun other => other.key == key) = none := by
    simpa [List.findIdx?_eq_none_iff] using hleft
  simp [List.findIdx?_append, List.findIdx?_cons, hnone, hkey]

/-- A node is put in between the nodes in front of the index and those from it on. -/
theorem insertIdx_eq {children : Forest} {index : Nat} (node : Node)
    (h : index ≤ children.length) :
    children.insertIdx index node = children.take index ++ node :: children.drop index := by
  induction children generalizing index with
  | nil =>
    obtain rfl := Nat.le_zero.1 h
    rfl
  | cons first children ih =>
    cases index with
    | zero => rfl
    | succ index => simpa using ih (Nat.le_of_succ_le_succ h)

/-- **A change made in place.** It comes to what the change of the list says, and after an error the
list is what it was. -/
theorem runOn_applyInPlace (change : ListEdit) (children : Forest) :
    change.applyInPlace.runOn children =
      match change.apply children with
      | .ok (children', removed) => (.ok removed, children')
      | .error e => (.error e, children) := by
  -- a change either has its place in the list or fails for a reason that can be named
  rcases place_or_fails change children with ⟨front, removed, back, hplace, rfl⟩ | ⟨error, hfails⟩
  · rw [hplace.apply_eq]
    cases hplace with
    | insert hindex =>
      have hlength : ¬front.length + back.length < front.length := by omega
      simp [applyInPlace, InPlace.runOn_bind, ← hindex, hlength, insertIdx_eq, added]
    | remove hfront hkey =>
      simp [applyInPlace, InPlace.runOn_bind, indexInPlace, findIdx?_append back hfront hkey,
        List.eraseIdx_append_of_length_le, added]
    | replace hfront hkey =>
      simp [applyInPlace, InPlace.runOn_bind, indexInPlace, findIdx?_append back hfront hkey, added]
    | append => simp [applyInPlace, added]
    | clear => simp [applyInPlace, InPlace.runOn_bind, added]
  · rw [hfails.apply_eq]
    have hnone : ∀ {key : Key}, (∀ other ∈ children, other.key ≠ key) →
        children.findIdx? (fun other => other.key == key) = none := by
      intro key h
      simpa [List.findIdx?_eq_none_iff] using h
    cases hfails with
    | insert hindex => simp [applyInPlace, InPlace.runOn_bind, hindex]
    | remove hkey => simp [applyInPlace, InPlace.runOn_bind, indexInPlace, hnone hkey]
    | replace hkey => simp [applyInPlace, InPlace.runOn_bind, indexInPlace, hnone hkey]

end ListEdit

namespace Session

variable {s : Session} {parent : Option Key}

/-- Keys are refused for the first clash, and the session is left as it is either way. -/
theorem runOn_refuseClash (taken : List String) (keys : List Key) (s : Session) :
    (refuseClash taken keys).runOn s =
      match firstClash? taken keys with
      | some key => (.error (.duplicateKey key), s)
      | none => (.ok ⟨⟩, s) := by
  rw [refuseClash]
  cases firstClash? taken keys <;> rfl

/-- Where steps end that come to a result of a command: an error leaves the session. -/
def outcome {α : Type} (s : Session) :
    Except EditError (α × Session) → Except EditError α × Session
  | .ok (a, s') => (.ok a, s')
  | .error e => (.error e, s)

/-- Creating in place comes to the result of creating. -/
theorem runOn_createInPlace (s : Session) (parent : Option Key) (make : Key → Node) :
    (createInPlace parent make).runOn s = s.outcome (s.create parent make) := by
  simp only [create, createInPlace, InPlace.runOn_bind, InPlace.runOn_get, InPlace.runOn_liftM]
  cases s.childrenOf parent with
  | error e => rfl
  | ok children => rfl

/-- Copying in place comes to the result of copying. -/
theorem runOn_copyInPlace (s : Session) (key : Key) :
    (copyInPlace key).runOn s = s.outcome ((s.copy key).map fun s' => (⟨⟩, s')) := by
  simp only [copy, copyInPlace, InPlace.runOn_bind, InPlace.runOn_get]
  cases Forest.find? key s.forest with
  | none => rfl
  | some node => rfl

/-- Pasting in place comes to the result of pasting. -/
theorem runOn_pasteInPlace (s : Session) (parent : Option Key) :
    (pasteInPlace parent).runOn s = s.outcome (s.paste parent) := by
  obtain ⟨forest, slots, clipboard, reclaim⟩ := s
  simp only [paste, pasteInPlace, InPlace.runOn_bind, InPlace.runOn_get]
  cases clipboard with
  | none => rfl
  | some node =>
    simp only [InPlace.runOn_bind, InPlace.runOn_get, InPlace.runOn_liftM]
    cases childrenOf ⟨forest, slots, some node, reclaim⟩ parent with
    | error e => rfl
    | ok children => rfl

/-- Deleting in place comes to the result of deleting. -/
theorem runOn_deleteInPlace (s : Session) (key : Key) :
    (deleteInPlace key).runOn s = s.outcome (s.delete key) := by
  simp only [delete, deleteInPlace, InPlace.runOn_bind, InPlace.runOn_get]
  cases Forest.remove? key s.forest with
  | none => rfl
  | some result => rfl

/-- Editing in place comes to the result of editing. -/
theorem runOn_editInPlace (s : Session) (edited : Node) :
    (editInPlace edited).runOn s = s.outcome (s.edit edited) := by
  simp only [edit, editInPlace, InPlace.runOn_bind, InPlace.runOn_get]
  cases Forest.find? edited.key s.forest with
  | none => rfl
  | some current =>
    simp only [InPlace.runOn_bind, runOn_refuseClash]
    cases firstClash? (takenWithout current.keys s.forest) edited.keys with
    | some key => rfl
    | none =>
      cases Forest.mergeNode? edited s.forest with
      | none => rfl
      | some forest => rfl

/-- A change of the children of a parent, made in their place. Where it fails the children are put
back as they were, and so is the forest. -/
theorem runOn_onChildren (s : Session) (parent : Option Key) (change : ListEdit) :
    (onChildren parent change.applyInPlace).runOn s =
      match s.childrenOf parent with
      | .error e => (.error e, s)
      | .ok children =>
        match change.apply children with
        | .error e => (.error e, s)
        | .ok (children', removed) =>
          (.ok removed, { s with forest := s.withChildrenOf parent children' }) := by
  simp only [onChildren, InPlace.runOn_bind, InPlace.runOn_get, InPlace.runOn_liftM]
  cases hchildren : s.childrenOf parent with
  | error e => rfl
  | ok children =>
    simp only [ListEdit.runOn_applyInPlace, InPlace.runOn_set]
    cases change.apply children with
    | error e =>
      have hback := withChildrenOf_childrenOf hchildren
      simp only [hback]
    | ok result => rfl

/-- Changing children in place comes to the result of the change. -/
theorem runOn_editChildrenInPlace (s : Session) (parent : Option Key) (change : ListEdit) :
    (editChildrenInPlace parent change).runOn s =
      s.outcome ((s.editChildren parent change).map fun s' => (⟨⟩, s')) := by
  simp only [editChildren, editChildrenInPlace, InPlace.runOn_bind, InPlace.runOn_get,
    runOn_refuseClash, runOn_onChildren]
  cases firstClash? (takenWithout (s.leavingKeys change) s.forest) (Forest.keys change.added) with
  | some key => rfl
  | none =>
    dsimp only
    cases s.childrenOf parent with
    | error e => rfl
    | ok children =>
      simp only [bind, Except.bind]
      cases change.apply children with
      | error e => rfl
      | ok result => rfl

/-- **A command carried out in place.** It comes to what the command says, and after an error the
session is what it was. -/
theorem runOn_inPlace (s : Session) (command : Command) :
    command.inPlace.runOn s = s.outcome (s.answer command) := by
  -- the answer only adds to the result what kind of answer it is
  have hanswer : ∀ {α β : Type} (f : α → β) (steps : InPlace Session α)
      (result : Except EditError (α × Session)), steps.runOn s = s.outcome result →
      (steps >>= fun a => pure (f a)).runOn s =
        s.outcome (result.map fun r => (f r.1, r.2)) := by
    intro α β f steps result hsteps
    rw [InPlace.runOn_bind, hsteps]
    cases result with
    | error e => rfl
    | ok r => rfl
  have hdone : ∀ result : Except EditError Session,
      (result.map fun s' => (Answer.done, s')) =
        (result.map fun s' => (PUnit.unit, s')).map fun r => (Answer.done, r.2) := by
    intro result
    cases result with
    | error e => rfl
    | ok s' => rfl
  cases command with
  | newContainer parent tag => exact hanswer Answer.key _ _ (runOn_createInPlace s parent _)
  | newSingle parent tag => exact hanswer Answer.key _ _ (runOn_createInPlace s parent _)
  | newText parent content => exact hanswer Answer.key _ _ (runOn_createInPlace s parent _)
  | copy key =>
    rw [answer, hdone]
    exact hanswer (fun _ => Answer.done) _ _ (runOn_copyInPlace s key)
  | paste parent => exact hanswer Answer.key _ _ (runOn_pasteInPlace s parent)
  | delete key => exact hanswer Answer.removed _ _ (runOn_deleteInPlace s key)
  | edit edited => exact hanswer Answer.merged _ _ (runOn_editInPlace s edited)
  | editChildren parent change =>
    rw [answer, hdone]
    exact hanswer (fun _ => Answer.done) _ _ (runOn_editChildrenInPlace s parent change)

/-- What a command answers does not matter for the session after it. -/
theorem map_snd_answer (s : Session) (command : Command) :
    (s.answer command).map Prod.snd = s.perform command := by
  have hmap : ∀ {α β γ : Type} (f : α → β) (g : β → γ) (result : Except EditError α),
      (result.map f).map g = result.map fun a => g (f a) := by
    intro α β γ f g result
    cases result with
    | error e => rfl
    | ok a => rfl
  have hid : ∀ result : Except EditError Session, result.map (fun s' => s') = result := by
    intro result
    cases result with
    | error e => rfl
    | ok s' => rfl
  cases command with
  | newContainer parent tag => exact hmap _ _ _
  | newSingle parent tag => exact hmap _ _ _
  | newText parent content => exact hmap _ _ _
  | copy key => rw [answer, hmap, hid, perform]
  | paste parent => exact hmap _ _ _
  | delete key => exact hmap _ _ _
  | edit edited => exact hmap _ _ _
  | editChildren parent change => rw [answer, hmap, hid, perform]

/-- The session after a command that answers something is the one that comes with the answer. -/
theorem after_eq_of_answer {s s' : Session} {command : Command} {answer : Answer}
    (h : s.answer command = .ok (answer, s')) : s.after command = s' := by
  rw [Session.after, ← map_snd_answer, h]
  rfl

/-- A command that creates a node answers its key. -/
theorem answer_eq_of_creates {command : Command} {parent : Option Key} {make : Key → Node}
    (h : command.Creates parent make) (s : Session) :
    s.answer command = (s.create parent make).map fun r => (.key r.1, r.2) := by
  cases h <;> rfl

/-- An answer that is a key is the key that the command gives. -/
theorem eq_ok_of_map_key {s' : Session} {key : Key} {result : Except EditError (Key × Session)}
    (h : result.map (fun r => (Answer.key r.1, r.2)) = .ok (.key key, s')) :
    result = .ok (key, s') := by
  obtain ⟨pair, hpair, heq⟩ := exists_of_map_eq_ok h
  obtain ⟨hkey, hafter⟩ := Prod.mk.inj heq
  rw [hpair, ← Answer.key.inj hkey, ← hafter]

/-- Only merging answers whether a node was there, and if it was not the session stays. -/
theorem eq_of_answer_eq_merged_false {s s' : Session} {command : Command}
    (h : s.answer command = .ok (.merged false, s')) : s' = s := by
  cases command with
  | edit edited =>
    obtain ⟨⟨found, after⟩, hedit, heq⟩ := exists_of_map_eq_ok h
    obtain ⟨hfound, rfl⟩ := Prod.mk.inj heq
    obtain rfl := Answer.merged.inj hfound
    rcases edit_eq_ok hedit with ⟨-, -, rfl⟩ | ⟨spot, current, -, -, -, -, hthere, -⟩
    · rfl
    · contradiction
  | newContainer parent tag | newSingle parent tag | newText parent content | copy key
  | paste parent | delete key | editChildren parent change =>
    obtain ⟨a, -, heq⟩ := exists_of_map_eq_ok h
    exact Answer.noConfusion (Prod.mk.inj heq).1

/-- **A failure changes nothing.** Carried out in place, a command leaves the session that it would
lead to. After an error, or when the node to merge into is gone, the forest, the slots in use and
the clipboard are what they were; and so is a list of siblings after a change of it that fails. -/
theorem unchanged_of_failure (s : Session) :
    (∀ command : Command,
      (command.inPlace.runOn s).2 = s.after command ∧
      (∀ e s', command.inPlace.runOn s = (.error e, s') →
        s.perform command = .error e ∧ s' = s) ∧
      ∀ s', command.inPlace.runOn s = (.ok (.merged false), s') →
        s.perform command = .ok s' ∧ s' = s) ∧
    ∀ (change : ListEdit) (children children' : Forest) (e : EditError),
      change.applyInPlace.runOn children = (.error e, children') →
        change.apply children = .error e ∧ children' = children := by
  refine ⟨fun command => ?_, fun change children children' e h => ?_⟩
  · -- the steps in place come to the result of the command, which has no state at an error
    rw [runOn_inPlace, Session.after, ← map_snd_answer]
    cases hanswer : s.answer command with
    | error e =>
      refine ⟨rfl, fun e' s' h => ?_, fun s' h => ?_⟩
      · obtain ⟨he, rfl⟩ := Prod.mk.inj h
        exact ⟨congrArg Except.error (Except.error.inj he), rfl⟩
      · obtain ⟨hresult, -⟩ := Prod.mk.inj h
        contradiction
    | ok r =>
      obtain ⟨answer, next⟩ := r
      refine ⟨rfl, fun e' s' h => ?_, fun s' h => ?_⟩
      · obtain ⟨hresult, -⟩ := Prod.mk.inj h
        contradiction
      · obtain ⟨hmerged, rfl⟩ := Prod.mk.inj h
        obtain rfl := Except.ok.inj hmerged
        exact ⟨rfl, eq_of_answer_eq_merged_false hanswer⟩
  · rw [ListEdit.runOn_applyInPlace] at h
    split at h
    next =>
      obtain ⟨hresult, -⟩ := Prod.mk.inj h
      contradiction
    next e' happly =>
      obtain ⟨he, rfl⟩ := Prod.mk.inj h
      rw [happly, Except.error.inj he]
      exact ⟨rfl, rfl⟩

/-- A session with a text and a copied container: pasting below the text fails, an edited copy of
another node finds nothing, and no child with that key can be replaced. -/
theorem unchanged_of_paste_below_text :
    let s : Session :=
      { forest := [.text "a" (.number 0)], slots := .ofForest [.text "a" (.number 0)]
        clipboard := some (.container "p" (.number 0)) }
    let paste : Command := .paste (some (.number 0))
    let edit : Command := .edit (.text "b" (.number 1))
    let change : ListEdit := .replace (.number 1) (.text "b" (.number 1))
    (paste.inPlace.runOn s = (.error (.cannotHaveChildren (.number 0)), s) ∧
      s.perform paste = .error (.cannotHaveChildren (.number 0)) ∧ s = s) ∧
    (edit.inPlace.runOn s = (.ok (.merged false), s) ∧ s.perform edit = .ok s ∧ s = s) ∧
    (change.applyInPlace.runOn s.forest = (.error (.nodeNotFound (.number 1)), s.forest) ∧
      change.apply s.forest = .error (.nodeNotFound (.number 1)) ∧ s.forest = s.forest) := by
  intro s paste edit change
  have hpaste : paste.inPlace.runOn s = (.error (.cannotHaveChildren (.number 0)), s) := by rfl
  have hedit : edit.inPlace.runOn s = (.ok (.merged false), s) := by rfl
  have hchange : change.applyInPlace.runOn s.forest =
      (.error (.nodeNotFound (.number 1)), s.forest) := by rfl
  obtain ⟨hcommands, hchanges⟩ := unchanged_of_failure s
  exact ⟨⟨hpaste, (hcommands paste).2.1 _ _ hpaste⟩, ⟨hedit, (hcommands edit).2.2 _ hedit⟩,
    ⟨hchange, hchanges _ _ _ _ hchange⟩⟩

end Session

end PageTree
