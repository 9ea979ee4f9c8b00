import PageTree.Proofs.Keyless
import PageTree.Proofs.Session.History
import PageTree.Proofs.Session.Inverse

/-! # The clipboard as a snapshot

What was copied stays on the clipboard as it was, whatever commands follow, until something else is
copied (**`Session.clipboard_afterAll`**). Pasting puts a copy of it behind the children of a parent
with keys of its own, whose class names the forest does not have
(**`Session.Consistent.exists_of_paste`**). Main statement: `Session.pastes_of_reachable`. -/

namespace PageTree.Session

variable {s s' : Session} {command : Command} {commands : List Command}

/-! ## What stays on the clipboard -/

/-- A command copies something to the clipboard: a copy that succeeds. -/
def Copies (s : Session) : Command → Prop
  | .copy key => (s.copy key).isOk = true
  | _ => False

instance (s : Session) : (command : Command) → Decidable (s.Copies command)
  | .copy key => inferInstanceAs (Decidable ((s.copy key).isOk = true))
  | .newContainer _ _ | .newSingle _ _ | .newText _ _ | .paste _ | .delete _ | .edit _
  | .editChildren _ _ => inferInstanceAs (Decidable False)

/-- A command leaves the clipboard, unless it copies something. -/
theorem clipboard_of_perform (h : s.perform command = .ok s') (hcopy : ¬s.Copies command) :
    s'.clipboard = s.clipboard := by
  induction command using Command.kinds with
  | creates command parent make hcreates =>
    rw [hcreates.perform_eq] at h
    obtain ⟨key, hcreate⟩ := exists_of_map_snd_eq_ok h
    obtain ⟨children, -, -, rfl⟩ := exists_of_create_eq_ok hcreate
    rfl
  | copy key =>
    rw [perform] at h
    rw [Copies, h] at hcopy
    exact absurd rfl hcopy
  | paste parent =>
    obtain ⟨key, hpaste⟩ := exists_of_map_snd_eq_ok h
    obtain ⟨children, node, -, -, -, rfl⟩ := exists_of_paste_eq_ok hpaste
    rfl
  | delete key =>
    obtain ⟨removed, hdelete⟩ := exists_of_map_snd_eq_ok h
    obtain ⟨spot, -, -, -, rfl⟩ := delete_eq_ok hdelete
    rfl
  | edit edited =>
    obtain ⟨there, hedit⟩ := exists_of_map_snd_eq_ok h
    rcases edit_eq_ok hedit with ⟨-, -, rfl⟩ | ⟨spot, current, -, -, -, -, -, rfl⟩
    · rfl
    · rfl
  | editChildren parent change =>
    obtain ⟨children, children', removed, -, -, -, rfl⟩ := editChildren_eq_ok h
    rfl

/-- A run leaves the clipboard, unless one of its commands copies something. -/
theorem clipboard_afterAll (hcopy : s.Along (fun s command => ¬s.Copies command) commands) :
    (s.afterAll commands).clipboard = s.clipboard := by
  induction commands generalizing s with
  | nil => rfl
  | cons command commands ih =>
    have hafter : (s.after command).clipboard = s.clipboard := by
      rw [Session.after]
      cases hresult : s.perform command with
      | error e => rfl
      | ok s' => exact clipboard_of_perform hresult hcopy.1
    rw [afterAll_cons, ih hcopy.2, hafter]

/-! ## What is pasted -/

/-- A copy of the clipboard that is pasted: one subtree, the same as what was copied but for its
keys, which are new to the session. -/
structure PastesAs (s s' : Session) (parent : Option Key) (root : Key) (node added : Node) :
    Prop where
  /-- The key that the command gives is that of the subtree. -/
  key : added.key = root
  /-- The subtree comes behind the children of the parent, and nothing else changes. -/
  behind : ∃ children, s.IsListOf parent children ∧ s'.IsListOf parent (children ++ [added]) ∧
    s'.forest = s.withChildrenOf parent (children ++ [added])
  /-- The subtree is what was copied, except for its keys. -/
  same : added.keyless = node.keyless
  /-- Its keys have class names of their own. -/
  distinct : (classNames added.keys).Nodup
  /-- No key of the forest before has one of these class names. -/
  fresh : ∀ key ∈ added.keys, key.className ∉ classNames (Forest.keys s.forest)
  /-- What was copied stays on the clipboard, with its keys. -/
  clipboard : s'.clipboard = some node

/-- Pasting puts a copy of the clipboard into the forest. -/
theorem Consistent.exists_of_paste (hs : s.Consistent) {parent : Option Key} {root : Key}
    (h : s.paste parent = .ok (root, s')) (hroom : s'.slots.HasRoom) {node : Node}
    (hclipboard : s.clipboard = some node) : ∃ added, PastesAs s s' parent root node added := by
  obtain ⟨spot, hexchange⟩ := hs.exchange_of_paste h hroom
  obtain ⟨children, copied, hchildren, hcopied, hroot, hafter⟩ := exists_of_paste_eq_ok h
  obtain rfl := Option.some.inj (hcopied.symm.trans hclipboard)
  have hforest : s'.forest =
      s.withChildrenOf parent (children ++ [(s.slots.rekey copied).1]) := by rw [hafter]
  have harriving : s.arriving (.paste parent) = [(s.slots.rekey copied).1] := by
    rw [arriving, hclipboard]
    rfl
  have hdistinct := hexchange.distinct
  rw [harriving, distinctClasses_fill_iff, Forest.keys_singleton, ← Spot.keys_fill_nil,
    ← hexchange.before] at hdistinct
  exact ⟨(s.slots.rekey copied).1,
    { key := hroot.symm
      behind := ⟨children, isListOf_of_childrenOf hchildren,
        isListOf_of_childrenOf (childrenOf_of_forest_eq hchildren hforest).1, hforest⟩
      same := Slots.keyless_rekey s.slots copied
      distinct := hdistinct.2.1
      fresh := hdistinct.2.2
      clipboard := by rw [hafter, hclipboard] }⟩

/-- **The clipboard is a snapshot.** Let a node be copied in a session that commands lead to, and
let any commands follow, failing ones included, none of which copies something else. The node as it
was is still on the clipboard then, with its keys; and whenever pasting succeeds, exactly one
subtree comes behind the children of the parent, the same as the node was but for its keys, which
have class names different from each other and from those of all keys in the forest. -/
theorem pastes_of_reachable (hs : s.Reachable) {key : Key} (hcopy : s.copy key = .ok s')
    (hroom : s'.Along LeavesRoom commands)
    (hother : s'.Along (fun s command => ¬s.Copies command) commands) :
    ∃ node, Forest.find? key s.forest = some node ∧
      (s'.afterAll commands).clipboard = some node ∧
      ∀ parent root t, (s'.afterAll commands).paste parent = .ok (root, t) → t.slots.HasRoom →
        ∃ added, PastesAs (s'.afterAll commands) t parent root node added := by
  obtain ⟨node, hfind, rfl⟩ := copy_eq_ok hcopy
  have hclipboard := clipboard_afterAll hother
  -- copying changes neither the forest nor the slots
  obtain ⟨spot, hexchange⟩ : ∃ spot, Exchange s { s with clipboard := some node } spot [] [] :=
    (consistent_of_reachable hs).exchange_of_eq rfl rfl rfl
  have hcopied := hexchange.consistent (consistent_of_reachable hs)
  refine ⟨node, hfind, hclipboard, fun parent root t hpaste hroom' => ?_⟩
  exact (hcopied.afterAll hroom).exists_of_paste hpaste hroom' hclipboard

/-- A list is copied under a name that takes a number. A copy goes into the list itself, the list is
deleted and a text takes its number; another copy loses its item, and a last one goes into that. -/
theorem pastes_of_list_run :
    let list := (Node.container "ul" (.name "n0")).withChildren [.container "li" (.number 1)]
    let s : Session := { forest := [list], slots := .ofForest [list] }
    let s' : Session := { s with clipboard := some list }
    let commands : List Command :=
      [.paste (some list.key), .copy (.number 9), .delete list.key, .newText none "a", .paste none,
        .edit (.container "ol" (.number 1))]
    let u := s'.afterAll commands
    let parent : Option Key := some (.number 1)
    s.Reachable ∧ s.copy list.key = .ok s' ∧ s'.Along LeavesRoom commands ∧
    s'.Along (fun s command => ¬s.Copies command) commands ∧
    Forest.keys u.forest = [.number 0, .number 1] ∧
    ∃ t added, u.paste parent = .ok (.number 2, t) ∧ t.slots.HasRoom ∧
      PastesAs u t parent (.number 2) list added := by
  intro list s s' commands u parent
  have hofForest : ofForest [list] true = .ok s := rfl
  have hs : s.Reachable := .ofForest hofForest
  have hcopy : s.copy list.key = .ok s' := rfl
  have hroom : s'.Along LeavesRoom (commands ++ [.paste parent]) := by decide
  have hother : s'.Along (fun s command => ¬s.Copies command) commands := by decide
  have hkeys : Forest.keys u.forest = [.number 0, .number 1] := by decide
  have hroot : (u.paste parent).map Prod.fst = .ok (.number 2) := by decide
  obtain ⟨hroom, hroom'⟩ := along_append.1 hroom
  obtain ⟨⟨root, t⟩, hpaste, rfl⟩ := exists_of_map_eq_ok hroot
  have hroom' : t.slots.HasRoom := by
    have hafter : u.after (.paste parent) = t := by rw [after, perform, hpaste, Except.map]
    exact hafter ▸ hroom'.1
  obtain ⟨node, hfind, -, hpastes⟩ := pastes_of_reachable hs hcopy hroom hother
  have hnode : node = list := Option.some.inj (hfind.symm.trans rfl)
  rw [hnode] at hpastes
  obtain ⟨added, hadded⟩ := hpastes parent (.number 2) t hpaste hroom'
  exact ⟨hs, hcopy, hroom, hother, hkeys, t, added, hpaste, hroom', hadded⟩

end PageTree.Session
