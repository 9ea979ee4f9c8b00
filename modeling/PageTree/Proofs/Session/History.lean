import PageTree.Proofs.Session.InPlace

/-! # Keys over a whole history

A run of commands from a session (**`Session.afterAll`**), and the keys that are handed out on the
way (**`Session.issuedAlong`**); **`Session.Along`** says that something holds at each step. If
slots are not given back, those in use only become more (**`Session.Consistent.slots_afterAll`**),
and a key is in use as soon as it stands in the forest or is handed out. Main statement:
`Session.issued_once_of_reachable`, no key is handed out that was handed out before or that ever
stood in the forest. -/

namespace PageTree.Session

variable {s s' : Session} {command : Command} {commands : List Command}

/-! ## Runs -/

/-- The session after commands, each of which succeeds or fails. -/
def afterAll (s : Session) (commands : List Command) : Session := commands.foldl after s

/-- The first command is carried out before the others. -/
@[simp] theorem afterAll_cons (s : Session) (command : Command) (commands : List Command) :
    s.afterAll (command :: commands) = (s.after command).afterAll commands := rfl

/-- More commands are carried out in the session that the first ones leave. -/
theorem afterAll_append (s : Session) (first second : List Command) :
    s.afterAll (first ++ second) = (s.afterAll first).afterAll second :=
  List.foldl_append

/-- Something holds of each of the commands, in the session that it is carried out in. -/
def Along (holds : Session → Command → Prop) (s : Session) : List Command → Prop
  | [] => True
  | command :: commands => holds s command ∧ Along holds (s.after command) commands

instance decidableAlong (holds : Session → Command → Prop)
    [∀ s command, Decidable (holds s command)] (s : Session) :
    (commands : List Command) → Decidable (s.Along holds commands)
  | [] => inferInstanceAs (Decidable True)
  | command :: commands =>
    have := decidableAlong holds (s.after command) commands
    inferInstanceAs (Decidable (_ ∧ _))

/-- Something holds along more commands when it does along the first and then along the others. -/
theorem along_append {holds : Session → Command → Prop} {first second : List Command} :
    s.Along holds (first ++ second) ↔
      s.Along holds first ∧ (s.afterAll first).Along holds second := by
  induction first generalizing s with
  | nil => exact (and_iff_right trivial).symm
  | cons command first ih =>
    rw [List.cons_append, Along, Along, ih, afterAll_cons, and_assoc]

/-- Some number is still free after a command. -/
def LeavesRoom (s : Session) (command : Command) : Prop := (s.after command).slots.HasRoom

instance (s : Session) (command : Command) : Decidable (s.LeavesRoom command) :=
  inferInstanceAs (Decidable (Slots.HasRoom _))

/-- A run keeps a session consistent. -/
theorem Consistent.afterAll (hs : s.Consistent) (hroom : s.Along LeavesRoom commands) :
    (s.afterAll commands).Consistent := by
  induction commands generalizing s with
  | nil => exact hs
  | cons command commands ih => exact ih (hs.after command hroom.1) hroom.2

/-! ## Slots that are not given back -/

/-- If slots are not given back, a command leaves those in use, whether it succeeds or fails. -/
theorem Consistent.slots_after (hs : s.Consistent) (hreclaim : s.reclaim = false)
    (hroom : s.LeavesRoom command) :
    (s.after command).reclaim = false ∧ ∀ n ∈ s.slots, n ∈ (s.after command).slots := by
  rw [LeavesRoom, Session.after] at hroom
  rw [Session.after]
  cases hresult : s.perform command with
  | error e => exact ⟨hreclaim, fun n hn => hn⟩
  | ok s' =>
    rw [hresult] at hroom
    obtain ⟨spot, hexchange⟩ := hs.exchange_of_perform hresult hroom
    refine ⟨hexchange.reclaim.trans hreclaim, fun n hn => (hexchange.mem_slots n).2 (.inl ⟨hn, ?_⟩)⟩
    intro hback
    exact absurd (hback.symm.trans hreclaim) (by decide)

/-- If slots are not given back, a run of commands leaves those in use. -/
theorem Consistent.slots_afterAll (hs : s.Consistent) (hreclaim : s.reclaim = false)
    (hroom : s.Along LeavesRoom commands) :
    (s.afterAll commands).reclaim = false ∧ ∀ n ∈ s.slots, n ∈ (s.afterAll commands).slots := by
  induction commands generalizing s with
  | nil => exact ⟨hreclaim, fun n hn => hn⟩
  | cons command commands ih =>
    obtain ⟨hreclaim', hslots⟩ := hs.slots_after hreclaim hroom.1
    obtain ⟨hreclaim'', hslots'⟩ := ih (hs.after command hroom.1) hreclaim' hroom.2
    exact ⟨hreclaim'', fun n hn => hslots' n (hslots n hn)⟩

/-! ## Keys handed out -/

/-- The keys that a command hands out: if it answers a key, those of the node that this key leads to
in the forest afterwards and of all nodes below it. A command that answers no key hands out none,
and so does one that fails. -/
def issued (s : Session) (command : Command) : List Key :=
  match s.answer command with
  | .ok (.key key, s') => Forest.keys (Forest.find? key s'.forest).toList
  | _ => []

/-- The keys that commands hand out one after the other. -/
def issuedAlong (s : Session) : List Command → List Key
  | [] => []
  | command :: commands => s.issued command ++ (s.after command).issuedAlong commands

/-- A command that answers a key puts a node with this key into an empty place of the forest, and
hands out the keys of the node and of all nodes below it. -/
theorem exists_spot_of_answer {key : Key} (h : s.answer command = .ok (.key key, s'))
    (hroom : s'.slots.HasRoom) :
    ∃ (spot : Spot) (added : Node), s.forest = spot.fill [] ∧ s'.forest = spot.fill [added] ∧
      added.key = key ∧ s.slots.HandsOut s'.slots added.keys := by
  induction command using Command.kinds with
  | creates command parent make hcreates =>
    rw [answer_eq_of_creates hcreates] at h
    obtain ⟨spot, hforest, rfl, rfl⟩ := create_eq_ok (eq_ok_of_map_key h)
    refine ⟨spot, make s.slots.allocate.1, hforest, rfl, hcreates.key_make _, ?_⟩
    rw [hcreates.keys_make]
    exact Slots.handsOut_allocate hroom
  | paste parent =>
    obtain ⟨spot, node, hforest, -, hkey, rfl⟩ := paste_eq_ok (eq_ok_of_map_key h)
    exact ⟨spot, (s.slots.rekey node).1, hforest, rfl, hkey.symm, Slots.handsOut_rekey hroom⟩
  | copy key | delete key | edit edited | editChildren parent change =>
    obtain ⟨a, -, heq⟩ := exists_of_map_eq_ok h
    exact Answer.noConfusion (Prod.mk.inj heq).1

/-- **What a command that answers a key hands out.** The first key is the one answered, all of them
are free slots that are taken into use, and they are the keys that the forest gains. -/
theorem Consistent.issued_of_answer (hs : s.Consistent) {key : Key}
    (h : s.answer command = .ok (.key key, s')) (hroom : s'.slots.HasRoom) :
    (∃ below, s.issued command = key :: below) ∧ s.slots.HandsOut s'.slots (s.issued command) ∧
      (Forest.keys s'.forest).Perm (s.issued command ++ Forest.keys s.forest) := by
  obtain ⟨spot, added, hforest, hforest', rfl, hhands⟩ := exists_spot_of_answer h hroom
  -- the keys are new to the forest, so that of the node leads to its place
  have hdistinct : (spot.fill [added]).DistinctClasses :=
    (hs.exchange_of_handsOut hforest (Forest.keys_singleton added ▸ hhands)).distinct
  have hfind : Forest.find? added.key s'.forest = some added := by
    rw [hforest', (leadsTo_of_distinctClasses hdistinct).find?_fill rfl]
  have hissued : s.issued command = added.keys := by
    rw [issued, h]
    dsimp only
    rw [hfind, Option.toList_some, Forest.keys_singleton]
  rw [hissued]
  refine ⟨⟨Forest.keys added.children, Node.keys_eq added⟩, hhands, ?_⟩
  rw [hforest, hforest', Spot.keys_fill, Spot.keys_fill_nil, Spot.keysAround,
    Forest.keys_singleton]
  exact List.perm_append_comm_assoc _ _ _

/-- The keys that a command hands out are numbers that were free, all different, and in use
afterwards. -/
theorem Consistent.exists_issued_eq (hs : s.Consistent) (hroom : s.LeavesRoom command) :
    ∃ ns : List UInt64, s.issued command = ns.map .number ∧ ns.Nodup ∧ (∀ n ∈ ns, n ∉ s.slots) ∧
      ∀ n ∈ ns, n ∈ (s.after command).slots := by
  by_cases hkey : ∃ key s', s.answer command = .ok (.key key, s')
  · obtain ⟨key, s', hanswer⟩ := hkey
    rw [LeavesRoom, after_eq_of_answer hanswer] at hroom
    rw [after_eq_of_answer hanswer]
    obtain ⟨-, ⟨ns, hkeys, hnodup, hfree, huse⟩, -⟩ := hs.issued_of_answer hanswer hroom
    exact ⟨ns, hkeys, hnodup, hfree, fun n hn => (huse n).2 (.inr hn)⟩
  · have hnone : s.issued command = [] := by
      rw [issued]
      split
      next key s' hanswer => exact absurd ⟨key, s', hanswer⟩ hkey
      next => rfl
    exact ⟨[], hnone, List.nodup_nil, List.forall_mem_nil _, List.forall_mem_nil _⟩

/-- If slots are not given back, the keys that a run hands out are numbers that were free, all
different. -/
theorem Consistent.exists_issuedAlong_eq (hs : s.Consistent) (hreclaim : s.reclaim = false)
    (hroom : s.Along LeavesRoom commands) :
    ∃ ns : List UInt64, s.issuedAlong commands = ns.map .number ∧ ns.Nodup ∧
      ∀ n ∈ ns, n ∉ s.slots := by
  induction commands generalizing s with
  | nil => exact ⟨[], rfl, List.nodup_nil, List.forall_mem_nil _⟩
  | cons command commands ih =>
    obtain ⟨hreclaim', hslots⟩ := hs.slots_after hreclaim hroom.1
    obtain ⟨ns, hissued, hnodup, hfree, huse⟩ := hs.exists_issued_eq hroom.1
    obtain ⟨ms, hissued', hnodup', hfree'⟩ := ih (hs.after command hroom.1) hreclaim' hroom.2
    -- the numbers handed out first stay in use, so they are not free for the others
    refine ⟨ns ++ ms, ?_, ?_, List.forall_mem_append.2 ⟨hfree, fun m hm hused => ?_⟩⟩
    · rw [issuedAlong, hissued, hissued', List.map_append]
    · exact hnodup.append hnodup' fun n hn hn' => hfree' n hn' (huse n hn)
    · exact hfree' m hm (hslots m hused)

/-- **No key is handed out twice.** If slots are not given back, the keys that commands hand out
from a session on are all different: those of the nodes created and those of every node of the
subtrees pasted. When a key is handed out, no key that stood in the forest at that time or any
earlier one has its class name, be it deleted, replaced or dropped by an edit since. And whenever a
command answers a key, this key comes first among those that it hands out, and these are exactly the
keys that the forest gains. -/
theorem issued_once_of_reachable (hs : s.Reachable) (hreclaim : s.reclaim = false)
    (hroom : s.Along LeavesRoom commands) :
    (s.issuedAlong commands).Nodup ∧
    (∀ before command after earlier, commands = before ++ command :: after → earlier <+: before →
      ∀ key ∈ (s.afterAll before).issued command,
        key.className ∉ classNames (Forest.keys (s.afterAll earlier).forest)) ∧
    ∀ before command after key s', commands = before ++ command :: after →
      (s.afterAll before).answer command = .ok (.key key, s') →
      (∃ below, (s.afterAll before).issued command = key :: below) ∧
        (Forest.keys s'.forest).Perm
          ((s.afterAll before).issued command ++ Forest.keys (s.afterAll before).forest) := by
  have hconsistent := consistent_of_reachable hs
  refine ⟨?_, ?_, ?_⟩
  · obtain ⟨ns, hissued, hnodup, -⟩ := hconsistent.exists_issuedAlong_eq hreclaim hroom
    rw [hissued]
    exact hnodup.map fun m n => Key.number.inj
  · rintro before command after earlier rfl ⟨between, rfl⟩ key hkey
    obtain ⟨hroom, hroom'⟩ := along_append.1 hroom
    obtain ⟨hroomEarlier, hroomBetween⟩ := along_append.1 hroom
    have hearlier := hconsistent.afterAll hroomEarlier
    obtain ⟨hreclaim', -⟩ := hconsistent.slots_afterAll hreclaim hroomEarlier
    obtain ⟨-, hslots⟩ := hearlier.slots_afterAll hreclaim' hroomBetween
    rw [← afterAll_append] at hslots
    -- a number that is free when it is handed out was free at any earlier time
    obtain ⟨ns, hissued, -, hfree, -⟩ := (hconsistent.afterAll hroom).exists_issued_eq hroom'.1
    rw [hissued] at hkey
    obtain ⟨n, hn, rfl⟩ := List.mem_map.1 hkey
    exact hearlier.className_number_notMem fun hused => hfree n hn (hslots n hused)
  · rintro before command after key s' rfl hanswer
    obtain ⟨hroom, hroom'⟩ := along_append.1 hroom
    have hroomNow : s'.slots.HasRoom := after_eq_of_answer hanswer ▸ hroom'.1
    obtain ⟨hfirst, -, hgain⟩ := (hconsistent.afterAll hroom).issued_of_answer hanswer hroomNow
    exact ⟨hfirst, hgain⟩

/-- A run that pastes copies of a list before and after the list is deleted and the first copy has
lost its item to one with a name that takes a number. The last copy is answered by its first key,
and the forest has its two keys more. -/
theorem issued_once_of_list_run :
    let list := (Node.container "ul" (.name "n0")).withChildren [.container "li" (.number 1)]
    let s : Session := { forest := [list], slots := .ofForest [list], reclaim := false }
    let edited := (Node.container "ul" (.number 2)).withChildren [.container "li" (.name "n5")]
    let before : List Command :=
      [.copy list.key, .paste none, .delete list.key, .newText none "a", .edit edited]
    let command : Command := .paste (some edited.key)
    let commands := before ++ [command]
    let now := s.afterAll before
    let s' := now.after command
    s.Reachable ∧ s.reclaim = false ∧ s.Along LeavesRoom commands ∧
    s.issuedAlong commands = [.number 2, .number 3, .number 4, .number 6, .number 7] ∧
    (s.issuedAlong commands).Nodup ∧
    (∀ earlier, earlier <+: before → ∀ key ∈ now.issued command,
      key.className ∉ classNames (Forest.keys (s.afterAll earlier).forest)) ∧
    now.answer command = .ok (.key (.number 6), s') ∧
    (∃ below, now.issued command = .number 6 :: below) ∧
    (Forest.keys s'.forest).Perm (now.issued command ++ Forest.keys now.forest) := by
  intro list s edited before command commands now s'
  have hofForest : ofForest [list] false = .ok s := rfl
  have hs : s.Reachable := .ofForest hofForest
  have hroom : s.Along LeavesRoom commands := by decide
  have hroot : (now.paste (some edited.key)).map Prod.fst = .ok (.number 6) := by decide
  obtain ⟨⟨root, t⟩, hpaste, hsix⟩ := exists_of_map_eq_ok hroot
  have hpasted : now.answer command = .ok (.key (.number 6), t) := by
    rw [answer, hpaste, ← hsix]
    rfl
  have hanswer : now.answer command = .ok (.key (.number 6), s') := by
    rw [hpasted, ← after_eq_of_answer hpasted]
  obtain ⟨hnodup, hfresh, hgain⟩ := issued_once_of_reachable hs rfl hroom
  obtain ⟨hfirst, hperm⟩ := hgain before command [] _ s' rfl hanswer
  exact ⟨hs, rfl, hroom, by decide, hnodup, fun earlier => hfresh before command [] earlier rfl,
    hanswer, hfirst, hperm⟩

end PageTree.Session
