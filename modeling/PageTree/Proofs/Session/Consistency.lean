import PageTree.Proofs.Merge
import PageTree.Proofs.Session.Command

/-! # Consistent sessions

What holds of every session that commands lead to. A session is **`Session.Consistent`** when the
class names of its forest are distinct, the slots of its keys are in use and, if slots are given
back, no others are. Each command is a **`Session.Exchange`**: nodes in one place of the forest go
and others come, with the slots of the former given back and those of the latter taken
(**`Session.Consistent.exchange_of_perform`**), and an exchange keeps a session consistent. Main
statement: `Session.consistent_of_reachable`. -/

namespace PageTree.Session

/-- The keys of a session and its slots fit together. -/
structure Consistent (s : Session) : Prop where
  /-- No two keys have one class name. -/
  distinct : s.forest.DistinctClasses
  /-- The slots of the keys are in use. -/
  held : ∀ n ∈ slotsOf (Forest.keys s.forest), n ∈ s.slots
  /-- If slots are given back, those in use are slots of keys. -/
  exact : s.reclaim = true → ∀ n ∈ s.slots, n ∈ slotsOf (Forest.keys s.forest)

/-- From one session to another, nodes in one place of the forest go and others come. -/
structure Exchange (s s' : Session) (spot : Spot) (gone come : Forest) : Prop where
  /-- The forest before. -/
  before : s.forest = spot.fill gone
  /-- The forest afterwards. -/
  after : s'.forest = spot.fill come
  /-- The class names are distinct afterwards. -/
  distinct : (spot.fill come).DistinctClasses
  /-- Slots are given back as before. -/
  reclaim : s'.reclaim = s.reclaim
  /-- The slots of the nodes that went are given back if that is done at all, and those of the nodes
  that came are taken. -/
  mem_slots : ∀ n, n ∈ s'.slots ↔
    (n ∈ s.slots ∧ (s.reclaim = true → n ∉ slotsOf (Forest.keys gone))) ∨
      n ∈ slotsOf (Forest.keys come)

variable {s s' : Session} {spot : Spot} {gone come : Forest}

/-! ## Slots and places -/

/-- The slots left over when keys leave the forest: all of them, if slots are not given back. -/
theorem mem_slots_without {keys : List Key} {n : UInt64} :
    (n ∈ if s.reclaim then s.slots.releaseAll keys else s.slots) ↔
      n ∈ s.slots ∧ (s.reclaim = true → n ∉ slotsOf keys) := by
  cases s.reclaim with
  | false => exact ⟨fun h => ⟨h, nofun⟩, And.left⟩
  | true =>
    rw [if_pos rfl, Slots.mem_releaseAll]
    exact ⟨fun h => ⟨h.1, fun _ => h.2⟩, fun h => ⟨h.1, h.2 rfl⟩⟩

/-- The slots of a filled place are those around it and those of what comes. -/
theorem mem_slotsOf_keys_fill {n : UInt64} : n ∈ slotsOf (Forest.keys (spot.fill come)) ↔
    n ∈ slotsOf spot.keysAround ∨ n ∈ slotsOf (Forest.keys come) := by
  rw [Spot.keys_fill, Spot.keysAround, slotsOf_append, slotsOf_append, slotsOf_append]
  simp only [List.mem_append]
  grind

/-- With distinct class names, no slot is taken both around a place and in it. -/
theorem not_mem_slotsOf_of_around (h : (spot.fill gone).DistinctClasses) {n : UInt64}
    (haround : n ∈ slotsOf spot.keysAround) : n ∉ slotsOf (Forest.keys gone) := by
  intro hgone
  obtain ⟨key, hkey, hn⟩ := mem_slotsOf.1 hgone
  obtain ⟨other, hother, hn'⟩ := mem_slotsOf.1 haround
  refine (distinctClasses_fill_iff.1 h).2.2 key hkey ?_
  rw [Key.className_eq_of_slot?_eq hn hn']
  exact className_mem_classNames hother

/-- An exchange keeps a session consistent. -/
theorem Exchange.consistent (h : Exchange s s' spot gone come) (hs : s.Consistent) :
    s'.Consistent := by
  have hheld := hs.held
  have hexact := hs.exact
  have hdistinct := hs.distinct
  rw [h.before] at hheld hexact hdistinct
  refine ⟨h.after ▸ h.distinct, ?_, ?_⟩
  · rw [h.after]
    intro n hn
    rw [h.mem_slots]
    rcases mem_slotsOf_keys_fill.1 hn with haround | hcome
    · -- a slot taken around the place is not given back with the nodes that went
      exact .inl ⟨hheld n (mem_slotsOf_keys_fill.2 (.inl haround)),
        fun _ => not_mem_slotsOf_of_around hdistinct haround⟩
    · exact .inr hcome
  · rw [h.after, h.reclaim]
    intro hreclaim n hn
    rw [mem_slotsOf_keys_fill]
    rcases (h.mem_slots n).1 hn with ⟨hused, hnot⟩ | hcome
    · -- what is left over was taken somewhere, and not by the nodes that went
      have hwas := mem_slotsOf_keys_fill.1 (hexact hreclaim n hused)
      exact .inl (hwas.resolve_right (hnot hreclaim))
    · exact .inr hcome

/-! ## New nodes -/

/-- A free number has a class name that no key of the forest has: a key with that class name takes
the number as its slot. -/
theorem Consistent.className_number_notMem (hs : s.Consistent) {n : UInt64} (hfree : n ∉ s.slots) :
    (Key.number n).className ∉ classNames (Forest.keys s.forest) := by
  intro hmem
  obtain ⟨other, hother, hname⟩ := mem_classNames.1 hmem
  exact hfree (hs.held n (mem_slotsOf.2 ⟨other, hother, Key.slot?_eq_some_iff.2 hname⟩))

/-- Nodes with keys that were handed out may come into a consistent forest. -/
theorem Consistent.distinct_fill_of_free (hs : s.Consistent) (hforest : s.forest = spot.fill [])
    {ns : List UInt64} (hkeys : Forest.keys come = ns.map .number) (hnodup : ns.Nodup)
    (hfree : ∀ n ∈ ns, n ∉ s.slots) : (spot.fill come).DistinctClasses := by
  have hdistinct := hs.distinct
  rw [hforest] at hdistinct
  refine distinctClasses_fill_iff.2 ⟨(distinctClasses_fill_iff.1 hdistinct).1, ?_, ?_⟩
  · rw [hkeys, classNames, List.map_map]
    exact hnodup.map fun m n => Key.className_number_inj
  · rw [hkeys, ← Spot.keys_fill_nil, ← hforest]
    intro key hkey
    obtain ⟨n, hn, rfl⟩ := List.mem_map.1 hkey
    exact hs.className_number_notMem (hfree n hn)

/-- Nodes with keys that were handed out make an exchange with nothing. -/
theorem Consistent.exchange_of_handsOut (hs : s.Consistent) (hforest : s.forest = spot.fill [])
    {slots : Slots} (hkeys : s.slots.HandsOut slots (Forest.keys come)) :
    Exchange s { s with forest := spot.fill come, slots := slots } spot [] come := by
  obtain ⟨ns, hns, hnodup, hfree, huse⟩ := hkeys
  refine ⟨hforest, rfl, hs.distinct_fill_of_free hforest hns hnodup hfree, rfl, fun n => ?_⟩
  rw [hns, slotsOf_map_number, huse]
  simp [slotsOf]

/-- A new node makes an exchange with nothing. -/
theorem Consistent.exchange_of_create (hs : s.Consistent) {parent : Option Key} {key : Key}
    {make : Key → Node} (hmake : ∀ key, (make key).keys = [key])
    (h : s.create parent make = .ok (key, s')) (hroom : s'.slots.HasRoom) :
    ∃ spot, Exchange s s' spot [] [make s.slots.allocate.1] := by
  obtain ⟨spot, hforest, rfl, rfl⟩ := create_eq_ok h
  refine ⟨spot, hs.exchange_of_handsOut hforest ?_⟩
  rw [Forest.keys_singleton, hmake]
  exact Slots.handsOut_allocate hroom

/-- A copy from the clipboard makes an exchange with nothing. -/
theorem Consistent.exchange_of_paste (hs : s.Consistent) {parent : Option Key} {key : Key}
    (h : s.paste parent = .ok (key, s')) (hroom : s'.slots.HasRoom) :
    ∃ spot, Exchange s s' spot [] (s.arriving (.paste parent)) := by
  obtain ⟨spot, node, hforest, hclipboard, -, rfl⟩ := paste_eq_ok h
  have harriving : s.arriving (.paste parent) = [(s.slots.rekey node).1] := by
    rw [arriving, hclipboard]
    rfl
  rw [harriving]
  refine ⟨spot, hs.exchange_of_handsOut hforest ?_⟩
  rw [Forest.keys_singleton]
  exact Slots.handsOut_rekey hroom

/-! ## Nodes from outside -/

/-- Taking a subtree out is an exchange with nothing. -/
theorem Consistent.exchange_of_delete (hs : s.Consistent) {key : Key} {removed : Node}
    (h : s.delete key = .ok (removed, s')) : ∃ spot, Exchange s s' spot [removed] [] := by
  obtain ⟨spot, -, -, hforest, rfl⟩ := delete_eq_ok h
  have hdistinct := hs.distinct
  rw [hforest] at hdistinct
  refine ⟨spot, hforest, rfl, ?_, rfl, fun n => ?_⟩
  · refine distinctClasses_fill_iff.2 ⟨(distinctClasses_fill_iff.1 hdistinct).1, List.nodup_nil, ?_⟩
    exact List.forall_mem_nil _
  · rw [Forest.keys_singleton, ← mem_slots_without]
    exact (or_iff_left List.not_mem_nil).symm

/-- The slots after a subtree has become another: where no class name comes twice, dropping the keys
that are gone and adding those that are new leaves the same slots as dropping and adding all. -/
theorem mem_exchangeKeys {before after : List Key} (hnodup : (classNames before).Nodup)
    (hheld : ∀ n ∈ slotsOf before, n ∈ s.slots) (n : UInt64) :
    n ∈ s.exchangeKeys before after ↔
      (n ∈ s.slots ∧ (s.reclaim = true → n ∉ slotsOf before)) ∨ n ∈ slotsOf after := by
  have hleft : n ∈ slotsOf (before.filter fun key => !after.contains key) ↔
      ∃ key ∈ before, key ∉ after ∧ key.slot? = some n := by
    simp [and_assoc]
  have hright : n ∈ slotsOf (after.filter fun key => !before.contains key) ↔
      ∃ key ∈ after, key ∉ before ∧ key.slot? = some n := by
    simp [and_assoc]
  have hslots : n ∈ s.exchangeKeys before after ↔
      (n ∈ s.slots ∧ (s.reclaim = true → ¬∃ key ∈ before, key ∉ after ∧ key.slot? = some n)) ∨
        ∃ key ∈ after, key ∉ before ∧ key.slot? = some n := by
    rw [exchangeKeys, Slots.mem_reserveAll, hright, mem_slots_without, hleft]
  rw [hslots]
  constructor
  · rintro (⟨hused, hkept⟩ | ⟨key, hkey, -, hn⟩)
    · -- a slot that was not given back is still taken or was not taken by the subtree
      by_cases hstays : n ∈ slotsOf after
      · exact .inr hstays
      · refine .inl ⟨hused, fun hreclaim hbefore => ?_⟩
        obtain ⟨key, hkey, hn⟩ := mem_slotsOf.1 hbefore
        exact hkept hreclaim
          ⟨key, hkey, fun hafter => hstays (mem_slotsOf.2 ⟨key, hafter, hn⟩), hn⟩
    · exact .inr (mem_slotsOf.2 ⟨key, hkey, hn⟩)
  · rintro (⟨hused, hgone⟩ | hafter)
    · refine .inl ⟨hused, fun hreclaim ⟨key, hkey, _, hn⟩ => ?_⟩
      exact hgone hreclaim (mem_slotsOf.2 ⟨key, hkey, hn⟩)
    · obtain ⟨key, hkey, hn⟩ := mem_slotsOf.1 hafter
      by_cases hbefore : key ∈ before
      · -- a key that stays keeps its slot, since no other key gives the same one back
        refine .inl ⟨hheld n (mem_slotsOf.2 ⟨key, hbefore, hn⟩), ?_⟩
        rintro - ⟨other, hother, hgone, hn'⟩
        have heq := eq_of_className_eq hnodup hother hbefore (Key.className_eq_of_slot?_eq hn' hn)
        exact hgone (heq ▸ hkey)
      · exact .inr ⟨key, hkey, hbefore, hn⟩

/-- Merging an edited copy is an exchange of the node for what it becomes. -/
theorem Consistent.exchange_of_edit (hs : s.Consistent) {edited current : Node}
    (hkey : current.key = edited.key) (hforest : s.forest = spot.fill [current])
    (hclash : firstClash? (takenWithout current.keys s.forest) edited.keys = none) :
    Exchange s
      { s with
        forest := spot.fill [current.merge edited]
        slots := s.exchangeKeys current.keys (current.merge edited).keys }
      spot [current] [current.merge edited] := by
  have hdistinct := hs.distinct
  have hheld := hs.held
  rw [hforest] at hdistinct hheld
  have hkeys := Forest.keys_singleton
  refine ⟨hforest, rfl, ?_, rfl, fun n => ?_⟩
  · rw [hforest, ← hkeys current, ← Node.keys_merge hkey, ← hkeys (current.merge edited)] at hclash
    exact (firstClash?_fill_eq_none_iff hdistinct).1 hclash
  · rw [hkeys, hkeys]
    refine mem_exchangeKeys ?_ (fun m hm => hheld m ?_) n
    · rw [← hkeys]
      exact (distinctClasses_fill_iff.1 hdistinct).2.1
    · rw [mem_slotsOf_keys_fill, hkeys]
      exact .inr hm

/-- The check before a change of a list of children sees the class names around the place of the
change: the node replaced, which is looked up in the whole forest, is the one in that place. -/
theorem Consistent.firstClash?_leavingKeys (hs : s.Consistent) {change : ListEdit}
    {children children' removed : Forest} (hforest : s.forest = spot.fill removed)
    (happly : change.apply children = .ok (children', removed)) :
    firstClash? (takenWithout (s.leavingKeys change) s.forest) (Forest.keys change.added) =
      firstClash? (classNames spot.keysAround) (Forest.keys change.added) := by
  have hdistinct := hs.distinct
  rw [hforest] at hdistinct
  -- nothing comes in when nodes are only taken out
  have hnothing : ∀ taken taken' : List String,
      firstClash? taken (Forest.keys []) = firstClash? taken' (Forest.keys []) :=
    fun _ _ => rfl
  obtain ⟨front, back, hplace, -, -⟩ := ListEdit.apply_eq_ok_iff.1 happly
  cases hplace with
  | insert =>
    rw [hforest]
    exact firstClash?_takenWithout_fill hdistinct _
  | remove => exact hnothing _ _
  | @replace key old node _ _ _ hkey =>
    have hleads : spot.LeadsTo key := hkey ▸ leadsTo_of_distinctClasses hdistinct
    have hleaving : s.leavingKeys (.replace key node) = Forest.keys [old] := by
      rw [leavingKeys, hforest, hleads.find?_fill hkey, Forest.keys_singleton]
      rfl
    rw [hleaving, hforest]
    exact firstClash?_takenWithout_fill hdistinct _
  | append =>
    rw [hforest]
    exact firstClash?_takenWithout_fill hdistinct _
  | clear => exact hnothing _ _

/-- The nodes that a change of a list takes out are those that it is known to take out by the whole
forest: a key is found in the same place there as among the children. -/
theorem Consistent.departing_editChildren (hs : s.Consistent) {parent : Option Key}
    {change : ListEdit} {children children' removed : Forest}
    (hchildren : s.childrenOf parent = .ok children) (hforest : s.forest = spot.fill removed)
    (happly : change.apply children = .ok (children', removed)) :
    s.departing (.editChildren parent change) = removed := by
  have hdistinct := hs.distinct
  rw [hforest] at hdistinct
  have hfind : ∀ {key node}, removed = [node] → node.key = key →
      (Forest.find? key s.forest).toList = removed := by
    rintro key node rfl rfl
    rw [hforest, (leadsTo_of_distinctClasses hdistinct).find?_fill rfl]
    rfl
  obtain ⟨front, back, hplace, hfront, -⟩ := ListEdit.apply_eq_ok_iff.1 happly
  cases hplace with
  | insert => rfl
  | remove _ hkey => exact hfind rfl hkey
  | replace _ hkey => exact hfind rfl hkey
  | append => rfl
  | clear =>
    rw [departing, hchildren, hfront, List.nil_append, List.append_nil]
    rfl

/-- A change of the children of a parent is an exchange of the nodes taken out for those added. -/
theorem Consistent.exchange_of_editChildren (hs : s.Consistent) {parent : Option Key}
    {change : ListEdit} (h : s.editChildren parent change = .ok s') :
    ∃ spot, Exchange s s' spot (s.departing (.editChildren parent change)) change.added := by
  obtain ⟨children, children', removed, hchildren, happly, hclash, rfl⟩ := editChildren_eq_ok h
  obtain ⟨inner, hinner, rfl⟩ := exists_spot_of_apply happly
  obtain ⟨spot, hforest, hwith⟩ := exists_spot_of_childrenOf (hinner ▸ hchildren)
  rw [hwith]
  have hdistinct := hs.distinct
  rw [hforest] at hdistinct
  rw [hs.departing_editChildren hchildren hforest happly]
  refine ⟨spot, hforest, rfl, ?_, rfl, fun n => ?_⟩
  · rw [hs.firstClash?_leavingKeys hforest happly, firstClash?_eq_none_iff] at hclash
    exact distinctClasses_fill_iff.2 ⟨(distinctClasses_fill_iff.1 hdistinct).1, hclash⟩
  · rw [Slots.mem_reserveAll, mem_slots_without]

/-! ## Any command -/

/-- A session that is taken in is consistent. -/
theorem consistent_of_ofForest {forest : Forest} {reclaim : Bool}
    (h : ofForest forest reclaim = .ok s) : s.Consistent := by
  rw [ofForest] at h
  split at h
  next => contradiction
  next hclash =>
    obtain rfl := Except.ok.inj h
    exact ⟨(firstClash?_eq_none_iff.1 hclash).1, fun n hn => Slots.mem_ofForest.2 hn,
      fun _ n hn => Slots.mem_ofForest.1 hn⟩

/-- Leaving the forest and its slots alone is an exchange of nothing with nothing. -/
theorem Consistent.exchange_of_eq (hs : s.Consistent) (hforest : s'.forest = s.forest)
    (hslots : s'.slots = s.slots) (hreclaim : s'.reclaim = s.reclaim) :
    ∃ spot, Exchange s s' spot [] [] := by
  have hfill : (Spot.top s.forest []).fill [] = s.forest := by
    rw [Spot.fill, List.nil_append, List.append_nil]
  refine ⟨.top s.forest [], hfill.symm, hforest.trans hfill.symm, hfill.symm ▸ hs.distinct,
    hreclaim, fun n => ?_⟩
  rw [hslots]
  simp [slotsOf]

/-- **A command that succeeds makes an exchange** of the nodes that it takes out for those that it
brings in. -/
theorem Consistent.exchange_of_perform (hs : s.Consistent) {command : Command}
    (h : s.perform command = .ok s') (hroom : s'.slots.HasRoom) :
    ∃ spot, Exchange s s' spot (s.departing command) (s.arriving command) := by
  induction command using Command.kinds with
  | creates command parent make hcreates =>
    rw [hcreates.perform_eq] at h
    obtain ⟨key, hcreate⟩ := exists_of_map_snd_eq_ok h
    rw [hcreates.departing_eq, hcreates.arriving_eq]
    exact hs.exchange_of_create hcreates.keys_make hcreate hroom
  | copy key =>
    obtain ⟨node, -, rfl⟩ := copy_eq_ok h
    exact hs.exchange_of_eq rfl rfl rfl
  | paste parent =>
    obtain ⟨key, hpaste⟩ := exists_of_map_snd_eq_ok h
    exact hs.exchange_of_paste hpaste hroom
  | delete key =>
    obtain ⟨removed, hdelete⟩ := exists_of_map_snd_eq_ok h
    obtain ⟨outer, hleads, hkey, hforest, -⟩ := delete_eq_ok hdelete
    rw [departing, hforest, hleads.find?_fill hkey]
    exact hs.exchange_of_delete hdelete
  | edit edited =>
    obtain ⟨there, hedit⟩ := exists_of_map_snd_eq_ok h
    rw [departing, arriving]
    rcases edit_eq_ok hedit with
      ⟨hnone, -, rfl⟩ | ⟨spot, current, hfind, hkey, hforest, hclash, -, rfl⟩
    · rw [hnone]
      exact hs.exchange_of_eq rfl rfl rfl
    · rw [hfind]
      exact ⟨spot, hs.exchange_of_edit hkey hforest hclash⟩
  | editChildren parent change => exact hs.exchange_of_editChildren h

/-- A command keeps a session consistent, whether it succeeds or fails. -/
theorem Consistent.after (hs : s.Consistent) (command : Command)
    (hroom : (s.after command).slots.HasRoom) : (s.after command).Consistent := by
  rw [Session.after] at hroom ⊢
  cases hresult : s.perform command with
  | error e => exact hs
  | ok s' =>
    rw [hresult] at hroom
    obtain ⟨spot, hexchange⟩ := hs.exchange_of_perform hresult hroom
    exact hexchange.consistent hs

/-- **Every session that commands lead to is consistent.** -/
theorem consistent_of_reachable (hs : s.Reachable) : s.Consistent := by
  induction hs with
  | empty reclaim =>
    exact ⟨List.nodup_nil, fun n hn => absurd hn List.not_mem_nil,
      fun _ n hn => absurd hn List.not_mem_nil⟩
  | ofForest h => exact consistent_of_ofForest h
  | after command _ hroom ih => exact ih.after command hroom

/-- **Keys and slots of a session.** Whatever commands came before, failing ones included: the class
names of the keys are distinct, so no key occurs twice and no number meets the name spelled like its
class; the slot of every key is in use; and if slots are given back, exactly those are. -/
theorem keys_and_slots_of_reachable (hs : s.Reachable) :
    (classNames (Forest.keys s.forest)).Nodup ∧
    (Forest.keys s.forest).Nodup ∧
    (∀ (n : UInt64) (name : String), .number n ∈ Forest.keys s.forest →
      .name name ∈ Forest.keys s.forest → name ≠ "n" ++ Digits.text n.toNat) ∧
    (∀ key ∈ Forest.keys s.forest, ∀ n, key.slot? = some n → n ∈ s.slots) ∧
    (s.reclaim = true →
      ∀ n, n ∈ s.slots ↔ ∃ key ∈ Forest.keys s.forest, key.slot? = some n) := by
  obtain ⟨hdistinct, hheld, hexact⟩ := consistent_of_reachable hs
  refine ⟨hdistinct, hdistinct.of_map Key.className, ?_, ?_, ?_⟩
  · intro n name hnumber hname hspelled
    have hclass : (Key.name name).className = (Key.number n).className := by
      rw [Key.className_name_eq_number_iff, hspelled]
      simp [Digits.text]
    exact Key.noConfusion (eq_of_className_eq hdistinct hname hnumber hclass)
  · intro key hkey n hn
    exact hheld n (mem_slotsOf.2 ⟨key, hkey, hn⟩)
  · intro hreclaim n
    rw [← mem_slotsOf]
    exact ⟨hexact hreclaim n, hheld n⟩

/-- A run that takes a name in, hands the number after it out and then gives the name back. -/
theorem keys_and_slots_of_run :
    let start : Session :=
      { forest := [.text "a" (.name "n0")], slots := .ofForest [.text "a" (.name "n0")] }
    let s := (start.after (.newContainer none "div")).after (.delete (.name "n0"))
    s.Reachable ∧ (classNames (Forest.keys s.forest)).Nodup ∧ (Forest.keys s.forest).Nodup ∧
    (∀ (n : UInt64) (name : String), .number n ∈ Forest.keys s.forest →
      .name name ∈ Forest.keys s.forest → name ≠ "n" ++ Digits.text n.toNat) ∧
    (∀ key ∈ Forest.keys s.forest, ∀ n, key.slot? = some n → n ∈ s.slots) ∧
    (s.reclaim = true →
      ∀ n, n ∈ s.slots ↔ ∃ key ∈ Forest.keys s.forest, key.slot? = some n) := by
  intro start s
  have hofForest : ofForest start.forest true = .ok start := rfl
  have hstart : start.Reachable := .ofForest hofForest
  have hs : s.Reachable :=
    .after _ (.after _ hstart (by decide)) (by decide)
  exact ⟨hs, keys_and_slots_of_reachable hs⟩

end PageTree.Session
