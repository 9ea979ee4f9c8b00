import Mathlib.Data.List.Nodup
import PageTree.Edit.Session
import PageTree.Proofs.ClassName
import PageTree.Proofs.Supply

/-! # Clashing keys

When keys may come into a forest. **`Forest.DistinctClasses`** says that no two keys of a forest
have one class name, and **`Session.IsFirstClash`** names the first of the keys coming in that would
spoil it. Main statement: `Session.firstClash?_fill_eq_none_iff`, nodes may take the place of others
exactly when the forest with them in that place has distinct class names, although the check only
sees the class names of the forest without those of the nodes leaving. -/

namespace PageTree

/-- No two keys of a forest have one class name. -/
def Forest.DistinctClasses (forest : Forest) : Prop :=
  (Session.classNames (Forest.keys forest)).Nodup

instance (forest : Forest) : Decidable forest.DistinctClasses :=
  inferInstanceAs (Decidable (List.Nodup _))

namespace Session

/-- The class names of keys are those of the single keys. -/
@[simp] theorem mem_classNames {name : String} {keys : List Key} :
    name ∈ classNames keys ↔ ∃ key ∈ keys, key.className = name :=
  List.mem_map

/-- Class names are taken key by key, so those of two lists stand one behind the other. -/
@[simp] theorem classNames_append (keys others : List Key) :
    classNames (keys ++ others) = classNames keys ++ classNames others :=
  List.map_append

/-- The class name of a key is among those of the keys it belongs to. -/
theorem className_mem_classNames {key : Key} {keys : List Key} (h : key ∈ keys) :
    key.className ∈ classNames keys :=
  List.mem_map_of_mem h

/-- Keys with different class names are equal if their class names are. -/
theorem eq_of_className_eq {keys : List Key} (h : (classNames keys).Nodup) {a b : Key}
    (ha : a ∈ keys) (hb : b ∈ keys) (hab : a.className = b.className) : a = b :=
  List.inj_on_of_nodup_map h ha hb hab

/-! ## The first clash -/

/-- A key has the class name of one of some keys. -/
def Clashes (key : Key) (keys : List Key) : Prop := key.className ∈ classNames keys

/-- A key is the first of those coming in that clashes with a key kept or with one coming in before
it. -/
def IsFirstClash (kept incoming : List Key) (key : Key) : Prop :=
  ∃ earlier later, incoming = earlier ++ key :: later ∧ Clashes key (kept ++ earlier) ∧
    ∀ front next back, earlier = front ++ next :: back → ¬Clashes next (kept ++ front)

/-- The check only depends on which class names are taken. -/
theorem firstClash?_congr {taken taken' : List String} {keys : List Key}
    (h : ∀ name, name ∈ taken ↔ name ∈ taken') :
    firstClash? taken keys = firstClash? taken' keys := by
  induction keys generalizing taken taken' with
  | nil => rfl
  | cons key keys ih =>
    have hcontains : taken.contains key.className = taken'.contains key.className := by
      rw [Bool.eq_iff_iff, List.contains_iff_mem, List.contains_iff_mem, h]
    have hnext : firstClash? (key.className :: taken) keys =
        firstClash? (key.className :: taken') keys :=
      ih fun name => by rw [List.mem_cons, List.mem_cons, h]
    rw [firstClash?, firstClash?, hcontains, hnext]

/-- No key clashes exactly when the keys have class names of their own, all different. -/
theorem firstClash?_eq_none_iff {taken : List String} {keys : List Key} :
    firstClash? taken keys = none ↔
      (classNames keys).Nodup ∧ ∀ key ∈ keys, key.className ∉ taken := by
  induction keys generalizing taken with
  | nil => simp [firstClash?, classNames]
  | cons key keys ih =>
    rw [firstClash?, classNames, List.map_cons, List.nodup_cons, List.forall_mem_cons]
    split
    next h =>
      constructor
      · intro hnone
        contradiction
      · rintro ⟨-, hkey, -⟩
        exact absurd (List.contains_iff_mem.1 h) hkey
    next h =>
      rw [List.contains_iff_mem] at h
      rw [ih]
      constructor
      · -- a later key with the class of the first would clash with it
        rintro ⟨hnodup, hkeys⟩
        refine ⟨⟨fun hmem => ?_, hnodup⟩, h, fun k hk => List.not_mem_of_not_mem_cons (hkeys k hk)⟩
        obtain ⟨k, hk, hname⟩ := List.mem_map.1 hmem
        exact hkeys k hk (hname ▸ List.mem_cons_self)
      · rintro ⟨⟨hkey, hnodup⟩, -, hkeys⟩
        refine ⟨hnodup, fun k hk hmem => ?_⟩
        rcases List.mem_cons.1 hmem with hname | hmem
        · exact hkey (hname ▸ className_mem_classNames hk)
        · exact hkeys k hk hmem

/-- A key that the check names is the first to clash. -/
theorem isFirstClash_of_firstClash? {kept incoming : List Key} {key : Key}
    (h : firstClash? (classNames kept) incoming = some key) : IsFirstClash kept incoming key := by
  induction incoming generalizing kept with
  | nil => contradiction
  | cons k incoming ih =>
    rw [firstClash?] at h
    split at h
    next hk =>
      obtain rfl := Option.some.inj h
      refine ⟨[], incoming, rfl, ?_, fun front next back hsplit => ?_⟩
      · rw [List.append_nil]
        exact List.contains_iff_mem.1 hk
      · simp at hsplit
    next hk =>
      -- the key passed stands behind those kept instead of in front of the others
      have hswap : ∀ (other : Key) (front : List Key),
          Clashes other ((k :: kept) ++ front) ↔ Clashes other (kept ++ k :: front) := by
        intro other front
        simp only [Clashes, mem_classNames, List.mem_append, List.mem_cons]
        grind
      have hrest : firstClash? (classNames (k :: kept)) incoming = some key := h
      obtain ⟨earlier, later, rfl, hclash, hfirst⟩ := ih hrest
      refine ⟨k :: earlier, later, rfl, (hswap key earlier).1 hclash, ?_⟩
      intro front next back hsplit
      cases front with
      | nil =>
        obtain ⟨rfl, -⟩ := List.cons.inj hsplit
        rw [List.append_nil]
        exact fun hmem => hk (List.contains_iff_mem.2 hmem)
      | cons f front =>
        obtain ⟨rfl, hback⟩ := List.cons.inj hsplit
        exact fun hmem => hfirst front next back hback ((hswap next front).2 hmem)

/-! ## Nodes in the place of others -/

variable {spot : Spot} {gone come : Forest}

/-- The class names of a forest are distinct when those around a place are, those of the nodes in it
are, and none is in both. -/
theorem distinctClasses_fill_iff : (spot.fill come).DistinctClasses ↔
    (classNames spot.keysAround).Nodup ∧ (classNames (Forest.keys come)).Nodup ∧
      ∀ key ∈ Forest.keys come, key.className ∉ classNames spot.keysAround := by
  -- the order of the keys does not matter: those in the place go in front of those around it
  have hperm : (classNames (Forest.keys (spot.fill come))).Perm
      (classNames (Forest.keys come ++ spot.keysAround)) := by
    rw [Spot.keys_fill, Spot.keysAround]
    exact (List.perm_append_comm_assoc _ _ _).map Key.className
  have hdisjoint : (classNames (Forest.keys come)).Disjoint (classNames spot.keysAround) ↔
      ∀ key ∈ Forest.keys come, key.className ∉ classNames spot.keysAround :=
    List.forall_mem_map
  rw [Forest.DistinctClasses, hperm.nodup_iff, classNames_append, List.nodup_append', hdisjoint,
    and_left_comm]

/-- With distinct class names, the search for the key of a node leads to the place where it
stands. -/
theorem leadsTo_of_distinctClasses {node : Node} (h : (spot.fill [node]).DistinctClasses) :
    spot.LeadsTo node.key := by
  refine Spot.leadsTo_of_notMem fun haround => ?_
  refine (distinctClasses_fill_iff.1 h).2.2 node.key ?_ (className_mem_classNames haround)
  exact Forest.key_mem_keys (List.mem_singleton_self node)

/-- With distinct class names, those that stay in use when the nodes in a place leave it are those
around the place. -/
theorem mem_takenWithout_fill (h : (spot.fill gone).DistinctClasses) (name : String) :
    name ∈ takenWithout (Forest.keys gone) (spot.fill gone) ↔
      name ∈ classNames spot.keysAround := by
  obtain ⟨-, -, hdisjoint⟩ := distinctClasses_fill_iff.1 h
  rw [takenWithout, List.mem_filter, Bool.not_eq_true', ← Bool.not_eq_true, List.contains_iff_mem,
    Spot.keys_fill]
  simp only [Spot.keysAround, classNames_append, List.mem_append] at hdisjoint ⊢
  constructor
  · rintro ⟨hbefore | hgone | hafter, hnot⟩
    · exact .inl hbefore
    · exact absurd hgone hnot
    · exact .inr hafter
  · intro haround
    refine ⟨haround.imp_right .inr, fun hgone => ?_⟩
    obtain ⟨key, hkey, rfl⟩ := mem_classNames.1 hgone
    exact hdisjoint key hkey haround

/-- Checking against what stays in use is checking against the keys around the place. -/
theorem firstClash?_takenWithout_fill (h : (spot.fill gone).DistinctClasses) (incoming : List Key) :
    firstClash? (takenWithout (Forest.keys gone) (spot.fill gone)) incoming =
      firstClash? (classNames spot.keysAround) incoming :=
  firstClash?_congr (mem_takenWithout_fill h)

/-- **The check is exact.** In a forest with distinct class names, nodes may take the place of
others exactly when the class names are distinct with them in that place. -/
theorem firstClash?_fill_eq_none_iff (h : (spot.fill gone).DistinctClasses) :
    firstClash? (takenWithout (Forest.keys gone) (spot.fill gone)) (Forest.keys come) = none ↔
      (spot.fill come).DistinctClasses := by
  rw [firstClash?_takenWithout_fill h, firstClash?_eq_none_iff, distinctClasses_fill_iff,
    and_iff_right (distinctClasses_fill_iff.1 h).1]

end Session

end PageTree
