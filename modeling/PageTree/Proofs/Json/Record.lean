import PageTree.Json.Record
import PageTree.Proofs.Json.Text

/-! # Records read back

An object is often written with some of its entries left out (**`Json.entriesOf`**). When the names
of a shape are all different, the value of every field is found again among those entries, whatever
stands in front of them under other names (**`Json.fields?_entriesOf`**). The nesting, the
readability and the numbers of such an object are those of the parts that are written. -/

namespace PageTree

/-- Two fields without a common name. -/
def RecordField.Apart (a b : RecordField) : Prop := ∀ name ∈ b.names, name ∉ a.names

instance (a b : RecordField) : Decidable (a.Apart b) :=
  inferInstanceAs (Decidable (∀ name ∈ b.names, name ∉ a.names))

namespace Json

/-! ## Objects with entries left out -/

/-- The entries of an object, without the parts that have no value. -/
def entriesOf (parts : List (String × Option Json)) : List (String × Json) :=
  parts.filterMap fun part => part.2.map fun value => (part.1, value)

variable {parts back : List (String × Option Json)} {shape : List RecordField}

/-- The entries of parts stand one behind the other. -/
@[simp] theorem entriesOf_append (front back : List (String × Option Json)) :
    entriesOf (front ++ back) = entriesOf front ++ entriesOf back :=
  List.filterMap_append

/-- The first part makes an entry if it has a value. -/
theorem entriesOf_cons (name : String) (value : Option Json)
    (parts : List (String × Option Json)) :
    entriesOf ((name, value) :: parts) =
      (value.map fun value => (name, value)).toList ++ entriesOf parts := by
  cases value <;> rfl

/-- The entries of parts are those parts that have a value. -/
theorem mem_entriesOf {entry : String × Json} :
    entry ∈ entriesOf parts ↔ (entry.1, some entry.2) ∈ parts := by
  rw [entriesOf, List.mem_filterMap]
  constructor
  · rintro ⟨⟨name, value⟩, hpart, heq⟩
    obtain ⟨found, rfl, rfl⟩ := Option.map_eq_some_iff.1 heq
    exact hpart
  · exact fun hpart => ⟨_, hpart, rfl⟩

/-- Parts under other names do not belong to a field. -/
theorem filter_entriesOf_eq_nil {field : RecordField}
    (h : ∀ part ∈ parts, part.1 ∉ field.names) :
    (entriesOf parts).filter (fun entry => field.names.contains entry.1) = [] := by
  rw [List.filter_eq_nil_iff]
  intro entry hentry hname
  exact h _ (mem_entriesOf.1 hentry) (List.contains_iff_mem.1 hname)

/-- The value of a field is found between parts under other names. -/
theorem namedField?_entriesOf (front : List (String × Option Json)) {field : RecordField}
    {name : String} (value : Option Json) (hname : name ∈ field.names)
    (hfront : ∀ part ∈ front, part.1 ∉ field.names)
    (hback : ∀ part ∈ back, part.1 ∉ field.names) :
    namedField? (entriesOf (front ++ (name, value) :: back)) field = some value := by
  rw [namedField?, entriesOf_append, entriesOf_cons, List.filter_append, List.filter_append,
    filter_entriesOf_eq_nil hfront, filter_entriesOf_eq_nil hback, List.append_nil,
    List.nil_append]
  cases value with
  | none => rfl
  | some value => simp [hname]

/-- Every part belongs to a field of the shape. -/
theorem exists_field_of_mem
    (hnames : List.Forall₂ (fun field part => part.1 ∈ field.names) shape parts) :
    ∀ part ∈ parts, ∃ field ∈ shape, part.1 ∈ field.names := by
  induction hnames with
  | nil => exact nofun
  | @cons field part shape parts hname _ ih =>
    refine List.forall_mem_cons.2 ⟨⟨field, List.mem_cons_self, hname⟩, fun other hother => ?_⟩
    obtain ⟨found, hfound, hother⟩ := ih other hother
    exact ⟨found, List.mem_cons_of_mem _ hfound, hother⟩

/-- Every field of a shape is found again in an object that holds its parts in order, under
different names, behind parts under other names. -/
theorem fields?_entriesOf (front : List (String × Option Json))
    (hnames : List.Forall₂ (fun field part => part.1 ∈ field.names) shape parts)
    (hshape : shape.Pairwise RecordField.Apart)
    (hfront : ∀ part ∈ front, ∀ field ∈ shape, part.1 ∉ field.names) :
    fields? shape (.object (entriesOf (front ++ parts))) = some (parts.map Prod.snd) := by
  rw [fields?]
  induction hnames generalizing front with
  | nil => rfl
  | @cons field part shape parts hname hnames ih =>
    obtain ⟨hfield, hrest⟩ := List.pairwise_cons.1 hshape
    have hback : ∀ other ∈ parts, other.1 ∉ field.names := by
      intro other hother
      obtain ⟨field', hfield', hother'⟩ := exists_field_of_mem hnames other hother
      exact hfield field' hfield' _ hother'
    have hfirst := namedField?_entriesOf front part.2 hname
      (fun other hother => hfront other hother field List.mem_cons_self) hback
    -- for the fields after it the part of this one is one more in front
    have hnext : ∀ other ∈ front ++ [part], ∀ field' ∈ shape, other.1 ∉ field'.names := by
      intro other hother field' hfield'
      rcases List.mem_append.1 hother with hother | hother
      · exact hfront other hother field' (List.mem_cons_of_mem _ hfield')
      · rw [List.mem_singleton.1 hother]
        exact fun hcommon => hfield field' hfield' _ hcommon hname
    have hothers := ih (front ++ [part]) hrest hnext
    rw [List.append_assoc, List.singleton_append] at hothers
    rw [List.mapM_cons, hfirst, hothers]
    rfl

/-! ## What holds of all parts -/

/-- Items are no deeper than a bound exactly when no single one is. -/
theorem depthOfItems_le_iff {items : List Json} {n : Nat} :
    depthOfItems items ≤ n ↔ ∀ item ∈ items, item.depth ≤ n := by
  induction items with
  | nil => simp [depthOfItems]
  | cons item items ih => rw [depthOfItems_cons, Nat.max_le, ih, List.forall_mem_cons]

/-- Entries are no deeper than a bound exactly when no single value is. -/
theorem depthOfEntries_le_iff {entries : List (String × Json)} {n : Nat} :
    depthOfEntries entries ≤ n ↔ ∀ entry ∈ entries, entry.2.depth ≤ n := by
  induction entries with
  | nil => simp [depthOfEntries]
  | cons entry entries ih => rw [depthOfEntries_cons, Nat.max_le, ih, List.forall_mem_cons]

/-- Items can be read exactly when every single one can. -/
theorem areItemsReadable_iff {items : List Json} :
    areItemsReadable items = true ↔ ∀ item ∈ items, item.isReadable = true := by
  induction items with
  | nil => simp [areItemsReadable]
  | cons item items ih => rw [areItemsReadable, Bool.and_eq_true, ih, List.forall_mem_cons]

/-- Entries can be read exactly when every single value can. -/
theorem areEntriesReadable_iff {entries : List (String × Json)} :
    areEntriesReadable entries = true ↔ ∀ entry ∈ entries, entry.2.isReadable = true := by
  induction entries with
  | nil => simp [areEntriesReadable]
  | cons entry entries ih => rw [areEntriesReadable, Bool.and_eq_true, ih, List.forall_mem_cons]

/-- A value is readable if everything without parts in it stands for something. -/
theorem Every.isReadable {json : Json} (h : json.Every (· ≠ .unreadable)) :
    json.isReadable = true := by
  induction h with
  | scalar hs => exact bne_iff_ne.2 hs
  | array _ ih => exact areItemsReadable_iff.2 ih
  | object _ ih => exact areEntriesReadable_iff.2 ih

/-- Something holds of all values in an object when it holds of the parts that have a value. -/
theorem forall_mem_entriesOf {p : Json → Prop} :
    (∀ entry ∈ entriesOf parts, p entry.2) ↔ ∀ part ∈ parts, ∀ value ∈ part.2, p value := by
  constructor
  · intro h part hpart value hvalue
    rw [Option.mem_def] at hvalue
    exact h (part.1, value) (mem_entriesOf.2 (hvalue ▸ hpart))
  · exact fun h entry hentry => h _ (mem_entriesOf.1 hentry) entry.2 rfl

/-- An object is no deeper than a bound exactly when the values of its parts stay one below it. -/
theorem depth_entriesOf_le_iff {n : Nat} :
    (Json.object (entriesOf parts)).depth ≤ n + 1 ↔
      ∀ part ∈ parts, ∀ value ∈ part.2, value.depth ≤ n := by
  rw [depth_object, Nat.add_le_add_iff_right, depthOfEntries_le_iff]
  exact forall_mem_entriesOf (p := fun value => value.depth ≤ n)

/-- What holds of the values of all parts holds of their object. -/
theorem every_entriesOf {q : Scalar → Prop} (h : ∀ part ∈ parts, ∀ value ∈ part.2, value.Every q) :
    (Json.object (entriesOf parts)).Every q :=
  .object (forall_mem_entriesOf.2 h)

/-! ## Parts that may be left out -/

variable {p : Json → Prop} {json : Json} {leaveOut : Bool}

/-- What holds of a value holds of a part that has it. -/
theorem forall_mem_some (h : p json) : ∀ value ∈ some json, p value := by
  rintro value ⟨rfl⟩
  exact h

/-- What holds of a value holds of a part that may leave it out. -/
theorem forall_mem_ite (h : leaveOut = false → p json) :
    ∀ value ∈ if leaveOut then none else some json, p value := by
  cases leaveOut with
  | true => exact nofun
  | false => exact forall_mem_some (h rfl)

/-- What holds of everything that a part may write holds of the part. -/
theorem forall_mem_map {α : Type} {write : α → Json} {value? : Option α}
    (h : ∀ a ∈ value?, p (write a)) : ∀ value ∈ value?.map write, p value := by
  cases value? with
  | none => exact nofun
  | some a => exact forall_mem_some (h a rfl)

/-! ## Fields that may be absent -/

variable {α β : Type}

/-- What is absent or written is read back, unless it is written as `null`. -/
theorem nullable_map {read : Json → Option α} {write : α → Json} {value : Option α}
    (h : ∀ a ∈ value, write a ≠ .null ∧ read (write a) = some a) :
    nullable read (value.map write) = some value := by
  cases value with
  | none => rfl
  | some a =>
    obtain ⟨hnull, hread⟩ := h a rfl
    rw [Option.map_some, nullable, hread]
    · rfl
    · exact hnull

/-- What is left out for being the default, or written, is read back. -/
theorem withDefault_ite {read : Json → Option α} {default a : α} {isDefault : Bool} {json : Json}
    (hdefault : isDefault = true → default = a) (hread : isDefault = false → read json = some a) :
    withDefault default read (if isDefault then none else some json) = some a := by
  cases isDefault with
  | true => exact congrArg some (hdefault rfl)
  | false => exact hread rfl

/-- A list whose items are read back is read back. -/
theorem mapM_map {read : β → Option α} {write : α → β} {list : List α}
    (h : ∀ a ∈ list, read (write a) = some a) : (list.map write).mapM read = some list := by
  induction list with
  | nil => rfl
  | cons a list ih =>
    obtain ⟨ha, hlist⟩ := List.forall_mem_cons.1 h
    rw [List.map_cons, List.mapM_cons, ha, ih hlist]
    rfl

/-- A list is read back where there is room for it, if its items are. -/
theorem list?_map {read : Nat → Json → Option α} {write : α → Json} {list : List α} {room : Nat}
    (hdepth : (Json.array (list.map write)).depth ≤ room)
    (hread : ∀ a ∈ list, ∀ room, (write a).depth ≤ room → read room (write a) = some a) :
    list? read room (.array (list.map write)) = some list := by
  cases room with
  | zero => contradiction
  | succ room =>
    rw [depth_array, Nat.add_le_add_iff_right, depthOfItems_le_iff] at hdepth
    rw [list?, items?, Option.bind_some]
    exact mapM_map fun a ha => hread a ha room (hdepth _ (List.mem_map_of_mem ha))

end Json

end PageTree
