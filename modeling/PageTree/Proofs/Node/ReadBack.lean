import PageTree.Proofs.Node.Written

/-! # Nodes, edits and layers read back

Reading what was written for a node, for a change of a list of nodes or for a layer gives it again,
if the nesting is within the room there is (**`Node.read?_toJson`**, **`ListEdit.read?_toJson`**,
**`Layer.read?_toJson`**): what is left out is what a reader puts back, no field takes the place of
another, and a style is made of its entries in their order. What is written is readable as a whole
(**`ListEdit.isReadable_toJson`**), which the reader of changes asks for. -/

namespace PageTree

/-! ## Styles -/

namespace Style

/-- Setting a name that is new puts it at the end. -/
theorem insertEntry_of_notMem {name : String} {entries : List (String × StyleValue)}
    (h : name ∉ entries.map Prod.fst) (value : StyleValue) :
    insertEntry name value entries = entries ++ [(name, value)] := by
  induction entries with
  | nil => rfl
  | cons entry entries ih =>
    rw [List.map_cons, List.mem_cons, not_or] at h
    rw [insertEntry, if_neg (Ne.symm h.1), ih h.2, List.cons_append]

/-- Setting names that are new and different puts them at the end in their order. -/
theorem entries_foldl_insert {s : Style} {entries : List (String × StyleValue)}
    (h : ((s.entries ++ entries).map Prod.fst).Nodup) :
    (entries.foldl (fun s entry => s.insert entry.1 entry.2) s).entries = s.entries ++ entries := by
  induction entries generalizing s with
  | nil => simp
  | cons entry entries ih =>
    have hnew : entry.1 ∉ s.entries.map Prod.fst := by
      rw [List.map_append, List.map_cons] at h
      exact fun hmem => (List.nodup_append.1 h).2.2 _ hmem _ List.mem_cons_self rfl
    have hinsert : (s.insert entry.1 entry.2).entries = s.entries ++ [entry] :=
      insertEntry_of_notMem hnew entry.2
    rw [List.foldl_cons, ih, hinsert, List.append_assoc, List.singleton_append]
    rwa [hinsert, List.append_assoc, List.singleton_append]

/-- Styles with the same entries are the same. -/
theorem eq_of_entries_eq {s t : Style} (h : s.entries = t.entries) : s = t := by
  cases s
  cases t
  cases h
  rfl

/-- A style is made of its entries in their order. -/
theorem ofList_entries (s : Style) : ofList s.entries = s := by
  have hentries : (ofList s.entries).entries = s.entries :=
    entries_foldl_insert (s := empty) s.nodup
  exact eq_of_entries_eq hentries

/-- A style is read back from its data, where there is room for their depth. -/
theorem read?_toJson (s : Style) {room : Nat} (h : s.toJson.depth ≤ room) :
    read? room s.toJson = some s := by
  have hentries : (s.entries.map fun entry => (entry.1, entry.2.toJson)).mapM (fun entry =>
      (StyleValue.ofJson? entry.2).map fun value => (entry.1, value)) = some s.entries := by
    refine Json.mapM_map fun entry _ => ?_
    rw [StyleValue.ofJson?_toJson]
    rfl
  cases room with
  | zero => contradiction
  | succ room => rw [toJson, read?, hentries, Option.map_some, ofList_entries]

end Style

/-! ## Properties -/

/-- A free attribute is read back from its data. -/
theorem Attribute.read?_toJson (a : Attribute) {room : Nat} (h : a.toJson.depth ≤ room) :
    Attribute.read? room a.toJson = some a := by
  cases room with
  | zero => contradiction
  | succ room => rfl

/-- A position is read back from its data. -/
theorem Position.read?_toJson (p : Position) {room : Nat} (h : p.toJson.depth ≤ room) :
    Position.read? room p.toJson = some p := by
  cases room with
  | zero => contradiction
  | succ room => rfl

namespace Props

/-- Properties are read back where there is room for them. -/
theorem read?_toJson (p : Props) {room : Nat} (h : p.toJson.depth ≤ room) :
    read? room p.toJson = some p := by
  cases room with
  | zero => contradiction
  | succ room =>
    rw [toJson_eq, Json.depth_entriesOf_le_iff] at h
    simp only [List.forall_mem_cons] at h
    obtain ⟨-, -, hstyle, hattributes, hposition, -⟩ := h
    have hfields : p.toJson.fields? shape = some [p.id.map .text, p.className.map .text,
        if p.style.isEmpty then none else some p.style.toJson,
        if p.attributes.isEmpty then none else some (.array (p.attributes.map Attribute.toJson)),
        p.position.map Position.toJson] := by
      rw [toJson_eq]
      exact Json.fields?_entriesOf [] (by simp [shape, RecordField.optional])
        (by decide) nofun
    have hid : Json.nullable Json.text? (p.id.map .text) = some p.id :=
      Json.nullable_map fun _ _ => ⟨nofun, rfl⟩
    have hclassName : Json.nullable Json.text? (p.className.map .text) = some p.className :=
      Json.nullable_map fun _ _ => ⟨nofun, rfl⟩
    have hstyle : Json.withDefault .empty (Style.read? room)
        (if p.style.isEmpty then none else some p.style.toJson) = some p.style := by
      refine Json.withDefault_ite (fun hempty => ?_) fun hsome => ?_
      · exact Style.eq_of_entries_eq (List.isEmpty_iff.1 hempty).symm
      · exact p.style.read?_toJson (hstyle _ (by rw [hsome]; rfl))
    have hattributes : Json.withDefault [] (Json.list? Attribute.read? room)
        (if p.attributes.isEmpty then none else some (.array (p.attributes.map Attribute.toJson))) =
          some p.attributes := by
      refine Json.withDefault_ite (fun hempty => (List.isEmpty_iff.1 hempty).symm) fun hsome => ?_
      exact Json.list?_map (hattributes _ (by rw [hsome]; rfl)) fun a _ _ => a.read?_toJson
    have hposition : Json.nullable (Position.read? room) (p.position.map Position.toJson) =
        some p.position := by
      refine Json.nullable_map fun q hq => ⟨nofun, q.read?_toJson (hposition _ ?_)⟩
      rw [Option.mem_def.1 hq]
      rfl
    rw [read?, hfields]
    simp only [Option.bind_eq_bind, Option.bind_some, hid, hclassName, hstyle, hattributes,
      hposition]

end Props

/-! ## Nodes -/

namespace Node

/-- The parts of a node are read back, if its children are and there is room for the others. -/
theorem ofFields?_toJson (node : Node) (mark : Json.WordMark) {room : Nat}
    {readChildren : Json → Option Forest}
    (hchildren : node.children.isEmpty = false →
      readChildren (.array (node.children.map Node.toJson)) = some node.children)
    (hprops : ∀ p ∈ node.props, p.toJson.depth ≤ room) :
    ofFields? mark room readChildren node.toJson = some node := by
  have hfields : node.toJson.fields? shape = some [some (.text node.kind.word),
      some node.key.toJson, some (.text node.tag), node.displayName.map .text,
      if node.children.isEmpty then none else some (.array (node.children.map Node.toJson)),
      node.props.map Props.toJson, node.content.map .text] := by
    rw [toJson_eq]
    exact Json.fields?_entriesOf []
      (by simp [shape, RecordField.required, RecordField.optional]) (by decide) nofun
  have hkind : Json.required (Json.word? NodeKind.words mark room) (some (.text node.kind.word)) =
      some node.kind := by
    cases node.kind <;> rfl
  have hkey : Json.required Key.ofJson? (some node.key.toJson) = some node.key :=
    Key.ofJson?_toJson node.key
  have htag : Json.withDefault "" Json.text? (some (.text node.tag)) = some node.tag := rfl
  have hname : Json.nullable Json.text? (node.displayName.map .text) = some node.displayName :=
    Json.nullable_map fun _ _ => ⟨nofun, rfl⟩
  have hchildren : Json.withDefault [] readChildren (if node.children.isEmpty then none
      else some (.array (node.children.map Node.toJson))) = some node.children :=
    Json.withDefault_ite (fun hempty => (List.isEmpty_iff.1 hempty).symm) hchildren
  have hprops : Json.nullable (Props.read? room) (node.props.map Props.toJson) = some node.props :=
    Json.nullable_map fun p hp => ⟨nofun, p.read?_toJson (hprops p hp)⟩
  have hcontent : Json.nullable Json.text? (node.content.map .text) = some node.content :=
    Json.nullable_map fun _ _ => ⟨nofun, rfl⟩
  rw [ofFields?, hfields]
  simp only [Option.bind_eq_bind, Option.bind_some, hkind, hkey, htag, hname, hchildren, hprops,
    hcontent]
  cases node
  rfl

/-- A node is read back where there is room for it, whatever may stand under the words for kinds. -/
theorem read?_toJson (mark : Json.WordMark) (node : Node) {room : Nat}
    (h : node.toJson.depth ≤ room) : read? mark room node.toJson = some node := by
  induction node using Node.induction generalizing room with
  | step node ih =>
    cases room with
    | zero =>
      rw [toJson_eq] at h
      contradiction
    | succ room =>
      have hparts := h
      rw [toJson_eq, Json.depth_entriesOf_le_iff] at hparts
      simp only [List.forall_mem_cons] at hparts
      obtain ⟨-, -, -, -, hchildren, hprops, -⟩ := hparts
      have hchildren : node.children.isEmpty = false →
          (Json.array (node.children.map toJson)).depth ≤ room := by
        intro hsome
        exact hchildren _ (by rw [hsome]; rfl)
      have hprops : ∀ p ∈ node.props, p.toJson.depth ≤ room := by
        intro p hp
        exact hprops _ (by rw [Option.mem_def.1 hp]; rfl)
      cases room with
      | zero =>
        -- there is no room for a list of children, so there are none
        exact node.ofFields?_toJson mark (fun hsome => absurd (hchildren hsome) (by simp)) hprops
      | succ room =>
        refine node.ofFields?_toJson mark (fun hsome => ?_) hprops
        exact Json.list?_map (hchildren hsome) fun child hchild _ => ih child hchild

end Node

/-! ## Layers -/

namespace Layer

/-- The parts of a layer are read back, if its children are. -/
theorem ofFields?_toJson (layer : Layer) {readChildren : Json → Option (List Layer)}
    (hchildren : readChildren (.array (layer.children.map toJson)) = some layer.children) :
    ofFields? readChildren layer.toJson = some layer := by
  have hfields : layer.toJson.fields? fields = some [some (.text layer.title),
      some layer.key.toJson, some (.bool layer.leaf),
      some (.array (layer.children.map toJson))] := by
    rw [toJson_eq]
    exact Json.fields?_entriesOf []
      (by simp [fields, RecordField.required, RecordField.optional]) (by decide) nofun
  rw [ofFields?, hfields]
  simp only [Option.bind_eq_bind, Option.bind_some, Json.required, Json.withDefault, Json.text?,
    Json.bool?, Key.ofJson?_toJson, hchildren]
  cases layer
  rfl

/-- Layers are read back where there is room for them. -/
theorem read?_toJson_of_mem (layers : List Layer) :
    ∀ layer ∈ layers, ∀ room, layer.toJson.depth ≤ room → read? room layer.toJson = some layer := by
  induction layers using Layer.induction with
  | nil => exact nofun
  | cons layer layers ihc ihs =>
    refine List.forall_mem_cons.2 ⟨fun room h => ?_, ihs⟩
    cases room with
    | zero =>
      rw [toJson_eq] at h
      contradiction
    | succ room =>
      rw [toJson_eq, Json.depth_entriesOf_le_iff] at h
      simp only [List.forall_mem_cons] at h
      obtain ⟨-, -, -, hchildren, -⟩ := h
      have hchildren : (Json.array (layer.children.map toJson)).depth ≤ room := hchildren _ rfl
      -- a layer always has a list of children, so there is room for one
      cases room with
      | zero => contradiction
      | succ room =>
        have hlist : Json.list? read? (room + 1) (.array (layer.children.map toJson)) =
            some layer.children := Json.list?_map hchildren ihc
        exact layer.ofFields?_toJson hlist

/-- A layer is read back from its data, with those below it. -/
theorem read?_toJson (layer : Layer) {room : Nat} (h : layer.toJson.depth ≤ room) :
    read? room layer.toJson = some layer :=
  read?_toJson_of_mem [layer] layer List.mem_cons_self room h

end Layer

/-! ## Changes of a list of nodes -/

namespace ListEdit

/-- The word of a change is found in front of its fields. -/
theorem namedField?_op (edit : ListEdit) :
    Json.namedField? (Json.entriesOf (("op", some (.text edit.word)) :: edit.parts))
      (.required "op") = some (some (.text edit.word)) := by
  refine Json.namedField?_entriesOf [] _ List.mem_cons_self nofun ?_
  cases edit <;> simp [parts, RecordField.required]

/-- The fields of a change are found behind its word. -/
theorem fields?_parts (edit : ListEdit) (shape : List RecordField)
    (hnames : List.Forall₂ (fun field part => part.1 ∈ field.names) shape edit.parts)
    (hshape : shape.Pairwise RecordField.Apart)
    (hop : ∀ field ∈ shape, "op" ∉ field.names) :
    edit.toJson.fields? shape = some (edit.parts.map Prod.snd) := by
  rw [toJson_eq]
  exact Json.fields?_entriesOf [("op", some (.text edit.word))] hnames hshape
    fun part hpart => by rwa [List.mem_singleton.1 hpart]

/-- The fields of a change are read back where there is room for its nodes. -/
theorem ofFields?_toJson (edit : ListEdit) {room : Nat} (h : edit.toJson.depth ≤ room + 1) :
    ofFields? edit.word room edit.toJson = some edit := by
  -- every part behind the word has the room that is left
  have hparts := h
  rw [toJson_eq, Json.depth_entriesOf_le_iff, List.forall_mem_cons] at hparts
  replace hparts := hparts.2
  have hread : ∀ (node : Node) (room : Nat), node.toJson.depth ≤ room →
      Node.read? .nullOrEmpty room node.toJson = some node :=
    fun node room h => node.read?_toJson .nullOrEmpty h
  cases edit with
  | insert index node =>
    have hfields := fields?_parts (.insert index node) [.required "index", .required "node"]
      (by simp [parts, RecordField.required]) (by decide) (by decide)
    have hnode := hread node room (hparts ("node", some node.toJson) (by simp [parts]) _ rfl)
    rw [word, ofFields?, hfields]
    simp [parts, Json.required, Json.natural?, hnode]
  | remove key =>
    have hfields := fields?_parts (.remove key) [.required "key"]
      (by simp [parts, RecordField.required]) (by decide) (by decide)
    rw [word, ofFields?, hfields]
    simp [parts, Json.required]
  | replace key node =>
    have hfields := fields?_parts (.replace key node) [.required "key", .required "node"]
      (by simp [parts, RecordField.required]) (by decide) (by decide)
    have hnode := hread node room (hparts ("node", some node.toJson) (by simp [parts]) _ rfl)
    rw [word, ofFields?, hfields]
    simp [parts, Json.required, hnode]
  | append nodes =>
    have hfields := fields?_parts (.append nodes) [.required "nodes"]
      (by simp [parts, RecordField.required]) (by decide) (by decide)
    have hdepth := hparts ("nodes", some (.array (nodes.map Node.toJson))) (by simp [parts]) _ rfl
    have hnodes : Forest.read? .nullOrEmpty room (.array (nodes.map Node.toJson)) = some nodes :=
      Json.list?_map hdepth fun node _ => hread node
    rw [word, ofFields?, hfields]
    simp [parts, Json.required, hnodes]
  | clear =>
    have hfields := fields?_parts .clear [] (by simp [parts]) (by decide) (by decide)
    rw [word, ofFields?, hfields]
    rfl

/-- What is written for a change is readable. -/
theorem isReadable_toJson (edit : ListEdit) : edit.toJson.isReadable = true :=
  (edit.every_toJson (fun _ hs _ => hs) fun _ _ => nofun).isReadable

/-- A change is read back where there is room for it. -/
theorem read?_toJson (edit : ListEdit) {room : Nat} (h : edit.toJson.depth ≤ room) :
    read? room edit.toJson = some edit := by
  cases room with
  | zero =>
    rw [toJson_eq] at h
    contradiction
  | succ room =>
    have hreadable : edit.toJson.readable? (room + 1) = some edit.toJson := by
      rw [Json.readable?, edit.isReadable_toJson, decide_eq_true h]
      rfl
    have hfields := edit.ofFields?_toJson h
    rw [read?, hreadable]
    rw [toJson_eq] at hfields ⊢
    simp only [Option.bind_eq_bind, Option.bind_some, edit.namedField?_op, hfields]

end ListEdit

/-! ## Texts -/

namespace Json

/-- Whatever is no number is restored. -/
theorem isRestored_of_plain (s : Scalar) (_ : s ≠ .unreadable) (hs : ∀ x, s ≠ .real x) :
    s.IsRestored := by
  cases s with
  | real x => exact absurd rfl (hs x)
  | _ => exact trivial

/-- What is read back from a value is read back from its texts, if the numbers in it are
restored. -/
theorem parse?_bind_eq {α : Type} {json : Json} {read : Json → Option α} {a : α}
    (hjson : json.IsRestored) (hread : read json = some a) :
    ∀ text ∈ [json.compact, json.indented], (parse? text).bind read = some a := by
  obtain ⟨hcompact, hindented⟩ := parse?_compact_indented hjson
  simp only [List.forall_mem_cons, hcompact, hindented, Option.bind_some, hread]
  exact ⟨trivial, trivial, nofun⟩

/-- **The data notation loses nothing.** A node, a change of a list of nodes and a layer are read
back from their texts, on one line or on several, if all numbers in them are finite, the texts of
these numbers are read as the same numbers, and the nesting is within the limit of the reader. -/
theorem read_back_of_restored :
    (∀ node : Node, (∀ x ∈ node.numbers, x.isFinite = true) →
      (∀ x ∈ node.numbers, x.isFinite = true → x.IsRestored) → node.toJson.depth ≤ depthLimit →
      ∀ text ∈ [node.toJson.compact, node.toJson.indented],
        (parse? text).bind Node.ofJson? = some node) ∧
    (∀ edit : ListEdit, (∀ x ∈ edit.numbers, x.isFinite = true) →
      (∀ x ∈ edit.numbers, x.isFinite = true → x.IsRestored) → edit.toJson.depth ≤ depthLimit →
      ∀ text ∈ [edit.toJson.compact, edit.toJson.indented],
        (parse? text).bind ListEdit.ofJson? = some edit) ∧
    ∀ layer : Layer, layer.toJson.depth ≤ depthLimit →
      ∀ text ∈ [layer.toJson.compact, layer.toJson.indented],
        (parse? text).bind Layer.ofJson? = some layer := by
  refine ⟨fun node hfinite hrestored hdepth => ?_, fun edit hfinite hrestored hdepth => ?_,
    fun layer hdepth => ?_⟩
  · exact parse?_bind_eq
      (node.every_toJson isRestored_of_plain fun x hx => hrestored x hx (hfinite x hx))
      (node.read?_toJson .null hdepth)
  · exact parse?_bind_eq
      (edit.every_toJson isRestored_of_plain fun x hx => hrestored x hx (hfinite x hx))
      (edit.read?_toJson hdepth)
  · exact parse?_bind_eq (Layer.every_toJson isRestored_of_plain [layer] layer List.mem_cons_self)
      (layer.read?_toJson hdepth)

/-- A card with a number and an unset value in its style, a position, and an empty name. Below it
are a text without characters, whose key is a name spelled like a number, and an element with empty
properties. -/
def placedCard (x : Double) : Node :=
  { kind := .container, key := .number 7, tag := "div", displayName := some ""
    children := [{ kind := .text, key := .name "7", content := some "" },
      { kind := .single, key := .number 8, tag := "br", props := some {} }]
    props := some {
      style := .ofList [("width", .number x), ("color", .unset), ("--gap", .text "1")]
      position := some ⟨x, x⟩ } }

/-- One and a half, in a node and in a change that replaces a node, and a layer with a leaf. -/
theorem read_back_of_oneAndHalf :
    let x := Double.ofRatio false 3 2
    let node := placedCard x
    let edit := ListEdit.replace (.name "7") node
    let layer : Layer :=
      { title := "ul", key := .name "a\nb"
        children := [{ title := "", key := .number 1, leaf := true }] }
    (∀ y ∈ node.numbers, y.isFinite = true) ∧
    (∀ y ∈ node.numbers, y.isFinite = true → y.IsRestored) ∧ node.toJson.depth ≤ depthLimit ∧
    (∀ text ∈ [node.toJson.compact, node.toJson.indented],
      (parse? text).bind Node.ofJson? = some node) ∧
    edit.toJson.depth ≤ depthLimit ∧
    (∀ text ∈ [edit.toJson.compact, edit.toJson.indented],
      (parse? text).bind ListEdit.ofJson? = some edit) ∧
    layer.toJson.depth ≤ depthLimit ∧
    ∀ text ∈ [layer.toJson.compact, layer.toJson.indented],
      (parse? text).bind Layer.ofJson? = some layer := by
  intro x node edit layer
  -- whatever the number is, the card has it three times
  have hcard : ∀ y, (placedCard y).numbers = [y, y, y] := fun _ => rfl
  have hnodeDepth : ∀ y, (placedCard y).toJson.depth = 4 := fun _ => rfl
  have heditDepth : ∀ y, (ListEdit.replace (.name "7") (placedCard y)).toJson.depth = 5 :=
    fun _ => rfl
  have hx : x.isFinite = true := by decide +kernel
  have hfinite : ∀ y ∈ node.numbers, y.isFinite = true := by
    rw [hcard]
    simp only [List.forall_mem_cons]
    exact ⟨hx, hx, hx, nofun⟩
  have hrestored : ∀ y ∈ node.numbers, y.isFinite = true → y.IsRestored := by
    rw [hcard]
    simp only [List.forall_mem_cons]
    exact ⟨fun _ => Double.isRestored_oneAndHalf, fun _ => Double.isRestored_oneAndHalf,
      fun _ => Double.isRestored_oneAndHalf, nofun⟩
  have hnumbers : edit.numbers = node.numbers := List.append_nil _
  have hnode : node.toJson.depth ≤ depthLimit := by
    rw [hnodeDepth]
    decide
  have hedit : edit.toJson.depth ≤ depthLimit := by
    rw [heditDepth]
    decide
  have hlayer : layer.toJson.depth ≤ depthLimit := by decide
  obtain ⟨hofNode, hofEdit, hofLayer⟩ := read_back_of_restored
  exact ⟨hfinite, hrestored, hnode, hofNode node hfinite hrestored hnode, hedit,
    hofEdit edit (hnumbers ▸ hfinite) (hnumbers ▸ hrestored) hedit, hlayer, hofLayer layer hlayer⟩

end Json

end PageTree
