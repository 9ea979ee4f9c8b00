import PageTree.Proofs.Markup.View

/-! # Reading views back

The markup of a forest determines its views, for whatever indentation. A reader tells by the first
character after the spaces whether a text, an element or the end of a container comes
(**`Markup.closes_viewText`**), a tag ends at its name, an attribute at its quote, and a line of
text at the line break. Main statement: `page_eq_iff_forestViews_eq`, forests have the same page
exactly when they have the same views, if tags and attributes have plain names and texts are on one
line. -/

namespace PageTree.Markup

/-! ## Names -/

/-- Letters, digits and the marks that may stand in a name. -/
def isNameChar (c : Char) : Bool := c.isAlphanum || c == '-' || c == '_' || c == ':'

/-- Whether a text is a name. -/
def isName (name : String) : Bool := name != "" && name.toList.all isNameChar

/-- The characters of a name may stand in one. -/
theorem isNameChar_of_mem {name : String} (h : isName name) {c : Char} (hc : c ∈ name.toList) :
    isNameChar c := by
  rw [isName, Bool.and_eq_true, List.all_eq_true] at h
  exact h.2 c hc

/-- A name starts with a character of a name. -/
theorem exists_cons_of_isName {name : String} (h : isName name) :
    ∃ c cs, name.toList = c :: cs ∧ isNameChar c := by
  cases hchars : name.toList with
  | nil =>
    rw [String.toList_eq_nil_iff.1 hchars] at h
    contradiction
  | cons c cs => exact ⟨c, cs, rfl, isNameChar_of_mem h (hchars ▸ List.mem_cons_self)⟩

/-- A name ends at the first character that no name has. -/
theorem name_append_inj {name other : String} (hname : isName name) (hother : isName other)
    {c d : Char} {x y : List Char} (hc : isNameChar c = false) (hd : isNameChar d = false)
    (h : name.toList ++ c :: x = other.toList ++ d :: y) : name = other ∧ c :: x = d :: y := by
  have hfront : ∀ {name : String} {c : Char} {x : List Char}, isName name →
      isNameChar c = false → (name.toList ++ c :: x).takeWhile isNameChar = name.toList := by
    intro name c x hname hc
    rw [List.takeWhile_append_of_pos fun _ => isNameChar_of_mem hname,
      List.takeWhile_cons_of_neg (by rw [hc]; exact Bool.false_ne_true), List.append_nil]
  have hchars : name.toList = other.toList := by
    rw [← hfront hname hc, h, hfront hother hd]
  rw [hchars] at h
  exact ⟨String.toList_inj.1 hchars, List.append_cancel_left h⟩

/-! ## Tags -/

/-- The characters of attributes. -/
def attributeChars (attributes : List (String × String)) : List Char :=
  attributes.flatMap fun a =>
    ' ' :: (a.1.toList ++ '=' :: '"' :: (escapeChars true a.2.toList ++ ['"']))

/-- The first attribute stands before the others, its value escaped and in quotes. -/
theorem attributeChars_cons (a : String × String) (attributes : List (String × String)) :
    attributeChars (a :: attributes) =
      ' ' :: (a.1.toList ++ '=' :: '"' :: (escapeChars true a.2.toList ++
        '"' :: attributeChars attributes)) := by
  simp [attributeChars]

/-- The end of an opening tag. -/
def endChars (selfClosing : Bool) : List Char := if selfClosing then [' ', '/', '>'] else ['>']

/-- A tag is its name, its attributes and its end, behind the character that opens it. -/
theorem toList_tagText (selfClosing : Bool) (tag : String) (attributes : List (String × String)) :
    (tagText selfClosing tag attributes).toList =
      '<' :: (tag.toList ++ (attributeChars attributes ++ endChars selfClosing)) := by
  have hattributes : (String.join (attributes.map fun a =>
      attributeText (a.1, .quoted a.2))).toList = attributeChars attributes := by
    induction attributes with
    | nil => rfl
    | cons a attributes ih =>
      rw [List.map_cons, String.join_cons, String.toList_append, ih, attributeChars_cons]
      simp [attributeText, escapeAttribute]
  have hend : (if selfClosing then " />" else ">" : String).toList = endChars selfClosing := by
    cases selfClosing <;> rfl
  rw [tagText, String.toList_append, String.toList_append, String.toList_append, hattributes, hend]
  simp

/-- Attributes with names are read back from the front of what follows them in a tag. -/
theorem attributeChars_append_inj {attributes others : List (String × String)}
    {selfClosing selfClosing' : Bool} {x y : List Char}
    (hnames : ∀ a ∈ attributes, isName a.1) (hnames' : ∀ a ∈ others, isName a.1)
    (h : attributeChars attributes ++ (endChars selfClosing ++ x) =
      attributeChars others ++ (endChars selfClosing' ++ y)) :
    attributes = others ∧ selfClosing = selfClosing' ∧ x = y := by
  -- the end of a tag is no start of an attribute: behind a space comes the slash
  have hend : ∀ {selfClosing : Bool} {x y : List Char} {a : String × String}
      {attributes : List (String × String)}, isName a.1 →
      endChars selfClosing ++ x ≠ attributeChars (a :: attributes) ++ y := by
    intro selfClosing x y a attributes ha heq
    obtain ⟨c, cs, hchars, hc⟩ := exists_cons_of_isName ha
    rw [attributeChars_cons, hchars] at heq
    cases selfClosing with
    | false => exact absurd (List.cons.inj heq).1 (by decide)
    | true =>
      obtain rfl := (List.cons.inj (List.cons.inj heq).2).1
      contradiction
  induction attributes generalizing others with
  | nil =>
    cases others with
    | nil =>
      cases selfClosing <;> cases selfClosing' <;> simp_all [attributeChars, endChars]
    | cons b others => exact absurd h (hend (hnames' b List.mem_cons_self))
  | cons a attributes ih =>
    cases others with
    | nil => exact absurd h.symm (hend (hnames a List.mem_cons_self))
    | cons b others =>
      obtain ⟨hname, hrest⟩ := List.forall_mem_cons.1 hnames
      obtain ⟨hname', hrest'⟩ := List.forall_mem_cons.1 hnames'
      rw [attributeChars_cons, attributeChars_cons] at h
      simp only [List.cons_append, List.append_assoc] at h
      obtain ⟨hkey, hvalue⟩ := name_append_inj hname hname' rfl rfl (List.cons.inj h).2
      obtain ⟨hescaped, htail⟩ := Text.append_cons_inj (quote_notMem_escapeChars _)
        (quote_notMem_escapeChars _) (List.cons.inj (List.cons.inj hvalue).2).2
      have htext := String.toList_inj.1 (escapeChars_inj hescaped)
      obtain ⟨rfl, hclosing, hend⟩ := ih hrest hrest' htail
      exact ⟨by rw [Prod.ext hkey htext], hclosing, hend⟩

/-- An opening tag is read back from the front of what follows it. -/
theorem tagText_append_inj {selfClosing selfClosing' : Bool} {tag tag' : String}
    {attributes others : List (String × String)} {x y : List Char} (htag : isName tag)
    (htag' : isName tag') (hnames : ∀ a ∈ attributes, isName a.1)
    (hnames' : ∀ a ∈ others, isName a.1)
    (h : (tagText selfClosing tag attributes).toList ++ x =
      (tagText selfClosing' tag' others).toList ++ y) :
    selfClosing = selfClosing' ∧ tag = tag' ∧ attributes = others ∧ x = y := by
  -- the name of the tag ends at a space or at the end of the tag
  have hstop : ∀ (attributes : List (String × String)) (selfClosing : Bool) (x : List Char),
      ∃ c cs, attributeChars attributes ++ (endChars selfClosing ++ x) = c :: cs ∧
        isNameChar c = false := by
    intro attributes selfClosing x
    cases attributes with
    | nil => cases selfClosing <;> exact ⟨_, _, rfl, rfl⟩
    | cons a attributes => exact ⟨' ', _, rfl, rfl⟩
  rw [toList_tagText, toList_tagText] at h
  simp only [List.cons_append, List.append_assoc] at h
  obtain ⟨c, cs, hrest, hc⟩ := hstop attributes selfClosing x
  obtain ⟨d, ds, hrest', hd⟩ := hstop others selfClosing' y
  have hbody := (List.cons.inj h).2
  rw [hrest, hrest'] at hbody
  obtain ⟨htags, htail⟩ := name_append_inj htag htag' hc hd hbody
  rw [← hrest, ← hrest'] at htail
  obtain ⟨hattributes, hclosing, hend⟩ := attributeChars_append_inj hnames hnames' htail
  exact ⟨hclosing, htags, hattributes, hend⟩

/-! ## Lines -/

/-- A line in front of other characters starts with spaces and ends with a line break. -/
theorem toList_line_append (options : Options) (depth : Nat) (text : String) (x : List Char) :
    (line options depth text).toList ++ x =
      List.replicate (indentWidth options depth).toNat ' ' ++ (text.toList ++ '\n' :: x) := by
  simp [line]

/-- Whether the next thing, after the spaces, is the end of a container or of the markup. -/
def closes (cs : List Char) : Bool :=
  match cs.dropWhile (· == ' ') with
  | [] => true
  | '<' :: '/' :: _ => true
  | _ => false

/-- Whether something is closed is not changed by spaces in front. -/
theorem closes_replicate_append (n : Nat) (cs : List Char) :
    closes (List.replicate n ' ' ++ cs) = closes cs := by
  rw [closes, List.dropWhile_append_of_pos (by simp [List.mem_replicate]), closes]

/-- A closing tag closes. -/
theorem closes_closingTag (options : Options) (depth : Nat) (tag : String) (x : List Char) :
    closes ((line options depth (closingTag tag)).toList ++ x) = true := by
  rw [toList_line_append, closes_replicate_append, closingTag, String.toList_append,
    String.toList_append]
  rfl

/-- An opening tag does not close. -/
theorem closes_tagText (selfClosing : Bool) {tag : String} (htag : isName tag)
    (attributes : List (String × String)) (x : List Char) :
    closes ((tagText selfClosing tag attributes).toList ++ x) = false := by
  obtain ⟨c, cs, hchars, hc⟩ := exists_cons_of_isName htag
  rw [toList_tagText, hchars]
  have hslash : c ≠ '/' := by
    rintro rfl
    contradiction
  simp [closes, hslash]

/-- A line of text does not close. -/
theorem closes_escapeChars (cs x : List Char) :
    closes (escapeChars false cs ++ '\n' :: x) = false := by
  have hopen := lt_notMem_escapeChars false cs
  generalize escapeChars false cs = escaped at hopen ⊢
  induction escaped with
  | nil => rfl
  | cons c escaped ih =>
    obtain ⟨hne, hrest⟩ := List.ne_and_not_mem_of_not_mem_cons hopen
    by_cases hspace : c = ' '
    · subst hspace
      exact ih hrest
    · rw [closes, List.cons_append, List.dropWhile_cons_of_neg (by simpa using hspace)]
      split
      next heq => contradiction
      next heq => exact absurd (List.cons.inj heq).1.symm hne
      next => rfl

/-! ## Views -/

mutual

/-- Whether tags and attributes of a view have plain names, and texts are on one line. -/
def View.isPlain : View → Bool
  | .text content => !content.toList.contains '\n'
  | .single tag attributes => isName tag && attributes.all fun a => isName a.1
  | .container tag attributes children =>
    isName tag && attributes.all (fun a => isName a.1) && View.arePlain children

/-- Whether views are plain. -/
def View.arePlain : List View → Bool
  | [] => true
  | view :: views => view.isPlain && View.arePlain views

end

/-- Views are plain if each of them is. -/
theorem View.arePlain_iff {views : List View} :
    View.arePlain views ↔ ∀ view ∈ views, view.isPlain := by
  induction views with
  | nil => simp [arePlain]
  | cons view views ih => simp [arePlain, ih]

/-- A self-closing element is plain if its names are. -/
theorem View.isPlain_single {tag : String} {attributes : List (String × String)} :
    (View.single tag attributes).isPlain ↔
      isName tag ∧ ∀ a ∈ attributes, isName a.1 := by
  rw [isPlain, Bool.and_eq_true, List.all_eq_true]

/-- A container is plain if its names are and what is below it is plain. -/
theorem View.isPlain_container {tag : String} {attributes : List (String × String)}
    {children : List View} :
    (View.container tag attributes children).isPlain ↔
      isName tag ∧ (∀ a ∈ attributes, isName a.1) ∧ View.arePlain children := by
  rw [isPlain, Bool.and_eq_true, Bool.and_eq_true, List.all_eq_true, and_assoc]

variable {options : Options}

/-- What comes behind the opening tag of a container, up to the end of its closing tag. -/
def belowText (options : Options) (depth : Nat) (tag : String) (children : List View) :
    List Char :=
  if children.isEmpty then (closingTag tag).toList
  else
    '\n' :: ((viewsText options (depth + 1) children).toList ++
      (List.replicate (indentWidth options depth).toNat ' ' ++ (closingTag tag).toList))

/-- An element is a tag and what comes behind it. -/
theorem viewText_container (options : Options) (depth : Nat) (tag : String)
    (attributes : List (String × String)) (children : List View) (x : List Char) :
    (viewText options depth (.container tag attributes children)).toList ++ x =
      List.replicate (indentWidth options depth).toNat ' ' ++
        ((tagText false tag attributes).toList ++
          (belowText options depth tag children ++ '\n' :: x)) := by
  rw [viewText, belowText]
  cases children.isEmpty with
  | true => simp [toList_line_append]
  | false => simp [line]

/-- A view that is plain does not close what it stands in. -/
theorem closes_viewText (options : Options) (depth : Nat) {view : View} (hplain : view.isPlain)
    (x : List Char) : closes ((viewText options depth view).toList ++ x) = false := by
  cases view with
  | text content =>
    rw [viewText, toList_line_append, closes_replicate_append, escapeText, String.toList_ofList]
    exact closes_escapeChars _ _
  | single tag attributes =>
    rw [viewText, toList_line_append, closes_replicate_append]
    exact closes_tagText _ (View.isPlain_single.1 hplain).1 _ _
  | container tag attributes children =>
    rw [viewText_container, closes_replicate_append]
    exact closes_tagText _ (View.isPlain_container.1 hplain).1 _ _

/-- A line of text is no element. -/
theorem escapeText_append_ne_tagText {content : String} {selfClosing : Bool} {tag : String}
    {attributes : List (String × String)} {x y : List Char} :
    (escapeText content).toList ++ '\n' :: x ≠
      (tagText selfClosing tag attributes).toList ++ y := by
  have hopen := lt_notMem_escapeChars false content.toList
  rw [toList_tagText, escapeText, String.toList_ofList]
  cases hchars : escapeChars false content.toList with
  | nil => exact fun heq => absurd (List.cons.inj heq).1 (by decide)
  | cons c cs =>
    rw [hchars] at hopen
    exact fun heq => hopen ((List.cons.inj heq).1 ▸ List.mem_cons_self)

/-- A line of text is read back from the front of what follows it. -/
theorem escapeText_append_inj {content other : String} {x y : List Char}
    (hplain : (View.text content).isPlain) (hplain' : (View.text other).isPlain)
    (h : (escapeText content).toList ++ '\n' :: x = (escapeText other).toList ++ '\n' :: y) :
    content = other ∧ x = y := by
  have hline : ∀ {content : String}, (View.text content).isPlain →
      '\n' ∉ escapeChars false content.toList := by
    intro content hplain hmem
    have hbreak := newline_mem_of_mem_escapeChars hmem
    simp [View.isPlain, hbreak] at hplain
  rw [escapeText, escapeText, String.toList_ofList, String.toList_ofList] at h
  obtain ⟨hescaped, htail⟩ := Text.append_cons_inj (hline hplain) (hline hplain') h
  exact ⟨String.toList_inj.1 (escapeChars_inj hescaped), htail⟩

/-- What is below a container is read back if its children are, whatever comes behind. -/
theorem belowText_append_inj {depth : Nat} {tag : String} {children others : List View}
    (hchildren : ∀ {x y : List Char}, closes x → closes y →
      (viewsText options (depth + 1) children).toList ++ x =
        (viewsText options (depth + 1) others).toList ++ y → children = others ∧ x = y)
    {x y : List Char}
    (h : belowText options depth tag children ++ '\n' :: x =
      belowText options depth tag others ++ '\n' :: y) : children = others ∧ x = y := by
  have hcloses : ∀ x : List Char,
      closes (List.replicate (indentWidth options depth).toNat ' ' ++
        ((closingTag tag).toList ++ '\n' :: x)) = true := by
    intro x
    rw [← toList_line_append]
    exact closes_closingTag options depth tag x
  -- without children the closing tag comes at once, and with them a line break
  have hempty : ∀ x y : List Char, (closingTag tag).toList ++ x ≠ '\n' :: y := by
    intro x y heq
    rw [closingTag, String.toList_append, String.toList_append] at heq
    exact absurd (List.cons.inj heq).1 (by decide)
  rw [belowText, belowText] at h
  cases children with
  | nil =>
    cases others with
    | nil => exact ⟨rfl, (List.cons.inj (List.append_cancel_left h)).2⟩
    | cons other others => exact absurd h (hempty _ _)
  | cons child children =>
    cases others with
    | nil => exact absurd h.symm (hempty _ _)
    | cons other others =>
      rw [List.isEmpty_cons, List.isEmpty_cons, if_neg Bool.false_ne_true,
        if_neg Bool.false_ne_true] at h
      simp only [List.cons_append, List.append_assoc, List.cons.injEq, true_and] at h
      obtain ⟨hviews, htail⟩ := hchildren (hcloses x) (hcloses y) h
      have hend := List.append_cancel_left (List.append_cancel_left htail)
      exact ⟨hviews, (List.cons.inj hend).2⟩

/-- A view is read back if its children are, whatever comes behind. -/
theorem viewText_append_inj {depth : Nat} {view other : View} (hplain : view.isPlain)
    (hplain' : other.isPlain)
    (hchildren : ∀ {others : List View} {x y : List Char}, View.arePlain view.children →
      View.arePlain others → closes x → closes y →
      (viewsText options (depth + 1) view.children).toList ++ x =
        (viewsText options (depth + 1) others).toList ++ y → view.children = others ∧ x = y)
    {x y : List Char}
    (h : (viewText options depth view).toList ++ x = (viewText options depth other).toList ++ y) :
    view = other ∧ x = y := by
  -- both lines are indented alike; behind that a text has no tag, and a tag says at its end whether
  -- it is self-closing
  cases view with
  | text content =>
    rw [viewText, toList_line_append] at h
    cases other with
    | text content' =>
      rw [viewText, toList_line_append] at h
      obtain ⟨rfl, hrest⟩ := escapeText_append_inj hplain hplain' (List.append_cancel_left h)
      exact ⟨rfl, hrest⟩
    | single tag' attributes' =>
      rw [viewText, toList_line_append] at h
      exact absurd (List.append_cancel_left h) escapeText_append_ne_tagText
    | container tag' attributes' children' =>
      rw [viewText_container] at h
      exact absurd (List.append_cancel_left h) escapeText_append_ne_tagText
  | single tag attributes =>
    rw [viewText, toList_line_append] at h
    obtain ⟨htag, hnames⟩ := View.isPlain_single.1 hplain
    cases other with
    | text content' =>
      rw [viewText, toList_line_append] at h
      exact absurd (List.append_cancel_left h).symm escapeText_append_ne_tagText
    | single tag' attributes' =>
      rw [viewText, toList_line_append] at h
      obtain ⟨htag', hnames'⟩ := View.isPlain_single.1 hplain'
      obtain ⟨-, rfl, rfl, hrest⟩ :=
        tagText_append_inj htag htag' hnames hnames' (List.append_cancel_left h)
      exact ⟨rfl, (List.cons.inj hrest).2⟩
    | container tag' attributes' children' =>
      rw [viewText_container] at h
      obtain ⟨htag', hnames', -⟩ := View.isPlain_container.1 hplain'
      obtain ⟨hclosing, -⟩ :=
        tagText_append_inj htag htag' hnames hnames' (List.append_cancel_left h)
      contradiction
  | container tag attributes children =>
    rw [viewText_container] at h
    obtain ⟨htag, hnames, hbelow⟩ := View.isPlain_container.1 hplain
    cases other with
    | text content' =>
      rw [viewText, toList_line_append] at h
      exact absurd (List.append_cancel_left h).symm escapeText_append_ne_tagText
    | single tag' attributes' =>
      rw [viewText, toList_line_append] at h
      obtain ⟨htag', hnames'⟩ := View.isPlain_single.1 hplain'
      obtain ⟨hclosing, -⟩ :=
        tagText_append_inj htag htag' hnames hnames' (List.append_cancel_left h)
      contradiction
    | container tag' attributes' children' =>
      rw [viewText_container] at h
      obtain ⟨htag', hnames', hbelow'⟩ := View.isPlain_container.1 hplain'
      obtain ⟨-, rfl, rfl, hrest⟩ :=
        tagText_append_inj htag htag' hnames hnames' (List.append_cancel_left h)
      obtain ⟨rfl, hend⟩ := belowText_append_inj (hchildren hbelow hbelow') hrest
      exact ⟨rfl, hend⟩

/-- **Views are read back from their markup**, whatever closes them. -/
theorem viewsText_append_inj {views others : List View} (hplain : View.arePlain views)
    (hplain' : View.arePlain others) {depth : Nat} {x y : List Char} (hx : closes x)
    (hy : closes y)
    (h : (viewsText options depth views).toList ++ x =
      (viewsText options depth others).toList ++ y) : views = others ∧ x = y := by
  -- a view does not close, so both lists end together; views in front are read back with their
  -- children, and what comes behind them is the rest of the lists and what closes these
  induction views using View.induction generalizing others depth x y with
  | nil =>
    cases others with
    | nil => exact ⟨rfl, h⟩
    | cons other others =>
      rw [View.arePlain, Bool.and_eq_true] at hplain'
      rw [viewsText, viewsText, String.toList_append, List.append_assoc] at h
      have hopen := closes_viewText options depth hplain'.1
        ((viewsText options depth others).toList ++ y)
      rw [← h] at hopen
      exact Bool.noConfusion (hx.symm.trans hopen)
  | cons view views ihc ihv =>
    rw [View.arePlain, Bool.and_eq_true] at hplain
    rw [viewsText, String.toList_append, List.append_assoc] at h
    cases others with
    | nil =>
      have hopen := closes_viewText options depth hplain.1
        ((viewsText options depth views).toList ++ x)
      rw [h] at hopen
      exact Bool.noConfusion (hy.symm.trans hopen)
    | cons other others =>
      rw [View.arePlain, Bool.and_eq_true] at hplain'
      rw [viewsText, String.toList_append, List.append_assoc] at h
      obtain ⟨rfl, hrest⟩ := viewText_append_inj hplain.1 hplain'.1
        (fun hchildren hothers hx hy => ihc hchildren hothers hx hy) h
      obtain ⟨rfl, hend⟩ := ihv hplain.2 hplain'.2 hx hy hrest
      exact ⟨rfl, hend⟩

/-! ## Pages -/

/-- **The page of a forest says what its views are, and nothing else.** In the HTML dialect, in
inline mode or without style sheets in pages, and if tags and attributes have plain names and texts
are on one line, forests have the same page exactly when they have the same views; a page is also
that of the bare forest, so display names, keys in inline mode and what is below self-closing
elements make no difference. -/
theorem page_eq_iff_forestViews_eq (hdialect : options.dialect = .html)
    (hmode : options.styleMode = .inline ∨ options.styleSheet = false) {forest other : Forest}
    {text text' : String} (hpage : page options forest = .ok text)
    (hpage' : page options other = .ok text') (hplain : View.arePlain (forestViews options forest))
    (hplain' : View.arePlain (forestViews options other)) :
    (text = text' ↔ forestViews options forest = forestViews options other) ∧
      page options (bareForest options forest) = .ok text := by
  -- without a style sheet the page is the markup alone, which is that of the views
  have htext : ∀ {forest : Forest} {text : String}, page options forest = .ok text →
      text = viewsText options 0 (forestViews options forest) := by
    intro forest text hpage
    have hrules : pageRules options forest = [] := by
      rw [pageRules]
      rcases hmode with hinline | hnone
      · rw [hinline]
        exact if_neg fun h => StyleMode.noConfusion h.1
      · rw [hnone]
        exact if_neg fun h => Bool.noConfusion h.2
    rw [(eq_of_page_eq_ok hpage).2, hrules, forestText_eq_viewsText hdialect]
    exact String.empty_append
  refine ⟨?_, page_bareForest hdialect hpage⟩
  rw [htext hpage, htext hpage']
  constructor
  · intro h
    exact (viewsText_append_inj hplain hplain' rfl rfl (congrArg (·.toList ++ []) h)).1
  · intro h
    rw [h]

/-- A paragraph with a text and a line across, which has a name for the list of layers and something
below it that is never written. -/
def ruledParagraph (key : Key) (displayName : Option String) (below : Forest) : Forest :=
  [{ kind := .container, key := key, tag := "p", displayName := displayName
     children := [Node.text " a < b" (.number 2),
       { kind := .single, key := .number 3, tag := "hr", children := below
         props := some { id := some "\"x\"" } }] }]

/-- Two forests with the same page. -/
theorem page_eq_of_forestViews_eq :
    let options : Options := { indentStep := 0 }
    let forest := ruledParagraph (.number 1) none []
    let other := ruledParagraph (.name "p") (some "Intro") [Node.text "below" (.number 4)]
    let text := "<p>\n a &lt; b\n<hr id=\"&quot;x&quot;\" />\n</p>\n"
    options.dialect = .html ∧ (options.styleMode = .inline ∨ options.styleSheet = false) ∧
      page options forest = .ok text ∧ page options other = .ok text ∧
      View.arePlain (forestViews options forest) ∧ View.arePlain (forestViews options other) ∧
      forestViews options forest = forestViews options other ∧
      page options (bareForest options forest) = .ok text := by
  intro options forest other text
  have hpage : page options forest = .ok text := by rfl
  have hpage' : page options other = .ok text := by rfl
  have hplain : View.arePlain (forestViews options forest) := by decide
  have hplain' : View.arePlain (forestViews options other) := by decide
  obtain ⟨hiff, hbare⟩ :=
    page_eq_iff_forestViews_eq rfl (.inl rfl) hpage hpage' hplain hplain'
  exact ⟨rfl, .inl rfl, hpage, hpage', hplain, hplain', hiff.1 rfl, hbare⟩

end PageTree.Markup
