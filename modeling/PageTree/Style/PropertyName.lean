/-! # Property names

Style properties have two notations: hyphenated, as in declarations (`font-weight`), and camel case,
as in object literals (`fontWeight`). **`PropertyName.hyphenated`** and **`PropertyName.camelCase`**
turn a name of either kind into one of the two. A custom property, which starts with two hyphens,
has one notation. Vendor names start with a hyphen in one notation and with a capital in the other,
except that the vendor `ms` is in small letters in both. -/

namespace PageTree.PropertyName

/-- Whether a name is that of a custom property. -/
def isCustom : List Char → Bool
  | '-' :: '-' :: _ => true
  | _ => false

/-- Whether a name has the vendor `ms` in front in camel case: the two letters and then a
capital. -/
def hasVendorMs : List Char → Bool
  | 'm' :: 's' :: c :: _ => c.isUpper
  | _ => false

/-- A capital becomes a hyphen and the small letter. -/
def hyphenatedChar (c : Char) : List Char := if c.isUpper then ['-', c.toLower] else [c]

/-- The hyphenated notation of the characters of a name. -/
def hyphenatedChars (cs : List Char) : List Char :=
  if isCustom cs then cs
  else (if hasVendorMs cs then ['-'] else []) ++ cs.flatMap hyphenatedChar

/-- The hyphenated notation of a name. -/
def hyphenated (name : String) : String := String.ofList (hyphenatedChars name.toList)

/-- Drops every run of hyphens and makes the letter after it a capital; `raise` says that the name
so far ends in a hyphen. -/
def joinWords (raise : Bool) : List Char → List Char
  | [] => []
  | c :: cs =>
    if c = '-' then joinWords true cs
    else (if raise then c.toUpper else c) :: joinWords false cs

/-- Drops the hyphen in front of the vendor `ms`, so that its letters stay small. -/
def dropVendorHyphen : List Char → List Char
  | '-' :: 'm' :: 's' :: '-' :: cs => 'm' :: 's' :: '-' :: cs
  | cs => cs

/-- The camel-case notation of the characters of a name. -/
def camelCaseChars (cs : List Char) : List Char :=
  if isCustom cs then cs else joinWords false (dropVendorHyphen cs)

/-- The camel-case notation of a name. -/
def camelCase (name : String) : String := String.ofList (camelCaseChars name.toList)

/-- A custom property has one notation. -/
theorem hyphenatedChars_of_isCustom {cs : List Char} (h : isCustom cs = true) :
    hyphenatedChars cs = cs := by simp [hyphenatedChars, h]

/-- A custom property has one notation. -/
theorem camelCaseChars_of_isCustom {cs : List Char} (h : isCustom cs = true) :
    camelCaseChars cs = cs := by simp [camelCaseChars, h]

end PageTree.PropertyName
