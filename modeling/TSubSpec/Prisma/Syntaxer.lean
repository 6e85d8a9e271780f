import TSubSpec.Lib.Utf8
import TSubSpec.Prisma.SyntaxHighlighter

/-!
# `TSubSpec.Prisma.Syntaxer`: the painter of `Syntaxer.mm`

`syntaxer` is the method `syntax:language:theme:`. It tokenizes the UTF-8 bytes of the code, walks
the token list and appends each leaf to an attributed string.

An `NSString` is a list of characters, `nil` is `none`, and a color is kept as the numerators of
its components. A font is whatever the theme provides.
-/

set_option autoImplicit false

namespace TSubSpec.Prisma

open TSubSpec.Lib
open Prog

/-- An `NSString`: its characters. -/
abbrev NSString := List Char

/-- A `UIColor`: red, green and blue in parts of 255, and alpha. -/
structure UIColor where
  red : UInt32
  green : UInt32
  blue : UInt32
  alpha : UInt32
  deriving DecidableEq, Repr

/-- `color(rgb, alpha)`. -/
def color (rgb alpha : UInt32) : UIColor :=
  ⟨(rgb >>> 16) &&& 0xff, (rgb >>> 8) &&& 0xff, rgb &&& 0xff, alpha⟩

/-- The colors of the light themes. -/
def light : List (NSString × UIColor) :=
  [("comment".toList, color 0x708090 1),
    ("block-comment".toList, color 0x708090 1),
    ("prolog".toList, color 0x708090 1),
    ("doctype".toList, color 0x708090 1),
    ("cdata".toList, color 0x708090 1),
    ("punctuation".toList, color 0x999999 1),
    ("property".toList, color 0x990055 1),
    ("tag".toList, color 0x990055 1),
    ("boolean".toList, color 0x990055 1),
    ("number".toList, color 0x990055 1),
    ("constant".toList, color 0x990055 1),
    ("symbol".toList, color 0x990055 1),
    ("deleted".toList, color 0x990055 1),
    ("selector".toList, color 0x669900 1),
    ("attr-name".toList, color 0x669900 1),
    ("string".toList, color 0x669900 1),
    ("char".toList, color 0x669900 1),
    ("builtin".toList, color 0x669900 1),
    ("inserted".toList, color 0x669900 1),
    ("operator".toList, color 0x9AAE6C 1),
    ("entity".toList, color 0x9AAE6C 1),
    ("url".toList, color 0x9AAE6C 1),
    ("atrule".toList, color 0x0077AA 1),
    ("attr-value".toList, color 0x0077AA 1),
    ("keyword".toList, color 0x0077AA 1),
    ("function-definition".toList, color 0x0077AA 1),
    ("class-name".toList, color 0xDD4A68 1)]

/-- The colors of the dark themes. -/
def dark : List (NSString × UIColor) :=
  [("comment".toList, color 0x999999 1),
    ("block-comment".toList, color 0x999999 1),
    ("prolog".toList, color 0x999999 1),
    ("doctype".toList, color 0x999999 1),
    ("cdata".toList, color 0x999999 1),
    ("punctuation".toList, color 0xcccccc 1),
    ("property".toList, color 0xf8c555 1),
    ("tag".toList, color 0xe2777a 1),
    ("boolean".toList, color 0xf08d49 1),
    ("number".toList, color 0xf08d49 1),
    ("constant".toList, color 0xf8c555 1),
    ("symbol".toList, color 0xf8c555 1),
    ("deleted".toList, color 0xe2777a 1),
    ("selector".toList, color 0xcc99cd 1),
    ("attr-name".toList, color 0xe2777a 1),
    ("string".toList, color 0x7ec699 1),
    ("char".toList, color 0x7ec699 1),
    ("builtin".toList, color 0xcc99cd 1),
    ("inserted".toList, color 0x669900 1),
    ("operator".toList, color 0x67cdcc 1),
    ("entity".toList, color 0x67cdcc 1),
    ("url".toList, color 0x67cdcc 1),
    ("atrule".toList, color 0xcc99cd 1),
    ("attr-value".toList, color 0x7ec699 1),
    ("keyword".toList, color 0xcc99cd 1),
    ("function-definition".toList, color 0xf08d49 1),
    ("class-name".toList, color 0xf8c555 1)]

/-- What `c_str()` and `UTF8String` hand to a reader of a C string: the bytes before the first
NUL. -/
def cString (s : Bytes) : Bytes := s.takeWhile (· ≠ 0)

/-- `stringToNSString`. `stringWithUTF8String:` answers `nil` for bytes that are not UTF-8. -/
def stringToNSString (cppString : Bytes) : Option NSString := Utf8.decode? (cString cppString)

/-- `stringViewToNSString`: the bytes as UTF-8, or `nil` where they are none. -/
def stringViewToNSString (sv : Bytes) : Option NSString := Utf8.decode? (cString sv)

/-- `std::string(string.UTF8String)`. -/
def utf8String (string : NSString) : Bytes := cString (Utf8.encode string)

/-- `SyntaxterTheme`: whether it is a dark one, the colour of its text, and its three fonts. -/
structure SyntaxterTheme (Font : Type) where
  dark : Bool
  textColor : UIColor
  textFont : Font
  italicFont : Font
  mediumFont : Font

/-- `Brush`: the font and the colour that a piece of text is painted with. -/
structure Brush (Font : Type) where
  font : Font
  color : UIColor
  deriving DecidableEq, Repr

/-- A run of characters with their attributes. -/
structure AttributeRun (Font : Type) where
  string : NSString
  brush : Brush Font
  deriving DecidableEq, Repr

/-- An `NSMutableAttributedString`: its runs. -/
abbrev AttributedString (Font : Type) := List (AttributeRun Font)

/-- The characters of an attributed string. -/
def AttributedString.characters {Font : Type} (string : AttributedString Font) : NSString :=
  string.flatMap (·.string)

section

variable {Font : Type}

/-- `applyString`: the string is appended with the attributes of the brush. A `nil` string is
skipped, so its characters are lost. -/
def applyString (string : Option NSString) (attributed : AttributedString Font)
    (brush : Brush Font) : AttributedString Font :=
  match string with
  | some string => attributed ++ [⟨string, brush⟩]
  | none => attributed

/-- `makeBrush`. A missing color is looked for under the alias, under the type, in the previous
brush and in the theme. -/
def makeBrush (aliasName type : Bytes) (theme : SyntaxterTheme Font)
    (previous : Option (Brush Font)) : Brush Font :=
  let aliasKey := stringToNSString aliasName
  let typeKey := stringToNSString type
  let colors := if theme.dark then dark else light
  let color := aliasKey.bind (colors.lookup ·) <|> typeKey.bind (colors.lookup ·)
    <|> previous.map (·.color)
  let font := if typeKey = some "bold".toList then theme.mediumFont else theme.textFont
  let font := if typeKey = some "italic".toList then theme.italicFont else font
  let font := (previous.map (·.font)).getD font
  ⟨font, color.getD theme.textColor⟩

variable (theme : SyntaxterTheme Font)

mutual

/-- The loop of `paint:string:brush:theme:` over the children of a `Syntax`, from `j` on. -/
def paintFrom : Nat → TokenListPtr → TokenListPtr → AttributedString Font → Brush Font →
    Prog (AttributedString Font)
  | 0, _, _, _, _ => raise .outOfFuel
  | fuel + 1, head, j, string, upperBrash =>
    if j = head then return string
    else do
      let innerNode ← node j
      match innerNode.payload with
      | .syn type _ aliasName _ => do
        let brush := makeBrush aliasName type theme (some upperBrash)
        let string ← paint fuel innerNode.payload string brush
        paintFrom fuel head innerNode.next string upperBrash
      | .text value =>
        let string := applyString (stringViewToNSString value) string upperBrash
        paintFrom fuel head innerNode.next string upperBrash
      -- A `dynamic_cast` to a reference throws.
      | .sentinel => raise .badPointer

/-- `paint:string:brush:theme:`: a text is applied with the brush, and the children of a syntax node
with the brush of the node. -/
def paint : Nat → Payload → AttributedString Font → Brush Font → Prog (AttributedString Font)
  | 0, _, _, _ => raise .outOfFuel
  | fuel + 1, .syn _ children _ _, string, upperBrash => do
    let head ← node children.head
    paintFrom fuel children.head head.next string upperBrash
  | _ + 1, .text value, string, upperBrash =>
    return applyString (stringViewToNSString value) string upperBrash
  | _ + 1, .sentinel, _, _ => raise .badPointer

end

/-- The brush of a node of the list that is painted. -/
def firstBrush : Payload → Brush Font
  | .syn type _ aliasName _ => makeBrush aliasName type theme none
  | _ => makeBrush [] [] theme none

/-- The loop of `syntax:language:theme:` over the list, from `it` on. -/
def paintNodes : Nat → TokenListPtr → TokenListPtr → AttributedString Font →
    Prog (AttributedString Font)
  | 0, _, _, _ => raise .outOfFuel
  | fuel + 1, head, it, string =>
    if it = head then return string
    else do
      let current ← node it
      let string ← paint theme fuel current.payload string (firstBrush theme current.payload)
      paintNodes fuel head current.next string

/-- `syntax:language:theme:`. The painter visits every node once, so the number of addresses given
out bounds its turns and its nesting. The list is destroyed at the end of its scope. -/
def syntaxer (search : RegexSearch) (tree : LanguageTree) (fuel : Nat) (code language : NSString) :
    Prog (AttributedString Font) := do
  let tokens ← tokenizeLanguage search tree fuel (utf8String code) (utf8String language)
  let head ← node tokens.head
  let string ← paintNodes theme (← get).fresh tokens.head head.next []
  tokens.destroy
  return string

end

end TSubSpec.Prisma
