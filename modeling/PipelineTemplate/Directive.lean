import PipelineTemplate.Expression.Embedded

/-!
# Directives

A key of a mapping that is one whole expression may be a directive: a branch of a condition, a loop
over a collection, or the insertion of a mapping.
-/

namespace PipelineTemplate

inductive Directive where
  | ifTrue (condition : String)
  | elseIf (condition : String)
  | otherwise
  | each (name : String) (collection : String)
  /-- A loop whose variable or collection cannot be made out. -/
  | malformedEach
  | insert
  deriving DecidableEq

namespace Directive

/-- What stands between the opening and the closing braces when these are the ends of the text. -/
def inside? (cs : List Char) : Option (List Char) :=
  (Text.dropPrefix? Embedded.opening cs).bind fun rest =>
    (Text.dropPrefix? Embedded.closing rest.reverse).map List.reverse

/-- The argument after a word and at least one blank, without the blanks around it. When nothing but
blanks follows, the last but one or more of them, the last is the argument. -/
def argument? (word : List Char) (cs : List Char) : Option (List Char) :=
  (Text.dropPrefix? word cs).bind fun rest =>
    let blanks := rest.takeWhile Text.isBlank
    match blanks, rest.dropWhile Text.isBlank with
    | [], _ => none
    | [_], [] => none
    | blanks, [] => blanks.getLast?.map ([·])
    | _, argument => some (Text.trimEnd argument)

/-- The variable and the collection of a loop. -/
def loop? (cs : List Char) : Option (List Char × List Char) :=
  (Text.dropPrefix? "each".toList cs).bind fun rest =>
    if rest.takeWhile Text.isBlank = [] then none
    else
      match rest.dropWhile Text.isBlank with
      | c :: cs =>
        if Text.isNameStart c then
          let name := c :: cs.takeWhile Text.isWordChar
          let rest := cs.dropWhile Text.isWordChar
          if rest.takeWhile Text.isBlank = [] then none
          else (argument? "in".toList (rest.dropWhile Text.isBlank)).map (name, ·)
        else none
      | [] => none

/-- Whether the text begins with a loop. -/
def beginsLoop (cs : List Char) : Bool :=
  match Text.dropPrefix? Embedded.opening cs with
  | none => false
  | some rest =>
    match Text.dropPrefix? "each".toList (rest.dropWhile Text.isBlank) with
    | some (c :: _) => Text.isBlank c
    | _ => false

/-- The directive that a key is. -/
def ofText? (key : String) : Option Directive :=
  let cs := Text.trim key.toList
  let body := (inside? cs).map (List.dropWhile Text.isBlank)
  let ofBody (f : List Char → Option Directive) := body.bind f
  let word (s : String) (d : Directive) := ofBody fun body =>
    if Text.trimEnd body = s.toList then some d else none
  (ofBody fun body => (argument? "if".toList body).map (.ifTrue <| String.ofList ·)).or <|
  (ofBody fun body => (argument? "elseif".toList body).map (.elseIf <| String.ofList ·)).or <|
  (word "else" .otherwise).or <|
  (ofBody fun body => (loop? body).map fun (name, collection) =>
    .each (String.ofList name) (String.ofList collection)).or <|
  (if beginsLoop cs then some .malformedEach else none).or <|
  word "insert" .insert

def ofKey? : Value → Option Directive
  | .text key => ofText? key
  | _ => none

end Directive

/-- The body of a text that is delimited as one expression; a line break may follow it. -/
def wholeBody? (text : String) : Option (List Char) :=
  let cs := text.toList
  (Directive.inside? cs).or <|
    match cs.reverse with
    | '\n' :: rest => Directive.inside? rest.reverse
    | _ => none

/-- Whether a text is exactly one expression. -/
def isWholeExpression (text : String) : Bool :=
  match wholeBody? text with
  | some body => !Text.hasInfix Embedded.opening body
  | none => false

/-- The body of a text that is one expression, or else the text itself, without blanks around it. -/
def expressionBody (text : String) : String :=
  String.ofList (Text.trim ((wholeBody? text).getD text.toList))

end PipelineTemplate
