import DStreamon.Lib.Backtrack
import Mathlib.Data.Int.Notation
import Mathlib.Data.List.Infix

/-!
# `Event.parse_selector`

A selector is cut into statements by a regular expression, and each statement becomes a comparison
between a register and a value.
-/

namespace DStreamon.Selector

open Backtrack Pattern

/-! ## The regular expression -/

def isSpace (c : Char) : Bool := c ∈ [' ', '\t', '\n', '\r', '\x0b', '\x0c']

/-- A statement as the groups of `_selector_regex`, empty where a group takes no part. -/
structure Found where
  field : String
  op : String
  value : String
  more : String
deriving DecidableEq

def blanks : Pattern Char (List Char) := many (· = ' ')

/-- `(\S+)` -/
def wordGroup : Pattern Char (List Char) := many1 fun c => ¬ isSpace c

/-- `([<>!=][=]?)?` -/
def opGroup : Pattern Char (List Char) :=
  ((one fun c => c ∈ ['<', '>', '!', '=']).append (one (· = '=')).optional).optional

/-- `(or|and)?` -/
def moreGroup : Pattern Char (List Char) := ((word ['o', 'r']).alt (word ['a', 'n', 'd'])).optional

/-- `(\S+)[ ]*(or|and)?`, after a field and an operator. -/
def valueGroups (field op : List Char) : Pattern Char Found :=
  wordGroup.andThen fun value => blanks.andThen fun _ => moreGroup.andThen fun more =>
    give ⟨.ofList field, .ofList op, .ofList value, .ofList more⟩

/-- `_selector_regex` -/
def selectorRegex : Pattern Char Found :=
  wordGroup.andThen fun field => blanks.andThen fun _ => opGroup.andThen fun op =>
    blanks.andThen fun _ => valueGroups field op

/-! ## The expression -/

/-- What `parse_selector` reads beside the selector: `shared.tokens`, `shared.tables`, and the
operators of `operators.hpp` between bars. -/
structure Names where
  tokens : String → Option ℤ
  tables : List String
  wholeOps : String

/-- `_operators` -/
def operators : List String := ["<", "<=", "==", "!=", ">=", ">"]

/-- `_symbols`, empty for a field it has not. -/
def symbols (field : String) : List (String × String) :=
  if field = "proto" then [("tcp", "6"), ("udp", "17")]
  else if field = "flags" then
    [("tcp-syn", "0x02"), ("tcp-ack", "0x10"), ("dns-noerror", "0x00"), ("dns-formaterr", "0x01"),
      ("dns-failed", "0x02"), ("dns-nxdomain", "0x03"), ("dns-nimplemented", "0x04")]
  else if field = "http_method" then
    [("http-get", "0x20544547U"), ("http-head", "0x44414548U"), ("http-post", "0x54534F50U")]
  else []

/-- The operator; `none` where it is not valid. -/
def operator (names : Names) (op : String) : Option String :=
  if op = "" then some "operator=="
  else if op ∈ operators then some ("operator" ++ op)
  else if op.toList <:+: names.wholeOps.toList then some op
  else none

/-- The value; `none` where the replacement table has not all of its symbols. -/
def resolve (names : Names) (field value : String) : Option String :=
  if value ∈ names.tables then some ("tables." ++ value)
  else if symbols field = [] then some value
  else ((value.toList.splitOn '|').mapM fun symbol =>
    (symbols field).lookup (String.ofList symbol)).map ("|".intercalate ·)

/-- `op_s` -/
def comparison (op : String) (id : ℤ) (value more : String) : String :=
  op ++ ("(Tags->Map[" ++ toString id ++ "], " ++ value ++ ") " ++ more ++ " ")

/-- The loop over the statements, `valueS` being `value_s` where it has been set; the `KeyError` of
a symbol is caught and printed. -/
def compile (names : Names) : Option String → List Found → Except String (List String)
  | _, [] => .ok []
  | valueS, s :: statements =>
    match names.tokens s.field with
    | none => .error "KeyError"
    | some id =>
      match operator names s.op with
      | none => .error "KeyError"
      | some op =>
        match (resolve names s.field s.value).or valueS with
        | none => .error "UnboundLocalError"
        | some value => do
          let output ← compile names (some value) statements
          .ok (comparison op id value s.more :: output)

/-- The condition of the function. -/
def condition (output : List String) : String :=
  if output = [] then "true" else String.join output

def matcher (condition : String) : String :=
  "[](const pptags* Tags) \x7b return " ++ condition ++ "; \x7d"

def parseSelector (names : Names) (selector : String) : Except String String := do
  let output ← compile names none (selectorRegex.findAll selector.toList)
  .ok (matcher (condition output))

end DStreamon.Selector
