import DStreamon.Lib.IStream
import DStreamon.Transcoder

/-!
# The information model

Elements are registered under their number, the enterprise's apart, and under their name.  They are
written as specifications such as `octetDeltaCount(1)<unsigned64>[8]`.
-/

namespace DStreamon.Ipfix

/-- The types that can be looked up by their name. -/
def IEType.registered : List IEType :=
  [.octetArray, .unsigned8, .unsigned16, .unsigned32, .unsigned64, .signed8, .signed16, .signed32,
    .signed64, .float32, .float64, .boolean, .macAddress, .string, .dateTimeSeconds,
    .dateTimeMilliseconds, .dateTimeMicroseconds, .dateTimeNanoseconds, .ipv4Address, .ipv6Address]

def IEType.name (iet : IEType) : List Char := iet.attributes.name.toList

/-- The null pointer where there is no such name. -/
def lookupIEType (name : List Char) : Option IEType :=
  IEType.registered.find? fun iet => iet.name = name

/-- What a specification says of an element. -/
structure IESpec where
  name : List Char
  pen : UInt32
  number : UInt16
  ietype : Option IEType
  len : UInt16
deriving DecidableEq, Repr

namespace IESpec

/-! ## Specifications written -/

def penPart (pen : UInt32) : List Char :=
  if pen ≠ 0 then Nat.toDigits 10 pen.toNat ++ ['/'] else []

def toIESpec (ie : InfoElement) : List Char :=
  ie.name.toList ++
    '(' :: (penPart ie.pen ++ (Nat.toDigits 10 ie.number.toNat ++
      ')' :: '<' :: (ie.ietype.name ++
        '>' :: '[' :: (Nat.toDigits 10 ie.len.toNat ++ [']']))))

/-! ## Specifications read -/

/-- The variables of the loop. -/
structure Parsing where
  iestream : IStream
  name : List Char
  number : ℕ
  pen : ℕ
  ietname : List Char
  sizeText : List Char
  size : ℕ
deriving DecidableEq, Repr

namespace Parsing

def new (iespec : List Char) : Parsing := ⟨.ofList iespec, [], 0, 0, [], [], 0⟩

def ignore (p : Parsing) : Parsing := { p with iestream := p.iestream.skipChar }

/-- A read into `number`, which stays where the stream has failed before. -/
def readNumber (p : Parsing) : Parsing :=
  let r := p.iestream.readUnsigned 32
  { p with iestream := r.2, number := r.1.getD p.number }

/-- Another number behind a stroke, and then the first was the enterprise's. -/
def readStroke (p : Parsing) : Parsing :=
  let r := p.iestream.peek
  let p := { p with iestream := r.2 }
  if r.1 = some '/' then readNumber (ignore { p with pen := p.number }) else p

def parseNumber (p : Parsing) : Parsing := ignore (readStroke (readNumber (ignore p)))

def parseType (p : Parsing) : Parsing :=
  let r := (ignore p).iestream.getUntil '>'
  ignore { p with iestream := r.2, ietname := p.ietname ++ r.1 }

/-- `lexical_cast` to an unsigned number of `w` bits, which takes all of the text. -/
def lexicalCast (w : ℕ) (text : List Char) : Option ℕ :=
  let r := IStream.sign text
  if r.2.all Char.isDigit then
    match IStream.unsignedOf w r.1 r.2 with
    | (n, false) => some n
    | (_, true) => none
  else
    none

def parseSize (p : Parsing) : Except Error Parsing :=
  let r := (ignore p).iestream.getUntil ']'
  let p := ignore { p with iestream := r.2, sizeText := p.sizeText ++ r.1 }
  if p.sizeText.head? = some 'v' then
    .ok { p with size := kVarlen.toNat }
  else
    match lexicalCast 16 p.sizeText with
    | some n => .ok { p with size := n }
    | none => .error (.runtimeError "Bad size in IESpec")

/-- The context is not looked at. -/
def parseContext (p : Parsing) : Parsing :=
  ignore { p with iestream := ((ignore p).iestream.getUntil '}').2 }

/-- One more character, and that of number 255 where the stream has failed before its end. -/
def parseName (p : Parsing) : Parsing :=
  let r := p.iestream.get
  let p := { p with iestream := r.2 }
  if r.2.eof then p else { p with name := p.name ++ [r.1.getD (Char.ofNat 255)] }

/-- The tests peek one after the other, and find the same. -/
def round (p : Parsing) : Except Error Parsing :=
  let r := p.iestream.peek
  if r.1 = some '(' then .ok (parseNumber p)
  else if r.1 = some '<' then .ok (parseType p)
  else if r.1 = some '[' then parseSize p
  else if r.1 = some '{' then .ok (parseContext p)
  else .ok (parseName { p with iestream := r.2 })

/-- `none` where the end of the text is not met within the fuel: a stream that has failed before
never meets it. -/
def run : ℕ → Parsing → Except Error (Option Parsing)
  | 0, p => .ok (if p.iestream.eof then some p else none)
  | fuel + 1, p =>
    if p.iestream.eof then .ok (some p)
    else
      match round p with
      | .ok p => run fuel p
      | .error e => .error e

/-- The numbers are cut to the widths of the members. -/
def spec (p : Parsing) : IESpec :=
  ⟨p.name, UInt32.ofNat p.pen, UInt16.ofNat p.number, lookupIEType p.ietname, UInt16.ofNat p.size⟩

end Parsing

def parseIESpec (fuel : ℕ) (iespec : List Char) : Except Error (Option IESpec) :=
  (Parsing.run fuel (.new iespec)).map (Option.map Parsing.spec)

end IESpec

/-! ## Registries -/

/-- The model, and the elements by their names. -/
structure Registry extends InfoModel where
  nameRegistry : List Char → Option InfoElement

namespace Registry

def new : Registry where
  ianaRegistry _ := none
  penRegistry _ := none
  nameRegistry _ := none

/-- Under the number, of its enterprise if it has one, and under the name. -/
def register (ie : InfoElement) (m : Registry) : Registry :=
  let byName := Function.update m.nameRegistry ie.name.toList (some ie)
  if ie.pen ≠ 0 then
    let numbers := (m.penRegistry ie.pen).getD fun _ => none
    { m with
      penRegistry :=
        Function.update m.penRegistry ie.pen (some (Function.update numbers ie.number (some ie)))
      nameRegistry := byName }
  else
    { m with
      ianaRegistry := Function.update m.ianaRegistry ie.number (some ie)
      nameRegistry := byName }

def add (ie : InfoElement) : Attempt Error Registry Unit :=
  if ie.name = "" ∨ ie.number = 0 ∨ ie.ietype = .unknown then
    Attempt.throw (.runtimeError "Incomplete IESpec for InfoModel addition")
  else
    Attempt.modify (register ie)

/-- `none` where the specification is read for ever.  A null pointer is not `IEType::unknown()`, so
that an element without a type is taken, and what is done with it is undefined. -/
def addSpec (fuel : ℕ) (iespec : List Char) : Attempt Error Registry (Option Unit) :=
  match IESpec.parseIESpec fuel iespec with
  | .error e => Attempt.throw e
  | .ok none => pure none
  | .ok (some spec) =>
    match spec.ietype with
    | none => Attempt.throw .undefined
    | some iet => do
      add ⟨String.ofList spec.name, spec.pen, spec.number, iet, spec.len⟩
      pure (some ())

/-- By its number, or by its name where it has none. -/
def lookupSpec (m : Registry) (spec : IESpec) : Except Error (Option InfoElement) :=
  if spec.number ≠ 0 then .ok (m.lookupIE spec.pen spec.number spec.len)
  else if spec.name = [] then
    .error (.runtimeError "Incomplete IESpec for InfoModel lookup.")
  else .ok ((m.nameRegistry spec.name).map fun ie => ie.forLen spec.len)

end Registry

end DStreamon.Ipfix
