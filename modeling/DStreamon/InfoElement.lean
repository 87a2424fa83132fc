import Mathlib.Algebra.Group.Nat.Defs
import Mathlib.Tactic.Common

/-!
# Information elements

What a field on the wire or in a structure is: its number, its type and its width.
-/

namespace DStreamon.Ipfix

def kIpfixVersion : ℕ := 10

def kMessageHeaderLen : ℕ := 16

def kSetHeaderLen : ℕ := 4

def kSetLenOffset : ℕ := 2

def kTemplateHeaderLen : ℕ := 4

def kMaxSetLen : ℕ := 65519

def kTemplateSetID : UInt16 := 2

def kOptionTemplateSetID : UInt16 := 3

def kMinSetID : UInt16 := 0x0100

/-- The width that stands for a variable one. -/
def kVarlen : UInt16 := 65535

def kEnterpriseBit : UInt16 := 0x8000

/-- The types there are. -/
inductive IEType
  | octetArray
  | unsigned8
  | unsigned16
  | unsigned32
  | unsigned64
  | signed8
  | signed16
  | signed32
  | signed64
  | float32
  | float64
  | boolean
  | macAddress
  | string
  | dateTimeSeconds
  | dateTimeMilliseconds
  | dateTimeMicroseconds
  | dateTimeNanoseconds
  | ipv4Address
  | ipv6Address
  | unknown
deriving DecidableEq, Repr

namespace IEType

structure Attributes where
  name : String
  number : ℕ
  minlen : ℕ
  maxlen : ℕ
  isEndian : Bool

/-- The classes of types: those of numbers are turned to network order, the others copied. -/
def octetArrayType (name : String) (number minlen maxlen : ℕ) : Attributes :=
  ⟨name, number, minlen, maxlen, false⟩

def unsignedType (name : String) (number minlen maxlen : ℕ) : Attributes :=
  ⟨name, number, minlen, maxlen, true⟩

def signedType (name : String) (number minlen maxlen : ℕ) : Attributes :=
  ⟨name, number, minlen, maxlen, true⟩

def floatType (name : String) (number minlen maxlen : ℕ) : Attributes :=
  ⟨name, number, minlen, maxlen, false⟩

def microsecondsType (name : String) (number minlen maxlen : ℕ) : Attributes :=
  ⟨name, number, minlen, maxlen, true⟩

def attributes : IEType → Attributes
  | .octetArray => octetArrayType "octetArray" 0 0 kVarlen.toNat
  | .unsigned8 => unsignedType "unsigned8" 1 1 1
  | .unsigned16 => unsignedType "unsigned16" 2 1 2
  | .unsigned32 => unsignedType "unsigned32" 3 1 4
  | .unsigned64 => unsignedType "unsigned64" 4 1 8
  | .signed8 => signedType "signed8" 5 1 1
  | .signed16 => signedType "signed16" 6 1 2
  | .signed32 => signedType "signed32" 7 1 4
  | .signed64 => signedType "signed64" 8 1 8
  | .float32 => floatType "float32" 9 4 4
  | .float64 => floatType "float64" 10 4 8
  | .boolean => unsignedType "boolean" 11 1 8
  | .macAddress => octetArrayType "macAddress" 12 6 6
  | .string => octetArrayType "string" 13 0 kVarlen.toNat
  | .dateTimeSeconds => unsignedType "dateTimeSeconds" 14 4 4
  | .dateTimeMilliseconds => unsignedType "dateTimeMilliseconds" 15 8 8
  | .dateTimeMicroseconds => microsecondsType "dateTimeMicroseconds" 16 8 8
  | .dateTimeNanoseconds => microsecondsType "dateTimeNanoseconds" 17 8 8
  | .ipv4Address => unsignedType "ipv4Address" 18 4 4
  | .ipv6Address => octetArrayType "ipv6Address" 19 16 16
  | .unknown => octetArrayType "unknown" 0 0 0

def isEndian (iet : IEType) : Bool := iet.attributes.isEndian

def permitsLength (iet : IEType) (len : ℕ) : Bool :=
  iet.attributes.minlen ≤ len && len ≤ iet.attributes.maxlen

/-- No field is longer than a length of variable width can say. -/
theorem lt_of_permitsLength {iet : IEType} {len : ℕ} (h : iet.permitsLength len = true) :
    len < 2 ^ 16 := by
  have hmax : iet.attributes.maxlen < 2 ^ 16 := by cases iet <;> decide
  rw [permitsLength, Bool.and_eq_true, decide_eq_true_eq, decide_eq_true_eq] at h
  exact Nat.lt_of_le_of_lt h.2 hmax

end IEType

structure InfoElement where
  name : String
  pen : UInt32
  number : UInt16
  ietype : IEType
  len : UInt16
deriving DecidableEq, Repr

namespace InfoElement

/-- The same element at another width; 0 asks for its own. -/
def forLen (ie : InfoElement) (len : UInt16) : InfoElement :=
  if ie.len = len ∨ len = 0 then ie else { ie with len := len }

/-- What an index map compares. -/
def key (ie : InfoElement) : UInt32 × UInt16 := (ie.pen, ie.number)

def varlen (ie : InfoElement) : Bool := ie.len == kVarlen

end InfoElement

/-- The elements known, those without an enterprise number apart. -/
structure InfoModel where
  ianaRegistry : UInt16 → Option InfoElement
  penRegistry : UInt32 → Option (UInt16 → Option InfoElement)

namespace InfoModel

def lookupIE (model : InfoModel) (pen : UInt32) (number len : UInt16) : Option InfoElement :=
  if pen ≠ 0 then
    match model.penRegistry pen with
    | none => none
    | some numbers => (numbers number).map fun ie => ie.forLen len
  else (model.ianaRegistry number).map fun ie => ie.forLen len

end InfoModel

end DStreamon.Ipfix
