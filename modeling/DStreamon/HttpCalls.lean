import DStreamon.HttpRequest

/-!
# Calls on an `HttpRequest`

Every getter parses first.  The method and the version are made into strings when they are first
asked for.
-/

namespace DStreamon

/-- How a call ends that does not return; a string of a negative length throws. -/
inductive HttpError where
  | abort (e : Abort)
  | lengthError
deriving DecidableEq

/-- Names are C strings. -/
inductive HttpCall where
  | parse
  | getMethod
  | getUri
  | getHeader (name : List UInt8) (plain : 0 ∉ name)
  | getMethodString
  | getVersion

inductive HttpAnswer where
  | parsed (ok : Bool)
  | method (method : HttpMethod)
  | text (s : List UInt8)
deriving DecidableEq

/-- A request with the strings that are kept. -/
structure HttpSession where
  request : HttpRequest
  sMethod : List UInt8
  version : List UInt8

namespace HttpSession

abbrev Answer := Except HttpError HttpAnswer

variable (mem : List UInt8) (addr : ℕ)

/-- A request for a buffer that begins at `o`. -/
def new (o len : ℕ) : HttpSession := ⟨.new (some o) len, [], []⟩

/-- `std::string(p, n)` -/
def copy (p : Option ℕ) (n : ℤ) : Except HttpError (List UInt8) :=
  if n < 0 then .error .lengthError
  else
    match p with
    | none => .error (.abort .overrun)
    | some p =>
      if p + n.toNat ≤ mem.length then .ok ((mem.drop p).take n.toNat)
      else .error (.abort .overrun)

/-- What a getter returns of a string: one that is empty is made once the request is parsed. -/
def kept (ok : Bool) (s : List UInt8) (p : Option ℕ) (n : ℤ) : Except HttpError (List UInt8) :=
  if ok ∧ s = [] then copy mem p n else .ok s

/-- A call that changes the request only. -/
def lift {α : Type} (s : HttpSession) (r : HttpRequest.Result α) (f : α → HttpAnswer) :
    Answer × HttpSession :=
  match r with
  | (.error e, h) => (.error (.abort e), { s with request := h })
  | (.ok a, h) => (.ok (f a), { s with request := h })

def getMethodString (s : HttpSession) : Answer × HttpSession :=
  match s.request.parse mem addr with
  | (.error e, h) => (.error (.abort e), { s with request := h })
  | (.ok ok, h) =>
    match kept mem ok s.sMethod h.buffer h.methodLen with
    | .error e => (.error e, { s with request := h })
    | .ok text => (.ok (.text text), { s with request := h, sMethod := text })

def getVersion (s : HttpSession) : Answer × HttpSession :=
  match s.request.parse mem addr with
  | (.error e, h) => (.error (.abort e), { s with request := h })
  | (.ok ok, h) =>
    match kept mem ok s.version h.pVersion h.versionLen with
    | .error e => (.error e, { s with request := h })
    | .ok text => (.ok (.text text), { s with request := h, version := text })

def call (s : HttpSession) : HttpCall → Answer × HttpSession
  | .parse => s.lift (s.request.parse mem addr) .parsed
  | .getMethod => s.lift (s.request.getMethod mem addr) .method
  | .getUri => s.lift (s.request.getUri mem addr) .text
  | .getHeader name _ => s.lift (s.request.getHeader mem addr name) .text
  | .getMethodString => s.getMethodString mem addr
  | .getVersion => s.getVersion mem addr

def after (s : HttpSession) (calls : List HttpCall) : HttpSession :=
  calls.foldl (fun s c => (s.call mem addr c).2) s

def answer (s : HttpSession) (c : HttpCall) : Answer := (s.call mem addr c).1

/-- The memory is the buffer.  No call reads outside of it; what the calls answer once the request
parses they answer from then on; and a request that is rejected stays so. -/
structure Stable : Prop where
  bounded : ∀ calls c,
    ((new 0 mem.length).after mem addr calls).answer mem addr c ≠ .error (.abort .overrun)
  constant : ∀ calls more c,
    ((new 0 mem.length).after mem addr calls).answer mem addr .parse = .ok (.parsed true) →
    ((new 0 mem.length).after mem addr (calls ++ more)).answer mem addr c =
      ((new 0 mem.length).after mem addr calls).answer mem addr c
  rejected : (new 0 mem.length).answer mem addr .parse ≠ .ok (.parsed true) → ∀ calls,
    ((new 0 mem.length).after mem addr calls).answer mem addr .parse ≠ .ok (.parsed true)

/-- A buffer that is rejected for its length or its method, or for a blank where the URI of a `HEAD`
or `POST` begins; or that has a whole request line, and a zero among the headers. -/
inductive Sound : Prop
  | short (h : toInt32 mem.length < 4)
  | method (h : ∀ word, Bytes.le32 mem 0 = some word → HttpMethod.ofWord word = none)
  | blank {word : UInt32} {m : HttpMethod} (hword : Bytes.le32 mem 0 = some word)
    (hm : HttpMethod.ofWord word = some m) (hget : m ≠ .get) (h : mem[5]? = some 32)
  | line {method uri version tail : List UInt8}
    (h : HttpRequest.RequestLine mem (toInt32 mem.length) method uri version tail)
    (htail : tail ≠ []) (hzero : 0 ∈ HttpRequest.headersOf tail)

end HttpSession

end DStreamon
