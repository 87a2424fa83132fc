import Mathlib.Algebra.Ring.Nat
import Mathlib.Data.List.Basic

/-!
# Input streams over strings

What is ahead in a string stream, and its two bits: the end was met, and a read failed.  Every read
that finds one of them set fails, and what it would have set stays.
-/

structure IStream where
  ahead : List Char
  eof : Bool
  fail : Bool
deriving DecidableEq, Repr

namespace IStream

def ofList (cs : List Char) : IStream := ⟨cs, false, false⟩

def good (s : IStream) : Bool := !s.eof && !s.fail

def peek (s : IStream) : Option Char × IStream :=
  if s.good then
    match s.ahead with
    | [] => (none, { s with eof := true })
    | c :: _ => (some c, s)
  else
    (none, { s with fail := true })

def get (s : IStream) : Option Char × IStream :=
  if s.good then
    match s.ahead with
    | [] => (none, ⟨[], true, true⟩)
    | c :: cs => (some c, { s with ahead := cs })
  else
    (none, { s with fail := true })

def isSpace (c : Char) : Bool := c = ' ' || 9 ≤ c.toNat && c.toNat ≤ 13

/-- White space before a formatted read, which fails where nothing else is ahead. -/
def skipWhite (s : IStream) : IStream :=
  if s.good then
    match s.ahead.dropWhile isSpace with
    | [] => ⟨[], true, true⟩
    | c :: cs => { s with ahead := c :: cs }
  else
    { s with fail := true }

/-- `>>` into a character that nobody looks at. -/
def skipChar (s : IStream) : IStream := (skipWhite s).get.2

/-- The digits ahead and what follows them; the end is met where nothing does. -/
def digits (cs : List Char) : List Char × IStream :=
  let rest := cs.dropWhile Char.isDigit
  (cs.takeWhile Char.isDigit, ⟨rest, rest.isEmpty, false⟩)

/-- A number of `w` bits from its sign and its digits: 0 where there are none, and the largest one
where it is too large; both are failures. -/
def unsignedOf (w : ℕ) (negative : Bool) (ds : List Char) : ℕ × Bool :=
  let n := Nat.ofDigitChars 10 ds 0
  if ds = [] then (0, true)
  else if 2 ^ w ≤ n then (2 ^ w - 1, true)
  else (if negative then (2 ^ w - n) % 2 ^ w else n, false)

/-- Whether there is a minus sign, and what follows the sign. -/
def sign (cs : List Char) : Bool × List Char :=
  if cs.head? = some '-' then (true, cs.tail)
  else if cs.head? = some '+' then (false, cs.tail)
  else (false, cs)

/-- `>>` into an unsigned number of `w` bits: what it is set to, if it is. -/
def readUnsigned (w : ℕ) (s : IStream) : Option ℕ × IStream :=
  let s := skipWhite s
  if s.good then
    let r := digits (sign s.ahead).2
    let v := unsignedOf w (sign s.ahead).1 r.1
    (some v.1, { r.2 with fail := v.2 })
  else
    (none, s)

/-- `get` into a buffer, up to a delimiter that stays: nothing at all is a failure. -/
def getUntil (delim : Char) (s : IStream) : List Char × IStream :=
  if s.good then
    let cs := s.ahead.takeWhile fun c => c ≠ delim
    let rest := s.ahead.dropWhile fun c => c ≠ delim
    (cs, ⟨rest, rest.isEmpty, cs.isEmpty⟩)
  else
    ([], { s with fail := true })

variable {c d : Char} {cs ds rest : List Char}

@[simp] theorem eof_ofList : (ofList cs).eof = false := rfl

@[simp] theorem peek_cons : (ofList (c :: cs)).peek = (some c, ofList (c :: cs)) := rfl

@[simp] theorem get_cons : (ofList (c :: cs)).get = (some c, ofList cs) := rfl

theorem skipWhite_cons (hc : isSpace c = false) :
    skipWhite (ofList (c :: cs)) = ofList (c :: cs) := by
  simp [skipWhite, ofList, good, hc]

theorem skipChar_cons (hc : isSpace c = false) : skipChar (ofList (c :: cs)) = ofList cs := by
  rw [skipChar, skipWhite_cons hc, get_cons]

theorem isSpace_of_isDigit (hc : c.isDigit = true) : isSpace c = false := by
  simp only [Char.isDigit, Bool.and_eq_true, decide_eq_true_eq] at hc
  obtain ⟨hlo, hhi⟩ := hc
  have hlo : 48 ≤ c.toNat := hlo
  have hne : c ≠ ' ' := by
    rintro rfl
    exact absurd hlo (by decide)
  simp only [isSpace, hne, decide_false, Bool.false_or, Bool.and_eq_false_iff,
    decide_eq_false_iff_not]
  omega

theorem sign_of_isDigit (hc : c.isDigit = true) : sign (c :: cs) = (false, c :: cs) := by
  have hminus : c ≠ '-' := by
    rintro rfl
    exact absurd hc (by decide)
  have hplus : c ≠ '+' := by
    rintro rfl
    exact absurd hc (by decide)
  simp [sign, hminus, hplus]

theorem digits_append (hds : ∀ c ∈ ds, c.isDigit = true) (hd : d.isDigit = false) :
    digits (ds ++ d :: rest) = (ds, ofList (d :: rest)) := by
  have hd : ¬ d.isDigit = true := by simp [hd]
  rw [digits, List.takeWhile_append_of_pos hds, List.takeWhile_cons_of_neg hd,
    List.dropWhile_append_of_pos hds, List.dropWhile_cons_of_neg hd, List.append_nil]
  rfl

theorem unsignedOf_toDigits {w n : ℕ} (hn : n < 2 ^ w) :
    unsignedOf w false (Nat.toDigits 10 n) = (n, false) := by
  rw [unsignedOf, if_neg Nat.toDigits_ne_nil, Nat.ofDigitChars_ten_toDigits,
    if_neg (Nat.not_le.2 hn)]
  rfl

/-- A number written in decimal, up to something that is not a digit. -/
theorem readUnsigned_toDigits {w n : ℕ} (hn : n < 2 ^ w) (hd : d.isDigit = false) :
    readUnsigned w (ofList (Nat.toDigits 10 n ++ d :: rest)) = (some n, ofList (d :: rest)) := by
  have hdigits : ∀ c ∈ Nat.toDigits 10 n, c.isDigit = true := fun c hc =>
    Nat.isDigit_of_mem_toDigits (by decide) (by decide) hc
  obtain ⟨e, es, he⟩ := List.exists_cons_of_ne_nil (Nat.toDigits_ne_nil (n := n) (b := 10))
  have hhead : e.isDigit = true := hdigits e (by rw [he]; exact List.mem_cons_self)
  have hsign : sign (Nat.toDigits 10 n ++ d :: rest) = (false, Nat.toDigits 10 n ++ d :: rest) := by
    rw [he, List.cons_append, sign_of_isDigit hhead]
  have hskip : skipWhite (ofList (Nat.toDigits 10 n ++ d :: rest)) =
      ofList (Nat.toDigits 10 n ++ d :: rest) := by
    rw [he, List.cons_append, skipWhite_cons (isSpace_of_isDigit hhead)]
  rw [readUnsigned, hskip]
  change (some _, _) = _
  rw [show (ofList (Nat.toDigits 10 n ++ d :: rest)).ahead = Nat.toDigits 10 n ++ d :: rest
      from rfl,
    hsign, digits_append hdigits hd, unsignedOf_toDigits hn]
  rfl

theorem getUntil_append (hd : d ∉ ds) (hds : ds ≠ []) :
    getUntil d (ofList (ds ++ d :: rest)) = (ds, ofList (d :: rest)) := by
  have hpos : ∀ c ∈ ds, decide (c ≠ d) = true := fun c hc => by
    rw [decide_eq_true_eq]
    rintro rfl
    exact hd hc
  have htake : (ds ++ d :: rest).takeWhile (fun c => c ≠ d) = ds := by
    rw [List.takeWhile_append_of_pos hpos, List.takeWhile_cons_of_neg (by simp),
      List.append_nil]
  have hdrop : (ds ++ d :: rest).dropWhile (fun c => c ≠ d) = d :: rest := by
    rw [List.dropWhile_append_of_pos hpos, List.dropWhile_cons_of_neg (by simp)]
  rw [getUntil]
  simp only [ofList, good, htake, hdrop]
  simp [hds]

end IStream
