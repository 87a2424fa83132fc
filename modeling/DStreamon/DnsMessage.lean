import DStreamon.Dns

/-!
# What the names of a DNS message stand for

A name is its labels up to a terminator or a pointer, and behind a pointer those of the name it
points to, which begins earlier.  Nothing is kept while a name is followed.
-/

namespace DStreamon

namespace DnsMessage

open Bytes (be16)

/-- Where the offsets of pointers count from, in a packet with the smallest headers. -/
def origin : ℕ := 28

/-- Where the question is. -/
def questionAt : ℕ := 40

variable (mem : List UInt8)

/-- The labels at `p`, the offset of the pointer behind them if it is no terminator, and where the
name ends. -/
inductive Parts : ℕ → List (List UInt8) → Option ℕ → ℕ → Prop
  | terminator {p : ℕ} : mem[p]? = some 0 → Parts p [] none (p + 1)
  | pointer {p : ℕ} {c : UInt8} {head : UInt16} : mem[p]? = some c → c.toNat / 64 = 3 →
      be16 mem p = some head → Parts p [] (some (head.toNat % 2 ^ 14)) (p + 2)
  | label {p e : ℕ} {c : UInt8} {ls : List (List UInt8)} {o : Option ℕ} : mem[p]? = some c → c ≠ 0 →
      c.toNat < 64 → p + 1 + c.toNat ≤ mem.length → Parts (p + c.toNat + 1) ls o e →
      Parts p ((mem.drop (p + 1)).take c.toNat :: ls) o e

/-- All labels of the name at `p`. -/
inductive Expansion : ℕ → List (List UInt8) → Prop
  | whole {p e : ℕ} {ls : List (List UInt8)} : Parts mem p ls none e → Expansion p ls
  | compressed {p e o : ℕ} {ls rest : List (List UInt8)} : Parts mem p ls (some o) e →
      origin + o < p → Expansion (origin + o) rest → Expansion p (ls ++ rest)

/-- A dot between two labels. -/
def dotted (ls : List (List UInt8)) : List UInt8 := [46].intercalate ls

/-! ## Records -/

/-- Where a record is, and what its attributes say. -/
structure Record where
  owner : ℕ
  attributes : ℕ
  type : UInt16
  length : ℕ

def Record.data (r : Record) : ℕ := r.attributes + 10

def Record.next (r : Record) : ℕ := r.data + r.length

/-- The records from `p` on.  The data of a `CNAME` is a name and nothing else. -/
inductive Records : ℕ → List Record → Prop
  | nil (p : ℕ) : Records p []
  | cons {r : Record} {rs : List Record} {ls : List (List UInt8)} {o : Option ℕ} {length : UInt16} :
      Parts mem r.owner ls o r.attributes → be16 mem r.attributes = some r.type →
      be16 mem (r.attributes + 8) = some length → length.toNat = r.length →
      (r.type = 5 → ∃ ls o, Parts mem r.data ls o r.next) → Records r.next rs →
      Records r.owner (r :: rs)

/-- The names of a record. -/
def Record.names (r : Record) : List ℕ := r.owner :: if r.type = 5 then [r.data] else []

/-- A question and records, as many as the header says, whose names all have an expansion. -/
structure WellFormed (rs : List Record) : Prop where
  records : ∃ ls o e, Parts mem questionAt ls o e ∧ Records mem (e + 4) rs
  count : ∀ head, DnsHeader.parse mem (some 0) mem.length = .ok head →
    head.answerRecordNumber.toNat + head.authRecordNumber.toNat +
      head.additionalRecordNumber.toNat = rs.length
  expands : ∀ p ∈ questionAt :: rs.flatMap Record.names, ∃ ls, Expansion mem p ls

/-- The last `CNAME`'s data, or the question. -/
def lastAlias (rs : List Record) : ℕ :=
  ((rs.filter fun r => r.type = 5).map Record.data).getLastD questionAt

/-! ## What the parser can find -/

/-- The names of a record that the parser keeps: its owner name unless that is a bare pointer, and
the data of a `CNAME`. -/
def kept (r : Record) : List ℕ :=
  (if (be16 mem r.owner).any fun head => head.toNat / 2 ^ 14 = 3 then [] else [r.owner]) ++
    if r.type = 5 then [r.data] else []

def keptNames (rs : List Record) : List ℕ := questionAt :: rs.flatMap (kept mem)

/-- The last of `names` up to `target`. -/
structure Nearest (names : List ℕ) (target first : ℕ) : Prop where
  mem : first ∈ names
  le : first ≤ target
  max : ∀ k ∈ names, k ≤ target → k ≤ first

/-- The names that the one at `p` is read from, where those at `names` are kept. -/
inductive Relies (names : List ℕ) : ℕ → ℕ → Prop
  | refl (p : ℕ) : Relies names p p
  | head {p o e first k : ℕ} {ls : List (List UInt8)} : Parts mem p ls (some o) e →
      Nearest names (origin + o) first → Relies names first k → Relies names p k

/-- The name at `p` is found: it has no pointer, or it is a bare pointer to one of `names`, or the
last of them before what it points to goes on there as that does. -/
inductive Found (names : List ℕ) (p : ℕ) : Prop
  | whole {ls : List (List UInt8)} {e : ℕ} : Parts mem p ls none e → 0 ∉ ls.flatten →
      Found names p
  | same {o e : ℕ} : Parts mem p [] (some o) e → origin + o ∈ names → Found names p
  | suffix {ls es rest : List (List UInt8)} {o e first : ℕ} : Parts mem p ls (some o) e →
      0 ∉ ls.flatten → Nearest names (origin + o) first → first ≠ origin + o →
      Expansion mem first es → Expansion mem (origin + o) rest →
      (dotted es).drop (origin + o - first) = dotted rest → Found names p

/-- Everything the name at `p` is read from is found. -/
def AllFound (names : List ℕ) (p : ℕ) : Prop := ∀ k, Relies mem names p k → Found mem names k

end DnsMessage

end DStreamon
