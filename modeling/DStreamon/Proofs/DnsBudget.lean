import DStreamon.Proofs.DnsMessage

/-!
# What the budget of the DNS parser says

A name takes from the budget as many bytes as it is long, and so does a record, unless it is a
`CNAME`: there the budget goes down by the length of the name and the cursor up by the length in the
attributes.
-/

namespace DStreamon

open Bytes (be16 div_of_be16)
open Loop (times AlongTimes)

namespace DnsResponse

variable {mem : List UInt8} {cachedNames : DescMap ℕ (List UInt8)} {q : QueryName}
  {lhsFirst : Bool} {r r' r₁ : DnsResponse} {head : DnsHeader} {p e e' a ip ipLen : ℕ}
  {availableBytes b : ℤ}

/-- The name at `p` ends before `e`, with its terminator or a pointer. -/
inductive NameExtent (mem : List UInt8) : ℕ → ℕ → Prop
  | terminator {p : ℕ} : mem[p]? = some 0 → NameExtent mem p (p + 1)
  | pointer {p : ℕ} {c : UInt8} : mem[p]? = some c → c.toNat / 64 = 3 → NameExtent mem p (p + 2)
  | label {p e : ℕ} {c : UInt8} : mem[p]? = some c → c ≠ 0 → c.toNat / 64 ≠ 3 →
      NameExtent mem (p + c.toNat % 64 + 1) e → NameExtent mem p e

/-- The labels at `p` lead to a pointer at `a`. -/
inductive PointerAfter (mem : List UInt8) : ℕ → ℕ → Prop
  | pointer {p : ℕ} {c : UInt8} : mem[p]? = some c → c.toNat / 64 = 3 → PointerAfter mem p p
  | label {p a : ℕ} {c : UInt8} : mem[p]? = some c → c ≠ 0 → c.toNat / 64 ≠ 3 →
      PointerAfter mem (p + c.toNat % 64 + 1) a → PointerAfter mem p a

/-- The budget and the cursor together. -/
def balance (r : DnsResponse) : ℤ := r.availableBytes + ((r.data : ℤ) - r.start)

/-- Behind the question and behind each record, budget and cursor come to what they did before the
question, and the budget is what is left up to `e`. -/
def Tracks (mem : List UInt8) (lhsFirst : Bool) (head : DnsHeader) (e : ℕ) : Prop :=
  ∀ data r, head.data = some data → question mem lhsFirst (init data head) = .ok r →
    AlongTimes (parseRecord mem lhsFirst)
      (fun s => balance s = balance (init data head) ∧ s.availableBytes + s.data = e)
      (recordNumber head + 1) r

/-- Among `n` records from `p` on, the data of each `CNAME` is a name and nothing else. -/
def TargetsFit (mem : List UInt8) : ℕ → ℕ → Prop
  | 0, _ => True
  | n + 1, p => ∀ a type length, NameExtent mem p a → be16 mem a = some type →
      be16 mem (a + 8) = some length →
        (type = 5 → NameExtent mem (a + 10) (a + 10 + length.toNat)) ∧
          TargetsFit mem n (a + 10 + length.toNat)

/-- The question at `p` has no pointer that is cut off at `e`, and the names in the data of the
records fit. -/
structure Fits (mem : List UInt8) (head : DnsHeader) (p e : ℕ) : Prop where
  pointer : ∀ a, PointerAfter mem p a → a + 2 ≤ e
  targets : ∀ b, NameExtent mem p b → TargetsFit mem (recordNumber head) (b + 4)

/-! ## Names -/

theorem nameExtent_iff {c : UInt8} (hc : mem[p]? = some c) : NameExtent mem p e ↔
    if c = 0 then e = p + 1 else if c.toNat / 64 = 3 then e = p + 2
      else NameExtent mem (p + c.toNat % 64 + 1) e := by
  constructor
  · rintro (hc' | ⟨hc', hptr⟩ | ⟨hc', hzero, hno, hrest⟩) <;>
      obtain rfl := Option.some.inj (hc.symm.trans hc')
    · rw [if_pos rfl]
    · rw [if_neg (by rintro rfl; cases hptr), if_pos hptr]
    · rwa [if_neg hzero, if_neg hno]
  · intro h
    split_ifs at h with hzero hptr
    · exact h ▸ .terminator (hzero ▸ hc)
    · exact h ▸ .pointer hc hptr
    · exact .label hc hzero hptr h

theorem NameExtent.unique (h : NameExtent mem p e) (h' : NameExtent mem p e') : e = e' := by
  induction h with
  | terminator hc =>
    rw [nameExtent_iff hc, if_pos rfl] at h'
    exact h'.symm
  | pointer hc hptr =>
    rw [nameExtent_iff hc, if_neg (by rintro rfl; cases hptr), if_pos hptr] at h'
    exact h'.symm
  | label hc hzero hno _ ih =>
    rw [nameExtent_iff hc, if_neg hzero, if_neg hno] at h'
    exact ih h'

theorem pointerAfter_iff {c : UInt8} (hc : mem[p]? = some c) : PointerAfter mem p a ↔
    c ≠ 0 ∧ if c.toNat / 64 = 3 then a = p else PointerAfter mem (p + c.toNat % 64 + 1) a := by
  constructor
  · rintro (⟨hc', hptr⟩ | ⟨hc', hzero, hno, hrest⟩) <;>
      obtain rfl := Option.some.inj (hc.symm.trans hc')
    · refine ⟨?_, by rw [if_pos hptr]⟩
      rintro rfl
      cases hptr
    · exact ⟨hzero, by rwa [if_neg hno]⟩
  · rintro ⟨hzero, h⟩
    split_ifs at h with hptr
    · rw [h]
      exact .pointer hc hptr
    · exact .label hc hzero hptr h

/-- Behind a name that ends at `e`: the cursor is there, or in a pointer that the budget cut off. -/
inductive Consumed (mem : List UInt8) (p : ℕ) (availableBytes : ℤ) (e : ℕ) (q : QueryName) : Prop
  | whole : q.newData = e → (∀ a, PointerAfter mem p a → a + 2 ≤ availableBytes + p) →
      Consumed mem p availableBytes e q
  | cutOff {a : ℕ} : PointerAfter mem p a → availableBytes + p < a + 2 → e = a + 2 →
      q.newData + 1 = e → Consumed mem p availableBytes e q

/-- The budget goes down by the length of the name. -/
theorem getQueryName_extent (h : getQueryName mem cachedNames p availableBytes = .ok q) :
    ∃ e, NameExtent mem p e ∧ q.availableBytes + e = availableBytes + p ∧
      Consumed mem p availableBytes e q := by
  refine getQueryName_rule (I := fun s =>
      s.availableBytes + s.p = availableBytes + p ∧
        (∀ e, NameExtent mem s.p e → NameExtent mem p e) ∧
        ∀ a, PointerAfter mem p a ↔ PointerAfter mem s.p a)
    (R := fun x => ∀ q, x = .ok q → ∃ e, NameExtent mem p e ∧
      q.availableBytes + e = availableBytes + p ∧ Consumed mem p availableBytes e q)
    (fun s o hs ho => ?_) ⟨rfl, fun _ => id, fun _ => Iff.rfl⟩ q h
  obtain ⟨hsum, hext, hafter⟩ := hs
  cases ho with
  | overrun _ => exact fun q h => by cases h
  | throw what => exact fun q h => by cases h
  | terminator hc =>
    intro q h
    cases h
    refine ⟨s.p + 1, hext _ (.terminator hc), ?_, .whole rfl fun a ha => ?_⟩
    · unfold endOfName
      push_cast
      omega
    · exact absurd rfl ((pointerAfter_iff hc).1 ((hafter a).1 ha)).1
  | cutOff hc hptr hcut =>
    intro q h
    cases h
    refine ⟨s.p + 2, hext _ (.pointer hc hptr), ?_,
      .cutOff ((hafter s.p).2 (.pointer hc hptr)) (by omega) rfl rfl⟩
    unfold endOfName
    push_cast
    omega
  | @pointer _ _ q₁ hc hptr _ htwo hexp =>
    intro q' h
    cases h
    have hq : q₁.newData = s.p + 2 ∧ q₁.availableBytes = s.availableBytes - 1 - 1 := by
      cases hexp with
      | whole _ => exact ⟨rfl, rfl⟩
      | suffix _ _ _ _ => exact ⟨rfl, rfl⟩
    refine ⟨s.p + 2, hext _ (.pointer hc hptr), ?_, .whole hq.1 fun a ha => ?_⟩
    · rw [hq.2]
      push_cast
      omega
    · obtain ⟨-, rfl⟩ : _ ∧ a = s.p := by
        rw [hafter a, pointerAfter_iff hc, if_pos hptr] at ha
        exact ha
      omega
  | label hc hzero hno hlab =>
    have hp := hlab.p
    have hav := hlab.availableBytes
    simp only at hp hav
    refine ⟨?_, fun e he => hext e (.label hc hzero hno ?_), fun a => ?_⟩
    · rw [hp, hav]
      push_cast
      omega
    · rwa [hp] at he
    · rw [hafter a, pointerAfter_iff hc, if_neg hno, hp]
      exact and_iff_right hzero

/-! ## The question and the records -/

theorem question_balance (h : question mem lhsFirst r = .ok r') :
    ∃ e, NameExtent mem r.data e ∧
      (balance r' = balance r ↔
        ∀ a, PointerAfter mem r.data a → a + 2 ≤ r.availableBytes + r.data) ∧
      (balance r' = balance r → r'.data = e + 4) := by
  obtain ⟨q, hq, rfl⟩ := question_ok h
  obtain ⟨e, hext, hsum, hcons⟩ := getQueryName_extent hq
  refine ⟨e, hext, ?_⟩
  unfold balance
  cases hcons with
  | whole hnew hptr =>
    refine ⟨iff_of_true ?_ hptr, fun _ => congrArg (· + 4) hnew⟩
    simp only [hnew]
    push_cast
    omega
  | cutOff hafter hcut he hnew =>
    have hne : ¬ q.availableBytes - 4 + ((q.newData + 4 : ℕ) - (r.start : ℤ)) =
        r.availableBytes + ((r.data : ℤ) - r.start) := by
      push_cast
      omega
    exact ⟨iff_of_false hne fun h => absurd (h _ hafter) (by omega), fun h => absurd h hne⟩

theorem owner_balance (h : owner mem lhsFirst r = .ok r₁) (hleft : 0 ≤ r₁.availableBytes) :
    NameExtent mem r.data r₁.data ∧ balance r₁ = balance r := by
  unfold balance
  cases owner_ok h with
  | pointer hptr =>
    obtain ⟨word, hword, htop⟩ := hptr
    obtain ⟨c, hc, hhigh⟩ := div_of_be16 hword
    refine ⟨.pointer hc (by omega), ?_⟩
    simp only
    push_cast
    omega
  | name _ hq =>
    obtain ⟨e, hext, hsum, hcons⟩ := getQueryName_extent hq
    cases hcons with
    | whole hnew _ =>
      simp only [hnew]
      exact ⟨hext, by omega⟩
    | cutOff _ hcut he hnew =>
      simp only at hleft
      omega

/-- A record leaves the balance as it is, unless it is a `CNAME` whose name does not fit. -/
theorem parseRecord_balance (h : parseRecord mem lhsFirst r = .ok r') :
    ∃ a type length, NameExtent mem r.data a ∧ be16 mem a = some type ∧
      be16 mem (a + 8) = some length ∧ r'.data = a + 10 + length.toNat ∧
      (balance r' = balance r ↔
        (type = 5 → NameExtent mem (a + 10) (a + 10 + length.toNat))) := by
  obtain ⟨r₁, type, length, hstep⟩ := parseRecord_ok h
  obtain ⟨len, hlen, rfl⟩ := hstep.lengthAt
  have hleft := hstep.left
  obtain ⟨hext, hbal⟩ := owner_balance hstep.ownerOk (by omega)
  refine ⟨r₁.data, type, len, hext, hstep.typeAt, hlen, ?_⟩
  rw [← hbal]
  unfold balance
  cases hstep.rdataStep with
  | address h4 _ =>
    refine ⟨rfl, iff_of_true ?_ fun h => by cases h⟩
    simp only
    omega
  | @cname q hne hq =>
    refine ⟨rfl, ?_⟩
    obtain ⟨e, htarget, hsum, hcons⟩ := getQueryName_extent hq
    have hfit : q.availableBytes + ((r₁.data + 10 + len.toNat : ℕ) - (r₁.start : ℤ)) =
        r₁.availableBytes + ((r₁.data : ℤ) - r₁.start) ↔ e = r₁.data + 10 + len.toNat := by
      simp only at hsum
      push_cast at hsum ⊢
      omega
    simp only [hfit, forall_const]
    constructor
    · rintro rfl
      exact htarget
    · exact htarget.unique
  | other _ hno =>
    refine ⟨rfl, iff_of_true ?_ fun h => absurd h hno⟩
    simp only
    push_cast
    omega

theorem parseRecord_start (h : parseRecord mem lhsFirst r = .ok r') : r'.start = r.start := by
  obtain ⟨r₁, type, length, hstep⟩ := parseRecord_ok h
  have hstart : r₁.start = r.start := by
    cases owner_ok hstep.ownerOk with
    | pointer _ => rfl
    | name _ _ => rfl
  rw [← hstart]
  cases hstep.rdataStep with
  | address _ _ => rfl
  | cname _ _ => rfl
  | other _ _ => rfl

/-- Over the records the balance stays what it was if the names in their data fit, and only then. -/
theorem balance_along : ∀ {n : ℕ} {s : DnsResponse},
    times (parseRecord mem lhsFirst) n s = .ok r → b + s.start = e →
      (AlongTimes (parseRecord mem lhsFirst)
          (fun s => balance s = b ∧ s.availableBytes + s.data = e) (n + 1) s ↔
        balance s = b ∧ TargetsFit mem n s.data)
  | 0, s, _, hb => by
    refine ⟨fun h => ⟨h.1.1, trivial⟩, fun h => ⟨⟨h.1, ?_⟩, fun _ _ => trivial⟩⟩
    have hs := h.1
    unfold balance at hs
    omega
  | n + 1, s, hrun, hb => by
    rw [times] at hrun
    cases hs : parseRecord mem lhsFirst s with
    | error e =>
      rw [hs] at hrun
      cases hrun
    | ok t =>
      rw [hs] at hrun
      obtain ⟨a, type, length, hext, htype, hlength, hdata, hbal⟩ := parseRecord_balance hs
      have hrest := balance_along hrun (parseRecord_start hs ▸ hb)
      rw [hdata] at hrest
      constructor
      · intro h
        obtain ⟨ht, hfit⟩ := hrest.1 (h.2 t hs)
        refine ⟨h.1.1, fun a' type' length' hext' htype' hlength' => ?_⟩
        obtain rfl := hext.unique hext'
        obtain rfl := Option.some.inj (htype.symm.trans htype')
        obtain rfl := Option.some.inj (hlength.symm.trans hlength')
        exact ⟨hbal.1 (ht.trans h.1.1.symm), hfit⟩
      · rintro ⟨hsb, hfit⟩
        obtain ⟨htarget, hfit⟩ := hfit a type length hext htype hlength
        refine ⟨⟨hsb, ?_⟩, fun t' ht' => ?_⟩
        · unfold balance at hsb
          omega
        · obtain rfl := Except.ok.inj (hs.symm.trans ht')
          exact hrest.2 ⟨(hbal.2 htarget).trans hsb, hfit⟩

/-! ## Messages -/

theorem header_new_ok {payload : ℤ} (h : DnsHeader.new mem ip payload = .ok head) :
    head.data = some (ip + 40) ∧ head.dnsPayloadLength = payload := by
  obtain ⟨id, -, h⟩ := bind_ok h
  obtain ⟨flags, -, h⟩ := bind_ok h
  obtain ⟨qd, -, h⟩ := bind_ok h
  obtain ⟨an, -, h⟩ := bind_ok h
  obtain ⟨ns, -, h⟩ := bind_ok h
  obtain ⟨ar, -, h⟩ := bind_ok h
  obtain rfl := Except.ok.inj h
  exact ⟨rfl, rfl⟩

/-- A header that is there is in front of the question, and its payload is the packet's. -/
theorem header_data (h : DnsHeader.parse mem (some ip) ipLen = .ok head) :
    head.data = none ∨ head.data = some (ip + 40) ∧ head.dnsPayloadLength = ipLen - 40 := by
  have hbad : DnsHeader.bad.data = none := rfl
  unfold DnsHeader.parse at h
  split_ifs at h
  · exact .inl (Except.ok.inj h ▸ hbad)
  · obtain ⟨verHlen, -, h⟩ := bind_ok h
    split_ifs at h
    · obtain ⟨protocol, -, h⟩ := bind_ok h
      split_ifs at h
      · obtain ⟨sourcePort, -, h⟩ := bind_ok h
        obtain ⟨destPort, -, h⟩ := bind_ok h
        split_ifs at h
        · obtain ⟨length, -, h⟩ := bind_ok h
          split_ifs at h
          · exact .inr (header_new_ok h)
          · exact .inl (Except.ok.inj h ▸ hbad)
        · exact .inl (Except.ok.inj h ▸ hbad)
      · exact .inl (Except.ok.inj h ▸ hbad)
    · exact .inl (Except.ok.inj h ▸ hbad)

theorem parse_ok (h : parse mem lhsFirst head = .ok (some r)) :
    ∃ data r₁, head.data = some data ∧ question mem lhsFirst (init data head) = .ok r₁ ∧
      times (parseRecord mem lhsFirst) (recordNumber head) r₁ = .ok r := by
  unfold parse at h
  cases hdata : head.data with
  | none =>
    rw [hdata] at h
    cases h
  | some data =>
    rw [hdata] at h
    simp only at h
    split_ifs at h with hbad
    · cases h
    · obtain ⟨r', hnew, h⟩ := bind_ok h
      obtain rfl := Option.some.inj (Except.ok.inj h)
      rw [new_eq data (Bool.not_eq_true _ ▸ hbad)] at hnew
      obtain ⟨r₁, hq, hrun⟩ := bind_ok hnew
      exact ⟨data, r₁, rfl, hq, hrun⟩

/-- The budget tracks the cursor of a packet of `ipLen` bytes at `ip` if and only if the names fit:
the question's pointer in the packet, and each `CNAME`'s name in its data. -/
theorem tracks_iff (hhead : DnsHeader.parse mem (some ip) ipLen = .ok head)
    (h : parse mem lhsFirst head = .ok (some r)) :
    Tracks mem lhsFirst head (ip + ipLen) ↔ Fits mem head (ip + 40) (ip + ipLen) := by
  obtain ⟨data, r₁, hdata, hq, hrun⟩ := parse_ok h
  obtain ⟨rfl, hpayload⟩ : data = ip + 40 ∧ head.dnsPayloadLength = ipLen - 40 := by
    obtain hnone | ⟨hsome, hpayload⟩ := header_data hhead
    · rw [hdata] at hnone
      cases hnone
    · exact ⟨Option.some.inj (hdata.symm.trans hsome), hpayload⟩
  obtain ⟨e, hext, hbal, hnext⟩ := question_balance hq
  have hinit : (init (ip + 40) head).availableBytes + (ip + 40 : ℕ) = (ip + ipLen : ℕ) := by
    unfold init
    rw [hpayload]
    push_cast
    omega
  have hstart : r₁.start = (init (ip + 40) head).start := by
    obtain ⟨q, -, rfl⟩ := question_ok hq
    rfl
  have halong := balance_along (b := balance (init (ip + 40) head)) (e := ip + ipLen) hrun (by
    rw [hstart, ← hinit]
    unfold balance
    simp only [init]
    omega)
  constructor
  · intro htracks
    obtain ⟨hsame, hfit⟩ := halong.1 (htracks _ _ hdata hq)
    refine ⟨fun a ha => ?_, fun b hb => ?_⟩
    · have := hbal.1 hsame a ha
      simp only [init] at this hinit
      omega
    · obtain rfl := hext.unique hb
      rw [← hnext hsame]
      exact hfit
  · intro hfits data' r' hdata' hq'
    obtain rfl := Option.some.inj (hdata.symm.trans hdata')
    obtain rfl := Except.ok.inj (hq.symm.trans hq')
    have hsame : balance r₁ = balance (init (ip + 40) head) := by
      refine hbal.2 fun a ha => ?_
      have := hfits.pointer a ha
      simp only [init] at hinit ⊢
      omega
    refine halong.2 ⟨hsame, ?_⟩
    rw [hnext hsame]
    exact hfits.targets e hext

theorem fits_aliasAnswer (h : recordNumber head = 1) : Fits (aliasAnswer 14) head 40 65 where
  pointer := by
    intro a ha
    have hb := ((pointerAfter_iff (c := 1) rfl).1 ha).2
    have hend := ((pointerAfter_iff (c := 1) rfl).1 hb).2
    exact absurd rfl ((pointerAfter_iff (c := 0) rfl).1 hend).1
  targets := by
    have hquestion : NameExtent (aliasAnswer 14) 40 45 :=
      .label (c := 1) rfl (by decide) (by decide)
        (.label (c := 1) rfl (by decide) (by decide) (.terminator rfl))
    have howner : NameExtent (aliasAnswer 14) 49 51 := .pointer (c := 0xc0) rfl (by decide)
    have htarget : NameExtent (aliasAnswer 14) 61 65 :=
      .label (c := 1) rfl (by decide) (by decide) (.pointer (c := 0xc0) rfl (by decide))
    intro b hb
    obtain rfl := hquestion.unique hb
    rw [h]
    intro a type length ha _ hlength
    obtain rfl := howner.unique ha
    obtain rfl : (4 : UInt16) = length := Option.some.inj hlength
    exact ⟨fun _ => htarget, trivial⟩

/-- The answer whose target is a label and a pointer: the budget is what is left of the packet. -/
theorem tracks_aliasAnswer : ∃ head, DnsHeader.parse (aliasAnswer 14) (some 0) 65 = .ok head ∧
    Tracks (aliasAnswer 14) false head 65 := by
  obtain ⟨r, hr, -, -⟩ := message_aliasAnswer 14 [97, 46, 98] [99, 46, 98] (by decide +kernel)
  obtain ⟨head, hhead, hparse⟩ := bind_ok hr
  have hone : (DnsHeader.parse (aliasAnswer 14) (some 0) 65).map recordNumber = .ok 1 := rfl
  rw [length_aliasAnswer] at hhead
  rw [hhead] at hone
  have hiff : Tracks (aliasAnswer 14) false head (0 + 65) ↔
      Fits (aliasAnswer 14) head (0 + 40) (0 + 65) := tracks_iff hhead hparse
  rw [Nat.zero_add, Nat.zero_add] at hiff
  exact ⟨head, hhead, hiff.2 (fits_aliasAnswer (Except.ok.inj hone))⟩

/-- The answer with the target `b` and one byte more in the data of its record. -/
def paddedAnswer : List UInt8 := (aliasAnswer 12).take 61 ++ [1, 98, 0, 0]

theorem not_tracks : ¬ ∀ (mem : List UInt8) (lhsFirst : Bool) (ip ipLen : ℕ) (head : DnsHeader)
    (r : DnsResponse), DnsHeader.parse mem (some ip) ipLen = .ok head →
      parse mem lhsFirst head = .ok (some r) → Tracks mem lhsFirst head (ip + ipLen) := by
  intro h
  have hok : (message paddedAnswer false).map Option.isSome = .ok true := by decide +kernel
  have hlast : (DnsHeader.parse paddedAnswer (some 0) paddedAnswer.length >>= fun head =>
      question paddedAnswer false (init 40 head) >>= fun r =>
        parseRecord paddedAnswer false r >>= fun t =>
          .ok (head.data, recordNumber head, balance t - balance (init 40 head))) =
      .ok (some 40, 1, 1) := by
    decide +kernel
  obtain ⟨head, hhead, hlast⟩ := bind_ok hlast
  obtain ⟨r₁, hq, hlast⟩ := bind_ok hlast
  obtain ⟨t, ht, hlast⟩ := bind_ok hlast
  obtain ⟨hdata, hlast⟩ := Prod.mk.inj (Except.ok.inj hlast)
  obtain ⟨hone, hdiff⟩ := Prod.mk.inj hlast
  obtain ⟨r, hparse⟩ : ∃ r, parse paddedAnswer false head = .ok (some r) := by
    unfold message at hok
    rw [hhead] at hok
    cases hparse : parse paddedAnswer false head with
    | error e =>
      simp [hparse, bind, Except.bind, Except.map] at hok
    | ok o =>
      cases o with
      | none => simp [hparse, bind, Except.bind, Except.map] at hok
      | some r => exact ⟨r, rfl⟩
  have halong := h _ _ _ _ _ _ hhead hparse 40 r₁ hdata hq
  rw [hone] at halong
  have := (halong.2 t ht).1.1
  omega

end DnsResponse

end DStreamon
