import DStreamon.Proofs.Dns

/-!
# How long the names are that the DNS parser keeps

Every name it keeps is shorter than its buffer, and the offset of the last alias is always one of a
name it keeps.  So a message ends the parser only in ways the capture loop catches, or outside of
the memory.
-/

namespace DStreamon

open Bytes (be16 be32)
open Loop (times)

namespace DnsResponse

variable {mem : List UInt8} {cachedNames : DescMap ℕ (List UInt8)} {s : NameState} {q : QueryName}
  {lhsFirst : Bool} {r r' : DnsResponse} {offset p : ℕ} {availableBytes : ℤ}

/-- All names of a cache are shorter than the buffer. -/
def NamesShort (cachedNames : DescMap ℕ (List UInt8)) : Prop :=
  ∀ e ∈ cachedNames.entries, e.2.length < dnsMaxLength

theorem NamesShort.insert {k : ℕ} {name : List UInt8} (h : NamesShort cachedNames)
    (hname : name.length < dnsMaxLength) : NamesShort (cachedNames.insert k name) := by
  intro e he
  obtain rfl | ⟨he, -⟩ := DescMap.mem_insert.1 he
  · exact hname
  · exact h e he

theorem NamesShort.readCache (h : NamesShort r.cachedNames) (lhsFirst : Bool) (p : ℕ) :
    NamesShort (readCache lhsFirst r p) := by
  unfold DnsResponse.readCache
  split_ifs
  · exact h.insert (by decide)
  · exact h

theorem length_cString_le (s : List UInt8) : (cString s).length ≤ s.length :=
  (List.takeWhile_sublist _).length_le

theorem Expands.short (h : Expands cachedNames s offset q) (hcache : NamesShort cachedNames) :
    q.name.length < dnsMaxLength := by
  cases h with
  | whole hbase => exact hcache _ (DescMap.lowerBound_eq_some_iff.1 hbase).1
  | suffix hbase _ _ hroom =>
    refine (length_cString_le _).trans_lt ?_
    rw [List.length_append, List.length_drop]
    omega

theorem short_endOfName (h : s.buffer.length < dnsMaxLength) :
    (endOfName s).name.length < dnsMaxLength := by
  refine (length_cString_le _).trans_lt ?_
  rw [List.length_dropLast]
  omega

/-- A name is read to its end, and is short where the cached ones are. -/
theorem getQueryName_short (mem : List UInt8) (p : ℕ) (availableBytes : ℤ)
    (hcache : NamesShort cachedNames) :
    Tame (getQueryName mem cachedNames p availableBytes) ∧
      ∀ q, getQueryName mem cachedNames p availableBytes = .ok q →
        q.name.length < dnsMaxLength := by
  refine getQueryName_rule (I := fun s => s.buffer.length < dnsMaxLength)
    (R := fun r => Tame r ∧ ∀ q, r = .ok q → q.name.length < dnsMaxLength)
    (fun s o hs ho => ?_) (Nat.zero_lt_succ _)
  cases ho with
  | overrun _ => exact ⟨tame_overrun, fun q h => by cases h⟩
  | throw what => exact ⟨tame_runtimeError what, fun q h => by cases h⟩
  | terminator _ =>
    refine ⟨tame_ok _, fun q h => ?_⟩
    cases h
    exact short_endOfName hs
  | cutOff _ _ _ =>
    refine ⟨tame_ok _, fun q h => ?_⟩
    cases h
    exact short_endOfName hs
  | pointer _ _ _ _ hexp =>
    refine ⟨tame_ok _, fun q h => ?_⟩
    cases h
    exact hexp.short hcache
  | label hc _ _ hlab =>
    have hroom := hlab.room
    have hin := hlab.inside
    change _ < _
    rw [hlab.buffer]
    simp only [List.length_append, List.length_take, List.length_drop, List.length_singleton]
    simp only at hroom hin ⊢
    omega

/-! ## What every step of the parser keeps -/

/-- The kept names are short, and the last alias is one of them. -/
structure Named (r : DnsResponse) : Prop where
  short : NamesShort r.cachedNames
  lastAlias : ∃ name, r.cachedNames.find r.lastAliasOffset = some (r.lastAliasOffset, name)

theorem find_of_insert {k k' : ℕ} {v : List UInt8}
    (h : ∃ name, cachedNames.find k = some (k, name)) :
    ∃ name, (cachedNames.insert k' v).find k = some (k, name) := by
  obtain ⟨name, hname⟩ := h
  by_cases hk : k = k'
  · subst hk
    exact ⟨v, DescMap.find_insert⟩
  · have hmem := (DescMap.find_eq_some_iff.1 hname).1
    exact ⟨name, DescMap.find_eq_some_iff.2 ⟨DescMap.mem_insert.2 (.inr ⟨hmem, hk⟩), rfl⟩⟩

theorem find_readCache {k : ℕ} (h : ∃ name, r.cachedNames.find k = some (k, name)) (p : ℕ) :
    ∃ name, (readCache lhsFirst r p).find k = some (k, name) := by
  unfold readCache
  split_ifs
  · exact find_of_insert h
  · exact h

theorem tame_cacheName (h : NamesShort r.cachedNames) (p : ℕ) :
    Tame (cacheName mem lhsFirst r p) :=
  (getQueryName_short mem p r.availableBytes (h.readCache lhsFirst p)).1.bind fun _ _ => tame_ok _

theorem question_named (mem : List UInt8) (lhsFirst : Bool) (h : NamesShort r.cachedNames) :
    Tame (question mem lhsFirst r) ∧ ∀ r', question mem lhsFirst r = .ok r' → Named r' := by
  refine ⟨(tame_cacheName h _).bind fun _ _ => tame_ok _, fun r' hr' => ?_⟩
  obtain ⟨q, hq, rfl⟩ := question_ok hr'
  have hshort := h.readCache lhsFirst r.data
  exact ⟨hshort.insert ((getQueryName_short mem _ _ hshort).2 q hq), _, DescMap.find_insert⟩

theorem OwnerStep.named (h : OwnerStep mem lhsFirst r r') (hr : Named r) : Named r' := by
  cases h with
  | pointer _ => exact ⟨hr.short, hr.lastAlias⟩
  | @name q _ hq =>
    have hshort := hr.short.readCache lhsFirst r.data
    exact ⟨hshort.insert ((getQueryName_short mem _ _ hshort).2 q hq),
      find_of_insert (find_readCache hr.lastAlias _)⟩

theorem RdataStep.named {type : UInt16} {length : ℕ}
    (h : RdataStep mem lhsFirst r length type r') (hr : Named r) : Named r' := by
  cases h with
  | address _ _ => exact ⟨hr.short, hr.lastAlias⟩
  | @cname q _ hq =>
    have hshort := hr.short.readCache lhsFirst (r.data + 10)
    exact ⟨hshort.insert ((getQueryName_short mem _ _ hshort).2 q hq), _, DescMap.find_insert⟩
  | other _ _ => exact ⟨hr.short, hr.lastAlias⟩

theorem tame_owner (h : Named r) : Tame (owner mem lhsFirst r) :=
  (tame_checked _).bind fun _ _ => .ite (fun _ => tame_ok _) fun _ =>
    (tame_cacheName h.short _).bind fun _ _ => tame_ok _

theorem tame_rdata {type : UInt16} {length : ℕ} (h : Named r) :
    Tame (rdata mem lhsFirst r type length) := by
  refine .ite (fun _ => ?_) fun _ => .ite (fun _ => ?_) fun _ => tame_ok _
  · exact .ite (fun _ => tame_runtimeError _) fun _ => (tame_checked _).bind fun _ _ => tame_ok _
  · exact .ite (fun _ => tame_runtimeError _) fun _ =>
      (tame_cacheName h.short _).bind fun _ _ => tame_ok _

theorem parseRecord_named (h : Named r) :
    Tame (parseRecord mem lhsFirst r) ∧ ∀ r', parseRecord mem lhsFirst r = .ok r' → Named r' := by
  constructor
  · refine .ite (fun _ => tame_runtimeError _) fun _ => (tame_owner h).bind fun r₁ h₁ => ?_
    have hnamed := (owner_ok h₁).named h
    refine (tame_checked _).bind fun type _ => (tame_checked _).bind fun length _ => ?_
    exact .ite (fun _ => tame_runtimeError _) fun _ => tame_rdata ⟨hnamed.short, hnamed.lastAlias⟩
  · intro r' hr'
    obtain ⟨r₁, type, length, hstep⟩ := parseRecord_ok hr'
    have hnamed := (owner_ok hstep.ownerOk).named h
    exact hstep.rdataStep.named ⟨hnamed.short, hnamed.lastAlias⟩

theorem times_named (n : ℕ) (h : Named r) : Tame (times (parseRecord mem lhsFirst) n r) ∧
    ∀ r', times (parseRecord mem lhsFirst) n r = .ok r' → Named r' :=
  Loop.times_of_rounds (I := Named) (R := fun x => Tame x ∧ ∀ r', x = .ok r' → Named r')
    (fun r hr => ⟨fun e he => ⟨he ▸ (parseRecord_named hr).1, fun r' h => by cases h⟩,
      fun t ht => (parseRecord_named hr).2 t ht⟩)
    (fun r hr => ⟨tame_ok _, fun r' h => Except.ok.inj h ▸ hr⟩) n h

/-- A message is parsed to a response that keeps its names, or ends the parser as the capture loop
takes it, or outside of the memory. -/
theorem parse_named (mem : List UInt8) (lhsFirst : Bool) (head : DnsHeader) :
    Tame (parse mem lhsFirst head) ∧
      ∀ r, parse mem lhsFirst head = .ok (some r) → Named r := by
  unfold parse
  cases hdata : head.data with
  | none => exact ⟨tame_ok _, fun r h => by cases h⟩
  | some data =>
    simp only
    by_cases hbad : isBad head = true
    · rw [if_pos hbad]
      exact ⟨tame_ok _, fun r h => by cases h⟩
    · rw [if_neg hbad, new_eq data (Bool.eq_false_iff.2 hbad)]
      have hinit : NamesShort (init data head).cachedNames := fun e he => by cases he
      have hquestion := question_named mem lhsFirst hinit
      constructor
      · refine (hquestion.1.bind fun r hr => ?_).bind fun r _ => tame_ok _
        exact (times_named _ (hquestion.2 r hr)).1
      · intro r h
        obtain ⟨r₁, h₁, h⟩ := bind_ok h
        cases Except.ok.inj h
        obtain ⟨r₂, h₂, h₁⟩ := bind_ok h₁
        exact (times_named _ (hquestion.2 r₂ h₂)).2 r h₁

theorem tame_header (mem : List UInt8) (ip len : ℕ) :
    Tame (DnsHeader.parse mem (some ip) len) := by
  refine .ite (fun _ => tame_ok _) fun _ => (tame_checked _).bind fun verHlen _ => ?_
  refine .ite (fun _ => ?_) fun _ => tame_ok _
  refine (tame_checked _).bind fun protocol _ => .ite (fun _ => ?_) fun _ => tame_ok _
  refine (tame_checked _).bind fun sourcePort _ => Tame.bind ?_ fun destPort _ => ?_
  · exact .ite (fun _ => tame_ok _) fun _ => tame_checked _
  · refine .ite (fun _ => ?_) fun _ => tame_ok _
    refine (tame_checked _).bind fun length _ => .ite (fun _ => ?_) fun _ => tame_ok _
    refine (tame_checked _).bind fun _ _ => (tame_checked _).bind fun _ _ => ?_
    refine (tame_checked _).bind fun _ _ => (tame_checked _).bind fun _ _ => ?_
    exact (tame_checked _).bind fun _ _ => (tame_checked _).bind fun _ _ => tame_ok _

end DnsResponse

end DStreamon
