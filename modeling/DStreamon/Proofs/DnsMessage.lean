import DStreamon.Proofs.DnsExpansion

/-!
# What a response says of a message

Each step of the parser takes it over the next part of a well-formed message and keeps the names
it comes by.
-/

namespace DStreamon

open Bytes (be16 le_of_be16 lt_of_getElem?)
open Loop (times)

namespace DnsMessage

variable {mem : List UInt8} {p e : ℕ} {ls : List (List UInt8)} {o : Option ℕ}

theorem Parts.extent (h : Parts mem p ls o e) : p < e ∧ e ≤ mem.length := by
  induction h with
  | terminator hc => exact ⟨Nat.lt_succ_self _, lt_of_getElem? hc⟩
  | pointer _ _ hhead => exact ⟨by omega, le_of_be16 hhead⟩
  | label _ _ _ _ _ ih => exact ⟨by omega, ih.2⟩

theorem Expansion.pointer_lt {full : List (List UInt8)} (h : Expansion mem p full)
    (hp : Parts mem p ls o e) : ∀ o' ∈ o, origin + o' < p := by
  rintro o' rfl
  exact (h.of_pointer hp).1

/-! ## Pointers into a name -/

/-- A label of the name at `p`, its pointer or its terminator is at `q`. -/
inductive Within (mem : List UInt8) : ℕ → ℕ → Prop
  | refl (p : ℕ) : Within mem p p
  | label {p q : ℕ} {c : UInt8} : mem[p]? = some c → c ≠ 0 → c.toNat < 64 →
      p + 1 + c.toNat ≤ mem.length → Within mem (p + c.toNat + 1) q → Within mem p q

theorem Expansion.label {c : UInt8} {es : List (List UInt8)} (h : Expansion mem p es)
    (hc : mem[p]? = some c) (h0 : c ≠ 0) (hlt : c.toNat < 64) :
    ∃ rest, es = (mem.drop (p + 1)).take c.toNat :: rest ∧
      Expansion mem (p + c.toNat + 1) rest := by
  cases h with
  | whole hp =>
    cases hp with
    | terminator hc' => exact absurd (Option.some.inj (hc.symm.trans hc')) h0
    | label hc' _ _ _ hp =>
      cases hc.symm.trans hc'
      exact ⟨_, rfl, .whole hp⟩
  | compressed hp ho hrest =>
    cases hp with
    | pointer hc' h3 _ =>
      cases hc.symm.trans hc'
      omega
    | label hc' _ _ _ hp =>
      cases hc.symm.trans hc'
      exact ⟨_, rfl, .compressed hp (by omega) hrest⟩

/-- The expansion there is the end of the name's, as many bytes behind its beginning. -/
theorem Within.expansion {q : ℕ} (h : Within mem p q) : ∀ {es : List (List UInt8)},
    Expansion mem p es → ∃ done rest, es = done ++ rest ∧ Expansion mem q rest ∧
      q = p + (dots done).length := by
  induction h with
  | refl p =>
    intro es hes
    exact ⟨[], es, rfl, hes, rfl⟩
  | @label p q c hc h0 hlt hle _ ih =>
    intro es hes
    obtain ⟨es', rfl, hes'⟩ := hes.label hc h0 hlt
    obtain ⟨done, rest, rfl, hrest, rfl⟩ := ih hes'
    refine ⟨_ :: done, rest, List.cons_append.symm, hrest, ?_⟩
    rw [dots_cons, List.length_append, List.length_append, List.length_take, List.length_drop,
      List.length_singleton]
    omega

/-- A pointer into the nearest name, behind labels of its own, is found. -/
theorem found_of_within {names : List ℕ} {target first : ℕ} {es : List (List UInt8)}
    (hp : Parts mem p ls (some target) e) (h0 : 0 ∉ ls.flatten)
    (hnear : Nearest names (origin + target) first) (hne : first ≠ origin + target)
    (hes : Expansion mem first es) (hin : Within mem first (origin + target)) :
    Found mem names p := by
  obtain ⟨done, rest, rfl, hrest, hq⟩ := hin.expansion hes
  refine .suffix hp h0 hnear hne hes hrest ?_
  have hdist : origin + target - first = (dots done).length := by omega
  rw [hdist]
  rcases eq_or_ne rest [] with rfl | hne
  · rw [List.append_nil, ← dropLast_dots]
    exact List.drop_eq_nil_of_le (by rw [List.length_dropLast]; omega)
  · rw [dotted_append hne]
    exact List.drop_left

end DnsMessage

namespace DnsResponse

open DnsMessage

variable {mem : List UInt8} {lhsFirst : Bool} {r r₁ r' : DnsResponse} {q : QueryName}
  {names : List ℕ} {last p e : ℕ} {ls : List (List UInt8)} {o : Option ℕ}

/-! ## Names -/

theorem lowerBound_readCache {o : ℕ} (h : o < r.offsetOf p) :
    (readCache lhsFirst r p).lowerBound o = r.cachedNames.lowerBound o := by
  unfold readCache
  split_ifs
  · exact DescMap.lowerBound_insert h
  · rfl

/-- Offsets have 16 bits, and every place in the message has one. -/
theorem offsetOf_eq (hstart : r.start = origin) (hsmall : mem.length < origin + 2 ^ 16)
    (hp : Parts mem p ls o e) : r.offsetOf p = p - origin := by
  have := hp.extent
  unfold offsetOf
  rw [hstart]
  exact Nat.mod_eq_of_lt (by omega)

/-- A name behind all others is read to its end and kept. -/
theorem name_keeps (hstart : r.start = origin) (hsmall : mem.length < origin + 2 ^ 16)
    (hc : Caches mem names r.cachedNames) (hbehind : ∀ k ∈ names, k < p) (hpast : questionAt ≤ p)
    (hp : Parts mem p ls o e) (ho : ∀ o' ∈ o, origin + o' < p) (hs : Tight mem p r.availableBytes)
    (hq : getQueryName mem (readCache lhsFirst r p) p r.availableBytes = .ok q) :
    q.newData = e ∧ Tight mem e q.availableBytes ∧ Caches mem (names ++ [p])
      ((readCache lhsFirst r p).insert (r.offsetOf p) q.name) := by
  have hoffset := offsetOf_eq hstart hsmall hp
  obtain ⟨hend, htight, hreads⟩ := getQueryName_reads hp hs q hq
  refine ⟨hend, htight, ?_⟩
  rw [insert_readCache, hoffset]
  refine hc.insert hp ho hpast hbehind (hreads.congr fun o' ho' => (lowerBound_readCache ?_).symm)
  have hlt := ho o' ho'
  have horigin : origin < questionAt := by decide
  rw [hoffset]
  omega

/-! ## Records -/

/-- What the parser has done where it comes to a record or to attributes. -/
structure Keeps (mem : List UInt8) (names : List ℕ) (last : ℕ) (r : DnsResponse) : Prop where
  start : r.start = origin
  tight : Tight mem r.data r.availableBytes
  caches : Caches mem names r.cachedNames
  behind : ∀ k ∈ names, k < r.data
  past : questionAt ≤ r.data
  lastAlias : r.lastAliasOffset = last - origin

theorem any_head_iff : ((be16 mem p).any fun head => head.toNat / 2 ^ 14 = 3) = true ↔
    PointerAt mem p := by
  rw [Option.any_eq_true]
  exact exists_congr fun head => and_congr_right' decide_eq_true_iff

/-- A name that begins like a pointer is one. -/
theorem parts_of_pointerAt (h : PointerAt mem p) (hp : Parts mem p ls o e) : e = p + 2 := by
  obtain ⟨head, hhead, h3⟩ := h
  obtain ⟨c, hc, hdiv⟩ := Bytes.div_of_be16 hhead
  cases hp with
  | terminator hc' =>
    cases hc.symm.trans hc'
    rw [UInt8.toNat_zero] at hdiv
    omega
  | pointer _ _ _ => rfl
  | label hc' _ hlt _ _ =>
    cases hc.symm.trans hc'
    omega

theorem behind_append {x p : ℕ} (h : ∀ k ∈ names, k < x) (hx : x ≤ p) (hp : p < e) :
    ∀ k ∈ names ++ [p], k < e := by
  intro k hk
  obtain hk | hk := List.mem_append.1 hk
  · have := h k hk
    omega
  · rwa [List.mem_singleton.1 hk]

theorem OwnerStep.keeps (h : OwnerStep mem lhsFirst r r₁) (hr : Keeps mem names last r)
    (hsmall : mem.length < origin + 2 ^ 16) (hp : Parts mem r.data ls o e)
    (hexp : ∃ full, Expansion mem r.data full) :
    r₁.data = e ∧ Keeps mem (names ++ if (be16 mem r.data).any fun head => head.toNat / 2 ^ 14 = 3
      then [] else [r.data]) last r₁ := by
  have hpast := hr.past
  have hsum : r.availableBytes + r.data = mem.length := hr.tight
  cases h with
  | pointer hptr =>
    obtain rfl := parts_of_pointerAt hptr hp
    rw [if_pos (any_head_iff.2 hptr), List.append_nil]
    refine ⟨rfl, hr.start, ?_, hr.caches, fun k hk => ?_, Nat.le_add_right_of_le hpast,
      hr.lastAlias⟩
    · unfold Tight
      push_cast
      omega
    · exact Nat.lt_add_right 2 (hr.behind k hk)
  | name hno hq =>
    obtain ⟨full, hfull⟩ := hexp
    obtain ⟨rfl, htight, hcaches⟩ := name_keeps hr.start hsmall hr.caches hr.behind hpast hp
      (hfull.pointer_lt hp) hr.tight hq
    have hlt := hp.extent.1
    rw [if_neg (any_head_iff.not.2 hno)]
    exact ⟨rfl, hr.start, htight, hcaches, behind_append hr.behind le_rfl hlt, hpast.trans hlt.le,
      hr.lastAlias⟩

theorem RdataStep.keeps {rec : Record} (hat : r.data = rec.attributes)
    (h : RdataStep mem lhsFirst { r with availableBytes := r.availableBytes - 10 } rec.length
      rec.type r') (hr : Keeps mem names last r)
    (hsmall : mem.length < origin + 2 ^ 16)
    (hp : rec.type = 5 → ∃ ls o, Parts mem rec.data ls o rec.next)
    (hexp : rec.type = 5 → ∃ full, Expansion mem rec.data full) :
    r'.data = rec.next ∧ Keeps mem (names ++ if rec.type = 5 then [rec.data] else [])
      (if rec.type = 5 then rec.data else last) r' := by
  have hpast := hr.past
  have hsum : r.availableBytes + r.data = mem.length := hr.tight
  have hnext : r.data + 10 + rec.length = rec.next := by rw [hat]; rfl
  generalize htype : rec.type = type at h hp hexp
  cases h with
  | address h4 _ =>
    rw [if_neg (by decide), if_neg (by decide), List.append_nil]
    refine ⟨hnext, hr.start, ?_, hr.caches, fun k hk => ?_, ?_, hr.lastAlias⟩
    · unfold Tight
      push_cast
      omega
    · exact (hr.behind k hk).trans_le (by simp only; omega)
    · simp only
      omega
  | cname _ hq =>
    obtain ⟨ls, o, hp⟩ := hp rfl
    obtain ⟨full, hfull⟩ := hexp rfl
    have hdata : r.data + 10 = rec.data := by rw [hat]; rfl
    have hlt := hp.extent.1
    have hle : r.data ≤ rec.data := by omega
    simp only [hdata, if_true] at hq hnext ⊢
    have htight : Tight mem rec.data (r.availableBytes - 10) := by
      unfold Tight
      omega
    obtain ⟨-, htight, hcaches⟩ := name_keeps (r := { r with
      availableBytes := r.availableBytes - 10 }) hr.start hsmall hr.caches
      (fun k hk => (hr.behind k hk).trans_le hle) (hpast.trans hle) hp (hfull.pointer_lt hp) htight
      hq
    rw [hnext]
    refine ⟨rfl, hr.start, htight, hcaches, behind_append hr.behind hle hlt,
      (hpast.trans hle).trans hlt.le, ?_⟩
    exact offsetOf_eq (r := r) hr.start hsmall hp
  | other _ h5 =>
    rw [if_neg h5, if_neg h5, List.append_nil]
    refine ⟨hnext, hr.start, ?_, hr.caches, fun k hk => ?_, ?_, hr.lastAlias⟩
    · unfold Tight
      push_cast
      omega
    · exact (hr.behind k hk).trans_le (by simp only; omega)
    · simp only
      omega

theorem parseRecord_keeps {rec : Record} {length : UInt16}
    (h : parseRecord mem lhsFirst r = .ok r') (hr : Keeps mem names last r)
    (hsmall : mem.length < origin + 2 ^ 16) (hat : r.data = rec.owner)
    (hp : Parts mem rec.owner ls o rec.attributes) (htype : be16 mem rec.attributes = some rec.type)
    (hlength : be16 mem (rec.attributes + 8) = some length) (hlen : length.toNat = rec.length)
    (hdata : rec.type = 5 → ∃ ls o, Parts mem rec.data ls o rec.next)
    (hexp : ∀ k ∈ rec.names, ∃ full, Expansion mem k full) :
    r'.data = rec.next ∧
      Keeps mem (names ++ kept mem rec) (if rec.type = 5 then rec.data else last) r' := by
  obtain ⟨r₁, type, len, hstep⟩ := parseRecord_ok h
  have howner : rec.owner ∈ rec.names := List.mem_cons_self
  have hnames : rec.type = 5 → rec.data ∈ rec.names := fun h5 => by simp [Record.names, h5]
  obtain ⟨hat₁, hr₁⟩ := (owner_ok hstep.ownerOk).keeps hr hsmall (hat ▸ hp)
    (hat ▸ hexp _ howner)
  have htypeAt := hstep.typeAt
  obtain ⟨length', hlengthAt, rfl⟩ := hstep.lengthAt
  rw [hat₁] at htypeAt hlengthAt
  cases htypeAt.symm.trans htype
  cases hlengthAt.symm.trans hlength
  have hrdata := hstep.rdataStep
  rw [hlen] at hrdata
  obtain ⟨hat', hr'⟩ := hrdata.keeps hat₁ hr₁ hsmall hdata fun h5 => hexp _ (hnames h5)
  refine ⟨hat', ?_⟩
  rwa [List.append_assoc, hat] at hr'

/-- All records, one after the other. -/
theorem records_keep (hsmall : mem.length < origin + 2 ^ 16) {p : ℕ} {rs : List Record}
    (h : Records mem p rs) : ∀ {names : List ℕ} {last : ℕ} {r r' : DnsResponse},
      (∀ k ∈ rs.flatMap Record.names, ∃ full, Expansion mem k full) → r.data = p →
      Keeps mem names last r → times (parseRecord mem lhsFirst) rs.length r = .ok r' →
      Keeps mem (names ++ rs.flatMap (kept mem))
        (((rs.filter fun r => r.type = 5).map Record.data).getLastD last) r' := by
  induction h with
  | nil p =>
    intro names last r r' _ _ hr h
    obtain rfl := Except.ok.inj h
    rwa [List.flatMap_nil, List.append_nil]
  | @cons rec rs ls o length hp htype hlength hlen hdata _ ih =>
    intro names last r r' hexp hat hr h
    rw [List.flatMap_cons, List.forall_mem_append] at hexp
    obtain ⟨r₁, h₁, h⟩ : ∃ r₁, parseRecord mem lhsFirst r = .ok r₁ ∧
        times (parseRecord mem lhsFirst) rs.length r₁ = .ok r' := by
      rw [List.length_cons, times] at h
      cases h₁ : parseRecord mem lhsFirst r with
      | error e =>
        rw [h₁] at h
        cases h
      | ok r₁ =>
        rw [h₁] at h
        exact ⟨r₁, rfl, h⟩
    obtain ⟨hat₁, hr₁⟩ := parseRecord_keeps h₁ hr hsmall hat hp htype hlength hlen hdata hexp.1
    have hkeeps := ih hexp.2 hat₁ hr₁ h
    rw [List.append_assoc] at hkeeps
    rw [List.flatMap_cons, List.filter_cons]
    by_cases h5 : rec.type = 5
    · rw [if_pos h5] at hkeeps
      rwa [if_pos (decide_eq_true h5), List.map_cons, List.getLastD_cons]
    · rw [if_neg h5] at hkeeps
      rwa [if_neg (decide_eq_true_iff.not.2 h5)]

/-! ## Messages -/

theorem kept_subset {rec : Record} {k : ℕ} (h : k ∈ kept mem rec) : k ∈ rec.names := by
  obtain h | h := List.mem_append.1 h
  · split_ifs at h
    · cases h
    · exact List.mem_singleton.1 h ▸ List.mem_cons_self
  · exact List.mem_cons_of_mem _ h

theorem keptNames_subset {rs : List Record} {k : ℕ} (h : k ∈ keptNames mem rs) :
    k ∈ questionAt :: rs.flatMap Record.names := by
  obtain rfl | h := List.mem_cons.1 h
  · exact List.mem_cons_self
  · obtain ⟨rec, hrec, hk⟩ := List.mem_flatMap.1 h
    exact List.mem_cons_of_mem _ (List.mem_flatMap.2 ⟨rec, hrec, kept_subset hk⟩)

theorem lastAlias_mem (mem : List UInt8) (rs : List Record) : lastAlias rs ∈ keptNames mem rs := by
  obtain h | h := List.mem_cons.1 (List.getLastD_mem_cons (a := questionAt)
    (l := (rs.filter fun r => r.type = 5).map Record.data))
  · exact List.mem_cons.2 (.inl h)
  · obtain ⟨rec, hrec, hdata⟩ := List.mem_map.1 h
    obtain ⟨hrec, h5⟩ := List.mem_filter.1 hrec
    refine List.mem_cons_of_mem _ (List.mem_flatMap.2 ⟨rec, hrec, List.mem_append_right _ ?_⟩)
    rw [if_pos (of_decide_eq_true h5)]
    exact List.mem_singleton.2 hdata.symm

theorem of_ite_bad {c : Prop} [Decidable c] {x : Except Abort DnsHeader} {head : DnsHeader}
    {data : ℕ} (hdata : head.data = some data)
    (h : (if c then x else .ok DnsHeader.bad) = .ok head) : c ∧ x = .ok head := by
  by_cases hc : c
  · rw [if_pos hc] at h
    exact ⟨hc, h⟩
  · rw [if_neg hc] at h
    obtain rfl := Except.ok.inj h
    cases hdata

/-- A packet's length is in the header, in 16 bits. -/
theorem header_small {head : DnsHeader} {data : ℕ}
    (h : DnsHeader.parse mem (some 0) mem.length = .ok head) (hdata : head.data = some data) :
    40 ≤ mem.length ∧ mem.length < origin + 2 ^ 16 := by
  unfold DnsHeader.parse at h
  simp only at h
  rw [← ite_not] at h
  obtain ⟨hsize, h⟩ := of_ite_bad hdata h
  obtain ⟨verHlen, -, h⟩ := bind_ok h
  obtain ⟨-, h⟩ := of_ite_bad hdata h
  obtain ⟨protocol, -, h⟩ := bind_ok h
  obtain ⟨-, h⟩ := of_ite_bad hdata h
  obtain ⟨sourcePort, -, h⟩ := bind_ok h
  obtain ⟨destPort, -, h⟩ := bind_ok h
  obtain ⟨-, h⟩ := of_ite_bad hdata h
  obtain ⟨length, -, h⟩ := bind_ok h
  obtain ⟨hlength, -⟩ := of_ite_bad hdata h
  have := length.toNat_lt
  exact ⟨Nat.not_lt.1 hsize, by unfold origin; omega⟩

theorem question_keeps {head : DnsHeader} (hat : AtQuestion mem head r)
    (h : question mem lhsFirst r = .ok r') (hp : Parts mem questionAt ls o e)
    (hexp : ∃ full, Expansion mem questionAt full) :
    r'.data = e + 4 ∧ Keeps mem [questionAt] questionAt r' := by
  obtain ⟨hparse, -, data, hdata, rfl⟩ := id hat
  obtain ⟨hlen, hsmall⟩ := header_small hparse hdata
  have htight := hat.tight hlen
  obtain ⟨head', hparse', hnone | ⟨hdata', -⟩⟩ := header_parse hlen
  · obtain rfl := Except.ok.inj (hparse.symm.trans hparse')
    cases hnone.symm.trans hdata
  obtain rfl := Except.ok.inj (hparse.symm.trans hparse')
  cases hdata.symm.trans hdata'
  obtain ⟨full, hfull⟩ := hexp
  obtain ⟨q, hq, rfl⟩ := question_ok h
  obtain ⟨rfl, htight', hcaches⟩ := name_keeps (r := init 40 head) (p := questionAt) rfl hsmall
    (caches_empty mem) (by nofun) le_rfl hp (hfull.pointer_lt hp) htight hq
  have hlt := hp.extent.1
  refine ⟨rfl, rfl, ?_, hcaches, fun k hk => ?_, ?_, offsetOf_eq (r := init 40 head) rfl hsmall hp⟩
  · unfold Tight at htight' ⊢
    push_cast
    omega
  · rw [List.mem_singleton.1 hk]
    exact Nat.lt_add_right 4 hlt
  · exact Nat.le_add_right_of_le hlt.le

/-- A response keeps exactly the names of the message, and knows the last alias. -/
theorem message_keeps {rs : List Record} (h : message mem lhsFirst = .ok (some r))
    (hwf : WellFormed mem rs) :
    Keeps mem (keptNames mem rs) (lastAlias rs) r := by
  have hlen : 40 ≤ mem.length := by
    obtain ⟨head, hparse, h⟩ := bind_ok h
    unfold parse at h
    cases hdata : head.data with
    | none =>
      rw [hdata] at h
      cases h
    | some data => exact (header_small hparse hdata).1
  obtain ⟨hnone, -⟩ | ⟨head, r₀, hat, -, hmessage⟩ := message_eq lhsFirst hlen
  · cases hnone.symm.trans h
  · rw [hmessage] at h
    obtain ⟨r', h, hr'⟩ := bind_ok h
    cases hr'
    obtain ⟨r₁, hquestion, h⟩ := bind_ok h
    obtain ⟨ls, o, e, hp, hrecords⟩ := hwf.records
    have hexp := hwf.expands
    obtain ⟨hat₁, hr₁⟩ := question_keeps hat hquestion hp (hexp _ List.mem_cons_self)
    obtain ⟨hparse, -, data, hdata, -⟩ := hat
    rw [show recordNumber head = rs.length from hwf.count head hparse] at h
    exact records_keep (header_small hparse hdata).2 hrecords
      (fun k hk => hexp k (List.mem_cons_of_mem _ hk)) hat₁ hr₁ h

/-! ## Names of a response -/

variable {full : List (List UInt8)}

/-- The question's name is the first of all. -/
theorem getName_iff (hr : Keeps mem names last r) (hq : questionAt ∈ names)
    (hfull : Expansion mem questionAt full) :
    r.getName = some (dotted full) ↔ Right mem r.cachedNames questionAt := by
  obtain ⟨_, _, _, name, -, -, -, hfind⟩ := hr.caches.read questionAt hq
  have hmem := (DescMap.find_eq_some_iff.1 hfind).1
  rw [right_iff_eq hfind hfull, getName]
  cases hlast : r.cachedNames.last with
  | none =>
    rw [List.getLast?_eq_none_iff.1 hlast] at hmem
    cases hmem
  | some x =>
    obtain ⟨hx, hleast⟩ := DescMap.last_eq_some hlast
    have hle : x.1 ≤ questionAt - origin := hleast _ hmem
    have hge := hr.caches.behind _ (hr.caches.place x hx)
    obtain rfl := DescMap.unique hx hmem (by simp only; omega)
    exact Option.some_inj

theorem getAlias_iff (hr : Keeps mem names last r) (hlast : last ∈ names)
    (hfull : Expansion mem last full) :
    r.getAlias = .ok (dotted full) ↔ Right mem r.cachedNames last := by
  obtain ⟨_, _, _, name, -, -, -, hfind⟩ := hr.caches.read last hlast
  rw [right_iff_eq hfind hfull, getAlias, hr.lastAlias, hfind]
  exact ⟨fun h => Except.ok.inj h, fun h => congrArg _ h⟩

/-- The names a response gives for a well-formed message.  The question's name is right exactly if
it is found.  Where the other names that the last alias is read from are found, it is right exactly
if it is found itself; and all of them are right exactly if all are found. -/
theorem names_right_iff {rs : List Record} {question target : List (List UInt8)}
    (h : message mem lhsFirst = .ok (some r)) (hwf : WellFormed mem rs)
    (hquestion : Expansion mem questionAt question)
    (htarget : Expansion mem (lastAlias rs) target) :
    (r.getName = some (dotted question) ↔ Found mem (keptNames mem rs) questionAt) ∧
      ((∀ k, Relies mem (keptNames mem rs) (lastAlias rs) k → k ≠ lastAlias rs →
          Found mem (keptNames mem rs) k) →
        (r.getAlias = .ok (dotted target) ↔ Found mem (keptNames mem rs) (lastAlias rs))) ∧
      ((∀ k, Relies mem (keptNames mem rs) (lastAlias rs) k → Right mem r.cachedNames k) ↔
        AllFound mem (keptNames mem rs) (lastAlias rs)) := by
  have hr := message_keeps h hwf
  have hexp : ∀ k ∈ keptNames mem rs, ∃ ls, Expansion mem k ls :=
    fun k hk => hwf.expands k (keptNames_subset hk)
  have hfirst : questionAt ∈ keptNames mem rs := List.mem_cons_self
  have hlast := lastAlias_mem mem rs
  refine ⟨?_, fun hothers => ?_, hr.caches.relied_right_iff hexp hlast⟩
  · rw [getName_iff hr hfirst hquestion]
    refine hr.caches.right_iff hfirst hquestion fun ls o e first hparts hnear => ?_
    have hlt := hnear.lt hparts hquestion
    exact absurd (hr.caches.behind first hnear.mem) (Nat.not_le.2 hlt)
  · rw [getAlias_iff hr hlast htarget]
    refine hr.caches.right_iff hlast htarget fun ls o e first hparts hnear => ?_
    have hlt := hnear.lt hparts htarget
    refine hr.caches.right_of_allFound hexp first hnear.mem fun k hk => ?_
    exact hothers k (.head hparts hnear hk) ((hk.le hexp hnear.mem).trans_lt hlt).ne

/-- An answer of 65 bytes to the question for `a.b`: a `CNAME` whose data is the label `c` and a
pointer. -/
def aliasAnswer (offset : UInt8) : List UInt8 :=
  [0x45, 0, 0, 65, 0, 0, 0, 0, 64, 17, 0, 0, 10, 0, 0, 1, 10, 0, 0, 2] ++
  [0, 53, 4, 0, 0, 45, 0, 0] ++ [0, 1, 0x81, 0x80, 0, 1, 0, 1, 0, 0, 0, 0] ++
  [1, 97, 1, 98, 0, 0, 1, 0, 1] ++ [0xc0, 12, 0, 5, 0, 1, 0, 0, 0, 0, 0, 4, 1, 99, 0xc0, offset]

def aliasRecord : Record := ⟨49, 51, 5, 4⟩

variable {offset : UInt8} {word : UInt16} {rest : List (List UInt8)}

theorem length_aliasAnswer : (aliasAnswer offset).length = 65 := rfl

theorem parts_b : Parts (aliasAnswer offset) 42 [[98]] none 45 :=
  .label (c := 1) rfl (by decide) (by decide) (by rw [length_aliasAnswer]; decide) (.terminator rfl)

theorem parts_question : Parts (aliasAnswer offset) questionAt [[97], [98]] none 45 :=
  .label (c := 1) rfl (by decide) (by decide) (by rw [length_aliasAnswer]; decide) parts_b

theorem parts_owner : Parts (aliasAnswer offset) 49 [] (some 12) 51 := by
  have hhead : be16 (aliasAnswer offset) 49 = some 0xc00c := rfl
  exact .pointer (c := 0xc0) rfl (by decide) hhead

theorem parts_alias (h : be16 (aliasAnswer offset) 63 = some word) :
    Parts (aliasAnswer offset) 61 [[99]] (some (word.toNat % 2 ^ 14)) 65 :=
  .label (c := 1) rfl (by decide) (by decide) (by rw [length_aliasAnswer]; decide)
    (.pointer (c := 0xc0) rfl (by decide) h)

theorem wellFormed_aliasAnswer (h : be16 (aliasAnswer offset) 63 = some word)
    (hlt : origin + word.toNat % 2 ^ 14 < 61)
    (hrest : Expansion (aliasAnswer offset) (origin + word.toNat % 2 ^ 14) rest) :
    WellFormed (aliasAnswer offset) [aliasRecord] where
  records := by
    have hlength : be16 (aliasAnswer offset) 59 = some 4 := rfl
    refine ⟨_, _, 45, parts_question, ?_⟩
    exact .cons (r := aliasRecord) parts_owner rfl hlength rfl
      (fun _ => ⟨_, _, parts_alias h⟩) (.nil 65)
  count := by
    intro head hparse
    have hone : (DnsHeader.parse (aliasAnswer offset) (some 0) 65).map recordNumber = .ok 1 := rfl
    rw [← length_aliasAnswer, hparse] at hone
    exact Except.ok.inj hone
  expands := by
    intro p hp
    have hp : p = questionAt ∨ p = 49 ∨ p = 61 := by
      simpa [Record.names, Record.data, aliasRecord] using hp
    obtain rfl | rfl | rfl := hp
    · exact ⟨_, .whole parts_question⟩
    · exact ⟨_, .compressed parts_owner (by decide) (.whole parts_question)⟩
    · exact ⟨_, .compressed (parts_alias h) hlt hrest⟩

theorem pointer_b : be16 (aliasAnswer 14) 63 = some 0xc00e := rfl

theorem parts_alias_b : Parts (aliasAnswer 14) 61 [[99]] (some 14) 65 := parts_alias pointer_b

theorem nearest_b :
    Nearest (keptNames (aliasAnswer 14) [aliasRecord]) (origin + 14) questionAt where
  mem := List.mem_cons_self
  le := by decide
  max := by decide +kernel

theorem found_b : Found (aliasAnswer 14) (keptNames (aliasAnswer 14) [aliasRecord]) 61 :=
  found_of_within parts_alias_b (by decide) nearest_b (by decide) (.whole parts_question)
    (.label (c := 1) rfl (by decide) (by decide) (by decide) (.refl 42))

theorem message_aliasAnswer (offset : UInt8) (name target : List UInt8)
    (h : (message (aliasAnswer offset) false).toOption.join.map
      (fun r => (r.getName, r.getAlias.toOption)) = some (some name, some target)) :
    ∃ r, message (aliasAnswer offset) false = .ok (some r) ∧ r.getName = some name ∧
      r.getAlias = .ok target := by
  obtain ⟨r, hr, heq⟩ := Option.map_eq_some_iff.1 h
  obtain ⟨hname, halias⟩ := Prod.mk.inj heq
  refine ⟨r, ?_, hname, ?_⟩
  · cases hmessage : message (aliasAnswer offset) false with
    | error e =>
      rw [hmessage] at hr
      cases hr
    | ok x =>
      rw [hmessage] at hr
      exact congrArg _ hr
  · cases h : r.getAlias with
    | error e =>
      rw [h] at halias
      cases halias
    | ok x =>
      rw [h] at halias
      exact congrArg _ (Option.some.inj halias)

/-- With a pointer to the second label of the question, the alias is `c.b`. -/
theorem names_right_iff_aliasAnswer :
    ∃ r, message (aliasAnswer 14) false = .ok (some r) ∧
      (r.getName = some (dotted [[97], [98]]) ↔
        Found (aliasAnswer 14) (keptNames (aliasAnswer 14) [aliasRecord]) questionAt) ∧
      r.getAlias = .ok (dotted [[99], [98]]) := by
  obtain ⟨r, hr, -, -⟩ := message_aliasAnswer 14 [97, 46, 98] [99, 46, 98] (by decide +kernel)
  have hb : Expansion (aliasAnswer 14) (origin + 14) [[98]] := .whole parts_b
  obtain ⟨hname, halias, -⟩ := names_right_iff hr
    (wellFormed_aliasAnswer pointer_b (by decide) hb) (.whole parts_question)
    (.compressed parts_alias_b (by decide) hb)
  refine ⟨r, hr, hname, (halias fun k hk hne => ?_).2 found_b⟩
  cases hk with
  | refl _ => exact absurd rfl hne
  | head hp hnear hk =>
    cases (hp.unique parts_alias_b).2.1
    obtain rfl := hnear.unique nearest_b
    cases hk with
    | refl _ => exact .whole parts_question (by decide)
    | head hp _ _ => cases (hp.unique parts_question).2.1

/-- With a pointer to the question, the alias is `a.b` and not `c.a.b`. -/
theorem not_names_right : ¬ ∀ (mem : List UInt8) (lhsFirst : Bool) (r : DnsResponse)
    (rs : List Record) (question target : List (List UInt8)),
    message mem lhsFirst = .ok (some r) → WellFormed mem rs → Expansion mem questionAt question →
      Expansion mem (lastAlias rs) target →
      r.getName = some (dotted question) ∧ r.getAlias = .ok (dotted target) := by
  intro h
  obtain ⟨r, hr, -, halias⟩ := message_aliasAnswer 12 [97, 46, 98] [97, 46, 98] (by decide +kernel)
  have hword : be16 (aliasAnswer 12) 63 = some 0xc00c := rfl
  have hq : Expansion (aliasAnswer 12) (origin + 12) [[97], [98]] := .whole parts_question
  have htarget : Expansion (aliasAnswer 12) 61 [[99], [97], [98]] :=
    .compressed (parts_alias hword) (by decide) hq
  have hright := (h _ _ r _ _ _ hr (wellFormed_aliasAnswer hword (by decide) hq) hq
    htarget).2
  rw [halias] at hright
  exact absurd (Except.ok.inj hright) (by decide)

end DnsResponse

end DStreamon
