import DStreamon.DnsMessage
import DStreamon.Proofs.DnsNames

/-!
# Names by string offsets

The parser expands a name from the strings of the names it keeps.  What it keeps of a name is the
name's dotted expansion if those before are and the name is found among them, and only then.
-/

namespace DStreamon

open Bytes (be16 le_of_be16 lt_of_getElem?)

namespace DnsMessage

variable {mem : List UInt8} {p e e' o k k' target first first' : ℕ} {names : List ℕ}
  {ls ls' es rest : List (List UInt8)} {o' o₁ : Option ℕ}

/-! ## Names -/

theorem Parts.unique (h : Parts mem p ls o₁ e) :
    ∀ {ls' : List (List UInt8)} {o' : Option ℕ} {e' : ℕ}, Parts mem p ls' o' e' →
      ls = ls' ∧ o₁ = o' ∧ e = e' := by
  induction h with
  | terminator hc =>
    intro ls' o' e' h'
    cases h' with
    | terminator _ => exact ⟨rfl, rfl, rfl⟩
    | pointer hc' h3 _ =>
      cases hc.symm.trans hc'
      exact absurd h3 (by decide)
    | label hc' h0 _ _ _ => exact absurd (Option.some.inj (hc.symm.trans hc')).symm h0
  | pointer hc h3 hhead =>
    intro ls' o' e' h'
    cases h' with
    | terminator hc' =>
      cases hc.symm.trans hc'
      exact absurd h3 (by decide)
    | pointer _ _ hhead' =>
      cases hhead.symm.trans hhead'
      exact ⟨rfl, rfl, rfl⟩
    | label hc' _ hlt _ _ =>
      cases hc.symm.trans hc'
      omega
  | label hc h0 hlt _ _ ih =>
    intro ls' o' e' h'
    cases h' with
    | terminator hc' => exact absurd (Option.some.inj (hc.symm.trans hc')) h0
    | pointer hc' h3 _ =>
      cases hc.symm.trans hc'
      omega
    | label hc' _ _ _ h' =>
      cases hc.symm.trans hc'
      obtain ⟨rfl, rfl, rfl⟩ := ih h'
      exact ⟨rfl, rfl, rfl⟩

theorem Expansion.of_whole (h : Expansion mem p es) (hp : Parts mem p ls none e) : es = ls := by
  cases h with
  | whole hp' => exact (hp'.unique hp).1
  | compressed hp' _ _ => cases (hp'.unique hp).2.1

theorem Expansion.of_pointer (h : Expansion mem p es) (hp : Parts mem p ls (some o) e) :
    origin + o < p ∧ ∃ rest, Expansion mem (origin + o) rest ∧ es = ls ++ rest := by
  cases h with
  | whole hp' => cases (hp'.unique hp).2.1
  | compressed hp' hlt hrest =>
    obtain ⟨rfl, ho, -⟩ := hp'.unique hp
    cases ho
    exact ⟨hlt, _, hrest, rfl⟩

theorem Expansion.unique (h : Expansion mem p es) :
    ∀ {es' : List (List UInt8)}, Expansion mem p es' → es = es' := by
  induction h with
  | whole hp =>
    intro es' h'
    exact (h'.of_whole hp).symm
  | compressed hp _ _ ih =>
    intro es' h'
    obtain ⟨-, rest', hrest', rfl⟩ := h'.of_pointer hp
    rw [ih hrest']

theorem Parts.nonempty (h : Parts mem p ls o₁ e) : ∀ l ∈ ls, l ≠ [] := by
  induction h with
  | terminator _ => nofun
  | pointer _ _ _ => nofun
  | label _ h0 _ hle _ ih =>
    refine List.forall_mem_cons.2 ⟨fun hnil => ?_, ih⟩
    have hlen := congrArg List.length hnil
    rw [List.length_take, List.length_drop, List.length_nil] at hlen
    refine h0 (UInt8.toNat_inj.1 ?_)
    rw [UInt8.toNat_zero]
    omega

theorem Expansion.nonempty (h : Expansion mem p es) : ∀ l ∈ es, l ≠ [] := by
  induction h with
  | whole hp => exact hp.nonempty
  | compressed hp _ _ ih => exact List.forall_mem_append.2 ⟨hp.nonempty, ih⟩

theorem Nearest.unique (h : Nearest names target first) (h' : Nearest names target first') :
    first = first' :=
  Nat.le_antisymm (h'.max _ h.mem h.le) (h.max _ h'.mem h'.le)

theorem Relies.mem_names (h : Relies mem names p k) (hp : p ∈ names) : k ∈ names := by
  induction h with
  | refl _ => exact hp
  | head _ hnear _ ih => exact ih hnear.mem

theorem Relies.trans (h : Relies mem names p k) (h' : Relies mem names k k') :
    Relies mem names p k' := by
  induction h with
  | refl _ => exact h'
  | head hp hnear _ ih => exact .head hp hnear (ih h')

theorem Nearest.lt {full : List (List UInt8)} (h : Nearest names (origin + o) first)
    (hp : Parts mem p ls (some o) e) (hfull : Expansion mem p full) : first < p :=
  h.le.trans_lt (hfull.of_pointer hp).1

/-- A name is read from earlier ones only. -/
theorem Relies.le (h : Relies mem names p k) (hexp : ∀ k ∈ names, ∃ ls, Expansion mem k ls)
    (hp : p ∈ names) : k ≤ p := by
  induction h with
  | refl _ => exact le_rfl
  | head hparts hnear _ ih =>
    obtain ⟨full, hfull⟩ := hexp _ hp
    exact (ih hnear.mem).trans (hnear.lt hparts hfull).le

theorem Found.of_whole (h : Found mem names p) (hp : Parts mem p ls none e) : 0 ∉ ls.flatten := by
  cases h with
  | whole hp' h0 => exact (hp'.unique hp).1 ▸ h0
  | same hp' _ => cases (hp'.unique hp).2.1
  | suffix hp' _ _ _ _ _ _ => cases (hp'.unique hp).2.1

theorem Found.of_pointer (h : Found mem names p) (hp : Parts mem p ls (some o) e) :
    ls = [] ∧ origin + o ∈ names ∨ 0 ∉ ls.flatten ∧ ∃ first es rest,
      Nearest names (origin + o) first ∧ first ≠ origin + o ∧ Expansion mem first es ∧
        Expansion mem (origin + o) rest ∧ (dotted es).drop (origin + o - first) = dotted rest := by
  cases h with
  | whole hp' _ => cases (hp'.unique hp).2.1
  | same hp' ho =>
    obtain ⟨rfl, ho', -⟩ := hp'.unique hp
    cases ho'
    exact .inl ⟨rfl, ho⟩
  | suffix hp' h0 hnear hne hes hrest hd =>
    obtain ⟨rfl, ho, -⟩ := hp'.unique hp
    cases ho
    exact .inr ⟨h0, _, _, _, hnear, hne, hes, hrest, hd⟩

/-! ## Dots and C strings -/

/-- Every label with a dot behind it. -/
def dots (ls : List (List UInt8)) : List UInt8 := ls.flatMap (· ++ [46])

theorem dots_append (ls ls' : List (List UInt8)) : dots (ls ++ ls') = dots ls ++ dots ls' :=
  List.flatMap_append

theorem dots_cons (l : List UInt8) (ls : List (List UInt8)) :
    dots (l :: ls) = l ++ [46] ++ dots ls :=
  List.flatMap_cons

theorem dots_eq_nil : dots ls = [] ↔ ls = [] := by
  cases ls with
  | nil => exact iff_of_true rfl rfl
  | cons l ls => simp [dots_cons]

theorem dotted_append (h : rest ≠ []) : ∀ ls, dotted (ls ++ rest) = dots ls ++ dotted rest
  | [] => rfl
  | l :: ls => by
    have hne : ls ++ rest ≠ [] := fun e => h (List.append_eq_nil_iff.1 e).2
    have ih := dotted_append h ls
    unfold dotted at ih ⊢
    rw [List.cons_append, List.intercalate_cons_of_ne_nil hne, ih, dots_cons]
    simp only [List.append_assoc]

theorem dots_eq : ∀ {ls : List (List UInt8)}, ls ≠ [] → dots ls = dotted ls ++ [46]
  | [], h => absurd rfl h
  | [l], _ => by simp [dots, dotted]
  | l :: l' :: ls, _ => by
    have ih := dots_eq (List.cons_ne_nil l' ls)
    unfold dotted at ih ⊢
    rw [dots_cons, ih, List.intercalate_cons_of_ne_nil (List.cons_ne_nil l' ls)]
    simp only [List.append_assoc]

theorem dropLast_dots (ls : List (List UInt8)) : (dots ls).dropLast = dotted ls := by
  rcases eq_or_ne ls [] with rfl | h
  · rfl
  · rw [dots_eq h, List.dropLast_concat]

theorem zero_mem_dots : 0 ∈ dots ls ↔ 0 ∈ ls.flatten := by
  simp [dots, List.mem_flatten]

theorem zero_mem_dotted : 0 ∈ dotted ls ↔ 0 ∈ ls.flatten := by
  rcases eq_or_ne ls [] with rfl | h
  · exact Iff.rfl
  · rw [← zero_mem_dots, dots_eq h]
    simp

theorem dotted_eq_nil (h : ∀ l ∈ es, l ≠ []) : dotted es = [] ↔ es = [] := by
  constructor
  · intro hnil
    cases es with
    | nil => rfl
    | cons l es =>
      have hl : l ≠ [] := h l List.mem_cons_self
      rcases eq_or_ne es [] with rfl | hes
      · exact absurd hnil (by simpa [dotted] using hl)
      · rw [dotted, List.intercalate_cons_of_ne_nil hes] at hnil
        exact absurd hnil (by simp)
  · rintro rfl
    rfl

theorem dotted_append_ne (h : ∀ l ∈ ls, l ≠ []) (hne : ls ≠ []) (rest : List (List UInt8)) :
    dotted rest ≠ dotted (ls ++ rest) := by
  rcases eq_or_ne rest [] with rfl | hrest
  · rw [List.append_nil]
    exact fun e => hne ((dotted_eq_nil h).1 e.symm)
  · rw [dotted_append hrest]
    exact fun e => hne (dots_eq_nil.1 (List.append_left_eq_self.1 e.symm))

theorem zero_not_mem_cString (s : List UInt8) : 0 ∉ cString s := fun h =>
  absurd (List.all_eq_true.1 List.all_takeWhile 0 h) (by decide)

theorem cString_append {a : List UInt8} (h : 0 ∉ a) (b : List UInt8) :
    cString (a ++ b) = a ++ cString b :=
  List.takeWhile_append_of_pos fun _ hx => decide_eq_true fun hx0 => h (hx0 ▸ hx)

theorem cString_eq_self_iff {s : List UInt8} : cString s = s ↔ 0 ∉ s := by
  constructor
  · intro h
    rw [← h]
    exact zero_not_mem_cString s
  · intro h
    have := cString_append h []
    rwa [show cString [] = [] from rfl, List.append_nil] at this

/-- What is left of a string is a whole one only if it had no zero. -/
theorem cString_append_eq {a b d : List UInt8} (hb : 0 ∉ b) (h : cString (a ++ b) = a ++ d) :
    0 ∉ a ∧ b = d := by
  have ha : 0 ∉ a := fun hz => zero_not_mem_cString (a ++ b) (h ▸ List.mem_append_left d hz)
  refine ⟨ha, ?_⟩
  rw [cString_append ha, cString_eq_self_iff.2 hb] at h
  exact List.append_cancel_left h

end DnsMessage

namespace DnsResponse

open DnsMessage

variable {mem : List UInt8} {cachedNames : DescMap ℕ (List UInt8)} {p e : ℕ}
  {ls : List (List UInt8)} {o : Option ℕ} {availableBytes : ℤ} {q : QueryName}

/-! ## What is read of a name -/

/-- The string of a name: its labels, or them and what is in the cache. -/
inductive Reads (cachedNames : DescMap ℕ (List UInt8)) (ls : List (List UInt8)) :
    Option ℕ → List UInt8 → Prop
  | whole : Reads cachedNames ls none (cString (dotted ls))
  | same {o : ℕ} {base : List UInt8} : cachedNames.lowerBound o = some (o, base) →
      Reads cachedNames ls (some o) base
  | suffix {o first : ℕ} {base : List UInt8} : cachedNames.lowerBound o = some (first, base) →
      first < o → o - first < base.length →
      Reads cachedNames ls (some o) (cString (dots ls ++ base.drop (o - first)))

theorem Expands.reads {s : NameState} {o : ℕ} (h : Expands cachedNames s o q)
    (hs : s.buffer = dots ls) :
    q.newData = s.p + 2 ∧ q.availableBytes = s.availableBytes ∧
      Reads cachedNames ls (some o) q.name := by
  cases h with
  | whole hbase => exact ⟨rfl, rfl, .same hbase⟩
  | suffix hbase hlt hlen _ => exact ⟨rfl, rfl, hs ▸ .suffix hbase hlt hlen⟩

theorem Labelled.tight {s t : NameState} {len : ℕ}
    (h : Labelled mem { s with availableBytes := s.availableBytes - 1 } len t)
    (hs : Tight mem s.p s.availableBytes) : Tight mem t.p t.availableBytes := by
  have hp := h.p
  have hav := h.availableBytes
  simp only at hp hav
  unfold Tight at hs ⊢
  rw [hp, hav]
  push_cast
  omega

/-- A name is read to its end, if it is read at all. -/
theorem getQueryName_reads (hp : Parts mem p ls o e) (hs : Tight mem p availableBytes) :
    ∀ q, getQueryName mem cachedNames p availableBytes = .ok q →
      q.newData = e ∧ Tight mem e q.availableBytes ∧ Reads cachedNames ls o q.name := by
  refine getQueryName_rule (I := fun s => Tight mem s.p s.availableBytes ∧
      ∃ done rest, ls = done ++ rest ∧ Parts mem s.p rest o e ∧ s.buffer = dots done)
    (R := fun r => ∀ q, r = .ok q →
      q.newData = e ∧ Tight mem e q.availableBytes ∧ Reads cachedNames ls o q.name)
    (fun s out hI hout => ?_) ⟨hs, [], ls, rfl, hp, rfl⟩
  obtain ⟨htight, done, rest, rfl, hparts, hbuffer⟩ := hI
  have hsum : s.availableBytes + s.p = mem.length := htight
  cases hout with
  | overrun _ => nofun
  | throw _ => nofun
  | terminator hc =>
    intro q hq
    cases hq
    cases hparts with
    | terminator _ =>
      refine ⟨rfl, ?_, ?_⟩
      · unfold Tight endOfName
        push_cast
        omega
      · rw [endOfName, hbuffer, dropLast_dots, List.append_nil]
        exact .whole
    | pointer hc' h3 _ =>
      cases hc.symm.trans hc'
      exact absurd h3 (by decide)
    | label hc' h0 _ _ _ => exact absurd (Option.some.inj (hc.symm.trans hc')).symm h0
  | cutOff hc h3 hcut =>
    cases hparts with
    | terminator hc' =>
      cases hc.symm.trans hc'
      exact absurd h3 (by decide)
    | pointer _ _ hhead =>
      have := le_of_be16 hhead
      omega
    | label hc' _ hlt _ _ =>
      cases hc.symm.trans hc'
      omega
  | pointer hc h3 hhead _ hexp =>
    intro q hq
    cases hq
    cases hparts with
    | terminator hc' =>
      cases hc.symm.trans hc'
      exact absurd h3 (by decide)
    | pointer _ _ hhead' =>
      cases hhead.symm.trans hhead'
      obtain ⟨hdata, hav, hreads⟩ := hexp.reads hbuffer
      refine ⟨hdata, ?_, by rwa [List.append_nil]⟩
      rw [hav]
      unfold Tight
      push_cast
      omega
    | label hc' _ hlt _ _ =>
      cases hc.symm.trans hc'
      omega
  | @label c t hc h0 h3 hlab =>
    cases hparts with
    | terminator hc' => exact absurd (Option.some.inj (hc.symm.trans hc')) h0
    | pointer hc' h3' _ =>
      cases hc.symm.trans hc'
      exact absurd h3' h3
    | label hc' _ hlt _ hrest =>
      cases hc.symm.trans hc'
      rw [Nat.mod_eq_of_lt hlt] at hlab
      refine ⟨hlab.tight htight, done ++ [(mem.drop (s.p + 1)).take c.toNat], _,
        List.append_cons .., hlab.p ▸ hrest, ?_⟩
      · rw [hlab.buffer, hbuffer, dots_append, dots_cons]
        simp [dots]

/-- Other entries may be there, if none is looked up. -/
theorem Reads.congr {cachedNames' : DescMap ℕ (List UInt8)} {name : List UInt8}
    (h : Reads cachedNames ls o name)
    (heq : ∀ o' ∈ o, cachedNames'.lowerBound o' = cachedNames.lowerBound o') :
    Reads cachedNames' ls o name := by
  cases h with
  | whole => exact .whole
  | same hbase => exact .same ((heq _ rfl).trans hbase)
  | suffix hbase hlt hlen => exact .suffix ((heq _ rfl).trans hbase) hlt hlen

theorem Reads.clean {name : List UInt8} (h : Reads cachedNames ls o name)
    (hclean : ∀ x ∈ cachedNames.entries, 0 ∉ x.2) : 0 ∉ name := by
  cases h with
  | whole => exact zero_not_mem_cString _
  | same hbase => exact hclean _ (DescMap.lowerBound_eq_some_iff.1 hbase).1
  | suffix _ _ _ => exact zero_not_mem_cString _

/-! ## What is kept -/

/-- The cache keeps the names at `names` and no others, as they are read from it. -/
structure Caches (mem : List UInt8) (names : List ℕ) (cachedNames : DescMap ℕ (List UInt8)) :
    Prop where
  place : ∀ x ∈ cachedNames.entries, origin + x.1 ∈ names
  clean : ∀ x ∈ cachedNames.entries, 0 ∉ x.2
  behind : ∀ k ∈ names, questionAt ≤ k
  read : ∀ k ∈ names, ∃ ls o e name, Parts mem k ls o e ∧ (∀ o' ∈ o, origin + o' < k) ∧
    Reads cachedNames ls o name ∧ cachedNames.find (k - origin) = some (k - origin, name)

/-- The string kept of the name at `k` is its dotted expansion. -/
def Right (mem : List UInt8) (cachedNames : DescMap ℕ (List UInt8)) (k : ℕ) : Prop :=
  ∃ ls, Expansion mem k ls ∧ cachedNames.find (k - origin) = some (k - origin, dotted ls)

variable {names : List ℕ} {name : List UInt8} {full : List (List UInt8)} {offset first : ℕ}
  {base : List UInt8}

theorem caches_empty (mem : List UInt8) : Caches mem [] .empty := by
  refine ⟨?_, ?_, ?_, ?_⟩ <;> nofun

/-- A name behind all others is kept with what is read of it. -/
theorem Caches.insert (h : Caches mem names cachedNames) (hp : Parts mem p ls o e)
    (ho : ∀ o' ∈ o, origin + o' < p) (hq : questionAt ≤ p) (hbehind : ∀ k ∈ names, k < p)
    (hreads : Reads cachedNames ls o name) :
    Caches mem (names ++ [p]) (cachedNames.insert (p - origin) name) := by
  have horigin : origin < questionAt := by decide
  have hlower : ∀ o', origin + o' < p →
      (cachedNames.insert (p - origin) name).lowerBound o' = cachedNames.lowerBound o' :=
    fun o' ho' => DescMap.lowerBound_insert (by omega)
  refine ⟨fun x hx => ?_, fun x hx => ?_, fun k hk => ?_, fun k hk => ?_⟩
  · obtain rfl | ⟨hx, -⟩ := DescMap.mem_insert.1 hx
    · refine List.mem_append_right _ (List.mem_singleton.2 ?_)
      change origin + (p - origin) = p
      omega
    · exact List.mem_append_left _ (h.place x hx)
  · obtain rfl | ⟨hx, -⟩ := DescMap.mem_insert.1 hx
    · exact hreads.clean h.clean
    · exact h.clean x hx
  · obtain hk | hk := List.mem_append.1 hk
    · exact h.behind k hk
    · rwa [List.mem_singleton.1 hk]
  · obtain hk | hk := List.mem_append.1 hk
    · obtain ⟨ls, o, e, name', hp', ho', hreads', hfind⟩ := h.read k hk
      have hlt := hbehind k hk
      have hge := h.behind k hk
      refine ⟨ls, o, e, name', hp', ho', hreads'.congr fun o' h' => hlower o' ?_, ?_⟩
      · exact (ho' o' h').trans hlt
      · rw [DescMap.find_insert_of_ne (by omega), hfind]
    · obtain rfl := List.mem_singleton.1 hk
      exact ⟨ls, o, e, name, hp, ho, hreads.congr fun o' h' => hlower o' (ho o' h'),
        DescMap.find_insert⟩

/-- The name looked up is the nearest. -/
theorem Caches.nearest (h : Caches mem names cachedNames)
    (hbase : cachedNames.lowerBound offset = some (first, base)) :
    Nearest names (origin + offset) (origin + first) := by
  obtain ⟨hmem, hle, hmax⟩ := DescMap.lowerBound_eq_some_iff.1 hbase
  refine ⟨h.place _ hmem, Nat.add_le_add_left hle _, fun k hk hko => ?_⟩
  obtain ⟨_, _, _, _, _, _, _, hfind⟩ := h.read k hk
  have horigin : origin < questionAt := by decide
  have hge := h.behind k hk
  have hkey : k - origin ≤ first :=
    hmax _ (DescMap.find_eq_some_iff.1 hfind).1 (by simp only; omega)
  omega

/-- What is looked up where it is right. -/
theorem Caches.base_eq (hbase : cachedNames.lowerBound offset = some (first, base))
    (hright : Right mem cachedNames (origin + first)) :
    ∃ es, Expansion mem (origin + first) es ∧ base = dotted es := by
  obtain ⟨es, hes, hfind⟩ := hright
  have hmem := (DescMap.lowerBound_eq_some_iff.1 hbase).1
  have hentry := (DescMap.find_eq_some_iff.1 hfind).1
  have heq := DescMap.unique hmem hentry (by simp)
  exact ⟨es, hes, congrArg Prod.snd heq⟩

/-- A name is read right from a right one, if and only if it is found. -/
theorem reads_right_iff (hc : Caches mem names cachedNames) (hp : Parts mem p ls o e)
    (hfull : Expansion mem p full) (hreads : Reads cachedNames ls o name)
    (hright : ∀ o' first, o = some o' → Nearest names (origin + o') first →
      Right mem cachedNames first) : name = dotted full ↔ Found mem names p := by
  cases hreads with
  | whole =>
    obtain rfl := hfull.of_whole hp
    rw [cString_eq_self_iff, zero_mem_dotted]
    exact ⟨.whole hp, fun hf => hf.of_whole hp⟩
  | same hbase =>
    obtain ⟨-, rest, hrest, rfl⟩ := hfull.of_pointer hp
    have hnear := hc.nearest hbase
    obtain ⟨es, hes, rfl⟩ := Caches.base_eq hbase (hright _ _ rfl hnear)
    obtain rfl := hes.unique hrest
    constructor
    · intro heq
      rcases eq_or_ne ls [] with rfl | hne
      · exact .same hp hnear.mem
      · exact absurd heq (dotted_append_ne hp.nonempty hne es)
    · intro hf
      rcases hf.of_pointer hp with ⟨rfl, -⟩ | ⟨-, first, _, _, hnear', hne', -⟩
      · rfl
      · exact absurd (hnear'.unique hnear) hne'
  | @suffix o first base hbase hlt hlen =>
    obtain ⟨-, rest, hrest, rfl⟩ := hfull.of_pointer hp
    have hnear := hc.nearest hbase
    obtain ⟨es, hes, rfl⟩ := Caches.base_eq hbase (hright _ _ rfl hnear)
    have hzero : 0 ∉ dotted es := hc.clean _ (DescMap.lowerBound_eq_some_iff.1 hbase).1
    have hdist : origin + o - (origin + first) = o - first := by omega
    have hne : (dotted es).drop (o - first) ≠ [] := by
      rw [Ne, List.drop_eq_nil_iff]
      omega
    have hdrop : 0 ∉ (dotted es).drop (o - first) := fun h => hzero (List.mem_of_mem_drop h)
    constructor
    · intro heq
      have hrest' : rest ≠ [] := by
        rintro rfl
        rw [List.append_nil] at heq
        have hz : 0 ∉ dots ls := by
          rw [zero_mem_dots, ← zero_mem_dotted, ← heq]
          exact zero_not_mem_cString _
        rw [cString_append hz, cString_eq_self_iff.2 hdrop] at heq
        have hlength := congrArg List.length heq
        rw [← dropLast_dots ls, List.length_append, List.length_dropLast] at hlength
        exact hne (List.eq_nil_of_length_eq_zero (by omega))
      rw [dotted_append hrest'] at heq
      obtain ⟨hz, hd⟩ := cString_append_eq hdrop heq
      exact .suffix hp (zero_mem_dots.not.1 hz) hnear (by omega) hes hrest (hdist ▸ hd)
    · intro hf
      rcases hf.of_pointer hp with ⟨-, ho⟩ | ⟨hz, first', _, _, hnear', -, hes', hrest', hd⟩
      · have := hnear.max _ ho le_rfl
        omega
      · obtain rfl := hnear'.unique hnear
        obtain rfl := hes'.unique hes
        obtain rfl := hrest'.unique hrest
        rw [hdist] at hd
        rw [hd] at hne hdrop ⊢
        rw [cString_append (zero_mem_dots.not.2 hz), cString_eq_self_iff.2 hdrop, dotted_append]
        rintro rfl
        exact hne rfl

theorem right_iff_eq {k : ℕ} (hfind : cachedNames.find (k - origin) = some (k - origin, name))
    (hfull : Expansion mem k full) : Right mem cachedNames k ↔ name = dotted full := by
  constructor
  · rintro ⟨full', hfull', hfind'⟩
    obtain rfl := hfull'.unique hfull
    exact congrArg Prod.snd (Option.some.inj (hfind.symm.trans hfind'))
  · rintro rfl
    exact ⟨full, hfull, hfind⟩

/-- The same of a name that is kept. -/
theorem Caches.right_iff (hc : Caches mem names cachedNames) (hp : p ∈ names)
    (hfull : Expansion mem p full) (hright : ∀ ls o e first, Parts mem p ls (some o) e →
      Nearest names (origin + o) first → Right mem cachedNames first) :
    Right mem cachedNames p ↔ Found mem names p := by
  obtain ⟨ls, o, e, name, hparts, -, hreads, hfind⟩ := hc.read p hp
  rw [right_iff_eq hfind hfull]
  exact reads_right_iff hc hparts hfull hreads fun o' first ho hnear =>
    hright ls o' e first (ho ▸ hparts) hnear

/-- A name is read right from found ones. -/
theorem Caches.right_of_allFound (hc : Caches mem names cachedNames)
    (hexp : ∀ k ∈ names, ∃ ls, Expansion mem k ls) (p : ℕ) (hp : p ∈ names)
    (h : AllFound mem names p) : Right mem cachedNames p := by
  obtain ⟨full, hfull⟩ := hexp p hp
  refine (hc.right_iff hp hfull fun ls o e first hparts hnear => ?_).2 (h p (.refl p))
  have hlt : first < p := hnear.lt hparts hfull
  exact hc.right_of_allFound hexp first hnear.mem fun k hk => h k (.head hparts hnear hk)
termination_by p

/-- Everything a name is read from is right, if and only if all of it is found. -/
theorem Caches.relied_right_iff (hc : Caches mem names cachedNames)
    (hexp : ∀ k ∈ names, ∃ ls, Expansion mem k ls) (hp : p ∈ names) :
    (∀ k, Relies mem names p k → Right mem cachedNames k) ↔ AllFound mem names p := by
  constructor
  · intro hright k hk
    have hmem := hk.mem_names hp
    obtain ⟨full, hfull⟩ := hexp k hmem
    refine (hc.right_iff hmem hfull fun ls o e first hparts hnear => ?_).1 (hright k hk)
    exact hright first (hk.trans (.head hparts hnear (.refl first)))
  · intro h k hk
    exact hc.right_of_allFound hexp k (hk.mem_names hp) fun k' hk' => h k' (hk.trans hk')

end DnsResponse

end DStreamon
