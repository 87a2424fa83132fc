import DStreamon.Proofs.HttpRequest
import Mathlib.Data.List.Count

/-!
# Which header `getHeader` finds

The name is searched for in the headers and the body alike, and only its first place is looked at.
That is the right one where nothing before the header line contains the name.
-/

namespace DStreamon

open Bytes (strchr strstr skip getElem?_of_drop)

namespace HttpRequest

variable {mem : List UInt8} {ptr p : ℕ} {name : List UInt8}

/-! ## A terminated text -/

theorem headerValue_total (h : 0 ∈ mem.drop ptr) : ∃ value, headerValue mem ptr = .ok value := by
  obtain ⟨found, hfound⟩ := Bytes.strchr_total 13 h
  unfold headerValue
  rw [hfound]
  cases found with
  | none => exact ⟨_, rfl⟩
  | some n =>
    obtain ⟨a, b, hdrop, rfl, -, hzero⟩ := Bytes.strchr_found hfound
    have hb : 0 ∈ b := by
      rw [hdrop] at h
      simpa [hzero] using h
    obtain ⟨d, b, rfl⟩ := List.exists_cons_of_ne_nil (List.ne_nil_of_mem hb)
    have hnext := (getElem?_of_drop (getElem?_of_drop (drop_append hdrop)).2).1
    simp only [checked, bind, Except.bind, hnext]
    exact ⟨_, rfl⟩

theorem searchHeader_total (hname : 0 ∉ name) (h : 0 ∈ mem.drop p) :
    ∃ value, searchHeader mem p name = .ok value := by
  obtain ⟨found, hfound⟩ := Bytes.strstr_total hname h
  unfold searchHeader
  rw [hfound]
  cases found with
  | none => exact ⟨_, rfl⟩
  | some i =>
    obtain ⟨before, l, hdrop, hi, hzero, -⟩ := Bytes.strstr_found hfound
    have hl : 0 ∈ l := by
      rw [hdrop] at h
      simpa [hzero, hname] using h
    obtain ⟨c, l, rfl⟩ := List.exists_cons_of_ne_nil (List.ne_nil_of_mem hl)
    obtain ⟨hc, hrest⟩ := getElem?_of_drop (drop_name hdrop hi)
    simp only [checked, bind, Except.bind, hc]
    split_ifs with hcolon
    · subst hcolon
      have hl : 0 ∈ mem.drop (p + i + name.length + 1) := by
        rw [hrest]
        exact (List.mem_cons.1 hl).resolve_left (by decide)
      obtain ⟨n, hn⟩ := Bytes.skip_total (c := 32) (by decide) hl
      obtain ⟨d, b, hblanks, -⟩ := Bytes.skip_found hn
      have hvalue := drop_append hblanks
      rw [List.length_replicate] at hvalue
      have hb : 0 ∈ mem.drop (p + i + name.length + 1 + n) := by
        rw [hvalue]
        rw [hblanks] at hl
        simpa using hl
      rw [hn]
      exact headerValue_total hb
    · exact ⟨_, rfl⟩

/-- What is found is behind the first place of the name. -/
theorem searchHeader_iff {value : List UInt8} (hne : value ≠ []) :
    searchHeader mem p name = .ok value ↔ NameLine name (mem.drop p) value :=
  ⟨fun hs => (searchHeader_found hs).resolve_left hne, searchHeader_name⟩

/-- And there is a result for a terminated text, so else it is nothing. -/
theorem searchHeader_nil_iff (hname : 0 ∉ name) (h : 0 ∈ mem.drop p) :
    searchHeader mem p name = .ok [] ↔
      ∀ value, value ≠ [] → ¬NameLine name (mem.drop p) value := by
  obtain ⟨found, hfound⟩ := searchHeader_total hname h
  constructor
  · intro hnil value hne hline
    rw [searchHeader_name hline, Except.ok.injEq] at hnil
    exact hne hnil
  · intro hnone
    by_cases hne : found = []
    · rwa [hne] at hfound
    · exact absurd ((searchHeader_iff hne).1 hfound) (hnone found hne)

end HttpRequest

/-! ## The lines of a request -/

namespace HeaderField

variable {fields earlier later : List HeaderField} {f : HeaderField} {name : List UInt8}

theorem find_eq (hfields : fields = earlier ++ f :: later) (hf : f.name = name)
    (hfirst : ∀ g ∈ earlier, g.name ≠ name) : fields.find? (fun g => g.name = name) = some f := by
  rw [hfields, List.find?_append, List.find?_eq_none.2 (by simpa using hfirst), Option.none_or,
    List.find?_cons_of_pos (by simpa using hf)]

end HeaderField

namespace HttpMessage

open HttpRequest

variable {q : HttpMessage} {rest name : List UInt8} {n : ℤ}

/-- Wherever the URI is taken to end, the first carriage return behind ends the request line. -/
theorem version_of_line {method uri b : List UInt8} (hmethod : MethodBytes method)
    (hblank : 32 ∉ uri) (hbytes : q.bytes ++ rest = method ++ (uri ++ 32 :: b)) :
    ∃ version, 13 ∉ version ∧ 0 ∉ version ∧ b = version ++ 13 :: 10 :: (q.headers ++ rest) := by
  let line := q.method ++ 32 :: (q.uri ++ 32 :: q.version)
  have hline : q.bytes ++ rest = line ++ 13 :: 10 :: (q.headers ++ rest) := by
    simp [line, HttpMessage.bytes]
  have hplain : ∀ c ∈ line, c ≠ 13 ∧ c ≠ 0 := by
    intro c hc
    have := q.lineChars c
    simp only [List.mem_append] at this
    simp only [line, List.mem_append, List.mem_cons] at hc
    rcases hc with h | rfl | h | rfl | h
    · exact ⟨(this (.inl h)).2.2.1, (this (.inl h)).1⟩
    · decide
    · exact ⟨(this (.inr (.inl h))).2.2.1, (this (.inr (.inl h))).1⟩
    · decide
    · exact ⟨(this (.inr (.inr h))).2.2.1, (this (.inr (.inr h))).1⟩
  have hcount : ¬line <+: method ++ uri := by
    intro hpre
    have hle := hpre.sublist.count_le 32
    have hone : method.count 32 ≤ 1 := by
      cases hmethod with
      | get => decide
      | head c =>
        simp only [List.count_cons, List.count_nil]
        split <;> decide
      | post c =>
        simp only [List.count_cons, List.count_nil]
        split <;> decide
    have hfront : (method ++ uri).count 32 ≤ 1 := by
      rw [List.count_append, List.count_eq_zero.2 hblank]
      exact hone
    simp only [line, List.count_append, List.count_cons_self] at hle
    rw [List.count_append] at hfront
    omega
  have hfront : method ++ uri <+: q.bytes ++ rest := by
    rw [hbytes, ← List.append_assoc]
    exact List.prefix_append _ _
  have hpre : line <+: q.bytes ++ rest := by
    rw [hline]
    exact List.prefix_append _ _
  obtain ⟨t, ht⟩ := (List.prefix_or_prefix_of_prefix hfront hpre).resolve_right hcount
  have hb : t ++ 13 :: 10 :: (q.headers ++ rest) = 32 :: b := by
    rw [hline, ← ht, List.append_assoc, ← List.append_assoc method uri] at hbytes
    exact List.append_cancel_left hbytes
  have hsub : ∀ c ∈ t, c ≠ 13 ∧ c ≠ 0 := fun c hc =>
    hplain c (ht ▸ List.mem_append_right _ hc)
  cases t with
  | nil => cases hb
  | cons c version =>
    obtain ⟨rfl, rfl⟩ := List.cons.inj hb
    exact ⟨version, fun h => (hsub 13 (List.mem_cons_of_mem _ h)).1 rfl,
      fun h => (hsub 0 (List.mem_cons_of_mem _ h)).2 rfl, rfl⟩

/-- The line of a name that nothing before it contains. -/
theorem nameLine_of_first {earlier later : List HeaderField} {f : HeaderField}
    (hfields : q.fields = earlier ++ f :: later)
    (hfirst : ∀ j < (earlier.flatMap HeaderField.bytes).length,
      ¬f.name <+: (q.headers ++ rest).drop j) :
    NameLine f.name (q.headers ++ rest) f.value := by
  refine ⟨⟨earlier.flatMap HeaderField.bytes, f.blanks,
    later.flatMap HeaderField.bytes ++ 13 :: 10 :: (q.body ++ rest), ?_, ?_, hfirst⟩, f.blank, ?_⟩
  · simp [HttpMessage.headers, HeaderField.bytes, hfields]
  · rw [List.mem_flatMap]
    rintro ⟨g, -, hg⟩
    simp only [HeaderField.bytes, List.mem_append, List.mem_cons, List.mem_replicate,
      List.not_mem_nil, or_false] at hg
    rcases hg with h | h | h | h | h | h
    · exact (g.nameChars 0 h).1 rfl
    · cases h
    · exact absurd h.2 (by decide)
    · exact (g.valueChars 0 h).1 rfl
    · cases h
    · cases h
  · exact ⟨fun h => (f.valueChars 13 h).2.2 rfl, fun h => (f.valueChars 0 h).1 rfl⟩

/-- A line of the name would be an earlier place of it. -/
theorem ne_of_first {earlier later : List HeaderField} {f g : HeaderField}
    (hfields : q.fields = earlier ++ f :: later)
    (hfirst : ∀ j < (earlier.flatMap HeaderField.bytes).length,
      ¬f.name <+: (q.headers ++ rest).drop j) (hg : g ∈ earlier) : g.name ≠ f.name := by
  intro heq
  obtain ⟨before, behind, rfl⟩ := List.append_of_mem hg
  refine hfirst (before.flatMap HeaderField.bytes).length ?_ ?_
  · have hpos : 0 < g.bytes.length := List.length_pos_iff.2 (by simp [HeaderField.bytes])
    rw [List.flatMap_append, List.length_append, List.flatMap_cons, List.length_append]
    omega
  · rw [← heq]
    simp [HttpMessage.headers, hfields, HeaderField.bytes]

variable {mem : List UInt8} {addr o len : ℕ} {h' : HttpRequest}

/-- What is asked of a request that was parsed is searched for behind its request line. -/
theorem getHeader_eq (hmem : mem.drop o = q.bytes ++ 0 :: rest)
    (hparse : (new (some o) len).parse mem addr = (.ok true, h')) (hname : name ≠ [])
    (hfits : name.length ≤ h'.availableLen) :
    ∃ p, mem.drop p = q.headers ++ 0 :: rest ∧
      ((new (some o) len).getHeader mem addr name).1 = searchHeader mem p name := by
  obtain ⟨p, hp, hdrop⟩ : ∃ p, h'.headers = some p ∧ mem.drop p = q.headers ++ 0 :: rest := by
    obtain ⟨_, _, heq, -⟩ | ⟨_, heq⟩ | ⟨_, heq, hless⟩ | ⟨method, uri, version, tail, _, heq,
      hline, -, hread⟩ := parse_new_spec mem addr o len
    · rw [hparse] at heq
      cases heq
    · rw [hparse] at heq
      cases heq
    · obtain ⟨method, uri, b, hbytes, hmethod, hblank, hnone⟩ := hless.line
      obtain ⟨version, hcr, hzero, rfl⟩ :=
        version_of_line hmethod hblank (hmem.symm.trans hbytes)
      rw [Bytes.strchr_append hcr hzero] at hnone
      cases hnone
    · rw [hparse] at heq
      cases heq
      obtain ⟨v, hcr, -, hv⟩ :=
        version_of_line hline.method hline.blank (hmem.symm.trans hline.bytes)
      obtain ⟨-, rfl⟩ := split_unique hline.terminator.1 hcr hv
      exact hread.headers
  refine ⟨p, hdrop, ?_⟩
  have hshort : ¬(name.length = 0 ∨ h'.availableLen < name.length) := by
    rw [List.length_eq_zero_iff]
    exact not_or.2 ⟨hname, not_lt.2 hfits⟩
  simp only [getHeader, hparse, hp]
  rw [if_neg hshort]

/-- `getHeader` finds the header iff the name stands first where it is one; so it does if nothing
before the header contains the name. -/
theorem getHeader_finds_iff (q : HttpMessage) (hmem : mem.drop o = q.bytes ++ 0 :: rest)
    (hparse : (new (some o) len).parse mem addr = (.ok true, h')) (hname : name ≠ [] ∧ 0 ∉ name)
    (hfits : name.length ≤ h'.availableLen) :
    (q.Finds name ((new (some o) len).getHeader mem addr name).1 ↔
      q.StandsFirst name (q.headers ++ 0 :: rest)) ∧
    ∀ earlier f later, q.fields = earlier ++ f :: later → f.name = name → f.value ≠ [] →
      (∀ j < (earlier.flatMap HeaderField.bytes).length,
        ¬name <+: (q.headers ++ 0 :: rest).drop j) →
      q.Finds name ((new (some o) len).getHeader mem addr name).1 := by
  obtain ⟨p, hdrop, hget⟩ := getHeader_eq hmem hparse hname.1 hfits
  have hzero : 0 ∈ mem.drop p := by
    rw [hdrop]
    simp
  have hiff : q.Finds name (searchHeader mem p name) ↔
      q.StandsFirst name (q.headers ++ 0 :: rest) := by
    unfold Finds StandsFirst HeaderField.valueOf
    cases hfind : q.fields.find? fun f => f.name = name with
    | none =>
      have hnone : ∀ f ∈ q.fields, f.name ≠ name := by simpa using hfind
      rw [Option.map_none, Option.getD_none, iff_true_right hnone, and_self,
        searchHeader_nil_iff hname.2 hzero, hdrop]
    | some f =>
      have hf : f ∈ q.fields ∧ f.name = name :=
        ⟨List.mem_of_find?_eq_some hfind, by simpa using List.find?_some hfind⟩
      have hsome : ¬∀ f ∈ q.fields, f.name ≠ name := fun h => h f hf.1 hf.2
      rw [Option.map_some, Option.getD_some, iff_false_right hsome]
      dsimp only
      rw [← hdrop]
      constructor
      · rintro ⟨hvalue, hnil⟩
        have hne : f.value ≠ [] := by
          intro h
          rw [h] at hvalue
          exact hnil hvalue
        exact ⟨hne, (searchHeader_iff hne).1 hvalue⟩
      · rintro ⟨hne, hline⟩
        have hvalue := searchHeader_name hline
        refine ⟨hvalue, fun hnil => hne ?_⟩
        rw [hvalue, Except.ok.injEq] at hnil
        exact hnil
  rw [hget]
  refine ⟨hiff, fun earlier f later hfields hf hne hfirst => hiff.2 ?_⟩
  subst hf
  unfold StandsFirst
  rw [HeaderField.find_eq hfields rfl fun g hg => ne_of_first hfields hfirst hg]
  exact ⟨hne, nameLine_of_first hfields hfirst⟩

/-- `X-Host: a` before `Host: b`. -/
def proxied : HttpMessage where
  method := [71, 69, 84]
  uri := [47]
  version := [72, 84, 84, 80, 47, 49, 46, 49]
  fields := [⟨[88, 45, 72, 111, 115, 116], 1, [97], by simp, by simp, by simp⟩,
    ⟨hostName, 1, [98], by simp [hostName], by simp, by simp⟩]
  body := []
  lineChars := by simp

theorem getHeader_finds_proxied : proxied.Finds [88, 45, 72, 111, 115, 116]
    ((new (some 0) 38).getHeader (proxied.bytes ++ [0]) 0 [88, 45, 72, 111, 115, 116]).1 :=
  have hmem : (proxied.bytes ++ [0]).drop 0 = proxied.bytes ++ 0 :: [] := rfl
  (getHeader_finds_iff proxied hmem rfl (by decide) (by decide)).2 [] _ _ rfl rfl (by decide)
    (by simp)

/-- The value of `X-Host` is given for `Host`. -/
theorem not_getHeader_finds : ¬∀ (q : HttpMessage) (mem rest name : List UInt8) (addr o len : ℕ)
    (h' : HttpRequest), mem.drop o = q.bytes ++ 0 :: rest →
      (new (some o) len).parse mem addr = (.ok true, h') → name ≠ [] ∧ 0 ∉ name →
      name.length ≤ h'.availableLen →
      q.Finds name ((new (some o) len).getHeader mem addr name).1 := by
  intro h
  have hfinds := (h proxied (proxied.bytes ++ [0]) [] hostName 0 0 38 _ rfl rfl (by decide)
    (by decide)).1
  have ha : ((new (some 0) 38).getHeader (proxied.bytes ++ [0]) 0 hostName).1 = .ok [97] := rfl
  rw [ha] at hfinds
  exact absurd (Except.ok.inj hfinds) (by decide)

end HttpMessage

end DStreamon
