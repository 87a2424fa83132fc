import DStreamon.HttpRequest
import DStreamon.Proofs.Dns

/-!
# What `HttpRequest` finds in a request

`parse` accepts exactly the bytes of a request line there is room for, and `getHeader` the first
header of a name.  All else ends in an exception the capture loop catches, or outside of the memory.
-/

namespace DStreamon

open Bytes (le32 strchr strstr skip strchr_found strchr_append drop_of_getElem? getElem?_of_drop)

namespace HttpRequest

variable {mem : List UInt8} {ptr o len : ℕ} {h h' : HttpRequest}

/-! ## The URI -/

/-- The loop ends at a blank with length left, where there is one in time. -/
theorem uriLoop_spec : ∀ {rest : List UInt8} {ptr : ℕ} {s t : UriScan},
    uriLoop ptr rest s = some t → t.availableLen ≤ 0 ∨ ∃ a b, rest = a ++ 32 :: b ∧ 32 ∉ a ∧
      a.length < s.availableLen ∧ t.uriLen = s.uriLen + a.length ∧
      t.availableLen = s.availableLen - a.length
  | [], ptr, s, t, h => by
    rw [uriLoop] at h
    split_ifs at h with hav
    cases h
    exact .inl (Int.not_lt.1 hav)
  | c :: rest, ptr, s, t, h => by
    rw [uriLoop] at h
    by_cases hgo : 0 < s.availableLen ∧ c ≠ 32
    · rw [if_pos hgo] at h
      refine (uriLoop_spec h).imp_right ?_
      rintro ⟨a, b, rfl, ha, hlt, hlen, hav⟩
      simp only at hlt hlen hav
      refine ⟨c :: a, b, rfl, ?_, ?_, ?_, ?_⟩
      · exact fun hmem => (List.mem_cons.1 hmem).elim (fun h => hgo.2 h.symm) ha
      · rw [List.length_cons]
        push_cast
        omega
      · rw [List.length_cons]
        omega
      · rw [List.length_cons]
        push_cast
        omega
    · rw [if_neg hgo] at h
      cases h
      by_cases hav : 0 < s.availableLen
      · obtain rfl : c = 32 := by
          by_contra hc
          exact hgo ⟨hav, hc⟩
        exact .inr ⟨[], rest, rfl, List.not_mem_nil, by simpa using hav, rfl, by simp⟩
      · exact .inl (Int.not_lt.1 hav)

theorem uriLoop_append : ∀ {a : List UInt8} (b : List UInt8) (ptr : ℕ) {s : UriScan}, 32 ∉ a →
    a.length < s.availableLen → ∃ t, uriLoop ptr (a ++ 32 :: b) s = some t ∧
      t.uriLen = s.uriLen + a.length ∧ t.availableLen = s.availableLen - a.length
  | [], b, ptr, s, _, _ => ⟨s, if_neg fun h => h.2 rfl, rfl, by simp⟩
  | c :: a, b, ptr, s, ha, hlt => by
    rw [List.length_cons] at hlt
    push_cast at hlt
    have hc : c ≠ 32 := fun h => ha (by rw [h]; exact List.mem_cons_self)
    rw [List.cons_append, uriLoop, if_pos ⟨by omega, hc⟩]
    obtain ⟨t, ht, hlen, hav⟩ := uriLoop_append b (ptr + 1)
      (s := ⟨s.uriLen + 1, s.availableLen - 1, if c = 63 then some (ptr + 1) else s.pArgs⟩)
      (fun h => ha (List.mem_cons_of_mem _ h)) (by simp only; omega)
    refine ⟨t, ht, ?_, ?_⟩
    · rw [hlen, List.length_cons]
      simp only
      omega
    · rw [hav, List.length_cons]
      push_cast
      omega

/-! ## The version -/

/-- The members a request keeps behind its URI. -/
structure SameRequest (h h' : HttpRequest) : Prop where
  buffer : h'.buffer = h.buffer
  len : h'.len = h.len
  methodLen : h'.methodLen = h.methodLen
  uri : h'.uri = h.uri
  maxUriLen : h'.maxUriLen = h.maxUriLen

/-- The version ends with a carriage return, there is room for it, and a byte follows. -/
structure VersionFound (mem b version tail : List UInt8) (h h' : HttpRequest) : Prop where
  bytes : b = version ++ 13 :: tail
  terminator : 13 ∉ version ∧ 0 ∉ version
  room : toInt32 version.length ≤ h.availableLen
  nonempty : tail ≠ []
  availableLen : h'.availableLen = toInt32 (h.availableLen - toInt32 version.length)
  pVersion : ∃ p, h'.pVersion = some p ∧ mem.drop p = b
  versionLen : h'.versionLen = toInt32 version.length
  headers : ∃ p, h'.headers = some p ∧ mem.drop p = headersOf tail

/-- All that can come of the version behind the blank at `ptr`. -/
inductive VersionOutcome (mem b : List UInt8) (h : HttpRequest) : Result Bool → Prop
  | overrun (h' : HttpRequest) : VersionOutcome mem b h (.error .overrun, h')
  | throw (what : String) (h' : HttpRequest) :
      VersionOutcome mem b h (.error (.runtimeError what), h')
  | noHeaders {h' : HttpRequest} : strchr 13 b = some none → SameRequest h h' →
      h'.headers = none → VersionOutcome mem b h (.ok true, h')
  | found {version tail : List UInt8} {h' : HttpRequest} : SameRequest h h' →
      VersionFound mem b version tail h h' → VersionOutcome mem b h (.ok true, h')

theorem drop_append {a b : List UInt8} {i : ℕ} (h : mem.drop i = a ++ b) :
    mem.drop (i + a.length) = b := by
  rw [← List.drop_drop, h, List.drop_left]

theorem strchr_blank (b : List UInt8) :
    strchr 13 (32 :: b) = (strchr 13 b).map (Option.map (· + 1)) := by
  rw [strchr, if_neg (by decide), if_neg (by decide)]

theorem parseVersion_found (addr : ℕ) (h : HttpRequest) {version tail : List UInt8}
    (hdrop : mem.drop ptr = 32 :: (version ++ 13 :: tail)) (hterm : 13 ∉ version ∧ 0 ∉ version) :
    (h.availableLen < toInt32 version.length → ∃ what h',
        parseVersion mem addr ptr h = (.error (.runtimeError what), h')) ∧
      (toInt32 version.length ≤ h.availableLen → tail = [] → ∃ h',
        parseVersion mem addr ptr h = (.error .overrun, h')) ∧
      (toInt32 version.length ≤ h.availableLen → tail ≠ [] → ∃ h',
        parseVersion mem addr ptr h = (.ok true, h') ∧ SameRequest h h' ∧
          VersionFound mem (version ++ 13 :: tail) version tail h h') := by
  have hfind : strchr 13 (mem.drop ptr) = some (some (version.length + 1)) := by
    rw [hdrop, strchr_blank, strchr_append hterm.1 hterm.2]
    rfl
  have hp : mem.drop (ptr + (version.length + 1)) = 13 :: tail := by
    have := drop_append (a := 32 :: version) (b := 13 :: tail) hdrop
    rwa [List.length_cons] at this
  have hnext := (getElem?_of_drop hp).2
  have hversion : mem.drop (ptr + 1) = version ++ 13 :: tail := (getElem?_of_drop hdrop).2
  have hdiff : pointerDiff addr (some (ptr + (version.length + 1))) (ptr + 1) = version.length := by
    unfold pointerDiff
    push_cast
    omega
  simp only [parseVersion, hfind, Option.map_some, hdiff]
  refine ⟨fun hlt => ?_, fun hle htail => ?_, fun hle htail => ?_⟩
  · rw [if_pos hlt]
    exact ⟨_, _, rfl⟩
  · subst htail
    have hnone : mem[ptr + (version.length + 1) + 1]? = none := by
      rw [List.getElem?_eq_none_iff]
      exact List.drop_eq_nil_iff.1 hnext
    rw [if_neg (Int.not_lt.2 hle), hnone]
    exact ⟨_, rfl⟩
  · obtain ⟨c, tail, rfl⟩ := List.exists_cons_of_ne_nil htail
    obtain ⟨hc, hrest⟩ := getElem?_of_drop hnext
    rw [if_neg (Int.not_lt.2 hle), hc]
    by_cases hlf : c = 10
    · subst hlf
      refine ⟨_, congrArg (Prod.mk _) (if_pos rfl), ⟨rfl, rfl, rfl, rfl, rfl⟩, rfl, hterm, hle,
        htail, rfl, ⟨_, rfl, hversion⟩, by dsimp only, _, rfl, hrest⟩
    · refine ⟨_, congrArg (Prod.mk _) (if_neg hlf), ⟨rfl, rfl, rfl, rfl, rfl⟩, rfl, hterm, hle,
        htail, rfl, ⟨_, rfl, hversion⟩, by dsimp only, _, rfl, ?_⟩
      rw [hp]
      unfold headersOf
      split
      · next heq => exact absurd (List.cons.inj heq).1 hlf
      · rfl

theorem parseVersion_spec (addr : ℕ) (h : HttpRequest) {b : List UInt8}
    (hdrop : mem.drop ptr = 32 :: b) :
    VersionOutcome mem b h (parseVersion mem addr ptr h) := by
  cases hfind : strchr 13 b with
  | none =>
    have hnone : strchr 13 (mem.drop ptr) = none := by
      rw [hdrop, strchr_blank, hfind]
      rfl
    simp only [parseVersion, hnone]
    exact .overrun _
  | some found =>
    cases found with
    | none =>
      have hnone : strchr 13 (mem.drop ptr) = some none := by
        rw [hdrop, strchr_blank, hfind]
        rfl
      simp only [parseVersion, hnone, Option.map_none]
      split_ifs
      · exact .throw _ _
      · exact .noHeaders hfind ⟨rfl, rfl, rfl, rfl, rfl⟩ rfl
    | some i =>
      obtain ⟨version, tail, rfl, rfl, hterm⟩ := strchr_found hfind
      obtain ⟨hshort, hend, hok⟩ := parseVersion_found addr h hdrop hterm
      by_cases hroom : toInt32 version.length ≤ h.availableLen
      · by_cases htail : tail = []
        · obtain ⟨h', heq⟩ := hend hroom htail
          rw [heq]
          exact .overrun _
        · obtain ⟨h', heq, hsame, hfound⟩ := hok hroom htail
          rw [heq]
          exact .found hsame hfound
      · obtain ⟨what, h', heq⟩ := hshort (Int.not_le.1 hroom)
        rw [heq]
        exact .throw _ _

/-! ## The request line -/

/-- The request behind its URI. -/
structure UriRead (h h₁ : HttpRequest) (uri : List UInt8) : Prop where
  buffer : h₁.buffer = h.buffer
  len : h₁.len = h.len
  methodLen : h₁.methodLen = h.methodLen
  maxUriLen : h₁.maxUriLen = h.maxUriLen
  taken : h₁.uri = uri.take h.maxUriLen
  availableLen : h₁.availableLen = h.availableLen - uri.length

theorem parseUri_found (addr : ℕ) {b : ℕ} {uri rest : List UInt8}
    (hurl : b + h.methodLen + 1 = (o : ℤ))
    (hdrop : mem.drop o = uri ++ 32 :: rest) (hblank : 32 ∉ uri) (hne : uri ≠ [])
    (hlen : uri.length < h.availableLen) (hmax : h.maxUriLen ≠ 0) :
    ∃ h₁, parseUri mem addr b h = parseVersion mem addr (o + uri.length) h₁ ∧ UriRead h h₁ uri := by
  obtain ⟨t, ht, htlen, htav⟩ := uriLoop_append rest o
    (s := ⟨0, h.availableLen, h.pArgs⟩) hblank hlen
  have htlen : t.uriLen = uri.length := htlen.trans (Nat.zero_add _)
  have htav : t.availableLen = h.availableLen - uri.length := htav
  have hpos : 0 < uri.length := List.length_pos_iff.2 hne
  simp only [parseUri, hurl, Int.toNat_natCast, hdrop, ht, htlen, htav]
  rw [if_neg (by omega), if_neg (by omega), if_neg (by omega)]
  refine ⟨_, rfl, rfl, rfl, rfl, rfl, ?_, rfl⟩
  simp only
  rw [List.take_append_of_le_length (Nat.min_le_left _ _), Nat.min_comm, ← List.take_take,
    List.take_length]

/-- All that can come of the bytes from the URI on. -/
theorem parseUri_spec (mem : List UInt8) (addr : ℕ) {b : ℕ} (hurl : b + h.methodLen + 1 = (o : ℤ))
    (hmax : h.maxUriLen ≠ 0) :
    (∃ e h', parseUri mem addr b h = (.error e, h') ∧ Tame (.error e : Except Abort Bool)) ∨
      ∃ uri rest h₁, mem.drop o = uri ++ 32 :: rest ∧ 32 ∉ uri ∧ uri ≠ [] ∧
        uri.length < h.availableLen ∧ UriRead h h₁ uri ∧
        parseUri mem addr b h = parseVersion mem addr (o + uri.length) h₁ := by
  cases hloop : uriLoop o (mem.drop o) ⟨0, h.availableLen, h.pArgs⟩ with
  | none =>
    simp only [parseUri, hurl, Int.toNat_natCast, hloop]
    rw [if_neg (by omega)]
    exact .inl ⟨_, _, rfl, tame_overrun⟩
  | some t =>
    obtain hav | ⟨uri, rest, hdrop, hblank, hlen, htlen, htav⟩ := uriLoop_spec hloop
    · simp only [parseUri, hurl, Int.toNat_natCast, hloop]
      rw [if_neg (by omega), if_pos hav]
      exact .inl ⟨_, _, rfl, tame_runtimeError _⟩
    · by_cases hne : uri = []
      · subst hne
        have hzero : t.uriLen = 0 := htlen
        have hav : ¬ t.availableLen ≤ 0 := by
          simp only [List.length_nil] at hlen htav
          omega
        have hc : mem[o]? = some 32 := (getElem?_of_drop hdrop).1
        simp only [parseUri, hurl, Int.toNat_natCast, hloop, hzero, Nat.add_zero, Nat.zero_min]
        rw [if_neg (by omega), if_neg hav, if_pos trivial, if_pos hc]
        exact .inl ⟨_, _, rfl, tame_runtimeError _⟩
      · obtain ⟨h₁, heq, hread⟩ := parseUri_found addr hurl hdrop hblank hne hlen hmax
        exact .inr ⟨uri, rest, h₁, hdrop, hblank, hne, hlen, hread, heq⟩

/-- The request behind its method. -/
structure MethodRead (h h₀ : HttpRequest) (method : HttpMethod) : Prop where
  buffer : h₀.buffer = h.buffer
  len : h₀.len = h.len
  maxUriLen : h₀.maxUriLen = h.maxUriLen
  availableLen : h₀.availableLen = h.availableLen
  methodLen : h₀.methodLen = if method = .get then h.methodLen - 1 else h.methodLen

theorem parse_method (addr : ℕ) {word : UInt32} {method : HttpMethod} (hheaders : h.headers = none)
    (hlen : h.len ≠ 0) (hav : h.methodLen ≤ h.availableLen) (hbuffer : h.buffer = some o)
    (hword : le32 mem o = some word) (hmethod : HttpMethod.ofWord word = some method) :
    ∃ h₀, h.parse mem addr = parseUri mem addr o h₀ ∧ MethodRead h h₀ method := by
  simp only [parse, hheaders, hbuffer, hword, hmethod]
  rw [if_neg (by decide), if_neg hlen, if_neg (Int.not_lt.2 hav)]
  exact ⟨_, rfl, hbuffer.symm, rfl, rfl, rfl, rfl⟩

/-- All that can come of the bytes of the method. -/
theorem parse_spec (mem : List UInt8) (addr : ℕ) (hheaders : h.headers = none)
    (hbuffer : h.buffer = some o) :
    (∃ e h', h.parse mem addr = (.error e, h') ∧ Tame (.error e : Except Abort Bool)) ∨
      (∃ h', h.parse mem addr = (.ok false, h') ∧
        (h.len = 0 ∨ ∃ word, le32 mem o = some word ∧ HttpMethod.ofWord word = none)) ∨
      ∃ word method h₀, h.len ≠ 0 ∧ h.methodLen ≤ h.availableLen ∧ le32 mem o = some word ∧
        HttpMethod.ofWord word = some method ∧ MethodRead h h₀ method ∧
        h.parse mem addr = parseUri mem addr o h₀ := by
  by_cases hlen : h.len = 0
  · simp only [parse, hheaders]
    rw [if_neg (by decide), if_pos hlen]
    exact .inr (.inl ⟨_, rfl, .inl hlen⟩)
  · by_cases hav : h.availableLen < h.methodLen
    · simp only [parse, hheaders]
      rw [if_neg (by decide), if_neg hlen, if_pos hav]
      exact .inl ⟨_, _, rfl, tame_runtimeError _⟩
    · cases hword : le32 mem o with
      | none =>
        simp only [parse, hheaders, hbuffer, hword]
        rw [if_neg (by decide), if_neg hlen, if_neg hav]
        exact .inl ⟨_, _, rfl, tame_overrun⟩
      | some word =>
        cases hmethod : HttpMethod.ofWord word with
        | none =>
          simp only [parse, hheaders, hbuffer, hword, hmethod]
          rw [if_neg (by decide), if_neg hlen, if_neg hav]
          exact .inr (.inl ⟨_, rfl, .inr ⟨word, rfl, hmethod⟩⟩)
        | some method =>
          obtain ⟨h₀, heq, hread⟩ := parse_method addr hheaders hlen
            (Int.not_lt.1 hav) hbuffer hword hmethod
          exact .inr (.inr ⟨word, method, h₀, hlen, Int.not_lt.1 hav, rfl, hmethod, hread, heq⟩)

theorem parse_of_headers (mem : List UInt8) (addr : ℕ) (hheaders : h.headers = some ptr) :
    h.parse mem addr = (.ok true, h) := by
  unfold parse
  rw [if_pos (by rw [hheaders]; rfl)]

theorem parse_null (mem : List UInt8) (addr len : ℕ) :
    (∃ h', (new none len).parse mem addr = (.ok false, h')) ∨
      ∃ e h', (new none len).parse mem addr = (.error e, h') ∧
        Tame (.error e : Except Abort Bool) := by
  have hheaders : ¬ (new none len).headers.isSome := Bool.false_ne_true
  unfold parse
  rw [if_neg hheaders]
  by_cases hlen : (new none len).len = 0
  · rw [if_pos hlen]
    exact .inl ⟨_, rfl⟩
  · rw [if_neg hlen]
    by_cases hav : (new none len).availableLen < (new none len).methodLen
    · rw [if_pos hav]
      exact .inr ⟨_, _, rfl, tame_runtimeError _⟩
    · rw [if_neg hav]
      exact .inr ⟨_, _, rfl, tame_overrun⟩

/-! ## The method -/

theorem ofWord_eq_some {word : UInt32} {method : HttpMethod}
    (h : HttpMethod.ofWord word = some method) : word = method.value ∧ method ≠ .unknown := by
  unfold HttpMethod.ofWord at h
  split_ifs at h with hget hhead hpost
  · cases h
    exact ⟨hget, by decide⟩
  · cases h
    exact ⟨hhead, by decide⟩
  · cases h
    exact ⟨hpost, by decide⟩

/-- The four bytes of a word. -/
theorem bytes_of_word {word : UInt32} (w₀ w₁ w₂ w₃ : ℕ) (hword : le32 mem o = some word)
    (hlt : w₀ < 256 ∧ w₁ < 256 ∧ w₂ < 256 ∧ w₃ < 256)
    (hsum : word.toNat = w₀ + 2 ^ 8 * w₁ + 2 ^ 16 * w₂ + 2 ^ 24 * w₃) :
    mem.drop o = .ofNat w₀ :: .ofNat w₁ :: .ofNat w₂ :: .ofNat w₃ :: mem.drop (o + 4) := by
  obtain ⟨b₀, b₁, b₂, b₃, rest, hdrop, hbytes⟩ := Bytes.le32_eq_some hword
  have := b₀.toNat_lt
  have := b₁.toNat_lt
  have := b₂.toNat_lt
  have := b₃.toNat_lt
  have h₀ : b₀.toNat = w₀ := by omega
  have h₁ : b₁.toNat = w₁ := by omega
  have h₂ : b₂.toNat = w₂ := by omega
  have h₃ : b₃.toNat = w₃ := by omega
  have hrest : mem.drop (o + 4) = rest := drop_append (a := [b₀, b₁, b₂, b₃]) hdrop
  rw [hdrop, hrest, ← h₀, ← h₁, ← h₂, ← h₃]
  simp only [UInt8.ofNat_toNat]

theorem method_bytes {word : UInt32} {m : HttpMethod} (hword : le32 mem o = some word)
    (hm : HttpMethod.ofWord word = some m) :
    m = .get ∧ mem.drop o = [71, 69, 84, 32] ++ mem.drop (o + 4) ∨
      m ≠ .get ∧ ∀ c, MethodBytes ((mem.drop o).take 4 ++ [c]) ∧
        mem.drop o = (mem.drop o).take 4 ++ mem.drop (o + 4) := by
  have hsplit : mem.drop o = (mem.drop o).take 4 ++ mem.drop (o + 4) := by
    rw [← List.drop_drop, List.take_append_drop]
  obtain ⟨rfl, hknown⟩ := ofWord_eq_some hm
  cases m with
  | unknown => exact absurd rfl hknown
  | get => exact .inl ⟨rfl, bytes_of_word 71 69 84 32 hword (by omega) rfl⟩
  | head =>
    refine .inr ⟨by decide, fun c => ⟨?_, hsplit⟩⟩
    rw [bytes_of_word 72 69 65 68 hword (by omega) rfl]
    exact .head c
  | post =>
    refine .inr ⟨by decide, fun c => ⟨?_, hsplit⟩⟩
    rw [bytes_of_word 80 79 83 84 hword (by omega) rfl]
    exact .post c

/-- Where the URI begins, behind a method and the byte after it. -/
theorem methodBytes_of_word {word : UInt32} {m : HttpMethod} {c : UInt8} {k : ℕ} {l : List UInt8}
    (hword : le32 mem o = some word) (hm : HttpMethod.ofWord word = some m)
    (hk : (k : ℤ) = (if m = .get then 4 - 1 else 4) + 1) (hurl : mem.drop (o + k) = c :: l) :
    ∃ method, MethodBytes method ∧ mem.drop o = method ++ c :: l := by
  obtain ⟨rfl, hbytes⟩ | ⟨hne, hbytes⟩ := method_bytes hword hm
  · obtain rfl : k = 4 := by
      rw [if_pos rfl] at hk
      omega
    exact ⟨_, .get, hurl ▸ hbytes⟩
  · obtain rfl : k = 5 := by
      rw [if_neg hne] at hk
      omega
    cases hd : mem.drop (o + 4) with
    | nil =>
      have := List.drop_eq_nil_iff.1 hd
      rw [List.drop_of_length_le (by omega)] at hurl
      cases hurl
    | cons d l' =>
      obtain rfl : l' = c :: l := (getElem?_of_drop hd).2.symm.trans hurl
      have h := hbytes d
      rw [hd] at h
      exact ⟨_, h.1, by rw [List.append_assoc]; exact h.2⟩

theorem word_of_methodBytes {method rest : List UInt8} (hmethod : MethodBytes method)
    (hdrop : mem.drop o = method ++ rest) : ∃ word m, le32 mem o = some word ∧
      HttpMethod.ofWord word = some m ∧
      (method.length : ℤ) = (if m = .get then 4 - 1 else 4) + 1 := by
  cases hmethod with
  | get => exact ⟨_, .get, Bytes.le32_of_drop hdrop, by decide, rfl⟩
  | head c => exact ⟨_, .head, Bytes.le32_of_drop hdrop, by decide, rfl⟩
  | post c => exact ⟨_, .post, Bytes.le32_of_drop hdrop, by decide, rfl⟩

/-! ## `parse` -/

/-- The request behind its request line. -/
structure LineRead (mem : List UInt8) (n : ℤ) (uri version tail : List UInt8) (h' : HttpRequest) :
    Prop where
  taken : h'.uri = uri.take 128
  availableLen : h'.availableLen = leftLen n uri version
  pVersion : ∃ p, h'.pVersion = some p ∧ mem.drop p = version ++ 13 :: tail
  versionLen : h'.versionLen = toInt32 version.length
  headers : ∃ p, h'.headers = some p ∧ mem.drop p = headersOf tail
  method : ∃ o, h'.buffer = some o ∧ 4 ≤ (mem.drop o).length
  methodLen : h'.methodLen = 3 ∨ h'.methodLen = 4

/-- A request without a carriage return: the next call parses it again. -/
structure Headerless (mem : List UInt8) (o : ℕ) (h : HttpRequest) : Prop where
  buffer : h.buffer = some o
  headers : h.headers = none
  len : h.len ≠ 0
  maxUriLen : h.maxUriLen ≠ 0
  word : ∃ word m, le32 mem o = some word ∧ HttpMethod.ofWord word = some m ∧
    (m = .get ∧ h.methodLen = 3 ∨ m ≠ .get ∧ h.methodLen = 4 ∧
      ∃ uri rest, mem.drop (o + 5) = uri ++ 32 :: rest ∧ 32 ∉ uri ∧ strchr 13 rest = some none)
  line : ∃ method uri rest, mem.drop o = method ++ (uri ++ 32 :: rest) ∧ MethodBytes method ∧
    32 ∉ uri ∧ strchr 13 rest = some none

/-- What is before the first of a byte, and what is behind it. -/
theorem split_unique {c : UInt8} {a b a' b' : List UInt8} (ha : c ∉ a) (ha' : c ∉ a')
    (h : a ++ c :: b = a' ++ c :: b') : a = a' ∧ b = b' := by
  have htake : ∀ {l r : List UInt8}, c ∉ l → (l ++ c :: r).takeWhile (· ≠ c) = l := by
    intro l r hl
    have hpos : ∀ d ∈ l, decide (d ≠ c) = true := fun d hd => decide_eq_true fun h => hl (h ▸ hd)
    rw [List.takeWhile_append_of_pos hpos]
    simp
  have heq : a = a' := by rw [← htake (r := b) ha, h, htake ha']
  subst heq
  exact ⟨rfl, (List.cons.inj (List.append_cancel_left h)).2⟩

theorem LineRead.of_found {n : ℤ} {uri rest version tail : List UInt8} {m : HttpMethod}
    {word : UInt32} {h₁ : HttpRequest} (hbuffer : h.buffer = some o) (hmethodLen : h.methodLen = 4)
    (hmax : h.maxUriLen = 128) (hav : h.availableLen = n) (hword : le32 mem o = some word)
    {h₀ : HttpRequest} (hread : MethodRead h h₀ m) (huri : UriRead h₀ h₁ uri)
    (hsame : SameRequest h₁ h') (hfound : VersionFound mem rest version tail h₁ h') :
    LineRead mem n uri version tail h' := by
  refine ⟨?_, ?_, ?_, hfound.versionLen, hfound.headers, ⟨o, ?_, ?_⟩, ?_⟩
  · rw [hsame.uri, huri.taken, hread.maxUriLen, hmax]
  · rw [hfound.availableLen, huri.availableLen, hread.availableLen, hav]
    rfl
  · rw [← hfound.bytes]
    exact hfound.pVersion
  · rw [hsame.buffer, huri.buffer, hread.buffer, hbuffer]
  · obtain ⟨b₀, b₁, b₂, b₃, rest, hdrop, -⟩ := Bytes.le32_eq_some hword
    rw [hdrop]
    simp only [List.length_cons]
    omega
  · rw [hsame.methodLen, huri.methodLen, hread.methodLen, hmethodLen]
    by_cases hget : m = .get
    · exact .inl (if_pos hget)
    · exact .inr (if_neg hget)

theorem availableLen_new (b : Option ℕ) (len : ℕ) : (new b len).availableLen = toInt32 len := by
  rw [new]

/-- A request line that there is room for is accepted. -/
theorem parse_line (addr : ℕ) {method uri version tail : List UInt8}
    (hline : RequestLine (mem.drop o) (toInt32 len) method uri version tail) (htail : tail ≠ []) :
    ∃ h', (new (some o) len).parse mem addr = (.ok true, h') ∧
      LineRead mem (toInt32 len) uri version tail h' := by
  obtain ⟨word, m, hword, hm, hmethodLen⟩ := word_of_methodBytes hline.method hline.bytes
  have hlen : len ≠ 0 := by
    rintro rfl
    exact absurd hline.four (by decide)
  have hfour : (new (some o) len).methodLen ≤ (new (some o) len).availableLen := by
    rw [availableLen_new]
    exact hline.four
  obtain ⟨h₀, heq, hread⟩ := parse_method (h := new (some o) len) addr rfl hlen hfour rfl
    hword hm
  have hav : h₀.availableLen = toInt32 len := hread.availableLen.trans (availableLen_new _ _)
  have hmax : h₀.maxUriLen = 128 := hread.maxUriLen
  have hurl : o + h₀.methodLen + 1 = ((o + method.length : ℕ) : ℤ) := by
    have hm : h₀.methodLen = if m = .get then 4 - 1 else 4 := hread.methodLen
    push_cast
    rw [hm]
    omega
  obtain ⟨h₁, heq₁, huri⟩ := parseUri_found addr hurl (drop_append hline.bytes)
    hline.blank hline.nonempty (hav ▸ hline.uriLen) (by rw [hmax]; decide)
  have hversion : mem.drop (o + method.length + uri.length) = 32 :: (version ++ 13 :: tail) :=
    drop_append (drop_append hline.bytes)
  have hroom : toInt32 version.length ≤ h₁.availableLen := by
    rw [huri.availableLen, hav]
    exact hline.versionLen
  obtain ⟨h', hok, hsame, hfound⟩ := (parseVersion_found addr h₁ hversion
    hline.terminator).2.2 hroom htail
  exact ⟨h', heq.trans (heq₁.trans hok),
    .of_found rfl rfl rfl (availableLen_new _ _) hword hread huri hsame hfound⟩

/-- All that can come of a request. -/
theorem parse_new_spec (mem : List UInt8) (addr o len : ℕ) :
    (∃ e h', (new (some o) len).parse mem addr = (.error e, h') ∧
      Tame (.error e : Except Abort Bool)) ∨
      (∃ h', (new (some o) len).parse mem addr = (.ok false, h')) ∨
      (∃ h', (new (some o) len).parse mem addr = (.ok true, h') ∧ Headerless mem o h') ∨
      ∃ method uri version tail h', (new (some o) len).parse mem addr = (.ok true, h') ∧
        RequestLine (mem.drop o) (toInt32 len) method uri version tail ∧ tail ≠ [] ∧
        LineRead mem (toInt32 len) uri version tail h' := by
  obtain htame | ⟨h', heq, -⟩ | ⟨word, m, h₀, hlen, hav, hword, hm, hread, heq⟩ :=
    parse_spec mem addr
    (h := new (some o) len) rfl rfl
  · exact .inl htame
  · exact .inr (.inl ⟨h', heq⟩)
  · rw [heq]
    have hav₀ : h₀.availableLen = toInt32 len := hread.availableLen.trans (availableLen_new _ _)
    have hfour : 4 ≤ toInt32 len := by
      rw [availableLen_new] at hav
      exact hav
    have hmax : h₀.maxUriLen = 128 := hread.maxUriLen
    have hmethodLen : h₀.methodLen = if m = .get then 4 - 1 else 4 := hread.methodLen
    obtain ⟨k, hk⟩ : ∃ k : ℕ, (k : ℤ) = (if m = .get then 4 - 1 else 4) + 1 :=
      ⟨if m = .get then 4 else 5, by split <;> rfl⟩
    have hurl : o + h₀.methodLen + 1 = ((o + k : ℕ) : ℤ) := by
      push_cast
      rw [hk, hmethodLen]
      omega
    obtain htame | ⟨uri, rest, h₁, hdrop, hblank, hne, hroom, huri, heq₁⟩ :=
      parseUri_spec mem addr hurl (by rw [hmax]; decide)
    · exact .inl htame
    · rw [heq₁]
      obtain ⟨c, l, hurl⟩ : ∃ c l, uri ++ 32 :: rest = c :: l := by
        obtain ⟨c, l, rfl⟩ := List.exists_cons_of_ne_nil hne
        exact ⟨c, _, rfl⟩
      have hspec := parseVersion_spec addr h₁ (drop_append hdrop)
      generalize parseVersion mem addr (o + k + uri.length) h₁ = res at hspec
      cases hspec with
      | overrun h' => exact .inl ⟨_, _, rfl, tame_overrun⟩
      | throw what h' => exact .inl ⟨_, _, rfl, tame_runtimeError _⟩
      | @noHeaders h' hnone hsame hheaders =>
        refine .inr (.inr (.inl ⟨_, rfl, ?_, hheaders, ?_, ?_, ⟨word, m, hword, hm, ?_⟩, ?_⟩))
        · exact (hsame.buffer.trans huri.buffer).trans hread.buffer
        · rw [hsame.len, huri.len, hread.len]
          exact hlen
        · rw [hsame.maxUriLen, huri.maxUriLen, hmax]
          decide
        · have hlen' : h'.methodLen = h₀.methodLen := hsame.methodLen.trans huri.methodLen
          rw [hlen', hmethodLen]
          by_cases hget : m = .get
          · exact .inl ⟨hget, if_pos hget⟩
          · rw [if_neg hget] at hk
            obtain rfl : k = 5 := by omega
            exact .inr ⟨hget, if_neg hget, uri, rest, hdrop, hblank, hnone⟩
        · obtain ⟨method, hbytes, hpayload⟩ := methodBytes_of_word hword hm hk (hdrop.trans hurl)
          exact ⟨method, uri, rest, by rw [hpayload, ← hurl], hbytes, hblank, hnone⟩
      | @found version tail h' hsame hfound =>
        obtain ⟨method, hbytes, hpayload⟩ := methodBytes_of_word hword hm hk (hdrop.trans hurl)
        refine .inr (.inr (.inr ⟨method, uri, version, tail, h', rfl, ⟨?_, hbytes, hblank, hne,
          hfound.terminator, hfour, ?_, ?_⟩, hfound.nonempty,
          .of_found rfl rfl rfl (availableLen_new _ _) hword hread huri hsame hfound⟩))
        · rw [hpayload, ← hurl, hfound.bytes]
        · rw [← hav₀]
          exact hroom
        · have := hfound.room
          rwa [huri.availableLen, hav₀] at this

/-- Parsing again finds no carriage return either. -/
theorem Headerless.parse (addr : ℕ) (hh : Headerless mem o h) :
    (∃ e h', h.parse mem addr = (.error e, h') ∧ Tame (.error e : Except Abort Bool)) ∨
      ∃ h', h.parse mem addr = (.ok true, h') ∧ Headerless mem o h' := by
  obtain ⟨word, m, hword, hm, hcase⟩ := hh.word
  obtain htame | ⟨h', heq, hbad⟩ | ⟨word', m', h₀, hlen, hav, hword', hm', hread, heq⟩ :=
    parse_spec mem addr hh.headers hh.buffer
  · exact .inl htame
  · obtain hlen | ⟨word', hword', hnone⟩ := hbad
    · exact absurd hlen hh.len
    · obtain rfl := Option.some.inj (hword.symm.trans hword')
      rw [hnone] at hm
      cases hm
  · obtain rfl := Option.some.inj (hword.symm.trans hword')
    obtain rfl := Option.some.inj (hm.symm.trans hm')
    have hmax : h₀.maxUriLen ≠ 0 := hread.maxUriLen ▸ hh.maxUriLen
    rw [heq]
    obtain ⟨rfl, hthree⟩ | ⟨hget, hfour, uri, rest, hdrop, hblank, hnone⟩ := hcase
    · have hurl : o + h₀.methodLen + 1 = ((o + 3 : ℕ) : ℤ) := by
        rw [hread.methodLen, if_pos rfl, hthree]
        push_cast
        omega
      obtain htame | ⟨uri, rest, h₁, hdrop, hblank, hne, -, -, -⟩ :=
        parseUri_spec mem addr hurl hmax
      · exact .inl htame
      · obtain ⟨-, hbytes⟩ | ⟨hget, -⟩ := method_bytes hword hm
        · have hdrop' : mem.drop (o + 3) = [] ++ 32 :: mem.drop (o + 4) :=
            drop_append (a := [71, 69, 84]) hbytes
          exact absurd (split_unique hblank List.not_mem_nil (hdrop.symm.trans hdrop')).1 hne
        · exact absurd rfl hget
    · have hurl : o + h₀.methodLen + 1 = ((o + 5 : ℕ) : ℤ) := by
        rw [hread.methodLen, if_neg hget, hfour]
        push_cast
        omega
      obtain htame | ⟨uri', rest', h₁, hdrop', hblank', -, -, huri, heq₁⟩ :=
        parseUri_spec mem addr hurl hmax
      · exact .inl htame
      · obtain ⟨rfl, rfl⟩ := split_unique hblank hblank' (hdrop.symm.trans hdrop')
        rw [heq₁]
        have hspec := parseVersion_spec addr h₁ (drop_append hdrop)
        generalize parseVersion mem addr (o + 5 + uri.length) h₁ = res at hspec
        cases hspec with
        | overrun h' => exact .inl ⟨_, _, rfl, tame_overrun⟩
        | throw what h' => exact .inl ⟨_, _, rfl, tame_runtimeError _⟩
        | @noHeaders h' hnone' hsame hheaders =>
          refine .inr ⟨_, rfl, ?_, hheaders, ?_, ?_, ⟨word, m, hword, hm, .inr ⟨hget, ?_, uri, rest,
            hdrop, hblank, hnone⟩⟩, hh.line⟩
          · exact ((hsame.buffer.trans huri.buffer).trans hread.buffer).trans hh.buffer
          · rw [hsame.len, huri.len, hread.len]
            exact hh.len
          · rw [hsame.maxUriLen, huri.maxUriLen]
            exact hmax
          · rw [hsame.methodLen, huri.methodLen, hread.methodLen, if_neg hget, hfour]
        | @found version tail h' hsame hfound =>
          rw [hfound.bytes, Bytes.strchr_append hfound.terminator.1 hfound.terminator.2] at hnone
          cases hnone

/-! ## Headers -/

theorem drop_name {p i : ℕ} {name before l : List UInt8} (h : mem.drop p = before ++ (name ++ l))
    (hi : before.length = i) : mem.drop (p + i + name.length) = l := by
  subst hi
  exact drop_append (drop_append h)

theorem headerValue_ok {host : List UInt8} (hvalue : headerValue mem ptr = .ok host) :
    host = [] ∨ ∃ rest, mem.drop ptr = host ++ 13 :: 10 :: rest ∧ 13 ∉ host ∧ 0 ∉ host := by
  obtain ⟨found, hfound, hvalue⟩ := bind_ok hvalue
  cases found with
  | none => exact .inl (Except.ok.inj hvalue).symm
  | some n =>
    obtain ⟨c, hc, hvalue⟩ := bind_ok hvalue
    obtain ⟨a, b, hdrop, rfl, hcr, hzero⟩ := strchr_found (checked_ok hfound)
    have hvalue := Except.ok.inj hvalue
    by_cases hlf : c = 10
    · subst hlf
      rw [if_pos rfl, hdrop, List.take_left] at hvalue
      subst hvalue
      have hb : mem.drop (ptr + a.length) = 13 :: b := drop_append hdrop
      have hrest := (getElem?_of_drop hb).2
      rw [drop_of_getElem? (checked_ok hc)] at hrest
      exact .inr ⟨_, hrest ▸ hdrop, hcr, hzero⟩
    · rw [if_neg hlf] at hvalue
      exact .inl hvalue.symm

theorem headerValue_append {host rest : List UInt8}
    (hdrop : mem.drop ptr = host ++ 13 :: 10 :: rest) (hcr : 13 ∉ host) (hzero : 0 ∉ host) :
    headerValue mem ptr = .ok host := by
  have hlf : mem[ptr + host.length + 1]? = some 10 :=
    (getElem?_of_drop (getElem?_of_drop (drop_append hdrop)).2).1
  unfold headerValue
  rw [hdrop, strchr_append hcr hzero]
  simp only [checked, bind, Except.bind, hlf, if_true]
  rw [List.take_left]

theorem tame_headerValue (mem : List UInt8) (ptr : ℕ) : Tame (headerValue mem ptr) := by
  refine (tame_checked _).bind fun found _ => ?_
  cases found with
  | none => exact tame_ok _
  | some n => exact (tame_checked _).bind fun _ _ => tame_ok _

theorem tame_searchHeader (mem : List UInt8) (p : ℕ) (name : List UInt8) :
    Tame (searchHeader mem p name) := by
  refine (tame_checked _).bind fun found _ => ?_
  cases found with
  | none => exact tame_ok _
  | some i =>
    refine (tame_checked _).bind fun c _ => ?_
    by_cases hc : c = 58
    · rw [if_pos hc]
      exact (tame_checked _).bind fun n _ => tame_headerValue mem _
    · rw [if_neg hc]
      exact tame_ok _

/-- What `searchHeader` finds stands behind the first place of the name. -/
theorem searchHeader_found {p : ℕ} {name value : List UInt8}
    (hsearch : searchHeader mem p name = .ok value) :
    value = [] ∨ NameLine name (mem.drop p) value := by
  obtain ⟨found, hfound, hsearch⟩ := bind_ok hsearch
  cases found with
  | none => exact .inl (Except.ok.inj hsearch).symm
  | some i =>
    obtain ⟨c, hc, hsearch⟩ := bind_ok hsearch
    by_cases hcolon : c = 58
    · subst hcolon
      rw [if_pos rfl] at hsearch
      obtain ⟨n, hn, hsearch⟩ := bind_ok hsearch
      obtain ⟨before, l, hdrop, rfl, hzero, hfirst⟩ := Bytes.strstr_found (checked_ok hfound)
      obtain ⟨d, b, hblanks, hd⟩ := Bytes.skip_found (checked_ok hn)
      have hl : l = 58 :: (List.replicate n 32 ++ d :: b) := by
        rw [← drop_name hdrop rfl, drop_of_getElem? (checked_ok hc), hblanks]
      have hvalue := drop_append hblanks
      rw [List.length_replicate] at hvalue
      refine (headerValue_ok hsearch).imp_right ?_
      rintro ⟨rest, hline, hterm⟩
      rw [hvalue] at hline
      refine ⟨⟨before, n, rest, ?_, hzero, hfirst⟩, fun hhead => ?_, hterm⟩
      · rw [hdrop, hl, hline]
      · cases value with
        | nil => cases hhead
        | cons e value => exact hd ((List.cons.inj hline).1.trans (Option.some.inj hhead))
    · rw [if_neg hcolon] at hsearch
      exact .inl (Except.ok.inj hsearch).symm

theorem searchHeader_name {p : ℕ} {name value : List UInt8}
    (hline : NameLine name (mem.drop p) value) : searchHeader mem p name = .ok value := by
  obtain ⟨before, n, rest, hdrop, hzero, hfirst⟩ := hline.bytes
  have hcolon := drop_name hdrop rfl
  obtain ⟨hc, hblanks⟩ := getElem?_of_drop hcolon
  have hvalue := drop_append hblanks
  rw [List.length_replicate] at hvalue
  have hskip : skip 32 (mem.drop (p + before.length + name.length + 1)) = some n := by
    rw [hblanks]
    cases value with
    | nil => exact Bytes.skip_append (by decide) n
    | cons d value => exact Bytes.skip_append (fun h => hline.blank (congrArg some h)) n
  have hfind : strstr name (mem.drop p) = some (some before.length) := by
    rw [hdrop]
    exact Bytes.strstr_append hzero (hdrop ▸ hfirst)
  unfold searchHeader
  rw [hfind]
  simp only [checked, bind, Except.bind, hc, hskip, if_true]
  exact headerValue_append hvalue hline.terminator.1 hline.terminator.2

theorem hostLine_iff {headers host : List UInt8} :
    HostLine headers host ↔ NameLine hostName headers host :=
  ⟨fun h => ⟨h.bytes, h.blank, h.terminator⟩, fun h => ⟨h.bytes, h.blank, h.terminator⟩⟩

/-- What `searchHeader` finds is in the first `Host` header. -/
theorem searchHeader_ok {p : ℕ} {host : List UInt8}
    (hsearch : searchHeader mem p hostName = .ok host) :
    host = [] ∨ HostLine (mem.drop p) host :=
  (searchHeader_found hsearch).imp_right hostLine_iff.2

theorem searchHeader_line {p : ℕ} {host : List UInt8} (hline : HostLine (mem.drop p) host) :
    searchHeader mem p hostName = .ok host :=
  searchHeader_name (hostLine_iff.1 hline)

theorem getHeader_of_headers (mem : List UInt8) (addr : ℕ) {p : ℕ} (hp : h.headers = some p) :
    h.getHeader mem addr hostName =
    (if h.availableLen < 4 then
      .error (.runtimeError "[HttpRequest] getHeader: not enough bytes to read header")
    else searchHeader mem p hostName, h) := by
  simp only [getHeader, parse_of_headers mem addr hp, hp]
  by_cases hshort : h.availableLen < 4
  · rw [if_pos hshort, if_pos (.inr hshort)]
  · rw [if_neg hshort, if_neg]
    rintro (hnil | hlt)
    · cases hnil
    · exact hshort hlt

theorem get_of_headers {α : Type} (mem : List UInt8) (addr : ℕ) {p : ℕ}
    (hp : h.headers = some p) (member : HttpRequest → α) :
    h.get mem addr member = (.ok (member h), h) := by
  simp only [get, parse_of_headers mem addr hp]

/-- Without headers, the search for one does not come to a result. -/
theorem Headerless.getHeader (addr : ℕ) (hh : Headerless mem o h) (name : List UInt8) :
    ∃ e h', h.getHeader mem addr name = (.error e, h') ∧ Tame (.error e : Except Abort Bool) := by
  obtain ⟨e, h', heq, htame⟩ | ⟨h', heq, hh'⟩ := hh.parse addr
  · simp only [HttpRequest.getHeader, heq]
    exact ⟨e, h', rfl, htame⟩
  · simp only [HttpRequest.getHeader, heq, hh'.headers]
    by_cases hshort : name.length = 0 ∨ h'.availableLen < name.length
    · rw [if_pos hshort]
      exact ⟨_, _, rfl, tame_runtimeError _⟩
    · rw [if_neg hshort]
      exact ⟨_, _, rfl, tame_overrun⟩

end HttpRequest

end DStreamon
