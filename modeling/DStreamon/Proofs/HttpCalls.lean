import DStreamon.HttpCalls
import DStreamon.Proofs.HttpHeaders

/-!
# Requests that are parsed once

Once `headers` is set nothing is parsed again, so all answers are those of one request.  A request
that is rejected before its URI is parsed is left as it was.  In between, the calls find members
that the last attempt has changed.
-/

namespace DStreamon

open Bytes (le32)
open HttpRequest (LineRead RequestLine headersOf pointerDiff uriLoop)

namespace HttpSession

variable {mem : List UInt8} {addr : ℕ} {s : HttpSession} {h h' : HttpRequest} {c : HttpCall}

theorem toInt32_le (n : ℕ) : toInt32 n ≤ n := by
  rw [toInt32, Int.bmod]
  omega

/-- What every call keeps, all calls keep. -/
theorem after_keeps {I : HttpSession → Prop} (hstep : ∀ s c, I s → I (s.call mem addr c).2) :
    ∀ (calls : List HttpCall) {s : HttpSession}, I s → I (s.after mem addr calls)
  | [], _, hs => hs
  | c :: calls, _, hs => after_keeps hstep calls (hstep _ c hs)

/-! ## A request that is accepted -/

/-- The request is the one that was parsed, and the strings that are kept are its own. -/
structure Settled (mem : List UInt8) (h : HttpRequest) (s : HttpSession) : Prop where
  request : s.request = h
  sMethod : s.sMethod = [] ∨ copy mem h.buffer h.methodLen = .ok s.sMethod
  version : s.version = [] ∨ copy mem h.pVersion h.versionLen = .ok s.version

theorem kept_of {t : List UInt8} {p : Option ℕ} {n : ℤ}
    (ht : t = [] ∨ copy mem p n = .ok t) : kept mem true t p n = copy mem p n := by
  unfold kept
  rcases ht with rfl | ht
  · rw [if_pos ⟨rfl, rfl⟩]
  · by_cases hnil : t = []
    · rw [if_pos ⟨rfl, hnil⟩]
    · rw [if_neg fun h => hnil h.2, ht]

/-- The answers of a request that is parsed. -/
def final (mem : List UInt8) (addr : ℕ) (h : HttpRequest) (c : HttpCall) : Answer :=
  (⟨h, [], []⟩ : HttpSession).answer mem addr c

/-- Parsing is all that a call does to the request. -/
theorem call_request (hparse : h.parse mem addr = (.ok true, h'))
    (hagain : h'.parse mem addr = (.ok true, h')) (t v : List UInt8) :
    (⟨h, t, v⟩ : HttpSession).call mem addr c = (⟨h', t, v⟩ : HttpSession).call mem addr c := by
  cases c <;>
    simp only [call, getMethodString, getVersion, HttpRequest.getMethod, HttpRequest.getUri,
      HttpRequest.getHeader, HttpRequest.get, hparse, hagain] <;> rfl

theorem Settled.call (hparse : h.parse mem addr = (.ok true, h)) (hs : Settled mem h s) :
    (s.call mem addr c).1 = final mem addr h c ∧ Settled mem h (s.call mem addr c).2 := by
  obtain ⟨req, t, v⟩ := s
  obtain ⟨rfl, ht, hv⟩ := hs
  dsimp only at ht hv hparse ⊢
  unfold final answer
  cases c with
  | parse =>
    simp only [HttpSession.call, hparse]
    exact ⟨rfl, rfl, ht, hv⟩
  | getMethod =>
    simp only [HttpSession.call, HttpRequest.getMethod, HttpRequest.get, hparse]
    exact ⟨rfl, rfl, ht, hv⟩
  | getUri =>
    simp only [HttpSession.call, HttpRequest.getUri, HttpRequest.get, hparse]
    exact ⟨rfl, rfl, ht, hv⟩
  | getHeader name =>
    simp only [HttpSession.call, HttpRequest.getHeader, hparse]
    split_ifs
    · exact ⟨rfl, rfl, ht, hv⟩
    · cases req.headers with
      | none => exact ⟨rfl, rfl, ht, hv⟩
      | some p =>
        dsimp only
        cases HttpRequest.searchHeader mem p name <;> exact ⟨rfl, rfl, ht, hv⟩
  | getMethodString =>
    simp only [HttpSession.call, getMethodString, hparse, kept_of ht, kept_of (.inl rfl)]
    cases hcopy : copy mem req.buffer req.methodLen with
    | error e => exact ⟨rfl, rfl, ht, hv⟩
    | ok text => exact ⟨rfl, rfl, .inr hcopy, hv⟩
  | getVersion =>
    simp only [HttpSession.call, getVersion, hparse, kept_of hv, kept_of (.inl rfl)]
    cases hcopy : copy mem req.pVersion req.versionLen with
    | error e => exact ⟨rfl, rfl, ht, hv⟩
    | ok text => exact ⟨rfl, rfl, ht, .inr hcopy⟩

/-- A request that parses at once gives the same answers whatever is called. -/
theorem answer_of_parsed {o len : ℕ} (hparse : (HttpRequest.new (some o) len).parse mem addr =
      (.ok true, h)) (hagain : h.parse mem addr = (.ok true, h)) (calls : List HttpCall) :
    ((new o len).after mem addr calls).answer mem addr c = final mem addr h c := by
  have hnew : ∀ c, (new o len).call mem addr c = (⟨h, [], []⟩ : HttpSession).call mem addr c :=
    fun c => call_request hparse hagain [] []
  have hstart : Settled mem h ⟨h, [], []⟩ := ⟨rfl, .inl rfl, .inl rfl⟩
  cases calls with
  | nil => exact congrArg Prod.fst (hnew c)
  | cons c' calls =>
    have hs : Settled mem h (((new o len).call mem addr c').2.after mem addr calls) := by
      refine after_keeps (fun s c hs => (hs.call hagain).2) calls ?_
      rw [hnew]
      exact (hstart.call hagain).2
    exact (hs.call hagain).1

theorem copy_bounded {p : Option ℕ} {n : ℤ} {i : ℕ} (hp : p = some i)
    (hn : n ≤ (mem.drop i).length) (hi : i ≤ mem.length) :
    copy mem p n ≠ .error (.abort .overrun) := by
  subst hp
  rw [List.length_drop] at hn
  unfold copy
  split_ifs with hneg
  · simp
  · dsimp only
    rw [if_pos (by omega)]
    simp

/-- The answers of a request line with a zero among its headers read the buffer only. -/
theorem final_bounded {n : ℤ} {uri version tail : List UInt8}
    (hread : LineRead mem n uri version tail h) (hzero : 0 ∈ headersOf tail)
    (hagain : h.parse mem addr = (.ok true, h)) :
    final mem addr h c ≠ .error (.abort .overrun) := by
  obtain ⟨p, hp, hdrop⟩ := hread.headers
  unfold final answer
  cases c with
  | parse => simp [HttpSession.call, lift, hagain]
  | getMethod => simp [HttpSession.call, lift, HttpRequest.getMethod, HttpRequest.get, hagain]
  | getUri => simp [HttpSession.call, lift, HttpRequest.getUri, HttpRequest.get, hagain]
  | getHeader name plain =>
    simp only [HttpSession.call, HttpRequest.getHeader, hagain, hp]
    split_ifs
    · simp [lift]
    · obtain ⟨value, hvalue⟩ := HttpRequest.searchHeader_total plain (hdrop ▸ hzero)
      simp [lift, hvalue]
  | getMethodString =>
    obtain ⟨o, ho, hlength⟩ := hread.method
    have hcopy : copy mem h.buffer h.methodLen ≠ .error (.abort .overrun) := by
      refine copy_bounded ho ?_ ?_
      · rcases hread.methodLen with hl | hl <;> omega
      · rw [List.length_drop] at hlength
        omega
    simp only [HttpSession.call, getMethodString, hagain, kept_of (.inl rfl)]
    cases hc : copy mem h.buffer h.methodLen with
    | error e =>
      rw [hc] at hcopy
      simpa using hcopy
    | ok text => simp
  | getVersion =>
    obtain ⟨q, hq, hversion⟩ := hread.pVersion
    have hlength := congrArg List.length hversion
    rw [List.length_append, List.length_cons, List.length_drop] at hlength
    have hcopy : copy mem h.pVersion h.versionLen ≠ .error (.abort .overrun) := by
      refine copy_bounded hq ?_ (by omega)
      have := toInt32_le version.length
      rw [hread.versionLen, List.length_drop]
      omega
    simp only [HttpSession.call, getVersion, hagain, kept_of (.inl rfl)]
    cases hc : copy mem h.pVersion h.versionLen with
    | error e =>
      rw [hc] at hcopy
      simpa using hcopy
    | ok text => simp

/-! ## A request that is rejected -/

/-- The members that decide how the buffer is parsed are as they were made. -/
structure Untouched (mem : List UInt8) (h : HttpRequest) : Prop where
  headers : h.headers = none
  buffer : h.buffer = some 0
  len : h.len = mem.length
  availableLen : h.availableLen = toInt32 mem.length
  methodLen : h.methodLen = 4

/-- The request is not accepted, nothing outside is read, and it is left as it was. -/
structure Rejects (mem : List UInt8) (r : HttpRequest.Result Bool) : Prop where
  rejected : r.1 ≠ .ok true
  bounded : r.1 ≠ .error .overrun
  untouched : Untouched mem r.2

/-- A buffer that is not empty and long enough for a method is parsed from its first word on. -/
theorem rejects_of_word (hh : Untouched mem h)
    (hword : ¬toInt32 mem.length < 4 → ∃ word, le32 mem 0 = some word ∧
      (HttpMethod.ofWord word = none ∨ ∃ m, HttpMethod.ofWord word = some m ∧ m ≠ .get ∧
        mem[5]? = some 32)) : Rejects mem (h.parse mem addr) := by
  unfold HttpRequest.parse
  rw [if_neg (by rw [hh.headers]; decide)]
  by_cases hlen : h.len = 0
  · rw [if_pos hlen]
    exact ⟨by simp, by simp, hh⟩
  · rw [if_neg hlen]
    by_cases hshort : h.availableLen < h.methodLen
    · rw [if_pos hshort]
      exact ⟨by simp, by simp, hh⟩
    · rw [if_neg hshort]
      have hlong : ¬toInt32 mem.length < 4 := by rwa [hh.availableLen, hh.methodLen] at hshort
      obtain ⟨word, hword, hnone | ⟨m, hm, hget, hblank⟩⟩ := hword hlong
      · simp only [hh.buffer, hword, hnone]
        exact ⟨by simp, by simp, hh.headers, rfl, hh.len, hh.availableLen, hh.methodLen⟩
      · have hurl : ((0 : ℕ) : ℤ) + h.methodLen + 1 = (5 : ℕ) := by
          rw [hh.methodLen]
          rfl
        have hloop : uriLoop 5 (mem.drop 5) ⟨0, h.availableLen, h.pArgs⟩ =
            some ⟨0, h.availableLen, h.pArgs⟩ := by
          rw [Bytes.drop_of_getElem? hblank, uriLoop, if_neg fun h => h.2 rfl]
        have hav : ¬h.availableLen ≤ 0 := by
          rw [hh.availableLen]
          omega
        simp only [hh.buffer, hword, hm, if_neg hget, HttpRequest.parseUri, hurl,
          Int.toNat_natCast, hloop, Nat.add_zero, Nat.zero_min]
        rw [if_neg (by omega), if_neg hav, if_pos trivial, if_pos hblank]
        exact ⟨by simp, by simp, hh.headers, rfl, hh.len, hh.availableLen, hh.methodLen⟩

/-- No call changes a request that is rejected, or keeps a string of it. -/
theorem Untouched.call (hrejects : ∀ h, Untouched mem h → Rejects mem (h.parse mem addr))
    (hh : Untouched mem s.request) : (s.call mem addr c).1 ≠ .error (.abort .overrun) ∧
      (s.answer mem addr .parse) ≠ .ok (.parsed true) ∧
      Untouched mem (s.call mem addr c).2.request := by
  obtain ⟨req, t, v⟩ := s
  dsimp only at hh
  obtain ⟨hr, hb, hu⟩ := hrejects req hh
  unfold answer
  cases hparse : req.parse mem addr with
  | mk r h' =>
    rw [hparse] at hr hb hu
    dsimp only at hr hb hu
    cases r with
    | error e =>
      have hb : e ≠ .overrun := fun he => hb (congrArg _ he)
      cases c <;> simp [HttpSession.call, lift, getMethodString, getVersion,
        HttpRequest.getMethod, HttpRequest.getUri, HttpRequest.getHeader, HttpRequest.get, hparse,
        hb, hu]
    | ok ok =>
      obtain rfl : ok = false := by simpa using hr
      cases c <;> simp [HttpSession.call, lift, getMethodString, getVersion, kept,
        HttpRequest.getMethod, HttpRequest.getUri, HttpRequest.getHeader, HttpRequest.get, hparse,
        hu]

theorem untouched_new : Untouched mem (new 0 mem.length).request :=
  ⟨rfl, rfl, rfl, HttpRequest.availableLen_new _ _, rfl⟩

/-- Whatever is called, a request that is left as it was is rejected again. -/
theorem stable_of_rejects (hrejects : ∀ h, Untouched mem h → Rejects mem (h.parse mem addr)) :
    Stable mem addr := by
  have hafter : ∀ calls, Untouched mem ((new 0 mem.length).after mem addr calls).request :=
    fun calls => after_keeps (I := fun s => Untouched mem s.request)
      (fun _ _ hs => (Untouched.call hrejects hs).2.2) calls untouched_new
  have hrejected : ∀ calls,
      ((new 0 mem.length).after mem addr calls).answer mem addr .parse ≠ .ok (.parsed true) :=
    fun calls => (Untouched.call hrejects (hafter calls) (c := .parse)).2.1
  exact ⟨fun calls c => (Untouched.call hrejects (hafter calls)).1,
    fun calls more c h => absurd h (hrejected calls), fun _ => hrejected⟩

theorem stable_of_line {method uri version tail : List UInt8}
    (hline : RequestLine mem (toInt32 mem.length) method uri version tail) (htail : tail ≠ [])
    (hzero : 0 ∈ headersOf tail) : Stable mem addr := by
  obtain ⟨h, hparse, hread⟩ := HttpRequest.parse_line (o := 0) addr hline htail
  obtain ⟨p, hp, -⟩ := hread.headers
  have hagain := HttpRequest.parse_of_headers mem addr hp
  have hanswer : ∀ calls c, ((new 0 mem.length).after mem addr calls).answer mem addr c =
      final mem addr h c := fun calls c => answer_of_parsed hparse hagain calls
  have hok : final mem addr h .parse = .ok (.parsed true) := by
    simp [final, answer, HttpSession.call, lift, hagain]
  refine ⟨fun calls c => ?_, fun calls more c _ => ?_, fun h => absurd ?_ h⟩
  · rw [hanswer]
    exact final_bounded hread hzero hagain
  · rw [hanswer, hanswer]
  · exact (hanswer [] .parse).trans hok

/-- Whatever is called on a buffer that is rejected for good or has a whole request line: the calls
read the buffer only, and what the first of them find is what all find. -/
theorem calls_stable (mem : List UInt8) (addr : ℕ) (hsound : Sound mem) : Stable mem addr := by
  cases hsound with
  | short hshort =>
    exact stable_of_rejects fun h hh => rejects_of_word hh fun hlong => absurd hshort hlong
  | method hmethod =>
    refine stable_of_rejects fun h hh => rejects_of_word hh fun hlong => ?_
    have := toInt32_le mem.length
    obtain ⟨word, hword⟩ := Bytes.le32_of_lt (m := mem) (i := 0) (by omega)
    exact ⟨word, hword, .inl (hmethod word hword)⟩
  | blank hword hm hget hblank =>
    exact stable_of_rejects fun h hh => rejects_of_word hh fun _ =>
      ⟨_, hword, .inr ⟨_, hm, hget, hblank⟩⟩
  | line hline htail hzero => exact stable_of_line hline htail hzero

/-- `GET / V`, and its line ends and a zero. -/
def minimal : List UInt8 := [71, 69, 84, 32, 47, 32, 86, 13, 10, 13, 10, 0]

theorem calls_stable_minimal : Stable minimal 0 := by
  have hline : RequestLine minimal (toInt32 minimal.length) [71, 69, 84, 32] [47] [86]
      [10, 13, 10, 0] :=
    ⟨rfl, .get, by decide, by decide, by decide, by decide, by decide, by decide⟩
  exact calls_stable minimal 0 (.line hline (by decide) (by decide))

/-- `GET /`, a blank and no line end; and two blanks behind `GET`. -/
theorem not_calls_stable : ¬Stable [71, 69, 84, 32, 47, 32, 86] 0 ∧
    ¬Stable [71, 69, 84, 32, 32, 47, 32, 86, 13, 10, 0] 0 := by
  constructor
  · intro h
    exact h.bounded [] .parse rfl
  · intro h
    have hfirst : (new 0 11).answer [71, 69, 84, 32, 32, 47, 32, 86, 13, 10, 0] 0 .parse ≠
        .ok (.parsed true) := by decide
    exact h.rejected hfirst [.parse, .parse] (by decide)

end HttpSession

end DStreamon
