import DStreamon.PacketPlus
import DStreamon.Proofs.DnsNames
import DStreamon.Proofs.HttpRequest
import DStreamon.Proofs.PacketPlus

/-!
# What the capture loop has to catch

Of all that a frame makes the constructor throw, only the full register of a request's URI is not
caught: each part of the URI is bounded, and their sum is not.
-/

namespace DStreamon.Messages

open HttpRequest (Overflows RequestLine HostLine LineRead Headerless hostName leftLen headersOf)

namespace PacketPlus

variable {mem : List UInt8} {addr f : ℕ} {map map' : Registers} {bytes : List UInt8}

/-! ## Registers -/

theorem append_empty (bytes : List UInt8) : (⟨[]⟩ : HashedBuffer).append bytes =
    if 256 < toInt32 bytes.length then .error (.outOfRange "Buffer full.")
    else if toInt32 bytes.length < 0 then .error .overrun
    else .ok ⟨bytes.take (toInt32 bytes.length).toNat⟩ := by
  have hbody : (⟨[]⟩ : HashedBuffer).append bytes =
      if 256 < (([] : List UInt8).length : ℤ) + toInt32 bytes.length then
        .error (.outOfRange "Buffer full.")
      else if toInt32 bytes.length < 0 then .error .overrun
      else .ok ⟨[] ++ bytes.take (toInt32 bytes.length).toNat⟩ := rfl
  have hzero : (([] : List UInt8).length : ℤ) + toInt32 bytes.length = toInt32 bytes.length :=
    Int.zero_add _
  rw [hbody, hzero, List.nil_append]

theorem append_spec (bytes : List UInt8) (h : map f = ⟨[]⟩) :
    (256 < toInt32 bytes.length ∧ append map f bytes = .error (.outOfRange "Buffer full.")) ∨
      toInt32 bytes.length ≤ 256 ∧ Tame (append map f bytes) := by
  unfold append
  rw [h, append_empty]
  by_cases hfull : 256 < toInt32 bytes.length
  · rw [if_pos hfull]
    exact .inl ⟨hfull, rfl⟩
  · rw [if_neg hfull]
    refine .inr ⟨Int.not_lt.1 hfull, Tame.bind ?_ fun _ _ => tame_ok _⟩
    exact .ite (fun _ => tame_overrun) fun _ => tame_ok _

theorem append_ok (h : append map f bytes = .ok map') {g : ℕ} (hg : g ≠ f) : map' g = map g := by
  obtain ⟨b, -, h⟩ := bind_ok h
  rw [← Except.ok.inj h, Function.update_of_ne hg]

theorem toInt32_of_le {n : ℕ} (h : n ≤ 256) : toInt32 n = n := by
  unfold toInt32
  exact Int.bmod_eq_of_le (by omega) (by omega)

/-- Few bytes are appended. -/
theorem append_short (bytes : List UInt8) (h : map f = ⟨[]⟩) (hlen : bytes.length ≤ 256) :
    ∃ map', append map f bytes = .ok map' ∧ ∀ g ≠ f, map' g = map g := by
  have hok : append map f bytes = .ok (Function.update map f ⟨bytes⟩) := by
    unfold append
    rw [h, append_empty, toInt32_of_le hlen, if_neg (by omega), if_neg (by omega),
      Int.toNat_natCast, List.take_length]
    rfl
  exact ⟨_, hok, fun g hg => Function.update_of_ne hg _ _⟩

theorem appendInt_short (n : ℕ) (h : map f = ⟨[]⟩) :
    ∃ map', appendInt map f n = .ok map' ∧ ∀ g ≠ f, map' g = map g :=
  append_short _ h (by rw [Bytes.length_le]; decide)

/-! ## The parsers' registers -/

/-- The layer-7 registers hold nothing yet. -/
structure Unused (map : Registers) : Prop where
  six : map 6 = ⟨[]⟩
  seven : map 7 = ⟨[]⟩
  eight : map packetNoF = ⟨[]⟩
  ten : map 10 = ⟨[]⟩

theorem tame_appendInt (n : ℕ) (h : map f = ⟨[]⟩) : Tame (appendInt map f n) := by
  obtain ⟨map', heq, -⟩ := appendInt_short n h
  rw [heq]
  exact tame_ok _

/-- What a host and a URI have in common with the host alone: no more than the register takes, where
the URI is a short one. -/
theorem host_fits {host uri : ℕ} (huri : uri ≤ 128) (h : toInt32 (host + uri : ℕ) ≤ 256)
    (hpos : 0 ≤ toInt32 (host + uri : ℕ)) : toInt32 host ≤ 256 := by
  have hhost : toInt32 host = (toInt32 (host + uri : ℕ) - uri).bmod (2 ^ 32) := by
    unfold toInt32
    rw [Int.bmod_sub_bmod]
    congr 1
    omega
  rw [hhost, Int.bmod_eq_of_le (by omega) (by omega)]
  omega

variable {h : HttpRequest} {o len : ℕ}

theorem append_not_negative (hf : map f = ⟨[]⟩) (h : append map f bytes = .ok map') :
    0 ≤ toInt32 bytes.length := by
  obtain ⟨b, hb, -⟩ := bind_ok h
  rw [hf, append_empty] at hb
  split_ifs at hb with hfull hneg
  exact Int.not_lt.1 hneg

/-- From the method on, the headers found. -/
theorem http_ok {p : ℕ} (hmap : Unused map) {packet : Option ℕ}
    (hparse : (HttpRequest.new packet len).parse mem addr = (.ok true, h))
    (hp : h.headers = some p) : ∃ map', map' httpUrlF = ⟨[]⟩ ∧ map' httpHostF = ⟨[]⟩ ∧
      http mem addr map packet len =
        (if h.availableLen < 4 then
          .error (.runtimeError "[HttpRequest] getHeader: not enough bytes to read header")
        else HttpRequest.searchHeader mem p hostName) >>= fun host =>
          append map' httpUrlF (host ++ h.uri) >>= fun map => append map httpHostF host := by
  obtain ⟨map', happend, hframe⟩ :=
    appendInt_short h.method.value.toNat (f := httpMethodF) hmap.seven
  refine ⟨map', (hframe _ (by decide)).trans hmap.six, (hframe _ (by decide)).trans hmap.ten, ?_⟩
  have hmethod : h.getMethod mem addr = (.ok h.method, h) :=
    HttpRequest.get_of_headers mem addr hp _
  have huri : h.getUri mem addr = (.ok h.uri, h) := HttpRequest.get_of_headers mem addr hp _
  have hheader := HttpRequest.getHeader_of_headers mem addr hp
  generalize (if h.availableLen < 4 then _ else HttpRequest.searchHeader mem p hostName) = host
    at hheader ⊢
  have habs : h.getAbsoluteUri mem addr = (host.map (· ++ h.uri), h) := by
    unfold HttpRequest.getAbsoluteUri
    rw [hheader]
    cases host with
    | error e => rfl
    | ok host =>
      simp only [huri]
      rfl
  unfold http
  rw [hparse]
  simp only [hmethod, habs, hheader, ok_bind, happend]
  cases host with
  | error e => simp only [Except.map, error_bind]
  | ok host => simp only [Except.map, ok_bind]

/-- The URI behind its host, and the host alone. -/
theorem append_uri_spec (host : List UInt8) {uri : List UInt8} (hurl : map httpUrlF = ⟨[]⟩)
    (hhost : map httpHostF = ⟨[]⟩) (huri : uri.length ≤ 128) :
    Tame (append map httpUrlF (host ++ uri) >>= fun map => append map httpHostF host) ∨
      256 < toInt32 (host.length + uri.length : ℕ) ∧
        append map httpUrlF (host ++ uri) = .error (.outOfRange "Buffer full.") := by
  have hlen : (host ++ uri).length = host.length + uri.length := List.length_append
  obtain ⟨hfull, heq⟩ | ⟨hle, htame⟩ := append_spec (host ++ uri) hurl
  · exact .inr ⟨hlen ▸ hfull, heq⟩
  · refine .inl (htame.bind fun map' happend => ?_)
    have hpos := append_not_negative hurl happend
    rw [hlen] at hle hpos
    obtain ⟨hfull, -⟩ | ⟨-, htame'⟩ := append_spec host
      ((append_ok happend (by decide : httpHostF ≠ httpUrlF)).trans hhost)
    · exact absurd (host_fits huri hle hpos) (Int.not_le.2 hfull)
    · exact htame'

/-- The HTTP parser and what of it goes into registers. -/
theorem http_spec (mem : List UInt8) (addr len : ℕ) (packet : Option ℕ) (hmap : Unused map) :
    Tame (http mem addr map packet len) ∨
      ∃ o, packet = some o ∧ Overflows (mem.drop o) (toInt32 len) := by
  have herror : ∀ {e : Abort} {h' : HttpRequest}, Tame (.error e : Except Abort Bool) →
      (HttpRequest.new packet len).parse mem addr = (.error e, h') →
      Tame (http mem addr map packet len) := by
    intro e h' htame heq
    unfold http
    rw [heq]
    exact htame.error
  have hreject : ∀ {h' : HttpRequest},
      (HttpRequest.new packet len).parse mem addr = (.ok false, h') →
      Tame (http mem addr map packet len) := by
    intro h' heq
    unfold http
    rw [heq]
    exact tame_ok _
  cases packet with
  | none =>
    obtain ⟨h', heq⟩ | ⟨e, h', heq, htame⟩ := HttpRequest.parse_null mem addr len
    · exact .inl (hreject heq)
    · exact .inl (herror htame heq)
  | some o =>
    obtain ⟨e, h', heq, htame⟩ | ⟨h', heq⟩ | ⟨h', heq, hless⟩ |
      ⟨method, uri, version, tail, h', heq, hline, htail, hread⟩ :=
        HttpRequest.parse_new_spec mem addr o len
    · exact .inl (herror htame heq)
    · exact .inl (hreject heq)
    · left
      unfold http
      rw [heq]
      obtain ⟨e, h'', heq', htame⟩ | ⟨h'', heq', hless'⟩ := hless.parse addr
      · simp only [HttpRequest.getMethod, HttpRequest.get, heq', error_bind]
        exact htame.error
      · simp only [HttpRequest.getMethod, HttpRequest.get, heq', ok_bind]
        refine (tame_appendInt _ hmap.seven).bind fun map' _ => ?_
        obtain ⟨e, h₃, heq₃, htame⟩ := hless'.getHeader addr hostName
        simp only [HttpRequest.getAbsoluteUri, heq₃, error_bind]
        exact htame.error
    · obtain ⟨p, hp, hdrop⟩ := hread.headers
      obtain ⟨map', hurl, hhost, hhttp⟩ := http_ok hmap heq hp
      have huri : h'.uri.length = min uri.length 128 := by
        rw [hread.taken, List.length_take, Nat.min_comm]
      rw [hhttp]
      by_cases hshort : h'.availableLen < 4
      · rw [if_pos hshort]
        exact .inl (tame_runtimeError _)
      · rw [if_neg hshort]
        cases hsearch : HttpRequest.searchHeader mem p hostName with
        | error e =>
          have htame := HttpRequest.tame_searchHeader mem p hostName
          rw [hsearch] at htame
          exact .inl htame.error
        | ok host =>
          rw [ok_bind]
          obtain htame | ⟨hfull, -⟩ := append_uri_spec host hurl hhost
            (huri ▸ Nat.min_le_right _ _)
          · exact .inl htame
          · rw [huri] at hfull
            obtain rfl | hheader := HttpRequest.searchHeader_ok hsearch
            · rw [List.length_nil, Nat.zero_add, toInt32_of_le (by omega)] at hfull
              omega
            · rw [hdrop] at hheader
              rw [Int.not_lt, hread.availableLen] at hshort
              exact .inr ⟨o, rfl, method, uri, version, tail, host, hline, htail, hshort, hheader,
                hfull⟩

theorem http_overflows {o : ℕ} (hmap : Unused map) (h : Overflows (mem.drop o) (toInt32 len)) :
    http mem addr map (some o) len = .error (.outOfRange "Buffer full.") := by
  obtain ⟨method, uri, version, tail, host, hline, htail, hleft, hheader, hfull⟩ := h
  obtain ⟨h', heq, hread⟩ := HttpRequest.parse_line addr hline htail
  obtain ⟨p, hp, hdrop⟩ := hread.headers
  obtain ⟨map', hurl, -, hhttp⟩ := http_ok hmap heq hp
  rw [← hdrop] at hheader
  rw [hhttp, hread.availableLen, if_neg (Int.not_lt.2 hleft),
    HttpRequest.searchHeader_line hheader, ok_bind]
  obtain ⟨-, happend⟩ | ⟨hle, -⟩ := append_spec (host ++ h'.uri) hurl
  · rw [happend, error_bind]
  · rw [List.length_append, hread.taken, List.length_take, Nat.min_comm] at hle
    omega

theorem tame_modbus (packet : Option ℕ) (hmap : Unused map) : Tame (modbus mem map packet len) := by
  have hparse : Tame (Modbus.parse mem packet len) := by
    refine .ite (fun _ => tame_ok _) fun _ => ?_
    cases packet with
    | none => exact tame_overrun
    | some p =>
      refine (tame_checked _).bind fun _ _ => (tame_checked _).bind fun _ _ => ?_
      refine (tame_checked _).bind fun _ _ => (tame_checked _).bind fun _ _ => ?_
      exact (tame_checked _).bind fun _ _ => tame_ok _
  refine hparse.bind fun m _ => .ite (fun _ => tame_ok _) fun _ => ?_
  obtain ⟨map', heq, hframe⟩ := appendInt_short (f := modbusTransactionIdentifierF)
    m.transactionIdentifier.toNat hmap.six
  rw [heq, ok_bind]
  exact tame_appendInt _ ((hframe _ (by decide)).trans hmap.seven)

theorem secondLevel_le : ∀ (count : ℕ) (s : List UInt8), secondLevel count s ≤ s.length
  | _, [] => Nat.le_refl _
  | count, c :: s => by
    rw [secondLevel, List.length_cons]
    have h₁ := secondLevel_le (count + 1) s
    have h₂ := secondLevel_le count s
    split_ifs <;> omega

/-- The second level is a suffix of the name. -/
theorem dnsSecondLevel_ok (s : List UInt8) :
    ∃ n, dnsSecondLevel s = .ok (s.drop n) := by
  have hle := secondLevel_le 0 s.reverse
  rw [List.length_reverse] at hle
  refine ⟨sizeSub s.length (secondLevel 0 s.reverse), if_neg ?_⟩
  rw [sizeSub_of_le hle]
  omega

theorem tame_dns (lhsFirst : Bool) (ip len : ℕ) (hflags : map flagsF = ⟨[]⟩) (hmap : Unused map) :
    Tame (dns mem lhsFirst map (some ip) len) := by
  refine (DnsResponse.tame_header mem ip len).bind fun head _ => ?_
  refine .ite (fun _ => tame_ok _) fun _ => ?_
  obtain ⟨map₁, heq₁, hframe₁⟩ := appendInt_short (f := flagsF) head.getReturnCode hflags
  obtain ⟨htame, hnamed⟩ := DnsResponse.parse_named mem lhsFirst head
  rw [heq₁, ok_bind]
  refine htame.bind fun response hresponse => ?_
  cases response with
  | none => exact tame_ok _
  | some r =>
    have hr := hnamed r hresponse
    obtain ⟨name, hname⟩ := hr.lastAlias
    have hshort : name.length < 256 := hr.short _ (DescMap.find_eq_some_iff.1 hname).1
    have hget : r.getAlias = .ok name := by
      unfold DnsResponse.getAlias
      rw [hname]
    obtain ⟨map₂, heq₂, hframe₂⟩ := append_short (f := domainNameF) name
      ((hframe₁ _ (by decide)).trans hmap.six) (by omega)
    obtain ⟨n, hlevel⟩ := dnsSecondLevel_ok name
    obtain ⟨map₃, heq₃, hframe₃⟩ := append_short (f := domainSecondLevelF) (name.drop n)
      ((hframe₂ _ (by decide)).trans ((hframe₁ _ (by decide)).trans hmap.ten))
      (by rw [List.length_drop]; omega)
    simp only [hget, ok_bind, heq₂, hlevel, heq₃]
    split
    · refine (tame_appendInt _ ?_).bind fun _ _ => tame_ok _
      exact (hframe₃ _ (by decide)).trans ((hframe₂ _ (by decide)).trans
        ((hframe₁ _ (by decide)).trans hmap.seven))
    · exact tame_ok _

/-! ## The register of the packet number -/

theorem appendInt_ok {n g : ℕ} (h : appendInt map f n = .ok map') (hg : g ≠ f) : map' g = map g :=
  append_ok h hg

theorem http_packetNo {packet : Option ℕ} (h : http mem addr map packet len = .ok map') :
    map' packetNoF = map packetNoF := by
  unfold http at h
  split at h
  · cases h
  · rw [← Except.ok.inj h]
  · obtain ⟨method, -, h⟩ := bind_ok h
    obtain ⟨map₁, h₁, h⟩ := bind_ok h
    obtain ⟨uri, -, h⟩ := bind_ok h
    obtain ⟨map₂, h₂, h⟩ := bind_ok h
    obtain ⟨host, -, h₃⟩ := bind_ok h
    rw [append_ok h₃ (by decide), append_ok h₂ (by decide), appendInt_ok h₁ (by decide)]

theorem modbus_packetNo {packet : Option ℕ} (h : modbus mem map packet len = .ok map') :
    map' packetNoF = map packetNoF := by
  obtain ⟨m, -, h⟩ := bind_ok h
  by_cases hzero : m.length = 0
  · rw [if_pos hzero] at h
    rw [← Except.ok.inj h]
  · rw [if_neg hzero] at h
    obtain ⟨map₁, h₁, h₂⟩ := bind_ok h
    rw [appendInt_ok h₂ (by decide), appendInt_ok h₁ (by decide)]

theorem dns_packetNo {lhsFirst v : Bool} {packet : Option ℕ}
    (h : dns mem lhsFirst map packet len = .ok (map', v)) : map' packetNoF = map packetNoF := by
  obtain ⟨head, -, h⟩ := bind_ok h
  by_cases hbad : head.data = none
  · rw [if_pos hbad] at h
    rw [← (Prod.mk.inj (Except.ok.inj h)).1]
  · rw [if_neg hbad] at h
    obtain ⟨map₁, h₁, h⟩ := bind_ok h
    obtain ⟨response, -, h⟩ := bind_ok h
    cases response with
    | none => rw [← (Prod.mk.inj (Except.ok.inj h)).1, appendInt_ok h₁ (by decide)]
    | some r =>
      obtain ⟨name, -, h⟩ := bind_ok h
      obtain ⟨map₂, h₂, h⟩ := bind_ok h
      obtain ⟨level, -, h⟩ := bind_ok h
      obtain ⟨map₃, h₃, h⟩ := bind_ok h
      have hthree : map₃ packetNoF = map packetNoF := by
        rw [append_ok h₃ (by decide), append_ok h₂ (by decide), appendInt_ok h₁ (by decide)]
      split at h
      · obtain ⟨map₄, h₄, h⟩ := bind_ok h
        rw [← (Prod.mk.inj (Except.ok.inj h)).1, appendInt_ok h₄ (by decide), hthree]
      · rw [← (Prod.mk.inj (Except.ok.inj h)).1, hthree]

theorem layer7Registers_packetNo {lhsFirst v : Bool} {b : Branch}
    (h : layer7Registers mem addr lhsFirst map b = .ok (map', v)) :
    map' packetNoF = map packetNoF := by
  cases b with
  | tcp flags call =>
    obtain ⟨map₁, h₁, h⟩ := bind_ok h
    obtain ⟨map₂, h₂, h⟩ := bind_ok h
    rw [← (Prod.mk.inj (Except.ok.inj h)).1, ← appendInt_ok h₁ (by decide)]
    split at h₂
    · exact http_packetNo h₂
    · exact modbus_packetNo h₂
    · rw [← Except.ok.inj h₂]
  | dns call => exact dns_packetNo h
  | other =>
    obtain ⟨map₁, h₁, h⟩ := bind_ok h
    rw [← (Prod.mk.inj (Except.ok.inj h)).1, appendInt_ok h₁ (by decide)]

/-! ## The constructor -/

variable {buf : List UInt8} {double : ℕ → UInt64} {lhsFirst : Bool} {count : UInt32}

/-- The DNS parser is called in its own branch only. -/
theorem branch_dns {p q : Packet} {sPort dPort : UInt16} {call : Layer7Call}
    (h : branch p sPort dPort = some (q, .dns call)) : call.parser = .dnsHeader := by
  obtain ⟨⟨p₁, tcp⟩, -, h⟩ := Option.bind_eq_some_iff.1 h
  cases tcp with
  | true =>
    obtain ⟨⟨p₂, flags⟩, -, h⟩ := Option.bind_eq_some_iff.1 h
    simp only at h
    split_ifs at h
    · obtain ⟨⟨p₃, payload⟩, -, h⟩ := Option.bind_eq_some_iff.1 h
      cases h
    · obtain ⟨⟨p₃, payload⟩, -, h⟩ := Option.bind_eq_some_iff.1 h
      cases h
    · cases h
  | false =>
    simp only [Bool.false_eq_true, if_false] at h
    split_ifs at h
    · obtain ⟨⟨p₂, udp⟩, -, h⟩ := Option.bind_eq_some_iff.1 h
      cases udp with
      | true =>
        obtain ⟨⟨p₃, ip⟩, -, h⟩ := Option.bind_eq_some_iff.1 h
        cases h
        rfl
      | false => cases h
    · cases h

/-- Fields beside the ones used already. -/
theorem append_unused {fs : List ℕ} (bytes : List UInt8) (h : ∀ g ∉ fs, map g = ⟨[]⟩) (hf : f ∉ fs)
    (hlen : bytes.length ≤ 256) :
    ∃ map', append map f bytes = .ok map' ∧ ∀ g ∉ f :: fs, map' g = ⟨[]⟩ := by
  obtain ⟨map', heq, hframe⟩ := append_short bytes (h f hf) hlen
  refine ⟨map', heq, fun g hg => ?_⟩
  rw [hframe g fun h => hg (h ▸ List.mem_cons_self), h g fun h => hg (List.mem_cons_of_mem _ h)]

theorem appendInt_unused {fs : List ℕ} (n : ℕ) (h : ∀ g ∉ fs, map g = ⟨[]⟩) (hf : f ∉ fs) :
    ∃ map', appendInt map f n = .ok map' ∧ ∀ g ∉ f :: fs, map' g = ⟨[]⟩ :=
  append_unused _ h hf (by rw [Bytes.length_le]; decide)

/-- Up to the call of a parser the constructor comes to its end. -/
theorem new_eq (addr : ℕ) (double : ℕ → UInt64) (lhsFirst : Bool) (count : UInt32)
    (buf : List UInt8) (len : ℕ) : ∃ q map b, layer7 (.new buf len .ethernet) = some (q, b) ∧
      (∀ call, b = .dns call → call.parser = .dnsHeader) ∧ map flagsF = ⟨[]⟩ ∧ Unused map ∧
      PacketPlus.new addr double lhsFirst count buf len =
        layer7Registers buf addr lhsFirst map b >>= fun r =>
          appendInt r.1 packetNoF count.toNat >>= fun map => .ok ⟨q, map, r.2⟩ := by
  obtain ⟨p, hp, hparsed, -⟩ := Packet.parsePorts_spec (p := .new buf len .ethernet) fresh_new rfl
  obtain ⟨q, b, hlayer7, -⟩ := layer7_spec buf len
  have hsrc := srcPort_eq hp
  have hdst := dstPort_eq (Packet.parsePorts_of_parsed hparsed.portsParsed)
  have hbranch : branch p p.key.srcPort p.key.dstPort = some (q, b) := by
    simpa only [layer7, hsrc, hdst, Option.bind_eq_bind, Option.bind_some] using hlayer7
  have hget : ∀ {α : Type} (member : Packet → α), Packet.get Packet.parseIphdr member p =
      some (p, member p) := fun member => by
    rw [Packet.get, Packet.parseIphdr_of_parsed hparsed.iphdrParsed, Option.map_some]
  have hempty : ∀ g ∉ ([] : List ℕ), (fun _ => ⟨[]⟩ : Registers) g = ⟨[]⟩ := fun _ _ => rfl
  obtain ⟨map₁, h₁, f₁⟩ := appendInt_unused (f := ipSrcF) p.key.srcIp4.toNat hempty (by decide)
  obtain ⟨map₂, h₂, f₂⟩ := appendInt_unused (f := ipDstF) p.key.dstIp4.toNat f₁ (by decide)
  obtain ⟨map₃, h₃, f₃⟩ := appendInt_unused (f := srcPortF) p.key.srcPort.toNat f₂ (by decide)
  obtain ⟨map₄, h₄, f₄⟩ := appendInt_unused (f := dstPortF) p.key.dstPort.toNat f₃ (by decide)
  obtain ⟨map₅, h₅, f₅⟩ := appendInt_unused (f := protocolF) p.key.proto.toNat f₄ (by decide)
  obtain ⟨map₆, h₆, f₆⟩ := append_unused (f := ipLenF) (Bytes.le 8 (double p.length).toNat)
    f₅ (by decide) (by rw [Bytes.length_le]; decide)
  refine ⟨q, map₆, b, hlayer7, fun call hcall => branch_dns (hcall ▸ hbranch),
    f₆ _ (by decide),
    ⟨f₆ _ (by decide), f₆ _ (by decide), f₆ _ (by decide), f₆ _ (by decide)⟩, ?_⟩
  simp only [PacketPlus.new, hsrc, hdst, Packet.srcIp4, Packet.dstIp4, Packet.protocol, hget,
    checked, ok_bind, h₁, h₂, h₃, h₄, h₅, h₆, hbranch]

theorem length_new (buf : List UInt8) (len : ℕ) :
    (Packet.new buf len .ethernet).length = if len = 0 then buf.length else len := rfl

theorem Unused.frame (h : Unused map) (hframe : ∀ g ≠ flagsF, map' g = map g) : Unused map' :=
  ⟨(hframe _ (by decide)).trans h.six, (hframe _ (by decide)).trans h.seven,
    (hframe _ (by decide)).trans h.eight, (hframe _ (by decide)).trans h.ten⟩

/-- The parsers' registers, where no request overflows. -/
theorem tame_layer7Registers {b : Branch} (lhsFirst : Bool) (hflags : map flagsF = ⟨[]⟩)
    (hmap : Unused map)
    (hcalls : ∀ c, c ∈ b.calls ↔ Hands buf (Packet.new buf len .ethernet).length c)
    (hdns : ∀ call, b = .dns call → call.parser = .dnsHeader) (h : NotOverflowing buf len) :
    Tame (layer7Registers buf addr lhsFirst map b) := by
  cases b with
  | tcp flags call =>
    obtain ⟨map₁, h₁, f₁⟩ := appendInt_short (f := flagsF) flags.toNat hflags
    have hmap₁ : Unused map₁ := hmap.frame f₁
    simp only [layer7Registers, h₁, ok_bind]
    refine Tame.bind ?_ fun _ _ => tame_ok _
    cases call with
    | none => exact tame_ok _
    | some call =>
      have hands := (hcalls call).1 (Option.mem_toList.2 rfl)
      cases hands with
      | @http _ _ _ packet hports hpacket =>
        obtain htame | ⟨o, ho, hover⟩ := http_spec buf addr
          (sizeSub (sizeSub (Packet.new buf len .ethernet).length 14) 40) packet hmap₁
        · exact htame
        · obtain ⟨hat, hle⟩ := (hpacket o).1 ho
          exact absurd hover (h _ _ _ _ hports hat hle)
      | modbus _ _ => exact tame_modbus _ hmap₁
      | dns _ _ => exact tame_ok _
  | dns call =>
    have hparser := hdns call rfl
    have hands := (hcalls call).1 List.mem_cons_self
    cases hands with
    | http _ _ => cases hparser
    | modbus _ _ => cases hparser
    | dns _ _ => exact tame_dns lhsFirst _ _ hflags hmap
  | other => exact (tame_appendInt _ hflags).bind fun _ _ => tame_ok _

theorem layer7Registers_overflows {b : Branch} {o l4 payload : ℕ} {sp : UInt16}
    (hflags : map flagsF = ⟨[]⟩) (hmap : Unused map)
    (hcalls : ∀ c, c ∈ b.calls ↔ Hands buf (Packet.new buf len .ethernet).length c)
    (hdns : ∀ call, b = .dns call → call.parser = .dnsHeader)
    (hports : PortsAt buf o l4 Packet.kTCP sp 80) (hat : TcpPayloadAt buf l4 payload)
    (hle : payload ≤ buf.length) (hover : Overflows (buf.drop payload)
      (toInt32 (sizeSub (sizeSub (if len = 0 then buf.length else len) 14) 40))) :
    layer7Registers buf addr lhsFirst map b = .error (.outOfRange "Buffer full.") := by
  obtain ⟨packet, hpacket⟩ := exists_payload buf l4
  obtain rfl := (hpacket payload).2 ⟨hat, hle⟩
  have hmem := (hcalls _).2 (.http hports hpacket)
  cases b with
  | tcp flags call =>
    obtain ⟨map₁, h₁, f₁⟩ := appendInt_short (f := flagsF) flags.toNat hflags
    obtain rfl : call = some _ := Option.mem_toList.1 hmem
    simp only [layer7Registers, h₁, ok_bind]
    rw [length_new, http_overflows (hmap.frame f₁) hover, error_bind]
  | dns call =>
    obtain rfl := List.mem_singleton.1 hmem
    cases hdns _ rfl
  | other => exact absurd hmem List.not_mem_nil

/-- A frame whose parsers stay within bounds is built or thrown away as a bad one, exactly if it has
no request that overflows. -/
theorem caught_iff (addr : ℕ) (double : ℕ → UInt64) (lhsFirst : Bool) (count : UInt32)
    (buf : List UInt8) (len : ℕ)
    (hin : PacketPlus.new addr double lhsFirst count buf len ≠ .error .overrun) :
    Caught (PacketPlus.new addr double lhsFirst count buf len) ↔ NotOverflowing buf len := by
  obtain ⟨q, map, b, hlayer7, hdns, hflags, hmap, hnew⟩ :=
    new_eq addr double lhsFirst count buf len
  obtain ⟨q', b', hlayer7', hcalls⟩ := layer7_spec buf len
  obtain ⟨rfl, rfl⟩ := Prod.mk.inj (Option.some.inj (hlayer7.symm.trans hlayer7'))
  constructor
  · intro hcaught o l4 sp payload hports hat hle hover
    rw [hnew, layer7Registers_overflows hflags hmap hcalls hdns hports hat hle hover] at hcaught
    obtain ⟨what, hwhat⟩ := hcaught
    cases hwhat
  · intro h
    have htame : Tame (PacketPlus.new addr double lhsFirst count buf len) := by
      rw [hnew]
      refine (tame_layer7Registers lhsFirst hflags hmap hcalls hdns h).bind fun r hr => ?_
      refine (tame_appendInt _ ?_).bind fun _ _ => tame_ok _
      exact (layer7Registers_packetNo hr).trans hmap.eight
    exact htame.resolve_right hin

/-- `GET / HTTP/1.0` with a `Host` header, in a TCP segment to port 80. -/
def requestFrame (host : List UInt8) : List UInt8 :=
  [0, 0, 0, 0, 0, 0, 0, 0, 0, 0, 0, 0, 8, 0] ++
  [0x45, 0, 0, 40, 0, 0, 0, 0, 64, 6, 0, 0, 10, 0, 0, 1, 10, 0, 0, 2] ++
  [4, 0, 0, 80, 0, 0, 0, 0, 0, 0, 0, 0, 0x50, 0x18, 0, 0, 0, 0, 0, 0] ++
  [71, 69, 84, 32, 47, 32, 72, 84, 84, 80, 47, 49, 46, 48, 13, 10] ++
  [72, 111, 115, 116, 58, 32] ++ host ++ [13, 10, 13, 10]

theorem notOverflowing_requestFrame : NotOverflowing (requestFrame [97, 46, 98]) 0 := by
  have hok : (PacketPlus.new 0 (fun _ => 0) false 0 (requestFrame [97, 46, 98]) 0).isOk = true := by
    decide +kernel
  refine (caught_iff 0 (fun _ => 0) false 0 (requestFrame [97, 46, 98]) 0 fun h => ?_).1 ?_
  · rw [h] at hok
    cases hok
  · generalize PacketPlus.new 0 (fun _ => 0) false 0 (requestFrame [97, 46, 98]) 0 = r at hok
    cases r with
    | ok _ => trivial
    | error e => cases hok

/-- A host of as many bytes as the register has: with its URI it is one longer. -/
theorem not_caught : ¬ ∀ (addr : ℕ) (double : ℕ → UInt64) (lhsFirst : Bool) (count : UInt32)
    (buf : List UInt8) (len : ℕ),
    PacketPlus.new addr double lhsFirst count buf len ≠ .error .overrun →
      Caught (PacketPlus.new addr double lhsFirst count buf len) := by
  intro h
  have hfull : (PacketPlus.new 0 (fun _ => 0) false 0 (requestFrame (List.replicate 256 104)) 0).map
      (fun _ => ()) = .error (.outOfRange "Buffer full.") := by decide +kernel
  generalize requestFrame (List.replicate 256 104) = buf at hfull
  have hcaught := h 0 (fun _ => 0) false 0 buf 0
  generalize PacketPlus.new 0 (fun _ => 0) false 0 buf 0 = r at hfull hcaught
  cases r with
  | ok _ => cases hfull
  | error e =>
    obtain rfl := Except.error.inj hfull
    obtain ⟨what, hwhat⟩ := hcaught fun h => by cases h
    cases hwhat

end PacketPlus

end DStreamon.Messages
