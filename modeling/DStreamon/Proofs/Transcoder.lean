import DStreamon.Transcoder

/-!
# Fields written and read back

What a field is on the wire, and that writing appends it to what is written while reading takes it
off what is ahead.  A number is turned around over the width it is written with and then over the
width of the field it is read into: it comes back where these are the same, or where it is zero.
-/

namespace DStreamon.Ipfix

namespace Transcoder

/-- The cursor is in the buffer, before its end. -/
structure Sound (xc : Transcoder) : Prop where
  cur_le : xc.cur ≤ xc.max
  max_le : xc.max ≤ xc.buf.length

def written (xc : Transcoder) : List UInt8 := xc.buf.take xc.cur

def ahead (xc : Transcoder) : List UInt8 := xc.buf.drop xc.cur

/-- How many bytes of content a field has on the wire. -/
def contentLen (ie : InfoElement) (val : List UInt8) : ℕ :=
  if ie.len = kVarlen then val.length else ie.len.toNat

def lengthBytes (ie : InfoElement) (n : ℕ) : List UInt8 :=
  if ie.len = kVarlen then encodeVarlenLength n else []

/-- A field on the wire. -/
def wire (ie : InfoElement) (val : List UInt8) : List UInt8 :=
  lengthBytes ie (contentLen ie val) ++ xcode ie.ietype val (contentLen ie val)

variable {xc : Transcoder} {ie : InfoElement} {val bs : List UInt8}

theorem avail_of_le (h : xc.cur ≤ xc.max) : xc.avail = xc.max - xc.cur := if_pos h

theorem Sound.cur_le_length (h : xc.Sound) : xc.cur ≤ xc.buf.length := h.cur_le.trans h.max_le

theorem Sound.length_written (h : xc.Sound) : xc.written.length = xc.cur :=
  List.length_take_of_le h.cur_le_length

/-! ## Writing -/

@[simp] theorem put_cur : (xc.put bs).cur = xc.cur + bs.length := rfl

@[simp] theorem put_max : (xc.put bs).max = xc.max := rfl

@[simp] theorem put_check : (xc.put bs).check = xc.check := rfl

@[simp] theorem put_savemax : (xc.put bs).savemax = xc.savemax := rfl

@[simp] theorem put_msgBase : (xc.put bs).msgBase = xc.msgBase := rfl

@[simp] theorem put_setStart : (xc.put bs).setStart = xc.setStart := rfl

theorem put_nil : xc.put [] = xc := by
  simp [put, Bytes.splice]

theorem put_put {cs : List UInt8} (h : xc.Sound) : (xc.put bs).put cs = xc.put (bs ++ cs) := by
  simp only [put, Bytes.splice_splice h.cur_le_length, List.length_append, Nat.add_assoc]

theorem Sound.put (h : xc.Sound) (hbs : bs.length ≤ xc.avail) : (xc.put bs).Sound := by
  have hcur := h.cur_le
  have hmax := h.max_le
  rw [avail_of_le hcur] at hbs
  refine ⟨?_, ?_⟩
  · rw [put_cur, put_max]
    omega
  · rw [put_max, Transcoder.put, Bytes.length_splice (by omega)]
    exact hmax

theorem avail_put (h : xc.Sound) (hbs : bs.length ≤ xc.avail) :
    (xc.put bs).avail = xc.avail - bs.length := by
  rw [avail_of_le (h.put hbs).cur_le, avail_of_le h.cur_le, put_cur, put_max]
  omega

theorem written_put (h : xc.Sound) : (xc.put bs).written = xc.written ++ bs :=
  Bytes.take_splice h.cur_le_length

/-- What is written is ahead once the cursor is set back. -/
theorem ahead_put (h : xc.Sound) :
    ({ xc.put bs with cur := xc.cur } : Transcoder).ahead =
      bs ++ xc.buf.drop (xc.cur + bs.length) :=
  Bytes.drop_splice h.cur_le_length

theorem length_rawLeft (src : List UInt8) (d : ℕ) : (rawLeft src d).length = d := by
  simp only [rawLeft, List.length_append, List.length_take, List.length_replicate]
  omega

@[simp] theorem length_xcode (iet : IEType) (src : List UInt8) (d : ℕ) :
    (xcode iet src d).length = d := by
  rw [xcode]
  split_ifs
  · rw [List.length_reverse, length_rawLeft]
  · exact length_rawLeft src d

theorem length_encodeVarlenLength (n : ℕ) :
    (encodeVarlenLength n).length = if n > 254 then 3 else 1 := by
  rw [encodeVarlenLength]
  by_cases h : n < 255
  · rw [if_pos h, if_neg (by omega)]
    rfl
  · rw [if_neg h, if_pos (by omega)]
    rfl

theorem run_encodeContent {n : ℕ} (hp : ie.ietype.permitsLength n = true) :
    (encodeContent val n ie).run xc = (.ok true, xc.put (xcode ie.ietype val n)) := by
  rw [encodeContent, if_pos hp]
  rfl

theorem wire_varlen (hv : ie.len = kVarlen) : wire ie val =
    encodeVarlenLength val.length ++ xcode ie.ietype val val.length := by
  rw [wire, lengthBytes, contentLen, if_pos hv, if_pos hv]

theorem wire_fixed (hv : ie.len ≠ kVarlen) : wire ie val = xcode ie.ietype val ie.len.toNat := by
  rw [wire, lengthBytes, contentLen, if_neg hv, if_neg hv, List.nil_append]

theorem length_wire_varlen (hv : ie.len = kVarlen) :
    (wire ie val).length = val.length + if val.length > 254 then 3 else 1 := by
  rw [wire_varlen hv, List.length_append, length_encodeVarlenLength, length_xcode, Nat.add_comm]

theorem length_wire_fixed (hv : ie.len ≠ kVarlen) : (wire ie val).length = ie.len.toNat := by
  rw [wire_fixed hv, length_xcode]

/-- With room for it, a field of a permitted length is appended. -/
theorem run_encode (h : xc.Sound) (hp : ie.ietype.permitsLength (contentLen ie val) = true)
    (hroom : (wire ie val).length ≤ xc.avail) :
    (encode val ie).run xc = (.ok true, xc.put (wire ie val)) := by
  rw [encode, Attempt.run_get_bind]
  by_cases hv : ie.len = kVarlen
  · rw [contentLen, if_pos hv] at hp
    rw [length_wire_varlen hv] at hroom
    rw [if_pos hv, if_neg (Nat.not_lt.2 hroom), Attempt.run_modify_bind, run_encodeContent hp,
      put_put h, wire_varlen hv]
  · rw [contentLen, if_neg hv] at hp
    rw [length_wire_fixed hv] at hroom
    rw [if_neg hv, if_neg (Nat.not_lt.2 hroom), run_encodeContent hp, wire_fixed hv]

/-- Without room nothing happens. -/
theorem run_encode_full (hroom : xc.avail < (wire ie val).length) :
    (encode val ie).run xc = (.ok false, xc) := by
  rw [encode, Attempt.run_get_bind]
  by_cases hv : ie.len = kVarlen
  · rw [length_wire_varlen hv] at hroom
    rw [if_pos hv, if_pos hroom, Attempt.run_pure]
  · rw [length_wire_fixed hv] at hroom
    rw [if_neg hv, if_pos hroom, Attempt.run_pure]

/-- With room, a length that is not permitted is refused. -/
theorem run_encode_refused (hp : ¬ ie.ietype.permitsLength (contentLen ie val) = true)
    (hroom : (wire ie val).length ≤ xc.avail) :
    ∃ er t, (encode val ie).run xc = (.error er, t) := by
  rw [encode, Attempt.run_get_bind]
  rw [contentLen] at hp
  by_cases hv : ie.len = kVarlen
  · rw [if_pos hv] at hp
    rw [length_wire_varlen hv] at hroom
    rw [if_pos hv, if_neg (Nat.not_lt.2 hroom), Attempt.run_modify_bind, encodeContent, if_neg hp]
    exact ⟨_, _, rfl⟩
  · rw [if_neg hv] at hp
    rw [length_wire_fixed hv] at hroom
    rw [if_neg hv, if_neg (Nat.not_lt.2 hroom), encodeContent, if_neg hp]
    exact ⟨_, _, rfl⟩

/-- What is written is a field of a permitted length. -/
theorem of_run_encode {t : Transcoder} (h : xc.Sound)
    (hrun : (encode val ie).run xc = (.ok true, t)) :
    ie.ietype.permitsLength (contentLen ie val) = true ∧ (wire ie val).length ≤ xc.avail ∧
      t = xc.put (wire ie val) := by
  rcases Nat.lt_or_ge xc.avail (wire ie val).length with hroom | hroom
  · rw [run_encode_full hroom] at hrun
    simp at hrun
  by_cases hp : ie.ietype.permitsLength (contentLen ie val) = true
  · rw [run_encode h hp hroom] at hrun
    simp only [Prod.mk.injEq, true_and] at hrun
    exact ⟨hp, hroom, hrun.symm⟩
  · obtain ⟨er, u, hrefused⟩ := run_encode_refused hp hroom
    rw [hrefused] at hrun
    simp at hrun

/-! ## Reading -/

/-- The cursor in the same buffer. -/
def seek (xc : Transcoder) (cur : ℕ) : Transcoder := { xc with cur := cur }

theorem next_of_ahead {b : UInt8} {rest : List UInt8} (h : xc.ahead = b :: rest) :
    next.run xc = (.ok b, xc.seek (xc.cur + 1)) ∧ (xc.seek (xc.cur + 1)).ahead = rest := by
  obtain ⟨hget, hdrop⟩ := Bytes.getElem?_of_drop h
  refine ⟨?_, hdrop⟩
  rw [next, Attempt.run_get_bind, hget]
  rfl

/-- The length of a field of variable width is read back. -/
theorem decodeVarlenLength_of_ahead {n : ℕ} {rest : List UInt8} (hn : n < 2 ^ 16)
    (h : xc.ahead = encodeVarlenLength n ++ rest) :
    decodeVarlenLength.run xc = (.ok n, xc.seek (xc.cur + (encodeVarlenLength n).length)) := by
  rw [encodeVarlenLength] at h ⊢
  split_ifs at h ⊢ with hlt
  · obtain ⟨hrun, -⟩ := next_of_ahead h
    have hne : UInt8.ofNat n ≠ 255 := fun heq => by
      have := congrArg UInt8.toNat heq
      rw [UInt8.toNat_ofNat'] at this
      change n % 256 = 255 at this
      omega
    rw [decodeVarlenLength, Attempt.run_bind_of_ok hrun, if_neg hne, Attempt.run_pure,
      UInt8.toNat_ofNat', Nat.mod_eq_of_lt (by omega)]
    rfl
  · obtain ⟨hrun, h⟩ := next_of_ahead h
    obtain ⟨hrun', h⟩ := next_of_ahead h
    obtain ⟨hrun'', -⟩ := next_of_ahead h
    rw [decodeVarlenLength, Attempt.run_bind_of_ok hrun, if_pos rfl, Attempt.run_bind_of_ok hrun',
      Attempt.run_bind_of_ok hrun'', Attempt.run_pure]
    have hval : (UInt8.ofNat (n / 256)).toNat * 256 + (UInt8.ofNat (n % 256)).toNat = n := by
      rw [UInt8.toNat_ofNat', UInt8.toNat_ofNat']
      omega
    rw [hval]
    rfl

/-- A content as it stands on the wire. -/
def framed (ie : InfoElement) (c : List UInt8) : List UInt8 := lengthBytes ie c.length ++ c

/-- A content that the element can have. -/
structure Fits (ie : InfoElement) (c : List UInt8) : Prop where
  permits : ie.ietype.permitsLength c.length = true
  width : ie.len ≠ kVarlen → c.length = ie.len.toNat

theorem wire_eq_framed (ie : InfoElement) (val : List UInt8) :
    wire ie val = framed ie (xcode ie.ietype val (contentLen ie val)) := by
  rw [wire, framed, length_xcode]

theorem fits_xcode (hp : ie.ietype.permitsLength (contentLen ie val) = true) :
    Fits ie (xcode ie.ietype val (contentLen ie val)) := by
  refine ⟨by rwa [length_xcode], fun hv => ?_⟩
  rw [length_xcode, contentLen, if_neg hv]

/-- The content that is next is read, and the cursor is behind it. -/
theorem content_of_ahead {c rest : List UInt8} (h : xc.Sound) (hc : Fits ie c)
    (hahead : xc.ahead = framed ie c ++ rest) (hroom : (framed ie c).length ≤ xc.avail) :
    (content ie).run xc = (.ok (some c), xc.seek (xc.cur + (framed ie c).length)) := by
  have hcur := h.cur_le
  have hmax := h.max_le
  rw [avail_of_le hcur] at hroom
  by_cases hv : ie.len = kVarlen
  · have hframed : framed ie c = encodeVarlenLength c.length ++ c := by
      rw [framed, lengthBytes, if_pos hv]
    rw [hframed] at hahead hroom ⊢
    rw [List.append_assoc] at hahead
    rw [List.length_append] at hroom ⊢
    have hlen := decodeVarlenLength_of_ahead (IEType.lt_of_permitsLength hc.permits) hahead
    have hdrop : xc.buf.drop (xc.cur + (encodeVarlenLength c.length).length) = c ++ rest := by
      rw [← List.drop_drop]
      change List.drop _ xc.ahead = _
      rw [hahead, List.drop_left]
    have havail : (xc.seek (xc.cur + (encodeVarlenLength c.length).length)).avail =
        xc.max - (xc.cur + (encodeVarlenLength c.length).length) :=
      avail_of_le (by simp only [seek]; omega)
    rw [content, if_pos hv, Attempt.run_bind_of_ok hlen, contentBytes, Attempt.run_get_bind, havail,
      if_neg (by omega), hc.permits, if_neg (by simp), if_neg (by simp only [seek]; omega)]
    simp only [Attempt.run_modify_bind, Attempt.run_pure, seek, hdrop, List.take_left,
      Nat.add_assoc]
  · have hframed : framed ie c = c := by
      rw [framed, lengthBytes, if_neg hv, List.nil_append]
    rw [hframed] at hahead hroom ⊢
    have hwidth := hc.width hv
    have hpermits := hc.permits
    rw [hwidth] at hroom hpermits
    have hdrop : xc.buf.drop xc.cur = c ++ rest := hahead
    rw [content, if_neg hv, contentBytes, Attempt.run_get_bind, avail_of_le hcur,
      if_neg (by omega), hpermits, if_neg (by simp), if_neg (by omega)]
    simp only [Attempt.run_modify_bind, Attempt.run_pure, seek, hdrop, ← hwidth, List.take_left]

/-- What was just written is ahead from where it was written. -/
theorem content_of_put {c : List UInt8} (h : xc.Sound) (hc : Fits ie c)
    (hroom : (framed ie c).length ≤ xc.avail) :
    (content ie).run ((xc.put (framed ie c)).seek xc.cur) =
      (.ok (some c), xc.put (framed ie c)) := by
  have hsound := h.put hroom
  have hcur := h.cur_le
  have hseek : ((xc.put (framed ie c)).seek xc.cur).Sound :=
    ⟨by simp only [seek, put_max]; exact hcur, hsound.max_le⟩
  have havail : ((xc.put (framed ie c)).seek xc.cur).avail = xc.avail := by
    rw [avail_of_le hseek.cur_le, avail_of_le hcur]
    rfl
  exact content_of_ahead hseek hc (ahead_put h) (by rwa [havail])

/-! ## Numbers -/

section Numbers

variable {l w v : ℕ}

/-- A number is cut or filled up on the side of its high bytes. -/
theorem rawLeft_le (hv : v < 256 ^ min w l) : rawLeft (Bytes.le l v) w = Bytes.le w v := by
  rw [rawLeft, Bytes.length_le]
  rcases Nat.le_total w l with hwl | hlw
  · obtain ⟨j, rfl⟩ := Nat.exists_eq_add_of_le hwl
    rw [Nat.min_eq_left hwl] at hv
    rw [Bytes.le_add j hv, List.take_left' (Bytes.length_le w v),
      Nat.sub_eq_zero_of_le hwl, List.replicate_zero, List.append_nil]
  · obtain ⟨j, rfl⟩ := Nat.exists_eq_add_of_le hlw
    rw [Nat.min_eq_right hlw] at hv
    rw [Bytes.le_add j hv, List.take_of_length_le (by rw [Bytes.length_le]; exact hlw),
      Nat.add_sub_cancel_left]

/-- Turned around and back over another width, a number is shifted by the bytes between them. -/
theorem value_turned (hv : v < 256 ^ w) :
    Bytes.value (rawLeft (Bytes.le w v).reverse l).reverse =
      if w < l then 256 ^ (l - w) * v else v / 256 ^ (w - l) := by
  have hlen : (Bytes.le w v).reverse.length = w := by rw [List.length_reverse, Bytes.length_le]
  rw [rawLeft, hlen]
  split_ifs with hwl
  · rw [List.take_of_length_le (by omega), List.reverse_append, List.reverse_reverse,
      List.reverse_replicate, Bytes.value_append, Bytes.value_zeros, List.length_replicate,
      Bytes.value_le hv, Nat.zero_add]
  · rw [Nat.sub_eq_zero_of_le (Nat.not_lt.1 hwl), List.replicate_zero, List.append_nil,
      List.take_reverse, List.reverse_reverse, Bytes.length_le,
      Bytes.value_drop (by rw [Bytes.length_le]; exact Nat.sub_le w l), Bytes.value_le hv]

/-- A shifted number is the same where nothing was shifted or it is zero. -/
theorem turned_eq_iff (hv : v < 256 ^ min w l) :
    (if w < l then 256 ^ (l - w) * v else v / 256 ^ (w - l)) = v ↔ w = l ∨ v = 0 := by
  constructor
  · intro h
    by_contra hne
    obtain ⟨hwl, hv0⟩ := not_or.1 hne
    split_ifs at h with hlt
    · have hpow : 1 < 256 ^ (l - w) := Nat.one_lt_pow (by omega) (by decide)
      have := Nat.mul_lt_mul_of_pos_right hpow (Nat.pos_of_ne_zero hv0)
      omega
    · have hpow : 1 < 256 ^ (w - l) := Nat.one_lt_pow (by omega) (by decide)
      have := Nat.div_lt_self (Nat.pos_of_ne_zero hv0) hpow
      omega
  · rintro (rfl | rfl)
    · rw [if_neg (Nat.lt_irrefl _), Nat.sub_self, Nat.pow_zero, Nat.div_one]
    · split_ifs
      · exact Nat.mul_zero _
      · exact Nat.zero_div _

end Numbers

/-- A field of `l` bytes that holds `v` is written, and the field of `l` bytes it is read into
holds `v` again. -/
def RoundTrips (xc : Transcoder) (ie : InfoElement) (l v : ℕ) : Prop :=
  ∃ t, (encode (Bytes.le l v) ie).run xc = (.ok true, t) ∧
    ∃ field u, (decode l ie).run (t.seek xc.cur) = (.ok (some field), u) ∧ Bytes.value field = v

/-- What is read back. -/
theorem roundTrips_eq {l v : ℕ} (h : xc.Sound) (hv : ie.len ≠ kVarlen)
    (hp : ie.ietype.permitsLength ie.len.toNat = true) (hroom : ie.len.toNat ≤ xc.avail) :
    RoundTrips xc ie l v ↔
      Bytes.value (xcode ie.ietype (xcode ie.ietype (Bytes.le l v) ie.len.toNat) l) = v := by
  have hlen : contentLen ie (Bytes.le l v) = ie.len.toNat := if_neg hv
  have hp' : ie.ietype.permitsLength (contentLen ie (Bytes.le l v)) = true := by rwa [hlen]
  have hwire : (wire ie (Bytes.le l v)).length ≤ xc.avail := by rwa [length_wire_fixed hv]
  have hwrite := run_encode h hp' hwire
  have hread := content_of_put h (fits_xcode hp') (by rwa [← wire_eq_framed])
  rw [← wire_eq_framed, hlen] at hread
  have hdecode : (decode l ie).run ((xc.put (wire ie (Bytes.le l v))).seek xc.cur) =
      (.ok (some (xcode ie.ietype (xcode ie.ietype (Bytes.le l v) ie.len.toNat) l)),
        xc.put (wire ie (Bytes.le l v))) := by
    rw [decode, Attempt.run_bind_of_ok hread]
    rfl
  constructor
  · rintro ⟨t, ht, field, u, hu, hval⟩
    cases hwrite.symm.trans ht
    cases hdecode.symm.trans hu
    exact hval
  · exact fun hval => ⟨_, hwrite, _, _, hdecode, hval⟩

theorem ne_kVarlen_of_isEndian (hend : ie.ietype.isEndian = true)
    (hp : ie.ietype.permitsLength ie.len.toNat = true) : ie.len ≠ kVarlen := by
  intro hv
  rw [hv] at hp
  cases ht : ie.ietype <;> rw [ht] at hp hend <;> revert hp hend <;> decide

/-- A number of any width on the wire and any width in the structure. -/
theorem integer_round_trips_iff {l v : ℕ} (h : xc.Sound) (hend : ie.ietype.isEndian = true)
    (hw : ie.ietype.permitsLength ie.len.toNat = true) (hroom : ie.len.toNat ≤ xc.avail)
    (hv : v < 2 ^ (8 * min ie.len.toNat l)) :
    RoundTrips xc ie l v ↔ ie.len.toNat = l ∨ v = 0 := by
  have hv' : v < 256 ^ min ie.len.toNat l := by
    rwa [show (256 : ℕ) = 2 ^ 8 from rfl, ← Nat.pow_mul]
  have hvw : v < 256 ^ ie.len.toNat :=
    hv'.trans_le (Nat.pow_le_pow_right (by decide) (Nat.min_le_left _ _))
  rw [roundTrips_eq h (ne_kVarlen_of_isEndian hend hw) hw hroom, xcode, xcode, if_pos hend,
    if_pos hend, rawLeft_le hv', value_turned hvw, turned_eq_iff hv']

/-- `ipTotalLength`, as the packet's templates have it: two bytes on the wire. -/
def ipTotalLength : InfoElement :=
  InfoElement.forLen ⟨"ipTotalLength", 0, 224, IEType.unsigned64, 8⟩ 2

theorem integer_round_trips_two : RoundTrips ⟨[0, 0], 0, none, 2, none, none, none⟩ ipTotalLength 2
    258 := by
  refine (integer_round_trips_iff ⟨?_, ?_⟩ ?_ ?_ ?_ ?_).2 (.inl ?_) <;> decide

/-- Into its `size_t` a length of one comes back as 2 ^ 48. -/
theorem not_integer_round_trips : ¬ ∀ (xc : Transcoder) (ie : InfoElement) (l v : ℕ), xc.Sound →
    ie.ietype.isEndian = true → ie.ietype.permitsLength ie.len.toNat = true →
    ie.ietype.permitsLength l = true → ie.len.toNat ≤ xc.avail →
    v < 2 ^ (8 * min ie.len.toNat l) → RoundTrips xc ie l v := fun h => by
  have htrip := h ⟨[0, 0], 0, none, 2, none, none, none⟩ ipTotalLength 8 1
    ⟨by decide, by decide⟩ (by decide) (by decide) (by decide) (by decide) (by decide)
  rw [roundTrips_eq ⟨by decide, by decide⟩ (by decide) (by decide) (by decide)] at htrip
  exact absurd htrip (by decide)

/-! ## What a call writes -/

/-- With room for them, `x` appends the bytes `bs` and gives `a`. -/
def Writes {α : Type} (x : Attempt Error Transcoder α) (a : α) (bs : List UInt8) : Prop :=
  ∀ xc : Transcoder, xc.Sound → bs.length ≤ xc.avail → x.run xc = (.ok a, xc.put bs)

/-- With room or without, `x` gives a result that meets `Q` and does not leave the buffer. -/
def Stays {α : Type} (x : Attempt Error Transcoder α) (Q : α → Prop) : Prop :=
  ∀ xc : Transcoder, xc.Sound → ∃ a t, x.run xc = (.ok a, t) ∧ Q a ∧ t.Sound ∧ t.max = xc.max

section Writes

variable {α β : Type} {x : Attempt Error Transcoder α} {f : α → Attempt Error Transcoder β} {a : α}
  {b : β} {cs : List UInt8}

theorem writes_pure (a : α) : Writes (pure a) a [] := fun xc _ _ => by
  rw [Attempt.run_pure, put_nil]

theorem Writes.bind (hx : Writes x a bs) (hf : Writes (f a) b cs) :
    Writes (x >>= f) b (bs ++ cs) := by
  intro xc h hroom
  rw [List.length_append] at hroom
  have hbs : bs.length ≤ xc.avail := by omega
  have hcs : cs.length ≤ (xc.put bs).avail := by
    rw [avail_put h hbs]
    omega
  rw [Attempt.run_bind_of_ok (hx xc h hbs), hf _ (h.put hbs) hcs, put_put h]

theorem Writes.of_eq (hx : Writes x a bs) (h : bs = cs) : Writes x a cs := h ▸ hx

theorem writes_forEach {ι : Type} {g : ι → Attempt Error Transcoder Unit} {out : ι → List UInt8}
    (hg : ∀ i, Writes (g i) () (out i)) :
    ∀ is : List ι, Writes (Attempt.forEach g is) () (is.flatMap out)
  | [] => writes_pure ()
  | i :: is => by
    rw [Attempt.forEach_cons, List.flatMap_cons]
    exact (hg i).bind (writes_forEach hg is)

theorem stays_pure {Q : α → Prop} (ha : Q a) : Stays (pure a) Q :=
  fun xc h => ⟨a, xc, rfl, ha, h, rfl⟩

theorem Stays.bind {P : α → Prop} {Q : β → Prop} (hx : Stays x P) (hf : ∀ a, Stays (f a) Q) :
    Stays (x >>= f) Q := by
  intro xc h
  obtain ⟨a, t, hrun, -, hsound, hmax⟩ := hx xc h
  obtain ⟨b, u, hrun', hb, hsound', hmax'⟩ := hf a t hsound
  exact ⟨b, u, (Attempt.run_bind_of_ok hrun).trans hrun', hb, hsound', hmax'.trans hmax⟩

theorem stays_forEach {ι : Type} {g : ι → Attempt Error Transcoder Unit}
    (hg : ∀ i, Stays (g i) fun _ => True) :
    ∀ is : List ι, Stays (Attempt.forEach g is) fun _ => True
  | [] => stays_pure trivial
  | i :: is => (hg i).bind fun _ => stays_forEach hg is

end Writes

def uint16Bytes (v : UInt16) : List UInt8 := (Bytes.le 2 v.toNat).reverse

def uint32Bytes (v : UInt32) : List UInt8 := (Bytes.le 4 v.toNat).reverse

@[simp] theorem length_uint16Bytes (v : UInt16) : (uint16Bytes v).length = 2 := by
  rw [uint16Bytes, List.length_reverse, Bytes.length_le]

@[simp] theorem length_uint32Bytes (v : UInt32) : (uint32Bytes v).length = 4 := by
  rw [uint32Bytes, List.length_reverse, Bytes.length_le]

theorem rawLeft_self (src : List UInt8) : rawLeft src src.length = src := by
  rw [rawLeft, List.take_length, Nat.sub_self, List.replicate_zero, List.append_nil]

theorem wire_u16ie (v : UInt16) : wire u16ie (Bytes.le 2 v.toNat) = uint16Bytes v := by
  have hraw := rawLeft_self (Bytes.le 2 v.toNat)
  rw [Bytes.length_le] at hraw
  rw [wire_fixed (by decide)]
  exact congrArg List.reverse hraw

theorem wire_u32ie (v : UInt32) : wire u32ie (Bytes.le 4 v.toNat) = uint32Bytes v := by
  have hraw := rawLeft_self (Bytes.le 4 v.toNat)
  rw [Bytes.length_le] at hraw
  rw [wire_fixed (by decide)]
  exact congrArg List.reverse hraw

theorem writes_encodeUint16 (v : UInt16) : Writes (encodeUint16 v) true (uint16Bytes v) := by
  intro xc h hroom
  rw [encodeUint16, run_encode h rfl (by rwa [wire_u16ie]), wire_u16ie]

theorem writes_encodeUint32 (v : UInt32) : Writes (encodeUint32 v) true (uint32Bytes v) := by
  intro xc h hroom
  rw [encodeUint32, run_encode h rfl (by rwa [wire_u32ie]), wire_u32ie]

theorem encodeUint16_full {v : UInt16} (hroom : xc.avail < 2) :
    (encodeUint16 v).run xc = (.ok false, xc) := by
  refine run_encode_full ?_
  rwa [wire_u16ie, length_uint16Bytes]

theorem encodeUint32_full {v : UInt32} (hroom : xc.avail < 4) :
    (encodeUint32 v).run xc = (.ok false, xc) := by
  refine run_encode_full ?_
  rwa [wire_u32ie, length_uint32Bytes]

/-- A number is written or, without room, not. -/
theorem stays_of_full {x : Attempt Error Transcoder Bool} (hx : Writes x true bs)
    (hfull : ∀ xc : Transcoder, xc.avail < bs.length → x.run xc = (.ok false, xc)) :
    Stays x fun _ => True := by
  intro xc h
  rcases Nat.lt_or_ge xc.avail bs.length with hroom | hroom
  · exact ⟨false, xc, hfull xc hroom, trivial, h, rfl⟩
  · exact ⟨true, _, hx xc h hroom, trivial, h.put hroom, rfl⟩

theorem stays_encodeUint16 (v : UInt16) : Stays (encodeUint16 v) fun _ => True :=
  stays_of_full (writes_encodeUint16 v) fun _ hroom =>
    encodeUint16_full (by rwa [length_uint16Bytes] at hroom)

theorem stays_encodeUint32 (v : UInt32) : Stays (encodeUint32 v) fun _ => True :=
  stays_of_full (writes_encodeUint32 v) fun _ hroom =>
    encodeUint32_full (by rwa [length_uint32Bytes] at hroom)

/-! ## Numbers read -/

theorem sound_seek {n : ℕ} (h : xc.Sound) (hn : n ≤ xc.max) : (xc.seek n).Sound := ⟨hn, h.max_le⟩

theorem run_advance {n : ℕ} (h : xc.Sound) (hn : xc.cur + n ≤ xc.max) :
    (advance n).run xc = (.ok true, xc.seek (xc.cur + n)) := by
  have havail : ¬ n > xc.avail := by
    rw [avail_of_le h.cur_le]
    omega
  rw [advance, Attempt.run_get_bind, if_neg havail, Attempt.run_modify_bind]
  rfl

/-- A fixed number of bytes is taken where they are there. -/
theorem run_content (h : xc.Sound) (hv : ie.len ≠ kVarlen)
    (hp : ie.ietype.permitsLength ie.len.toNat = true) (hroom : xc.cur + ie.len.toNat ≤ xc.max) :
    (content ie).run xc =
      (.ok (some (xc.ahead.take ie.len.toNat)), xc.seek (xc.cur + ie.len.toNat)) := by
  have hmax := h.max_le
  rw [content, if_neg hv, contentBytes, Attempt.run_get_bind, avail_of_le h.cur_le, hp,
    if_neg (by omega), if_neg (by simp), if_neg (by omega)]
  rfl

theorem run_content_short (h : xc.Sound) (hv : ie.len ≠ kVarlen)
    (hshort : xc.max < xc.cur + ie.len.toNat) : (content ie).run xc = (.ok none, xc) := by
  have hcur := h.cur_le
  rw [content, if_neg hv, contentBytes, Attempt.run_get_bind, avail_of_le hcur, if_pos (by omega)]
  rfl

theorem run_decode (h : xc.Sound) (hv : ie.len ≠ kVarlen)
    (hp : ie.ietype.permitsLength ie.len.toNat = true) (l : ℕ) : (decode l ie).run xc =
      if xc.cur + ie.len.toNat ≤ xc.max then
        (.ok (some (xcode ie.ietype (xc.ahead.take ie.len.toNat) l)),
          xc.seek (xc.cur + ie.len.toNat))
      else (.ok none, xc) := by
  rw [decode]
  split_ifs with hroom
  · rw [Attempt.run_bind_of_ok (run_content h hv hp hroom)]
    rfl
  · rw [Attempt.run_bind_of_ok (run_content_short h hv (Nat.not_le.1 hroom))]
    rfl

theorem xcode_turned {iet : IEType} {bs : List UInt8} {d : ℕ} (hend : iet.isEndian = true)
    (hd : bs.length = d) : xcode iet bs d = bs.reverse := by
  subst hd
  rw [xcode, if_pos hend, rawLeft_self]

theorem length_ahead_take {n : ℕ} (h : xc.Sound) (hroom : xc.cur + n ≤ xc.max) :
    (xc.ahead.take n).length = n := by
  have hmax := h.max_le
  rw [List.length_take, ahead, List.length_drop]
  omega

theorem run_decodeUint16 (h : xc.Sound) : decodeUint16.run xc =
    if xc.cur + 2 ≤ xc.max then (.ok (Bytes.be16 xc.buf xc.cur), xc.seek (xc.cur + 2))
    else (.ok none, xc) := by
  have hmax := h.max_le
  have hread : (decode 2 u16ie).run xc = if xc.cur + 2 ≤ xc.max then _ else _ :=
    run_decode h (by decide) (by decide) 2
  rw [decodeUint16]
  split_ifs at hread ⊢ with hroom
  · have hturned : xcode u16ie.ietype (xc.ahead.take 2) 2 = (xc.ahead.take 2).reverse :=
      xcode_turned rfl (length_ahead_take h hroom)
    rw [Attempt.run_bind_of_ok hread, Bytes.be16_eq (by omega), Attempt.run_pure, Option.map_some]
    exact congrArg (fun bs => (Except.ok (some (UInt16.ofNat (Bytes.value bs))), _)) hturned
  · rw [Attempt.run_bind_of_ok hread]
    rfl

theorem run_decodeUint32 (h : xc.Sound) : decodeUint32.run xc =
    if xc.cur + 4 ≤ xc.max then (.ok (Bytes.be32 xc.buf xc.cur), xc.seek (xc.cur + 4))
    else (.ok none, xc) := by
  have hmax := h.max_le
  have hread : (decode 4 u32ie).run xc = if xc.cur + 4 ≤ xc.max then _ else _ :=
    run_decode h (by decide) (by decide) 4
  rw [decodeUint32]
  split_ifs at hread ⊢ with hroom
  · have hturned : xcode u32ie.ietype (xc.ahead.take 4) 4 = (xc.ahead.take 4).reverse :=
      xcode_turned rfl (length_ahead_take h hroom)
    rw [Attempt.run_bind_of_ok hread, Bytes.be32_eq (by omega), Attempt.run_pure, Option.map_some]
    exact congrArg (fun bs => (Except.ok (some (UInt32.ofNat (Bytes.value bs))), _)) hturned
  · rw [Attempt.run_bind_of_ok hread]
    rfl

/-- The bytes up to the buffer's end. -/
def mem (xc : Transcoder) : List UInt8 := xc.buf.take xc.max

theorem Sound.length_mem (h : xc.Sound) : xc.mem.length = xc.max :=
  List.length_take_of_le h.max_le

theorem decodeUint16_cases (h : xc.Sound) :
    (∃ v, Bytes.be16 xc.mem xc.cur = some v ∧ xc.cur + 2 ≤ xc.max ∧
      decodeUint16.run xc = (.ok (some v), xc.seek (xc.cur + 2))) ∨
    Bytes.be16 xc.mem xc.cur = none ∧ xc.max < xc.cur + 2 ∧
      decodeUint16.run xc = (.ok none, xc) := by
  have hlen := h.length_mem
  rw [run_decodeUint16 h]
  split_ifs with hroom
  · obtain ⟨v, hv⟩ := Bytes.be16_of_lt (m := xc.mem) (i := xc.cur) (by omega)
    have hbuf := hv
    rw [mem, Bytes.be16_take hroom] at hbuf
    exact .inl ⟨v, hv, hroom, by rw [hbuf]⟩
  · exact .inr ⟨Bytes.be16_eq_none (by omega), Nat.not_le.1 hroom, rfl⟩

theorem decodeUint32_cases (h : xc.Sound) :
    (∃ v, Bytes.be32 xc.mem xc.cur = some v ∧ xc.cur + 4 ≤ xc.max ∧
      decodeUint32.run xc = (.ok (some v), xc.seek (xc.cur + 4))) ∨
    Bytes.be32 xc.mem xc.cur = none ∧ decodeUint32.run xc = (.ok none, xc) := by
  have hlen := h.length_mem
  rw [run_decodeUint32 h]
  split_ifs with hroom
  · obtain ⟨v, hv⟩ := Bytes.be32_of_lt (m := xc.mem) (i := xc.cur) (by omega)
    have hbuf := hv
    rw [mem, Bytes.be32_take hroom] at hbuf
    exact .inl ⟨v, hv, hroom, by rw [hbuf]⟩
  · exact .inr ⟨Bytes.be32_eq_none (by omega), rfl⟩

end Transcoder

end DStreamon.Ipfix
